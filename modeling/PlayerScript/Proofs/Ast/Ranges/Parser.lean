/-
The parser on ranges of positions. It takes a range apart by the positions of tokens, and it looks at
tokens next to a position without asking first whether they still belong to the range.
-/
import PlayerScript.Proofs.Ast.Ranges.Reader

namespace PlayerScript.Ast.Ranges

open Reading

/-- The parsers that a larger construct uses for its parts. A statement comes with the position after
it. -/
structure Readers where
  expression : Nat → Nat → Reading Expr
  statement : Nat → Nat → Reading (Stmt × Nat)

variable (l : Layout) (parts : Readers)

/-! ## Lists of statements and functions -/

/-- Reads statements until the range ends; semicolons between them are passed over. -/
def statementsFrom (hi : Nat) : Nat → Nat → Reading (List Stmt)
  | 0, pos => if pos < hi then stuck else done []
  | fuel + 1, pos =>
    if pos < hi then
      if l.punctAt pos .semicolon then statementsFrom hi fuel (pos + 1)
      else do
        let (stmt, next) ← parts.statement pos hi
        note (.taken pos next hi)
        let more ← statementsFrom hi fuel next
        return stmt :: more
    else done []

/-- Reads a range as a list of statements. -/
def statements (lo hi : Nat) : Reading (List Stmt) := do
  note (.statements lo hi)
  statementsFrom l parts hi (hi - lo) lo

/-- Reads the name of a parameter. -/
def parameter (range : Nat × Nat) : Reading String := do
  let t ← l.tokenAt range.1
  match t.ident? with
  | some name => if range.2 = range.1 + 1 then done name else l.unsupported range.1 range.2
  | none => l.unsupported range.1 range.2

/-- A function, and the position after it. -/
structure Function where
  name : String
  params : List String
  body : List Stmt
  next : Nat

/-- The name at a position, or a minted one, and the position where the parameters are expected. -/
def functionName (pos hi : Nat) : Reading (String × Nat) :=
  match if pos < hi then l.identAt? pos else none with
  | some name => done (name, pos + 1)
  | none => do
    let name ← mint
    return (name, pos)

/-- Reads a function from its word on. -/
def functionAt (pos hi : Nat) : Reading Function := do
  let (name, cursor) ← functionName l (pos + 1) hi
  let close ← l.expectOpen .round cursor hi
  let ranges ← l.listed (cursor + 1) close
  let params ← each (parameter l) ranges
  let bodyClose ← l.expectOpen .curly (close + 1) hi
  let body ← statements l parts (close + 2) bodyClose
  return ⟨name, params, body, bodyClose + 1⟩

/-! ## Primaries and suffixes -/

/-- The key at a position, if the token is one. -/
def keyAt? (i : Nat) : Option String :=
  l.tokens[i]?.bind fun t =>
    match t.kind with
    | .ident name => some name
    | .string s => some s
    | .number x => some (Number.text x)
    | .punct _ => none

/-- Reads one member of an object. -/
def objectMember (range : Nat × Nat) : Reading (String × Expr) :=
  match if range.1 < range.2 then keyAt? l range.1 else none with
  | some key =>
    if l.punctAt (range.1 + 1) .colon = false ∨ range.2 ≤ range.1 + 2 then
      l.unsupported range.1 range.2
    else do
      let value ← parts.expression (range.1 + 2) range.2
      return (key, value)
  | none => l.unsupported range.1 range.2

/-- Reads an element of an array. -/
def arrayElement (range : Nat × Nat) : Reading Expr :=
  if range.1 = range.2 then done (.literal .undefined) else parts.expression range.1 range.2

/-- Reads a name as a primary. -/
def namePrimary (lo hi : Nat) (name : String) : Reading (Expr × Nat) :=
  if name = "function" then do
    let f ← functionAt l parts lo hi
    return (.function f.name f.params f.body, f.next)
  else
    match wordLiteral? name with
    | some value => done (.literal value, lo + 1)
    | none =>
      if operatorWords.contains name || statementWords.contains name then l.unsupported lo hi
      else done (.ident name, lo + 1)

/-- Reads the primary at the front of a range, and gives the position after it. -/
def primary (lo hi : Nat) : Reading (Expr × Nat) := do
  let t ← l.tokenAt lo
  match t.kind with
  | .number x => done (.literal (.number x), lo + 1)
  | .string s => done (.literal (.string s), lo + 1)
  | .ident name => namePrimary l parts lo hi name
  | .punct (.opening .round) => do
    let close ← l.closeOf lo hi
    let inner ← parts.expression (lo + 1) close
    return (inner, close + 1)
  | .punct (.opening .square) => do
    let close ← l.closeOf lo hi
    let ranges ← l.listed (lo + 1) close
    let elements ← each (arrayElement parts) ranges
    return (.array elements, close + 1)
  | .punct (.opening .curly) => do
    let close ← l.closeOf lo hi
    let ranges ← l.listed (lo + 1) close
    let members ← each (objectMember l parts) ranges
    return (.object members, close + 1)
  | .punct _ => l.unsupported lo hi

/-- Reads the suffix at a position, after an expression, and gives the position after it. -/
def suffix (lo hi : Nat) (e : Expr) (pos : Nat) : Reading (Expr × Nat) := do
  let t ← l.tokenAt pos
  match t.kind with
  | .punct (.opening .square) => do
    let close ← l.closeOf pos hi
    let key ← parts.expression (pos + 1) close
    return (.member e (.computed key) false, close + 1)
  | .punct (.opening .round) => do
    let close ← l.closeOf pos hi
    let ranges ← l.listed (pos + 1) close
    let args ← each (fun range => parts.expression range.1 range.2) ranges
    return (.call e args, close + 1)
  | .punct p =>
    if p = .dot ∨ p = .optionalDot then
      if p = .optionalDot ∧ l.punctAt (pos + 1) (.opening .square) then do
        let close ← l.closeOf (pos + 1) hi
        let key ← parts.expression (pos + 2) close
        return (.member e (.computed key) true, close + 1)
      else
        match if pos + 1 < hi then l.identAt? (pos + 1) else none with
        | some name => done (.member e (.name name) (p = .optionalDot), pos + 2)
        | none => l.unsupported lo hi
    else l.unsupported lo hi
  | _ => l.unsupported lo hi

/-- Reads suffixes until the range ends. -/
def suffixes (lo hi : Nat) : Nat → Expr → Nat → Reading Expr
  | 0, e, pos => if pos < hi then stuck else done e
  | fuel + 1, e, pos =>
    if pos < hi then do
      let (e, next) ← suffix l parts lo hi e pos
      suffixes lo hi fuel e next
    else done e

/-- Reads a primary and its suffixes. -/
def chain (lo hi : Nat) : Reading Expr := do
  let (e, pos) ← primary l parts lo hi
  suffixes l parts lo hi (hi - pos) e pos

/-! ## Operators -/

/-- Reads a range without a binary operator. -/
def operand (lo hi : Nat) : Reading Expr := do
  let first ← l.tokenAt lo
  match unaryOp? first with
  | some op => do
    let e ← parts.expression (lo + 1) hi
    return .unary op e
  | none =>
    match updateOp? first with
    | some op =>
      match if lo + 1 < hi then l.identAt? (lo + 1) else none with
      | some name => if hi = lo + 2 then done (.update op true name) else l.unsupported lo hi
      | none => l.unsupported lo hi
    | none =>
      match if hi = lo + 2 then l.tokens[lo + 1]?.bind updateOp? else none with
      | some op =>
        match first.ident? with
        | some name =>
          if statementWords.contains name then l.unsupported lo hi
          else done (.update op false name)
        | none => l.unsupported lo hi
      | none => chain l parts lo hi

/-- Reads the index of an assigned element, between the variable and the operator. -/
def indexBefore (lo mark hi : Nat) : Reading (Option Expr) :=
  if mark = lo + 1 then done none
  else do
    let partner ← l.partnerAt (lo + 1)
    if l.punctAt (lo + 1) (.opening .square) ∧ partner = some (mark - 1) ∧ lo + 3 < mark then do
      let key ← parts.expression (lo + 2) (mark - 1)
      return some key
    else l.refuse .invalidTarget lo hi

/-- Reads an assignment, given the position of its operator. -/
def assignment (lo mark hi : Nat) : Reading Expr := do
  let t ← l.tokenAt mark
  match if lo < mark then l.identAt? lo else none with
  | none => l.refuse .invalidTarget lo hi
  | some name =>
    if statementWords.contains name then l.refuse .invalidTarget lo hi
    else do
      let index ← indexBefore l parts lo mark hi
      let value ← parts.expression (mark + 1) hi
      return .assign name index ((assignOp? t).getD none) value

/-- Reads a conditional, given the position of its question mark. -/
def conditional (lo question hi : Nat) : Reading Expr := do
  let marks ← l.findAll (fun t => t.isPunct .question || t.isPunct .colon) (question + 1) hi
  match l.colonAmong 0 marks with
  | none => l.refuse (.expected ": in conditional") lo hi
  | some colon => do
    let test ← parts.expression lo question
    let consequent ← parts.expression (question + 1) colon
    let alternate ← parts.expression (colon + 1) hi
    return .conditional test consequent alternate

/-- Reads a range without a comma. -/
def singleExpression (lo hi : Nat) : Reading Expr := do
  match ← l.find (fun t => (assignOp? t).isSome) lo hi with
  | some mark => assignment l parts lo mark hi
  | none =>
    match ← l.find (fun t => t.isPunct .question) lo hi with
    | some question => conditional l parts lo question hi
    | none =>
      match ← l.operatorIn lo hi BinaryOp.scanOrder with
      | some (op, i) => do
        let left ← parts.expression lo i
        let right ← parts.expression (i + 1) hi
        return .binary op left right
      | none => operand l parts lo hi

/-- Reads a range that is not empty as an expression. -/
def expressionStep (lo hi : Nat) : Reading Expr := do
  let ranges ← l.split .comma lo hi
  if 1 < ranges.length then do
    let items ← each (fun range => parts.expression range.1 range.2) ranges
    return .sequence items
  else singleExpression l parts lo hi

/-! ## Statements -/

/-- Reads one declared variable. -/
def declaration (range : Nat × Nat) : Reading (String × Option Expr) :=
  match if range.1 < range.2 then l.identAt? range.1 else none with
  | none => l.refuse (.expected "variable name") range.1 range.2
  | some name =>
    if range.2 = range.1 + 1 then done (name, none)
    else if l.punctAt (range.1 + 1) (.assign none) ∧ range.1 + 2 < range.2 then do
      let init ← parts.expression (range.1 + 2) range.2
      return (name, some init)
    else l.refuse .invalidDeclaration range.1 range.2

/-- Reads declared variables. -/
def declarations (lo hi : Nat) : Reading (List (String × Option Expr)) :=
  if hi ≤ lo then l.refuse (.expected "variable name") (lo - 1) hi
  else do
    let ranges ← l.split .comma lo hi
    each (declaration l parts) ranges

/-- Reads an expression unless the range is empty. -/
def optionalExpression (range : Nat × Nat) : Reading (Option Expr) :=
  if range.2 ≤ range.1 then done none
  else do
    let e ← parts.expression range.1 range.2
    return some e

/-- The position after an `else`, possibly after one semicolon. -/
def elseAt? (pos hi : Nat) : Option Nat :=
  let look := if l.punctAt pos .semicolon ∧ pos + 1 < hi ∧ l.wordAt (pos + 1) "else" then pos + 1 else pos
  if look < hi ∧ l.wordAt look "else" then some (look + 1) else none

/-- Reads a branch from its word on. -/
def ifStatement (pos hi : Nat) : Reading (Stmt × Nat) := do
  let close ← l.expectOpen .round (pos + 1) hi
  let cond ← parts.expression (pos + 2) close
  let (body, next) ← parts.statement (close + 1) hi
  match elseAt? l next hi with
  | none => return (.ifElse cond body none, next)
  | some start => do
    let (otherwise, next) ← parts.statement start hi
    return (.ifElse cond body (some otherwise), next)

/-- Reads what a loop starts with. -/
def loopInit (range : Nat × Nat) : Reading (Option Stmt) :=
  if range.1 < range.2 then
    if declaringWords.any (l.wordAt range.1) then do
      let decls ← declarations l parts (range.1 + 1) range.2
      return some (.var decls)
    else do
      let e ← parts.expression range.1 range.2
      return some (.expr e)
  else done none

/-- Reads a loop from its word on. -/
def forStatement (pos hi : Nat) : Reading (Stmt × Nat) := do
  let close ← l.expectOpen .round (pos + 1) hi
  match ← l.split .semicolon (pos + 2) close with
  | [first, second, third] => do
    let init ← loopInit l parts first
    let cond ← optionalExpression parts second
    let update ← optionalExpression parts third
    let (body, next) ← parts.statement (close + 1) hi
    return (.forLoop init cond update body, next)
  | _ => l.unsupported pos (close + 1)

/-- Reads the label of a clause, between its word and a colon. The default clause has none. -/
def clauseLabel (marker colon stop : Nat) : Reading (Option Expr) :=
  if l.wordAt marker "default" then
    if colon = marker + 1 then done none else l.refuse .invalidDefault marker stop
  else do
    let e ← parts.expression (marker + 1) colon
    return some e

/-- Reads the clause from its word up to a position. -/
def clause (marker stop : Nat) : Reading Clause := do
  match ← l.find (fun t => t.isPunct .colon) (marker + 1) stop with
  | none => l.refuse (.expected ": after case") marker stop
  | some colon => do
    let label ← clauseLabel l parts marker colon stop
    let body ← statements l parts (colon + 1) stop
    return .mk label body

/-- Reads the clauses of a switch that begin at given positions and end at `hi`. -/
def clauses (hi : Nat) : List Nat → Reading (List Clause)
  | [] => done []
  | marker :: rest => do
    let c ← clause l parts marker (rest.head?.getD hi)
    let cs ← clauses hi rest
    return c :: cs

/-- Whether a clause begins at a position that holds one of the two words. -/
def beginsClause (lo i : Nat) : Bool :=
  decide (i = lo) || !(l.punctAt (i - 1) .dot || l.punctAt (i - 1) .optionalDot)

/-- Reads a switch from its word on. -/
def switchStatement (pos hi : Nat) : Reading (Stmt × Nat) := do
  let close ← l.expectOpen .round (pos + 1) hi
  let selector ← parts.expression (pos + 2) close
  let bodyClose ← l.expectOpen .curly (close + 1) hi
  let lo := close + 2
  let words ← l.findAll (fun t => t.isWord "case" || t.isWord "default") lo bodyClose
  let markers := words.filter (beginsClause l lo)
  if lo < bodyClose ∧ markers.head? ≠ some lo then l.refuse (.expected "case") lo bodyClose
  else do
    let cs ← clauses l parts bodyClose markers
    return (.switch selector cs, bodyClose + 1)

/-- Reads the parameter of a handler, if it has parentheses, and gives the position after them. -/
def handlerHeaderAt (pos hi : Nat) : Reading (Option String × Nat) :=
  if l.punctAt pos (.opening .round) then do
    let close ← l.closeOf pos hi
    if close = pos + 2 then do
      let t ← l.tokenAt (pos + 1)
      return (t.ident?, close + 1)
    else return (none, close + 1)
  else done (none, pos)

/-- Reads a handler, if there is one, and gives the position after it. -/
def handlerAt (pos hi : Nat) : Reading (Option (Option String) × Nat) :=
  if pos < hi ∧ l.wordAt pos "catch" then do
    let (param, block) ← handlerHeaderAt l (pos + 1) hi
    let close ← l.expectOpen .curly block hi
    return (some param, close + 1)
  else done (none, pos)

/-- Reads a clean-up block, if there is one, and gives the position after it. -/
def cleanupAt (pos hi : Nat) : Reading (Option (List Stmt) × Nat) :=
  if pos < hi ∧ l.wordAt pos "finally" then do
    let close ← l.expectOpen .curly (pos + 1) hi
    let body ← statements l parts (pos + 2) close
    return (some body, close + 1)
  else done (none, pos)

/-- Reads a guarded block from its word on. -/
def tryStatement (pos hi : Nat) : Reading (Stmt × Nat) := do
  let close ← l.expectOpen .curly (pos + 1) hi
  let body ← statements l parts (pos + 2) close
  let (caught, next) ← handlerAt l (close + 1) hi
  let (final, next) ← cleanupAt l parts next hi
  return (.tryBlock body caught final, next)

/-- Reads an expression up to the end of the statement. -/
def expressionStatement (pos hi : Nat) : Reading (Stmt × Nat) := do
  let stop ← l.statementEnd pos hi
  let e ← parts.expression pos stop
  return (.expr e, stop)

/-- Reads a statement by its first word. -/
def wordStatement (pos hi : Nat) (name : String) : Reading (Stmt × Nat) :=
  if declaringWords.contains name then do
    let stop ← l.statementEnd (pos + 1) hi
    let decls ← declarations l parts (pos + 1) stop
    return (.var decls, stop)
  else if name = "return" then do
    let stop ← l.statementEnd (pos + 1) hi
    let value ← optionalExpression parts (pos + 1, stop)
    return (.returns value, stop)
  else if name = "throw" then do
    let stop ← l.statementEnd (pos + 1) hi
    let value ← parts.expression (pos + 1) stop
    return (.throws value, stop)
  else if name = "break" ∨ name = "continue" then do
    let stop ← l.statementEnd (pos + 1) hi
    if stop = pos + 1 then done (if name = "break" then .breaks else .continues, stop)
    else l.unsupported pos stop
  else if name = "if" then ifStatement l parts pos hi
  else if name = "for" then forStatement l parts pos hi
  else if name = "switch" then switchStatement l parts pos hi
  else if name = "try" then tryStatement l parts pos hi
  else if name = "function" ∧ (l.identAt? (pos + 1)).isSome then do
    let f ← functionAt l parts pos hi
    return (.var [(f.name, some (.function f.name f.params f.body))], f.next)
  else if unsupportedWords.contains name then do
    let stop ← l.statementEnd pos hi
    l.unsupported pos stop
  else expressionStatement l parts pos hi

/-- Whether braces from one position to another are an object used as a value. -/
def isObjectAt (pos close hi : Nat) : Bool :=
  let memberTaken := decide (close + 1 < hi) && (l.punctAt (close + 1) .dot ||
    l.punctAt (close + 1) .optionalDot || l.punctAt (close + 1) (.opening .square))
  let keyed := decide (pos + 2 < close) && (keyAt? l (pos + 1)).isSome && l.punctAt (pos + 2) .colon
  memberTaken || keyed || (decide (close = pos + 1) && decide (close + 1 = hi))

/-- Reads the statement at the front of a range that is not empty. -/
def statementStep (pos hi : Nat) : Reading (Stmt × Nat) := do
  let first ← l.tokenAt pos
  match first.kind with
  | .punct .semicolon => done (.empty, pos + 1)
  | .punct (.opening .curly) => do
    let close ← l.closeOf pos hi
    if isObjectAt l pos close hi then expressionStatement l parts pos hi
    else do
      let body ← statements l parts (pos + 1) close
      return (.block body, close + 1)
  | .ident name => wordStatement l parts pos hi name
  | _ => expressionStatement l parts pos hi

/-! ## The whole parser -/

mutual

/-- Reads a range as an expression, within a number of levels. -/
def expressionWithin : Nat → Nat → Nat → Reading Expr
  | depth, lo, hi => do
    note (.expression lo hi)
    if hi ≤ lo then l.refuse (.expected "expression") (lo - 1) (max hi lo)
    else
      match depth with
      | 0 => l.refuse .nestingTooDeep lo hi
      | depth + 1 => expressionStep l ⟨expressionWithin depth, statementWithin depth⟩ lo hi

/-- Reads the statement at the front of a range, within a number of levels. -/
def statementWithin : Nat → Nat → Nat → Reading (Stmt × Nat)
  | depth, pos, hi => do
    note (.statement pos hi)
    if hi ≤ pos then l.refuse (.expected "statement") (pos - 1) hi
    else
      match depth with
      | 0 => l.refuse .nestingTooDeep pos hi
      | depth + 1 => statementStep l ⟨expressionWithin depth, statementWithin depth⟩ pos hi

end

/-- The parsers for a number of levels. -/
def readersWithin (depth : Nat) : Readers := ⟨expressionWithin l depth, statementWithin l depth⟩

/-- Parses all tokens of a layout as a list of statements. -/
def parse (maxDepth : Nat) : Reading (List Stmt) :=
  statements l (readersWithin l maxDepth) 0 l.tokens.size

end PlayerScript.Ast.Ranges
