/-
Parsing of statements. A statement is known by its first word or bracket; everything else is an
expression up to the next semicolon.
-/
import PlayerScript.Ast.Parser.Expression

namespace PlayerScript.Ast

/-- The words that declare variables. -/
def declaringWords : List String := ["var", "let", "const"]

/-- The words of statements outside the language. -/
def unsupportedWords : List String := ["while", "do", "class", "import", "export"]

/-! ## Declarations -/

/-- Parses one declared variable: a name, or a name, an equals sign and a value. -/
def declaration (parts : Parsers) (r : Range) : Parse (String × Option Expr) :=
  match r.items with
  | [] => .fault (.expected "variable name") r.span
  | first :: rest =>
    match first.ident? with
    | none => .fault (.expected "variable name") r.span
    | some name =>
      match rest with
      | [] => Parse.done (name, none)
      | equals :: value :: more =>
        if equals.isPunct (.assign none) then do
          let init ← parts.expression ⟨some equals.last, value :: more⟩
          return (name, some init)
        else .fault .invalidDeclaration r.span
      | _ => .fault .invalidDeclaration r.span

/-- Parses the variables declared after a word. -/
def declarations (parts : Parsers) (word : Token) (items : List Item) :
    Parse (List (String × Option Expr)) :=
  let r : Range := ⟨some word, items⟩
  if items.isEmpty then r.missing "variable name"
  else Parse.each (declaration parts) (r.splitAt .comma)

/-- Parses an expression unless the range is empty. -/
def optionalExpression (parts : Parsers) (r : Range) : Parse (Option Expr) :=
  if r.items.isEmpty then Parse.done none
  else do
    let e ← parts.expression r
    return some e

/-! ## Branches and loops -/

/-- What follows an `else`, possibly after one semicolon, with the word itself. -/
def elseBranch? : List Item → Option (Token × List Item)
  | first :: rest =>
    if first.isWord "else" then some (first.last, rest)
    else if first.isPunct .semicolon then
      match rest with
      | second :: more => if second.isWord "else" then some (second.last, more) else none
      | [] => none
    else none
  | [] => none

/-- Parses a branch after its word. -/
def ifStatement (parts : Parsers) (clauseNext : Bool) (items : List Item) : Parse Parsed := do
  let header ← expectGroup .round items
  let cond ← parts.expression header.range
  let body ← parts.statement clauseNext ⟨some header.closing, header.rest⟩
  match elseBranch? body.rest with
  | none => return ⟨.ifElse cond body.stmt none, body.last, body.rest⟩
  | some (word, rest) => do
    let otherwise ← parts.statement clauseNext ⟨some word, rest⟩
    return ⟨.ifElse cond body.stmt (some otherwise.stmt), otherwise.last, otherwise.rest⟩

/-- Parses what a loop starts with: nothing, declarations or an expression. -/
def loopInit (parts : Parsers) (r : Range) : Parse (Option Stmt) :=
  match r.items with
  | [] => Parse.done none
  | first :: rest =>
    if declaringWords.any first.isWord then do
      let decls ← declarations parts first.last rest
      return some (.var decls)
    else do
      let e ← parts.expression r
      return some (.expr e)

/-- Parses a loop after its word. Its header has three parts. -/
def forStatement (parts : Parsers) (clauseNext : Bool) (word : Token) (items : List Item) :
    Parse Parsed := do
  let header ← expectGroup .round items
  match header.range.splitAt .semicolon with
  | [first, second, third] => do
    let init ← loopInit parts first
    let cond ← optionalExpression parts second
    let update ← optionalExpression parts third
    let body ← parts.statement clauseNext ⟨some header.closing, header.rest⟩
    return ⟨.forLoop init cond update body.stmt, body.last, body.rest⟩
  | _ => Parse.unsupported ⟨word.start, header.closing.stop⟩

/-! ## Switches -/

/-- Whether an item begins a clause: one of the two words, unless it names a member. -/
def isClauseWord (previous : Option Item) (item : Item) : Bool :=
  (item.isWord "case" || item.isWord "default") &&
    !previous.any fun p => p.isPunct .dot || p.isPunct .optionalDot

/-- The items before the first clause, and the clauses, each as its word and the items after it. -/
def splitClauses : Option Item → List Item → List Item × List (Token × List Item)
  | _, [] => ([], [])
  | previous, item :: rest =>
    let (lead, clauses) := splitClauses (some item) rest
    if isClauseWord previous item then ([], (item.last, lead) :: clauses)
    else (item :: lead, clauses)

/-- Parses the label of a clause; the default clause has none. -/
def clauseLabel (parts : Parsers) (word : Token) (items : List Item) (cut : Cut) :
    Parse (Option Expr) :=
  if word.isWord "default" then
    if cut.left.isEmpty then Parse.done none
    else .fault .invalidDefault (Item.spanOf (.leaf word :: items))
  else do
    let label ← parts.expression ⟨some word, cut.left⟩
    return some label

/-- Parses one clause: a label up to the first colon, and statements. -/
def clause (parts : Parsers) (clauseNext : Bool) (word : Token) (items : List Item) :
    Parse Clause :=
  match Cut.first? (fun t => t.isPunct .colon) items with
  | none => .fault (.expected ": after case") (Item.spanOf (.leaf word :: items))
  | some cut => do
    let label ← clauseLabel parts word items cut
    let body ← statements parts clauseNext ⟨some cut.token, cut.right⟩
    return .mk label body

/-- Parses the clauses of a switch. All but the last one end at the next clause. -/
def clausesOf (parts : Parsers) : List (Token × List Item) → Parse (List Clause)
  | [] => Parse.done []
  | (word, items) :: rest => do
    let c ← clause parts (!rest.isEmpty) word items
    let cs ← clausesOf parts rest
    return c :: cs

/-- Parses a switch after its word. -/
def switchStatement (parts : Parsers) (items : List Item) : Parse Parsed := do
  let header ← expectGroup .round items
  let selector ← parts.expression header.range
  let braces ← expectGroup .curly header.rest
  let (lead, parted) := splitClauses none braces.items
  if lead.isEmpty then do
    let clauses ← clausesOf parts parted
    return ⟨.switch selector clauses, braces.closing, braces.rest⟩
  else Parse.fault (.expected "case") (Item.spanOf braces.items)

/-! ## Guarded blocks -/

/-- The parameter of a handler: a single name in parentheses. -/
def handlerParam : List Item → Option String
  | [item] => item.ident?
  | _ => none

/-- The items after the parentheses of a handler, if it has any, and its parameter. -/
def handlerHeader : List Item → Option String × List Item
  | .group .round _ _ inner :: rest => (handlerParam inner, rest)
  | items => (none, items)

/-- Passes over a handler, whose body is never parsed. -/
def handler (last : Token) (items : List Item) :
    Parse (Option (Option String) × Token × List Item) :=
  match items with
  | word :: rest =>
    if word.isWord "catch" then do
      let (param, afterParam) := handlerHeader rest
      let braces ← expectGroup .curly afterParam
      return (some param, braces.closing, braces.rest)
    else Parse.done (none, last, items)
  | [] => Parse.done (none, last, items)

/-- Parses a clean-up block. -/
def cleanup (parts : Parsers) (last : Token) (items : List Item) :
    Parse (Option (List Stmt) × Token × List Item) :=
  match items with
  | word :: rest =>
    if word.isWord "finally" then do
      let braces ← expectGroup .curly rest
      let body ← statements parts false braces.range
      return (some body, braces.closing, braces.rest)
    else Parse.done (none, last, items)
  | [] => Parse.done (none, last, items)

/-- Parses a guarded block after its word. -/
def tryStatement (parts : Parsers) (items : List Item) : Parse Parsed := do
  let braces ← expectGroup .curly items
  let body ← statements parts false braces.range
  let (caught, last, rest) ← handler braces.closing braces.rest
  let (final, last, rest) ← cleanup parts last rest
  return ⟨.tryBlock body caught final, last, rest⟩

/-! ## Statements -/

/-- Whether braces at the front of a statement are an object used as a value: a member of it is
taken, its first entry has a key and a colon, or it is empty and all there is. -/
def isObject (inner rest : List Item) : Bool :=
  let memberTaken := match rest with
    | .group .square _ _ _ :: _ => true
    | item :: _ => item.isPunct .dot || item.isPunct .optionalDot
    | [] => false
  let keyed := match inner with
    | key :: colon :: _ => (memberKey? key).isSome && colon.isPunct .colon
    | _ => false
  memberTaken || keyed || (inner.isEmpty && rest.isEmpty)

/-- Parses an expression up to the next semicolon. -/
def expressionStatement (parts : Parsers) (r : Range) (first : Item) : Parse Parsed := do
  let (items, rest) := upToSemicolon r.items
  let e ← parts.expression ⟨r.before, items⟩
  return ⟨.expr e, lastToken first.last items, rest⟩

/-- Whether a function word begins a declaration: a name follows, or the next clause, whose word
would be taken for one. -/
def declaresFunction (clauseNext : Bool) : List Item → Bool
  | item :: _ => item.ident?.isSome
  | [] => clauseNext

/-- Parses a statement by its first word. -/
def wordStatement (parts : Parsers) (clauseNext : Bool) (r : Range) (word : Token) (name : String)
    (rest : List Item) : Parse Parsed :=
  let (items, following) := upToSemicolon rest
  let last := lastToken word items
  if declaringWords.contains name then do
    let decls ← declarations parts word items
    return ⟨.var decls, last, following⟩
  else if name = "return" then do
    let value ← optionalExpression parts ⟨some word, items⟩
    return ⟨.returns value, last, following⟩
  else if name = "throw" then do
    let value ← parts.expression ⟨some word, items⟩
    return ⟨.throws value, last, following⟩
  else if name = "break" ∨ name = "continue" then
    if items.isEmpty then
      Parse.done ⟨if name = "break" then .breaks else .continues, last, following⟩
    else Parse.unsupported (Item.spanOf (.leaf word :: items))
  else if name = "if" then ifStatement parts clauseNext rest
  else if name = "for" then forStatement parts clauseNext word rest
  else if name = "switch" then switchStatement parts rest
  else if name = "try" then tryStatement parts rest
  else if name = "function" ∧ declaresFunction clauseNext rest then do
    let f ← functionAfterWord parts rest
    return ⟨.var [(f.name, some (.function f.name f.params f.body))], f.last, f.rest⟩
  else if unsupportedWords.contains name then
    Parse.unsupported (Item.spanOf (.leaf word :: items))
  else expressionStatement parts r (.leaf word)

/-- Parses the statement at the front of a range that is not empty. -/
def statementStep (parts : Parsers) (clauseNext : Bool) (r : Range) : Parse Parsed :=
  match r.items with
  | [] => r.missing "statement"
  | .leaf t :: rest =>
    if t.isPunct .semicolon then Parse.done ⟨.empty, t, rest⟩
    else
      match t.ident? with
      | some name => wordStatement parts clauseNext r t name rest
      | none => expressionStatement parts r (.leaf t)
  | .group .curly opening closing inner :: rest =>
    if isObject inner rest then
      expressionStatement parts r (.group .curly opening closing inner)
    else do
      let body ← statements parts false ⟨some opening, inner⟩
      return ⟨.block body, closing, rest⟩
  | item :: _ => expressionStatement parts r item

end PlayerScript.Ast
