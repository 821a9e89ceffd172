/-
Parsing of expressions. An expression is taken apart in a fixed order: at its commas, at the first
assignment, at the first question mark, at the last occurrence of the first operator in the scan
order, at an operator in front or behind, and last as a primary with its suffixes.
-/
import PlayerScript.Ast.Parser.Basic
import PlayerScript.Number.Printer

namespace PlayerScript.Ast

/-- The words that begin a statement, so that none of them names a value. -/
def statementWords : List String :=
  ["var", "let", "const", "return", "throw", "break", "continue", "if", "else", "for", "while", "do",
    "switch", "case", "default", "try", "catch", "finally", "class"]

/-- The operator words outside the language. -/
def operatorWords : List String := ["typeof", "new", "delete", "in", "instanceof"]

/-! ## Functions -/

/-- The names of parameters: each range holds one name and nothing else. -/
def parameter (r : Range) : Parse String :=
  match r.items with
  | [.leaf t] =>
    match t.ident? with
    | some name => Parse.done name
    | none => .unsupported r.span
  | _ => .unsupported r.span

/-- A parsed function, its last token, and the items after it. -/
structure ParsedFunction where
  name : String
  params : List String
  body : List Stmt
  last : Token
  rest : List Item

/-- The name at the front of the items, or a minted one, and what follows. -/
def functionName (items : List Item) : Parse (String × List Item) :=
  match items with
  | item :: rest =>
    match item.ident? with
    | some name => Parse.done (name, rest)
    | none => do
      let name ← Parse.mint
      return (name, items)
  | [] => do
    let name ← Parse.mint
    return (name, items)

/-- Parses a function after its word: an optional name, parameters and a body. -/
def functionAfterWord (parts : Parsers) (items : List Item) : Parse ParsedFunction := do
  let (name, afterName) ← functionName items
  let header ← expectGroup .round afterName
  let params ← Parse.each parameter header.range.listed
  let braces ← expectGroup .curly header.rest
  let body ← statements parts false braces.range
  return ⟨name, params, body, braces.closing, braces.rest⟩

/-! ## Primaries -/

/-- The key of a member: a name, a string, or the text of a number. -/
def memberKey? : Item → Option String
  | .group .. => none
  | .leaf t =>
    match t.kind with
    | .ident name => some name
    | .string s => some s
    | .number x => some (Number.text x)
    | .punct _ => none

/-- Parses one member of an object: a key, a colon and a value. -/
def objectMember (parts : Parsers) (r : Range) : Parse (String × Expr) :=
  match r.items with
  | key :: colon :: first :: rest =>
    match memberKey? key with
    | some name =>
      if colon.isPunct .colon then do
        let value ← parts.expression ⟨some colon.last, first :: rest⟩
        return (name, value)
      else .unsupported r.span
    | none => .unsupported r.span
  | _ => .unsupported r.span

/-- Parses an element of an array; a hole stands for `undefined`. -/
def arrayElement (parts : Parsers) (r : Range) : Parse Expr :=
  if r.items.isEmpty then Parse.done (.literal .undefined) else parts.expression r

/-- The literal that a word stands for. -/
def wordLiteral? : String → Option Literal
  | "true" => some (.bool true)
  | "false" => some (.bool false)
  | "null" => some .null
  | "undefined" => some .undefined
  | "NaN" => some (.number Number.nan)
  | "Infinity" => some (.number Number.infinity)
  | _ => none

/-- Parses a name as a primary, given the items after it. -/
def namePrimary (parts : Parsers) (r : Range) (name : String) (rest : List Item) :
    Parse (Expr × List Item) :=
  if name = "function" then do
    let f ← functionAfterWord parts rest
    return (.function f.name f.params f.body, f.rest)
  else
    match wordLiteral? name with
    | some value => Parse.done (.literal value, rest)
    | none =>
      if operatorWords.contains name || statementWords.contains name then .unsupported r.span
      else Parse.done (.ident name, rest)

/-- Parses the primary at the front of a range, and gives the items after it. -/
def primary (parts : Parsers) (r : Range) : Parse (Expr × List Item) :=
  match r.items with
  | .leaf t :: rest =>
    match t.kind with
    | .number x => Parse.done (.literal (.number x), rest)
    | .string s => Parse.done (.literal (.string s), rest)
    | .ident name => namePrimary parts r name rest
    | .punct _ => .unsupported r.span
  | .group .round opening _ items :: rest => do
    let inner ← parts.expression ⟨some opening, items⟩
    return (inner, rest)
  | .group .square opening _ items :: rest => do
    let elements ← Parse.each (arrayElement parts) (Range.listed ⟨some opening, items⟩)
    return (.array elements, rest)
  | .group .curly opening _ items :: rest => do
    let members ← Parse.each (objectMember parts) (Range.listed ⟨some opening, items⟩)
    return (.object members, rest)
  | [] => .unsupported r.span

/-! ## Suffixes -/

/-- Parses the members, elements and calls that follow an expression within a range. -/
def suffixes (parts : Parsers) (r : Range) : Expr → List Item → Parse Expr
  | e, [] => Parse.done e
  | e, .group .square opening _ items :: rest => do
    let key ← parts.expression ⟨some opening, items⟩
    suffixes parts r (.member e (.computed key) false) rest
  | e, .group .round opening _ items :: rest => do
    let args ← Parse.each parts.expression (Range.listed ⟨some opening, items⟩)
    suffixes parts r (.call e args) rest
  | _, .group .curly _ _ _ :: _ => .unsupported r.span
  | e, .leaf dot :: .leaf t :: rest =>
    if dot.isPunct .dot || dot.isPunct .optionalDot then
      match t.ident? with
      | some name => suffixes parts r (.member e (.name name) (dot.isPunct .optionalDot)) rest
      | none => .unsupported r.span
    else .unsupported r.span
  | e, .leaf dot :: .group .square opening _ items :: rest =>
    if dot.isPunct .optionalDot then do
      let key ← parts.expression ⟨some opening, items⟩
      suffixes parts r (.member e (.computed key) true) rest
    else .unsupported r.span
  | _, .leaf _ :: _ => .unsupported r.span

/-- Parses a primary and its suffixes. -/
def chain (parts : Parsers) (r : Range) : Parse Expr := do
  let (e, rest) ← primary parts r
  suffixes parts r e rest

/-! ## Operators -/

/-- The operator that a token is when it stands in front of an operand. -/
def unaryOp? (t : Token) : Option UnaryOp :=
  match t.kind with
  | .punct (.binary .sub) => some .neg
  | .punct (.binary .add) => some .plus
  | .punct .not => some .not
  | .ident "void" => some .void
  | _ => none

/-- The step by one that a token is. -/
def updateOp? (t : Token) : Option UpdateOp :=
  match t.kind with
  | .punct (.update op) => some op
  | _ => none

/-- Parses a step written before its variable. -/
def stepBefore (r : Range) (op : UpdateOp) (rest : List Item) : Parse Expr :=
  match rest with
  | [item] =>
    match item.ident? with
    | some name => Parse.done (.update op true name)
    | none => .unsupported r.span
  | _ => .unsupported r.span

/-- Parses a step written after its variable. -/
def stepAfter (r : Range) (op : UpdateOp) (t : Token) : Parse Expr :=
  match t.ident? with
  | some name =>
    if statementWords.contains name then .unsupported r.span
    else Parse.done (.update op false name)
  | none => .unsupported r.span

/-- Parses a range without a top-level binary operator. -/
def operand (parts : Parsers) (r : Range) : Parse Expr :=
  match r.items with
  | .leaf t :: rest =>
    match unaryOp? t with
    | some op => do
      let e ← parts.expression ⟨some t, rest⟩
      return .unary op e
    | none =>
      match updateOp? t with
      | some op => stepBefore r op rest
      | none =>
        match rest with
        | [.leaf u] =>
          match updateOp? u with
          | some op => stepAfter r op t
          | none => chain parts r
        | _ => chain parts r
  | _ => chain parts r

/-- The variable of an assignment, and the brackets of its index if there is one. -/
def assignTarget? : List Item → Option (String × Option Range)
  | [.leaf t] => t.ident?.map fun name => (name, none)
  | [.leaf t, .group .square opening _ (first :: items)] =>
    t.ident?.map fun name => (name, some ⟨some opening, first :: items⟩)
  | _ => none

/-- The assignment that a token is. -/
def assignOp? (t : Token) : Option AssignOp :=
  match t.kind with
  | .punct (.assign op) => some op
  | _ => none

/-- Parses an assignment. -/
def assignment (parts : Parsers) (r : Range) (cut : Cut) : Parse Expr :=
  match assignTarget? cut.left, assignOp? cut.token with
  | some (name, index), some op =>
    if statementWords.contains name then .fault .invalidTarget r.span
    else do
      let index ← match index with
        | some inner => do
          let key ← parts.expression inner
          pure (some key)
        | none => pure none
      let value ← parts.expression ⟨some cut.token, cut.right⟩
      return .assign name index op value
  | _, _ => .fault .invalidTarget r.span

/-- Parses a conditional, given the cut at its question mark. -/
def conditional (parts : Parsers) (r : Range) (cut : Cut) : Parse Expr :=
  match Cut.colon? 0 cut.right with
  | none => .fault (.expected ": in conditional") r.span
  | some branches => do
    let test ← parts.expression ⟨r.before, cut.left⟩
    let consequent ← parts.expression ⟨some cut.token, branches.left⟩
    let alternate ← parts.expression ⟨some branches.token, branches.right⟩
    return .conditional test consequent alternate

/-- Parses a range without a top-level comma. -/
def singleExpression (parts : Parsers) (r : Range) : Parse Expr :=
  match Cut.first? (fun t => (assignOp? t).isSome) r.items with
  | some cut => assignment parts r cut
  | none =>
    match Cut.first? (fun t => t.isPunct .question) r.items with
    | some cut => conditional parts r cut
    | none =>
      match Cut.binary? r.items with
      | some (op, cut) => do
        let left ← parts.expression ⟨r.before, cut.left⟩
        let right ← parts.expression ⟨some cut.token, cut.right⟩
        return .binary op left right
      | none => operand parts r

/-- Parses a range that is not empty. -/
def expressionStep (parts : Parsers) (r : Range) : Parse Expr :=
  let ranges := r.splitAt .comma
  if 1 < ranges.length then do
    let items ← Parse.each parts.expression ranges
    return .sequence items
  else singleExpression parts r

end PlayerScript.Ast
