/-
What the parser is made of: objections with their place in the source, computations that mint
names, and searches for tokens at the top level of a list of items.
-/
import PlayerScript.Ast.Basic
import PlayerScript.Token.Item

namespace PlayerScript.Ast

/-! ## Objections -/

/-- What the parser objects to: a fault, or something outside the language. -/
inductive Objection where
  | malformed (fault : Fault)
  | unsupported
  deriving DecidableEq, Repr

/-- An objection and the part of the source that it quotes. -/
structure Diagnostic where
  objection : Objection
  span : Span
  deriving DecidableEq, Repr

/-- The error that a diagnostic stands for, with the code quoted. -/
def Diagnostic.toError (source : List Char) (d : Diagnostic) : Error :=
  match d.objection with
  | .malformed fault => .malformed fault (d.span.text source)
  | .unsupported => .unsupported (d.span.text source)

/-! ## Computations that mint names -/

/-- The `n`-th name minted for functions that have none of their own. -/
def syntheticName (n : Nat) : String := "__ytjs_obj" ++ toString n

/-- A computation that may stop with a diagnostic and that counts the names it mints. -/
def Parse (α : Type) : Type := Nat → Except Diagnostic α × Nat

namespace Parse

variable {α β : Type}

/-- A result that mints nothing. -/
def done (a : α) : Parse α := fun minted => (.ok a, minted)

/-- One computation after another, unless the first one stops. -/
def andThen (x : Parse α) (f : α → Parse β) : Parse β := fun minted =>
  match x minted with
  | (.ok a, minted') => f a minted'
  | (.error d, minted') => (.error d, minted')

instance : Monad Parse where
  pure := done
  bind := andThen

/-- Stops with a diagnostic. -/
def stop (d : Diagnostic) : Parse α := fun minted => (.error d, minted)

/-- Stops because of a fault. -/
def fault (f : Fault) (span : Span) : Parse α := stop ⟨.malformed f, span⟩

/-- Stops at something outside the language. -/
def unsupported (span : Span) : Parse α := stop ⟨.unsupported, span⟩

/-- Mints the next name. -/
def mint : Parse String := fun minted => (.ok (syntheticName (minted + 1)), minted + 1)

/-- Parses the parts of a list, from left to right. -/
def each (f : α → Parse β) : List α → Parse (List β)
  | [] => done []
  | a :: rest => do
    let b ← f a
    let bs ← each f rest
    return b :: bs

end Parse

/-! ## Ranges of items -/

/-- Items that are parsed together, and the token right before them. -/
structure Range where
  before : Option Token
  items : List Item

namespace Range

/-- The part of the source that a range covers. -/
def span (r : Range) : Span := Item.spanOf r.items

/-- Stops because a range lacks what is expected in it. The token before the range is quoted. -/
def missing {α : Type} (r : Range) (what : String) : Parse α :=
  .fault (.expected what) ((r.before.map Token.span).getD Span.none)

/-- Puts an item in front of the first range. -/
def consFirst (item : Item) : List Range → List Range
  | [] => []
  | r :: rest => { r with items := item :: r.items } :: rest

/-- The ranges between the top-level occurrences of a punctuator. -/
def splitItems (p : Punct) : Option Token → List Item → List Range
  | before, [] => [⟨before, []⟩]
  | before, item :: rest =>
    if item.isPunct p then ⟨before, []⟩ :: splitItems p (some item.last) rest
    else consFirst item (splitItems p before rest)

/-- The ranges between the top-level occurrences of a punctuator. -/
def splitAt (p : Punct) (r : Range) : List Range := splitItems p r.before r.items

/-- The ranges of a list separated by commas. There is none in an empty range, and a comma at the
end starts no further one. -/
def listed (r : Range) : List Range :=
  if r.items.isEmpty then []
  else
    let ranges := r.splitAt .comma
    match ranges.getLast? with
    | some final => if 1 < ranges.length ∧ final.items.isEmpty then ranges.dropLast else ranges
    | none => ranges

end Range

/-! ## Top-level searches -/

/-- What stands before a token, the token, and what stands after it. -/
structure Cut where
  left : List Item
  token : Token
  right : List Item

namespace Cut

/-- Puts an item in front. -/
def cons (item : Item) (c : Cut) : Cut := { c with left := item :: c.left }

/-- Cuts at the first token for which `p` holds. -/
def first? (p : Token → Bool) : List Item → Option Cut
  | [] => none
  | .leaf t :: rest => if p t then some ⟨[], t, rest⟩ else (first? p rest).map (cons (.leaf t))
  | .group b o c items :: rest => (first? p rest).map (cons (.group b o c items))

/-- Cuts at the colon that belongs to a question mark before the items, passing over as many
colons as question marks are still open. -/
def colon? : Nat → List Item → Option Cut
  | _, [] => none
  | opened, item :: rest =>
    if item.isPunct .question then (colon? (opened + 1) rest).map (cons item)
    else if item.isPunct .colon then
      match opened with
      | 0 => some ⟨[], item.last, rest⟩
      | opened + 1 => (colon? opened rest).map (cons item)
    else (colon? opened rest).map (cons item)

end Cut

/-- The words after which an operator has no left operand. -/
def operandOpeners : List String :=
  ["return", "typeof", "void", "new", "delete", "in", "instanceof", "case", "throw", "else"]

/-- Whether an item can end an operand, so that an operator after it is a binary one. -/
def endsOperand : Item → Bool
  | .group .. => true
  | .leaf t =>
    match t.kind with
    | .number _ | .string _ => true
    | .ident name => !operandOpeners.contains name
    | .punct (.update _) => true
    | .punct _ => false

/-- Cuts at the last binary occurrence of an operator, given the item before the list. -/
def Cut.operatorAfter? (op : BinaryOp) : Item → List Item → Option Cut
  | _, [] => none
  | previous, item :: rest =>
    match Cut.operatorAfter? op item rest with
    | some cut => some (cut.cons item)
    | none =>
      if item.isPunct (.binary op) && endsOperand previous then some ⟨[], item.last, rest⟩ else none

/-- Cuts at the last binary occurrence of an operator: one that follows the end of an operand. -/
def Cut.operator? (op : BinaryOp) : List Item → Option Cut
  | [] => none
  | item :: rest => (Cut.operatorAfter? op item rest).map (Cut.cons item)

/-- The first operator in the scan order that occurs, with the cut at its last occurrence. -/
def Cut.binary? (items : List Item) : Option (BinaryOp × Cut) :=
  BinaryOp.scanOrder.findSome? fun op => (Cut.operator? op items).map fun cut => (op, cut)

/-- The items up to the first top-level semicolon, and the rest from it on. -/
def upToSemicolon (items : List Item) : List Item × List Item :=
  match Cut.first? (fun t => t.isPunct .semicolon) items with
  | some cut => (cut.left, .leaf cut.token :: cut.right)
  | none => (items, [])

/-- The last token of a list of items, or the one before it if there is none. -/
def lastToken (before : Token) (items : List Item) : Token :=
  (items.getLast?.map Item.last).getD before

/-! ## Parsers for the parts -/

/-- A parsed statement, its last token, and the items after it. -/
structure Parsed where
  stmt : Stmt
  last : Token
  rest : List Item

/-- The parsers that a larger construct uses for its parts. A statement is told whether its range
ends at the next clause of a switch. -/
structure Parsers where
  expression : Range → Parse Expr
  statement : Bool → Range → Parse Parsed

/-- A bracketed group that was required. -/
structure Opened where
  opening : Token
  closing : Token
  items : List Item
  rest : List Item

/-- The range inside the brackets. -/
def Opened.range (o : Opened) : Range := ⟨some o.opening, o.items⟩

/-- Requires a group of the given brackets. -/
def expectGroup (b : Bracket) (items : List Item) : Parse Opened :=
  let refuse := Parse.fault (.expected (String.singleton b.opener)) (Item.spanOf items)
  match items with
  | .group b' opening closing inner :: rest =>
    if b' = b then Parse.done ⟨opening, closing, inner, rest⟩ else refuse
  | _ => refuse

/-- Parses statements until the items run out; semicolons between them are passed over. Every
statement takes at least one item, so their number is fuel enough. -/
def statementsFrom (parts : Parsers) (clauseNext : Bool) :
    Nat → Option Token → List Item → Parse (List Stmt)
  | _, _, [] => Parse.done []
  | 0, _, _ :: _ => Parse.done []
  | fuel + 1, before, item :: rest =>
    if item.isPunct .semicolon then statementsFrom parts clauseNext fuel (some item.last) rest
    else do
      let parsed ← parts.statement clauseNext ⟨before, item :: rest⟩
      let more ← statementsFrom parts clauseNext fuel (some parsed.last) parsed.rest
      return parsed.stmt :: more

/-- Parses a range as a list of statements. -/
def statements (parts : Parsers) (clauseNext : Bool) (r : Range) : Parse (List Stmt) :=
  statementsFrom parts clauseNext r.items.length r.before r.items

end PlayerScript.Ast
