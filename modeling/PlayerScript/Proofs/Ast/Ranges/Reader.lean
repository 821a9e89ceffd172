/-
Reading tokens by their positions. The tokens stand in a row, every bracket knows the position of its
partner, and a part of the source is a range of positions, from `lo` up to but not including `hi`.
Nothing about a range is assumed: a position without a token, a slice of the source that is none, and
a search that makes no progress end the reading, each in a way of its own. The ranges that are
entered are noted.
-/
import PlayerScript.Ast.Parser

namespace PlayerScript.Ast.Ranges

/-- Tokens in a row, with the position of the partner of each bracket. -/
structure Layout where
  source : List Char
  tokens : Array Token
  partners : Array (Option Nat)

/-- What is noted on the way. -/
inductive Visit where
  /-- A list of statements is read from a range. -/
  | statements (lo hi : Nat)
  /-- A statement is read from the front of a range. -/
  | statement (lo hi : Nat)
  /-- An expression is read from a range. -/
  | expression (lo hi : Nat)
  /-- In a list of statements that ends at `hi`, a statement took the tokens from `lo` up to `next`. -/
  | taken (lo next hi : Nat)
  deriving DecidableEq, Repr

/-- How reading ends. -/
inductive Ending (α : Type) where
  | done (a : α)
  | failed (e : Error)
  /-- A place was read that does not exist. -/
  | outside
  /-- A loop went on without getting further. -/
  | stuck

/-- The number of minted names, and what was noted so far. -/
structure Notes where
  minted : Nat
  visits : List Visit

/-- A computation that reads from a layout. -/
def Reading (α : Type) : Type := Notes → Ending α × Notes

namespace Reading

variable {α β : Type}

/-- A result. -/
def done (a : α) : Reading α := fun n => (.done a, n)

/-- One computation after another, unless the first one gives no result. -/
def andThen (x : Reading α) (f : α → Reading β) : Reading β := fun n =>
  match x n with
  | (.done a, n') => f a n'
  | (.failed e, n') => (.failed e, n')
  | (.outside, n') => (.outside, n')
  | (.stuck, n') => (.stuck, n')

instance : Monad Reading where
  pure := done
  bind := andThen

/-- An error. -/
def fail (e : Error) : Reading α := fun n => (.failed e, n)

/-- A place that does not exist. -/
def outside : Reading α := fun n => (.outside, n)

/-- A loop without progress. -/
def stuck : Reading α := fun n => (.stuck, n)

/-- What is there, if it is. -/
def ofOption : Option α → Reading α
  | some a => done a
  | none => outside

/-- Mints the next name. -/
def mint : Reading String := fun n =>
  (.done (syntheticName (n.minted + 1)), { n with minted := n.minted + 1 })

/-- Notes a visit. -/
def note (v : Visit) : Reading Unit := fun n => (.done (), { n with visits := n.visits ++ [v] })

/-- Reads the parts of a list, from left to right. -/
def each (f : α → Reading β) : List α → Reading (List β)
  | [] => done []
  | a :: rest => do
    let b ← f a
    let bs ← each f rest
    return b :: bs

end Reading

open Reading

/-! ## Access -/

/-- The part of a text between two bytes. There is none if one of them is beyond the text or inside a
character, or if they are in the wrong order. -/
def slice? (cs : List Char) (start stop : Nat) : Option (List Char) :=
  if start ≤ stop then
    (Text.cutBytes? cs start).bind fun cut => (Text.cutBytes? cut.2 (stop - start)).map Prod.fst
  else none

namespace Layout

variable (l : Layout)

/-- The token at a position. -/
def tokenAt (i : Nat) : Reading Token := ofOption l.tokens[i]?

/-- The partner of the token at a position. -/
def partnerAt (i : Nat) : Reading (Option Nat) := ofOption l.partners[i]?

/-- Whether a punctuator stands at a position. -/
def punctAt (i : Nat) (p : Punct) : Bool := l.tokens[i]?.any fun t => t.isPunct p

/-- Whether a word stands at a position. -/
def wordAt (i : Nat) (word : String) : Bool := l.tokens[i]?.any fun t => t.isWord word

/-- The name at a position, if there is one. -/
def identAt? (i : Nat) : Option String := l.tokens[i]?.bind Token.ident?

/-- The source text of a range. -/
def text (lo hi : Nat) : Reading String :=
  if hi ≤ lo ∨ l.tokens.size < hi then done ""
  else do
    let first ← l.tokenAt lo
    let last ← l.tokenAt (hi - 1)
    let code ← ofOption (slice? l.source first.start last.stop)
    return String.ofList code

/-- Fails because of a fault, and quotes a range. -/
def refuse {α : Type} (f : Fault) (lo hi : Nat) : Reading α := do
  let code ← l.text lo hi
  fail (.malformed f code)

/-- Fails at something outside the language, and quotes a range. -/
def unsupported {α : Type} (lo hi : Nat) : Reading α := do
  let code ← l.text lo hi
  fail (.unsupported code)

/-! ## Brackets -/

/-- The position of the bracket that closes the one at a position. It has to stand before `hi`. -/
def closeOf (i hi : Nat) : Reading Nat := do
  match ← l.partnerAt i with
  | some close => if close < hi then done close else l.refuse (.unclosed "") i hi
  | none => l.refuse (.unclosed "") i hi

/-- Requires an opening bracket at a position, and gives the position of its partner. -/
def expectOpen (b : Bracket) (i hi : Nat) : Reading Nat :=
  if hi ≤ i ∨ l.punctAt i (.opening b) = false then
    l.refuse (.expected (String.singleton b.opener)) i hi
  else l.closeOf i hi

/-- The next position outside the brackets that are opened at a position. -/
def nextOutside (i : Nat) : Reading Nat := do
  match ← l.partnerAt i with
  | some close => done (if i < close then close + 1 else i + 1)
  | none => done (i + 1)

/-! ## Searches -/

/-- The positions of a range outside all brackets in it where a condition holds. -/
def allOutside (p : Token → Bool) (hi : Nat) : Nat → Nat → Reading (List Nat)
  | 0, i => if i < hi then stuck else done []
  | fuel + 1, i =>
    if i < hi then do
      let t ← l.tokenAt i
      let next ← l.nextOutside i
      let more ← allOutside p hi fuel next
      return if p t then i :: more else more
    else done []

/-- The first position of a range outside all brackets in it where a condition holds. -/
def firstOutside (p : Token → Bool) (hi : Nat) : Nat → Nat → Reading (Option Nat)
  | 0, i => if i < hi then stuck else done none
  | fuel + 1, i =>
    if i < hi then do
      let t ← l.tokenAt i
      if p t then done (some i)
      else do
        let next ← l.nextOutside i
        firstOutside p hi fuel next
    else done none

/-- The first position from `lo` on where a condition holds. -/
def find (p : Token → Bool) (lo hi : Nat) : Reading (Option Nat) := l.firstOutside p hi (hi - lo) lo

/-- The positions from `lo` on where a condition holds. -/
def findAll (p : Token → Bool) (lo hi : Nat) : Reading (List Nat) := l.allOutside p hi (hi - lo) lo

/-- The end of the statement that begins at a position. -/
def statementEnd (lo hi : Nat) : Reading Nat := do
  let found ← l.find (fun t => t.isPunct .semicolon) lo hi
  return found.getD hi

end Layout

/-- The ranges between marks. -/
def between (lo hi : Nat) : List Nat → List (Nat × Nat)
  | [] => [(lo, hi)]
  | i :: marks => (lo, i) :: between (i + 1) hi marks

namespace Layout

variable (l : Layout)

/-- The ranges between the occurrences of a punctuator. -/
def split (p : Punct) (lo hi : Nat) : Reading (List (Nat × Nat)) := do
  let marks ← l.findAll (fun t => t.isPunct p) lo hi
  return between lo hi marks

/-- The ranges of a list separated by commas; a comma at the end starts no further one. -/
def listed (lo hi : Nat) : Reading (List (Nat × Nat)) :=
  if hi ≤ lo then done []
  else do
    let ranges ← l.split .comma lo hi
    match ranges.getLast? with
    | some (a, b) => return if 1 < ranges.length ∧ a = b then ranges.dropLast else ranges
    | none => return ranges

/-- Whether the token at a position can end an operand. -/
def endsOperandAt (i : Nat) : Reading Bool := do
  let t ← l.tokenAt i
  match t.kind with
  | .number _ | .string _ => done true
  | .ident name => done (!operandOpeners.contains name)
  | .punct (.closing _) | .punct (.update _) => done true
  | .punct _ => done false

/-- The first of the given positions behind `lo` that follows the end of an operand. -/
def firstBinary (lo : Nat) : List Nat → Reading (Option Nat)
  | [] => done none
  | i :: rest =>
    if lo < i then do
      if ← l.endsOperandAt (i - 1) then done (some i) else firstBinary lo rest
    else firstBinary lo rest

/-- The first of the operators with a binary occurrence in a range, and its last such position. -/
def operatorIn (lo hi : Nat) : List BinaryOp → Reading (Option (BinaryOp × Nat))
  | [] => done none
  | op :: rest => do
    let marks ← l.findAll (fun t => t.isPunct (.binary op)) lo hi
    match ← l.firstBinary lo marks.reverse with
    | some i => done (some (op, i))
    | none => operatorIn lo hi rest

/-- The first of the given positions that holds a colon, passing over as many colons as question
marks were met before. -/
def colonAmong : Nat → List Nat → Option Nat
  | _, [] => none
  | opened, i :: rest =>
    if l.punctAt i .question then colonAmong (opened + 1) rest
    else
      match opened with
      | 0 => some i
      | opened + 1 => colonAmong opened rest

end Layout

/-! ## Partners -/

/-- A bracket that is still open. -/
structure Opening where
  position : Nat
  bracket : Bracket
  token : Token

/-- Finds the partners of the brackets from position `i` on, given the brackets that are open, the
innermost first, and the partners found before. -/
def partnersFrom (source : List Char) :
    Nat → List Opening → Array (Option Nat) → List Token → Except Error (Array (Option Nat))
  | _, [], partners, [] => .ok partners
  | _, opened :: _, _, [] =>
    .error (.malformed (.unclosed (String.singleton opened.bracket.closer))
      (String.ofList (Text.dropBytes source opened.token.start)))
  | i, stack, partners, token :: rest =>
    match token.kind with
    | .punct (.opening b) => partnersFrom source (i + 1) (⟨i, b, token⟩ :: stack) partners rest
    | .punct (.closing b) =>
      match stack with
      | [] =>
        .error (.malformed (.unexpected b.closer)
          (String.ofList (Text.dropBytes source token.start)))
      | opened :: stack =>
        if opened.bracket = b then
          partnersFrom source (i + 1) stack
            ((partners.setIfInBounds opened.position (some i)).setIfInBounds i
              (some opened.position)) rest
        else
          .error (.malformed (.mismatched b.closer)
            (Span.text source ⟨opened.token.start, token.stop⟩))
    | _ => partnersFrom source (i + 1) stack partners rest

/-- The partners of the brackets of a token list. -/
def partners? (source : List Char) (tokens : List Token) : Except Error (Array (Option Nat)) :=
  partnersFrom source 0 [] (Array.replicate tokens.length none) tokens

end PlayerScript.Ast.Ranges
