/-
Cutting source text at delimiters outside brackets and quotes. The text is scanned one character
at a time; brackets of the three kinds are only counted, and closers that close nothing are
ignored.
-/
import PlayerScript.Error
import PlayerScript.Text.Pieces
import PlayerScript.Token.Basic

namespace PlayerScript.Source

/-- What is still open at some place of a text. -/
structure Nesting where
  round : Nat
  square : Nat
  curly : Nat
  quote : Option Char
  /-- Whether the next character is escaped. -/
  escaping : Bool
  deriving DecidableEq, Repr

namespace Nesting

/-- Nothing is open. -/
def none : Nesting := ⟨0, 0, 0, .none, false⟩

/-- Changes the counter of a kind of bracket. -/
def count (n : Nesting) (f : Nat → Nat) : Bracket → Nesting
  | .round => { n with round := f n.round }
  | .square => { n with square := f n.square }
  | .curly => { n with curly := f n.curly }

/-- Whether a character is a quotation mark. -/
def isQuote (c : Char) : Bool := c.toNat == 34 || c.toNat == 39

/-- Opens or closes a quotation at a quotation mark that is not escaped. -/
def toggle (n : Nesting) (c : Char) : Nesting :=
  match n.quote with
  | .none => { n with quote := some c }
  | some q => if q = c then { n with quote := .none } else n

/-- Counts a bracket outside quotations, or passes a quotation mark. -/
def shift (n : Nesting) (c : Char) : Nesting :=
  match n.quote, Bracket.ofOpener? c, Bracket.ofCloser? c with
  | .none, some b, _ => n.count (· + 1) b
  | .none, .none, some b => n.count (· - 1) b
  | _, _, _ => if !n.escaping && isQuote c then n.toggle c else n

/-- What is open after one more character. -/
def step (n : Nesting) (c : Char) : Nesting :=
  let shifted := n.shift c
  { shifted with escaping := !n.escaping && shifted.quote.isSome && c == '\\' }

/-- Whether no bracket and no quotation is open. -/
def isTopLevel (n : Nesting) : Bool :=
  n.quote.isNone && n.round == 0 && n.square == 0 && n.curly == 0

end Nesting

/-- Cuts what is left of a text, at no more than `limit` delimiters, after passing over the `skip`
characters that are left of a delimiter already found. A delimiter is honoured when nothing is
open after its first character. -/
def separateFrom (delim : List Char) : Option Nat → Nesting → Nat → List Char → List (List Char)
  | _, _, _, [] => [[]]
  | limit, n, skip + 1, _ :: cs => separateFrom delim limit n skip cs
  | limit, n, 0, c :: cs =>
    if limit = some 0 then [c :: cs]
    else
      let after := n.step c
      if after.isTopLevel && Text.beginsWith delim (c :: cs) then
        [] :: separateFrom delim (limit.map (· - 1)) after (delim.length - 1) cs
      else Text.consFirst c (separateFrom delim limit after 0 cs)

/-- The pieces of a text between the delimiters outside brackets and quotes, at most `limit` of
them counted. An empty text has no pieces, and an empty delimiter gives none. -/
def separate (code delim : List Char) (limit : Option Nat) : List (List Char) :=
  if code.isEmpty || delim.isEmpty then [] else separateFrom delim limit .none 0 code

/-- Cuts a text that starts with an opening bracket at the bracket that closes it, or at a given
delimiter: what stands between them and what follows, both without blanks around. -/
def separateAtBracket (code : List Char) (delim : Option (List Char)) :
    Except Error (List Char × List Char) :=
  let text := String.ofList code
  match code with
  | [] => .error (.malformed (.expected "an opening bracket") text)
  | first :: _ =>
    let delim? := match delim with
      | some d => some d
      | none => (Bracket.matching? first).map fun c => [c]
    match delim? with
    | none => .error (.malformed (.unexpected first) text)
    | some d =>
      match separate code d (some 1) with
      | inner :: outer :: _ => .ok (Text.trim (inner.drop 1), Text.trim outer)
      | _ => .error (.malformed (.unclosed (String.ofList d)) text)

end PlayerScript.Source
