/-
Splitting source text into tokens. Blanks and comments separate tokens and are dropped; of the
punctuators that fit, the longest is taken.
-/
import PlayerScript.Number.Numeral
import PlayerScript.Token.Basic
import PlayerScript.Token.Scan

namespace PlayerScript.Token

open PlayerScript.Text

/-- Whether a character may begin a name. -/
def isNameStart (c : Char) : Bool := c.isAlpha || c == '_' || c == '$'

/-- Whether a character may stand in a name. -/
def isNamePart (c : Char) : Bool := isNameStart c || isDecimal c

/-- Whether a text begins with a decimal digit. -/
def startsWithDigit : List Char → Bool
  | c :: _ => isDecimal c
  | [] => false

/-- Splits a text after the first end of a comment. -/
def closeComment? : List Char → Option (List Char × List Char)
  | '*' :: '/' :: cs => some (['*', '/'], cs)
  | c :: cs => (closeComment? cs).map fun cut => (c :: cut.1, cut.2)
  | [] => none

/-- The longest punctuator that a text begins with, and the rest. A question mark and a point
before a digit are two punctuators: the point belongs to the number. -/
def punctuator? (cs : List Char) : Option (Scan Punct) :=
  Punct.longestFirst.findSome? fun p =>
    (after? p.symbol.toList cs).map fun rest =>
      if p = .optionalDot ∧ startsWithDigit rest then ⟨.question, ['?'], cs.drop 1⟩
      else ⟨p, p.symbol.toList, rest⟩

/-- Reads a number. -/
def number (cs : List Char) : Except Error (Scan TokenKind) :=
  let part := Scan.numberPart cs
  match Number.ofNumeral? part.1 with
  | some x => .ok ⟨.number x, part.1, part.2⟩
  | none => .error (.malformed (.invalidNumber (String.ofList part.1)) (String.ofList cs))

/-- Reads the first lexeme of a text that begins with `c`: a token, or a blank or a comment, which
is none. -/
def lexeme (c : Char) (cs : List Char) : Except Error (Scan (Option TokenKind)) :=
  let all := c :: cs
  if isBlank c then .ok ⟨none, [c], cs⟩
  else if beginsWith ['/', '/'] all then
    .ok ⟨none, all.takeWhile (· ≠ '\n'), all.dropWhile (· ≠ '\n')⟩
  else if beginsWith ['/', '*'] all then
    match closeComment? (cs.drop 1) with
    | some (body, rest) => .ok ⟨none, '/' :: '*' :: body, rest⟩
    | none => .error (.malformed .unterminatedComment (String.ofList all))
  else if c.toNat = 34 ∨ c.toNat = 39 then
    match Scan.string c cs with
    | .ok s => .ok ⟨some (.string (String.ofList s.value)), s.raw, s.rest⟩
    | .error e => .error e
  else if c.toNat = 96 then .error (.unsupported (String.ofList all))
  else if isDecimal c || (c == '.' && startsWithDigit cs) then
    match number all with
    | .ok s => .ok ⟨some s.value, s.raw, s.rest⟩
    | .error e => .error e
  else if isNameStart c then
    .ok ⟨some (.ident (String.ofList (all.takeWhile isNamePart))), all.takeWhile isNamePart,
      all.dropWhile isNamePart⟩
  else
    match punctuator? all with
    | some s => .ok ⟨some (.punct s.value), s.raw, s.rest⟩
    | none => .error (.malformed (.unexpectedCharacter c) (String.ofList all))

/-- The tokens of a text that stands at byte `pos` of the source. Every lexeme has at least one
character, so the length of the text is fuel enough. -/
def tokensFrom : Nat → Nat → List Char → Except Error (List Token)
  | _, _, [] => .ok []
  | 0, _, _ :: _ => .ok []
  | fuel + 1, pos, c :: cs =>
    match lexeme c cs with
    | .error e => .error e
    | .ok found =>
      let stop := pos + byteLength found.raw
      match tokensFrom fuel stop found.rest with
      | .error e => .error e
      | .ok tokens =>
        match found.value with
        | some kind => .ok (⟨kind, pos, stop⟩ :: tokens)
        | none => .ok tokens

/-- The tokens of a source text. -/
def tokenize (source : List Char) : Except Error (List Token) :=
  tokensFrom source.length 0 source

end PlayerScript.Token
