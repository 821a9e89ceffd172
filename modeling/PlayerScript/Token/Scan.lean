/-
Literals in the source: the extent of a number, and the decoding of a quoted string. A scan gives
what it read, the characters it went over, and the rest of the text.
-/
import PlayerScript.Error
import PlayerScript.Text.Bytes
import PlayerScript.Text.Digits

namespace PlayerScript

open PlayerScript.Text

/-- What was read from the front of a text, the characters it was read from, and what follows. -/
structure Scan (α : Type) where
  value : α
  raw : List Char
  rest : List Char

namespace Scan

/-! ## Numbers -/

/-- Splits off the exponent of a number, if its mark is followed by digits. -/
def exponentPart : List Char → List Char × List Char
  | [] => ([], [])
  | mark :: cs =>
    if mark = 'e' ∨ mark = 'E' then
      let sign := match cs with
        | '+' :: _ => ['+']
        | '-' :: _ => ['-']
        | _ => []
      let digits := (cs.drop sign.length).takeWhile isDecimal
      if digits.isEmpty then ([], mark :: cs)
      else (mark :: (sign ++ digits), (cs.drop sign.length).dropWhile isDecimal)
    else ([], mark :: cs)

/-- Splits off the characters of a number: the mark `0x` and hexadecimal digits, or a run of digits
and points and then an exponent. -/
def numberPart (cs : List Char) : List Char × List Char :=
  match cs with
  | '0' :: 'x' :: hex =>
    ('0' :: 'x' :: hex.takeWhile (isDigitOf 16), hex.dropWhile (isDigitOf 16))
  | '0' :: 'X' :: hex =>
    ('0' :: 'X' :: hex.takeWhile (isDigitOf 16), hex.dropWhile (isDigitOf 16))
  | _ =>
    let inRun := fun c => isDecimal c || c == '.'
    let tail := exponentPart (cs.dropWhile inRun)
    (cs.takeWhile inRun ++ tail.1, tail.2)

/-! ## Strings -/

/-- The character shown in place of a code that is none. -/
def replacement : Char := Char.ofNat 0xFFFD

/-- The character with a code, if there is one. -/
def charOfCode? (code : Nat) : Option Char :=
  if code.isValidChar then some (Char.ofNat code) else none

/-- Reads a code of exactly `width` bytes of hexadecimal digits. -/
def codeUnit (width : Nat) (cs : List Char) : Except Error (Scan Nat) :=
  match cutBytes? cs width with
  | none => .error (.malformed .invalidEscape (String.ofList cs))
  | some (hex, rest) =>
    match unsigned? 16 0x100000000 hex with
    | none => .error (.malformed .invalidEscape (String.ofList hex))
    | some code => .ok ⟨code, hex, rest⟩

/-- Whether a code is the first half of a pair. -/
def isHighHalf (code : Nat) : Bool := 0xD800 ≤ code && code < 0xDC00

/-- Whether a code is the second half of a pair. -/
def isLowHalf (code : Nat) : Bool := 0xDC00 ≤ code && code < 0xE000

/-- The character that two halves stand for. -/
def joinHalves (high low : Nat) : Char :=
  (charOfCode? (0x10000 + (high - 0xD800) * 0x400 + (low - 0xDC00))).getD replacement

/-- Reads the second half of a pair: another escape of four digits whose code is such a half. -/
def lowHalf? : List Char → Option (Scan Nat)
  | '\\' :: 'u' :: cs =>
    match cutBytes? cs 4 with
    | none => none
    | some (hex, rest) =>
      match unsigned? 16 0x100000000 hex with
      | none => none
      | some low => if isLowHalf low then some ⟨low, '\\' :: 'u' :: hex, rest⟩ else none
  | _ => none

/-- Reads an escape of four digits. Two escapes that are the halves of a pair stand for one
character; a half on its own has none. -/
def pairedEscape (cs : List Char) : Except Error (Scan (List Char)) :=
  match codeUnit 4 cs with
  | .error e => .error e
  | .ok high =>
    let single : Scan (List Char) :=
      ⟨[(charOfCode? high.value).getD replacement], high.raw, high.rest⟩
    if isHighHalf high.value then
      match lowHalf? high.rest with
      | some low => .ok ⟨[joinHalves high.value low.value], high.raw ++ low.raw, low.rest⟩
      | none => .ok single
    else .ok single

/-- Reads an escape in braces, after the opening one: the digits reach to the next closing brace,
wherever it stands. -/
def bracedEscape (literal cs : List Char) : Except Error (Scan (List Char)) :=
  let fault : Error := .malformed .invalidUnicodeEscape (String.ofList literal)
  let digits := cs.takeWhile (· ≠ '\x7d')
  match cs.dropWhile (· ≠ '\x7d') with
  | [] => .error fault
  | close :: rest =>
    match (unsigned? 16 0x100000000 digits).bind charOfCode? with
    | some c => .ok ⟨[c], '\x7b' :: (digits ++ [close]), rest⟩
    | none => .error fault

/-- Reads what follows the character `e` after a backslash. -/
def escape (literal : List Char) (e : Char) (cs : List Char) : Except Error (Scan (List Char)) :=
  if e = 'n' then .ok ⟨['\n'], [], cs⟩
  else if e = 't' then .ok ⟨['\t'], [], cs⟩
  else if e = 'r' then .ok ⟨['\r'], [], cs⟩
  else if e = 'b' then .ok ⟨[Char.ofNat 8], [], cs⟩
  else if e = 'f' then .ok ⟨[Char.ofNat 12], [], cs⟩
  else if e = 'v' then .ok ⟨[Char.ofNat 11], [], cs⟩
  else if e = '0' then .ok ⟨[Char.ofNat 0], [], cs⟩
  else if e = '\n' then .ok ⟨[], [], cs⟩
  else if e = 'x' then
    match codeUnit 2 cs with
    | .error fault => .error fault
    | .ok unit => .ok ⟨[(charOfCode? unit.value).getD replacement], unit.raw, unit.rest⟩
  else if e = 'u' then
    match cs with
    | '\x7b' :: digits => bracedEscape literal digits
    | _ => pairedEscape cs
  else .ok ⟨[e], [], cs⟩

/-- Reads the rest of a string up to its closing quote. `literal` is the text from the opening
quote on, which a fault quotes; the number of characters left is fuel enough. -/
def stringBody (quote : Char) (literal : List Char) :
    Nat → List Char → Except Error (Scan (List Char))
  | 0, _ => .error (.malformed .unterminatedString (String.ofList literal))
  | _ + 1, [] => .error (.malformed .unterminatedString (String.ofList literal))
  | fuel + 1, c :: cs =>
    if c = quote then .ok ⟨[], [c], cs⟩
    else if c = '\\' then
      match cs with
      | [] => .error (.malformed .unterminatedString (String.ofList literal))
      | e :: more =>
        match escape literal e more with
        | .error fault => .error fault
        | .ok part =>
          match stringBody quote literal fuel part.rest with
          | .error fault => .error fault
          | .ok tail => .ok ⟨part.value ++ tail.value, c :: e :: (part.raw ++ tail.raw), tail.rest⟩
    else
      match stringBody quote literal fuel cs with
      | .error fault => .error fault
      | .ok tail => .ok ⟨c :: tail.value, c :: tail.raw, tail.rest⟩

/-- Reads a string from its opening quote on. -/
def string (quote : Char) (cs : List Char) : Except Error (Scan (List Char)) :=
  match stringBody quote (quote :: cs) cs.length cs with
  | .error fault => .error fault
  | .ok body => .ok ⟨body.value, quote :: body.raw, body.rest⟩

end Scan
end PlayerScript
