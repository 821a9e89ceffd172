/-
JSON documents as text: compact, with the fewest escapes, and numbers with the fewest digits that
read back.
-/
import PlayerScript.Json.Basic
import PlayerScript.Number.Printer

namespace PlayerScript.Json

/-! ## Strings -/

/-- A hexadecimal digit. -/
def hexDigit (n : Nat) : Char := Nat.digitChar n

/-- A character inside quotation marks. -/
def escaped (c : Char) : List Char :=
  match c.toNat with
  | 34 => ['\\', '"']
  | 92 => ['\\', '\\']
  | 8 => ['\\', 'b']
  | 9 => ['\\', 't']
  | 10 => ['\\', 'n']
  | 12 => ['\\', 'f']
  | 13 => ['\\', 'r']
  | n => if n < 32 then ['\\', 'u', '0', '0', hexDigit (n / 16), hexDigit (n % 16)] else [c]

/-- A string in quotation marks. -/
def quoted (s : String) : String := "\"" ++ String.ofList (s.toList.flatMap escaped) ++ "\""

/-! ## Numbers -/

/-- The least and the first too large power of ten of the leading digit that is written without an
exponent. -/
def plainRange : Int × Int := (-5, 16)

/-- A decimal with an exponent: one digit before the point, and a sign in the exponent. -/
def scientific (d : Number.Decimal) : String :=
  let digits := Nat.toDigits 10 d.digits
  let exponent := d.exponent + (digits.length - 1 : Nat)
  let fraction := if digits.length = 1 then [] else '.' :: digits.drop 1
  let sign := if exponent < 0 then "-" else "+"
  String.ofList (digits.take 1 ++ fraction) ++ "e" ++ sign ++
    String.ofList (Nat.toDigits 10 exponent.natAbs)

/-- A decimal without an exponent. One that is integral gets a zero after the point. -/
def plain (d : Number.Decimal) : String :=
  if 0 ≤ d.exponent then Number.positional d ++ ".0" else Number.positional d

/-- A finite number that is not written as an integer. -/
def numberText (x : Float) : String :=
  match Number.Exact.ofFloat? x with
  | none => "null"
  | some v =>
    let sign := if v.negative then "-" else ""
    if v.mantissa = 0 then sign ++ "0.0"
    else
      let d := Number.shortest .even v
      let leading := d.exponent + ((Nat.toDigits 10 d.digits).length - 1 : Nat)
      sign ++ (if plainRange.1 ≤ leading ∧ leading < plainRange.2 then plain d else scientific d)

/-- An integer. -/
def integerText (n : Int) : String :=
  (if n < 0 then "-" else "") ++ String.ofList (Nat.toDigits 10 n.natAbs)

/-! ## Documents -/

mutual

/-- The text of a document. -/
def text : Json → String
  | .null => "null"
  | .bool true => "true"
  | .bool false => "false"
  | .integer n => integerText n
  | .number x => numberText x
  | .string s => quoted s
  | .array items => "[" ++ String.intercalate "," (itemTexts items) ++ "]"
  | .object members => "\x7b" ++ String.intercalate "," (memberTexts members) ++ "\x7d"

/-- The texts of the elements of an array. -/
def itemTexts : List Json → List String
  | [] => []
  | j :: rest => j.text :: itemTexts rest

/-- The texts of the members of an object. -/
def memberTexts : List (String × Json) → List String
  | [] => []
  | (key, j) :: rest => (quoted key ++ ":" ++ j.text) :: memberTexts rest

end

end PlayerScript.Json
