/-
Numerals: the texts that stand for a number. A numeral is empty, or one sign and then `Infinity`,
a hexadecimal integer below 2 ^ 64, or a decimal with an optional point and exponent. The
decimal may bring a sign of its own.
-/
import PlayerScript.Number.Exact
import PlayerScript.Text.Blank
import PlayerScript.Text.Digits
import PlayerScript.Text.Pieces

namespace PlayerScript.Number

open PlayerScript.Text

/-- A decimal numeral as written: `mantissa * 10 ^ exponent`, negated when `negative`. -/
structure Scientific where
  negative : Bool
  mantissa : Nat
  exponent : Int
  deriving DecidableEq, Repr

namespace Scientific

/-- The double nearest to the numeral. -/
def toFloat (s : Scientific) : Float :=
  let magnitude := Float.ofScientific s.mantissa (decide (s.exponent < 0)) s.exponent.natAbs
  if s.negative then -magnitude else magnitude

end Scientific

/-- Takes one sign off, and tells whether it was a minus. -/
def takeSign : List Char → Bool × List Char
  | '-' :: cs => (true, cs)
  | '+' :: cs => (false, cs)
  | cs => (false, cs)

/-- Reads what follows the mantissa: nothing, or the mark of an exponent, an optional sign and at
least one digit. -/
def exponent? : List Char → Option Int
  | [] => some 0
  | c :: cs =>
    if c = 'e' ∨ c = 'E' then
      let signed := takeSign cs
      if signed.2.isEmpty || !signed.2.all isDecimal then none
      else
        let n := (natOfDigits 10 signed.2 : Int)
        some (if signed.1 then -n else n)
    else none

/-- Reads an unsigned decimal: digits with an optional point, at least one digit, and an optional
exponent. -/
def decimal? (negative : Bool) (cs : List Char) : Option Scientific :=
  let whole := cs.takeWhile isDecimal
  let rest := cs.dropWhile isDecimal
  let point := rest.head? = some '.'
  let fraction := if point then (rest.drop 1).takeWhile isDecimal else []
  let tail := if point then (rest.drop 1).dropWhile isDecimal else rest
  if whole.isEmpty && fraction.isEmpty then none
  else
    (exponent? tail).map fun e =>
      ⟨negative, natOfDigits 10 (whole ++ fraction), e - fraction.length⟩

/-- Reads the digits of a hexadecimal integer, after its `0x` mark. -/
def hexadecimal? (cs : List Char) : Option Float :=
  (unsigned? 16 wordBound cs).map Float.ofNat

/-- What follows the mark `0x` or `0X`. -/
def afterHexMark? : List Char → Option (List Char)
  | '0' :: 'x' :: cs => some cs
  | '0' :: 'X' :: cs => some cs
  | _ => none

/-- Reads a numeral without its first sign. -/
def magnitude? (cs : List Char) : Option Float :=
  match afterHexMark? cs with
  | some digits => hexadecimal? digits
  | none =>
    if cs = "Infinity".toList then some infinity
    else
      let signed := takeSign cs
      (decimal? signed.1 signed.2).map Scientific.toFloat

/-- Reads a numeral. The empty text stands for zero. -/
def ofNumeral? (cs : List Char) : Option Float :=
  if cs.isEmpty then some 0.0
  else
    let signed := takeSign cs
    (magnitude? signed.2).map fun x => if signed.1 then -x else x

/-- The number that a text converts to: that of its numeral, blanks around it ignored, and NaN for
every other text. -/
def ofText (s : String) : Float := (ofNumeral? (trim s.toList)).getD nan

end PlayerScript.Number
