/-
Numbers as text. Integers below 10 ^ 21 are written with all their digits; every other finite
number with the fewest digits that read back, in positional notation, however long.
-/
import PlayerScript.Number.Shortest

namespace PlayerScript.Number

/-- A run of zeros. -/
def zeros (n : Nat) : String := String.ofList (List.replicate n '0')

/-- A decimal in positional notation. -/
def positional (d : Decimal) : String :=
  let digits := Nat.toDigits 10 d.digits
  if 0 ≤ d.exponent then String.ofList digits ++ zeros d.exponent.toNat
  else
    let places := (-d.exponent).toNat
    if places < digits.length then
      String.ofList (digits.take (digits.length - places)) ++ "." ++
        String.ofList (digits.drop (digits.length - places))
    else "0." ++ zeros (places - digits.length) ++ String.ofList digits

/-- The bound below which an integer is written with all its digits. -/
def plainBound : Nat := Nat.pow 10 21

/-- The text of a finite value. -/
def exactText (v : Exact) : String :=
  if v.mantissa = 0 then "0"
  else
    let sign := if v.negative then "-" else ""
    if v.isIntegral && decide (v.floor < plainBound) then
      sign ++ String.ofList (Nat.toDigits 10 v.floor)
    else sign ++ positional (shortest .away v)

/-- The text of a number. -/
def text (x : Float) : String :=
  match Exact.ofFloat? x with
  | some v => exactText v
  | none => if x.isNaN then "NaN" else if x < 0.0 then "-Infinity" else "Infinity"

end PlayerScript.Number
