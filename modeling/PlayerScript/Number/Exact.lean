/-
The exact value of a double. A finite double is an integer times a power of two; integer parts,
32-bit words and remainders are computed on that integer, without rounding.
-/
namespace PlayerScript.Number

/-- A finite double, exactly: `mantissa * 2 ^ exponent`, negated when `negative`. -/
structure Exact where
  negative : Bool
  mantissa : Nat
  exponent : Int
  deriving DecidableEq, Repr

namespace Exact

/-- The exact value behind a bit pattern; infinities and NaN have none. -/
def ofBits? (bits : Nat) : Option Exact :=
  let negative := decide (bits / Nat.pow 2 63 % 2 = 1)
  let biased : Nat := bits / Nat.pow 2 52 % Nat.pow 2 11
  let fraction : Nat := bits % Nat.pow 2 52
  if biased = 2047 then none
  else if biased = 0 then some ⟨negative, fraction, -1074⟩
  else some ⟨negative, Nat.pow 2 52 + fraction, (biased : Int) - 1075⟩

/-- The exact value of a double, if it is finite. -/
def ofFloat? (x : Float) : Option Exact := ofBits? x.toBits.toNat

/-- The bit pattern of a value with a mantissa below `2 ^ 53` and an exponent that a double can
hold: the mantissa is moved up as far as the exponent allows. -/
def toBits (v : Exact) : Nat :=
  let sign := if v.negative then Nat.pow 2 63 else 0
  if v.mantissa = 0 then sign
  else
    let shift := min (52 - v.mantissa.log2) (v.exponent + 1074).toNat
    let mantissa := v.mantissa * Nat.pow 2 shift
    if mantissa < Nat.pow 2 52 then sign + mantissa
    else sign + (v.exponent - shift + 1075).toNat * Nat.pow 2 52 + (mantissa - Nat.pow 2 52)

/-- The double with the given exact value. -/
def toFloat (v : Exact) : Float := Float.ofBits (UInt64.ofNat v.toBits)

/-- The absolute value, cut down to an integer. -/
def floor (v : Exact) : Nat :=
  if 0 ≤ v.exponent then v.mantissa * Nat.pow 2 v.exponent.toNat
  else v.mantissa / Nat.pow 2 (-v.exponent).toNat

/-- Whether the value is an integer. -/
def isIntegral (v : Exact) : Bool :=
  if 0 ≤ v.exponent then true else decide (v.mantissa % Nat.pow 2 (-v.exponent).toNat = 0)

/-- The integer part: the value cut toward zero. -/
def truncate (v : Exact) : Int := if v.negative then -(v.floor : Int) else v.floor

/-- The mantissa when the value is written with a smaller exponent. -/
def mantissaAt (v : Exact) (exponent : Int) : Nat :=
  v.mantissa * Nat.pow 2 (v.exponent - exponent).toNat

/-- What is left of `x` after taking away `y` as often as it fits, with the sign of `x`. -/
def remainder (x y : Exact) : Exact :=
  let exponent := min x.exponent y.exponent
  ⟨x.negative, x.mantissaAt exponent % y.mantissaAt exponent, exponent⟩

end Exact

/-- The double that is not a number. -/
def nan : Float := 0.0 / 0.0

/-- The positive infinite double. -/
def infinity : Float := 1.0 / 0.0

/-- The integer part of a finite double. -/
def truncate? (x : Float) : Option Int := (Exact.ofFloat? x).map Exact.truncate

/-- The value of a finite, integral double. -/
def integer? (x : Float) : Option Int :=
  match Exact.ofFloat? x with
  | some v => if v.isIntegral then some v.truncate else none
  | none => none

/-- The integer part of a double, as a double with the same sign. -/
def integerPart (x : Float) : Float :=
  match Exact.ofFloat? x with
  | some v => if v.isIntegral then x else (⟨v.negative, v.floor, 0⟩ : Exact).toFloat
  | none => x

/-- The truncated remainder of a division: exact, with the sign of the dividend. -/
def remainder (x y : Float) : Float :=
  match Exact.ofFloat? x, Exact.ofFloat? y with
  | some a, some b => if b.mantissa = 0 then nan else (Exact.remainder a b).toFloat
  | some _, none => if y.isNaN then nan else x
  | none, _ => nan

/-- The number of 32-bit words. -/
def wordCount : Float := 4294967296.0

/-- The least number above the signed 32-bit words. -/
def wordLimit : Float := 2147483648.0

/-- The remainder of the integer part modulo the number of words, which is never negative. -/
def wrapped (x : Float) : Float :=
  let r := remainder (integerPart x) wordCount
  if r < 0.0 then r + wordCount else r

/-- The integer part of a number, kept within the signed 32-bit words. NaN gives zero. -/
def saturated (x : Float) : Int :=
  match truncate? x with
  | some n => max (-0x80000000) (min n 0x7fffffff)
  | none => if x.isNaN then 0 else if x < 0.0 then -0x80000000 else 0x7fffffff

/-- The number as a signed 32-bit word: its integer part modulo the number of words, where the upper
half of the remainders stands for the words below zero. Infinities and NaN give zero. -/
def int32 (x : Float) : Int :=
  if x.isFinite then
    let w := wrapped x
    saturated (if wordLimit ≤ w then w - wordCount else w)
  else 0

/-- Raising to a power. Every number to the power zero is one, and a NaN exponent gives NaN. -/
def power (base exponent : Float) : Float :=
  if exponent == 0.0 then 1.0 else if exponent.isNaN then nan else Float.pow base exponent

end PlayerScript.Number
