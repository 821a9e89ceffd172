/-
The fewest digits that read back. Among the decimals that round to a given double, one with the
fewest digits is chosen, and of those the nearest. All comparisons are made on integers.
-/
import PlayerScript.Number.Exact

namespace PlayerScript.Number

/-- A decimal: `digits * 10 ^ exponent`. -/
structure Decimal where
  digits : Nat
  exponent : Int
  deriving DecidableEq, Repr

/-- Which of two equally near decimals is taken. -/
inductive Tie where
  | away
  | even
  deriving DecidableEq, Repr

namespace Decimal

/-- Moves the zeros at the end of the digits into the exponent, at most `fuel` of them. -/
def dropZeros : Nat → Decimal → Decimal
  | 0, d => d
  | fuel + 1, d =>
    if d.digits ≠ 0 ∧ d.digits % 10 = 0 then dropZeros fuel ⟨d.digits / 10, d.exponent + 1⟩ else d

end Decimal

/-- The reals that round to a positive double, counted in quarters of its last binary place:
`value`, and the two ends `lower` and `upper`, which belong to it when `closed`. One quarter is
`num / den`. -/
structure Rounding where
  lower : Nat
  value : Nat
  upper : Nat
  closed : Bool
  num : Nat
  den : Nat

namespace Rounding

/-- The reals that round to a positive value: half a place on each side, but a quarter below a
power of two, where the places are half as wide. Rounding goes to even, so the ends count when
the mantissa is even. -/
def ofExact (v : Exact) : Rounding where
  lower := if v.mantissa = Nat.pow 2 52 ∧ v.exponent ≠ -1074 then 4 * v.mantissa - 1
    else 4 * v.mantissa - 2
  value := 4 * v.mantissa
  upper := 4 * v.mantissa + 2
  closed := v.mantissa % 2 = 0
  num := Nat.pow 2 (v.exponent - 2).toNat
  den := Nat.pow 2 (2 - v.exponent).toNat

/-- Compares a decimal with a number of quarters. -/
def compareDecimal (r : Rounding) (d : Decimal) (quarters : Nat) : Ordering :=
  compare (d.digits * Nat.pow 10 d.exponent.toNat * r.den)
    (quarters * r.num * Nat.pow 10 (-d.exponent).toNat)

/-- Whether a decimal rounds to the double. -/
def contains (r : Rounding) (d : Decimal) : Bool :=
  let low := r.compareDecimal d r.lower
  let high := r.compareDecimal d r.upper
  if r.closed then low != .lt && high != .gt else low == .gt && high == .lt

/-- The place of the leading digit: the greatest `p` with `10 ^ p` at most the value. -/
def leadingPlace (r : Rounding) : Int :=
  let whole := r.value * r.num / r.den
  if whole ≠ 0 then (Nat.toDigits 10 whole).length - 1
  else -(Nat.toDigits 10 (r.den / (r.value * r.num))).length

/-- The value's lower neighbour on the grid of multiples of `10 ^ place`. -/
def below (r : Rounding) (place : Int) : Decimal :=
  ⟨r.value * r.num * Nat.pow 10 (-place).toNat / (r.den * Nat.pow 10 place.toNat), place⟩

/-- Where the value lies between a decimal and the next one on the same grid, compared with the
middle. -/
def compareMiddle (r : Rounding) (d : Decimal) : Ordering :=
  compare (2 * (r.value * r.num * Nat.pow 10 (-d.exponent).toNat))
    ((2 * d.digits + 1) * (r.den * Nat.pow 10 d.exponent.toNat))

/-- The nearest decimal on the grid of multiples of `10 ^ place` that rounds to the double. -/
def onGrid? (r : Rounding) (tie : Tie) (place : Int) : Option Decimal :=
  let low := r.below place
  let high : Decimal := ⟨low.digits + 1, place⟩
  let lowIn := decide (low.digits ≠ 0) && r.contains low
  match lowIn, r.contains high with
  | false, false => none
  | true, false => some low
  | false, true => some high
  | true, true =>
    match r.compareMiddle low with
    | .lt => some low
    | .gt => some high
    | .eq =>
      match tie with
      | .away => some high
      | .even => if low.digits % 2 = 0 then some low else some high

/-- Tries one digit, then two, and so on. -/
def search (r : Rounding) (tie : Tie) : Nat → Int → Decimal
  | 0, place => r.below place
  | fuel + 1, place => (r.onGrid? tie place).getD (search r tie fuel (place - 1))

end Rounding

/-- The decimal with the fewest digits that rounds to a positive value, and of those the nearest;
`tie` decides between two that are equally near. Seventeen digits always suffice. -/
def shortest (tie : Tie) (v : Exact) : Decimal :=
  let r := Rounding.ofExact v
  (r.search tie 17 r.leadingPlace).dropZeros 20

end PlayerScript.Number
