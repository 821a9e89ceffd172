/-
Unsigned integers in a given base, written as digits with at most one plus sign in front.
-/
namespace PlayerScript.Text

/-- The value of a digit: ten decimal digits, then the letters in either case. -/
def digitValue (c : Char) : Nat :=
  if '0' ≤ c ∧ c ≤ '9' then c.toNat - '0'.toNat
  else if 'a' ≤ c ∧ c ≤ 'z' then c.toNat - 'a'.toNat + 10
  else if 'A' ≤ c ∧ c ≤ 'Z' then c.toNat - 'A'.toNat + 10
  else 36

/-- Whether a character is a digit of the base. -/
def isDigitOf (base : Nat) (c : Char) : Bool := digitValue c < base

/-- Whether a character is a decimal digit. -/
def isDecimal (c : Char) : Bool := isDigitOf 10 c

/-- The number that a run of digits stands for. -/
def natOfDigits (base : Nat) (cs : List Char) : Nat :=
  cs.foldl (fun n c => n * base + digitValue c) 0

/-- Drops one plus sign. -/
def dropPlus : List Char → List Char
  | '+' :: cs => cs
  | cs => cs

/-- Reads an unsigned integer below `bound`: at most one plus sign, then digits of the base, at
least one, and nothing else. -/
def unsigned? (base bound : Nat) (cs : List Char) : Option Nat :=
  let digits := dropPlus cs
  if digits.isEmpty || !digits.all (isDigitOf base) then none
  else if natOfDigits base digits < bound then some (natOfDigits base digits) else none

/-- The number of different 64-bit words. -/
def wordBound : Nat := 0x10000000000000000

end PlayerScript.Text
