/-
The signed 32-bit word of a double. The integer part of a finite double is taken modulo `2 ^ 32` by
steps on doubles: a remainder with the sign of the dividend, a sum that makes it positive, a
difference that moves the upper half below zero. None of the steps rounds, so that the word is the
balanced residue of the integer part.
-/
import PlayerScript.Proofs.Number.Integers

namespace PlayerScript.Number

open Float.Model Float.Model.UnpackedFloat

/-! ## Integer parts and remainders -/

variable {x : Float} {v : Exact}

end PlayerScript.Number
