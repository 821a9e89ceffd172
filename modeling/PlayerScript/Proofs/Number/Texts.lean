/-
The characters of numbers. The text of a number is made of digits, points and signs, or it is one of
the words for a number that is not finite.
-/
import Mathlib
import PlayerScript.Number.Numeral
import PlayerScript.Number.Printer

namespace PlayerScript.Number

open PlayerScript.Text

theorem not_mem_toDigits {c : Char} (hc : c.isDigit = false) (n : Nat) : c ∉ Nat.toDigits 10 n := by
  intro hmem
  rw [Nat.isDigit_of_mem_toDigits (by decide) (by decide) hmem] at hc
  cases hc

/-- A character that is neither a digit nor a point nor a minus sign does not occur in a number that is
written out. -/
theorem not_mem_exactText {c : Char} (hc : c.isDigit = false) (hpoint : c ≠ '.') (hminus : c ≠ '-')
    (v : Exact) : c ∉ (exactText v).toList := by
  have hzero : c ≠ '0' := by
    rintro rfl
    cases hc
  have hzeros : ∀ n, c ∉ (zeros n).toList := by
    intro n
    rw [zeros, String.toList_ofList, List.mem_replicate]
    exact fun h => hzero h.2
  have hdigits := not_mem_toDigits hc
  have hpositional : ∀ d : Decimal, c ∉ (positional d).toList := by
    intro d
    have htake : ∀ k, c ∉ (Nat.toDigits 10 d.digits).take k :=
      fun k h => hdigits _ (List.mem_of_mem_take h)
    have hdrop : ∀ k, c ∉ (Nat.toDigits 10 d.digits).drop k :=
      fun k h => hdigits _ (List.mem_of_mem_drop h)
    unfold positional
    dsimp only
    split_ifs <;> simp [hzeros, hdigits, htake, hdrop, hzero, hpoint]
  have hsign : c ∉ (if v.negative then "-" else "").toList := by
    split <;> simp [hminus]
  unfold exactText
  dsimp only
  generalize (if v.negative then "-" else "") = sign at hsign
  split_ifs with hmantissa hwhole
  · simp [hzero]
  · simp [hsign, hdigits]
  · simp [hsign, hpositional]

/-- No number reads like the name of a length. -/
theorem text_ne_length (x : Float) : text x ≠ "length" := by
  intro h
  have hmem : 'g' ∈ (text x).toList := by
    rw [h]
    decide
  unfold text at hmem
  split at hmem
  · exact not_mem_exactText (by decide) (by decide) (by decide) _ hmem
  · split_ifs at hmem <;> exact absurd hmem (by decide)

end PlayerScript.Number
