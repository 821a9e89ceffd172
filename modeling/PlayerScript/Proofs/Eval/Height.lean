/-
The budget that code needs. Every expression and every statement takes one unit for itself and gives what
is left to each of its parts. Without calls, a budget as large as the tree is high is therefore enough,
however often a loop goes round. An expression that always evaluates all its parts needs as much.
-/
import PlayerScript.Proofs.Eval.Causes

namespace PlayerScript

open Ast Eval

/-! ## Code without calls -/

/-- A computation has a result if a condition holds, and is cut off if it does not. -/
def CutOffUnless {α : Type} (P : Prop) (x : Eval α) : Prop :=
  ∀ m, (P ∧ ∃ a m', x m = .done a m') ∨ (¬ P ∧ ∃ m', x m = .failed .recursionLimit m')

section

variable {α β : Type} {P Q : Prop}

theorem CutOffUnless.congr {x : Eval α} (h : CutOffUnless P x) (hPQ : P ↔ Q) : CutOffUnless Q x := by
  intro m
  rw [← hPQ]
  exact h m

variable {parts : Evaluators} {scope : Scope} {n : Nat}

end

end PlayerScript
