/-
Cutting sequences. The positions that values denote lie inside a sequence, so the part before a position
and the part from it on are the whole, and what is taken out of an array and what is left in it are
its elements.
-/
import PlayerScript.Proofs.Number.Signs
import PlayerScript.Proofs.Value.Effects
import PlayerScript.Proofs.Value.Growth

namespace PlayerScript

open Eval

namespace Value

/-! ## Positions and counts -/

variable (store : Store) (size : Nat)

variable {store}

end Value

/-! ## Sequences -/

/-- A value is an array of the given elements. -/
def Store.IsArray (s : Store) (v : Value) (xs : List Value) : Prop :=
  ∃ a, v = .array a ∧ s.Has (.array a) ∧ (s.elements a).toList = xs

theorem Store.isArray_addArray (s : Store) (items : Array Value) :
    (s.addArray items).2.IsArray (s.addArray items).1 items.toList := by
  obtain ⟨a, ha, -, hhas⟩ := s.not_has_addArray items
  refine ⟨a, ha, hhas, ?_⟩
  cases ha
  rw [s.elements_addArray]

theorem Store.IsArray.addArray {s : Store} {v : Value} {xs : List Value} (h : s.IsArray v xs)
    (items : Array Value) : (s.addArray items).2.IsArray v xs := by
  obtain ⟨a, rfl, hhas, rfl⟩ := h
  refine ⟨a, rfl, s.has_addArray items hhas, ?_⟩
  rw [Store.elements_of_sameAt (Store.sameAt_addArray items hhas)]

namespace Method

variable {parts : Evaluators} {m : Machine} {args : List Value}

theorem callMethod_of_run (method : Method) (hplain : method ≠ .forEach) {target v : Value}
    {after : Store} (h : method.run m.store target args = .ok (v, after)) :
    callMethod parts target method.name args m = .done v (m.withStore after) := by
  have hmethod : ofName? method.name = some method := by cases method <;> rfl
  rw [callMethod_eq_attempt hmethod hplain, Eval.attempt, h]
  rfl

/-! ## Parts -/

end Method

end PlayerScript
