/-
What a change of the store does to its cells. A cell that is changed in place is the only one that
differs afterwards; what is added is none of the cells that were there before.
-/
import PlayerScript.Proofs.Store.Confined
import PlayerScript.Proofs.Store.Reach

namespace PlayerScript.Store

variable {s t : Store} {n : Node}

/-! ## Cells with the same contents -/

theorem elements_of_sameAt {a : ArrayRef} (h : s.SameAt t (.array a)) :
    t.elements a = s.elements a := by
  rw [elements, elements, show s.arrays.get? a.index = t.arrays.get? a.index from h]

theorem exists_of_has_array {a : ArrayRef} (h : s.Has (.array a)) :
    s.arrays.get? a.index = some (s.elements a) := by
  have hlt : a.index < s.arrays.cells.size := h
  rw [elements, Arena.get?, Array.getElem?_eq_getElem hlt]
  rfl

theorem layer_of_all {P : Table Value → Prop} (h : s.layers.All P) (hempty : P Table.empty) (l : LayerRef) :
    P (s.layer l) := by
  rw [layer]
  cases hget : s.layers.get? l.index with
  | none => exact hempty
  | some t => exact h _ t hget

theorem elements_of_all {P : Array Value → Prop} (h : s.arrays.All P) (hempty : P #[]) (a : ArrayRef) :
    P (s.elements a) := by
  rw [elements]
  cases hget : s.arrays.get? a.index with
  | none => exact hempty
  | some items => exact h _ items hget

theorem members_of_all {P : Table Value → Prop} (h : s.objects.All P) (hempty : P Table.empty) (o : ObjectRef) :
    P (s.members o) := by
  rw [members]
  cases hget : s.objects.get? o.index with
  | none => exact hempty
  | some t => exact h _ t hget

/-! ## Changes in place -/

variable {a : ArrayRef} {o : ObjectRef}

theorem elements_modifyArray (h : s.Has (.array a)) (f : Array Value → Array Value) :
    (s.modifyArray a f).elements a = f (s.elements a) := by
  refine elements_of_get? (i := a.index) ?_
  show (s.arrays.modify a.index f).get? a.index = _
  rw [Arena.get?_modify, if_pos rfl, exists_of_has_array h, Option.map_some]

theorem sameAt_modifyArray (f : Array Value → Array Value) (h : n ≠ .array a) :
    s.SameAt (s.modifyArray a f) n := by
  cases n with
  | array b =>
    show s.arrays.get? b.index = (s.arrays.modify a.index f).get? b.index
    have hindex : a.index ≠ b.index := by
      intro heq
      cases a
      cases b
      exact h (congrArg (fun i => Node.array ⟨i⟩) heq.symm)
    rw [Arena.get?_modify, if_neg hindex]
  | _ => rfl

theorem has_modifyArray_iff (f : Array Value → Array Value) : (s.modifyArray a f).Has n ↔ s.Has n := by
  cases n with
  | array b =>
    show b.index < (s.arrays.modify a.index f).size ↔ _
    rw [Arena.size_modify]
    rfl
  | _ => rfl

theorem has_setMember_iff (key : String) (v : Value) : (s.setMember o key v).Has n ↔ s.Has n := by
  cases n with
  | object b =>
    show b.index < (s.objects.modify o.index _).size ↔ _
    rw [Arena.size_modify]
    rfl
  | _ => rfl

/-! ## New arrays and objects -/

theorem members_addObject (s : Store) (members : Table Value) :
    (s.addObject members).2.members ⟨s.objects.size⟩ = members := by
  refine members_of_get? (i := s.objects.size) ?_
  show (s.objects.push members).get? s.objects.size = _
  rw [Arena.get?_push, if_pos rfl]

theorem object_of_has_addObject {members : Table Value} (h : (s.addObject members).2.Has (.object o)) :
    s.Has (.object o) ∨ o = ⟨s.objects.size⟩ := by
  have hlt : o.index < s.objects.size + 1 := by simpa [Has, addObject] using h
  exact (Nat.lt_succ_iff_lt_or_eq.1 hlt).imp id (congrArg ObjectRef.mk)

theorem array_of_has_addArray {items : Array Value} (h : (s.addArray items).2.Has (.array a)) :
    s.Has (.array a) ∨ a = ⟨s.arrays.size⟩ := by
  have hlt : a.index < s.arrays.size + 1 := by simpa [Has, addArray] using h
  exact (Nat.lt_succ_iff_lt_or_eq.1 hlt).imp id (congrArg ArrayRef.mk)

theorem elements_addArray (s : Store) (items : Array Value) :
    (s.addArray items).2.elements ⟨s.arrays.size⟩ = items := by
  refine elements_of_get? (i := s.arrays.size) ?_
  show (s.arrays.push items).get? s.arrays.size = _
  rw [Arena.get?_push, if_pos rfl]

theorem sameAt_addArray (items : Array Value) (h : s.Has n) : s.SameAt (s.addArray items).2 n := by
  cases n with
  | array b =>
    show s.arrays.get? b.index = (s.arrays.push items).get? b.index
    rw [Arena.get?_push, if_neg (Nat.ne_of_lt h)]
  | _ => rfl

theorem has_addArray (items : Array Value) (h : s.Has n) : (s.addArray items).2.Has n := by
  cases n with
  | array b =>
    show b.index < (s.arrays.push items).size
    rw [Arena.size_push]
    exact Nat.lt_succ_of_lt h
  | _ => exact h

/-- The place of a new array is none of the old ones. -/
theorem not_has_addArray (s : Store) (items : Array Value) :
    ∃ a, (s.addArray items).1 = .array a ∧ ¬ s.Has (.array a) ∧ (s.addArray items).2.Has (.array a) := by
  refine ⟨⟨s.arrays.size⟩, rfl, Nat.lt_irrefl s.arrays.size, ?_⟩
  show s.arrays.size < (s.arrays.push items).size
  rw [Arena.size_push]
  exact Nat.lt_succ_self _

end PlayerScript.Store
