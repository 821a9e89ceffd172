/-
Values that a JSON document can express: built from null, booleans, strings and integers, in arrays and
objects that do not contain themselves. Such a value has a document that does not depend on how deep it is
looked for. As deep as there are arrays and objects is always deep enough, since a value that is nested to a
depth has a container of its own for each smaller depth.
-/
import PlayerScript.Proofs.Json.Meaning
import PlayerScript.Proofs.Json.Printing
import PlayerScript.Proofs.Number.Integers
import PlayerScript.Proofs.Value.Growth

namespace PlayerScript.Value

open Number Json

/-- A value that is built from null, booleans, strings and integers below `2 ^ 53` in size, in arrays and
objects of the store that are nested at most `d` deep. The members of an object have different names, as
those of every table that is built by insertions. -/
inductive Portable (s : Store) : Nat → Value → Prop
  | null {d : Nat} : Portable s d .null
  | bool {d : Nat} (b : Bool) : Portable s d (.bool b)
  | number {d : Nat} {x : Float} {n : ℤ} (hx : rational? x = some (n : ℚ)) (hn : n.natAbs < 2 ^ 53) :
      Portable s d (.number x)
  | string {d : Nat} (text : String) : Portable s d (.string text)
  | array {d : Nat} {a : ArrayRef} (ha : s.Has (.array a)) (h : ∀ v ∈ s.elements a, Portable s d v) :
      Portable s (d + 1) (.array a)
  | object {d : Nat} {o : ObjectRef} (ho : s.Has (.object o)) (hnames : Table.Distinct (s.members o).entries)
      (h : ∀ e ∈ (s.members o).entries, Portable s d e.2) : Portable s (d + 1) (.object o)

namespace Portable

variable {s : Store} {v : Value} {d d' : Nat}

theorem mono (h : v.Portable s d) (hle : d ≤ d') : v.Portable s d' := by
  induction h generalizing d' with
  | null => exact .null
  | bool b => exact .bool b
  | number hx hn => exact .number hx hn
  | string text => exact .string text
  | array ha _ ih =>
    obtain ⟨e, rfl⟩ : ∃ e, d' = e + 1 := ⟨d' - 1, by omega⟩
    exact .array ha fun w hw => ih w hw (Nat.le_of_succ_le_succ hle)
  | object ho hnames _ ih =>
    obtain ⟨e, rfl⟩ : ∃ e, d' = e + 1 := ⟨d' - 1, by omega⟩
    exact .object ho hnames fun w hw => ih w hw (Nat.le_of_succ_le_succ hle)

/-! ## Depths -/

/-- A container of the store. -/
def containerAt (s : Store) : Fin s.arrays.size ⊕ Fin s.objects.size → Value
  | .inl i => .array ⟨i⟩
  | .inr i => .object ⟨i⟩

/-- A value is nested to a depth, and no less deep. -/
def Exactly (s : Store) (d : Nat) (v : Value) : Prop := v.Portable s (d + 1) ∧ ¬ v.Portable s d

theorem Exactly.unique (h : Exactly s d v) (h' : Exactly s d' v) : d = d' := by
  by_contra hne
  rcases Nat.lt_or_gt_of_ne hne with hlt | hlt
  · exact h'.2 (h.1.mono hlt)
  · exact h.2 (h'.1.mono hlt)

theorem exists_exactly (h : v.Portable s d) : v.Portable s 0 ∨ ∃ k, Exactly s k v := by
  induction d with
  | zero => exact .inl h
  | succ d ih =>
    by_cases hd : v.Portable s d
    · exact ih hd
    · exact .inr ⟨d, h, hd⟩

/-- Only a container is nested to a depth. -/
theorem Exactly.isContainer (h : Exactly s d v) : ∃ c, v = containerAt s c := by
  obtain ⟨hdeep, hshallow⟩ := h
  cases hdeep with
  | array ha => exact ⟨.inl ⟨_, ha⟩, rfl⟩
  | object ho => exact ⟨.inr ⟨_, ho⟩, rfl⟩
  | null => exact absurd .null hshallow
  | bool b => exact absurd (.bool b) hshallow
  | number hx hn => exact absurd (.number hx hn) hshallow
  | string text => exact absurd (.string text) hshallow

/-- Some part of a container is nested one level less deep. -/
theorem Exactly.exists_part (h : Exactly s (d + 1) v) : ∃ w, Exactly s d w := by
  obtain ⟨hdeep, hshallow⟩ := h
  by_contra hnone
  have hpart : ∀ w : Value, w.Portable s (d + 1) → w.Portable s d := fun w hw =>
    by_contra fun hnot => hnone ⟨w, hw, hnot⟩
  cases hdeep with
  | array ha hitems => exact hshallow (.array ha fun w hw => hpart w (hitems w hw))
  | object ho hnames hmembers => exact hshallow (.object ho hnames fun e he => hpart e.2 (hmembers e he))
  | null => exact hshallow .null
  | bool b => exact hshallow (.bool b)
  | number hx hn => exact hshallow (.number hx hn)
  | string text => exact hshallow (.string text)

theorem Exactly.exists_container (h : Exactly s d v) {k : Nat} (hle : k ≤ d) :
    ∃ c, Exactly s k (containerAt s c) := by
  induction d generalizing v with
  | zero =>
    obtain rfl : k = 0 := Nat.le_zero.1 hle
    obtain ⟨c, rfl⟩ := h.isContainer
    exact ⟨c, h⟩
  | succ d ih =>
    rcases Nat.eq_or_lt_of_le hle with rfl | hlt
    · obtain ⟨c, rfl⟩ := h.isContainer
      exact ⟨c, h⟩
    · obtain ⟨w, hw⟩ := h.exists_part
      exact ih hw (Nat.le_of_lt_succ hlt)

/-- No value is nested deeper than there are arrays and objects. -/
theorem within_containers (h : v.Portable s d) : v.Portable s s.containers := by
  rcases h.exists_exactly with hzero | ⟨k, hk⟩
  · exact hzero.mono (Nat.zero_le _)
  · have hlevels : ∀ i < k + 1, ∃ c, Exactly s i (containerAt s c) := fun i hi =>
      hk.exists_container (Nat.le_of_lt_succ hi)
    have hcard := le_card_of_levels (fun h h' => h.unique h') hlevels
    rw [Fintype.card_sum, Fintype.card_fin, Fintype.card_fin] at hcard
    exact hk.1.mono hcard

/-! ## Documents -/

theorem mem_sorted {α : Type} {t : Table α} {e : String × α} : e ∈ t.sorted ↔ e ∈ t.entries :=
  List.mem_mergeSort

/-- The document of a value is the one that any sufficient depth shows. -/
theorem toJsonWithin_eq (h : v.Portable s d) (hle : d ≤ d') : v.toJsonWithin s d' = v.toJsonWithin s d := by
  induction h generalizing d' with
  | null | bool | number | string => rw [toJsonWithin, toJsonWithin]
  | array _ _ ih =>
    obtain ⟨e, rfl⟩ : ∃ e, d' = e + 1 := ⟨d' - 1, by omega⟩
    rw [toJsonWithin, toJsonWithin]
    congr 1
    exact List.map_congr_left fun w hw => ih w (Array.mem_def.2 hw) (Nat.le_of_succ_le_succ hle)
  | object _ _ _ ih =>
    obtain ⟨e, rfl⟩ : ∃ e, d' = e + 1 := ⟨d' - 1, by omega⟩
    rw [toJsonWithin, toJsonWithin]
    congr 1
    refine List.map_congr_left fun w hw => ?_
    rw [ih w (mem_sorted.1 hw) (Nat.le_of_succ_le_succ hle)]

theorem toJson_eq (h : v.Portable s d) : v.toJson s = v.toJsonWithin s d := by
  have hcontainers := h.within_containers
  unfold toJson
  rcases Nat.le_total d s.containers with hle | hle
  · exact h.toJsonWithin_eq hle
  · exact (hcontainers.toJsonWithin_eq hle).symm

theorem numberToJson_eq {x : Float} {n : ℤ} (hx : rational? x = some (n : ℚ)) (hn : n.natAbs < 2 ^ 53) :
    numberToJson x = .integer n := by
  have hinteger := integer?_of_rational? hx
  obtain ⟨v, hv, -⟩ := (isInteger_of_integer? hinteger hn).exact
  have hfinite : x.isFinite = true := (isFinite_iff x).2 ⟨v, hv⟩
  have hbound : n.natAbs < exactBound := hn
  unfold numberToJson
  simp [hfinite, hinteger, hbound]

/-- The numbers of the document are integers of 64 bits. -/
theorem integralWithin (h : v.Portable s d) : IntegralWithin d (v.toJsonWithin s d) := by
  induction h with
  | null => rw [toJsonWithin]; exact .null
  | bool b => rw [toJsonWithin]; exact .bool b
  | number hx hn =>
    rw [toJsonWithin, numberToJson_eq hx hn]
    exact .integer (by omega)
  | string text => rw [toJsonWithin]; exact .string text
  | array _ _ ih =>
    rw [toJsonWithin]
    refine .array fun j hj => ?_
    obtain ⟨w, hw, rfl⟩ := List.mem_map.1 hj
    exact ih w (Array.mem_def.2 hw)
  | object _ _ _ ih =>
    rw [toJsonWithin]
    refine .object fun m hm => ?_
    obtain ⟨e, he, rfl⟩ := List.mem_map.1 hm
    exact ih e (mem_sorted.1 he)

end Portable

end PlayerScript.Value
