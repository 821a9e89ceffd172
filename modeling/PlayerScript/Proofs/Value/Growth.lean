/-
Texts do not depend on how many arrays there are. The text of a value looks into nested arrays as deep
as there are arrays. That is deep enough: a value whose arrays are nested to a depth has an array for
each smaller depth, so there are at least as many arrays. So a text stays what it is when the store
grows, and when arrays and objects get other cells.
-/
import Mathlib.Data.Fintype.Card
import PlayerScript.Proofs.Value.Texts

namespace PlayerScript.Value

variable {v : Value} {d d' : Nat}

/-! ## Depths of nesting -/

section

variable {s : Store}

theorem nestsWithin_succ (h : v.nestsWithin s d = true) : v.nestsWithin s (d + 1) = true := by
  induction d generalizing v with
  | zero =>
    cases v with
    | array a => cases h
    | _ => rfl
  | succ d ih =>
    cases v with
    | array a =>
      rw [nestsWithin, List.all_eq_true] at h ⊢
      exact fun w hmem => ih (h w hmem)
    | _ => rfl

theorem nestsWithin_mono (hle : d ≤ d') (h : v.nestsWithin s d = true) :
    v.nestsWithin s d' = true := by
  induction hle with
  | refl => exact h
  | step _ ih => exact nestsWithin_succ ih

/-- Looking deeper than a value is nested shows nothing more. -/
theorem textWithin_succ (h : v.nestsWithin s d = true) :
    v.textWithin s (d + 1) = v.textWithin s d := by
  induction d generalizing v with
  | zero =>
    cases v with
    | array a => cases h
    | bool b => cases b <;> rfl
    | _ => rfl
  | succ d ih =>
    cases v with
    | array a =>
      rw [nestsWithin, List.all_eq_true] at h
      rw [textWithin, textWithin]
      congr 1
      refine List.map_congr_left fun w hmem => ?_
      rw [ih (h w hmem)]
    | bool b => cases b <;> rfl
    | _ => rfl

theorem textWithin_mono (hle : d ≤ d') (h : v.nestsWithin s d = true) :
    v.textWithin s d' = v.textWithin s d := by
  induction hle with
  | refl => rfl
  | step hle ih => exact (textWithin_succ (nestsWithin_mono hle h)).trans ih

/-- A value that is nested to a depth, and no less deep. -/
def Nests (s : Store) (d : Nat) (v : Value) : Prop :=
  v.nestsWithin s (d + 1) = true ∧ v.nestsWithin s d = false

theorem Nests.unique (h : Nests s d v) (h' : Nests s d' v) : d = d' := by
  by_contra hne
  rcases Nat.lt_or_gt_of_ne hne with hlt | hlt
  · exact absurd (nestsWithin_mono hlt h.1) (by rw [h'.2]; exact Bool.false_ne_true)
  · exact absurd (nestsWithin_mono hlt h'.1) (by rw [h.2]; exact Bool.false_ne_true)

/-- A value that is nested at all is not an array, or is nested to some depth. -/
theorem exists_nests (h : v.nestsWithin s d = true) :
    v.nestsWithin s 0 = true ∨ ∃ k < d, Nests s k v := by
  induction d with
  | zero => exact .inl h
  | succ d ih =>
    cases hd : v.nestsWithin s d with
    | false => exact .inr ⟨d, Nat.lt_succ_self d, h, hd⟩
    | true =>
      rcases ih hd with hzero | ⟨k, hlt, hk⟩
      · exact .inl hzero
      · exact .inr ⟨k, Nat.lt_succ_of_lt hlt, hk⟩

/-- There are at least as many things as there are levels, if each level has a thing that is on no other. -/
theorem le_card_of_levels {ι : Type} [Fintype ι] {OnLevel : Nat → ι → Prop}
    (hunique : ∀ {k k' : Nat} {c : ι}, OnLevel k c → OnLevel k' c → k = k')
    (h : ∀ k < d, ∃ c, OnLevel k c) : d ≤ Fintype.card ι := by
  choose c hc using fun k : Fin d => h k k.isLt
  have hinjective : Function.Injective c := by
    intro i j hij
    have hj := hc j
    rw [← hij] at hj
    exact Fin.ext (hunique (hc i) hj)
  have hcard := Fintype.card_le_of_injective c hinjective
  rwa [Fintype.card_fin] at hcard

variable {P : Value → Prop}
  (harray : ∀ a, P (.array a) → s.Has (.array a) ∧ ∀ v ∈ s.elements a, P v)
include harray

/-- In a value that is nested to a depth there is an array for each smaller depth. -/
theorem Nests.exists_array (hv : P v) (h : Nests s d v) {k : Nat} (hle : k ≤ d) :
    ∃ a, P (.array a) ∧ Nests s k (.array a) := by
  induction d generalizing v with
  | zero =>
    obtain rfl : k = 0 := Nat.le_zero.1 hle
    cases v with
    | array a => exact ⟨a, hv, h⟩
    | _ => exact absurd h.2 Bool.true_eq_false_eq_False
  | succ d ih =>
    cases v with
    | array a =>
      rcases Nat.eq_or_lt_of_le hle with rfl | hlt
      · exact ⟨a, hv, h⟩
      · -- Some element is nested as deep as the elements can be.
        obtain ⟨hwithin, hbeyond⟩ := h
        rw [nestsWithin, List.all_eq_true] at hwithin
        rw [nestsWithin, List.all_eq_false] at hbeyond
        obtain ⟨w, hmem, hw⟩ := hbeyond
        have hnests : Nests s d w := ⟨hwithin w hmem, Bool.eq_false_iff.2 hw⟩
        exact ih ((harray a hv).2 w (Array.mem_def.2 hmem)) hnests (Nat.le_of_lt_succ hlt)
    | _ => exact absurd h.2 Bool.true_eq_false_eq_False

/-- No value is nested as deep as there are arrays. -/
theorem Nests.lt_size (hv : P v) (h : Nests s d v) : d < s.arrays.size := by
  have hlevels : ∀ k < d + 1, ∃ i : Fin s.arrays.size, Nests s k (.array ⟨i⟩) := by
    intro k hk
    obtain ⟨a, ha, hnests⟩ := h.exists_array harray hv (Nat.le_of_lt_succ hk)
    exact ⟨⟨a.index, (harray a ha).1⟩, hnests⟩
  have hcard := le_card_of_levels (fun h h' => h.unique h') hlevels
  rwa [Fintype.card_fin] at hcard

theorem nestsWithin_size (hv : P v) (h : v.nestsWithin s d = true) :
    v.nestsWithin s s.arrays.size = true := by
  rcases exists_nests h with hzero | ⟨k, -, hk⟩
  · exact nestsWithin_mono (Nat.zero_le _) hzero
  · exact nestsWithin_mono (hk.lt_size harray hv) hk.1

/-- The text of a value that is nested at all is the one that any sufficient depth shows. -/
theorem text_of_nestsWithin (hv : P v) (h : v.nestsWithin s d = true) :
    v.text s = v.textWithin s d := by
  have hsize := nestsWithin_size harray hv h
  rw [text, if_pos hsize]
  rcases Nat.le_total d s.arrays.size with hle | hle
  · exact textWithin_mono hle h
  · exact (textWithin_mono hle hsize).symm

end

theorem text_of_not_nestsWithin {s : Store} (h : ∀ d, v.nestsWithin s d = false) :
    v.text s = "" := by
  rw [text, if_neg (by rw [h]; exact Bool.false_ne_true)]

/-! ## Stores with other cells -/

section

variable {ρ : Renaming} {s t : Store} {P : Value → Prop}
  (harray : ∀ a, P (.array a) →
    t.elements (ρ.array a) = (s.elements a).map (rename ρ) ∧ ∀ v ∈ s.elements a, P v)
  (hfunction : ∀ f, P (.function f) → t.closure f = s.closure f)
  (hhas : ∀ a, P (.array a) → s.Has (.array a) ∧ t.Has (.array (ρ.array a)))
include harray hfunction hhas

/-- A text does not depend on the cells of the arrays it is made from. -/
theorem text_rename (hv : P v) : (v.rename ρ).text t = v.text s := by
  have hnests := fun d => nestsWithin_rename harray d hv
  by_cases h : ∃ d, v.nestsWithin s d = true
  · obtain ⟨d, hd⟩ := h
    have hsource : ∀ a, P (.array a) → s.Has (.array a) ∧ ∀ v ∈ s.elements a, P v :=
      fun a ha => ⟨(hhas a ha).1, (harray a ha).2⟩
    have htarget : ∀ b, (∃ w, P w ∧ w.rename ρ = .array b) →
        t.Has (.array b) ∧ ∀ u ∈ t.elements b, ∃ w, P w ∧ w.rename ρ = u := by
      rintro b ⟨w, hw, heq⟩
      cases w with
      | array a =>
        cases heq
        refine ⟨(hhas a hw).2, fun u hu => ?_⟩
        rw [(harray a hw).1, Array.mem_map] at hu
        obtain ⟨x, hx, rfl⟩ := hu
        exact ⟨x, (harray a hw).2 x hx, rfl⟩
      | _ => cases heq
    rw [text_of_nestsWithin hsource hv hd,
      text_of_nestsWithin (P := fun u => ∃ w, P w ∧ w.rename ρ = u) htarget ⟨v, hv, rfl⟩
        ((hnests d).trans hd),
      textWithin_rename harray hfunction d hv]
  · have hnever : ∀ d, v.nestsWithin s d = false := fun d => Bool.eq_false_iff.2 fun hd => h ⟨d, hd⟩
    rw [text_of_not_nestsWithin hnever, text_of_not_nestsWithin fun d => (hnests d).trans (hnever d)]

end

end PlayerScript.Value
