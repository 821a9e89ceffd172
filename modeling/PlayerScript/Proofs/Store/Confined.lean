/-
Two runs over an arena that stay inside a set of cells: the two arenas agree inside the set, every
cell inside it satisfies a condition, and outside of it each arena is still as it was at the
beginning. All cells that were added since lie inside.
-/
import PlayerScript.Store.Arena

namespace PlayerScript.Arena

variable {α : Type}

@[simp] theorem size_push (a : Arena α) (x : α) : (a.push x).size = a.size + 1 :=
  Array.size_push x

@[simp] theorem size_modify (a : Arena α) (i : Nat) (f : α → α) : (a.modify i f).size = a.size :=
  Array.size_modify

theorem get?_push (a : Arena α) (x : α) (i : Nat) :
    (a.push x).get? i = if i = a.size then some x else a.get? i :=
  Array.getElem?_push

theorem get?_modify (a : Arena α) (i j : Nat) (f : α → α) :
    (a.modify i f).get? j = if i = j then (a.get? j).map f else a.get? j :=
  Array.getElem?_modify

theorem get?_eq_none {a : Arena α} {i : Nat} (h : a.size ≤ i) : a.get? i = none :=
  Array.getElem?_eq_none h

theorem lt_size_of_get? {a : Arena α} {i : Nat} {x : α} (h : a.get? i = some x) : i < a.size := by
  rcases Nat.lt_or_ge i a.size with hlt | hle
  · exact hlt
  · rw [get?_eq_none hle] at h
    cases h

theorem ext_get? {a b : Arena α} (h : ∀ i, a.get? i = b.get? i) : a = b := by
  obtain ⟨xs⟩ := a
  obtain ⟨ys⟩ := b
  exact congrArg mk (Array.ext_getElem? h)

section

variable {P : α → Prop} {a : Arena α}

/-- The contents of every cell satisfy a condition. -/
def All (P : α → Prop) (a : Arena α) : Prop := ∀ i x, a.get? i = some x → P x

theorem All.mono {Q : α → Prop} (h : a.All P) (hsub : ∀ x, P x → Q x) : a.All Q :=
  fun i x hx => hsub x (h i x hx)

theorem All.push (h : a.All P) {x : α} (hx : P x) : (a.push x).All P := by
  intro i y hy
  rw [get?_push] at hy
  split at hy
  · cases hy
    exact hx
  · exact h i y hy

theorem All.modify (h : a.All P) {i : Nat} {f : α → α} (hf : ∀ x, a.get? i = some x → P (f x)) :
    (a.modify i f).All P := by
  intro j y hy
  rw [get?_modify] at hy
  split at hy
  · rename_i hij
    subst hij
    obtain ⟨x, hx, rfl⟩ := Option.map_eq_some_iff.1 hy
    exact hf x hx
  · exact h j y hy

end

/-- Two arenas that agree inside `G`, where every cell satisfies `P`, and that differ from the
arenas `b₁` and `b₂` only inside `G`. -/
structure Confined (G : Nat → Prop) (P : α → Prop) (b₁ b₂ a₁ a₂ : Arena α) : Prop where
  size : a₁.size = a₂.size
  grown : b₁.size ≤ a₁.size
  agree : ∀ i, G i → a₁.get? i = a₂.get? i
  inside : ∀ i x, G i → a₁.get? i = some x → P x
  first : ∀ i, ¬ G i → a₁.get? i = b₁.get? i
  second : ∀ i, ¬ G i → a₂.get? i = b₂.get? i

namespace Confined

variable {G : Nat → Prop} {P : α → Prop} {b₁ b₂ a₁ a₂ : Arena α}

/-- At the beginning it is enough that the arenas agree where they have cells. -/
theorem start (hsize : b₁.size = b₂.size) (agree : ∀ i, i < b₁.size → G i → b₁.get? i = b₂.get? i)
    (inside : ∀ i x, G i → b₁.get? i = some x → P x) : Confined G P b₁ b₂ b₁ b₂ := by
  refine ⟨hsize, Nat.le_refl _, fun i hi => ?_, inside, fun _ _ => rfl, fun _ _ => rfl⟩
  by_cases h : i < b₁.size
  · exact agree i h hi
  · rw [get?_eq_none (by omega), get?_eq_none (by omega)]

theorem push (h : Confined G P b₁ b₂ a₁ a₂) (fresh : ∀ i, b₁.size ≤ i → G i) {x : α} (hx : P x) :
    Confined G P b₁ b₂ (a₁.push x) (a₂.push x) := by
  -- The new cell is none of the outside.
  have hout : ∀ i, ¬ G i → i ≠ a₁.size := by
    rintro i hi rfl
    exact hi (fresh _ h.grown)
  refine ⟨by simp [h.size], by have := h.grown; simp; omega, ?_, ?_, ?_, ?_⟩
  · intro i hi
    rw [get?_push, get?_push, h.size, h.agree i hi]
  · intro i y hi hy
    rw [get?_push] at hy
    split at hy
    · cases hy
      exact hx
    · exact h.inside i y hi hy
  · intro i hi
    rw [get?_push, if_neg (hout i hi), h.first i hi]
  · intro i hi
    rw [get?_push, if_neg (h.size ▸ hout i hi), h.second i hi]

theorem modify (h : Confined G P b₁ b₂ a₁ a₂) {i : Nat} (hi : G i) {f : α → α}
    (hf : ∀ x, a₁.get? i = some x → P (f x)) :
    Confined G P b₁ b₂ (a₁.modify i f) (a₂.modify i f) := by
  have hout : ∀ j, ¬ G j → i ≠ j := by
    rintro j hj rfl
    exact hj hi
  refine ⟨by simp [h.size], by have := h.grown; simp; omega, ?_, ?_, ?_, ?_⟩
  · intro j hj
    rw [get?_modify, get?_modify, h.agree j hj]
  · intro j y hj hy
    rw [get?_modify] at hy
    split at hy
    · rename_i hij
      subst hij
      obtain ⟨x, hx, rfl⟩ := Option.map_eq_some_iff.1 hy
      exact hf x hx
    · exact h.inside j y hj hy
  · intro j hj
    rw [get?_modify, if_neg (hout j hj), h.first j hj]
  · intro j hj
    rw [get?_modify, if_neg (hout j hj), h.second j hj]

end Confined
end PlayerScript.Arena
