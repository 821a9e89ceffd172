/-
Runs from every count of the names minted before, wherever the items stand. They end alike: either they
all stop, or they give results of which as much is known, and the functions that have no name of their own
are numbered on from the count. The words that are too heavy to be met may be left out; where the word that
begins a function is one of them, no name is minted.
-/
import PlayerScript.Proofs.Ast.Survey.Walk
import PlayerScript.Proofs.Token.Shape

namespace PlayerScript.Ast

/-! ## Numbers -/

/-- The names of functions, of which some have a name of their own. The others are numbered, from the
number after `k` on. -/
def numbered : Nat → List (Option String) → List String
  | _, [] => []
  | k, some name :: rest => name :: numbered k rest
  | k, none :: rest => syntheticName (k + 1) :: numbered (k + 1) rest

theorem numbered_append (k : Nat) (own own' : List (Option String)) :
    numbered k (own ++ own') = numbered k own ++ numbered (k + own.count none) own' := by
  induction own generalizing k with
  | nil => simp [numbered]
  | cons name rest ih =>
    cases name with
    | some name => simp [numbered, ih]
    | none => simp [numbered, ih, Nat.add_assoc, Nat.add_comm 1]

/-! ## Burdens -/

/-- A burden for the words that do not fit. -/
def burden (fits : TokenKind → Bool) (n : Nat) : TokenKind → Nat
  | .ident name => if fits (.ident name) then 0 else n
  | _ => 0

/-- No item has a burden. -/
def Unburdened (fits : TokenKind → Bool) (items : List Item) : Prop :=
  ∀ n, extent (burden fits n) items = extent (fun _ => 0) items

theorem unburdened_all (items : List Item) : Unburdened (fun _ => true) items := by
  intro n
  have hnone : burden (fun _ => true) n = fun _ => 0 := by
    funext k
    cases k <;> rfl
  rw [hnone]

theorem unburdened_of_fits {fits : TokenKind → Bool} (n : Nat) : ∀ items : List Item,
    Shape.allOf fits (items.map Item.shape) = true →
      extent (burden fits n) items = extent (fun _ => 0) items
  | [], _ => rfl
  | .leaf t :: rest, h => by
    rw [List.map_cons, Item.shape_leaf, Shape.allOf, Shape.all, Bool.and_eq_true, Bool.and_eq_true] at h
    have hburden : burden fits n t.kind = 0 := by
      unfold burden
      split
      · rename_i name hkind
        rw [← hkind, if_pos h.1.1]
      · rfl
    rw [extent_leaf, extent_leaf, hburden, unburdened_of_fits n rest h.2]
  | .group b o c inner :: rest, h => by
    rw [List.map_cons, Item.shape_group, Shape.allOf, Shape.all, Bool.and_eq_true] at h
    rw [extent_group, extent_group, unburdened_of_fits n inner h.1, unburdened_of_fits n rest h.2]

/-! ## Runs -/

/-- The same result in all runs. -/
def Same {ι α : Type} (a : ι → α) : Prop := ∃ b, a = fun _ => b

/-- Runs from all counts and of all moves that end alike: with the same diagnostic from all counts, one
that `P` admits, or with results of which `R` is known and in which the functions are numbered on. The runs
for `i` start with a count of `i + j`. -/
inductive Counted {α : Type} (mints : Prop) (P : Objection → Bool) (R : Account Nat (Move → α)) (j : Nat)
    (run : Nat → Move → Except Diagnostic α × Nat) : Prop
  | error {d : Move → Diagnostic} {j' : Nat} (hd : ∀ m, P (d m).objection = true)
      (h : ∀ i m, run i m = (.error (d m), i + j'))
  | ok {names : List (Nat → String)} {a : Nat → Move → α} (own : List (Option String))
      (hown : mints ∨ own.count none = 0) (h : ∀ i m, run i m = (.ok (a i m), i + (j + own.count none)))
      (hnames : ∀ i, names.map (fun name => name i) = numbered (i + j) own) (ha : R names a)

section

variable {α : Type} {mints : Prop} {P : Objection → Bool} {j i k : Nat} {m : Move}
  {run : Nat → Move → Except Diagnostic α × Nat}

theorem Counted.of_error {R : Account Nat (Move → α)} (h : Counted mints P R j run) {d : Diagnostic}
    (hrun : run i m = (.error d, k)) : P d.objection = true := by
  cases h with
  | error hd h => rw [h] at hrun; cases hrun; exact hd m
  | ok _ _ h => rw [h] at hrun; cases hrun

/-- Where one run succeeds, they all do. -/
theorem Counted.of_ok {R : Account Nat α} (h : Counted mints P (Unmoved R) j run) {a : α}
    (hrun : run i m = (.ok a, k)) : ∃ names b minted, (mints ∨ minted = 0) ∧ b i = a ∧ R names b ∧
      ∀ i m, run i m = (.ok (b i), i + (j + minted)) := by
  cases h with
  | error _ h => rw [h] at hrun; cases hrun
  | ok own hown h _ ha =>
    obtain ⟨b, rfl, hb⟩ := ha
    rw [h] at hrun
    cases hrun
    exact ⟨_, b, _, hown, rfl, hb, h⟩

end

theorem Objection.isPlain_of_isCommon {o : Objection} (h : o.isCommon = true) : o.isPlain = true := by
  unfold isCommon at h
  split at h
  · cases h
  · exact h

/-- A run for each count and each move. -/
def everyCount (fits : TokenKind → Bool) (n : Nat) {P : Objection → Bool}
    (hP : ∀ {o}, Objection.isCommon o = true → P o = true) : Survey Nat (burden fits n) where
  Runs R x := ∀ j, Counted (fits (.ident "function") = true) P R j fun i m => x i m (i + j)
  Name name := Same name ∨
    fits (.ident "function") = true ∧ ∃ j, name = fun i => syntheticName (i + j)
  Light k := ∀ name, k = .ident name → fits k = true
  name_own name := .inl ⟨name, rfl⟩
  done h j := .ok [] (.inr rfl) (fun _ _ => rfl) (fun _ => rfl) h
  own name h j := .ok [some name] (.inr rfl) (fun _ _ => rfl) (fun _ => rfl) h
  mint h j := by
    have hfunction := h _ rfl
    exact .ok [none] (.inl hfunction) (fun _ _ => rfl) (fun _ => rfl)
      ⟨fun i => syntheticName (i + (j + 1)), rfl, rfl, .inr ⟨hfunction, _, rfl⟩⟩
  stop hd j := .error (fun m => hP (hd m)) fun _ _ => rfl
  bind := by
    intro α β R S x f hx hf j
    have hbind : ∀ i m, (x i m >>= f i m) (i + j) = Parse.andThen (x i m) (f i m) (i + j) := fun _ _ => rfl
    simp only [hbind, Parse.andThen]
    cases hx j with
    | error hd h =>
      simp only [h]
      exact .error hd fun _ _ => rfl
    | @ok names a own hown h hnames ha =>
      simp only [h]
      cases hf names a ha (j + own.count none) with
      | error hd h => exact .error hd h
      | @ok more b own' hown' h hmore hb =>
        refine .ok (own ++ own') ?_ (fun i m => ?_) (fun i => ?_) hb
        · rw [List.count_append]
          exact hown.elim .inl fun h => hown'.imp id fun h' => by rw [h, h']
        · rw [List.count_append, ← Nat.add_assoc j]
          exact h i m
        · rw [List.map_append, hnames, hmore, numbered_append, Nat.add_assoc i]

section

variable {fits : TokenKind → Bool} {P : Objection → Bool} {hP : ∀ {o}, Objection.isCommon o = true → P o = true}

theorem light_of_burden {n bound : Nat} {k : TokenKind} (h : 2 * burden fits n k < bound) (hn : bound ≤ n) :
    (everyCount fits n hP).Light k := by
  rintro name rfl
  by_contra hfits
  rw [burden, if_neg hfits] at h
  omega

/-- Statements are parsed alike from every count and wherever they stand, if no word in them is too
heavy. -/
theorem statements_counted {trees : Nat → Trees Nat}
    (hbuilds : ∀ n depth, Builds (everyCount fits n Objection.isPlain_of_isCommon) (trees depth) (trees (depth + 1)))
    {items : List Item} (hitems : Unburdened fits items) (depth j : Nat) :
    Counted (fits (.ident "function") = true) Objection.isPlain (Unmoved (Each (trees depth).stmt)) j
      fun i m => statements (parsersWithin depth) false (m.range ⟨none, items⟩) (i + j) := by
  have hextent := hitems (2 * extent (fun _ => 0) items + 2 + depth)
  have hbase := surveyed_ended (s := everyCount fits _ Objection.isPlain_of_isCommon) (trees 0)
    (2 * extent (fun _ => 0) items + 2) (fun h => light_of_burden h (Nat.le_add_right _ depth))
    fun hd j => .error hd fun _ _ => rfl
  have hparts := surveyed_within (hbuilds _) hbase (fun h => light_of_burden h (Nat.le_refl _)) depth (Nat.le_refl _)
  simp only [Nat.zero_add] at hparts
  exact ends_statements hparts false (by dsimp only; omega) j

end

end PlayerScript.Ast
