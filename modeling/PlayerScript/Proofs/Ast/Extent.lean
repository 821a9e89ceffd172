/-
How much a list of items weighs: one for each token, brackets included, and a burden for the kind of each
token that is no bracket. Every part into which the parser takes a range apart weighs less than the range, or as much if it is all of it.
-/
import Mathlib
import PlayerScript.Ast.Parser

namespace PlayerScript.Ast

variable {items : List Item} {r part : Range}
variable {w : TokenKind → Nat}

mutual

/-- What an item weighs, given the burden of each kind. -/
def weight (w : TokenKind → Nat) : Item → Nat
  | .leaf t => w t.kind + 1
  | .group _ _ _ inner => extent w inner + 2

/-- What the items of a list weigh. -/
def extent (w : TokenKind → Nat) : List Item → Nat
  | [] => 0
  | item :: rest => weight w item + extent w rest

end

@[simp] theorem extent_nil : extent w [] = 0 := rfl

@[simp] theorem extent_leaf (t : Token) (rest : List Item) :
    extent w (.leaf t :: rest) = extent w rest + w t.kind + 1 := by
  rw [extent, weight]
  omega

@[simp] theorem extent_group (b : Bracket) (o c : Token) (inner rest : List Item) :
    extent w (.group b o c inner :: rest) = extent w inner + extent w rest + 2 := by
  rw [extent, weight]
  omega

variable (w) in
theorem extent_cons (item : Item) (rest : List Item) : extent w rest < extent w (item :: rest) := by
  cases item with
  | leaf t => rw [extent_leaf]; omega
  | group b o c inner => rw [extent_group]; omega

theorem extent_cons_of_le {xs ys : List Item} (h : extent w xs ≤ extent w ys) (item : Item) :
    extent w (item :: xs) ≤ extent w (item :: ys) := by
  cases item with
  | leaf t => rw [extent_leaf, extent_leaf]; omega
  | group b o c inner => rw [extent_group, extent_group]; omega

variable (w) in
theorem extent_of_suffix {xs ys : List Item} (h : xs <:+ ys) : extent w xs ≤ extent w ys := by
  obtain ⟨front, rfl⟩ := h
  induction front with
  | nil => exact Nat.le_refl _
  | cons item front ih => exact ih.trans (extent_cons w item _).le

/-! ## Cuts -/

/-- What stands on both sides of a cut weighs less than the whole. -/
def Cut.Fits (w : TokenKind → Nat) (items : List Item) (cut : Cut) : Prop :=
  extent w cut.left + extent w cut.right < extent w items

theorem Cut.Fits.cons {cut : Cut} (h : cut.Fits w items) (item : Item) :
    (cut.cons item).Fits w (item :: items) := by
  unfold Fits at h ⊢
  cases item with
  | leaf t => simp only [Cut.cons, extent_leaf]; omega
  | group b o c inner => simp only [Cut.cons, extent_group]; omega

variable (w)

theorem Cut.fits_here (item : Item) (rest : List Item) : Cut.Fits w (item :: rest) ⟨[], item.last, rest⟩ := by
  have := extent_cons w item rest
  rwa [Fits, extent_nil, Nat.zero_add]

theorem fits_first? {p : Token → Bool} : ∀ {items : List Item} {cut : Cut},
    Cut.first? p items = some cut → cut.Fits w items
  | .leaf t :: rest, cut, h => by
    rw [Cut.first?] at h
    split at h
    · cases h
      exact Cut.fits_here w (.leaf t) rest
    · obtain ⟨cut, hcut, rfl⟩ := Option.map_eq_some_iff.1 h
      exact (fits_first? hcut).cons _
  | .group b o c inner :: rest, cut, h => by
    rw [Cut.first?] at h
    obtain ⟨cut, hcut, rfl⟩ := Option.map_eq_some_iff.1 h
    exact (fits_first? hcut).cons _

theorem fits_colon? : ∀ {items : List Item} {opened : Nat} {cut : Cut},
    Cut.colon? opened items = some cut → cut.Fits w items
  | item :: rest, opened, cut, h => by
    have hcons : ∀ {n}, (Cut.colon? n rest).map (Cut.cons item) = some cut → cut.Fits w (item :: rest) := by
      intro n hmap
      obtain ⟨cut, hcut, rfl⟩ := Option.map_eq_some_iff.1 hmap
      exact (fits_colon? hcut).cons _
    unfold Cut.colon? at h
    split at h
    · exact hcons h
    · split at h
      · split at h
        · cases h
          exact Cut.fits_here w _ rest
        · exact hcons h
      · exact hcons h

theorem fits_operatorAfter? {op : BinaryOp} : ∀ {items : List Item} {previous : Item} {cut : Cut},
    Cut.operatorAfter? op previous items = some cut → cut.Fits w items
  | item :: rest, previous, cut, h => by
    rw [Cut.operatorAfter?] at h
    split at h
    · rename_i hcut
      cases h
      exact (fits_operatorAfter? hcut).cons _
    · split at h
      · cases h
        exact Cut.fits_here w _ rest
      · cases h

theorem fits_binary? {op : BinaryOp} {cut : Cut}
    (h : Cut.binary? items = some (op, cut)) : cut.Fits w items := by
  obtain ⟨op', -, hop⟩ := List.exists_of_findSome?_eq_some h
  obtain ⟨cut', hcut, heq⟩ := Option.map_eq_some_iff.1 hop
  cases heq
  cases items with
  | nil => cases hcut
  | cons item rest =>
    obtain ⟨cut, hafter, rfl⟩ := Option.map_eq_some_iff.1 hcut
    exact (fits_operatorAfter? w hafter).cons _

/-! ## Ranges between punctuators -/

theorem splitItems_ne_nil (p : Punct) : ∀ (before : Option Token) (items : List Item),
    Range.splitItems p before items ≠ []
  | _, [] => List.cons_ne_nil _ _
  | before, item :: rest => by
    rw [Range.splitItems]
    split
    · exact List.cons_ne_nil _ _
    · cases h : Range.splitItems p before rest with
      | nil => exact absurd h (splitItems_ne_nil p before rest)
      | cons r ranges => exact List.cons_ne_nil _ _

/-- Each range between punctuators leaves out the punctuators, one less than there are ranges. -/
theorem extent_splitItems (p : Punct) : ∀ (before : Option Token) (items : List Item),
    ∀ r ∈ Range.splitItems p before items,
      extent w r.items + (Range.splitItems p before items).length ≤ extent w items + 1
  | before, [], r, hr => by
    rw [Range.splitItems, List.mem_singleton] at hr
    subst hr
    simp [Range.splitItems]
  | before, item :: rest, r, hr => by
    have hlt := extent_cons w item rest
    have hnext := extent_splitItems p (some item.last) rest
    have hsame := extent_splitItems p before rest
    rw [Range.splitItems] at hr ⊢
    split at hr
    · rename_i hp
      rw [if_pos hp, List.length_cons]
      obtain ⟨first, hfirst⟩ := List.exists_mem_of_ne_nil _ (splitItems_ne_nil p (some item.last) rest)
      have := hnext first hfirst
      rcases List.mem_cons.1 hr with rfl | hr
      · rw [extent_nil]
        omega
      · have := hnext r hr
        omega
    · rename_i hp
      rw [if_neg hp]
      cases hsplit : Range.splitItems p before rest with
      | nil => exact absurd hsplit (splitItems_ne_nil p before rest)
      | cons first ranges =>
        rw [hsplit] at hr hsame
        rw [Range.consFirst] at hr ⊢
        rw [List.length_cons] at hsame ⊢
        rcases List.mem_cons.1 hr with rfl | hr
        · have := hsame first List.mem_cons_self
          cases item with
          | leaf t => simp only [extent_leaf]; omega
          | group b o c inner => simp only [extent_group]; omega
        · have := hsame r (List.mem_cons_of_mem _ hr)
          omega

theorem extent_splitAt {p : Punct} (h : part ∈ r.splitAt p) :
    extent w part.items ≤ extent w r.items := by
  have hle := extent_splitItems w p r.before r.items part h
  have hpos : 0 < (Range.splitItems p r.before r.items).length := List.length_pos_of_mem h
  omega

theorem extent_splitAt_lt {p : Punct} (h : part ∈ r.splitAt p)
    (hmany : 1 < (r.splitAt p).length) : extent w part.items < extent w r.items := by
  have hle : extent w part.items + (r.splitAt p).length ≤ extent w r.items + 1 :=
    extent_splitItems w p r.before r.items part h
  omega

theorem extent_listed (h : part ∈ r.listed) : extent w part.items ≤ extent w r.items := by
  refine extent_splitAt w (p := .comma) ?_
  unfold Range.listed at h
  split at h
  · cases h
  · dsimp only at h
    split at h
    · split at h
      · exact List.mem_of_mem_dropLast h
      · exact h
    · exact h

/-! ## Statements -/

theorem first?_right_suffix {p : Token → Bool} {cut : Cut} : ∀ {xs : List Item},
    Cut.first? p xs = some cut → .leaf cut.token :: cut.right <:+ xs
  | [], h => by cases h
  | .leaf t :: xs, h => by
    rw [Cut.first?] at h
    split_ifs at h
    · cases h
      exact List.suffix_rfl
    · obtain ⟨found, hfound, rfl⟩ := Option.map_eq_some_iff.1 h
      exact (first?_right_suffix hfound).trans (List.suffix_cons _ _)
  | .group b o c inner :: xs, h => by
    rw [Cut.first?] at h
    obtain ⟨found, hfound, rfl⟩ := Option.map_eq_some_iff.1 h
    exact (first?_right_suffix hfound).trans (List.suffix_cons _ _)

theorem upToSemicolon_suffix (xs : List Item) : (upToSemicolon xs).2 <:+ xs := by
  unfold upToSemicolon
  cases hcut : Cut.first? (fun t => t.isPunct .semicolon) xs with
  | some cut => exact first?_right_suffix hcut
  | none => exact List.nil_suffix

theorem extent_upToSemicolon (items : List Item) :
    extent w (upToSemicolon items).1 ≤ extent w items ∧ extent w (upToSemicolon items).2 ≤ extent w items := by
  refine ⟨?_, extent_of_suffix w (upToSemicolon_suffix items)⟩
  unfold upToSemicolon
  split
  · rename_i cut hcut
    have hfits := fits_first? w hcut
    unfold Cut.Fits at hfits
    dsimp only
    omega
  · exact Nat.le_refl _

theorem extent_elseBranch? {rest : List Item} {word : Token}
    (h : elseBranch? items = some (word, rest)) : extent w rest < extent w items := by
  unfold elseBranch? at h
  split at h
  · rename_i first more
    have := extent_cons w first more
    split at h
    · cases h
      assumption
    · split at h
      · split at h
        · rename_i second more
          have := extent_cons w second more
          split at h
          · cases h
            omega
          · cases h
        · cases h
      · cases h
  · cases h

theorem extent_assignTarget? {name : String} {index : Range}
    (h : assignTarget? items = some (name, some index)) : extent w index.items < extent w items := by
  unfold assignTarget? at h
  split at h
  · obtain ⟨_, _, heq⟩ := Option.map_eq_some_iff.1 h
    cases heq
  · obtain ⟨_, _, heq⟩ := Option.map_eq_some_iff.1 h
    cases heq
    simp only [extent_leaf, extent_group]
    omega
  · cases h

/-- The items before the first clause and those of each clause weigh less than all of them. -/
theorem extent_splitClauses : ∀ (previous : Option Item) (items : List Item),
    extent w (splitClauses previous items).1 ≤ extent w items ∧
      ∀ clause ∈ (splitClauses previous items).2, extent w clause.2 < extent w items
  | _, [] => by
    rw [splitClauses]
    exact ⟨Nat.le_refl _, by simp⟩
  | previous, item :: rest => by
    obtain ⟨hlead, hclauses⟩ := extent_splitClauses (some item) rest
    have hlt := extent_cons w item rest
    rw [splitClauses]
    dsimp only
    split
    · refine ⟨Nat.zero_le _, ?_⟩
      rintro clause hmem
      rcases List.mem_cons.1 hmem with rfl | hmem
      · dsimp only
        omega
      · have := hclauses clause hmem
        omega
    · refine ⟨extent_cons_of_le hlead item, fun clause hmem => ?_⟩
      have := hclauses clause hmem
      omega

theorem extent_handlerHeader (items : List Item) : extent w (handlerHeader items).2 ≤ extent w items := by
  unfold handlerHeader
  split
  · simp only [extent_group]
    omega
  · exact Nat.le_refl _

end PlayerScript.Ast
