/-
Searches over the positions of a range that holds items. They step over groups, they make progress,
and they find what the searches over the items find.
-/
import PlayerScript.Proofs.Ast.Ranges.Layout

namespace PlayerScript.Ast.Ranges

open Reading

variable {p : Token → Bool} {start : Nat}

/-! ## Items one after another -/

/-- The number of tokens of an item. -/
def width (item : Item) : Nat := (Item.tokens item).length

/-- Whether an item is a token with a property. -/
def meets (p : Token → Bool) : Item → Bool
  | .leaf t => p t
  | .group .. => false

/-- The positions, from `lo` on, of the items that are tokens with a property. -/
def marksIn (p : Token → Bool) : Nat → List Item → List Nat
  | _, [] => []
  | lo, item :: rest =>
    if meets p item then lo :: marksIn p (lo + width item) rest else marksIn p (lo + width item) rest

/-- A condition that no bracket satisfies. -/
def Plain (p : Token → Bool) : Prop := ∀ t, t.kind.isBracket = true → p t = false

theorem plain_isPunct {q : Punct} (h : (TokenKind.punct q).isBracket = false) :
    Plain fun t => t.isPunct q := by
  intro t ht
  show t.isPunct q = false
  rw [Token.isPunct, Token.punct?]
  cases hk : t.kind with
  | punct p =>
    rw [hk] at ht
    simp only [Option.some_beq_some, beq_eq_false_iff_ne]
    rintro rfl
    rw [h] at ht
    cases ht
  | _ => rfl

theorem plain_or {q : Token → Bool} (hp : Plain p) (hq : Plain q) : Plain fun t => p t || q t := by
  intro t ht
  show (p t || q t) = false
  rw [hp t ht, hq t ht]
  rfl

theorem plain_isWord (word : String) : Plain fun t => t.isWord word := by
  intro t ht
  show t.isWord word = false
  rw [Token.isWord, Token.ident?]
  cases hk : t.kind with
  | ident name => rw [hk] at ht; cases ht
  | _ => rfl

theorem meets_isPunct (p : Punct) (item : Item) : meets (fun t => t.isPunct p) item = item.isPunct p := by
  cases item <;> rfl

theorem meets_isWord (word : String) (item : Item) :
    meets (fun t => t.isWord word) item = item.isWord word := by
  cases item <;> rfl

section Items

variable {l : Layout} {lo hi : Nat} {item : Item} {rest : List Item}

theorem width_pos (item : Item) : 0 < width item := by
  cases item with
  | leaf t => rw [width, Item.tokens, List.length_singleton]; omega
  | group b o c inner => rw [width, Item.tokens, List.length_cons]; omega

theorem width_leaf (t : Token) : width (.leaf t) = 1 := by rw [width, Item.tokens, List.length_singleton]

theorem Holds.length_eq {items : List Item} (h : Holds l lo hi items) :
    lo + (Item.tokensOf items).length = hi := by
  induction h with
  | nil => rfl
  | leaf _ _ _ _ ih =>
    rw [Item.tokensOf, Item.tokens, List.length_append, List.length_singleton]
    omega
  | group _ _ _ _ _ _ _ _ ih₁ ih₂ =>
    rw [Item.tokensOf, Item.tokens, List.length_append, List.length_cons, List.length_append,
      List.length_singleton]
    omega

/-- An item and what follows it. -/
theorem Holds.parts (h : Holds l lo hi (item :: rest)) :
    Holds l lo (lo + width item) [item] ∧ Holds l (lo + width item) hi rest := by
  obtain ⟨mid, h₁, h₂⟩ := (show Holds l lo hi ([item] ++ rest) from h).of_append
  have hmid : lo + width item = mid := by
    have := h₁.length_eq
    rw [Item.tokensOf, Item.tokensOf, List.append_nil] at this
    exact this
  rw [hmid]
  exact ⟨h₁, h₂⟩

theorem Holds.tail (h : Holds l lo hi (item :: rest)) : Holds l (lo + width item) hi rest := h.parts.2

theorem Holds.lo_le_size {items : List Item} (h : Holds l lo hi items) : lo ≤ l.tokens.size :=
  h.le.trans h.le_size

/-- The next position outside brackets is the one after the item. -/
theorem Holds.nextOutside (h : Holds l lo hi (item :: rest)) :
    l.nextOutside lo = done (lo + width item) := by
  cases h with
  | leaf _ _ hp => rw [Layout.nextOutside, partnerAt_eq hp, width_leaf]; rfl
  | @group _ close _ b o c inner _ _ _ hop hinner =>
    have hlen := hinner.length_eq
    have hle := hinner.le
    have hwidth : width (.group b o c inner) = (Item.tokensOf inner).length + 2 := by
      rw [width, Item.tokens, List.length_cons, List.length_append, List.length_singleton]
    rw [Layout.nextOutside, partnerAt_eq hop, done_bind, hwidth]
    simp only
    rw [if_pos (by omega)]
    exact congrArg done (by omega)

/-- A condition holds of the first token just if it holds of the item. -/
theorem Holds.meets_first (hp : Plain p) (h : Holds l lo hi (item :: rest)) :
    p item.first = meets p item := by
  cases h with
  | leaf => rfl
  | group _ hok => exact hp _ (by rw [Item.first, hok]; rfl)

/-- An item with a property is a token, at which the items can be cut. -/
theorem Holds.cutAt (h : Holds l lo hi (item :: rest)) (hm : meets p item = true) :
    CutAt l lo lo hi ⟨[], item.last, rest⟩ ∧ p item.last = true := by
  have hsize := h.lo_le_size
  cases h with
  | leaf ht hk hpt hrest => exact ⟨⟨.nil hsize, ht, hk, hpt, hrest⟩, hm⟩
  | group => cases hm

theorem Holds.cutAt_punct {p : Punct} (h : Holds l lo hi (item :: rest)) (hp : item.isPunct p = true) :
    CutAt l lo lo hi ⟨[], item.last, rest⟩ := (h.cutAt ((meets_isPunct p item).trans hp)).1

theorem Holds.cutAt_word {word : String} (h : Holds l lo hi (item :: rest))
    (hword : item.isWord word = true) : CutAt l lo lo hi ⟨[], item.last, rest⟩ :=
  (h.cutAt ((meets_isWord word item).trans hword)).1

theorem CutAt.cons {i : Nat} {cut : Cut} (h : CutAt l (lo + width item) i hi cut)
    (hitem : Holds l lo hi (item :: rest)) : CutAt l lo i hi (cut.cons item) :=
  ⟨hitem.parts.1.append h.left, h.token, h.plain, h.alone, h.right⟩

/-- The last token of an item stands right before what follows. -/
theorem Holds.last_first (h : Holds l lo hi (item :: rest)) :
    l.tokens[lo + width item - 1]? = some item.last :=
  h.parts.1.last rfl

end Items

/-! ## First and all occurrences -/

theorem first?_cons (p : Token → Bool) (item : Item) (rest : List Item) :
    Cut.first? p (item :: rest) =
      if meets p item then some ⟨[], item.last, rest⟩
      else (Cut.first? p rest).map (Cut.cons item) := by
  cases item with
  | leaf t => rfl
  | group b o c inner => rfl

section Searches

variable {l : Layout} {lo hi : Nat} {items : List Item}

theorem allOutside_eq (hp : Plain p) (h : Holds l lo hi items) {fuel : Nat}
    (hfuel : hi - lo ≤ fuel) : l.allOutside p hi fuel lo = done (marksIn p lo items) := by
  induction items generalizing lo fuel with
  | nil =>
    have := h.eq_iff.2 rfl
    cases fuel <;> rw [Layout.allOutside, if_neg (by omega)] <;> rfl
  | cons item rest ih =>
    have hlt := h.lt (List.cons_ne_nil _ _)
    have hpos := width_pos item
    obtain ⟨fuel, rfl⟩ : ∃ n, fuel = n + 1 := ⟨fuel - 1, by omega⟩
    rw [Layout.allOutside, if_pos hlt, tokenAt_eq h.first, done_bind, h.nextOutside, done_bind,
      ih h.tail (by omega), done_bind, h.meets_first hp, marksIn]
    split <;> rfl

theorem findAll_eq (hp : Plain p) (h : Holds l lo hi items) :
    l.findAll p lo hi = done (marksIn p lo items) :=
  allOutside_eq hp h (Nat.le_refl _)

/-- The first token with a property is found where the items are cut at it. -/
theorem firstOutside_eq (hp : Plain p) (h : Holds l lo hi items) {fuel : Nat}
    (hfuel : hi - lo ≤ fuel) :
    (l.firstOutside p hi fuel lo = done none ∧ Cut.first? p items = none) ∨
      ∃ i cut, l.firstOutside p hi fuel lo = done (some i) ∧ Cut.first? p items = some cut ∧
        p cut.token = true ∧ CutAt l lo i hi cut := by
  induction items generalizing lo fuel with
  | nil =>
    have := h.eq_iff.2 rfl
    cases fuel <;> rw [Layout.firstOutside, if_neg (by omega)] <;> exact .inl ⟨rfl, rfl⟩
  | cons item rest ih =>
    have hlt := h.lt (List.cons_ne_nil _ _)
    have hpos := width_pos item
    obtain ⟨fuel, rfl⟩ : ∃ n, fuel = n + 1 := ⟨fuel - 1, by omega⟩
    rw [Layout.firstOutside, if_pos hlt, tokenAt_eq h.first, done_bind, h.meets_first hp, first?_cons]
    by_cases hm : meets p item = true
    · rw [if_pos hm, if_pos hm]
      obtain ⟨hcut, hlast⟩ := h.cutAt hm
      exact .inr ⟨lo, _, rfl, rfl, hlast, hcut⟩
    · have hfuel' : hi - (lo + width item) ≤ fuel := by omega
      rw [if_neg hm, if_neg hm, h.nextOutside, done_bind]
      rcases ih h.tail hfuel' with ⟨h₁, h₂⟩ | ⟨i, cut, h₁, h₂, h₃, h₄⟩
      · exact .inl ⟨h₁, by rw [h₂]; rfl⟩
      · exact .inr ⟨i, cut.cons item, h₁, by rw [h₂]; rfl, h₃, h₄.cons h⟩

theorem find_eq (hp : Plain p) (h : Holds l lo hi items) :
    (l.find p lo hi = done none ∧ Cut.first? p items = none) ∨
      ∃ i cut, l.find p lo hi = done (some i) ∧ Cut.first? p items = some cut ∧
        p cut.token = true ∧ CutAt l lo i hi cut :=
  firstOutside_eq hp h (Nat.le_refl _)

/-- A statement ends where the items up to its semicolon end. -/
theorem statementEnd_eq (h : Holds l lo hi items) (hends : NoOpening l hi) :
    ∃ stop, l.statementEnd lo hi = done stop ∧ Holds l lo stop (upToSemicolon items).1 ∧
      Holds l stop hi (upToSemicolon items).2 ∧ NoOpening l stop := by
  rw [Layout.statementEnd, upToSemicolon]
  rcases find_eq (plain_isPunct (q := .semicolon) rfl) h with ⟨h₁, h₂⟩ | ⟨i, cut, h₁, h₂, h₃, h₄⟩
  · rw [h₁, h₂]
    exact ⟨hi, rfl, h, .nil h.le_size, hends⟩
  · rw [h₁, h₂]
    exact ⟨i, rfl, h₄.left, .leaf h₄.token h₄.plain h₄.alone h₄.right, h₄.noOpening⟩

/-! ## Ranges between marks -/

theorem between_from {lo' stop : Nat} {marks : List Nat} {ranges : List (Nat × Nat)}
    (h : between lo' hi marks = (lo', stop) :: ranges) :
    between lo hi marks = (lo, stop) :: ranges := by
  cases marks with
  | nil => rw [between] at h ⊢; cases h; rfl
  | cons i marks => rw [between] at h ⊢; cases h; rfl

/-- Cutting a range at the marks of a punctuator gives ranges that cover the parts of the items. The
first part keeps the token before the whole range. -/
theorem between_marks (p : Punct) (before : Option Token) (h : Holds l lo hi items)
    (hends : NoOpening l hi) :
    ∃ stop part ranges parts,
      between lo hi (marksIn (fun t => t.isPunct p) lo items) = (lo, stop) :: ranges ∧
      Range.splitItems p before items = ⟨before, part⟩ :: parts ∧ Holds l lo stop part ∧
      NoOpening l stop ∧ stop ≤ hi ∧
      List.Forall₂ (fun range part => Covers l range part ∧ range.2 ≤ hi) ranges parts := by
  induction items generalizing lo before with
  | nil => exact ⟨hi, [], [], [], rfl, rfl, h, hends, Nat.le_refl hi, .nil⟩
  | cons item rest ih =>
    rw [marksIn, meets_isPunct, Range.splitItems]
    by_cases hm : item.isPunct p = true
    · have hcut := h.cutAt_punct hm
      have hwidth : width item = 1 := by
        cases item with
        | leaf t => exact width_leaf t
        | group => cases hm
      obtain ⟨stop, part, ranges, parts, h₁, h₂, h₃, h₄, h₅, h₆⟩ := ih (some item.last) h.tail
      rw [if_pos hm, if_pos hm, between, ← hwidth, h₁, h₂]
      refine ⟨lo, [], _, _, rfl, rfl, hcut.left, hcut.noOpening, h.le, .cons ⟨⟨h₃, ?_, h₄⟩, h₅⟩ h₆⟩
      rw [hwidth]
      exact before_eq hcut.token
    · obtain ⟨stop, part, ranges, parts, h₁, h₂, h₃, h₄, h₅, h₆⟩ := ih before h.tail
      rw [if_neg hm, if_neg hm, between_from h₁, h₂]
      exact ⟨stop, item :: part, ranges, parts, rfl, rfl, h.parts.1.append h₃, h₄, h₅, h₆⟩

theorem split_eq {p : Punct} (hp : (TokenKind.punct p).isBracket = false) {r : Range}
    (h : Covers l (lo, hi) r) :
    ∃ ranges, l.split p lo hi = done ranges ∧
      List.Forall₂ (fun range part => Covers l range part ∧ range.2 ≤ hi) ranges (r.splitAt p) := by
  obtain ⟨stop, part, ranges, parts, h₁, h₂, h₃, h₄, h₅, h₆⟩ :=
    between_marks p r.before h.holds h.ends
  refine ⟨(lo, stop) :: ranges, ?_, ?_⟩
  · rw [Layout.split, findAll_eq (plain_isPunct hp) h.holds, done_bind, h₁]
    rfl
  · rw [Range.splitAt, h₂]
    exact .cons ⟨⟨h₃, h.before, h₄⟩, h₅⟩ h₆

theorem forall₂_getLast? {α β : Type} {R : α → β → Prop} {as : List α} {bs : List β}
    (h : List.Forall₂ R as bs) :
    (as.getLast? = none ∧ bs.getLast? = none) ∨
      ∃ a b, as.getLast? = some a ∧ bs.getLast? = some b ∧ R a b := by
  induction h with
  | nil => exact .inl ⟨rfl, rfl⟩
  | @cons a b as bs hab hrest ih =>
    cases hrest with
    | nil => exact .inr ⟨a, b, rfl, rfl, hab⟩
    | cons _ _ =>
      rw [List.getLast?_cons_cons, List.getLast?_cons_cons]
      exact ih

theorem forall₂_dropLast {α β : Type} {R : α → β → Prop} {as : List α} {bs : List β}
    (h : List.Forall₂ R as bs) : List.Forall₂ R as.dropLast bs.dropLast := by
  rw [List.dropLast_eq_take, List.dropLast_eq_take, h.length_eq]
  exact List.forall₂_take _ h

/-- The ranges of a list cover the ranges of its items. -/
theorem listed_eq {r : Range} (h : Covers l (lo, hi) r) :
    ∃ ranges, l.listed lo hi = done ranges ∧
      List.Forall₂ (fun range part => Covers l range part ∧ range.2 ≤ hi) ranges r.listed := by
  have hempty : hi ≤ lo ↔ r.items.isEmpty = true := by
    have hle := h.holds.le
    have heq := h.holds.eq_iff
    rw [List.isEmpty_iff, ← heq]
    simp only at hle ⊢
    omega
  rw [Layout.listed, Range.listed]
  by_cases hnil : hi ≤ lo
  · rw [if_pos hnil, if_pos (hempty.1 hnil)]
    exact ⟨[], rfl, .nil⟩
  · rw [if_neg hnil, if_neg (fun h' => hnil (hempty.2 h'))]
    obtain ⟨ranges, hsplit, hcovers⟩ := split_eq (p := .comma) rfl h
    rw [hsplit, done_bind]
    dsimp only
    rcases forall₂_getLast? hcovers with ⟨h₁, h₂⟩ | ⟨range, part, h₁, h₂, hlast⟩
    · rw [h₁, h₂]
      exact ⟨ranges, rfl, hcovers⟩
    · rw [h₁, h₂]
      have hiff : (1 < ranges.length ∧ range.1 = range.2) ↔
          (1 < (r.splitAt .comma).length ∧ part.items.isEmpty = true) := by
        rw [hcovers.length_eq, hlast.1.holds.eq_iff, List.isEmpty_iff]
      obtain ⟨a, b⟩ := range
      dsimp only at hiff ⊢
      by_cases hdrop : 1 < ranges.length ∧ a = b
      · rw [if_pos hdrop, if_pos (hiff.1 hdrop)]
        exact ⟨_, rfl, forall₂_dropLast hcovers⟩
      · rw [if_neg hdrop, if_neg (fun h' => hdrop (hiff.2 h'))]
        exact ⟨_, rfl, hcovers⟩

/-! ## Operators -/

/-- The last token of an item ends an operand just if the item does. -/
theorem Holds.endsOperandAt {item : Item} {rest : List Item} (h : Holds l lo hi (item :: rest)) :
    l.endsOperandAt (lo + width item - 1) = done (endsOperand item) := by
  have hlast := h.last_first
  rw [Layout.endsOperandAt, tokenAt_eq hlast, done_bind]
  cases h with
  | @leaf _ _ t _ _ hk =>
    rw [Item.last, endsOperand]
    cases hkind : t.kind with
    | punct p =>
      rw [hkind] at hk
      cases p with
      | opening b => rfl
      | closing b => cases hk
      | _ => rfl
    | _ => rfl
  | group _ _ _ _ _ hck => rw [Item.last, hck]; rfl

/-- The last binary occurrence of an operator after an item is found where the items are cut at it.
The positions in `tail` are looked at only if there is none. -/
theorem firstBinary_eq (op : BinaryOp) (h : Holds l lo hi items) {previous : Item}
    (hprevious : l.endsOperandAt (lo - 1) = done (endsOperand previous)) (hstart : start < lo)
    (tail : List Nat) :
    (Cut.operatorAfter? op previous items = none ∧
      l.firstBinary start ((marksIn (fun t => t.isPunct (.binary op)) lo items).reverse ++ tail) =
        l.firstBinary start tail) ∨
    ∃ i cut, Cut.operatorAfter? op previous items = some cut ∧
      l.firstBinary start ((marksIn (fun t => t.isPunct (.binary op)) lo items).reverse ++ tail) =
        done (some i) ∧ CutAt l lo i hi cut := by
  induction items generalizing lo previous tail with
  | nil => exact .inl ⟨rfl, rfl⟩
  | cons item rest ih =>
    have hpos := width_pos item
    rw [Cut.operatorAfter?, marksIn, meets_isPunct]
    by_cases hm : item.isPunct (.binary op) = true
    · have hcut := h.cutAt_punct hm
      rw [if_pos hm, List.reverse_cons, List.append_assoc, List.singleton_append, hm]
      rcases ih h.tail h.endsOperandAt (by omega) (lo :: tail) with ⟨h₁, h₂⟩ | ⟨i, cut, h₁, h₂, h₃⟩
      · rw [h₁, h₂, Layout.firstBinary, if_pos hstart, hprevious, done_bind]
        cases endsOperand previous with
        | false => exact .inl ⟨rfl, rfl⟩
        | true => exact .inr ⟨lo, _, rfl, rfl, hcut⟩
      · rw [h₁, h₂]
        exact .inr ⟨i, cut.cons item, rfl, rfl, h₃.cons h⟩
    · rw [if_neg hm]
      rcases ih h.tail h.endsOperandAt (by omega) tail with ⟨h₁, h₂⟩ | ⟨i, cut, h₁, h₂, h₃⟩
      · rw [h₁, h₂, Bool.eq_false_iff.2 hm]
        exact .inl ⟨rfl, rfl⟩
      · rw [h₁, h₂]
        exact .inr ⟨i, cut.cons item, rfl, rfl, h₃.cons h⟩

/-- An operator at the very front of a range is no binary one. -/
theorem lastBinary_eq (op : BinaryOp) (h : Holds l lo hi items) :
    (Cut.operator? op items = none ∧
      l.firstBinary lo (marksIn (fun t => t.isPunct (.binary op)) lo items).reverse = done none) ∨
    ∃ i cut, Cut.operator? op items = some cut ∧
      l.firstBinary lo (marksIn (fun t => t.isPunct (.binary op)) lo items).reverse =
        done (some i) ∧ CutAt l lo i hi cut := by
  cases items with
  | nil => exact .inl ⟨rfl, rfl⟩
  | cons item rest =>
    have hpos := width_pos item
    -- the position of the item itself, if it is the operator, is passed over
    obtain ⟨tail, hmarks, htail⟩ : ∃ tail,
        (marksIn (fun t => t.isPunct (.binary op)) lo (item :: rest)).reverse =
          (marksIn (fun t => t.isPunct (.binary op)) (lo + width item) rest).reverse ++ tail ∧
        l.firstBinary lo tail = done none := by
      rw [marksIn]
      split
      · refine ⟨[lo], List.reverse_cons, ?_⟩
        rw [Layout.firstBinary, if_neg (by omega)]
        rfl
      · exact ⟨[], (List.append_nil _).symm, rfl⟩
    rw [Cut.operator?, hmarks]
    rcases firstBinary_eq op h.tail h.endsOperandAt (show lo < lo + width item by omega) tail with
      ⟨h₁, h₂⟩ | ⟨i, cut, h₁, h₂, h₃⟩
    · rw [h₁, h₂, htail]
      exact .inl ⟨rfl, rfl⟩
    · rw [h₁, h₂]
      exact .inr ⟨i, cut.cons item, rfl, rfl, h₃.cons h⟩

theorem operatorIn_eq (h : Holds l lo hi items) : ∀ ops : List BinaryOp,
    (l.operatorIn lo hi ops = done none ∧
      ops.findSome? (fun op => (Cut.operator? op items).map fun cut => (op, cut)) = none) ∨
    ∃ op i cut, l.operatorIn lo hi ops = done (some (op, i)) ∧
      ops.findSome? (fun op => (Cut.operator? op items).map fun cut => (op, cut)) =
        some (op, cut) ∧ CutAt l lo i hi cut
  | [] => .inl ⟨rfl, rfl⟩
  | op :: ops => by
    rw [Layout.operatorIn, findAll_eq (plain_isPunct rfl) h, done_bind, List.findSome?_cons]
    rcases lastBinary_eq op h with ⟨h₁, h₂⟩ | ⟨i, cut, h₁, h₂, h₃⟩
    · rw [h₁, h₂]
      exact operatorIn_eq h ops
    · rw [h₁, h₂]
      exact .inr ⟨op, i, cut, rfl, rfl, h₃⟩

/-! ## Conditionals -/

theorem colon?_cons (opened : Nat) (item : Item) (rest : List Item) :
    Cut.colon? opened (item :: rest) =
      if item.isPunct .question then (Cut.colon? (opened + 1) rest).map (Cut.cons item)
      else if item.isPunct .colon then
        match opened with
        | 0 => some ⟨[], item.last, rest⟩
        | opened + 1 => (Cut.colon? opened rest).map (Cut.cons item)
      else (Cut.colon? opened rest).map (Cut.cons item) := by
  cases opened <;> rfl

theorem colonAmong_cons (opened i : Nat) (rest : List Nat) :
    l.colonAmong opened (i :: rest) =
      if l.punctAt i .question then l.colonAmong (opened + 1) rest
      else
        match opened with
        | 0 => some i
        | opened + 1 => l.colonAmong opened rest := by
  cases opened <;> rfl

/-- The colon of a conditional is found where the items are cut at it. -/
theorem colonAmong_eq (h : Holds l lo hi items) (opened : Nat) :
    (Cut.colon? opened items = none ∧ l.colonAmong opened
      (marksIn (fun t => t.isPunct .question || t.isPunct .colon) lo items) = none) ∨
    ∃ i cut, Cut.colon? opened items = some cut ∧ l.colonAmong opened
      (marksIn (fun t => t.isPunct .question || t.isPunct .colon) lo items) = some i ∧
        CutAt l lo i hi cut := by
  induction items generalizing lo opened with
  | nil => exact .inl ⟨rfl, rfl⟩
  | cons item rest ih =>
    have hmeets : meets (fun t => t.isPunct .question || t.isPunct .colon) item =
        (item.isPunct .question || item.isPunct .colon) := by
      cases item <;> rfl
    have hat : l.punctAt lo .question = item.isPunct .question := by
      rw [punctAt_eq h.first, ← meets_isPunct]
      exact h.meets_first (plain_isPunct (q := .question) rfl)
    -- an item that does not end the search is put in front of what the rest gives
    have hrest : ∀ opened', (Cut.colon? opened' rest = none ∧ l.colonAmong opened'
          (marksIn (fun t => t.isPunct .question || t.isPunct .colon) (lo + width item) rest) = none) ∨
        ∃ i cut, Cut.colon? opened' rest = some cut ∧ l.colonAmong opened'
          (marksIn (fun t => t.isPunct .question || t.isPunct .colon) (lo + width item) rest) = some i ∧
            CutAt l lo i hi (cut.cons item) := by
      intro opened'
      rcases ih h.tail opened' with h' | ⟨i, cut, h₁, h₂, h₃⟩
      · exact .inl h'
      · exact .inr ⟨i, cut, h₁, h₂, h₃.cons h⟩
    rw [marksIn, hmeets, colon?_cons]
    by_cases hquestion : item.isPunct .question = true
    · rw [hquestion, Bool.true_or, if_pos rfl, if_pos rfl, colonAmong_cons, hat, if_pos hquestion]
      rcases hrest (opened + 1) with ⟨h₁, h₂⟩ | ⟨i, cut, h₁, h₂, h₃⟩
      · exact .inl ⟨by rw [h₁]; rfl, h₂⟩
      · exact .inr ⟨i, _, by rw [h₁]; rfl, h₂, h₃⟩
    rw [if_neg hquestion, Bool.eq_false_iff.2 hquestion, Bool.false_or]
    by_cases hcolon : item.isPunct .colon = true
    · rw [if_pos hcolon, if_pos hcolon, colonAmong_cons, hat, if_neg hquestion]
      cases opened with
      | zero => exact .inr ⟨lo, _, rfl, rfl, h.cutAt_punct hcolon⟩
      | succ opened =>
        rcases hrest opened with ⟨h₁, h₂⟩ | ⟨i, cut, h₁, h₂, h₃⟩
        · exact .inl ⟨by simp only [h₁]; rfl, h₂⟩
        · exact .inr ⟨i, _, by simp only [h₁]; rfl, h₂, h₃⟩
    · rw [if_neg hcolon, if_neg hcolon]
      rcases hrest opened with ⟨h₁, h₂⟩ | ⟨i, cut, h₁, h₂, h₃⟩
      · exact .inl ⟨by rw [h₁]; rfl, h₂⟩
      · exact .inr ⟨i, _, by rw [h₁]; rfl, h₂, h₃⟩

/-! ## Clauses -/

/-- The clauses of a switch begin at given positions, and each one ends where the next one begins. -/
inductive ClausesAt (l : Layout) (hi : Nat) : List Nat → List (Token × List Item) → Prop
  | nil : ClausesAt l hi [] []
  | cons {marker : Nat} {markers : List Nat} {word : Token} {items : List Item}
      {clauses : List (Token × List Item)} (hword : l.tokens[marker]? = some word)
      (hkind : word.ident?.isSome = true)
      (hplain : word.kind.isBracket = false) (halone : l.partners[marker]? = some none)
      (hitems : Holds l (marker + 1) (markers.head?.getD hi) items)
      (hrest : ClausesAt l hi markers clauses) :
      ClausesAt l hi (marker :: markers) ((word, items) :: clauses)

/-- The item before a position, if the position is not the start of the search. -/
def Precedes (l : Layout) (start lo : Nat) : Option Item → Prop
  | none => lo = start
  | some item => start < lo ∧ ∀ p, (TokenKind.punct p).isBracket = false →
      l.punctAt (lo - 1) p = item.isPunct p

theorem Holds.precedes {item : Item} {rest : List Item}
    (h : Holds l lo hi (item :: rest)) (hstart : start ≤ lo) :
    Precedes l start (lo + width item) (some item) := by
  have hpos := width_pos item
  refine ⟨by omega, fun p hp => ?_⟩
  rw [punctAt_eq h.last_first, ← meets_isPunct]
  cases h with
  | leaf => rfl
  | group _ _ _ _ _ hck => exact plain_isPunct hp _ (by rw [Item.last, hck]; rfl)

theorem beginsClause_eq {previous : Option Item} (h : Precedes l start lo previous) :
    beginsClause l start lo =
      !previous.any fun p => p.isPunct .dot || p.isPunct .optionalDot := by
  rw [beginsClause]
  cases previous with
  | none => rw [show lo = start from h]; simp
  | some item =>
    obtain ⟨hlt, hpunct⟩ := h
    rw [hpunct .dot rfl, hpunct .optionalDot rfl, decide_eq_false (by omega), Bool.false_or]
    rfl

/-- The clauses that the items are split into begin at the positions that are found. -/
theorem splitClauses_eq {previous : Option Item} (h : Holds l lo hi items)
    (hprevious : Precedes l start lo previous) (hstart : start ≤ lo) :
    Holds l lo (((marksIn (fun t => t.isWord "case" || t.isWord "default") lo items).filter
        (beginsClause l start)).head?.getD hi) (splitClauses previous items).1 ∧
      ClausesAt l hi ((marksIn (fun t => t.isWord "case" || t.isWord "default") lo items).filter
        (beginsClause l start)) (splitClauses previous items).2 := by
  induction items generalizing lo previous with
  | nil => exact ⟨h, .nil⟩
  | cons item rest ih =>
    have hpos := width_pos item
    obtain ⟨hlead, hclauses⟩ := ih h.tail (h.precedes hstart) (by omega)
    have hmeets : meets (fun t => t.isWord "case" || t.isWord "default") item =
        (item.isWord "case" || item.isWord "default") := by
      cases item <;> rfl
    have hbegins := beginsClause_eq hprevious
    rw [splitClauses, marksIn, hmeets]
    dsimp only
    rw [isClauseWord, ← hbegins]
    by_cases hword : (item.isWord "case" || item.isWord "default") = true
    · rw [hword, if_pos rfl, Bool.true_and, List.filter_cons]
      by_cases hb : beginsClause l start lo = true
      · rw [if_pos hb, if_pos hb]
        obtain ⟨hcut, -⟩ := h.cutAt (hmeets.trans hword)
        have hwidth : width item = 1 := by
          cases item with
          | leaf t => exact width_leaf t
          | group => cases hword
        have hident : item.last.ident?.isSome = true := by
          cases item with
          | leaf t =>
            rw [Bool.or_eq_true] at hword
            rcases hword with hword | hword <;>
              exact Option.isSome_iff_exists.2 ⟨_, eq_of_beq hword⟩
          | group => cases hword
        rw [hwidth] at hlead hclauses ⊢
        exact ⟨.nil h.lo_le_size, .cons hcut.token hident hcut.plain hcut.alone hlead hclauses⟩
      · rw [if_neg hb, if_neg hb]
        exact ⟨h.parts.1.append hlead, hclauses⟩
    · rw [if_neg hword, Bool.eq_false_iff.2 hword, Bool.false_and, if_neg Bool.false_ne_true]
      exact ⟨h.parts.1.append hlead, hclauses⟩

end Searches

end PlayerScript.Ast.Ranges
