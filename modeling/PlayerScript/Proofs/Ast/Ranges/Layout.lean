/-
How items lie in a layout. A range holds a list of items when their tokens stand there one after
another and every bracket of theirs has its partner in the place that the item says. Such a range is
closed under partners, and it can be quoted.
-/
import PlayerScript.Proofs.Ast.Ranges.Parser
import PlayerScript.Proofs.Ast.Parser.Basic

namespace PlayerScript.Ast.Ranges

open Reading

variable {t : Token}

/-- The tokens of items stand in a range, and the partners of brackets are where the items say. -/
inductive Holds (l : Layout) : Nat → Nat → List Item → Prop
  | nil {lo : Nat} (h : lo ≤ l.tokens.size) : Holds l lo lo []
  | leaf {lo hi : Nat} {t : Token} {rest : List Item} (ht : l.tokens[lo]? = some t)
      (hk : t.kind.isBracket = false) (hp : l.partners[lo]? = some none)
      (hrest : Holds l (lo + 1) hi rest) : Holds l lo hi (.leaf t :: rest)
  | group {lo close hi : Nat} {b : Bracket} {o c : Token} {inner rest : List Item}
      (ho : l.tokens[lo]? = some o) (hok : o.kind = .punct (.opening b))
      (hop : l.partners[lo]? = some (some close)) (hinner : Holds l (lo + 1) close inner)
      (hc : l.tokens[close]? = some c) (hck : c.kind = .punct (.closing b))
      (hcp : l.partners[close]? = some (some lo)) (hrest : Holds l (close + 1) hi rest) :
      Holds l lo hi (.group b o c inner :: rest)

/-- A range in which every bracket has its partner, and which does not reach beyond the tokens. -/
structure Closed (l : Layout) (lo hi : Nat) : Prop where
  ordered : lo ≤ hi
  inBounds : hi ≤ l.tokens.size
  partners : ∀ i, lo ≤ i → i < hi → ∀ j, l.partners[i]? = some (some j) → lo ≤ j ∧ j < hi

/-- The source can be cut from the start of any token to the end of any later one. -/
def WellPlaced (l : Layout) : Prop :=
  ∀ {i j : Nat} {a b : Token}, i ≤ j → l.tokens[i]? = some a → l.tokens[j]? = some b →
    slice? l.source a.start b.stop = some (Text.slice l.source a.start b.stop)

namespace Holds

variable {l : Layout} {lo hi : Nat} {items : List Item}

theorem le (h : Holds l lo hi items) : lo ≤ hi := by
  induction h with
  | nil => exact Nat.le_refl _
  | leaf _ _ _ _ ih => omega
  | group _ _ _ _ _ _ _ _ ih₁ ih₂ => omega

theorem le_size (h : Holds l lo hi items) : hi ≤ l.tokens.size := by
  induction h with
  | nil h => exact h
  | leaf _ _ _ _ ih => exact ih
  | group _ _ _ _ _ _ _ _ _ ih => exact ih

theorem lt (h : Holds l lo hi items) (hne : items ≠ []) : lo < hi := by
  cases h with
  | nil => exact absurd rfl hne
  | leaf _ _ _ hrest => exact hrest.le
  | group _ _ _ hinner _ _ _ hrest =>
    have := hinner.le
    have := hrest.le
    omega

theorem eq_iff (h : Holds l lo hi items) : lo = hi ↔ items = [] := by
  constructor
  · intro heq
    by_contra hne
    have := h.lt hne
    omega
  · rintro rfl
    cases h
    rfl

theorem append {mid : Nat} {more : List Item} (h : Holds l lo mid items)
    (h' : Holds l mid hi more) : Holds l lo hi (items ++ more) := by
  induction h with
  | nil => exact h'
  | leaf ht hk hp _ ih => exact .leaf ht hk hp (ih h')
  | group ho hok hop hinner hc hck hcp _ _ ih => exact .group ho hok hop hinner hc hck hcp (ih h')

theorem of_append {more : List Item} (h : Holds l lo hi (items ++ more)) :
    ∃ mid, Holds l lo mid items ∧ Holds l mid hi more := by
  induction items generalizing lo with
  | nil => exact ⟨lo, .nil (h.le.trans h.le_size), h⟩
  | cons item items ih =>
    cases h with
    | leaf ht hk hp hrest =>
      obtain ⟨mid, h₁, h₂⟩ := ih hrest
      exact ⟨mid, .leaf ht hk hp h₁, h₂⟩
    | group ho hok hop hinner hc hck hcp hrest =>
      obtain ⟨mid, h₁, h₂⟩ := ih hrest
      exact ⟨mid, .group ho hok hop hinner hc hck hcp h₁, h₂⟩

/-- The first token of a range. -/
theorem first {item : Item} {rest : List Item} (h : Holds l lo hi (item :: rest)) :
    l.tokens[lo]? = some item.first := by
  cases h with
  | leaf ht => exact ht
  | group ho => exact ho

/-- The last token of a range. -/
theorem last {item : Item} (h : Holds l lo hi items) (hlast : items.getLast? = some item) :
    l.tokens[hi - 1]? = some item.last := by
  induction h with
  | nil => cases hlast
  | @leaf lo hi t rest ht _ _ hrest ih =>
    cases rest with
    | nil =>
      rw [List.getLast?_singleton, Option.some.injEq] at hlast
      cases hrest
      rw [← hlast]
      exact ht
    | cons next rest => exact ih (by rwa [List.getLast?_cons_cons] at hlast)
  | @group lo close hi b o c inner rest _ _ _ _ hc _ _ hrest _ ih =>
    cases rest with
    | nil =>
      rw [List.getLast?_singleton, Option.some.injEq] at hlast
      cases hrest
      rw [← hlast]
      exact hc
    | cons next rest => exact ih (by rwa [List.getLast?_cons_cons] at hlast)

/-- Every bracket of a range has its partner in the range. -/
theorem closed (h : Holds l lo hi items) : Closed l lo hi := by
  refine ⟨h.le, h.le_size, ?_⟩
  induction h with
  | nil => intro i h₁ h₂; omega
  | @leaf lo hi t rest _ _ hp hrest ih =>
    intro i h₁ h₂ j hj
    rcases Nat.eq_or_lt_of_le h₁ with rfl | hlt
    · rw [hp] at hj
      cases hj
    · obtain ⟨h₃, h₄⟩ := ih i hlt h₂ j hj
      exact ⟨by omega, h₄⟩
  | @group lo close hi b o c inner rest _ _ hop hinner _ _ hcp hrest ih₁ ih₂ =>
    intro i h₁ h₂ j hj
    have hle := hinner.le
    have hle' := hrest.le
    -- the opening bracket, the inside, the closing bracket, or what follows
    rcases Nat.eq_or_lt_of_le h₁ with rfl | hlt
    · rw [hop, Option.some.injEq, Option.some.injEq] at hj
      omega
    rcases Nat.lt_trichotomy i close with hi' | rfl | hi'
    · obtain ⟨h₃, h₄⟩ := ih₁ i hlt hi' j hj
      omega
    · rw [hcp, Option.some.injEq, Option.some.injEq] at hj
      omega
    · obtain ⟨h₃, h₄⟩ := ih₂ i hi' h₂ j hj
      omega

end Holds

/-! ## Access -/

section Access

variable {l : Layout} {lo hi : Nat} {items : List Item}

theorem done_bind {α β : Type} (a : α) (f : α → Reading β) : (done a >>= f) = f a := rfl

theorem tokenAt_eq {i : Nat} (h : l.tokens[i]? = some t) : l.tokenAt i = done t := by
  rw [Layout.tokenAt, h]
  rfl

theorem partnerAt_eq {i : Nat} {p : Option Nat} (h : l.partners[i]? = some p) :
    l.partnerAt i = done p := by
  rw [Layout.partnerAt, h]
  rfl

theorem punctAt_eq {i : Nat} (h : l.tokens[i]? = some t) (p : Punct) :
    l.punctAt i p = t.isPunct p := by
  rw [Layout.punctAt, h]
  rfl

theorem wordAt_eq {i : Nat} (h : l.tokens[i]? = some t) (word : String) :
    l.wordAt i word = t.isWord word := by
  rw [Layout.wordAt, h]
  rfl

theorem identAt_eq {i : Nat} (h : l.tokens[i]? = some t) : l.identAt? i = t.ident? := by
  rw [Layout.identAt?, h]
  rfl

theorem slice_none (source : List Char) : Span.none.text source = "" := by
  have htake : ∀ cs : List Char, Text.takeBytes cs 0 = [] := by
    intro cs
    cases cs <;> rfl
  show String.ofList (Text.takeBytes _ 0) = ""
  rw [htake]

/-- The text of a range goes from the start of its first token to the end of its last one. -/
theorem text_of_tokens (hw : WellPlaced l) {i j : Nat} {a b : Token} (hij : i ≤ j)
    (ha : l.tokens[i]? = some a) (hb : l.tokens[j]? = some b) :
    l.text i (j + 1) = done (Span.text l.source ⟨a.start, b.stop⟩) := by
  have hsize : j < l.tokens.size := by
    by_contra hge
    rw [Array.getElem?_eq_none (by omega)] at hb
    cases hb
  rw [Layout.text, if_neg (by omega), tokenAt_eq ha, done_bind, Nat.add_sub_cancel, tokenAt_eq hb,
    done_bind, hw hij ha hb]
  rfl

/-- The text of a range that holds items is the text that the items cover. -/
theorem text_eq (hw : WellPlaced l) (h : Holds l lo hi items) :
    l.text lo hi = done ((Item.spanOf items).text l.source) := by
  cases items with
  | nil =>
    have heq := h.eq_iff.2 rfl
    rw [Layout.text, if_pos (.inl (by omega))]
    exact congrArg done (slice_none l.source).symm
  | cons item rest =>
    have hlt := h.lt (List.cons_ne_nil _ _)
    obtain ⟨last, hlast⟩ : ∃ last, (item :: rest).getLast? = some last :=
      ⟨_, List.getLast?_eq_some_getLast (List.cons_ne_nil item rest)⟩
    have htext := text_of_tokens hw (show lo ≤ hi - 1 by omega) h.first (h.last hlast)
    rw [Nat.sub_add_cancel (by omega)] at htext
    rw [htext, Item.spanOf, List.head?_cons, hlast]

theorem kind_of_isPunct {p : Punct} (h : t.isPunct p = true) : t.kind = .punct p := by
  rw [Token.isPunct, Token.punct?] at h
  cases hk : t.kind <;> simp_all

/-- No bracket is opened at a position. -/
def NoOpening (l : Layout) (i : Nat) : Prop := ∀ b, l.punctAt i (.opening b) = false

theorem noOpening_of_token {i : Nat} (h : l.tokens[i]? = some t)
    (ht : ∀ b, t.kind ≠ .punct (.opening b)) : NoOpening l i := by
  intro b
  rw [punctAt_eq h, Token.isPunct, Token.punct?]
  have := ht b
  cases hk : t.kind <;> simp_all

theorem noOpening_of_plain {i : Nat} (h : l.tokens[i]? = some t)
    (ht : t.kind.isBracket = false) : NoOpening l i :=
  noOpening_of_token h fun b hb => by rw [hb] at ht; cases ht

theorem noOpening_of_closing {i : Nat} {b : Bracket} (h : l.tokens[i]? = some t)
    (ht : t.kind = .punct (.closing b)) : NoOpening l i :=
  noOpening_of_token h fun b' hb => by rw [hb] at ht; cases ht

/-- A range of positions that holds a range of items: the token before it is the right one, and it
does not end in front of a group. -/
structure Covers (l : Layout) (range : Nat × Nat) (r : Range) : Prop where
  holds : Holds l range.1 range.2 r.items
  before : r.before = if range.1 = 0 then none else l.tokens[range.1 - 1]?
  ends : NoOpening l range.2

/-- A position that cuts a range where a token cuts a list of items. -/
structure CutAt (l : Layout) (lo i hi : Nat) (cut : Cut) : Prop where
  left : Holds l lo i cut.left
  token : l.tokens[i]? = some cut.token
  plain : cut.token.kind.isBracket = false
  alone : l.partners[i]? = some none
  right : Holds l (i + 1) hi cut.right

theorem before_eq {i : Nat} (h : l.tokens[i]? = some t) :
    some t = if i + 1 = 0 then none else l.tokens[i + 1 - 1]? := by
  rw [if_neg (Nat.succ_ne_zero i), Nat.add_sub_cancel, h]

namespace CutAt

variable {i : Nat} {cut : Cut}

theorem noOpening (h : CutAt l lo i hi cut) : NoOpening l i := noOpening_of_plain h.token h.plain

theorem covers_right (h : CutAt l lo i hi cut) (hends : NoOpening l hi) :
    Covers l (i + 1, hi) ⟨some cut.token, cut.right⟩ :=
  ⟨h.right, before_eq h.token, hends⟩

theorem covers_left {before : Option Token} (h : CutAt l lo i hi cut)
    (hbefore : before = if lo = 0 then none else l.tokens[lo - 1]?) :
    Covers l (lo, i) ⟨before, cut.left⟩ :=
  ⟨h.left, hbefore, h.noOpening⟩

end CutAt

end Access

end PlayerScript.Ast.Ranges
