/-
What matched brackets are. The brackets of a token list match just if they form a Dyck word over the
three kinds of brackets; then the table of partners pairs every bracket with another one, each opening
bracket with a later closing bracket of its kind, and no two pairs cross.
-/
import PlayerScript.Proofs.Ast.Ranges.Closedness

namespace PlayerScript.Ast.Ranges

/-- The brackets among tokens, in their order. -/
def brackets (tokens : List Token) : List TokenKind :=
  (tokens.map Token.kind).filter TokenKind.isBracket

/-- A Dyck word over the kinds of brackets. -/
inductive Dyck : List TokenKind → Prop
  | nil : Dyck []
  | pair (b : Bracket) {inner rest : List TokenKind} (hinner : Dyck inner) (hrest : Dyck rest) :
      Dyck (.punct (.opening b) :: (inner ++ .punct (.closing b) :: rest))

/-- A table that pairs the brackets of a token list. -/
structure Matching (tokens : List Token) (partners : Array (Option Nat)) : Prop where
  size : partners.size = tokens.length
  alone : ∀ {i : Nat} {t : Token}, tokens[i]? = some t → (partners[i]? = some none ↔ t.kind.isBracket = false)
  ne : ∀ {i j : Nat}, partners[i]? = some (some j) → j ≠ i
  symm : ∀ {i j : Nat}, partners[i]? = some (some j) → partners[j]? = some (some i)
  /-- The earlier one of two partners opens and the later one closes a bracket of one kind. -/
  kinds : ∀ {i j : Nat}, partners[i]? = some (some j) → i < j → ∃ b o c, tokens[i]? = some o ∧
    o.kind = .punct (.opening b) ∧ tokens[j]? = some c ∧ c.kind = .punct (.closing b)
  uncrossed : ∀ {i j k k' : Nat}, partners[i]? = some (some j) → i < k → k < j →
    partners[k]? = some (some k') → i < k' ∧ k' < j
  /-- The tokens strictly between two partners are well bracketed. -/
  between : ∀ {i j : Nat}, partners[i]? = some (some j) → i < j →
    Dyck (brackets ((tokens.drop (i + 1)).take (j - (i + 1))))

/-! ## Dyck words are grouped -/

theorem kindsOf_leaves (ks : List TokenKind) : Shape.kindsOf (ks.map Shape.leaf) = ks := by
  induction ks with
  | nil => rfl
  | cons k ks ih => rw [List.map_cons, Shape.kindsOf, Shape.kinds, ih, List.singleton_append]

theorem allOf_leaves {ks : List TokenKind} (h : ∀ k ∈ ks, ¬ k.isBracket = true) :
    Shape.allOf (fun _ => true) (ks.map Shape.leaf) = true := by
  induction ks with
  | nil => rfl
  | cons k ks ih =>
    rw [List.forall_mem_cons, Bool.not_eq_true] at h
    rw [List.map_cons, Shape.allOf, Shape.all, h.1, ih h.2]
    rfl

/-- Token kinds whose brackets form a Dyck word are those of some shapes. The tokens that are no
brackets become leaves where they stand. -/
theorem shapes_of_dyck {word : List TokenKind} (h : Dyck word) :
    ∀ {ks : List TokenKind}, ks.filter TokenKind.isBracket = word →
      ∃ ss, Shape.allOf (fun _ => true) ss = true ∧ ks = Shape.kindsOf ss := by
  induction h with
  | nil =>
    intro ks hks
    exact ⟨_, allOf_leaves (List.filter_eq_nil_iff.1 hks), (kindsOf_leaves ks).symm⟩
  | @pair b inner rest _ _ ihinner ihrest =>
    intro ks hks
    obtain ⟨front, more, rfl, hfront, -, hks⟩ := List.filter_eq_cons_iff.1 hks
    obtain ⟨inside, more, rfl, hinside, hks⟩ := List.filter_eq_append_iff.1 hks
    obtain ⟨last, back, rfl, hlast, -, hback⟩ := List.filter_eq_cons_iff.1 hks
    have hinner : (inside ++ last).filter TokenKind.isBracket = inner := by
      rw [List.filter_append, hinside, List.filter_eq_nil_iff.2 hlast, List.append_nil]
    obtain ⟨ss, hss, heq⟩ := ihinner hinner
    obtain ⟨ss', hss', rfl⟩ := ihrest hback
    refine ⟨front.map Shape.leaf ++ .group b ss :: ss', ?_, ?_⟩
    · rw [Shape.allOf_append, allOf_leaves hfront, Shape.allOf, Shape.all, hss, hss']
      rfl
    · rw [Item.kindsOf_append, kindsOf_leaves, Shape.kindsOf, Shape.kinds, ← heq]
      simp

/-! ## Groups at their positions -/

variable {l : Layout} {lo hi : Nat} {items : List Item}

/-- A group stands from one position to another. -/
structure GroupAt (l : Layout) (i j : Nat) : Prop where
  kinds : ∃ b o c, l.tokens[i]? = some o ∧ o.kind = .punct (.opening b) ∧ l.tokens[j]? = some c ∧
    c.kind = .punct (.closing b)
  inside : ∃ inner, Holds l (i + 1) j inner
  forth : l.partners[i]? = some (some j)
  back : l.partners[j]? = some (some i)

theorem GroupAt.lt {i j : Nat} (h : GroupAt l i j) : i < j := by
  obtain ⟨inner, hinner⟩ := h.inside
  exact hinner.le

/-- Every position holds a token that is no bracket, or an end of a group. -/
theorem Holds.position (h : Holds l lo hi items) : ∀ {i : Nat}, lo ≤ i → i < hi →
    (∃ t, l.tokens[i]? = some t ∧ t.kind.isBracket = false ∧ l.partners[i]? = some none) ∨
      ∃ j, GroupAt l i j ∨ GroupAt l j i := by
  induction h with
  | nil => intro i h₁ h₂; omega
  | leaf ht hk hp _ ih =>
    intro i h₁ h₂
    rcases Nat.eq_or_lt_of_le h₁ with rfl | hlt
    · exact .inl ⟨_, ht, hk, hp⟩
    · exact ih hlt h₂
  | @group lo close hi b o c inner rest ho hok hop hinner hc hck hcp _ ih₁ ih₂ =>
    intro i h₁ h₂
    have hgroup : GroupAt l lo close := ⟨⟨b, o, c, ho, hok, hc, hck⟩, ⟨inner, hinner⟩, hop, hcp⟩
    rcases Nat.eq_or_lt_of_le h₁ with rfl | hlt
    · exact .inr ⟨close, .inl hgroup⟩
    rcases Nat.lt_trichotomy i close with hi' | rfl | hi'
    · exact ih₁ hlt hi'
    · exact .inr ⟨lo, .inr hgroup⟩
    · exact ih₂ hi' h₂

/-- The brackets in a range. -/
abbrev bracketsIn (l : Layout) (lo hi : Nat) : List TokenKind :=
  brackets ((l.tokens.toList.drop lo).take (hi - lo))

theorem bracketsIn_cons {t : Token} (ht : l.tokens[lo]? = some t) (hlt : lo < hi) :
    bracketsIn l lo hi = [t.kind].filter TokenKind.isBracket ++ bracketsIn l (lo + 1) hi := by
  rw [← Array.getElem?_toList] at ht
  obtain ⟨hlen, rfl⟩ := List.getElem?_eq_some_iff.1 ht
  have hsub : hi - lo = hi - (lo + 1) + 1 := by omega
  rw [bracketsIn, ← List.getElem_cons_drop hlen, hsub, List.take_succ_cons, brackets, List.map_cons,
    ← List.singleton_append, List.filter_append]
  rfl

theorem bracketsIn_append {mid : Nat} (hlo : lo ≤ mid) (hhi : mid ≤ hi) :
    bracketsIn l lo hi = bracketsIn l lo mid ++ bracketsIn l mid hi := by
  have hsum : hi - lo = mid - lo + (hi - mid) := by omega
  rw [bracketsIn, hsum, List.take_add, List.drop_drop, Nat.add_sub_cancel' hlo, brackets, List.map_append,
    List.filter_append]
  rfl

/-- A range that holds items is well bracketed. -/
theorem Holds.dyck (h : Holds l lo hi items) : Dyck (bracketsIn l lo hi) := by
  induction h with
  | @nil lo _ =>
    rw [bracketsIn, Nat.sub_self, List.take_zero]
    exact .nil
  | leaf ht hk _ hrest ih =>
    rw [bracketsIn_cons ht hrest.le, List.filter_singleton, hk]
    exact ih
  | @group lo close hi b o c inner rest ho hok _ hinner hc hck _ hrest ih₁ ih₂ =>
    have hclose := hinner.le
    have hhi := hrest.le
    rw [bracketsIn_cons ho (by omega), bracketsIn_append hclose (by omega), bracketsIn_cons hc hhi, hok, hck]
    exact .pair b ih₁ ih₂

/-! ## The table of partners -/

section Table

variable {source : List Char} {tokens : List Token} {partners : Array (Option Nat)}
  (h : Holds ⟨source, tokens.toArray, partners⟩ 0 tokens.length items)
  (hsize : partners.size = tokens.length)
include h hsize

/-- What has a partner is an end of a group, and its partner is the other end. -/
theorem Holds.groupAt {i j : Nat} (hij : partners[i]? = some (some j)) :
    GroupAt ⟨source, tokens.toArray, partners⟩ i j ∨ GroupAt ⟨source, tokens.toArray, partners⟩ j i := by
  have hlt : i < tokens.length := hsize ▸ (Array.getElem?_eq_some_iff.1 hij).1
  rcases h.position (Nat.zero_le i) hlt with ⟨t, -, -, hnone⟩ | ⟨k, hk | hk⟩
  · rw [hij] at hnone
    cases hnone
  · obtain rfl : j = k := Option.some.inj (Option.some.inj (hij.symm.trans hk.forth))
    exact .inl hk
  · obtain rfl : j = k := Option.some.inj (Option.some.inj (hij.symm.trans hk.back))
    exact .inr hk

/-- Of two partners, the earlier one is where the group begins. -/
theorem Holds.groupAt_of_lt {i j : Nat} (hij : partners[i]? = some (some j)) (hlt : i < j) :
    GroupAt ⟨source, tokens.toArray, partners⟩ i j :=
  (h.groupAt hsize hij).resolve_right fun hg => absurd hg.lt (Nat.lt_asymm hlt)

omit hsize in
/-- A token has no partner just if it is no bracket. -/
theorem Holds.alone_iff {i : Nat} {t : Token} (ht : tokens[i]? = some t) :
    partners[i]? = some none ↔ t.kind.isBracket = false := by
  have hlt : i < tokens.length := (List.getElem?_eq_some_iff.1 ht).1
  rw [← List.getElem?_toArray] at ht
  have hbracket : ∀ {p : Nat} {u : Token}, partners[i]? = some (some p) → tokens.toArray[i]? = some u →
      u.kind.isBracket = true → (partners[i]? = some none ↔ t.kind.isBracket = false) := by
    intro p u hp hu hkind
    obtain rfl : t = u := Option.some.inj (ht.symm.trans hu)
    rw [hp, hkind]
    simp
  rcases h.position (Nat.zero_le i) hlt with ⟨u, hu, hkind, hnone⟩ | ⟨j, hg | hg⟩
  · obtain rfl : t = u := Option.some.inj (ht.symm.trans hu)
    exact ⟨fun _ => hkind, fun _ => hnone⟩
  · obtain ⟨b, o, c, ho, hok, -⟩ := hg.kinds
    exact hbracket hg.forth ho (by rw [hok]; rfl)
  · obtain ⟨b, o, c, -, -, hc, hck⟩ := hg.kinds
    exact hbracket hg.back hc (by rw [hck]; rfl)

/-- The table of partners pairs the brackets of tokens that can be grouped. -/
theorem Holds.matching : Matching tokens partners where
  size := hsize
  alone := h.alone_iff
  ne := by
    rintro i _ hij rfl
    rcases h.groupAt hsize hij with hg | hg
    · exact Nat.lt_irrefl _ hg.lt
    · exact Nat.lt_irrefl _ hg.lt
  symm := by
    intro i j hij
    rcases h.groupAt hsize hij with hg | hg
    · exact hg.back
    · exact hg.forth
  kinds := by
    intro i j hij hlt
    obtain ⟨b, o, c, ho, hok, hc, hck⟩ := (h.groupAt_of_lt hsize hij hlt).kinds
    rw [List.getElem?_toArray] at ho hc
    exact ⟨b, o, c, ho, hok, hc, hck⟩
  uncrossed := by
    intro i j k k' hij hik hkj hk
    obtain ⟨inner, hinner⟩ := (h.groupAt_of_lt hsize hij (Nat.lt_trans hik hkj)).inside
    exact hinner.closed.partners k hik hkj k' hk
  between := by
    intro i j hij hlt
    obtain ⟨inner, hinner⟩ := (h.groupAt_of_lt hsize hij hlt).inside
    exact hinner.dyck

end Table

/-! ## Matching brackets -/

/-- Brackets are matched just if they form a Dyck word. Finding partners ends as grouping does, with the
same error if there is one; the table it gives pairs the brackets, and has every group at its place. -/
theorem brackets_matched (source : List Char) (tokens : List Token) :
    ((∃ items, Item.group? source tokens = .ok items) ↔ Dyck (brackets tokens)) ∧
      (partners? source tokens).map (fun _ => ()) = (Item.group? source tokens).map (fun _ => ()) ∧
      ∀ partners, partners? source tokens = .ok partners → Matching tokens partners ∧
        ∃ items, Item.group? source tokens = .ok items ∧
          Holds ⟨source, tokens.toArray, partners⟩ 0 tokens.length items := by
  have hends : (partners? source tokens).map (fun _ => ()) =
      (Item.group? source tokens).map fun _ => () := partnersFrom_ends .nil
  refine ⟨⟨?_, fun hdyck => ?_⟩, hends, fun partners hpartners => ?_⟩
  · rintro ⟨items, hitems⟩
    obtain ⟨partners, -, hholds⟩ := layout_holds hitems
    have hdyck := hholds.dyck
    rw [bracketsIn, Nat.sub_zero, List.drop_zero, List.take_length] at hdyck
    exact hdyck
  · obtain ⟨ss, hss, hkinds⟩ := shapes_of_dyck hdyck rfl
    obtain ⟨items, hitems, -⟩ := Item.group_of_kinds source hss hkinds
    exact ⟨items, hitems⟩
  · obtain ⟨items, hitems⟩ := ok_of_ends hends hpartners
    obtain ⟨partners', hpartners', hholds⟩ := layout_holds hitems
    obtain rfl : partners = partners' := Except.ok.inj (hpartners.symm.trans hpartners')
    have hsize : partners.size = tokens.length := by
      rw [(partnersFrom_keeps hpartners).1, Array.size_replicate]
    exact ⟨hholds.matching hsize, items, hitems, hholds⟩

/-- A list and an empty pair of parentheses, side by side within braces. -/
def nestedTokens : List Token :=
  [⟨.punct (.opening .curly), 0, 1⟩, ⟨.ident "a", 1, 2⟩, ⟨.punct (.opening .square), 2, 3⟩,
    ⟨.ident "b", 3, 4⟩, ⟨.punct (.closing .square), 4, 5⟩, ⟨.punct (.opening .round), 5, 6⟩,
    ⟨.punct (.closing .round), 6, 7⟩, ⟨.punct (.closing .curly), 7, 8⟩]

/-- The table for groups within and beside each other. -/
theorem brackets_matched_nested :
    Matching nestedTokens #[some 7, none, some 4, none, some 2, some 6, some 5, some 0] :=
  ((brackets_matched "\x7ba[b]()\x7d".toList nestedTokens).2.2 _ rfl).1

end PlayerScript.Ast.Ranges
