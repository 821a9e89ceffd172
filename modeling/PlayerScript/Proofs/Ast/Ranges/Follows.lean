/-
Reading by positions beside parsing items. A reading follows a parser if it ends in the same way: with
a related result, or with the error that the parser's diagnostic stands for. It then never leaves the
tokens and never gets stuck, and every range that it enters on the way is closed under partners.
-/
import PlayerScript.Proofs.Ast.Ranges.Searches

namespace PlayerScript.Ast.Ranges

open Reading

/-- The ranges that are entered are closed under partners, and a statement of a list takes at least
one token and stays within the list. -/
def Visit.Sound (l : Layout) : Visit → Prop
  | .statements lo hi | .statement lo hi | .expression lo hi => Closed l lo hi
  | .taken lo next hi => lo < next ∧ next ≤ hi ∧ Closed l lo hi

/-- Whether a fault is a bracket without a partner. -/
def isUnclosed : Fault → Bool
  | .unclosed _ => true
  | _ => false

/-- An objection to something else than a bracket without a partner. -/
def Matched (d : Diagnostic) : Prop := ∀ f, d.objection = .malformed f → isUnclosed f = false

variable {l : Layout} {α β α' β' : Type} {R : α → β → Prop} {S : α' → β' → Prop}

/-- An ending of a reading beside an ending of a parser. What was noted before is kept, and what is
noted on the way is sound. -/
inductive Agrees (l : Layout) (R : α → β → Prop) (before : List Visit) :
    Ending α × Notes → Except Diagnostic β × Nat → Prop
  | ok {a : α} {b : β} {minted : Nat} {visits : List Visit} (h : R a b)
      (hv : ∀ v ∈ visits, v.Sound l) :
      Agrees l R before (.done a, ⟨minted, before ++ visits⟩) (.ok b, minted)
  | error {d : Diagnostic} {minted : Nat} {visits : List Visit} (hd : Matched d)
      (hv : ∀ v ∈ visits, v.Sound l) :
      Agrees l R before (.failed (d.toError l.source), ⟨minted, before ++ visits⟩) (.error d, minted)

/-- A reading that ends as a parser does, whatever was minted and noted before. -/
def Follows (l : Layout) (R : α → β → Prop) (x : Reading α) (y : Parse β) : Prop :=
  ∀ n : Notes, Agrees l R n.visits (x n) (y n.minted)

/-! ## Putting readings together -/

theorem follows_done {a : α} {b : β} (h : R a b) : Follows l R (done a) (Parse.done b) := by
  rintro ⟨minted, visits⟩
  have hok : Agrees l R visits (.done a, ⟨minted, visits ++ []⟩) (.ok b, minted) :=
    .ok h (List.forall_mem_nil _)
  rwa [List.append_nil] at hok

theorem follows_bind {x : Reading α} {y : Parse β} {f : α → Reading α'} {g : β → Parse β'}
    (hx : Follows l R x y) (hf : ∀ a b, R a b → Follows l S (f a) (g b)) :
    Follows l S (x >>= f) (y >>= g) := by
  intro n
  show Agrees l S n.visits (andThen x f n) (Parse.andThen y g n.minted)
  unfold andThen Parse.andThen
  have h := hx n
  generalize x n = o at h
  generalize y n.minted = o' at h
  cases h with
  | @ok a b minted visits h hv =>
    have hnext := hf a b h ⟨minted, n.visits ++ visits⟩
    dsimp only at hnext ⊢
    generalize f a ⟨minted, n.visits ++ visits⟩ = p at hnext
    generalize g b minted = p' at hnext
    cases hnext with
    | ok h' hv' =>
      rw [List.append_assoc]
      exact .ok h' (List.forall_mem_append.2 ⟨hv, hv'⟩)
    | error hd hv' =>
      rw [List.append_assoc]
      exact .error hd (List.forall_mem_append.2 ⟨hv, hv'⟩)
  | error hd hv => exact .error hd hv

theorem andThen_assoc {γ : Type} (x : Reading α) (f : α → Reading β) (g : β → Reading γ) :
    (x >>= f) >>= g = x >>= fun a => f a >>= g := by
  funext n
  show andThen (andThen x f) g n = andThen x (fun a => andThen (f a) g) n
  unfold andThen
  generalize x n = o
  obtain ⟨a | e | _ | _, n'⟩ := o <;> rfl

theorem follows_map {x : Reading α} {y : Parse β} {f : α → α'} {g : β → β'}
    (hx : Follows l R x y) (hf : ∀ a b, R a b → S (f a) (g b)) :
    Follows l S (x >>= fun a => done (f a)) (y >>= fun b => Parse.done (g b)) :=
  follows_bind hx fun a b h => follows_done (hf a b h)

theorem follows_fail {d : Diagnostic} {e : Error} (h : e = d.toError l.source) (hd : Matched d) :
    Follows l R (fail e) (Parse.stop d) := by
  rintro ⟨minted, visits⟩
  have herror : Agrees l R visits (.failed (d.toError l.source), ⟨minted, visits ++ []⟩)
      (.error d, minted) := .error hd (List.forall_mem_nil _)
  rwa [List.append_nil, ← h] at herror

theorem follows_note {v : Visit} {x : Reading α} {y : Parse β} (hv : v.Sound l)
    (h : Follows l R x y) : Follows l R (note v >>= fun _ => x) y := by
  intro n
  have hx := h ⟨n.minted, n.visits ++ [v]⟩
  show Agrees l R n.visits (x ⟨n.minted, n.visits ++ [v]⟩) (y n.minted)
  dsimp only at hx
  generalize x ⟨n.minted, n.visits ++ [v]⟩ = o at hx
  generalize y n.minted = o' at hx
  cases hx with
  | ok h' hv' =>
    rw [List.append_assoc]
    exact .ok h' (List.forall_mem_cons.2 ⟨hv, hv'⟩)
  | error hd hv' =>
    rw [List.append_assoc]
    exact .error hd (List.forall_mem_cons.2 ⟨hv, hv'⟩)

/-- Both sides take the same branch. -/
theorem follows_ite {c c' : Prop} [Decidable c] [Decidable c'] (hc : c ↔ c') {x x' : Reading α}
    {y y' : Parse β} (h : c → Follows l R x y) (h' : ¬c → Follows l R x' y') :
    Follows l R (if c then x else x') (if c' then y else y') := by
  by_cases hcase : c
  · rw [if_pos hcase, if_pos (hc.1 hcase)]
    exact h hcase
  · rw [if_neg hcase, if_neg (mt hc.2 hcase)]
    exact h' hcase

theorem follows_mint : Follows l Eq mint Parse.mint := by
  rintro ⟨minted, visits⟩
  have hok : Agrees l Eq visits (.done (syntheticName (minted + 1)), ⟨minted + 1, visits ++ []⟩)
      (.ok (syntheticName (minted + 1)), minted + 1) := .ok rfl (List.forall_mem_nil _)
  rwa [List.append_nil] at hok

theorem follows_each {ι κ : Type} {C : ι → κ → Prop} {f : ι → Reading α} {g : κ → Parse α}
    (hf : ∀ i k, C i k → Follows l Eq (f i) (g k)) {is : List ι} {ks : List κ}
    (h : List.Forall₂ C is ks) : Follows l Eq (each f is) (Parse.each g ks) := by
  induction h with
  | nil => exact follows_done rfl
  | cons hik _ ih =>
    refine follows_bind (hf _ _ hik) ?_
    rintro a _ rfl
    exact follows_map ih fun as bs h => by rw [h]

/-! ## Objections -/

section Objections

variable {lo hi : Nat} {items : List Item}

theorem matched_fault {f : Fault} (hf : isUnclosed f = false) (span : Span) :
    Matched ⟨.malformed f, span⟩ := by
  intro f' heq
  cases heq
  exact hf

theorem matched_unsupported (span : Span) : Matched ⟨.unsupported, span⟩ := by
  intro f heq
  cases heq

theorem follows_refuse (hw : WellPlaced l) (h : Holds l lo hi items) {f : Fault}
    (hf : isUnclosed f = false) :
    Follows l R (l.refuse f lo hi) (Parse.fault f (Item.spanOf items)) := by
  rw [Layout.refuse, text_eq hw h]
  exact follows_fail rfl (matched_fault hf _)

theorem follows_unsupported_tokens (hw : WellPlaced l) {i j : Nat} {a b : Token} (hij : i ≤ j)
    (ha : l.tokens[i]? = some a) (hb : l.tokens[j]? = some b) :
    Follows l R (l.unsupported i (j + 1)) (Parse.unsupported ⟨a.start, b.stop⟩) := by
  rw [Layout.unsupported, text_of_tokens hw hij ha hb]
  exact follows_fail rfl (matched_unsupported _)

theorem follows_unsupported (hw : WellPlaced l) (h : Holds l lo hi items) :
    Follows l R (l.unsupported lo hi) (Parse.unsupported (Item.spanOf items)) := by
  rw [Layout.unsupported, text_eq hw h]
  exact follows_fail rfl (matched_unsupported _)

theorem follows_refuse_bind (hw : WellPlaced l) (h : Holds l lo hi items) {f : Fault}
    (hf : isUnclosed f = false) {next : α' → Reading α} :
    Follows l R (l.refuse f lo hi >>= next) (Parse.fault f (Item.spanOf items)) := by
  rw [Layout.refuse, text_eq hw h]
  exact follows_fail rfl (matched_fault hf _)

theorem follows_unsupported_bind (hw : WellPlaced l) (h : Holds l lo hi items)
    {next : α' → Reading α} :
    Follows l R (l.unsupported lo hi >>= next) (Parse.unsupported (Item.spanOf items)) := by
  rw [Layout.unsupported, text_eq hw h]
  exact follows_fail rfl (matched_unsupported _)

/-- An empty range is refused by quoting the token before it. -/
theorem follows_missing (hw : WellPlaced l) {r : Range} (h : Covers l (lo, hi) r)
    (hempty : r.items = []) (what : String) :
    Follows l R (l.refuse (.expected what) (lo - 1) hi) (r.missing what) := by
  have heq : lo = hi := h.holds.eq_iff.2 hempty
  have htext : l.text (lo - 1) hi =
      done (((r.before.map Token.span).getD Span.none).text l.source) := by
    subst heq
    rw [h.before]
    by_cases hzero : lo = 0
    · rw [if_pos hzero, Layout.text, if_pos (.inl (by omega))]
      exact congrArg done (slice_none l.source).symm
    · have hsize := h.holds.le_size
      dsimp only at hsize ⊢
      have htoken : l.tokens[lo - 1]? = some l.tokens[lo - 1] :=
        Array.getElem?_eq_getElem (by omega)
      rw [if_neg hzero, Layout.text, if_neg (by omega), tokenAt_eq htoken, done_bind, done_bind,
        hw (Nat.le_refl _) htoken htoken, htoken]
      rfl
  rw [Layout.refuse, htext]
  exact follows_fail rfl (matched_fault rfl _)

end Objections

/-! ## Brackets -/

/-- A group that was required, in its place. -/
structure OpenAt (l : Layout) (i hi close : Nat) (o : Opened) : Prop where
  opening : l.tokens[i]? = some o.opening
  partner : l.partners[i]? = some (some close)
  inside : Holds l (i + 1) close o.items
  closing : l.tokens[close]? = some o.closing
  ends : NoOpening l close
  unnamed : l.identAt? close = none
  rest : Holds l (close + 1) hi o.rest

section Brackets

variable {i hi close : Nat} {o : Opened}

/-- The inside of a group is a range of its own. -/
theorem OpenAt.covers (h : OpenAt l i hi close o) : Covers l (i + 1, close) o.range :=
  ⟨h.inside, before_eq h.opening, h.ends⟩

/-- What follows a group is a range of its own. -/
theorem OpenAt.covers_rest (h : OpenAt l i hi close o) (hends : NoOpening l hi) :
    Covers l (close + 1, hi) ⟨some o.closing, o.rest⟩ :=
  ⟨h.rest, before_eq h.closing, hends⟩

theorem OpenAt.lt (h : OpenAt l i hi close o) : i < close := h.inside.le

theorem OpenAt.lt_size (h : OpenAt l i hi close o) : close < l.tokens.size := by
  by_contra hge
  have hnone : l.tokens[close]? = none := Array.getElem?_eq_none (by omega)
  rw [h.closing] at hnone
  cases hnone

theorem Holds.group_kinds {b : Bracket} {op cl : Token} {inner rest : List Item}
    (h : Holds l i hi (.group b op cl inner :: rest)) :
    op.kind = .punct (.opening b) ∧ cl.kind = .punct (.closing b) := by
  cases h with
  | group _ hok _ _ _ hck => exact ⟨hok, hck⟩

theorem Holds.openAt {b : Bracket} {op cl : Token} {inner rest : List Item}
    (h : Holds l i hi (.group b op cl inner :: rest)) :
    ∃ close, l.closeOf i hi = done close ∧ OpenAt l i hi close ⟨op, cl, inner, rest⟩ := by
  cases h with
  | @group _ close _ _ _ _ _ _ ho hok hop hinner hc hck hcp hrest =>
    have hle := hrest.le
    have hunnamed : l.identAt? close = none := by rw [identAt_eq hc, Token.ident?, hck]
    refine ⟨close, ?_, ho, hop, hinner, hc, noOpening_of_closing hc hck, hunnamed, hrest⟩
    rw [Layout.closeOf, partnerAt_eq hop, done_bind]
    simp only
    rw [if_pos (by omega)]

theorem Holds.punctAt_group {b b' : Bracket} {op cl : Token} {inner rest : List Item}
    (h : Holds l i hi (.group b op cl inner :: rest)) :
    l.punctAt i (.opening b') = decide (b = b') := by
  cases h with
  | group ho hok =>
    rw [punctAt_eq ho, isPunct_leaf hok]
    simp

theorem Holds.punctAt_leaf {t : Token} {rest : List Item} (h : Holds l i hi (.leaf t :: rest))
    (b : Bracket) : l.punctAt i (.opening b) = false := by
  cases h with
  | leaf ht hk => exact noOpening_of_plain ht hk b

/-- Requiring a bracket at a position follows requiring a group in front of the items. -/
theorem follows_expectOpen (hw : WellPlaced l) {items : List Item} (h : Holds l i hi items)
    (b : Bracket) : Follows l (OpenAt l i hi) (l.expectOpen b i hi) (expectGroup b items) := by
  rw [Layout.expectOpen]
  cases items with
  | nil =>
    have heq := h.eq_iff.2 rfl
    rw [if_pos (.inl (by omega))]
    exact follows_refuse hw h rfl
  | cons item rest =>
    have hlt := h.lt (List.cons_ne_nil _ _)
    cases item with
    | leaf t =>
      rw [if_pos (.inr (h.punctAt_leaf b))]
      exact follows_refuse hw h rfl
    | group b' op cl inner =>
      rw [expectGroup, h.punctAt_group]
      by_cases hb : b' = b
      · obtain ⟨close, hclose, hopen⟩ := h.openAt
        rw [if_neg (by simp [hb, hlt]), if_pos hb, hclose]
        exact follows_done hopen
      · rw [if_pos (by simp [hb]), if_neg hb]
        exact follows_refuse hw h rfl

end Brackets

/-! ## What stands at the front of a range -/

section Front

variable {lo hi : Nat} {item : Item} {rest : List Item}

theorem Holds.identAt (h : Holds l lo hi (item :: rest)) : l.identAt? lo = item.ident? := by
  rw [identAt_eq h.first]
  cases h with
  | leaf => rfl
  | group _ hok => rw [Item.first, Token.ident?, hok]; rfl

theorem Holds.punctAt (h : Holds l lo hi (item :: rest)) {p : Punct}
    (hp : (TokenKind.punct p).isBracket = false) : l.punctAt lo p = item.isPunct p := by
  rw [punctAt_eq h.first, ← meets_isPunct]
  exact h.meets_first (plain_isPunct hp)

theorem Holds.wordAt (h : Holds l lo hi (item :: rest)) (word : String) :
    l.wordAt lo word = item.isWord word := by
  rw [wordAt_eq h.first, ← meets_isWord]
  exact h.meets_first (plain_isWord word)

theorem Holds.keyAt (h : Holds l lo hi (item :: rest)) : keyAt? l lo = memberKey? item := by
  rw [keyAt?, h.first]
  cases h with
  | leaf => rfl
  | group _ hok => simp only [Item.first, Option.bind_some, hok]; rfl

theorem Holds.after_leaf {t : Token} (h : Holds l lo hi (.leaf t :: rest)) :
    Holds l (lo + 1) hi rest := by
  cases h with
  | leaf _ _ _ hrest => exact hrest

theorem Holds.after_ident {name : String} (h : Holds l lo hi (item :: rest))
    (hname : item.ident? = some name) : Holds l (lo + 1) hi rest := by
  cases h with
  | leaf _ _ _ hrest => exact hrest
  | group => cases hname

theorem Holds.after_key {key : String} (h : Holds l lo hi (item :: rest))
    (hkey : memberKey? item = some key) : Holds l (lo + 1) hi rest := by
  cases h with
  | leaf _ _ _ hrest => exact hrest
  | group => cases hkey

theorem Holds.leaf_plain {t : Token} (h : Holds l lo hi (.leaf t :: rest)) :
    t.kind.isBracket = false := by
  cases h with
  | leaf _ hk => exact hk

end Front

/-! ## A range holds one list of items -/

theorem Holds.unique {lo hi : Nat} {items items' : List Item} (h : Holds l lo hi items)
    (h' : Holds l lo hi items') : items = items' := by
  induction h generalizing items' with
  | nil => exact (h'.eq_iff.1 rfl).symm
  | @leaf lo hi t rest ht hk hp hrest ih =>
    cases h' with
    | nil => have := hrest.le; omega
    | leaf ht' _ _ hrest' =>
      rw [ht, Option.some.injEq] at ht'
      rw [ht', ih hrest']
    | group ho' hok' =>
      rw [ht, Option.some.injEq] at ho'
      rw [ho', hok'] at hk
      cases hk
  | @group lo close hi b o c inner rest ho hok hop hinner hc hck hcp hrest ih₁ ih₂ =>
    cases h' with
    | nil => have := hinner.le; have := hrest.le; omega
    | leaf ht' hk' =>
      rw [ho, Option.some.injEq] at ht'
      rw [← ht', hok] at hk'
      cases hk'
    | group ho' hok' hop' hinner' hc' hck' hcp' hrest' =>
      rw [hop, Option.some.injEq, Option.some.injEq] at hop'
      subst hop'
      rw [ho, Option.some.injEq] at ho'
      rw [hc, Option.some.injEq] at hc'
      subst ho' hc'
      rw [hok, TokenKind.punct.injEq, Punct.opening.injEq] at hok'
      rw [hok', ih₁ hinner', ih₂ hrest']

/-- What is left of a range from a later position on is a rest of its items. -/
theorem Holds.suffix {lo next hi : Nat} {items more : List Item} (h : Holds l lo hi items)
    (hmore : Holds l next hi more) (hle : lo ≤ next) : more <:+ items := by
  induction h with
  | @nil lo =>
    have heq : next = lo := Nat.le_antisymm hmore.le hle
    rw [hmore.eq_iff.1 heq]
  | @leaf lo hi t rest ht hk hp hrest ih =>
    rcases Nat.eq_or_lt_of_le hle with rfl | hlt
    · rw [hmore.unique (.leaf ht hk hp hrest)]
    · exact (ih hmore hlt).trans (List.suffix_cons _ _)
  | @group lo close hi b o c inner rest ho hok hop hinner hc hck hcp hrest ih₁ ih₂ =>
    rcases Nat.eq_or_lt_of_le hle with rfl | hlt
    · rw [hmore.unique (.group ho hok hop hinner hc hck hcp hrest)]
    · rcases Nat.lt_or_ge close next with hclose | hclose
      · exact (ih₂ hmore hclose).trans (List.suffix_cons _ _)
      · -- a range that starts inside the group would lack the partner of the closing bracket
        have hhi := hrest.le
        obtain ⟨h₁, -⟩ := hmore.closed.partners close hclose (by omega) lo hcp
        omega

/-- A range that starts later has fewer items. -/
theorem Holds.length_lt {lo next hi : Nat} {items more : List Item} (h : Holds l lo hi items)
    (hmore : Holds l next hi more) (hlt : lo < next) : more.length < items.length := by
  have hsuffix := h.suffix hmore (Nat.le_of_lt hlt)
  refine Nat.lt_of_le_of_ne hsuffix.length_le fun heq => ?_
  rw [hsuffix.eq_of_length heq] at hmore
  have h₁ := h.length_eq
  have h₂ := hmore.length_eq
  omega

end PlayerScript.Ast.Ranges
