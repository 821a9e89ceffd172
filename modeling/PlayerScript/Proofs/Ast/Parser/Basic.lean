/-
How the parser's searches act on items of known shapes: where a list of items is split, which cuts
are found, and what a sequence of parsers gives whose parts all succeed.
-/
import PlayerScript.Proofs.Ast.Print

namespace PlayerScript.Ast

open Shape Item

variable {α : Type} {items : List Item} {t : Token} {p : Punct} {r : Range}

/-! ## Results -/

theorem done_bind {β : Type} (a : α) (f : α → Parse β) : (Parse.done a >>= f) = f a := rfl

/-! ## Items by their shapes -/

theorem isPunct_leaf (h : t.kind = .punct p) (q : Punct) : t.isPunct q = decide (p = q) := by
  rw [Token.isPunct, Token.punct?, h]
  simp only [Option.some_beq_some]
  exact beq_eq_decide p q

@[simp] theorem isPunct_punct (p q : Punct) (i j : Nat) : (Token.mk (.punct p) i j).isPunct q = decide (p = q) :=
  isPunct_leaf rfl q

theorem ident_leaf {name : String} (h : t.kind = .ident name) : t.ident? = some name := by
  rw [Token.ident?, h]

/-- An item is a punctuator just if its shape is the mark of it. -/
theorem isPunct_iff {item : Item} : item.isPunct p = true ↔ item.shape = mark p := by
  cases item with
  | group b o c items => simp [Item.isPunct, mark]
  | leaf t =>
    rw [Item.isPunct, shape_leaf, mark, Token.isPunct, Token.punct?]
    cases t.kind <;> simp

theorem isPunct_eq_false (h : mark p ∉ items.map shape) :
    ∀ item ∈ items, item.isPunct p = false := by
  intro item hitem
  rw [← Bool.not_eq_true, isPunct_iff]
  exact fun heq => h (heq ▸ List.mem_map_of_mem hitem)

theorem isPunct_ofShapes {ss : List Shape} (h : mark p ∉ ss) : ∀ item ∈ ofShapes ss, item.isPunct p = false :=
  isPunct_eq_false (by rwa [map_shape_ofShapes])

/-! ## Splitting -/

theorem splitItems_none (before : Option Token) (h : ∀ item ∈ items, item.isPunct p = false) :
    Range.splitItems p before items = [⟨before, items⟩] := by
  induction items with
  | nil => rfl
  | cons item rest ih =>
    rw [List.forall_mem_cons] at h
    rw [Range.splitItems, h.1, ih h.2]
    rfl

theorem splitItems_append (before : Option Token)
    (h : ∀ item ∈ items, item.isPunct p = false) (ht : t.isPunct p = true) (rest : List Item) :
    Range.splitItems p before (items ++ .leaf t :: rest) =
      ⟨before, items⟩ :: Range.splitItems p (some t) rest := by
  induction items with
  | nil => rw [List.nil_append, Range.splitItems, Item.isPunct, ht]; rfl
  | cons item items ih =>
    rw [List.forall_mem_cons] at h
    rw [List.cons_append, Range.splitItems, h.1, ih h.2]
    rfl

theorem commas_cons (part next : List Shape) (parts : List (List Shape)) :
    commas (part :: next :: parts) = part ++ mark .comma :: commas (next :: parts) := by
  rw [commas, List.intercalate_cons_cons, List.append_assoc, List.singleton_append]
  rfl

theorem mem_commas {x : Shape} : ∀ {parts : List (List Shape)}, x ∈ commas parts →
    x = mark .comma ∨ ∃ part ∈ parts, x ∈ part
  | [], h => by cases h
  | [part], h => by
    rw [commas, List.intercalate_singleton] at h
    exact .inr ⟨part, List.mem_cons_self, h⟩
  | part :: next :: parts, h => by
    rw [commas_cons, List.mem_append, List.mem_cons] at h
    rcases h with h | h | h
    · exact .inr ⟨part, List.mem_cons_self, h⟩
    · exact .inl h
    · rcases mem_commas h with h | ⟨part', hmem, h⟩
      · exact .inl h
      · exact .inr ⟨part', List.mem_cons_of_mem part hmem, h⟩

/-- The ranges of parts that are written with commas between them. -/
def rangesOf (before : Option Token) : List (List Shape) → List Range
  | [] => []
  | part :: parts => ⟨before, ofShapes part⟩ :: rangesOf (some ⟨.punct .comma, 0, 0⟩) parts

theorem splitItems_commas : ∀ {parts : List (List Shape)} (before : Option Token), parts ≠ [] →
    (∀ part ∈ parts, mark .comma ∉ part) →
      Range.splitItems .comma before (ofShapes (commas parts)) = rangesOf before parts
  | [], _, h, _ => absurd rfl h
  | [part], before, _, hparts => by
    rw [commas, List.intercalate_singleton,
      splitItems_none before (isPunct_ofShapes (hparts part List.mem_cons_self))]
    rfl
  | part :: next :: parts, before, _, hparts => by
    rw [List.forall_mem_cons] at hparts
    rw [commas_cons, ofShapes_append, ofShapes, mark, ofShape,
      splitItems_append before (isPunct_ofShapes hparts.1) rfl, rangesOf,
      splitItems_commas _ (List.cons_ne_nil _ _) hparts.2]

theorem mem_rangesOf {parts : List (List Shape)} : ∀ {before : Option Token}, r ∈ rangesOf before parts →
    ∃ part ∈ parts, r.items = ofShapes part := by
  induction parts with
  | nil => intro before h; cases h
  | cons part parts ih =>
    intro before h
    rcases List.mem_cons.1 h with rfl | h
    · exact ⟨part, List.mem_cons_self, rfl⟩
    · obtain ⟨part', hpart, hitems⟩ := ih h
      exact ⟨part', List.mem_cons_of_mem _ hpart, hitems⟩

theorem ofShapes_eq_nil {ss : List Shape} : ofShapes ss = [] ↔ ss = [] := by
  cases ss <;> simp

theorem listed_commas {parts : List (List Shape)} (before : Option Token)
    (hparts : ∀ part ∈ parts, part ≠ [] ∧ mark .comma ∉ part) :
    Range.listed ⟨before, ofShapes (commas parts)⟩ = rangesOf before parts := by
  cases parts with
  | nil => rfl
  | cons part parts =>
    have hsplit := splitItems_commas before (List.cons_ne_nil part parts) fun part' h' => (hparts part' h').2
    have hfull : ∀ r ∈ rangesOf before (part :: parts), r.items ≠ [] := by
      intro r hr
      obtain ⟨part', hpart, hitems⟩ := mem_rangesOf hr
      rw [hitems, Ne, ofShapes_eq_nil]
      exact (hparts part' hpart).1
    have hne : ofShapes (commas (part :: parts)) ≠ [] := by
      intro hnil
      rw [hnil, Range.splitItems] at hsplit
      exact hfull _ (hsplit ▸ List.mem_cons_self) rfl
    rw [Range.listed, if_neg (by simpa using hne), Range.splitAt, hsplit]
    dsimp only
    split
    · rename_i final hfinal
      rw [if_neg (by simp [hfull final (List.mem_of_getLast? hfinal)])]
    · rfl

/-- A parser that reads every part reads the ranges of the parts one by one. -/
theorem each_rangesOf {β : Type} {f : Range → Parse β} {g : α → List Shape} {v : α → β} {as : List α}
    (hf : ∀ a ∈ as, ∀ before, f ⟨before, ofShapes (g a)⟩ = Parse.done (v a)) (before : Option Token) :
    Parse.each f (rangesOf before (as.map g)) = Parse.done (as.map v) := by
  induction as generalizing before with
  | nil => rfl
  | cons a as ih =>
    rw [List.forall_mem_cons] at hf
    rw [List.map_cons, rangesOf, Parse.each, hf.1, done_bind, ih hf.2]
    rfl

theorem each_listed {β : Type} {f : Range → Parse β} {g : α → List Shape} {v : α → β} {as : List α} {bs : List β}
    (hg : ∀ a, g a ≠ [] ∧ mark .comma ∉ g a)
    (hf : ∀ a ∈ as, ∀ before, f ⟨before, ofShapes (g a)⟩ = Parse.done (v a)) (hv : as.map v = bs)
    (before : Option Token) :
    Parse.each f (Range.listed ⟨before, ofShapes (commas (as.map g))⟩) = Parse.done bs := by
  rw [listed_commas before fun part hpart => ?_, each_rangesOf hf, hv]
  obtain ⟨a, -, rfl⟩ := List.mem_map.1 hpart
  exact hg a

theorem splitAt_commas {g : α → List Shape} {as : List α} (hne : as ≠ []) (hg : ∀ a, mark .comma ∉ g a)
    (before : Option Token) :
    Range.splitAt .comma ⟨before, ofShapes (commas (as.map g))⟩ = rangesOf before (as.map g) := by
  refine splitItems_commas before (by simpa using hne) fun part hpart => ?_
  obtain ⟨a, -, rfl⟩ := List.mem_map.1 hpart
  exact hg a

/-! ## Cuts -/

theorem first_append {p : Token → Bool} (ht : p t = true) (rest : List Item) :
    ∀ {items : List Item}, (∀ u, Item.leaf u ∈ items → p u = false) →
      Cut.first? p (items ++ .leaf t :: rest) = some ⟨items, t, rest⟩
  | [], _ => by rw [List.nil_append, Cut.first?, ht]; rfl
  | .leaf u :: items, h => by
    rw [List.cons_append, Cut.first?, h u List.mem_cons_self,
      first_append ht rest fun u' h' => h u' (List.mem_cons_of_mem _ h')]
    rfl
  | .group b o c inner :: items, h => by
    rw [List.cons_append, Cut.first?,
      first_append ht rest fun u' h' => h u' (List.mem_cons_of_mem _ h')]
    rfl

theorem first_none {p : Token → Bool} :
    ∀ {items : List Item}, (∀ u, Item.leaf u ∈ items → p u = false) → Cut.first? p items = none
  | [], _ => rfl
  | .leaf u :: items, h => by
    rw [Cut.first?, h u List.mem_cons_self, first_none fun u' h' => h u' (List.mem_cons_of_mem _ h')]
    rfl
  | .group b o c inner :: items, h => by
    rw [Cut.first?, first_none fun u' h' => h u' (List.mem_cons_of_mem _ h')]
    rfl

theorem operatorAfter_none {op : BinaryOp} : ∀ {items : List Item} (previous : Item),
    (∀ item ∈ items, item.isPunct (.binary op) = false) → Cut.operatorAfter? op previous items = none
  | [], _, _ => rfl
  | item :: rest, previous, h => by
    rw [List.forall_mem_cons] at h
    rw [Cut.operatorAfter?, operatorAfter_none item h.2, h.1]
    rfl

/-- An operator in front of everything is no binary one. -/
theorem binary_none {first : Item} {rest : List Item}
    (h : ∀ item ∈ rest, ∀ op, item.isPunct (.binary op) = false) :
    Cut.binary? (first :: rest) = none := by
  rw [Cut.binary?, List.findSome?_eq_none_iff]
  intro op _
  rw [Cut.operator?, operatorAfter_none first fun item hitem => h item hitem op]
  rfl

/-- The operator between two groups is found, whichever it is. -/
theorem binary_between (op : BinaryOp) {i j : Nat} {b b' : Bracket} {o c o' c' : Token} {left right : List Item} :
    Cut.binary? [.group b o c left, .leaf ⟨.punct (.binary op), i, j⟩, .group b' o' c' right] =
      some (op, ⟨[.group b o c left], ⟨.punct (.binary op), i, j⟩, [.group b' o' c' right]⟩) := by
  have hcut : ∀ op', Cut.operator? op' [.group b o c left, .leaf ⟨.punct (.binary op), i, j⟩,
      .group b' o' c' right] = if op = op' then
        some ⟨[.group b o c left], ⟨.punct (.binary op), i, j⟩, [.group b' o' c' right]⟩ else none := by
    intro op'
    by_cases hop : op = op'
    · simp [Cut.operator?, Cut.operatorAfter?, Item.isPunct, endsOperand, hop, Cut.cons, Item.last]
    · simp [Cut.operator?, Cut.operatorAfter?, Item.isPunct, hop]
  simp only [Cut.binary?, hcut]
  cases op <;> rfl

theorem upToSemicolon_append (items : List Item) (h : mark .semicolon ∉ items.map shape)
    (ht : t.kind = .punct .semicolon) (rest : List Item) :
    upToSemicolon (items ++ .leaf t :: rest) = (items, .leaf t :: rest) := by
  have hnone : ∀ u, Item.leaf u ∈ items → u.isPunct .semicolon = false :=
    fun u hu => isPunct_eq_false h _ hu
  rw [upToSemicolon, first_append (by simp [isPunct_leaf ht]) rest hnone]

theorem expectGroup_group (b : Bracket) (o c : Token) (inner rest : List Item) :
    expectGroup b (.group b o c inner :: rest) = Parse.done ⟨o, c, inner, rest⟩ := by
  rw [expectGroup, if_pos rfl]

end PlayerScript.Ast
