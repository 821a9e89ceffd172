/-
Bracketed structure without places. A shape is what is left of an item when its tokens lose their
positions. Grouping is the inverse of writing the brackets out: a token list whose kinds are those
of a list of shapes is grouped into items of these shapes.
-/
import PlayerScript.Token.Item

namespace PlayerScript

variable {item : Item} {source : List Char} {ts : List Token}

/-- The kind of a token that is no bracket, or a group of shapes between two brackets. -/
inductive Shape where
  | leaf (kind : TokenKind)
  | group (bracket : Bracket) (items : List Shape)

/-- Whether a token is an opening or a closing bracket. -/
def TokenKind.isBracket : TokenKind → Bool
  | .punct (.opening _) | .punct (.closing _) => true
  | _ => false

namespace Item

mutual

/-- The shape of an item. -/
def shape : Item → Shape
  | .leaf t => .leaf t.kind
  | .group b _ _ items => .group b (shapesOf items)

/-- The shapes of a list of items. -/
def shapesOf : List Item → List Shape
  | [] => []
  | item :: rest => shape item :: shapesOf rest

end

@[simp] theorem shapesOf_eq_map : ∀ items : List Item, shapesOf items = items.map shape
  | [] => rfl
  | item :: rest => by rw [shapesOf, shapesOf_eq_map rest, List.map_cons]

@[simp] theorem shape_leaf (t : Token) : shape (.leaf t) = .leaf t.kind := by rw [shape]

@[simp] theorem shape_group (b : Bracket) (o c : Token) (items : List Item) :
    shape (.group b o c items) = .group b (items.map shape) := by
  rw [shape, shapesOf_eq_map]

mutual

/-- An item of a shape, at no place in particular. -/
@[simp] def ofShape : Shape → Item
  | .leaf k => .leaf ⟨k, 0, 0⟩
  | .group b ss => .group b ⟨.punct (.opening b), 0, 0⟩ ⟨.punct (.closing b), 0, 0⟩ (ofShapes ss)

/-- Items of shapes, at no place in particular. -/
@[simp] def ofShapes : List Shape → List Item
  | [] => []
  | s :: rest => ofShape s :: ofShapes rest

end

mutual

theorem shape_ofShape : ∀ s : Shape, (ofShape s).shape = s
  | .leaf k => by rw [ofShape, shape_leaf]
  | .group b ss => by rw [ofShape, shape_group, map_shape_ofShapes]

@[simp] theorem map_shape_ofShapes : ∀ ss : List Shape, (ofShapes ss).map shape = ss
  | [] => by rw [ofShapes, List.map_nil]
  | s :: rest => by rw [ofShapes, List.map_cons, shape_ofShape, map_shape_ofShapes]

end

@[simp] theorem ofShapes_append : ∀ a b : List Shape, ofShapes (a ++ b) = ofShapes a ++ ofShapes b
  | [], b => by rw [ofShapes, List.nil_append, List.nil_append]
  | s :: a, b => by rw [List.cons_append, ofShapes, ofShapes, ofShapes_append a b, List.cons_append]

theorem shape_eq_leaf {k : TokenKind} (h : item.shape = .leaf k) :
    ∃ t, item = .leaf t ∧ t.kind = k := by
  cases item with
  | leaf t => rw [shape_leaf] at h; cases h; exact ⟨t, rfl, rfl⟩
  | group b o c items => rw [shape_group] at h; cases h

theorem shape_eq_group {b : Bracket} {ss : List Shape} (h : item.shape = .group b ss) :
    ∃ o c items, item = .group b o c items ∧ items.map shape = ss := by
  cases item with
  | leaf t => rw [shape_leaf] at h; cases h
  | group b o c items => rw [shape_group] at h; cases h; exact ⟨o, c, items, rfl, rfl⟩

end Item

variable {p : TokenKind → Bool}

namespace Shape

mutual

/-- The kinds of the tokens of a shape, brackets included. -/
def kinds : Shape → List TokenKind
  | .leaf k => [k]
  | .group b items => .punct (.opening b) :: (kindsOf items ++ [.punct (.closing b)])

/-- The kinds of the tokens of a list of shapes. -/
def kindsOf : List Shape → List TokenKind
  | [] => []
  | s :: rest => kinds s ++ kindsOf rest

/-- Whether every leaf satisfies a condition and is no bracket. -/
def all (p : TokenKind → Bool) : Shape → Bool
  | .leaf k => p k && !k.isBracket
  | .group _ items => allOf p items

/-- Whether every leaf of a list of shapes satisfies a condition and is no bracket. -/
def allOf (p : TokenKind → Bool) : List Shape → Bool
  | [] => true
  | s :: rest => all p s && allOf p rest

end

theorem allOf_append (p : TokenKind → Bool) : ∀ a b : List Shape,
    allOf p (a ++ b) = (allOf p a && allOf p b)
  | [], b => by simp [allOf]
  | s :: a, b => by rw [List.cons_append, allOf, allOf, allOf_append p a b, Bool.and_assoc]

mutual

theorem mem_kinds : ∀ (s : Shape), s.all p = true →
    ∀ k ∈ s.kinds, p k = true ∨ ∃ b, k = .punct (.opening b) ∨ k = .punct (.closing b)
  | .leaf k, h, k', hk => by
    rw [all, Bool.and_eq_true] at h
    rw [kinds, List.mem_singleton] at hk
    exact .inl (hk ▸ h.1)
  | .group b items, h, k', hk => by
    rw [kinds, List.mem_cons, List.mem_append, List.mem_singleton] at hk
    rcases hk with rfl | hk | rfl
    · exact .inr ⟨b, .inl rfl⟩
    · exact mem_kindsOf items (by rwa [all] at h) k' hk
    · exact .inr ⟨b, .inr rfl⟩

theorem mem_kindsOf : ∀ (ss : List Shape), allOf p ss = true →
    ∀ k ∈ kindsOf ss, p k = true ∨ ∃ b, k = .punct (.opening b) ∨ k = .punct (.closing b)
  | [], _, k', hk => by rw [kindsOf] at hk; cases hk
  | s :: rest, h, k', hk => by
    rw [allOf, Bool.and_eq_true] at h
    rw [kindsOf, List.mem_append] at hk
    rcases hk with hk | hk
    · exact mem_kinds s h.1 k' hk
    · exact mem_kindsOf rest h.2 k' hk

end

end Shape

/-! ## Grouping -/

namespace Item

open Shape

theorem groupFrom_leaf {acc : List Item} {stack : List Open} {t : Token}
    {rest : List Token} (h : t.kind.isBracket = false) :
    groupFrom source acc stack (t :: rest) = groupFrom source (.leaf t :: acc) stack rest := by
  rw [groupFrom]
  split
  · rename_i hk; rw [hk] at h; cases h
  · rename_i hk; rw [hk] at h; cases h
  · rfl

mutual

theorem groupFrom_shape (source : List Char) : ∀ (s : Shape), s.all p = true →
    ∀ (ts : List Token), ts.map Token.kind = s.kinds → ∃ item : Item, item.shape = s ∧
      ∀ acc stack rest, groupFrom source acc stack (ts ++ rest) =
        groupFrom source (item :: acc) stack rest
  | .leaf k, h, ts, hts => by
    rw [kinds, List.map_eq_singleton_iff] at hts
    obtain ⟨t, rfl, rfl⟩ := hts
    rw [all, Bool.and_eq_true, Bool.not_eq_true'] at h
    exact ⟨.leaf t, shape_leaf t, fun acc stack rest => groupFrom_leaf h.2⟩
  | .group b ss, h, ts, hts => by
    rw [kinds, List.map_eq_cons_iff] at hts
    obtain ⟨o, ts, rfl, ho, hts⟩ := hts
    rw [List.map_eq_append_iff] at hts
    obtain ⟨inner, close, rfl, hinner, hclose⟩ := hts
    rw [List.map_eq_singleton_iff] at hclose
    obtain ⟨c, rfl, hc⟩ := hclose
    obtain ⟨items, hitems, hgroup⟩ := groupFrom_shapes source ss (by rwa [all] at h) inner hinner
    refine ⟨.group b o c items, by rw [shape_group, hitems], fun acc stack rest => ?_⟩
    -- the opening bracket puts the items so far on the stack, the closing one takes them back
    rw [List.cons_append, List.append_assoc, groupFrom, ho]
    simp only
    rw [hgroup, List.singleton_append, groupFrom, hc]
    simp

theorem groupFrom_shapes (source : List Char) : ∀ (ss : List Shape),
    allOf p ss = true → ∀ (ts : List Token), ts.map Token.kind = kindsOf ss →
      ∃ items : List Item, items.map shape = ss ∧ ∀ acc stack rest,
        groupFrom source acc stack (ts ++ rest) = groupFrom source (items.reverse ++ acc) stack rest
  | [], _, ts, hts => by
    rw [kindsOf, List.map_eq_nil_iff] at hts
    subst hts
    exact ⟨[], rfl, fun _ _ _ => rfl⟩
  | s :: ss, h, ts, hts => by
    rw [allOf, Bool.and_eq_true] at h
    rw [kindsOf, List.map_eq_append_iff] at hts
    obtain ⟨first, more, rfl, hfirst, hmore⟩ := hts
    obtain ⟨item, hitem, hg₁⟩ := groupFrom_shape source s h.1 first hfirst
    obtain ⟨items, hitems, hg₂⟩ := groupFrom_shapes source ss h.2 more hmore
    refine ⟨item :: items, by rw [List.map_cons, hitem, hitems], fun acc stack rest => ?_⟩
    rw [List.append_assoc, hg₁, hg₂]
    simp

end

/-- Tokens written out from shapes are grouped into items of these shapes. -/
theorem group_of_kinds (source : List Char) {ss : List Shape}
    (h : allOf p ss = true) (hts : ts.map Token.kind = kindsOf ss) :
    ∃ items, group? source ts = .ok items ∧ items.map shape = ss := by
  obtain ⟨items, hitems, hg⟩ := groupFrom_shapes source ss h ts hts
  refine ⟨items, ?_, hitems⟩
  have := hg [] [] []
  rw [List.append_nil, List.append_nil] at this
  unfold group?
  rw [this, groupFrom, List.reverse_reverse]

/-- The kinds of the tokens that were grouped already: those before the groups that are open, and
those of the innermost one, whose items come the last one first. -/
def pendingKinds : List Item → List Open → List TokenKind
  | items, [] => kindsOf (items.reverse.map shape)
  | items, opened :: stack =>
    pendingKinds opened.before stack ++
      .punct (.opening opened.bracket) :: kindsOf (items.reverse.map shape)

theorem kindsOf_append : ∀ a b : List Shape, kindsOf (a ++ b) = kindsOf a ++ kindsOf b
  | [], b => by rw [kindsOf, List.nil_append, List.nil_append]
  | s :: a, b => by rw [List.cons_append, kindsOf, kindsOf, kindsOf_append a b, List.append_assoc]

theorem pendingKinds_cons (item : Item) (items : List Item) (stack : List Open) :
    pendingKinds (item :: items) stack = pendingKinds items stack ++ item.shape.kinds := by
  have hlast : kindsOf ((item :: items).reverse.map shape) =
      kindsOf (items.reverse.map shape) ++ item.shape.kinds := by
    rw [List.reverse_cons, List.map_append, kindsOf_append, List.map_cons, List.map_nil, kindsOf,
      kindsOf, List.append_nil]
  cases stack with
  | nil => rw [pendingKinds, pendingKinds, hlast]
  | cons opened stack => rw [pendingKinds, pendingKinds, hlast, List.append_assoc, List.cons_append]

/-- No leaf of an open group, or of what stands before it, is a bracket or fails the condition. -/
def AllPending (p : TokenKind → Bool) (items : List Item) (stack : List Open) : Prop :=
  allOf p (items.reverse.map shape) = true ∧
    ∀ opened ∈ stack, allOf p (opened.before.reverse.map shape) = true

theorem AllPending.cons {items : List Item} {stack : List Open}
    (h : AllPending p items stack) (hitem : item.shape.all p = true) :
    AllPending p (item :: items) stack := by
  refine ⟨?_, h.2⟩
  rw [List.reverse_cons, List.map_append, allOf_append, h.1, List.map_cons, List.map_nil, allOf, allOf,
    hitem]
  rfl

theorem kinds_of_groupFrom :
    ∀ {items all : List Item} {stack : List Open}, groupFrom source items stack ts = .ok all →
      AllPending p items stack → (∀ t ∈ ts, p t.kind = true) →
      kindsOf (all.map shape) = pendingKinds items stack ++ ts.map Token.kind ∧
        allOf p (all.map shape) = true := by
  induction ts with
  | nil =>
    intro items all stack h hpending _
    cases stack with
    | nil =>
      rw [groupFrom] at h
      cases h
      exact ⟨(List.append_nil _).symm, hpending.1⟩
    | cons opened stack =>
      rw [groupFrom] at h
      cases h
  | cons t ts ih =>
    intro items all stack h hpending hp
    rw [List.forall_mem_cons] at hp
    rw [groupFrom] at h
    split at h
    · rename_i b hkind
      obtain ⟨hkinds, hall⟩ := ih h ⟨rfl, List.forall_mem_cons.2 hpending⟩ hp.2
      refine ⟨?_, hall⟩
      rw [hkinds, pendingKinds, List.map_cons, hkind, List.append_assoc]
      rfl
    · rename_i b hkind
      split at h
      · cases h
      · rename_i opened stack
        split at h
        · rename_i hb
          have hbefore : AllPending p opened.before stack := List.forall_mem_cons.1 hpending.2
          obtain ⟨hkinds, hall⟩ := ih h (hbefore.cons (by rw [shape_group, Shape.all, hpending.1])) hp.2
          refine ⟨?_, hall⟩
          rw [hkinds, pendingKinds_cons, shape_group, kinds, pendingKinds, List.map_cons, hkind, hb]
          simp
        · cases h
    · rename_i hopening hclosing
      have hleaf : t.kind.isBracket = false := by
        unfold TokenKind.isBracket
        split
        · rename_i b hkind
          exact absurd hkind (hopening b)
        · rename_i b hkind
          exact absurd hkind (hclosing b)
        · rfl
      obtain ⟨hkinds, hall⟩ := ih h (hpending.cons (by rw [shape_leaf, Shape.all, hp.1, hleaf]; rfl)) hp.2
      refine ⟨?_, hall⟩
      rw [hkinds, pendingKinds_cons, shape_leaf, kinds, List.map_cons, List.append_assoc]
      rfl

/-- Tokens that are grouped are those of the shapes, written out. -/
theorem kinds_of_group {items : List Item} (h : group? source ts = .ok items)
    (hp : ∀ t ∈ ts, p t.kind = true) :
    ts.map Token.kind = kindsOf (items.map shape) ∧ allOf p (items.map shape) = true := by
  obtain ⟨hkinds, hall⟩ := kinds_of_groupFrom h ⟨rfl, by simp⟩ hp
  refine ⟨?_, hall⟩
  rw [hkinds, pendingKinds]
  rfl

end Item
end PlayerScript
