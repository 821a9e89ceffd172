/-
Parsing items that differ only in the places of their tokens. What the parser does with the ones it does
with the others. Every name in a parsed tree is a word among the items, and where no word begins a function
no name is minted.
-/
import PlayerScript.Proofs.Ast.Everywhere
import PlayerScript.Proofs.Ast.Levels
import PlayerScript.Proofs.Ast.Ranges.Closedness

namespace PlayerScript.Ast

/-! ## Items elsewhere -/

/-- Every group stands between brackets of its own kind. -/
inductive Proper : Item → Prop
  | leaf (t : Token) : Proper (.leaf t)
  | group {b : Bracket} {o c : Token} {items : List Item} (ho : o.kind = .punct (.opening b))
      (hc : c.kind = .punct (.closing b)) (h : ∀ item ∈ items, Proper item) : Proper (.group b o c items)

theorem Ranges.Holds.proper {l : Layout} {lo hi : Nat} {items : List Item} (h : Holds l lo hi items) :
    ∀ item ∈ items, Proper item := by
  induction h with
  | nil => simp
  | leaf _ _ _ _ ih => exact List.forall_mem_cons.2 ⟨.leaf _, ih⟩
  | group _ hok _ _ _ hck _ _ ihinner ihrest =>
    exact List.forall_mem_cons.2 ⟨.group hok hck ihinner, ihrest⟩

theorem proper_itemsOf {source : List Char} {items : List Item} (h : itemsOf source = .ok items) :
    ∀ item ∈ items, Proper item := by
  unfold itemsOf at h
  split at h
  · obtain ⟨_, _, hholds⟩ := Ranges.layout_holds h
    exact hholds.proper
  · cases h

namespace Move

theorem blank_token (t : Token) : blank.token t = ⟨t.kind, 0, 0⟩ := rfl

mutual

theorem blank_item : ∀ {x : Item}, Proper x → blank.item x = .ofShape x.shape
  | .leaf t, _ => by rw [item, Item.shape_leaf, Item.ofShape, blank_token]
  | .group b o c xs, .group ho hc h => by
    rw [item, Item.shape_group, Item.ofShape, blank_items h, blank_token, blank_token, ho, hc]

/-- Items whose places are forgotten are those of their shapes. -/
theorem blank_items : ∀ {xs : List Item}, (∀ x ∈ xs, Proper x) →
    blank.items xs = Item.ofShapes (xs.map Item.shape)
  | [], _ => by rw [items]; rfl
  | x :: xs, h => by
    rw [List.forall_mem_cons] at h
    rw [items, List.map_cons, Item.ofShapes, blank_item h.1, blank_items h.2]

end

end Move

/-- Two runs that both succeed, with related results, or both fail; either way they end in the same
state, which for parsers is the number of minted names. -/
inductive SameRun {ε ε' α β σ : Type} (R : α → β → Prop) : Except ε α × σ → Except ε' β × σ → Prop
  | ok {a : α} {b : β} (s : σ) (h : R a b) : SameRun R (.ok a, s) (.ok b, s)
  | error (e : ε) (e' : ε') (s : σ) : SameRun R (.error e, s) (.error e', s)

theorem SameRun.ok_iff {ε ε' α σ : Type} {x : Except ε α × σ} {y : Except ε' α × σ} (h : SameRun Eq x y) {a : α}
    {s : σ} : x = (.ok a, s) ↔ y = (.ok a, s) := by
  cases h with
  | ok s' h => simp [h]
  | error e e' s' => simp

/-- Statements are parsed alike wherever they stand. -/
theorem statements_wherever (depth k : Nat) (items : List Item) (m m' : Move) :
    SameRun Eq (statements (parsersWithin depth) false (m.range ⟨none, items⟩) k)
      (statements (parsersWithin depth) false (m'.range ⟨none, items⟩) k) := by
  cases statements_counted (fun _ _ => builds_any _) (unburdened_all items) depth k with
  | error _ h =>
    have hhere := h 0 m
    have hthere := h 0 m'
    rw [Nat.zero_add] at hhere hthere
    rw [hhere, hthere]
    exact .error _ _ _
  | ok own _ h _ ha =>
    obtain ⟨body, rfl, -⟩ := ha
    have hhere := h 0 m
    have hthere := h 0 m'
    rw [Nat.zero_add] at hhere hthere
    rw [hhere, hthere]
    exact .ok _ rfl

/-- Statements are parsed as items of their shapes are, at no place in particular. -/
theorem statements_of_shapes (depth k : Nat) {r : Range} (h : ∀ x ∈ r.items, Proper x) :
    SameRun Eq (statements (parsersWithin depth) false ⟨none, Item.ofShapes (r.items.map Item.shape)⟩ k)
      (statements (parsersWithin depth) false r k) := by
  have hruns := statements_wherever depth k r.items .blank (.still r.before)
  have hblank : Move.blank.range ⟨none, r.items⟩ = ⟨none, Item.ofShapes (r.items.map Item.shape)⟩ :=
    congrArg (Range.mk none) (Move.blank_items h)
  rwa [hblank, Move.still_range] at hruns

/-- A text is parsed as items of the shapes of its tokens are. -/
theorem parseStatements_of_shapes {p : TokenKind → Bool} {source : List Char} {ts : List Token} {ss : List Shape}
    (htokens : Token.tokenize source = .ok ts) (hkinds : ts.map Token.kind = Shape.kindsOf ss)
    (hall : Shape.allOf p ss = true) (depth k : Nat) :
    SameRun Eq (statements (parsersWithin depth) false ⟨none, Item.ofShapes ss⟩ k) (parseStatements source depth k) := by
  obtain ⟨items, hgroup, rfl⟩ := Item.group_of_kinds source hall hkinds
  have hitems : itemsOf source = .ok items := by
    rw [itemsOf, htokens]
    exact hgroup
  have hruns := statements_of_shapes depth k (r := ⟨none, items⟩) (proper_itemsOf hitems)
  rw [parseStatements, hitems]
  dsimp only at hruns ⊢
  generalize statements (parsersWithin depth) false ⟨none, items⟩ k = y at hruns ⊢
  generalize statements (parsersWithin depth) false _ k = x at hruns ⊢
  cases hruns with
  | ok s h => exact .ok s h
  | error e e' s => exact .error e _ s

/-! ## Names -/

/-- Trees in which every name that stands for a value fits. -/
def fitting (fits : TokenKind → Bool) : Condition := ⟨fun _ => True, fun name => fits (.ident name) = true⟩

section Fitting

variable {fits : TokenKind → Bool} {names : List (Nat → String)}

/-- Trees in which names fit, in the first of all runs. -/
def fittingTrees (fits : TokenKind → Bool) : Trees Nat :=
  ⟨fun _ e => exprAll (fitting fits) (e 0), fun _ s => stmtAll (fitting fits) (s 0)⟩

theorem fitting_exprs {es : Nat → List Expr} (h : Each (fittingTrees fits).expr names es) :
    exprsAll (fitting fits) (es 0) := by
  induction h with
  | nil => trivial
  | cons h _ ih => exact ⟨h, ih⟩

theorem fitting_elements {es : Nat → List Expr} (h : Each (fittingTrees fits).Element names es) :
    exprsAll (fitting fits) (es 0) := by
  induction h with
  | nil => trivial
  | cons h _ ih =>
    cases h with
    | hole => exact ⟨trivial, ih⟩
    | expr h => exact ⟨h, ih⟩

theorem fitting_members {ms : Nat → List (String × Expr)} (h : Each (fittingTrees fits).Member names ms) :
    membersAll (fitting fits) (ms 0) := by
  induction h with
  | nil => trivial
  | cons h _ ih =>
    obtain ⟨key, h⟩ := h
    exact ⟨h, ih⟩

theorem fitting_option {e : Nat → Option Expr} (h : Maybe (fittingTrees fits).expr names e) :
    optionAll (fitting fits) (e 0) := by
  cases h with
  | none => trivial
  | some h => exact h

theorem fitting_decls {ds : Nat → List (String × Option Expr)} (h : Each (fittingTrees fits).Declared names ds) :
    declsAll (fitting fits) (ds 0) := by
  induction h with
  | nil => trivial
  | cons h _ ih =>
    obtain ⟨name, h⟩ := h
    exact ⟨fitting_option h, ih⟩

theorem fitting_body {b : Nat → List Stmt} (h : Each (fittingTrees fits).stmt names b) :
    bodyAll (fitting fits) (b 0) := by
  induction h with
  | nil => trivial
  | cons h _ ih => exact ⟨h, ih⟩

theorem fitting_clauses {cs : Nat → List Clause} (h : Each (fittingTrees fits).Labelled names cs) :
    clausesAll (fitting fits) (cs 0) := by
  induction h with
  | nil => trivial
  | cons h _ ih =>
    obtain ⟨hl, hb⟩ := h
    exact ⟨fitting_option hl, fitting_body hb, ih⟩

theorem builds_fitting (n : Nat) : Builds (everyCount fits n Objection.isPlain_of_isCommon) (fittingTrees fits)
    (fittingTrees fits) where
  literal _ := trivial
  ident name h := h name rfl
  update _ _ _ := trivial
  wrapped h := h
  array h := fitting_elements h
  object h := fitting_members h
  function _ _ h := fitting_body h
  unary _ h := h
  binary _ ha hb := ⟨ha, hb⟩
  conditional ha hb hc := ⟨ha, hb, hc⟩
  assign _ _ hi hv := ⟨fitting_option hi, hv⟩
  sequence h := fitting_exprs h
  member _ _ h := ⟨h, trivial⟩
  computed _ he hk := ⟨he, hk⟩
  call he ha := ⟨he, fitting_exprs ha⟩
  empty := trivial
  breaks := trivial
  continues := trivial
  expr h := ⟨trivial, h⟩
  var h := ⟨trivial, fitting_decls h⟩
  declared _ _ h := ⟨trivial, fitting_body h, trivial⟩
  returns h := ⟨trivial, fitting_option h⟩
  throws h := ⟨trivial, h⟩
  block h := ⟨trivial, fitting_body h⟩
  ifElse hc hb ho := by
    cases ho with
    | none => exact ⟨trivial, hc, hb⟩
    | some h => exact ⟨trivial, hc, hb, h⟩
  forLoop hi hc hu hb := by
    cases hi with
    | none => exact ⟨trivial, fitting_option hc, fitting_option hu, hb⟩
    | var h => exact ⟨trivial, fitting_option hc, fitting_option hu, hb, trivial, fitting_decls h⟩
    | expr h => exact ⟨trivial, fitting_option hc, fitting_option hu, hb, trivial, h⟩
  switch he hc := ⟨trivial, he, fitting_clauses hc⟩
  tryBlock _ hb hf := by
    cases hf with
    | none => exact ⟨trivial, fitting_body hb⟩
    | some h => exact ⟨trivial, fitting_body hb, fitting_body h⟩

end Fitting

/-- The names of parsed statements are among the tokens of the items. -/
theorem statements_fitting {fits : TokenKind → Bool} {ss : List Shape} (hall : Shape.allOf fits ss = true)
    {before : Option Token} {depth k k' : Nat} {body : List Stmt}
    (h : statements (parsersWithin depth) false ⟨before, Item.ofShapes ss⟩ k = (.ok body, k')) :
    bodyAll (fitting fits) body := by
  obtain ⟨_, _, _, -, rfl, hbody, -⟩ := (statements_counted (fun n _ => builds_fitting n)
    (fun n => unburdened_of_fits n _ (by rwa [Item.map_shape_ofShapes])) depth k).of_ok (i := 0) (m := .still before)
    (by rw [Move.still_range, Nat.zero_add]; exact h)
  exact fitting_body hbody

/-! ## Without functions -/

/-- Whether a token is not the word that begins a function. -/
def isNoFunction : TokenKind → Bool
  | .ident name => name != "function"
  | _ => true

/-- Statements without functions that are parsed within some levels are parsed into the same trees
within at least as many, after every token and from every count, and no name is minted. -/
theorem statements_elsewhere {depth depth' : Nat} (hdepth : depth ≤ depth') {ss : List Shape}
    (hall : Shape.allOf isNoFunction ss = true) {before : Option Token} {k k' : Nat} {body : List Stmt}
    (h : statements (parsersWithin depth) false ⟨before, Item.ofShapes ss⟩ k = (.ok body, k')) (l : Nat) :
    statements (parsersWithin depth') false ⟨none, Item.ofShapes ss⟩ l = (.ok body, l) := by
  have hruns := statements_counted (fun n _ => builds_same (s := everyCount isNoFunction n _) ?_)
    (fun n => unburdened_of_fits n _ (by rwa [Item.map_shape_ofShapes])) depth 0
  · obtain ⟨_, _, minted, hnone, rfl, hsame, hall⟩ := hruns.of_ok (i := k) (m := .still before)
      (by rw [Move.still_range]; exact h)
    obtain ⟨stmts, rfl⟩ := agrees_body hsame
    have hthere := hall l (.still none)
    rw [Move.still_range, hnone.resolve_left (by decide)] at hthere
    exact statements_mono hdepth hthere
  · rintro _ (hname | ⟨hname, -⟩)
    · exact hname
    · exact absurd hname (by decide)

end PlayerScript.Ast
