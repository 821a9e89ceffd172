/-
Runs touch only what they can reach. A layer, an array or an object that cannot be reached from the
layers and values a run starts with, from the layer of globals or from the memos is neither changed
nor read, and cannot be reached afterwards either, from the result included.
-/
import PlayerScript.Proofs.Eval.Region

namespace PlayerScript

open Ast Eval

/-- Two states that differ at most in the contents of cells outside of a set. -/
structure Machine.AgreeOn (G : Node → Prop) (m₁ m₂ : Machine) : Prop where
  has_iff : ∀ n, m₁.store.Has n ↔ m₂.store.Has n
  functions : m₁.functions = m₂.functions
  objects : m₁.objects = m₂.objects
  minted : m₁.minted = m₂.minted
  sameAt : ∀ n, G n → m₁.store.SameAt m₂.store n

/-! ## The region of what can be reached -/

namespace Region

variable {p : Program} {r : Region p} {m₁ m₂ : Machine} {layers : List LayerRef}
  {values : List Value}

theorem sameAt_inside (hl : r.Linked m₁ m₂) {n : Node} (h : r.cells n) :
    m₁.store.SameAt m₂.store n := by
  cases n with
  | layer l => exact hl.layers.agree _ h
  | array a => exact hl.arrays.agree _ h
  | object o => exact hl.objects.agree _ h
  | function f => exact hl.closures.agree _ h

theorem sameAt_first (hl : r.Linked m₁ m₂) {n : Node} (h : ¬ r.cells n) :
    r.first.store.SameAt m₁.store n := by
  cases n with
  | layer l => exact (hl.layers.first _ h).symm
  | array a => exact (hl.arrays.first _ h).symm
  | object o => exact (hl.objects.first _ h).symm
  | function f => exact (hl.closures.first _ h).symm

theorem sameAt_second (hl : r.Linked m₁ m₂) {n : Node} (h : ¬ r.cells n) :
    r.second.store.SameAt m₂.store n := by
  cases n with
  | layer l => exact (hl.layers.second _ h).symm
  | array a => exact (hl.arrays.second _ h).symm
  | object o => exact (hl.objects.second _ h).symm
  | function f => exact (hl.closures.second _ h).symm

theorem has_iff (hl : r.Linked m₁ m₂) (n : Node) : m₁.store.Has n ↔ m₂.store.Has n := by
  cases n with
  | layer l => rw [Store.Has, Store.Has, hl.layers.size]
  | array a => rw [Store.Has, Store.Has, hl.arrays.size]
  | object o => rw [Store.Has, Store.Has, hl.objects.size]
  | function f => rw [Store.Has, Store.Has, hl.closures.size]

/-- What can be reached from some layers and values in a state, together with all cells that are
yet to be added to it. -/
def around (rules : Rules p) (m₁ m₂ : Machine) (layers : List LayerRef) (values : List Value) :
    Region p where
  toRules := rules
  cells n := m₁.Reaches layers values n ∨ ¬ m₁.store.Has n
  first := m₁
  second := m₂
  globals := .inl .globals
  fresh _ h := .inr h

theorem size_eq_of_lt_iff {a b : Nat} (h : ∀ i, i < a ↔ i < b) : a = b := by
  have := h a
  have := h b
  omega

/-- Two states that agree on what can be reached are linked by the region around it. -/
theorem linked_around (rules : Rules p) (h : m₁.AgreeOn (m₁.Reaches layers values) m₂)
    (hcode : ∀ f, m₁.Reaches layers values (.function f) →
      bodyAll rules.allowed (m₁.store.closure f).definition.body) :
    (around rules m₁ m₂ layers values).Linked m₁ m₂ := by
  -- A cell of the region that exists can be reached.
  have hreached : ∀ {n}, m₁.store.Has n → (around rules m₁ m₂ layers values).cells n →
      m₁.Reaches layers values n := fun hhas hcells => hcells.resolve_right (not_not_intro hhas)
  have hstep : ∀ {a : Node} {v : Value}, m₁.Reaches layers values a →
      (∀ n, v.node? = some n → m₁.store.Refers a n) →
      (around rules m₁ m₂ layers values).Inside v :=
    fun ha hrefers n hn => .inl (ha.step (hrefers n hn))
  constructor
  · refine .start (size_eq_of_lt_iff fun i => h.has_iff (.layer ⟨i⟩))
      (fun i hi hcell => h.sameAt (.layer ⟨i⟩) (hreached hi hcell)) fun i t hcell ht e he => ?_
    refine hstep (hreached (n := .layer ⟨i⟩) (Arena.lt_size_of_get? ht) hcell) fun n hn => ?_
    exact .binding (Store.layer_of_get? ht ▸ he) hn
  · refine .start (size_eq_of_lt_iff fun i => h.has_iff (.array ⟨i⟩))
      (fun i hi hcell => h.sameAt (.array ⟨i⟩) (hreached hi hcell)) fun i items hcell hi v hv => ?_
    refine hstep (hreached (n := .array ⟨i⟩) (Arena.lt_size_of_get? hi) hcell) fun n hn => ?_
    exact .element (Store.elements_of_get? hi ▸ hv) hn
  · refine .start (size_eq_of_lt_iff fun i => h.has_iff (.object ⟨i⟩))
      (fun i hi hcell => h.sameAt (.object ⟨i⟩) (hreached hi hcell)) fun i t hcell ht e he => ?_
    refine hstep (hreached (n := .object ⟨i⟩) (Arena.lt_size_of_get? ht) hcell) fun n hn => ?_
    exact .member (Store.members_of_get? ht ▸ he) hn
  · refine .start (size_eq_of_lt_iff fun i => h.has_iff (.function ⟨i⟩))
      (fun i hi hcell => h.sameAt (.function ⟨i⟩) (hreached hi hcell)) fun i c hcell hc => ?_
    have hf := hreached (n := .function ⟨i⟩) (Arena.lt_size_of_get? hc) hcell
    have hclosure : m₁.store.closure ⟨i⟩ = c := Store.closure_of_get? hc
    refine ⟨fun l hm => .inl (hf.step (.captured (hclosure ▸ hm))), ?_⟩
    rw [← hclosure]
    exact hcode _ hf
  · exact h.functions
  · exact h.objects
  · exact h.minted
  · exact fun e he => .inl (.function he)
  · exact fun e he n hn => .inl (.object he hn)

theorem steps_parse (hl : r.Linked m₁ m₂) {code : List Char}
    (hcode : ∀ stmts, (p.parse code m₁).1 = .ok stmts → bodyAll r.allowed stmts) :
    r.relations.Steps m₁ (fun _ stmts => bodyAll r.allowed stmts) (p.parse code m₁)
      (p.parse code m₂) := by
  unfold Program.parse at hcode ⊢
  rw [← hl.minted]
  generalize parseStatements code p.options.maxNesting m₁.minted = parsed at hcode
  obtain ⟨result, minted⟩ := parsed
  cases result with
  | error e => exact .error rfl (linked_mint hl minted) trivial
  | ok stmts => exact .ok (linked_mint hl minted) trivial (hcode stmts rfl)

end Region

/-- All statements may be run, and no run is cut off. -/
def Rules.all (p : Program) : Rules p where
  cut := False
  loops := True
  allowed := fun _ => True
  no_cleanup := fun h _ => h
  loop := fun _ => trivial
  source := fun _ _ body _ => bodyAll_true body

/-! ## Confinement -/

/-- Two outcomes with the same result or the same error, in states that agree on a set of cells. -/
inductive Outcome.Same {α : Type} (G : Node → Prop) : Outcome α → Outcome α → Prop
  | done {a : α} {m₁ m₂ : Machine} : m₁.AgreeOn G m₂ → Same G (.done a m₁) (.done a m₂)
  | failed {e : Error} {m₁ m₂ : Machine} : m₁.AgreeOn G m₂ → Same G (.failed e m₁) (.failed e m₂)
  | unfinished : Same G .unfinished .unfinished

/-- A cell that exists and cannot be reached from some layers and values keeps its contents, and
cannot be reached in the later state from the same layers and the values there. -/
def Machine.Untouched (m m' : Machine) (layers : List LayerRef) (values values' : List Value) : Prop :=
  ∀ n, m.store.Has n → ¬ m.Reaches layers values n →
    m.store.SameAt m'.store n ∧ ¬ m'.Reaches layers values' n

/-- A computation that, started with some layers and values, touches only what can be reached from
them: nothing else is changed or comes within reach, whether it ends with a result or an error, and
nothing else is read, so that it goes the same way whatever else there is. -/
structure Confined {α : Type} (run : Eval α) (returned : α → Value) (m : Machine)
    (layers : List LayerRef) (values : List Value) : Prop where
  done : ∀ {a m'}, run m = .done a m' → m.Untouched m' layers values (returned a :: values)
  failed : ∀ {e m'}, run m = .failed e m' → m.Untouched m' layers values values
  unread : ∀ {G m₂}, (∀ n, m.Reaches layers values n → G n) → m.AgreeOn G m₂ →
    Outcome.Same (fun n => G n ∨ ¬ m.store.Has n) (run m) (run m₂)

section

variable {p : Program} {m n₁ n₂ m₂ : Machine} {layers : List LayerRef} {values : List Value}

theorem Machine.AgreeOn.mono {G H : Node → Prop} (h : m.AgreeOn G m₂) (hsub : ∀ n, H n → G n) :
    m.AgreeOn H m₂ :=
  { h with sameAt := fun n hn => h.sameAt n (hsub n hn) }

theorem Machine.agreeOn_refl (G : Node → Prop) (m : Machine) : m.AgreeOn G m :=
  ⟨fun _ => Iff.rfl, rfl, rfl, rfl, fun n _ => m.store.sameAt_refl n⟩

theorem untouched_of_linked {rules : Rules p} {values' : List Value}
    (hl : (Region.around rules m m₂ layers values).Linked n₁ n₂)
    (hvalues : ∀ v ∈ values', (Region.around rules m m₂ layers values).Inside v) :
    m.Untouched n₁ layers values values' := by
  intro n hhas hunreached
  have hout : ¬ (Region.around rules m m₂ layers values).cells n :=
    fun h => h.elim hunreached (fun h => h hhas)
  refine ⟨Region.sameAt_first hl hout, fun h => hout ?_⟩
  exact Region.reaches_inside hl (fun l hm => .inl (.layer hm)) hvalues h

theorem agreeOn_of_linked {rules : Rules p} {G : Node → Prop} (hagree : m.AgreeOn G m₂)
    (hl : (Region.around rules m m₂ layers values).Linked n₁ n₂) :
    n₁.AgreeOn (fun n => G n ∨ ¬ m.store.Has n) n₂ := by
  refine ⟨Region.has_iff hl, hl.functions, hl.known, hl.minted, fun n hn => ?_⟩
  by_cases hcell : (Region.around rules m m₂ layers values).cells n
  · exact Region.sameAt_inside hl hcell
  · -- Outside of the region both states are as they were at the beginning.
    have hfirst := Region.sameAt_first hl hcell
    have hsecond := Region.sameAt_second hl hcell
    have hstart := hagree.sameAt n (hn.resolve_right fun h => hcell (.inr h))
    exact (hfirst.symm.trans hstart).trans hsecond

/-- A computation that keeps the discipline of every region around its starting point is
confined. -/
theorem confined_of_matches {α : Type} {run : Eval α} {returned : α → Value}
    (h : ∀ m₂, (Region.around (Rules.all p) m m₂ layers values).Linked m m₂ →
      (Region.around (Rules.all p) m m₂ layers values).discipline.Matches m
        (fun _ a => (Region.around (Rules.all p) m m₂ layers values).Inside (returned a))
        (run m) (run m₂)) :
    Confined run returned m layers values := by
  have hlinked : ∀ {m₂}, m.AgreeOn (m.Reaches layers values) m₂ →
      (Region.around (Rules.all p) m m₂ layers values).Linked m m₂ :=
    fun hagree => Region.linked_around (Rules.all p) hagree fun _ _ => bodyAll_true _
  have hinside : ∀ v ∈ values, (Region.around (Rules.all p) m m layers values).Inside v :=
    fun v hv n hn => .inl (.value hv hn)
  have hself := h m (hlinked (m.agreeOn_refl _))
  constructor
  · intro a m' hrun
    rw [hrun] at hself
    cases hself with
    | done linked _ result =>
      exact untouched_of_linked linked (List.forall_mem_cons.2 ⟨result, hinside⟩)
  · intro e m' hrun
    rw [hrun] at hself
    cases hself with
    | failed _ linked _ => exact untouched_of_linked linked hinside
    | cut hcut => exact hcut.elim
  · intro G m₂ hsub hagree
    have hmatches := h m₂ (hlinked (hagree.mono hsub))
    generalize run m = o₁ at hmatches
    generalize run m₂ = o₂ at hmatches
    cases hmatches with
    | done linked _ _ => exact .done (agreeOn_of_linked hagree linked)
    | failed errors linked _ =>
      obtain rfl : _ = _ := errors
      exact .failed (agreeOn_of_linked hagree linked)
    | unfinished => exact .unfinished
    | cut hcut => exact hcut.elim

theorem confined_invoke (p : Program) (m : Machine) (f : FunctionRef) (args : List Value)
    (budget : Nat) :
    Confined (invoke (evaluators p Program.maxRounds budget) f args []) id m []
      (.function f :: args) := by
  refine confined_of_matches (p := p) fun m₂ hl => ?_
  have hinside : ∀ v ∈ .function f :: args,
      (Region.around (Rules.all p) m m₂ [] (.function f :: args)).Inside v :=
    fun v hv n hn => .inl (.value hv hn)
  rw [List.forall_mem_cons] at hinside
  have hparts := (Region.around (Rules.all p) m m₂ [] (.function f :: args)).discipline.parts_evaluators
    Region.uncleaned Program.maxRounds (Nat.le_refl budget) fun _ => rfl
  exact Discipline.matches_invoke hparts hl hinside.1 hinside.2 (List.forall_mem_nil _)

theorem confined_interpretStatement (p : Program) (m : Machine) (code : List Char) (scope : Scope)
    (budget : Nat) :
    Confined (p.interpretStatement code scope budget) Prod.fst m scope.layers [] := by
  refine confined_of_matches (p := p) fun m₂ hl => ?_
  exact Discipline.matches_interpretStatement Region.uncleaned (Nat.le_refl budget) (fun _ => rfl)
    (fun l hm => .inl (.layer hm)) (Region.steps_parse hl fun stmts _ => bodyAll_true stmts)

/-! ## Layers of parameters -/

/-- The layer in which a call binds its parameters. -/
def parameterLayer (f : FunctionRef) (args : List Value) (m : Machine) : LayerRef :=
  let closure := m.store.closure f
  (closure.captured.child m.store (bindings closure.definition.params args [] Table.empty)).1.innermost

/-- A layer is neither changed nor read by a computation. -/
structure Unaffected {α : Type} (run : Eval α) (m : Machine) (l : LayerRef) : Prop where
  done : ∀ {a m'}, run m = .done a m' → m.store.SameAt m'.store (.layer l)
  failed : ∀ {e m'}, run m = .failed e m' → m.store.SameAt m'.store (.layer l)
  unread : ∀ {m₂}, m.AgreeOn (· ≠ .layer l) m₂ → Outcome.Same (· ≠ .layer l) (run m) (run m₂)

omit p in
/-- A confined computation does not affect a layer that it does not start with and that no function
within its reach closed over. -/
theorem Confined.unaffected {α : Type} {run : Eval α} {returned : α → Value}
    (h : Confined run returned m layers values) {l : LayerRef} (hhas : m.store.Has (.layer l))
    (hglobals : l ≠ LayerRef.globals) (hlayers : l ∉ layers)
    (hcaptured : ∀ f, m.Reaches layers values (.function f) →
      l ∉ (m.store.closure f).captured.layers) : Unaffected run m l := by
  have hunreached : ¬ m.Reaches layers values (.layer l) := by
    intro hreach
    rcases hreach.layer_cases with hmem | heq | ⟨f, hf, hmem⟩
    · exact hlayers hmem
    · exact hglobals heq
    · exact hcaptured f hf hmem
  constructor
  · exact fun hrun => (h.done hrun _ hhas hunreached).1
  · exact fun hrun => (h.failed hrun _ hhas hunreached).1
  · intro m₂ hagree
    have hsame := h.unread (G := (· ≠ .layer l)) (fun n hn heq => hunreached (heq ▸ hn)) hagree
    have hsub : ∀ n : Node, n ≠ .layer l → n ≠ .layer l ∨ ¬ m.store.Has n := fun _ hn => .inl hn
    generalize run m = o₁ at hsame
    generalize run m₂ = o₂ at hsame
    cases hsame with
    | done hagree => exact .done (hagree.mono hsub)
    | failed hagree => exact .failed (hagree.mono hsub)
    | unfinished => exact .unfinished

end

/-- Calls and code in a scope touch only what they can reach. In particular a call does not affect
the layer in which another call, made earlier, bound its parameters, unless a function within its
reach closed over that layer. -/
theorem runs_confined (p : Program) (m : Machine) (budget : Nat) :
    (∀ f args, Confined (invoke (evaluators p Program.maxRounds budget) f args []) id m []
      (.function f :: args)) ∧
    (∀ code scope, Confined (p.interpretStatement code scope budget) Prod.fst m scope.layers []) ∧
    ∀ earlier g args₀ f args, earlier.store.Has (.layer LayerRef.globals) →
      m.store.Has (.layer (parameterLayer g args₀ earlier)) →
      (∀ f', m.Reaches [] (.function f :: args) (.function f') →
        parameterLayer g args₀ earlier ∉ (m.store.closure f').captured.layers) →
      Unaffected (invoke (evaluators p Program.maxRounds budget) f args []) m
        (parameterLayer g args₀ earlier) := by
  refine ⟨fun f args => confined_invoke p m f args budget,
    fun code scope => confined_interpretStatement p m code scope budget, ?_⟩
  intro earlier g args₀ f args hglobals hhas hcaptured
  have hne : parameterLayer g args₀ earlier ≠ LayerRef.globals := by
    intro h
    have hsize : earlier.store.layers.size = 0 := congrArg LayerRef.index h
    exact absurd hglobals (by simp [Store.Has, hsize])
  exact (confined_invoke p m f args budget).unaffected hhas hne List.not_mem_nil hcaptured

/-- A state after a call whose parameters were bound in the second layer. The function in it assigns
its argument to a global variable. -/
def sampleState : Machine where
  store := {
    layers := ⟨#[Table.empty, ⟨[("a", .string "old")]⟩]⟩
    arrays := Arena.empty
    objects := Arena.empty
    closures := ⟨#[⟨⟨"f", ["a"], [.returns (some (.assign "x" none none (.ident "a")))]⟩,
      Program.globalScope⟩]⟩ }
  functions := ⟨[("f", ⟨0⟩)]⟩
  objects := Table.empty
  minted := 0

theorem reaches_sampleState {layers : List LayerRef} {values : List Value}
    (hlayers : ∀ l ∈ layers, l = LayerRef.globals)
    (hvalues : ∀ v ∈ values, ∀ n, v.node? = some n → n = .function ⟨0⟩) {n : Node}
    (h : sampleState.Reaches layers values n) :
    n = .layer LayerRef.globals ∨ n = .function ⟨0⟩ := by
  refine h.inside (G := fun n => n = .layer LayerRef.globals ∨ n = .function ⟨0⟩)
    (fun l hl => .inl (congrArg Node.layer (hlayers l hl))) (fun v hv n hn => .inr (hvalues v hv n hn))
    (.inl rfl) ?_ (by simp [sampleState, Table.empty]) ?_
  · simp [sampleState]
  · rintro a b (rfl | rfl) href
    · cases href with
      | binding he _ => exact absurd he List.not_mem_nil
    · cases href with
      | captured hm => exact .inl (congrArg Node.layer (List.mem_singleton.1 hm))

theorem runs_confined_sample :
    (∃ m', invoke (evaluators ⟨[], .standard⟩ Program.maxRounds 5) ⟨0⟩ [.string "new"] [] sampleState =
        .done (.string "new") m' ∧
      m'.store.layer LayerRef.globals = ⟨[("x", .string "new")]⟩ ∧
      sampleState.store.SameAt m'.store (.layer ⟨1⟩) ∧
      ¬ m'.Reaches [] [.string "new", .function ⟨0⟩, .string "new"] (.layer ⟨1⟩)) ∧
    Unaffected (invoke (evaluators ⟨[], .standard⟩ Program.maxRounds 5) ⟨0⟩ [.string "new"] [])
      sampleState (parameterLayer ⟨0⟩ [.string "old"] (.initial .initial Table.empty)) := by
  have hconfined := runs_confined ⟨[], .standard⟩ sampleState 5
  have hreached : ∀ {n}, sampleState.Reaches [] [.function ⟨0⟩, .string "new"] n →
      n = .layer LayerRef.globals ∨ n = .function ⟨0⟩ :=
    fun h => reaches_sampleState (by simp) (by simp [Value.node?]) h
  refine ⟨⟨_, rfl, rfl, ?_⟩, hconfined.2.2 _ _ _ _ _ (by decide) (by decide) ?_⟩
  · refine (hconfined.1 ⟨0⟩ [.string "new"]).done rfl (.layer ⟨1⟩) (by decide) fun h => ?_
    rcases hreached h with h | h <;> cases h
  · intro f' hf'
    rcases hreached hf' with h | h
    · cases h
    · cases h
      decide

end PlayerScript
