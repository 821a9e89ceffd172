/-
Histories of an interpreter: operations one after another, each of which may succeed or fail. What
holds of the memos at the beginning holds after every history.
-/
import PlayerScript.Proofs.Eval.Tracing

namespace PlayerScript

open Ast Eval

/-- The state in which a computation ends, if it does. -/
def Outcome.state? {α : Type} : Outcome α → Option Machine
  | .done _ m => some m
  | .failed _ m => some m
  | .unfinished => none

theorem state?_ofStep {α : Type} (f : Machine → Except Error α × Machine) (m : Machine) :
    (Eval.ofStep f m).state? = some (f m).2 := by
  unfold Eval.ofStep
  generalize f m = x
  obtain ⟨result, m'⟩ := x
  cases result <;> rfl

/-- What can be done with an interpreter. Layers, arrays and objects can be made beforehand, to hand
them over, and names can be bound in layers. -/
inductive Operation where
  | callFunction (name : String) (args : List Value)
  | call (f : FunctionRef) (args : List Value)
  | extractFunction (name : String)
  | extractObject (name : String)
  | build (params : List String) (body : List Char) (layers : List LayerRef)
  | interpretStatement (code : List Char) (scope : Scope) (budget : Nat)
  | interpretExpression (code : List Char) (scope : Scope) (budget : Nat)
  | addLayer (bindings : Table Value)
  | addArray (items : Array Value)
  | addObject (members : Table Value)
  | bind (l : LayerRef) (name : String) (value : Value)

namespace Operation

/-- The state after an operation, whether it succeeds or fails. -/
def run (p : Program) : Operation → Machine → Option Machine
  | .callFunction name args, m => (p.callFunction name args m).state?
  | .call f args, m => (p.call f args m).state?
  | .extractFunction name, m => some (p.extractFunction name m).2
  | .extractObject name, m => (p.extractObject name m).state?
  | .build params body layers, m => (p.build params body layers m).state?
  | .interpretStatement code scope budget, m => (p.interpretStatement code scope budget m).state?
  | .interpretExpression code scope budget, m => (p.interpretExpression code scope budget m).state?
  | .addLayer t, m => some (m.withStore (m.store.addLayer t).2)
  | .addArray items, m => some (m.withStore (m.store.addArray items).2)
  | .addObject t, m => some (m.withStore (m.store.addObject t).2)
  | .bind l name v, m => some (m.withStore (m.store.bind l name v))

/-- The values that an operation hands over. -/
def inputs : Operation → List Value
  | .callFunction _ args => args
  | .call _ args => args
  | .addLayer t => t.entries.map Prod.snd
  | .addArray items => items.toList
  | .addObject t => t.entries.map Prod.snd
  | .bind _ _ v => [v]
  | _ => []

/-- The state after a history. -/
def runAll (p : Program) : List Operation → Machine → Option Machine
  | [], m => some m
  | op :: rest, m => (op.run p m).bind (runAll p rest)

/-- No operation of a history hands over the object that is known under a name. -/
def KeepBack (p : Program) (name : String) : List Operation → Machine → Prop
  | [], _ => True
  | op :: rest, m => (∀ v ∈ op.inputs, m.MayHold name v) ∧
      ∀ m', op.run p m = some m' → KeepBack p name rest m'

end Operation

/-! ## Operations that keep a discipline -/

/-- A discipline of single runs that keep it whatever code they meet. -/
structure Discipline.Open {p : Program} (d : Discipline p p) : Prop where
  uncut : ¬ d.cut
  same : ∀ {m₁ m₂}, d.Linked m₁ m₂ → m₁ = m₂
  names : ∀ name, d.allowed.name name
  bodies : ∀ stmts, bodyAll d.allowed stmts
  layers : ∀ m l, d.Layer m l
  mint : ∀ {m k}, m.minted ≤ k → d.Linked m m →
    d.Linked { m with minted := k } { m with minted := k } ∧ d.Later m { m with minted := k }

namespace Discipline.Open

open Relations

variable {p : Program} {d : Discipline p p} (hd : d.Open) {m m' : Machine}
include hd

theorem linked_of_keeps {s₁ s₂ : Store} (h : d.Keeps m m s₁ s₂) :
    d.Linked (m.withStore s₁) (m.withStore s₁) ∧ d.Later m (m.withStore s₁) := by
  have hlinked := h.linked
  rw [← hd.same hlinked] at hlinked
  exact ⟨hlinked, h.later⟩

theorem of_matches {α : Type} {Q : Machine → α → Prop} {o₁ o₂ : Outcome α} (h : d.Matches m Q o₁ o₂)
    (hend : o₁.state? = some m') : d.Linked m' m' ∧ d.Later m m' := by
  cases h with
  | done linked later _ =>
    cases hend
    obtain rfl := hd.same linked
    exact ⟨linked, later⟩
  | failed _ linked later =>
    cases hend
    obtain rfl := hd.same linked
    exact ⟨linked, later⟩
  | unfinished => cases hend
  | cut hcut => exact absurd hcut hd.uncut

variable (hl : d.Linked m m)
include hl

theorem steps_parse (code : List Char) :
    d.Steps m (fun _ stmts => bodyAll d.allowed stmts) (p.parse code m) (p.parse code m) := by
  have hminted := hd.mint (le_parseStatements code p.options.maxNesting m.minted) hl
  unfold Program.parse
  generalize parseStatements code p.options.maxNesting m.minted = x at hminted
  obtain ⟨result, minted⟩ := x
  cases result with
  | ok stmts => exact .ok hminted.1 hminted.2 (hd.bodies stmts)
  | error e => exact .error (d.fails_refl e) hminted.1 hminted.2

theorem compile (name : String) (code : Source.FunctionCode) (captured : Scope) :
    d.Linked (p.compile name code captured m).2 (p.compile name code captured m).2 ∧
      d.Later m (p.compile name code captured m).2 := by
  have hparsed := hd.steps_parse hl code.body
  unfold Program.compile
  generalize p.parse code.body m = x at hparsed
  cases hparsed with
  | error _ linked later => exact ⟨linked, later⟩
  | @ok body n _ linked later hbody =>
    obtain ⟨-, hkeeps, -⟩ := d.addClosure (c := ⟨⟨name, code.params, body⟩, captured⟩) linked
      (fun l _ => hd.layers n l) hbody
    obtain ⟨hlinked, hlater⟩ := hd.linked_of_keeps hkeeps
    exact ⟨hlinked, d.later_trans later hlater⟩

theorem build (params : List String) (body : List Char) (layers : List LayerRef)
    (hend : (p.build params body layers m).state? = some m') : d.Linked m' m' ∧ d.Later m m' := by
  -- The scope of the function may need a layer, then a name is minted, and the code is compiled.
  have hlayers : d.Linked (m.withStore (Scope.ofLayers m.store layers).2)
      (m.withStore (Scope.ofLayers m.store layers).2) ∧
      d.Later m (m.withStore (Scope.ofLayers m.store layers).2) := by
    cases layers with
    | nil => exact hd.linked_of_keeps (d.addLayer hl (List.forall_mem_nil _)).2.1
    | cons l rest => exact ⟨hl, d.later_refl m⟩
  obtain ⟨hminted, hlater⟩ := hd.mint (m := m.withStore (Scope.ofLayers m.store layers).2)
    (Nat.le_add_right m.minted 1) hlayers.1
  have hcompiled := hd.compile hminted (syntheticName (m.minted + 1)) ⟨params, body⟩
    (Scope.ofLayers m.store layers).1
  have hstate := state?_ofStep (p.compile (syntheticName (m.minted + 1)) ⟨params, body⟩
    (Scope.ofLayers m.store layers).1)
    { m.withStore (Scope.ofLayers m.store layers).2 with minted := m.minted + 1 }
  obtain rfl := Option.some.inj (hend.symm.trans hstate)
  exact ⟨hcompiled.1, d.later_trans (d.later_trans hlayers.2 hlater) hcompiled.2⟩

/-- Every operation keeps the discipline if what it hands over may be held. -/
theorem operation (op : Operation) (hinputs : ∀ v ∈ op.inputs, d.Val m v)
    (hcalled : ∀ f args, op = .call f args → d.Val m (.function f)) (hend : op.run p m = some m') :
    d.Linked m' m' ∧ d.Later m m' := by
  have huncleaned : d.Uncleaned := fun _ _ _ hcut => absurd hcut hd.uncut
  have hlayers : ∀ scope, d.InScope m scope := fun _ l _ => hd.layers m l
  cases op with
  | callFunction name args =>
    exact hd.of_matches (matches_callFunction huncleaned rfl hl hinputs (hd.names name)) hend
  | call f args => exact hd.of_matches (matches_call huncleaned rfl hl (hcalled f args rfl) hinputs) hend
  | extractFunction name =>
    exact hd.of_matches (d.matches_ofStep (d.extractFunction hl name (hd.names name)))
      ((state?_ofStep (p.extractFunction name) m).trans hend)
  | extractObject name => exact hd.of_matches (matches_extractObject hl (hd.names name)) hend
  | build params body layers => exact hd.build hl params body layers hend
  | interpretStatement code scope budget =>
    exact hd.of_matches (matches_interpretStatement huncleaned (Nat.le_refl budget) (fun _ => rfl)
      (hlayers scope) (hd.steps_parse hl code)) hend
  | interpretExpression code scope budget =>
    exact hd.of_matches (matches_interpretExpression huncleaned (hlayers scope) (hd.steps_parse hl code)) hend
  | addLayer t =>
    cases hend
    exact hd.linked_of_keeps (d.addLayer hl fun e he => hinputs e.2 (List.mem_map_of_mem he)).2.1
  | addArray items =>
    cases hend
    exact hd.linked_of_keeps (d.addArray hl fun v hv => hinputs v (Array.mem_toList_iff.2 hv)).2.1
  | addObject t =>
    cases hend
    exact hd.linked_of_keeps (d.addObject hl fun e he => hinputs e.2 (List.mem_map_of_mem he)).2.1
  | bind l name v =>
    cases hend
    exact hd.linked_of_keeps (d.bind hl (hd.layers m l) (hinputs v List.mem_cons_self) name)

end Discipline.Open

namespace Traced

variable {p : Program} {kept : Option String} {m m' : Machine}

theorem open_discipline (p : Program) (kept : Option String) : (discipline p kept).Open where
  uncut := id
  same h := h.1
  names _ := trivial
  bodies := bodyAll_true
  layers _ _ := trivial
  mint _ h := by
    obtain ⟨htraced, hlasts⟩ := h.2.grown (.mint _ _)
    exact ⟨⟨rfl, htraced⟩, hlasts⟩

/-- Every operation keeps the memos traced if it does not hand over the object that is kept back. -/
theorem operation (h : Traced p kept m) (op : Operation)
    (hinputs : ∀ v ∈ op.inputs, ∀ name ∈ kept, m.MayHold name v) (hend : op.run p m = some m') :
    Traced p kept m' ∧ Lasts kept m m' := by
  obtain ⟨hlinked, hlasts⟩ := (open_discipline p kept).operation ⟨rfl, h⟩ op hinputs
    (fun _ _ _ _ _ => mayHold_plain (by simp)) hend
  exact ⟨hlinked.2, hlasts⟩

end Traced

/-- What every operation of a history keeps, the history keeps. -/
theorem Traced.runAll {p : Program} {kept : Option String} :
    ∀ {history : List Operation} {m m' : Machine}, Traced p kept m →
    (∀ name ∈ kept, Operation.KeepBack p name history m) →
    Operation.runAll p history m = some m' → Traced p kept m' ∧ Lasts kept m m'
  | [], m, _, h, _, hend => by
    cases hend
    exact ⟨h, .refl kept m⟩
  | op :: rest, m, m', h, hkeep, hend => by
    obtain ⟨n, hop, hrest⟩ := Option.bind_eq_some_iff.1 hend
    obtain ⟨htraced, hlasts⟩ :=
      h.operation op (fun v hv name hname => (hkeep name hname).1 v hv) hop
    obtain ⟨htraced', hlasts'⟩ :=
      htraced.runAll (fun name hname => (hkeep name hname).2 n hop) hrest
    exact ⟨htraced', hlasts.trans hlasts'⟩

/-! ## Beginnings -/

/-- Every object that a cell refers to exists. -/
def Store.NoDangling (s : Store) : Prop := ∀ a o, s.Refers a (.object o) → s.Has (.object o)

/-- The store of a new interpreter has nothing in it but the empty layer of globals. -/
theorem Store.noDangling_initial : Store.initial.NoDangling := by
  intro a o h
  cases h with
  | @binding l e _ he _ =>
    have hlayer : Store.initial.layer l = Table.empty := by
      unfold Store.layer Store.initial
      rw [Arena.get?_push]
      split <;> rfl
    rw [hlayer] at he
    cases he
  | element hv _ => cases hv with
    | mk hv => cases hv
  | member he _ => cases he

/-- A new interpreter has no functions in its memo, and only the objects it was made with. -/
theorem traced_initial (p : Program) {kept : Option String} {store : Store} {seeded : Table Value}
    (hname : ∀ name ∈ kept, seeded.get? name = none) (hstore : ∀ name ∈ kept, store.NoDangling) :
    Traced p kept (.initial store seeded) := by
  have hmay : ∀ name ∈ kept, ∀ {a : Node} {v : Value},
      (∀ n, v.node? = some n → store.Refers a n) →
      (Machine.initial store seeded).MayHold name v := by
    rintro name hkept a v hrefers o rfl
    refine ⟨hstore name hkept a o (hrefers _ rfl), fun hget => ?_⟩
    rw [Machine.initial, hname name hkept] at hget
    cases hget
  constructor
  · intro name f hf
    cases hf
  · intro name hkept v hv
    rw [Machine.initial, hname name hkept] at hv
    cases hv
  · intro name hkept i t ht e he
    exact hmay name hkept fun n hn => .binding (Store.layer_of_get? ht ▸ he) hn
  · intro name hkept i items hi v hv
    exact hmay name hkept fun n hn => .element (Store.elements_of_get? hi ▸ hv) hn
  · intro name hkept i t ht e he
    exact hmay name hkept fun n hn => .member (Store.members_of_get? ht ▸ he) hn

end PlayerScript
