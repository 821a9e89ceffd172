/-
Evaluating an expression without effects a second time. The second evaluation begins where the first one
ended, and retraces it step by step: what the first one made new, the second one makes new again in other
cells, and an object that the first one took out of the source is the one that the second one knows
already. So the two results differ in nothing but the cells of what is new.
-/
import PlayerScript.Proofs.Eval.Effectless
import PlayerScript.Proofs.Eval.References
import PlayerScript.Proofs.Value.Renaming

namespace PlayerScript

open Ast Eval

variable {v w : Value} {t u : Table Value} {property : Property}

/-! ## Two evaluations -/

/-- The first evaluation has come from `m` to `s₁` on its way to `n`, and the second one has come from `n`
to `s₂`, where it finds all that the first one has made. What there was in `m` and the objects known by name
are the same cells for both. An object in another cell is in one that the first evaluation does not
have. -/
structure Retraces (p : Program) (m n : Machine) (ρ : Renaming) (s₁ s₂ : Machine) : Prop where
  origin : m.Closed
  base : m.Preserved p s₁
  ahead : s₁.Preserved p n
  beyond : n.Preserved p s₂
  closed : s₁.Closed
  renames : s₁.store.Renames ρ s₂.store
  fixed : ∀ v : Value, v.ExistsIn m.store → v.rename ρ = v
  known : ∀ name v, s₁.objects.get? name = some v → v.rename ρ = v
  moved : ∀ o, s₁.store.Has (.object o) → ρ.object o = o ∨ ¬ n.store.Has (.object (ρ.object o))

namespace Retraces

variable {p : Program} {m n s₁ s₂ : Machine} {ρ : Renaming}

/-- The second evaluation begins in the state in which the first one ends. -/
theorem start (hm : m.Closed) (h : m.Preserved p n) : Retraces p m n .id m n :=
  ⟨hm, .refl m, h, .refl n, hm, .of_extends h.store, fun v _ => v.rename_id, fun _ v _ => v.rename_id,
    fun _ _ => .inl rfl⟩

variable (h : Retraces p m n ρ s₁ s₂)
include h

theorem preserved : s₁.Preserved p s₂ := h.ahead.trans h.beyond

theorem known_exists {name : String} (hv : s₁.objects.get? name = some v) :
    v.ExistsIn s₁.store := by
  obtain ⟨e, he, rfl⟩ := Table.mem_of_get? hv
  exact h.closed.known e he

/-- A name reads as something that there was before the first evaluation. -/
theorem scope_get (scope : Scope) (name : String) :
    (scope.get s₁.store name).ExistsIn s₁.store ∧
      scope.get s₂.store name = (scope.get s₁.store name).rename ρ := by
  have hexists := h.origin.scope_get scope name
  rw [h.preserved.store.scope_get, h.base.store.scope_get]
  exact ⟨hexists.of_has fun _ => h.base.store.has, (h.fixed _ hexists).symm⟩

/-- With a renaming that gives the same cells to what there is, the second evaluation still finds the same
under old names. -/
theorem fixed_of_agree {σ : Renaming} (hagree : ρ.AgreesOn s₁.store σ) (v : Value) (hv : v.ExistsIn m.store) :
    v.rename σ = v := by
  rw [hagree v (hv.of_has fun _ => h.base.store.has), h.fixed v hv]

theorem known_of_agree {σ : Renaming} (hagree : ρ.AgreesOn s₁.store σ) (name : String) (v : Value)
    (hv : s₁.objects.get? name = some v) : v.rename σ = v := by
  rw [hagree v (h.known_exists hv), h.known name v hv]

/-- Both evaluations make a new array. -/
theorem addArray {items : Array Value} (hi : ∀ v ∈ items, v.ExistsIn s₁.store)
    (hahead : (s₁.withStore (s₁.store.addArray items).2).Preserved p n) :
    Retraces p m n (ρ.setArray ⟨s₁.store.arrays.size⟩ ⟨s₂.store.arrays.size⟩)
      (s₁.withStore (s₁.store.addArray items).2)
      (s₂.withStore (s₂.store.addArray (items.map (Value.rename ρ))).2) := by
  have hagree : ρ.AgreesOn s₁.store (ρ.setArray ⟨s₁.store.arrays.size⟩ ⟨s₂.store.arrays.size⟩) :=
    Renaming.agreesOn_setArray (Nat.lt_irrefl _) _
  have hnew := ρ.array_setArray_self ⟨s₁.store.arrays.size⟩ ⟨s₂.store.arrays.size⟩
  have hrenames := (h.renames.of_agree h.closed hagree).extends_right
    (.addArray s₂.store (items.map (Value.rename ρ)))
  refine ⟨h.origin, h.base.trans (.withStore (.addArray _ _)), hahead,
    h.beyond.trans (.withStore (.addArray _ _)), h.closed.addArray hi, hrenames.addArray ?_ ?_ ?_,
    h.fixed_of_agree hagree, h.known_of_agree hagree, h.moved⟩
  · rw [hnew]
    simp [Store.Has, Store.addArray]
  · rw [hnew, Store.elements_addArray]
    exact Array.map_congr_left fun v hv => (hagree v (hi v hv)).symm
  · intro a ha heq
    rw [hnew, Value.array.inj (hagree (.array a) (.array ha))] at heq
    have hhas := (h.renames.array a ha).1
    rw [heq] at hhas
    exact Nat.lt_irrefl _ hhas

/-- Both evaluations make a new object. -/
theorem addObject {members : Table Value} (hmembers : members.ExistsIn s₁.store)
    (hahead : (s₁.withStore (s₁.store.addObject members).2).Preserved p n) :
    Retraces p m n (ρ.setObject ⟨s₁.store.objects.size⟩ ⟨s₂.store.objects.size⟩)
      (s₁.withStore (s₁.store.addObject members).2)
      (s₂.withStore (s₂.store.addObject (members.map (Value.rename ρ))).2) := by
  have hagree : ρ.AgreesOn s₁.store (ρ.setObject ⟨s₁.store.objects.size⟩ ⟨s₂.store.objects.size⟩) :=
    Renaming.agreesOn_setObject (Nat.lt_irrefl _) _
  have hnew := ρ.object_setObject_self ⟨s₁.store.objects.size⟩ ⟨s₂.store.objects.size⟩
  have hrenames := (h.renames.of_agree h.closed hagree).extends_right
    (.addObject s₂.store (members.map (Value.rename ρ)))
  refine ⟨h.origin, h.base.trans (.withStore (.addObject _ _)), hahead,
    h.beyond.trans (.withStore (.addObject _ _)), h.closed.addObject hmembers, hrenames.addObject ?_ ?_ ?_,
    h.fixed_of_agree hagree, h.known_of_agree hagree, ?_⟩
  · rw [hnew]
    simp [Store.Has, Store.addObject]
  · rw [hnew, Store.members_addObject]
    exact Table.map_congr fun e he => (hagree e.2 (hmembers e he)).symm
  · intro o ho heq
    rw [hnew, Value.object.inj (hagree (.object o) (.object ho))] at heq
    have hhas := (h.renames.object o ho).1
    rw [heq] at hhas
    exact Nat.lt_irrefl _ hhas
  · intro o ho
    rcases Store.object_of_has_addObject ho with hold | rfl
    · rw [Value.object.inj (hagree (.object o) (.object hold))]
      exact h.moved o hold
    · -- The second evaluation has all that there is in `n`, so its new cell is not among that.
      rw [hnew]
      exact .inr fun hhas => Nat.lt_irrefl _ (h.beyond.store.has hhas)

/-- The first evaluation adds functions and mints names. -/
theorem grown {g : Machine} (hg : s₁.Grown g) (hminted : s₁.minted ≤ g.minted) (hahead : g.Preserved p n) :
    Retraces p m n ρ g s₂ := by
  refine ⟨h.origin, h.base.trans (.grown hg hminted), hahead, h.beyond, h.closed.grown hg,
    h.renames.grown hg (hahead.store.trans h.beyond.store).closures, h.fixed, hg.known ▸ h.known,
    fun o ho => h.moved o ?_⟩
  exact Nat.lt_of_lt_of_eq ho (congrArg Arena.size hg.objects)

/-- The second evaluation goes on alone. -/
theorem right {g : Machine} (hg : s₂.Preserved p g) : Retraces p m n ρ s₁ g :=
  ⟨h.origin, h.base, h.ahead, h.beyond.trans hg, h.closed, h.renames.extends_right hg.store, h.fixed, h.known,
    h.moved⟩

/-- The first evaluation makes an object of the source and remembers it, and the second one knows it. -/
theorem remember {name : String} {defs : Table FunctionDef} {k k' : Nat}
    (hunknown : s₁.objects.get? name = none)
    (hdefined : p.objectDefinitions name (Source.objectCodes p.source name) k = (.ok defs, k'))
    (hmade : TableMade s₁.store t defs)
    (hahead : Machine.Preserved p ⟨(s₁.store.addObject t).2, s₁.functions,
      s₁.objects.insert name (s₁.store.addObject t).1, s₁.minted⟩ n) :
    Retraces p m n (ρ.setObject ⟨s₁.store.objects.size⟩ ⟨s₁.store.objects.size⟩)
      ⟨(s₁.store.addObject t).2, s₁.functions, s₁.objects.insert name (s₁.store.addObject t).1, s₁.minted⟩
      s₂ := by
  have hstores := hahead.store.trans h.beyond.store
  have hnewhas : (s₁.store.addObject t).2.Has (.object ⟨s₁.store.objects.size⟩) := by
    simp [Store.Has, Store.addObject]
  have hfresh : ¬ s₁.store.Has (.object ⟨s₁.store.objects.size⟩) := Nat.lt_irrefl _
  have hagree : ρ.AgreesOn s₁.store (ρ.setObject ⟨s₁.store.objects.size⟩ ⟨s₁.store.objects.size⟩) :=
    Renaming.agreesOn_setObject hfresh _
  have hnew := ρ.object_setObject_self ⟨s₁.store.objects.size⟩ ⟨s₁.store.objects.size⟩
  refine ⟨h.origin, h.base.trans (.remember hunknown hdefined hmade), hahead, h.beyond,
    h.closed.remember hmade.existsIn name, (h.renames.of_agree h.closed hagree).addObject ?_ ?_ ?_,
    h.fixed_of_agree hagree, fun name' v hv => ?_, fun o ho => ?_⟩
  · rw [hnew]
    exact hstores.has hnewhas
  · rw [hnew, hstores.members hnewhas, Store.members_addObject]
    exact (Table.map_eq_self (hmade.forall_entries (P := fun v => v.rename _ = v) fun _ _ _ => rfl)).symm
  · -- No other object has the new cell: not one in its own cell, which is an old one, and not one in
    -- another cell, which the first evaluation never has.
    intro o ho heq
    rw [hnew, Value.object.inj (hagree (.object o) (.object ho))] at heq
    rcases h.moved o ho with hsame | hmoved
    · rw [hsame] at heq
      exact hfresh (heq ▸ ho)
    · rw [heq] at hmoved
      exact hmoved (hahead.store.has hnewhas)
  · have hget : (s₁.objects.insert name (s₁.store.addObject t).1).get? name' = some v := hv
    rw [Table.get?_insert] at hget
    split at hget
    · cases hget
      exact congrArg Value.object hnew
    · exact h.known_of_agree hagree name' v hget
  · rcases Store.object_of_has_addObject ho with hold | rfl
    · rw [Value.object.inj (hagree (.object o) (.object hold))]
      exact h.moved o hold
    · exact .inl hnew

end Retraces

/-! ## Results that belong together -/

/-- A renaming goes on to be one that gives the same cells to what a store has, while the store grows. -/
structure Onward (ρ : Renaming) (s : Store) (σ : Renaming) (s' : Store) : Prop where
  agrees : ρ.AgreesOn s σ
  grown : s.Extends s'

/-- What the second evaluation has in place of a value. -/
def Value.Renamed (ρ : Renaming) (s : Store) (v w : Value) : Prop := v.ExistsIn s ∧ w = v.rename ρ

/-- What the second evaluation has in place of a list of values. -/
def ListRenamed (ρ : Renaming) (s : Store) (vs ws : List Value) : Prop :=
  (∀ v ∈ vs, v.ExistsIn s) ∧ ws = vs.map (Value.rename ρ)

/-- What the second evaluation has in place of a table of values. -/
def Table.Renamed (ρ : Renaming) (s : Store) (t u : Table Value) : Prop :=
  t.ExistsIn s ∧ u = t.map (Value.rename ρ)

namespace Onward

variable {ρ σ τ : Renaming} {s s' s'' : Store}

theorem refl (ρ : Renaming) (s : Store) : Onward ρ s ρ s := ⟨fun _ _ => rfl, .refl s⟩

theorem trans (h : Onward ρ s σ s') (h' : Onward σ s' τ s'') : Onward ρ s τ s'' :=
  ⟨fun v hv => (h'.agrees v (hv.of_has fun _ => h.grown.has)).trans (h.agrees v hv), h.grown.trans h'.grown⟩

variable (h : Onward ρ s σ s')
include h

theorem value (hv : v.Renamed ρ s w) : v.Renamed σ s' w :=
  ⟨hv.1.of_has fun _ => h.grown.has, hv.2.trans (h.agrees v hv.1).symm⟩

theorem table (ht : t.Renamed ρ s u) : t.Renamed σ s' u :=
  ⟨fun e he => (ht.1 e he).of_has fun _ => h.grown.has,
    ht.2.trans (Table.map_congr fun e he => (h.agrees e.2 (ht.1 e he)).symm)⟩

end Onward

/-! ## Computations -/

/-- How two evaluations end: with results that belong together, the second one retracing the first, or with
the same error. -/
inductive Repeats (p : Program) (m n : Machine) (ρ : Renaming) (s : Store) {α : Type}
    (Q : Renaming → Store → α → α → Prop) : Outcome α → Outcome α → Prop
  | done {σ : Renaming} {s₁ s₂ : Machine} {a b : α} (retraces : Retraces p m n σ s₁ s₂)
      (onward : Onward ρ s σ s₁.store) (result : Q σ s₁.store a b) :
      Repeats p m n ρ s Q (.done a s₁) (.done b s₂)
  | failed (e : Error) (s₁ s₂ : Machine) : Repeats p m n ρ s Q (.failed e s₁) (.failed e s₂)

/-- A computation is repeated by another one, if the first evaluation goes on to `n` from where the
computation ends. -/
def Again (p : Program) (m n : Machine) (ρ : Renaming) (s₁ s₂ : Machine) {α : Type}
    (Q : Renaming → Store → α → α → Prop) (x y : Eval α) : Prop :=
  (∀ s, (x s₁).state? = some s → s.Preserved p n) → Repeats p m n ρ s₁.store Q (x s₁) (y s₂)

section

variable {p : Program} {m n s₁ s₂ : Machine} {ρ : Renaming} {α β : Type}
  {Q : Renaming → Store → α → α → Prop} {R : Renaming → Store → β → β → Prop}

theorem Repeats.after {σ : Renaming} {s s' : Store} (h : Onward ρ s σ s') {o₁ o₂ : Outcome α}
    (ho : Repeats p m n σ s' Q o₁ o₂) : Repeats p m n ρ s Q o₁ o₂ := by
  cases ho with
  | done retraces onward result => exact .done retraces (h.trans onward) result
  | failed e s₁ s₂ => exact .failed e s₁ s₂

theorem again_bind {x y : Eval α} {f g : α → Eval β} (hx : Again p m n ρ s₁ s₂ Q x y)
    (hspares : ∀ a, Spares p (f a))
    (hf : ∀ σ s₁' s₂' a b, Retraces p m n σ s₁' s₂' → Onward ρ s₁.store σ s₁'.store → Q σ s₁'.store a b →
      Again p m n σ s₁' s₂' R (f a) (g b)) : Again p m n ρ s₁ s₂ R (x >>= f) (y >>= g) := by
  intro hend
  change ∀ s, (andThen x f s₁).state? = some s → s.Preserved p n at hend
  show Repeats p m n ρ s₁.store R (andThen x f s₁) (andThen y g s₂)
  unfold andThen at hend ⊢
  unfold Again at hx
  cases hrun : x s₁ with
  | done a s₁' =>
    rw [hrun] at hx hend
    -- What comes after spares the state in which the first computation ends.
    obtain ⟨s₁'', hstate, hpreserved⟩ := hspares a s₁'
    have hx' := hx fun s hs => Option.some.inj hs ▸ hpreserved.trans (hend s₁'' hstate)
    generalize y s₂ = o₂ at hx'
    cases hx' with
    | done retraces onward result => exact (hf _ _ _ _ _ retraces onward result hend).after onward
  | failed e s₁' =>
    rw [hrun] at hx hend
    have hx' := hx hend
    generalize y s₂ = o₂ at hx'
    cases hx' with
    | failed => exact .failed e s₁' _
  | unfinished =>
    rw [hrun] at hx
    have hx' := hx nofun
    generalize y s₂ = o₂ at hx'
    cases hx'

variable (h : Retraces p m n ρ s₁ s₂)
include h

theorem again_done {a b : α} (hab : Q ρ s₁.store a b) : Again p m n ρ s₁ s₂ Q (done a) (done b) :=
  fun _ => .done h (.refl ρ _) hab

theorem again_read {f g : Store → α} (hfg : Q ρ s₁.store (f s₁.store) (g s₂.store)) :
    Again p m n ρ s₁ s₂ Q (read f) (read g) :=
  fun _ => .done h (.refl ρ _) hfg

omit h in
theorem again_fail (e : Error) : Again p m n ρ s₁ s₂ Q (fail e) (fail e) := fun _ => .failed e s₁ s₂

theorem again_addArray {vs ws : List Value} (hvs : ListRenamed ρ s₁.store vs ws) :
    Again p m n ρ s₁ s₂ Value.Renamed (add fun store => store.addArray vs.toArray)
      (add fun store => store.addArray ws.toArray) := by
  obtain ⟨hexist, rfl⟩ := hvs
  intro hend
  have hitems : ∀ v ∈ vs.toArray, v.ExistsIn s₁.store := by simpa using hexist
  have hretraces := h.addArray hitems (hend _ rfl)
  rw [List.map_toArray] at hretraces
  refine .done hretraces ⟨Renaming.agreesOn_setArray (Nat.lt_irrefl _) _, .addArray _ _⟩ ⟨?_, ?_⟩
  · exact .array (by simp [Store.Has])
  · exact congrArg Value.array (ρ.array_setArray_self _ _).symm

theorem again_addObject (ht : t.Renamed ρ s₁.store u) :
    Again p m n ρ s₁ s₂ Value.Renamed (add fun store => store.addObject t)
      (add fun store => store.addObject u) := by
  obtain ⟨hexist, rfl⟩ := ht
  intro hend
  refine .done (h.addObject hexist (hend _ rfl))
    ⟨Renaming.agreesOn_setObject (Nat.lt_irrefl _) _, .addObject _ _⟩ ⟨?_, ?_⟩
  · exact .object (by simp [Store.Has])
  · exact congrArg Value.object (ρ.object_setObject_self _ _).symm

omit h in
theorem resolveObject_of_get? {name : String} (hv : m.objects.get? name = some v) :
    p.resolveObject name m = (.ok v, m) := by
  unfold Program.resolveObject MemoView.fetch Machine.objectMemo
  dsimp only
  rw [hv]

/-- What the source has no object for is missing the second time too: whether it defines one does not depend
on the number of minted names. -/
theorem resolveObject_missing {name : String} {e : Error} {k : Nat} (unknown : s₁.objects.get? name = none)
    (undefined : p.objectDefinitions name (Source.objectCodes p.source name) s₁.minted = (.error e, k)) :
    ∃ g, p.resolveObject name s₂ = (.error e, g) ∧ s₂.Grown g ∧ s₂.minted ≤ g.minted := by
  have hnone := Program.objectDefinitions_error undefined
  have hle := p.le_objectDefinitions name (Source.objectCodes p.source name) s₂.minted
  have hsecond := resolves_resolveObject p name s₂
  generalize p.resolveObject name s₂ = x at hsecond ⊢
  cases hsecond with
  | known hw =>
    obtain ⟨o, -, -, -, k, defs, k', defined, -⟩ := h.preserved.extracted name _ unknown hw
    have hno := hnone k
    rw [defined] at hno
    cases hno
  | taken _ _ defined =>
    have hno := hnone s₂.minted
    rw [defined] at hno
    cases hno
  | @missing g e' _ grown undefined' =>
    have hsame := hnone s₂.minted
    rw [undefined'] at hsame hle
    obtain rfl := Except.error.inj hsame
    exact ⟨g, rfl, grown, hle⟩

/-- An object that the first evaluation takes out of the source is known to the second one. -/
theorem again_namedObject (name : String) (optional : Bool) :
    Again p m n ρ s₁ s₂ Value.Renamed (namedObject p name optional) (namedObject p name optional) := by
  intro hend
  have hfirst := resolves_resolveObject p name s₁
  have hle := p.le_objectDefinitions name (Source.objectCodes p.source name) s₁.minted
  unfold namedObject at hend ⊢
  generalize p.resolveObject name s₁ = x at hfirst hend ⊢
  cases hfirst with
  | known hv =>
    rw [resolveObject_of_get? (h.preserved.known name _ hv)]
    exact .done h (.refl ρ _) ⟨h.known_exists hv, (h.known name _ hv).symm⟩
  | @taken g t defs unknown grown defined made =>
    rw [defined] at hle
    have hunknown : g.objects.get? name = none := grown.known ▸ unknown
    have hahead := hend _ rfl
    have hgrown := h.grown grown hle ((Machine.Preserved.remember hunknown defined made).trans hahead)
    have hretraces := hgrown.remember hunknown defined made hahead
    have hknown := hretraces.preserved.known name (g.store.addObject t).1 (by
      show (g.objects.insert name _).get? name = _
      rw [Table.get?_insert, if_pos rfl])
    rw [resolveObject_of_get? hknown]
    have honward : Onward ρ s₁.store ρ g.store := ⟨fun _ _ => rfl, .grown grown⟩
    refine .done hretraces (honward.trans ⟨Renaming.agreesOn_setObject (Nat.lt_irrefl _) _, .addObject _ _⟩)
      ⟨.object (by simp [Store.Has, Store.addObject]), ?_⟩
    exact congrArg Value.object (ρ.object_setObject_self _ _).symm
  | @missing g e unknown grown undefined =>
    rw [undefined] at hle
    have hahead : g.Preserved p n := hend _ (by cases optional <;> rfl)
    obtain ⟨g₂, hmissing, grown₂, hle₂⟩ := resolveObject_missing h unknown undefined
    rw [hmissing]
    cases optional with
    | false => exact .failed e g g₂
    | true =>
      exact .done ((h.grown grown hle hahead).right (.grown grown₂ hle₂)) ⟨fun _ _ => rfl, .grown grown⟩
        ⟨.plain rfl _, rfl⟩

end

/-! ## Expressions -/

/-- A computation that spares what there is, and that a second evaluation repeats. -/
structure Repeatable (p : Program) (m n : Machine) (x : Eval Value) : Prop where
  spares : Spares p x
  again : ∀ {ρ s₁ s₂}, Retraces p m n ρ s₁ s₂ → Again p m n ρ s₁ s₂ Value.Renamed x x

theorem BinaryOp.settledBy_rename (op : BinaryOp) (ρ : Renaming) (v : Value) :
    op.settledBy (v.rename ρ) = op.settledBy v := by
  unfold settledBy
  rw [Value.isNullish_rename, Value.isTruthy_rename]

section

variable {p : Program} {m n s₁ s₂ : Machine} {ρ : Renaming} {parts : Evaluators} {scope : Scope}

theorem ListRenamed.cons {s : Store} {vs ws : List Value} (hv : v.Renamed ρ s w)
    (hvs : ListRenamed ρ s vs ws) : ListRenamed ρ s (v :: vs) (w :: ws) :=
  ⟨List.forall_mem_cons.2 ⟨hv.1, hvs.1⟩, by rw [hv.2, hvs.2, List.map_cons]⟩

theorem Table.Renamed.insert {s : Store} (ht : t.Renamed ρ s u)
    (hv : v.Renamed ρ s w) (key : String) : (t.insert key v).Renamed ρ s (u.insert key w) :=
  ⟨ht.1.insert hv.1 key, by rw [ht.2, hv.2, Table.map_insert]⟩

theorem again_evalAll {es : List Expr} (hparts : ∀ e ∈ es, Repeatable p m n (parts.expr scope e))
    (h : Retraces p m n ρ s₁ s₂) :
    Again p m n ρ s₁ s₂ ListRenamed (evalAll parts scope es) (evalAll parts scope es) := by
  induction es generalizing ρ s₁ s₂ with
  | nil => exact again_done h ⟨nofun, rfl⟩
  | cons e rest ih =>
    obtain ⟨he, hrest⟩ := List.forall_mem_cons.1 hparts
    have hspares := spares_evalAll fun e' he' => (hrest e' he').spares
    refine again_bind (he.again h) (fun v => spares_bind hspares fun vs => spares_done _) ?_
    intro σ t₁ t₂ v w hretraces _ hv
    refine again_bind (ih hrest hretraces) (fun vs => spares_done _) ?_
    intro τ u₁ u₂ vs ws hretraces' honward hvs
    exact again_done hretraces' (.cons (honward.value hv) hvs)

theorem again_evalMembers {members : List (String × Expr)}
    (hparts : ∀ member ∈ members, Repeatable p m n (parts.expr scope member.2)) (h : Retraces p m n ρ s₁ s₂)
    (ht : t.Renamed ρ s₁.store u) :
    Again p m n ρ s₁ s₂ Table.Renamed (evalMembers parts scope members t)
      (evalMembers parts scope members u) := by
  induction members generalizing ρ s₁ s₂ t u with
  | nil => exact again_done h ht
  | cons member rest ih =>
    obtain ⟨hmember, hrest⟩ := List.forall_mem_cons.1 hparts
    have hspares := spares_evalMembers fun member' hm => (hrest member' hm).spares
    refine again_bind (hmember.again h) (fun v => hspares _) ?_
    intro σ t₁ t₂ v w hretraces honward hv
    exact ih hrest hretraces ((honward.table ht).insert hv member.1)

theorem again_evalSequence {es : List Expr} (hparts : ∀ e ∈ es, Repeatable p m n (parts.expr scope e))
    (h : Retraces p m n ρ s₁ s₂) {last last' : Value} (hlast : last.Renamed ρ s₁.store last') :
    Again p m n ρ s₁ s₂ Value.Renamed (evalSequence parts scope es last)
      (evalSequence parts scope es last') := by
  induction es generalizing ρ s₁ s₂ last last' with
  | nil => exact again_done h hlast
  | cons e rest ih =>
    obtain ⟨he, hrest⟩ := List.forall_mem_cons.1 hparts
    have hspares := spares_evalSequence fun e' he' => (hrest e' he').spares
    refine again_bind (he.again h) (fun v => hspares v) ?_
    intro σ t₁ t₂ v w hretraces _ hv
    exact ih hrest hretraces hv

theorem again_memberTarget {object : Expr} (hobject : Repeatable p m n (parts.expr scope object))
    (h : Retraces p m n ρ s₁ s₂) (optional : Bool) :
    Again p m n ρ s₁ s₂ Value.Renamed (memberTarget p parts scope object optional)
      (memberTarget p parts scope object optional) := by
  cases object with
  | ident name =>
    have hstep : ∀ s : Machine, memberTarget p parts scope (.ident name) optional s =
        if scope.contains s.store name then parts.expr scope (.ident name) s
        else namedObject p name optional s :=
      fun _ => rfl
    unfold Again
    rw [hstep s₁, hstep s₂, h.preserved.store.scope_contains]
    split
    · exact hobject.again h
    · exact again_namedObject h name optional
  | _ => exact hobject.again h

theorem again_propertyKey
    (hparts : ∀ e, .expr e ∈ Ast.Node.ofProperty property → Repeatable p m n (parts.expr scope e))
    (h : Retraces p m n ρ s₁ s₂) :
    Again p m n ρ s₁ s₂ Value.Renamed (propertyKey parts scope property)
      (propertyKey parts scope property) := by
  cases property with
  | name => exact again_done h ⟨.plain rfl _, rfl⟩
  | computed e => exact (hparts e (.head _)).again h

theorem again_memberOf
    (hparts : ∀ e, .expr e ∈ Ast.Node.ofProperty property → Repeatable p m n (parts.expr scope e))
    (h : Retraces p m n ρ s₁ s₂) (optional : Bool) {target target' : Value}
    (htarget : target.Renamed ρ s₁.store target') :
    Again p m n ρ s₁ s₂ Value.Renamed (memberOf parts scope property optional target)
      (memberOf parts scope property optional target') := by
  have hnullish : target'.isNullish = target.isNullish := by rw [htarget.2, Value.isNullish_rename]
  unfold memberOf
  rw [hnullish]
  split
  · exact again_done h ⟨.plain rfl _, rfl⟩
  · refine again_bind (again_propertyKey hparts h)
      (fun key => spares_bind (spares_read _) fun v => spares_ofExcept v) ?_
    intro σ t₁ t₂ key key' hretraces honward hkey _
    obtain ⟨hexists, rfl⟩ := honward.value htarget
    obtain ⟨hkey, rfl⟩ := hkey
    have hmember := hretraces.renames.member hretraces.closed.elementsExist hexists hkey
    show Repeats p m n σ t₁.store Value.Renamed (ofExcept (target.member t₁.store key) t₁)
      (ofExcept ((target.rename σ).member t₂.store (key.rename σ)) t₂)
    rw [hmember]
    cases hresult : target.member t₁.store key with
    | error e => exact .failed e t₁ t₂
    | ok v => exact .done hretraces (.refl σ _) ⟨hretraces.closed.member hresult, rfl⟩

theorem again_evalMember {object : Expr} (hobject : Repeatable p m n (parts.expr scope object))
    (hproperty : ∀ e, .expr e ∈ Ast.Node.ofProperty property → Repeatable p m n (parts.expr scope e))
    (h : Retraces p m n ρ s₁ s₂) (optional : Bool) :
    Again p m n ρ s₁ s₂ Value.Renamed (evalMember p parts scope object property optional)
      (evalMember p parts scope object property optional) := by
  have hspace : namespace? s₂.store scope object = namespace? s₁.store scope object := by
    unfold namespace?
    split
    · rw [h.preserved.store.scope_contains]
    · rfl
  have hspares := spares_memberOf fun e he => (hproperty e he).spares
  rw [evalMember_eq]
  refine again_bind (Q := fun _ _ space space' => space' = space) (again_read h hspace) (fun space => ?_) ?_
  · cases space with
    | some n => exact spares_fail _
    | none => exact spares_bind (spares_memberTarget hobject.spares optional) (hspares optional)
  · rintro σ t₁ t₂ _ space hretraces _ rfl
    cases space with
    | some n => exact again_fail _
    | none =>
      refine again_bind (again_memberTarget hobject hretraces optional) (hspares optional) ?_
      intro τ u₁ u₂ target target' hretraces' _ htarget
      exact again_memberOf hproperty hretraces' optional htarget

/-- An expression without an effect of its own is repeated if its parts are. -/
theorem again_exprStep {e : Expr} (heffect : (Ast.Node.expr e).hasEffect = false)
    (hparts : ∀ e', .expr e' ∈ (Ast.Node.expr e).below → Repeatable p m n (parts.expr scope e'))
    (h : Retraces p m n ρ s₁ s₂) :
    Again p m n ρ s₁ s₂ Value.Renamed (exprStep p parts scope e) (exprStep p parts scope e) := by
  cases e with
  | literal l => exact again_done h (by cases l <;> exact ⟨.plain rfl _, rfl⟩)
  | ident name =>
    exact again_read (f := fun store => scope.get store name) (g := fun store => scope.get store name) h
      (h.scope_get scope name)
  | array items =>
    have hitems := again_evalAll (fun e' he' => hparts e' (List.mem_map_of_mem he')) h
    refine again_bind hitems (fun values => spares_add fun s => .addArray s _) ?_
    intro σ t₁ t₂ vs ws hretraces _ hvs
    exact again_addArray hretraces hvs
  | object members =>
    have hmembers := again_evalMembers
      (fun (member : String × Expr) (hm : member ∈ members) => hparts member.2 (List.mem_map_of_mem hm)) h
      (t := Table.empty) ⟨nofun, rfl⟩
    refine again_bind hmembers (fun table => spares_add fun s => .addObject s _) ?_
    intro σ t₁ t₂ t u hretraces _ ht
    exact again_addObject hretraces ht
  | unary op operand =>
    refine again_bind ((hparts operand (.head _)).again h) (fun v => spares_read _) ?_
    rintro σ t₁ t₂ v _ hretraces _ ⟨hv, rfl⟩
    refine again_read hretraces ⟨?_, hretraces.renames.unary hretraces.closed.elementsExist op hv⟩
    cases op <;> exact .plain rfl _
  | binary op left right =>
    have hright := hparts right (.tail _ (.head _))
    refine again_bind ((hparts left (.head _)).again h) (fun a => ?_) ?_
    · exact spares_ite (spares_done _) (spares_bind hright.spares fun b => spares_read _)
    intro σ t₁ t₂ a a' hretraces _ ha
    have hsettled : op.settledBy a' = op.settledBy a := by rw [ha.2, op.settledBy_rename]
    rw [hsettled]
    split
    · exact again_done hretraces ha
    · refine again_bind (hright.again hretraces) (fun b => spares_read _) ?_
      intro τ u₁ u₂ b b' hretraces' honward hb
      obtain ⟨hexists, rfl⟩ := honward.value ha
      obtain ⟨hb, rfl⟩ := hb
      refine again_read hretraces' ⟨?_, hretraces'.renames.binary hretraces'.closed.elementsExist hexists hb op⟩
      rcases op.apply_cases u₁.store a b with heq | heq | hplain
      · rw [heq]
        exact hexists
      · rw [heq]
        exact hb
      · exact .plain hplain _
  | conditional test consequent alternate =>
    have hconsequent := hparts consequent (.tail _ (.head _))
    have halternate := hparts alternate (.tail _ (.tail _ (.head _)))
    refine again_bind ((hparts test (.head _)).again h)
      (fun v => spares_ite hconsequent.spares halternate.spares) ?_
    rintro σ t₁ t₂ v _ hretraces _ ⟨-, rfl⟩
    rw [Value.isTruthy_rename]
    split
    · exact hconsequent.again hretraces
    · exact halternate.again hretraces
  | sequence items =>
    exact again_evalSequence (fun e' he' => hparts e' (List.mem_map_of_mem he')) h ⟨.plain rfl _, rfl⟩
  | member object property optional =>
    exact again_evalMember (hparts object (.head _)) (fun e' he' => hparts e' (.tail _ he')) h optional
  | function | update | assign | call => cases heffect

end

/-- An expression without effects is repeated. -/
theorem repeatable_evalExpr (p : Program) (m n : Machine) (rounds budget : Nat) (scope : Scope) {e : Expr}
    (heffects : AllNodes (fun a => a.hasEffect = false) (.expr e)) :
    Repeatable p m n (evalExpr p rounds budget scope e) := by
  refine ⟨spares_evalExpr p rounds budget scope heffects, ?_⟩
  induction budget generalizing e with
  | zero => exact fun _ => again_fail _
  | succ budget ih =>
    intro ρ s₁ s₂ h
    rw [evalExpr_succ]
    refine again_exprStep (allNodes_iff.1 heffects).1 (fun e' he' => ?_) h
    have hbelow := heffects.of_below he'
    exact ⟨spares_evalExpr p rounds budget scope hbelow, ih hbelow⟩

/-- The two outcomes of evaluating twice, where the first evaluation began in `m`, are the same but for the
cells of new arrays and objects: the same error, or values and stores that a renaming takes to each other
which keeps all cells of `m` as they are. -/
inductive SameButNew (m : Machine) : Outcome Value → Outcome Value → Prop
  | done {m₁ m₂ : Machine} {v : Value} {ρ : Renaming} (fixed : ∀ u : Value, u.ExistsIn m.store → u.rename ρ = u)
      (renames : m₁.store.Renames ρ m₂.store) (result : v.ExistsIn m₁.store) :
      SameButNew m (.done v m₁) (.done (v.rename ρ) m₂)
  | failed (e : Error) (m₁ m₂ : Machine) : SameButNew m (.failed e m₁) (.failed e m₂)

/-- Expressions without effects have none. Without assignments, updates, calls and function literals, the
evaluation of an expression ends, with a value or an error, and leaves all there is untouched, in every state
and scope and within every budget. If no reference in the state dangles, a second evaluation in the state
that this leaves gives the same error, or the same value but for the cells of new arrays and objects. -/
theorem effectless_evaluation_repeats (p : Program) (rounds budget : Nat) (scope : Scope) {e : Expr}
    (heffects : AllNodes (fun a => a.hasEffect = false) (.expr e)) (m : Machine) :
    ∃ m₁, (evalExpr p rounds budget scope e m).state? = some m₁ ∧ m.Preserved p m₁ ∧
      (m.Closed → SameButNew m (evalExpr p rounds budget scope e m) (evalExpr p rounds budget scope e m₁)) := by
  obtain ⟨m₁, hstate, hpreserved⟩ := spares_evalExpr p rounds budget scope heffects m
  refine ⟨m₁, hstate, hpreserved, fun hm => ?_⟩
  have hretraces := Retraces.start hm hpreserved
  have hrepeats := (repeatable_evalExpr p m m₁ rounds budget scope heffects).again hretraces fun s hs => by
    rw [hstate] at hs
    cases hs
    exact .refl m₁
  generalize evalExpr p rounds budget scope e m = o₁ at hrepeats
  generalize evalExpr p rounds budget scope e m₁ = o₂ at hrepeats
  cases hrepeats with
  | failed e s₁ s₂ => exact .failed e s₁ s₂
  | done retraces _ result =>
    obtain ⟨hexists, rfl⟩ := result
    exact .done retraces.fixed retraces.renames hexists

/-- The expression `[a, {k: a}, Xy?.b]`, where `a` is an array that holds itself, and the source has no object
`Xy`. -/
theorem effectless_evaluation_repeats_nested :
    let store := ((Store.initial.addArray #[]).2.modifyArray ⟨0⟩ fun _ => #[.array ⟨0⟩]).bind
      LayerRef.globals "a" (.array ⟨0⟩)
    let m := Machine.initial store Table.empty
    let e : Expr := .array [.ident "a", .object [("k", .ident "a")], .member (.ident "Xy") (.name "b") true]
    let evaluate := evalExpr ⟨[], .standard⟩ 9 4 Program.globalScope e
    AllNodes (fun a => a.hasEffect = false) (.expr e) ∧ m.Closed ∧ ∃ m₁, (evaluate m).state? = some m₁ ∧
      m.Preserved ⟨[], .standard⟩ m₁ ∧ SameButNew m (evaluate m) (evaluate m₁) := by
  intro store m e evaluate
  have hleaf : ∀ a : Ast.Node, a.below = [] → a.hasEffect = false → AllNodes (fun a => a.hasEffect = false) a :=
    fun a hbelow heffect => allNodes_iff.2 ⟨heffect, by rw [hbelow]; exact List.forall_mem_nil _⟩
  have heffects : AllNodes (fun a => a.hasEffect = false) (.expr e) := by
    refine allNodes_iff.2 ⟨rfl, List.forall_mem_cons.2 ⟨hleaf _ rfl rfl, List.forall_mem_cons.2 ⟨?_, ?_⟩⟩⟩
    · exact allNodes_iff.2 ⟨rfl, List.forall_mem_singleton.2 (hleaf _ rfl rfl)⟩
    · exact List.forall_mem_singleton.2 (allNodes_iff.2 ⟨rfl, List.forall_mem_singleton.2 (hleaf _ rfl rfl)⟩)
  have hclosed : m.Closed := by
    have hnone : ∀ v ∈ (#[] : Array Value), v.ExistsIn Store.initial := by simp
    have hadded := Machine.closed_initial.addArray hnone
    have hloop := (hadded.modifyArray (a := ⟨0⟩) (f := fun _ => #[.array ⟨0⟩]) (by
      simp [Value.ExistsIn, Value.node?, Store.Has, Store.addArray, Machine.withStore])).1
    exact (hloop.bind (.array (by decide)) LayerRef.globals "a").1
  obtain ⟨m₁, hstate, hpreserved, hrepeats⟩ :=
    effectless_evaluation_repeats ⟨[], .standard⟩ 9 4 Program.globalScope heffects m
  exact ⟨heffects, hclosed, m₁, hstate, hpreserved, hrepeats hclosed⟩

end PlayerScript
