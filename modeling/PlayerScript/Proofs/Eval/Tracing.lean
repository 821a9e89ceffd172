/-
Where memoized functions and objects come from. In every state that an interpreter can get into, the
functions in its memo are those of the source, as they were when they were taken out of it. The same
holds of an object taken out of the source as long as nobody hands it back: code can read the members
of such an object by its name, but never gets hold of the object itself.
-/
import PlayerScript.Proofs.Eval.Definitions
import PlayerScript.Proofs.Eval.Runs
import PlayerScript.Proofs.Store.Scopes

namespace PlayerScript

open Ast

variable {name : String} {v : Value} {s : Store} {t : Table Value}

/-! ## States -/

/-- A value that may be handed over while the object under a name is kept back: no reference to that
object, nor to one that does not exist yet. -/
def Machine.MayHold (m : Machine) (name : String) (v : Value) : Prop :=
  ∀ o, v = .object o → m.store.Has (.object o) ∧ m.objects.get? name ≠ some v

/-- A state in which the memoized functions, and the object under the name that is kept back, are as
the source defines them. No cell refers to that object. -/
structure Traced (p : Program) (kept : Option String) (m : Machine) : Prop where
  functions : ∀ name f, m.functions.get? name = some f →
    ∃ k d k', p.functionDefinition name k = (.ok d, k') ∧ FunctionMade m.store f d
  object : ∀ name ∈ kept, ∀ v, m.objects.get? name = some v →
    ∃ o t k defs k', v = .object o ∧ m.store.objects.get? o.index = some t ∧
      p.objectDefinitions name (Source.objectCodes p.source name) k = (.ok defs, k') ∧
      TableMade m.store t defs
  layers : ∀ name ∈ kept, m.store.layers.All fun t => ∀ e ∈ t.entries, m.MayHold name e.2
  arrays : ∀ name ∈ kept, m.store.arrays.All fun items => ∀ v ∈ items, m.MayHold name v
  objects : ∀ name ∈ kept, m.store.objects.All fun t => ∀ e ∈ t.entries, m.MayHold name e.2

/-- What cannot be undone: functions stay as they are, in the store and in the memo, objects stay in
the store, and the object that is kept back is none that was there before. -/
structure Lasts (kept : Option String) (m m' : Machine) : Prop where
  closures : m.store.closures.Extends m'.store.closures
  functions : ∀ name f, m.functions.get? name = some f → m'.functions.get? name = some f
  size : m.store.objects.size ≤ m'.store.objects.size
  object : ∀ name ∈ kept, ∀ o, m'.objects.get? name = some (.object o) →
    m.objects.get? name = some (.object o) ∨ m.store.objects.size ≤ o.index

variable {p : Program} {kept : Option String} {m m' m'' : Machine}

theorem Lasts.refl (kept : Option String) (m : Machine) : Lasts kept m m :=
  ⟨fun _ _ h => h, fun _ _ h => h, Nat.le_refl _, fun _ _ _ h => .inl h⟩

theorem Lasts.trans (h : Lasts kept m m') (h' : Lasts kept m' m'') : Lasts kept m m'' := by
  refine ⟨fun i x hx => h'.closures i x (h.closures i x hx),
    fun name f hf => h'.functions name f (h.functions name f hf), Nat.le_trans h.size h'.size, ?_⟩
  intro name hname o ho
  rcases h'.object name hname o ho with hold | hnew
  · exact h.object name hname o hold
  · exact .inr (Nat.le_trans h.size hnew)

theorem Machine.MayHold.lasts (h : Lasts kept m m') (hname : name ∈ kept)
    (hv : m.MayHold name v) : m'.MayHold name v := by
  rintro o rfl
  obtain ⟨hhas, hne⟩ := hv o rfl
  -- If the object is kept back in the later state, it was before or it is a new one.
  refine ⟨Nat.lt_of_lt_of_le hhas h.size, fun hget => ?_⟩
  rcases h.object name hname o hget with hold | hnew
  · exact hne hold
  · exact absurd hhas (Nat.not_lt.2 hnew)

theorem mayHold_plain (h : ∀ o, v ≠ .object o) : m.MayHold name v :=
  fun o ho => absurd ho (h o)

/-- A later state is traced if its memos are, and if what its cells hold could be handed over
before. -/
theorem Traced.of_lasts (hlasts : Lasts kept m m')
    (hfunctions : ∀ name f, m'.functions.get? name = some f →
      ∃ k d k', p.functionDefinition name k = (.ok d, k') ∧ FunctionMade m'.store f d)
    (hobject : ∀ name ∈ kept, ∀ v, m'.objects.get? name = some v →
      ∃ o t k defs k', v = .object o ∧ m'.store.objects.get? o.index = some t ∧
        p.objectDefinitions name (Source.objectCodes p.source name) k = (.ok defs, k') ∧
        TableMade m'.store t defs)
    (hlayers : ∀ name ∈ kept, m'.store.layers.All fun t => ∀ e ∈ t.entries, m.MayHold name e.2)
    (harrays : ∀ name ∈ kept, m'.store.arrays.All fun items => ∀ v ∈ items, m.MayHold name v)
    (hobjects : ∀ name ∈ kept, m'.store.objects.All fun t => ∀ e ∈ t.entries, m.MayHold name e.2) :
    Traced p kept m' := by
  refine ⟨hfunctions, hobject, fun name hname => ?_, fun name hname => ?_, fun name hname => ?_⟩
  · exact (hlayers name hname).mono fun t ht e he => (ht e he).lasts hlasts hname
  · exact (harrays name hname).mono fun items hi v hv => (hi v hv).lasts hlasts hname
  · exact (hobjects name hname).mono fun t ht e he => (ht e he).lasts hlasts hname

/-- A state with more functions and more minted names is traced if it was before. -/
theorem Traced.grown (h : Traced p kept m) (hg : m.Grown m') :
    Traced p kept m' ∧ Lasts kept m m' := by
  have hlasts : Lasts kept m m' := by
    refine ⟨hg.closures, fun name f hf => hg.functions ▸ hf, Nat.le_of_eq (by rw [hg.objects]), ?_⟩
    intro name _ o ho
    exact .inl (hg.known ▸ ho)
  refine ⟨.of_lasts hlasts ?_ ?_ ?_ ?_ ?_, hlasts⟩
  · intro name f hf
    obtain ⟨k, d, k', hdef, hmade⟩ := h.functions name f (hg.functions ▸ hf)
    exact ⟨k, d, k', hdef, hg.closures _ _ hmade⟩
  · intro name hname v hv
    obtain ⟨o, t, k, defs, k', ho, ht, hdefs, hmade⟩ := h.object name hname v (hg.known ▸ hv)
    exact ⟨o, t, k, defs, k', ho, hg.objects ▸ ht, hdefs, hmade.extends hg.closures⟩
  · rw [hg.layers]
    exact h.layers
  · rw [hg.arrays]
    exact h.arrays
  · rw [hg.objects]
    exact h.objects

/-- A change of the store keeps a state traced if functions stay, objects stay in the store, the
object that is kept back stays as it is, and no cell gets hold of it. -/
theorem Traced.withStore (h : Traced p kept m) (hclosures : m.store.closures.Extends s.closures)
    (hsize : m.store.objects.size ≤ s.objects.size)
    (hobject : ∀ name ∈ kept, ∀ o t, m.objects.get? name = some (.object o) →
      m.store.objects.get? o.index = some t → s.objects.get? o.index = some t)
    (hlayers : ∀ name ∈ kept, s.layers.All fun t => ∀ e ∈ t.entries, m.MayHold name e.2)
    (harrays : ∀ name ∈ kept, s.arrays.All fun items => ∀ v ∈ items, m.MayHold name v)
    (hobjects : ∀ name ∈ kept, s.objects.All fun t => ∀ e ∈ t.entries, m.MayHold name e.2) :
    Traced p kept (m.withStore s) ∧ Lasts kept m (m.withStore s) := by
  have hlasts : Lasts kept m (m.withStore s) :=
    ⟨hclosures, fun _ _ hf => hf, hsize, fun _ _ _ ho => .inl ho⟩
  refine ⟨.of_lasts hlasts ?_ ?_ hlayers harrays hobjects, hlasts⟩
  · intro name f hf
    obtain ⟨k, d, k', hdef, hmade⟩ := h.functions name f hf
    exact ⟨k, d, k', hdef, hclosures _ _ hmade⟩
  · intro name hname v hv
    obtain ⟨o, t, k, defs, k', rfl, ht, hdefs, hmade⟩ := h.object name hname v hv
    exact ⟨o, t, k, defs, k', rfl, hobject name hname o t hv ht, hdefs, hmade.extends hclosures⟩

/-! ## The discipline of a state whose memos are traced -/

namespace Traced

/-- The relations of traced states. Both runs are the same one. -/
def relations (p : Program) (kept : Option String) : Relations where
  cut := False
  loops := True
  Fails := Eq
  allowed := .always
  Linked := fun m₁ m₂ => m₁ = m₂ ∧ Traced p kept m₁
  Later := Lasts kept
  Val := fun m v => ∀ name ∈ kept, m.MayHold name v
  Target := fun _ _ => True
  Layer := fun _ _ => True

theorem keeps (hs : Traced p kept (m.withStore s) ∧ Lasts kept m (m.withStore s)) :
    (relations p kept).Keeps m m s s :=
  ⟨⟨rfl, hs.1⟩, hs.2⟩

variable (h : Traced p kept m)
include h

theorem layer_held (l : LayerRef) :
    ∀ e ∈ (m.store.layer l).entries, ∀ name ∈ kept, m.MayHold name e.2 := by
  intro e he name hname
  exact Store.layer_of_all (h.layers name hname) (List.forall_mem_nil _) l e he

theorem elements_held (a : ArrayRef) :
    ∀ v ∈ m.store.elements a, ∀ name ∈ kept, m.MayHold name v := by
  intro v hv name hname
  exact Store.elements_of_all (h.arrays name hname) (by simp) a v hv

theorem members_held (o : ObjectRef) :
    ∀ e ∈ (m.store.members o).entries, ∀ name ∈ kept, m.MayHold name e.2 := by
  intro e he name hname
  exact Store.members_of_all (h.objects name hname) (List.forall_mem_nil _) o e he

theorem bind {l : LayerRef} (hv : ∀ name ∈ kept, m.MayHold name v) (key : String) :
    Traced p kept (m.withStore (m.store.bind l key v)) ∧
      Lasts kept m (m.withStore (m.store.bind l key v)) := by
  refine h.withStore (fun _ _ hc => hc) (Nat.le_refl _) (fun _ _ _ _ _ ht => ht) ?_ h.arrays h.objects
  intro name hname
  exact (h.layers name hname).modify fun t ht =>
    Table.forall_insert (h.layers name hname _ t ht) (hv name hname) key

theorem modifyArray {a : ArrayRef} {f : Array Value → Array Value}
    (hf : ∀ v ∈ f (m.store.elements a), ∀ name ∈ kept, m.MayHold name v) :
    Traced p kept (m.withStore (m.store.modifyArray a f)) ∧
      Lasts kept m (m.withStore (m.store.modifyArray a f)) := by
  refine h.withStore (fun _ _ hc => hc) (Nat.le_refl _) (fun _ _ _ _ _ ht => ht) h.layers ?_ h.objects
  intro name hname
  refine (h.arrays name hname).modify fun items hitems v hv => ?_
  have helements : m.store.elements a = items := Store.elements_of_get? hitems
  exact hf v (helements ▸ hv) name hname

theorem setMember {o : ObjectRef} (ho : ∀ name ∈ kept, m.MayHold name (.object o))
    (hv : ∀ name ∈ kept, m.MayHold name v) (key : String) :
    Traced p kept (m.withStore (m.store.setMember o key v)) ∧
      Lasts kept m (m.withStore (m.store.setMember o key v)) := by
  refine h.withStore (fun _ _ hc => hc) (Nat.le_of_eq (Arena.size_modify _ _ _).symm) ?_ h.layers
    h.arrays ?_
  · intro name hname o' t hget ht
    -- The object that is kept back is another one, since code holds this one.
    have hne : o.index ≠ o'.index := by
      intro heq
      have : o = o' := by cases o; cases o'; exact congrArg ObjectRef.mk heq
      exact (ho name hname o rfl).2 (this ▸ hget)
    show (m.store.objects.modify o.index _).get? o'.index = some t
    rw [Arena.get?_modify, if_neg hne, ht]
  · intro name hname
    exact (h.objects name hname).modify fun t ht =>
      Table.forall_insert (h.objects name hname _ t ht) (hv name hname) key

theorem addLayer (ht : ∀ e ∈ t.entries, ∀ name ∈ kept, m.MayHold name e.2) :
    Traced p kept (m.withStore (m.store.addLayer t).2) ∧
      Lasts kept m (m.withStore (m.store.addLayer t).2) := by
  refine h.withStore (fun _ _ hc => hc) (Nat.le_refl _) (fun _ _ _ _ _ ht => ht) ?_ h.arrays h.objects
  exact fun name hname => (h.layers name hname).push fun e he => ht e he name hname

theorem addArray {items : Array Value} (hi : ∀ v ∈ items, ∀ name ∈ kept, m.MayHold name v) :
    Traced p kept (m.withStore (m.store.addArray items).2) ∧
      Lasts kept m (m.withStore (m.store.addArray items).2) := by
  refine h.withStore (fun _ _ hc => hc) (Nat.le_refl _) (fun _ _ _ _ _ ht => ht) h.layers ?_ h.objects
  exact fun name hname => (h.arrays name hname).push fun v hv => hi v hv name hname

theorem addClosure (c : Closure) :
    Traced p kept (m.withStore (m.store.addClosure c).2) ∧
      Lasts kept m (m.withStore (m.store.addClosure c).2) :=
  h.grown (.addClosure m c)

/-- A new object is not the one that is kept back, which was there before. -/
theorem addObject (ht : ∀ e ∈ t.entries, ∀ name ∈ kept, m.MayHold name e.2) :
    (Traced p kept (m.withStore (m.store.addObject t).2) ∧
      Lasts kept m (m.withStore (m.store.addObject t).2)) ∧
    ∀ name ∈ kept, (m.withStore (m.store.addObject t).2).MayHold name (m.store.addObject t).1 := by
  have hgrows := m.store.objects.extends_push t
  constructor
  · refine h.withStore (fun _ _ hc => hc) (Nat.le_of_lt (by simp [Store.addObject]))
      (fun _ _ o t _ ht => hgrows _ _ ht) h.layers h.arrays ?_
    exact fun name hname => (h.objects name hname).push fun e he => ht e he name hname
  · rintro name hname _ ⟨⟩
    refine ⟨by simp [Store.Has, Store.addObject, Machine.withStore], fun hget => ?_⟩
    -- The object that is kept back has a cell already.
    obtain ⟨o, t', k, defs, k', ho, ht', -, -⟩ := h.object name hname _ hget
    cases ho
    exact absurd (Arena.lt_size_of_get? ht') (Nat.lt_irrefl _)

/-- A step that ends in a traced state, and that nothing done before is undone by. -/
def Stays {α : Type} (p : Program) (kept : Option String) (m : Machine) (Q : Machine → α → Prop)
    (x : Except Error α × Machine) : Prop :=
  (Traced p kept x.2 ∧ Lasts kept m x.2) ∧ ∀ a, x.1 = .ok a → Q x.2 a

omit h in
theorem Stays.steps {α : Type} {Q R : Machine → α → Prop} {x : Except Error α × Machine}
    (h : Stays p kept m Q x) (hsub : ∀ m' a, Q m' a → R m' a) :
    (relations p kept).Steps m R x x := by
  obtain ⟨⟨htraced, hlasts⟩, hresult⟩ := h
  obtain ⟨result, m'⟩ := x
  cases result with
  | ok a => exact .ok ⟨rfl, htraced⟩ hlasts (hsub m' a (hresult a rfl))
  | error e => exact .error rfl ⟨rfl, htraced⟩ hlasts

/-- A function that is taken out of the source, or out of the memo. -/
theorem extractFunction (name : String) :
    Stays p kept m (fun m' f => m'.functions.get? name = some f) (p.extractFunction name m) := by
  have hextracts := extracts_extractFunction p name m
  generalize p.extractFunction name m = x at hextracts
  cases hextracts with
  | known hget =>
    refine ⟨⟨h, .refl kept m⟩, ?_⟩
    rintro _ ⟨⟩
    exact hget
  | missing _ grown => exact ⟨h.grown grown, fun _ ha => by cases ha⟩
  | @taken n f d unknown grown defined made =>
    obtain ⟨htraced, hlasts⟩ := h.grown grown
    have hinsert := n.functions.get?_insert name
    refine ⟨⟨{ htraced with functions := ?_ }, { hlasts with functions := ?_ }⟩, ?_⟩
    · intro name' f' hf'
      rw [hinsert] at hf'
      split at hf'
      · rename_i heq
        subst heq
        cases hf'
        exact ⟨m.minted, d, n.minted, defined, made⟩
      · exact htraced.functions name' f' hf'
    · intro name' f' hf'
      show (n.functions.insert name f).get? name' = some f'
      rw [hinsert, if_neg ?_]
      · exact hlasts.functions name' f' hf'
      · rintro rfl
        rw [unknown] at hf'
        cases hf'
    · rintro _ ⟨⟩
      show (n.functions.insert name f).get? name = some f
      rw [hinsert, if_pos rfl]

omit h in
theorem mayHold_of_tableMade {defs : Table FunctionDef}
    (ht : TableMade s t defs) (name : String) : ∀ e ∈ t.entries, m.MayHold name e.2 :=
  ht.forall_entries fun _ _ _ => mayHold_plain (by simp)

/-- A table of functions of the source becomes an object, which is kept in the memo. -/
theorem remember {k k' : Nat} {defs : Table FunctionDef}
    (hdefs : p.objectDefinitions name (Source.objectCodes p.source name) k = (.ok defs, k'))
    (hmade : TableMade m.store t defs) :
    Stays p kept m (fun m' v => m'.objects.get? name = some v)
      (.ok (m.store.addObject t).1,
        ⟨(m.store.addObject t).2, m.functions, m.objects.insert name (m.store.addObject t).1,
          m.minted⟩) := by
  have hinsert := m.objects.get?_insert name
  have hlasts : Lasts kept m ⟨(m.store.addObject t).2, m.functions,
      m.objects.insert name (m.store.addObject t).1, m.minted⟩ := by
    refine ⟨fun _ _ hc => hc, fun _ _ hf => hf, Nat.le_of_lt (by simp [Store.addObject]), ?_⟩
    intro name' _ o ho
    dsimp only at ho
    rw [hinsert] at ho
    split at ho
    · cases ho
      exact .inr (Nat.le_refl _)
    · exact .inl ho
  refine ⟨⟨.of_lasts hlasts h.functions ?_ h.layers h.arrays ?_, hlasts⟩, ?_⟩
  · intro name' hname' v hv
    dsimp only at hv
    rw [hinsert] at hv
    split at hv
    · rename_i heq
      subst heq
      cases hv
      refine ⟨_, t, k, defs, k', rfl, ?_, hdefs, hmade⟩
      show (m.store.objects.push t).get? m.store.objects.size = some t
      rw [Arena.get?_push, if_pos rfl]
    · obtain ⟨o, t', k, defs, k', ho, ht', hdefs, hmade⟩ := h.object name' hname' v hv
      exact ⟨o, t', k, defs, k', ho, m.store.objects.extends_push t _ _ ht', hdefs, hmade⟩
  · exact fun name' hname' => (h.objects name' hname').push (mayHold_of_tableMade hmade name')
  · rintro _ ⟨⟩
    show (m.objects.insert name _).get? name = some _
    rw [hinsert, if_pos rfl]

/-- An object that is taken out of the source, or out of the memo. -/
theorem resolveObject (name : String) :
    Stays p kept m (fun m' v => m'.objects.get? name = some v) (p.resolveObject name m) := by
  have hresolves := resolves_resolveObject p name m
  generalize p.resolveObject name m = x at hresolves
  cases hresolves with
  | known hget =>
    refine ⟨⟨h, .refl kept m⟩, ?_⟩
    rintro _ ⟨⟩
    exact hget
  | missing _ grown => exact ⟨h.grown grown, fun _ ha => by cases ha⟩
  | taken _ grown defined made =>
    obtain ⟨htraced, hlasts⟩ := h.grown grown
    obtain ⟨⟨htraced', hlasts'⟩, hresult⟩ := htraced.remember defined made
    exact ⟨⟨htraced', hlasts.trans hlasts'⟩, hresult⟩

omit h in
/-- Code keeps the memos traced, and the object that is kept back out of its reach. -/
def discipline (p : Program) (kept : Option String) : Discipline p p where
  toRelations := relations p kept
  fails_refl := fun _ => rfl
  later_refl := .refl kept
  later_trans := .trans
  val_later := fun hlater hv name hname => (hv name hname).lasts hlater hname
  target_later := fun _ _ => trivial
  layer_later := fun _ _ => trivial
  val_plain := fun hplain _ _ => mayHold_plain (by rintro o rfl; cases hplain)
  target_of_val := fun _ => trivial
  val_of_target := fun _ hne _ _ => mayHold_plain hne
  loop := fun _ => trivial
  arrays_size := fun hl => by rw [hl.1]
  layer := fun hl _ => ⟨by rw [hl.1], hl.2.layer_held _⟩
  elements := fun hl _ => ⟨by rw [hl.1], hl.2.elements_held _⟩
  members := fun hl _ => ⟨by rw [hl.1], hl.2.members_held _⟩
  closure := fun hl _ => ⟨by rw [hl.1], fun _ _ => trivial, bodyAll_true _⟩
  bind := fun hl _ hv name => by obtain ⟨rfl, h⟩ := hl; exact keeps (h.bind hv name)
  modifyArray := fun hl _ f hf => by obtain ⟨rfl, h⟩ := hl; exact keeps (h.modifyArray hf)
  setMember := fun hl ho hv key => by obtain ⟨rfl, h⟩ := hl; exact keeps (h.setMember ho hv key)
  addLayer := fun hl ht => by
    obtain ⟨rfl, h⟩ := hl
    exact ⟨rfl, keeps (h.addLayer ht), trivial⟩
  addArray := fun hl hi => by
    obtain ⟨rfl, h⟩ := hl
    exact ⟨rfl, keeps (h.addArray hi), fun _ _ => mayHold_plain (by simp [Store.addArray])⟩
  addObject := fun hl ht => by
    obtain ⟨rfl, h⟩ := hl
    obtain ⟨hadded, hval⟩ := h.addObject ht
    exact ⟨rfl, keeps hadded, hval⟩
  addClosure := fun hl _ _ => by
    obtain ⟨rfl, h⟩ := hl
    exact ⟨rfl, keeps (h.addClosure _), fun _ _ => mayHold_plain (by simp)⟩
  extractFunction := fun hl name _ => by
    obtain ⟨rfl, h⟩ := hl
    exact (h.extractFunction name).steps fun _ _ _ _ _ => mayHold_plain (by simp)
  resolveObject := fun hl name _ => by
    obtain ⟨rfl, h⟩ := hl
    exact (h.resolveObject name).steps fun _ _ _ => trivial

end Traced
end PlayerScript
