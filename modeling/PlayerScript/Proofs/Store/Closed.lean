/-
States without dangling references: every value that a layer, an array, an object or a memo holds refers
to a cell that exists. What is read from such a state exists, and a state stays such a state when
something is added to it that is made of what exists.
-/
import PlayerScript.Proofs.Eval.Definitions
import PlayerScript.Proofs.Value.Linked

namespace PlayerScript

/-! ## Stores that grow -/

namespace Arena

variable {α : Type} {a b c : Arena α}

theorem exists_of_lt_size {i : Nat} (h : i < a.size) : ∃ x, a.get? i = some x :=
  ⟨_, Array.getElem?_eq_getElem h⟩

theorem Extends.size_le (h : a.Extends b) : a.size ≤ b.size := by
  refine Nat.le_of_not_lt fun hlt => ?_
  obtain ⟨x, hx⟩ := exists_of_lt_size hlt
  exact Nat.lt_irrefl _ (lt_size_of_get? (h _ x hx))

theorem Extends.trans (h : a.Extends b) (h' : b.Extends c) : a.Extends c :=
  fun i x hx => h' i x (h i x hx)

theorem Extends.get?_eq (h : a.Extends b) {i : Nat} (hi : i < a.size) : a.get? i = b.get? i := by
  obtain ⟨x, hx⟩ := exists_of_lt_size hi
  rw [hx, h i x hx]

end Arena

/-- The layers are the same, and every array, object and function is still there as it was. -/
structure Store.Extends (s t : Store) : Prop where
  layers : t.layers = s.layers
  arrays : s.arrays.Extends t.arrays
  objects : s.objects.Extends t.objects
  closures : s.closures.Extends t.closures

namespace Store.Extends

variable {s t u : Store} {n : Node}

theorem refl (s : Store) : s.Extends s := ⟨rfl, fun _ _ h => h, fun _ _ h => h, fun _ _ h => h⟩

theorem trans (h : s.Extends t) (h' : t.Extends u) : s.Extends u :=
  ⟨h'.layers.trans h.layers, h.arrays.trans h'.arrays, h.objects.trans h'.objects,
    h.closures.trans h'.closures⟩

theorem addArray (s : Store) (items : Array Value) : s.Extends (s.addArray items).2 :=
  ⟨rfl, s.arrays.extends_push items, fun _ _ h => h, fun _ _ h => h⟩

theorem addObject (s : Store) (members : Table Value) : s.Extends (s.addObject members).2 :=
  ⟨rfl, fun _ _ h => h, s.objects.extends_push members, fun _ _ h => h⟩

theorem grown {m m' : Machine} (h : m.Grown m') : m.store.Extends m'.store :=
  ⟨h.layers, fun _ _ ha => h.arrays ▸ ha, fun _ _ ho => h.objects ▸ ho, h.closures⟩

theorem resolves {p : Program} {name : String} {m : Machine} {x : Except Error Value × Machine}
    (hx : Resolves p name m x) : m.store.Extends x.2.store := by
  cases hx with
  | known => exact .refl _
  | taken _ hgrown => exact (grown hgrown).trans (.addObject _ _)
  | missing _ hgrown => exact .grown hgrown

variable (h : s.Extends t)
include h

theorem has (hn : s.Has n) : t.Has n := by
  cases n with
  | layer l => exact Nat.lt_of_lt_of_eq hn (congrArg Arena.size h.layers.symm)
  | array a => exact Nat.lt_of_lt_of_le hn h.arrays.size_le
  | object o => exact Nat.lt_of_lt_of_le hn h.objects.size_le
  | function f => exact Nat.lt_of_lt_of_le hn h.closures.size_le

theorem sameAt (hn : s.Has n) : s.SameAt t n := by
  cases n with
  | layer l => exact congrArg (fun layers => layers.get? l.index) h.layers.symm
  | array a => exact h.arrays.get?_eq hn
  | object o => exact h.objects.get?_eq hn
  | function f => exact h.closures.get?_eq hn

theorem elements {a : ArrayRef} (ha : s.Has (.array a)) : t.elements a = s.elements a :=
  elements_of_sameAt (h.sameAt ha)

theorem members {o : ObjectRef} (ho : s.Has (.object o)) : t.members o = s.members o := by
  rw [Store.members, Store.members, show s.objects.get? o.index = t.objects.get? o.index from h.sameAt ho]

theorem scope_get (scope : Scope) (name : String) : scope.get t name = scope.get s name := by
  rw [Scope.get, Scope.get, Scope.get?, Scope.get?]
  unfold Store.layer
  rw [h.layers]

theorem scope_contains (scope : Scope) (name : String) : scope.contains t name = scope.contains s name := by
  rw [Scope.contains, Scope.contains]
  unfold Store.layer
  rw [h.layers]

end Store.Extends

/-! ## Values that exist -/

namespace Value.ExistsIn

theorem plain {v : Value} (h : v.isPlain = true) (s : Store) : v.ExistsIn s := by
  intro n hn
  cases v with
  | array | object | function => cases h
  | _ => cases hn

theorem of_has {s t : Store} (hhas : ∀ n, s.Has n → t.Has n) {v : Value} (h : v.ExistsIn s) : v.ExistsIn t :=
  fun n hn => hhas n (h n hn)

theorem array {s : Store} {a : ArrayRef} (h : s.Has (.array a)) : (Value.array a).ExistsIn s := by
  rintro _ ⟨⟩
  exact h

theorem object {s : Store} {o : ObjectRef} (h : s.Has (.object o)) : (Value.object o).ExistsIn s := by
  rintro _ ⟨⟩
  exact h

theorem function {s : Store} {f : FunctionRef} (h : s.Has (.function f)) : (Value.function f).ExistsIn s := by
  rintro _ ⟨⟩
  exact h

end Value.ExistsIn

/-- Every value of a table refers to a cell that exists, if it refers to a cell. -/
def Table.ExistsIn (t : Table Value) (s : Store) : Prop := ∀ e ∈ t.entries, e.2.ExistsIn s

theorem Table.ExistsIn.insert {t : Table Value} {s : Store} (ht : t.ExistsIn s) {v : Value} (hv : v.ExistsIn s)
    (name : String) : (t.insert name v).ExistsIn s :=
  Table.forall_insert (P := fun v : Value => v.ExistsIn s) ht hv name

theorem TableMade.existsIn {s : Store} {t : Table Value} {defs : Table FunctionDef} (h : TableMade s t defs) :
    t.ExistsIn s :=
  h.forall_entries (P := fun v => v.ExistsIn s) fun _ _ hmade => .function (Arena.lt_size_of_get? hmade)

/-! ## States -/

/-- Every value that a cell or a memo holds refers to a cell that exists, if it refers to a cell. -/
structure Machine.Closed (m : Machine) : Prop where
  layers : m.store.layers.All fun t => t.ExistsIn m.store
  arrays : m.store.arrays.All fun items => ∀ v ∈ items, v.ExistsIn m.store
  objects : m.store.objects.All fun t => t.ExistsIn m.store
  functions : ∀ e ∈ m.functions.entries, m.store.Has (.function e.2)
  known : m.objects.ExistsIn m.store

namespace Machine.Closed

variable {m m' : Machine} (h : m.Closed)
include h

/-! ### Reading -/

theorem layer (l : LayerRef) : (m.store.layer l).ExistsIn m.store :=
  Store.layer_of_all h.layers (List.forall_mem_nil _) l

theorem elementsExist : m.store.ElementsExist := fun a =>
  Store.elements_of_all h.arrays (by simp) a

theorem members (o : ObjectRef) : (m.store.members o).ExistsIn m.store :=
  Store.members_of_all h.objects (List.forall_mem_nil _) o

theorem scope_get (scope : Scope) (name : String) : (scope.get m.store name).ExistsIn m.store := by
  unfold Scope.get
  cases hget : scope.get? m.store name with
  | none => exact .plain rfl _
  | some v =>
    obtain ⟨l, -, hv⟩ := List.exists_of_findSome?_eq_some hget
    obtain ⟨e, he, rfl⟩ := Table.mem_of_get? hv
    exact h.layer l e he

theorem member {target key v : Value} (hv : target.member m.store key = .ok v) : v.ExistsIn m.store := by
  cases target with
  | undefined | null => cases hv
  | string s =>
    simp only [Value.member] at hv
    split at hv
    · cases hv
      exact .plain rfl _
    · cases hv
      cases key.place? fun i => s.toList[i]? <;> exact .plain rfl _
  | array a =>
    simp only [Value.member] at hv
    split at hv
    · cases hv
      exact .plain rfl _
    · cases hv
      cases hplace : key.place? fun i => (m.store.elements a)[i]? with
      | none => exact .plain rfl _
      | some w => exact h.elementsExist a w (Value.place?_mem hplace)
  | object o =>
    simp only [Value.member] at hv
    split at hv
    · rename_i w hw
      obtain ⟨e, he, rfl⟩ := Table.mem_of_get? hw
      cases hv
      exact h.members o e he
    · cases hv
      split <;> exact .plain rfl _
  | bool | number | function =>
    cases hv
    exact .plain rfl _

/-! ### Additions -/

/-- A state with more cells has no dangling references if the values in its cells exist before. -/
theorem withStore {s : Store} (hhas : ∀ n, m.store.Has n → s.Has n)
    (hlayers : s.layers.All fun t => t.ExistsIn m.store)
    (harrays : s.arrays.All fun items => ∀ v ∈ items, v.ExistsIn m.store)
    (hobjects : s.objects.All fun t => t.ExistsIn m.store) : (m.withStore s).Closed :=
  ⟨hlayers.mono fun _ ht e he => (ht e he).of_has hhas, harrays.mono fun _ hi v hv => (hi v hv).of_has hhas,
    hobjects.mono fun _ ht e he => (ht e he).of_has hhas, fun e he => hhas _ (h.functions e he),
    fun e he => (h.known e he).of_has hhas⟩

theorem addArray {items : Array Value} (hi : ∀ v ∈ items, v.ExistsIn m.store) :
    (m.withStore (m.store.addArray items).2).Closed :=
  h.withStore (fun _ => (Store.Extends.addArray m.store items).has) h.layers (h.arrays.push hi) h.objects

theorem addObject {t : Table Value} (ht : t.ExistsIn m.store) :
    (m.withStore (m.store.addObject t).2).Closed :=
  h.withStore (fun _ => (Store.Extends.addObject m.store t).has) h.layers h.arrays (h.objects.push ht)

theorem grown (hg : m.Grown m') : m'.Closed := by
  have hhas : ∀ n, m.store.Has n → m'.store.Has n := fun _ => (Store.Extends.grown hg).has
  have hstore := h.withStore (s := m'.store) hhas (hg.layers ▸ h.layers) (hg.arrays ▸ h.arrays)
    (hg.objects ▸ h.objects)
  exact ⟨hstore.layers, hstore.arrays, hstore.objects, hg.functions ▸ hstore.functions,
    hg.known ▸ hstore.known⟩

/-- A new object can be remembered under a name. -/
theorem remember {t : Table Value} (ht : t.ExistsIn m.store) (name : String) :
    Closed ⟨(m.store.addObject t).2, m.functions, m.objects.insert name (m.store.addObject t).1, m.minted⟩ := by
  have hadded := h.addObject ht
  have hnew : (m.store.addObject t).1.ExistsIn (m.store.addObject t).2 :=
    .object (by simp [Store.Has, Store.addObject])
  exact { hadded with known := hadded.known.insert hnew name }

/-- Asking for an object gives one that exists, if it gives one. -/
theorem resolves {p : Program} {name : String} {x : Except Error Value × Machine} (hx : Resolves p name m x) :
    x.2.Closed ∧ ∀ v, x.1 = .ok v → v.ExistsIn x.2.store := by
  cases hx with
  | known hget =>
    obtain ⟨e, he, rfl⟩ := Table.mem_of_get? hget
    refine ⟨h, ?_⟩
    rintro _ ⟨⟩
    exact h.known e he
  | taken _ grown _ made =>
    refine ⟨(h.grown grown).remember made.existsIn name, ?_⟩
    rintro _ ⟨⟩
    exact .object (by simp [Store.Has, Store.addObject])
  | missing _ grown =>
    refine ⟨h.grown grown, ?_⟩
    rintro _ ⟨⟩

end Machine.Closed
end PlayerScript
