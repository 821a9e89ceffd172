/-
No reference ever dangles. Code only holds values that refer to cells that exist, and puts only such values
into cells and memos. So every operation of an interpreter, and every history of operations, leads from a
state without dangling references to such a state, if what it is given exists.
-/
import PlayerScript.Proofs.Eval.History
import PlayerScript.Proofs.Store.Closed

namespace PlayerScript

open Ast Eval

/-! ## Changes -/

/-- Every cell of a state is one of another state. -/
def Machine.Inside (m m' : Machine) : Prop := ∀ n, m.store.Has n → m'.store.Has n

namespace Machine.Closed

variable {p : Program} {m m' : Machine} (h : m.Closed)
include h

theorem bind {v : Value} (hv : v.ExistsIn m.store) (l : LayerRef) (name : String) :
    (m.withStore (m.store.bind l name v)).Closed ∧ m.Inside (m.withStore (m.store.bind l name v)) := by
  have hhas : m.Inside (m.withStore (m.store.bind l name v)) := fun _ => (Store.has_bind_iff name v).2
  exact ⟨h.withStore hhas (h.layers.modify fun t ht => (h.layers _ t ht).insert hv name) h.arrays h.objects,
    hhas⟩

theorem modifyArray {a : ArrayRef} {f : Array Value → Array Value}
    (hf : ∀ v ∈ f (m.store.elements a), v.ExistsIn m.store) :
    (m.withStore (m.store.modifyArray a f)).Closed ∧ m.Inside (m.withStore (m.store.modifyArray a f)) := by
  have hhas : m.Inside (m.withStore (m.store.modifyArray a f)) := fun _ => (Store.has_modifyArray_iff f).2
  refine ⟨h.withStore hhas h.layers (h.arrays.modify fun items hitems v hv => ?_) h.objects, hhas⟩
  have helements : m.store.elements a = items := Store.elements_of_get? hitems
  exact hf v (helements ▸ hv)

theorem setMember {v : Value} (hv : v.ExistsIn m.store) (o : ObjectRef) (key : String) :
    (m.withStore (m.store.setMember o key v)).Closed ∧ m.Inside (m.withStore (m.store.setMember o key v)) := by
  have hhas : m.Inside (m.withStore (m.store.setMember o key v)) := fun _ => (Store.has_setMember_iff key v).2
  exact ⟨h.withStore hhas h.layers h.arrays (h.objects.modify fun t ht => (h.objects _ t ht).insert hv key),
    hhas⟩

theorem addLayer {t : Table Value} (ht : t.ExistsIn m.store) :
    (m.withStore (m.store.addLayer t).2).Closed ∧ m.Inside (m.withStore (m.store.addLayer t).2) := by
  have hhas : m.Inside (m.withStore (m.store.addLayer t).2) := by
    intro n hn
    cases n with
    | layer l =>
      show l.index < (m.store.layers.push t).size
      rw [Arena.size_push]
      exact Nat.lt_succ_of_lt hn
    | _ => exact hn
  exact ⟨h.withStore hhas (h.layers.push ht) h.arrays h.objects, hhas⟩

/-- Asking for a function gives one that exists, if it gives one. -/
theorem extracts {name : String} {x : Except Error FunctionRef × Machine} (hx : Extracts p name m x) :
    (x.2.Closed ∧ m.Inside x.2) ∧ ∀ f, x.1 = .ok f → x.2.store.Has (.function f) := by
  cases hx with
  | known hget =>
    obtain ⟨e, he, rfl⟩ := Table.mem_of_get? hget
    refine ⟨⟨h, fun _ hn => hn⟩, ?_⟩
    rintro _ ⟨⟩
    exact h.functions e he
  | @taken n f d _ grown _ made =>
    have hgrown := h.grown grown
    have hf : n.store.Has (.function f) := Arena.lt_size_of_get? made
    refine ⟨⟨{ hgrown with functions := ?_ }, fun _ => (Store.Extends.grown grown).has⟩, ?_⟩
    · exact Table.forall_insert (P := fun f => n.store.Has (.function f)) hgrown.functions hf name
    · rintro _ ⟨⟩
      exact hf
  | missing _ grown => exact ⟨⟨h.grown grown, fun _ => (Store.Extends.grown grown).has⟩, nofun⟩

/-! ## The discipline of states without dangling references -/

omit h in
/-- The relations of states without dangling references. Both runs are the same one. -/
def relations : Relations where
  cut := False
  loops := True
  Fails := Eq
  allowed := .always
  Linked := fun m₁ m₂ => m₁ = m₂ ∧ m₁.Closed
  Later := Machine.Inside
  Val := fun m v => v.ExistsIn m.store
  Target := fun m v => v.ExistsIn m.store
  Layer := fun _ _ => True

omit h in
theorem keeps {s : Store} (hs : (m.withStore s).Closed ∧ m.Inside (m.withStore s)) :
    relations.Keeps m m s s :=
  ⟨⟨rfl, hs.1⟩, hs.2⟩

omit h in
theorem steps {α : Type} {Q : Machine → α → Prop} {x : Except Error α × Machine}
    (hx : x.2.Closed ∧ m.Inside x.2) (hresult : ∀ a, x.1 = .ok a → Q x.2 a) : relations.Steps m Q x x := by
  obtain ⟨result, m'⟩ := x
  cases result with
  | ok a => exact .ok ⟨rfl, hx.1⟩ hx.2 (hresult a rfl)
  | error e => exact .error rfl ⟨rfl, hx.1⟩ hx.2

omit h in
/-- Code holds only values that refer to cells that exist. -/
def discipline (p : Program) : Discipline p p where
  toRelations := relations
  fails_refl := fun _ => rfl
  later_refl := fun _ _ hn => hn
  later_trans := fun h h' n hn => h' n (h n hn)
  val_later := fun hlater hv => hv.of_has hlater
  target_later := fun hlater hv => hv.of_has hlater
  layer_later := fun _ _ => trivial
  val_plain := fun hplain => .plain hplain _
  target_of_val := fun hv => hv
  val_of_target := fun hv _ => hv
  loop := fun _ => trivial
  arrays_size := fun hl => by rw [hl.1]
  layer := fun hl _ => ⟨by rw [hl.1], hl.2.layer _⟩
  elements := fun hl _ => ⟨by rw [hl.1], hl.2.elementsExist _⟩
  members := fun hl _ => ⟨by rw [hl.1], hl.2.members _⟩
  closure := fun hl _ => ⟨by rw [hl.1], fun _ _ => trivial, bodyAll_true _⟩
  bind := fun hl _ hv name => by obtain ⟨rfl, h⟩ := hl; exact keeps (h.bind hv _ name)
  modifyArray := fun hl _ f hf => by obtain ⟨rfl, h⟩ := hl; exact keeps (h.modifyArray hf)
  setMember := fun hl _ hv key => by obtain ⟨rfl, h⟩ := hl; exact keeps (h.setMember hv _ key)
  addLayer := fun hl ht => by
    obtain ⟨rfl, h⟩ := hl
    exact ⟨rfl, keeps (h.addLayer ht), trivial⟩
  addArray := fun hl hi => by
    obtain ⟨rfl, h⟩ := hl
    refine ⟨rfl, keeps ⟨h.addArray hi, fun _ => (Store.Extends.addArray _ _).has⟩, .array ?_⟩
    simp [Store.Has, Store.addArray, Machine.withStore]
  addObject := fun hl ht => by
    obtain ⟨rfl, h⟩ := hl
    refine ⟨rfl, keeps ⟨h.addObject ht, fun _ => (Store.Extends.addObject _ _).has⟩, .object ?_⟩
    simp [Store.Has, Store.addObject, Machine.withStore]
  addClosure := fun {m _ c} hl _ _ => by
    obtain ⟨rfl, h⟩ := hl
    have hgrown := Machine.Grown.addClosure m c
    refine ⟨rfl, keeps ⟨h.grown hgrown, fun _ => (Store.Extends.grown hgrown).has⟩, .function ?_⟩
    simp [Store.Has, Store.addClosure, Machine.withStore]
  extractFunction := fun {m _} hl name _ => by
    obtain ⟨rfl, h⟩ := hl
    obtain ⟨hclosed, hresult⟩ := h.extracts (extracts_extractFunction p name m)
    exact steps hclosed fun f hf => .function (hresult f hf)
  resolveObject := fun {m _} hl name _ => by
    obtain ⟨rfl, h⟩ := hl
    have hresolves := resolves_resolveObject p name m
    obtain ⟨hclosed, hresult⟩ := h.resolves hresolves
    exact steps ⟨hclosed, fun _ => (Store.Extends.resolves hresolves).has⟩ hresult

omit h in
theorem open_discipline (p : Program) : (discipline p).Open where
  uncut := id
  same h := h.1
  names _ := trivial
  bodies := bodyAll_true
  layers _ _ := trivial
  mint _ h := ⟨⟨rfl, h.2.grown (.mint _ _)⟩, fun _ hn => hn⟩

/-- Every operation leaves a state without dangling references if what it is given exists. -/
theorem operation (op : Operation) (hinputs : ∀ v ∈ op.inputs, v.ExistsIn m.store)
    (hcalled : ∀ f args, op = .call f args → m.store.Has (.function f)) (hend : op.run p m = some m') :
    m'.Closed ∧ m.Inside m' := by
  obtain ⟨hlinked, hinside⟩ := (open_discipline p).operation ⟨rfl, h⟩ op hinputs
    (fun f args hop => .function (hcalled f args hop)) hend
  exact ⟨hlinked.2, hinside⟩

end Machine.Closed

/-! ## Histories -/

/-- Every operation of a history is given what exists by then. -/
def Operation.Supplied (p : Program) : List Operation → Machine → Prop
  | [], _ => True
  | op :: rest, m => (∀ v ∈ op.inputs, v.ExistsIn m.store) ∧
      (∀ f args, op = .call f args → m.store.Has (.function f)) ∧
      ∀ m', op.run p m = some m' → Supplied p rest m'

/-- No history leaves a reference that dangles, and every cell that there was stays. -/
theorem Machine.Closed.runAll {p : Program} {history : List Operation} {m m' : Machine} (h : m.Closed)
    (hsupplied : Operation.Supplied p history m) (hend : Operation.runAll p history m = some m') :
    m'.Closed ∧ m.Inside m' := by
  induction history generalizing m with
  | nil =>
    cases hend
    exact ⟨h, fun _ hn => hn⟩
  | cons op rest ih =>
    obtain ⟨n, hop, hrest⟩ := Option.bind_eq_some_iff.1 hend
    obtain ⟨hinputs, hcalled, hlater⟩ := hsupplied
    obtain ⟨hclosed, hinside⟩ := h.operation op hinputs hcalled hop
    obtain ⟨hclosed', hinside'⟩ := ih hclosed (hlater n hop) hrest
    exact ⟨hclosed', fun n hn => hinside' n (hinside n hn)⟩

theorem Machine.closed_initial : (Machine.initial Store.initial Table.empty).Closed where
  layers := .push (fun _ _ h => by cases h) (List.forall_mem_nil _)
  arrays _ _ h := by cases h
  objects _ _ h := by cases h
  functions := List.forall_mem_nil _
  known := List.forall_mem_nil _

end PlayerScript
