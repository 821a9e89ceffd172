/-
Regions: sets of cells that a run cannot leave. A region has the layer of globals and every cell that
is yet to be added. As long as everything inside refers to cells inside, and the memos do too, code
that starts inside reads and writes nothing else; so two runs that agree inside go on to agree there,
whatever stands outside.
-/
import PlayerScript.Proofs.Eval.Runs

namespace PlayerScript

open Ast

/-- The code of a function of the source: one that is declared by its name, or a field of an
object. -/
inductive Program.HasCode (p : Program) : Source.FunctionCode → Prop
  | declared {name : String} {code : Source.FunctionCode}
      (h : Source.functionCode p.source name = .ok code) : HasCode p code
  | field {name key : String} {text body rest field : List Char} {code : Source.FunctionCode}
      (htext : text ∈ Source.objectCodes p.source name)
      (hbody : Source.separateAtBracket text none = .ok (body, rest))
      (hfield : field ∈ Source.fieldCodes body)
      (h : Source.field field = .ok (.function key code)) : HasCode p code

/-- A condition on every statement of every function of the source. -/
def Program.CodeAll (p : Program) (P : Stmt → Prop) : Prop :=
  ∀ {code}, p.HasCode code → ∀ minted body,
    (parseStatements code.body p.options.maxNesting minted).1 = .ok body → bodyAll P body

/-- An empty source has no functions. -/
theorem Program.codeAll_empty (options : Options) (P : Stmt → Prop) :
    Program.CodeAll ⟨[], options⟩ P := by
  have hobjects : ∀ name, Source.objectCodes [] name = [] := by
    intro name
    unfold Source.objectCodes
    cases name.toList <;> rfl
  intro code hcode
  cases hcode with
  | declared h => cases h
  | @field name _ _ _ _ _ _ htext => exact absurd htext (by rw [hobjects name]; exact List.not_mem_nil)

/-- Which statements may be run, those in the functions of the source among them, whether the first
of two runs may be cut off by the recursion limit, and whether runs may be given up in a loop. -/
structure Rules (p : Program) where
  cut : Prop
  loops : Prop
  allowed : Stmt → Prop
  no_cleanup : ∀ {body handler clean}, cut → ¬ allowed (.tryBlock body handler (some clean))
  loop : ∀ {init cond update body}, allowed (.forLoop init cond update body) → loops
  source : p.CodeAll allowed

/-- A set of cells, and the two states in which two runs begin. -/
structure Region (p : Program) extends Rules p where
  cells : Node → Prop
  first : Machine
  second : Machine
  globals : cells (.layer LayerRef.globals)
  fresh : ∀ n, ¬ first.store.Has n → cells n

namespace Region

variable {p : Program} (r : Region p)

/-- A value that refers to no cell outside. -/
def Inside (v : Value) : Prop := ∀ n, v.node? = some n → r.cells n

/-- A table all of whose values are inside. -/
def TableInside (t : Table Value) : Prop := ∀ e ∈ t.entries, r.Inside e.2

/-- A function that closed over layers inside, and that may be run. -/
structure ClosureInside (c : Closure) : Prop where
  captured : ∀ l ∈ c.captured.layers, r.cells (.layer l)
  body : bodyAll r.allowed c.definition.body

/-- Two states that agree inside a region which nothing inside refers out of, and that differ from
the states at the beginning only inside. -/
structure Linked (m₁ m₂ : Machine) : Prop where
  layers : Arena.Confined (fun i => r.cells (.layer ⟨i⟩)) r.TableInside
    r.first.store.layers r.second.store.layers m₁.store.layers m₂.store.layers
  arrays : Arena.Confined (fun i => r.cells (.array ⟨i⟩)) (fun items => ∀ v ∈ items, r.Inside v)
    r.first.store.arrays r.second.store.arrays m₁.store.arrays m₂.store.arrays
  objects : Arena.Confined (fun i => r.cells (.object ⟨i⟩)) r.TableInside
    r.first.store.objects r.second.store.objects m₁.store.objects m₂.store.objects
  closures : Arena.Confined (fun i => r.cells (.function ⟨i⟩)) r.ClosureInside
    r.first.store.closures r.second.store.closures m₁.store.closures m₂.store.closures
  functions : m₁.functions = m₂.functions
  known : m₁.objects = m₂.objects
  minted : m₁.minted = m₂.minted
  functions_inside : ∀ e ∈ m₁.functions.entries, r.cells (.function e.2)
  known_inside : r.TableInside m₁.objects

/-- The relations of a region. Values and layers are judged by the region alone. -/
def relations : Relations where
  cut := r.cut
  loops := r.loops
  Fails := Eq
  allowed := r.allowed
  Linked := r.Linked
  Later := fun _ _ => True
  Val := fun _ => r.Inside
  Target := fun _ => r.Inside
  Layer := fun _ l => r.cells (.layer l)

theorem inside_plain {v : Value} (h : v.isPlain = true) : r.Inside v := by
  intro n hn
  cases v with
  | array _ | object _ | function _ => cases h
  | _ => cases hn

variable {r} {m₁ m₂ : Machine} (hl : r.Linked m₁ m₂)
include hl

/-! ## What is read -/

theorem layer_inside {l : LayerRef} (h : r.cells (.layer l)) :
    m₁.store.layer l = m₂.store.layer l ∧ r.TableInside (m₁.store.layer l) := by
  refine ⟨congrArg (·.getD Table.empty) (hl.layers.agree l.index h), ?_⟩
  unfold Store.layer
  cases hget : m₁.store.layers.get? l.index with
  | none => exact List.forall_mem_nil _
  | some t => exact hl.layers.inside _ t h hget

theorem elements_inside {a : ArrayRef} (h : r.cells (.array a)) :
    m₁.store.elements a = m₂.store.elements a ∧ ∀ v ∈ m₁.store.elements a, r.Inside v := by
  refine ⟨congrArg (·.getD #[]) (hl.arrays.agree a.index h), ?_⟩
  unfold Store.elements
  cases hget : m₁.store.arrays.get? a.index with
  | none => simp
  | some items => exact hl.arrays.inside _ items h hget

theorem members_inside {o : ObjectRef} (h : r.cells (.object o)) :
    m₁.store.members o = m₂.store.members o ∧ r.TableInside (m₁.store.members o) := by
  refine ⟨congrArg (·.getD Table.empty) (hl.objects.agree o.index h), ?_⟩
  unfold Store.members
  cases hget : m₁.store.objects.get? o.index with
  | none => exact List.forall_mem_nil _
  | some t => exact hl.objects.inside _ t h hget

theorem closure_inside {f : FunctionRef} (h : r.cells (.function f)) :
    m₁.store.closure f = m₂.store.closure f ∧ r.ClosureInside (m₁.store.closure f) := by
  refine ⟨congrArg (·.getD default) (hl.closures.agree f.index h), ?_⟩
  unfold Store.closure
  cases hget : m₁.store.closures.get? f.index with
  | none => exact ⟨List.forall_mem_singleton.2 r.globals, trivial⟩
  | some c => exact hl.closures.inside _ c h hget

/-- No cell inside refers to a cell outside. -/
theorem refers_inside {a b : Node} (ha : r.cells a) (h : m₁.store.Refers a b) : r.cells b := by
  cases h with
  | binding he hn => exact (layer_inside hl ha).2 _ he _ hn
  | element hv hn => exact (elements_inside hl ha).2 _ hv _ hn
  | member he hn => exact (members_inside hl ha).2 _ he _ hn
  | captured hm => exact (closure_inside hl ha).2.captured _ hm

/-- Nothing outside can be reached from the inside. -/
theorem reaches_inside {layers : List LayerRef} {values : List Value}
    (hlayers : ∀ l ∈ layers, r.cells (.layer l)) (hvalues : ∀ v ∈ values, r.Inside v) {n : Node}
    (h : m₁.Reaches layers values n) : r.cells n :=
  h.inside hlayers hvalues r.globals hl.functions_inside hl.known_inside
    fun _ _ ha href => refers_inside hl ha href

/-! ## What is changed -/

theorem linked_bind {l : LayerRef} (h : r.cells (.layer l)) {v : Value} (hv : r.Inside v)
    (name : String) :
    r.Linked (m₁.withStore (m₁.store.bind l name v)) (m₂.withStore (m₂.store.bind l name v)) :=
  { hl with layers := hl.layers.modify h fun t ht =>
      Table.forall_insert (hl.layers.inside _ t h ht) hv name }

theorem linked_modifyArray {a : ArrayRef} (h : r.cells (.array a)) {f : Array Value → Array Value}
    (hf : ∀ v ∈ f (m₁.store.elements a), r.Inside v) :
    r.Linked (m₁.withStore (m₁.store.modifyArray a f)) (m₂.withStore (m₂.store.modifyArray a f)) := by
  refine { hl with arrays := hl.arrays.modify h fun items hitems => ?_ }
  rwa [Store.elements, hitems] at hf

theorem linked_setMember {o : ObjectRef} (h : r.cells (.object o)) {v : Value} (hv : r.Inside v)
    (key : String) :
    r.Linked (m₁.withStore (m₁.store.setMember o key v)) (m₂.withStore (m₂.store.setMember o key v)) :=
  { hl with objects := hl.objects.modify h fun t ht =>
      Table.forall_insert (hl.objects.inside _ t h ht) hv key }

/-! ## What is added -/

theorem linked_addLayer {t : Table Value} (ht : r.TableInside t) :
    r.Linked (m₁.withStore (m₁.store.addLayer t).2) (m₂.withStore (m₂.store.addLayer t).2) :=
  { hl with layers := hl.layers.push (fun _ hi => r.fresh _ (Nat.not_lt.2 hi)) ht }

theorem linked_addArray {items : Array Value} (h : ∀ v ∈ items, r.Inside v) :
    r.Linked (m₁.withStore (m₁.store.addArray items).2) (m₂.withStore (m₂.store.addArray items).2) :=
  { hl with arrays := hl.arrays.push (fun _ hi => r.fresh _ (Nat.not_lt.2 hi)) h }

theorem linked_addObject {t : Table Value} (ht : r.TableInside t) :
    r.Linked (m₁.withStore (m₁.store.addObject t).2) (m₂.withStore (m₂.store.addObject t).2) :=
  { hl with objects := hl.objects.push (fun _ hi => r.fresh _ (Nat.not_lt.2 hi)) ht }

theorem linked_addClosure {c : Closure} (hc : r.ClosureInside c) :
    r.Linked (m₁.withStore (m₁.store.addClosure c).2) (m₂.withStore (m₂.store.addClosure c).2) :=
  { hl with closures := hl.closures.push (fun _ hi => r.fresh _ (Nat.not_lt.2 hi)) hc }

theorem linked_mint (minted : Nat) :
    r.Linked { m₁ with minted := minted } { m₂ with minted := minted } :=
  { hl with minted := rfl }

/-! ## What is taken out of the source -/

omit hl in
theorem steps_from {α : Type} {m m' : Machine} {Q : Machine → α → Prop}
    {x y : Except Error α × Machine} (h : r.relations.Steps m Q x y) :
    r.relations.Steps m' Q x y := by
  cases h with
  | ok linked _ result => exact .ok linked trivial result
  | error errors linked _ => exact .error errors linked trivial

theorem steps_compile {code : Source.FunctionCode} (hcode : p.HasCode code) (name : String) :
    r.relations.Steps m₁ (fun _ f => r.cells (.function f))
      (p.compile name code Program.globalScope m₁) (p.compile name code Program.globalScope m₂) := by
  have hbody := r.source hcode m₁.minted
  unfold Program.compile Program.parse
  rw [← hl.minted]
  generalize parseStatements code.body p.options.maxNesting m₁.minted = parsed at hbody
  obtain ⟨result, minted⟩ := parsed
  have hl' := linked_mint hl minted
  cases result with
  | error e => exact .error rfl hl' trivial
  | ok body =>
    have hc : r.ClosureInside ⟨⟨name, code.params, body⟩, Program.globalScope⟩ :=
      ⟨List.forall_mem_singleton.2 r.globals, hbody body rfl⟩
    have hadded := linked_addClosure hl' hc
    -- The new function has the same reference on both sides, as there are equally many.
    dsimp only [Store.addClosure]
    rw [← hl.closures.size]
    exact .ok hadded trivial (r.fresh _ (Nat.not_lt.2 hl.closures.grown))

omit hl in
theorem steps_compileFields : ∀ {fields : List (List Char)} {t : Table Value} {m₁ m₂ : Machine},
    r.Linked m₁ m₂ → r.TableInside t →
    (∀ field ∈ fields, ∀ key code, Source.field field = .ok (.function key code) → p.HasCode code) →
    r.relations.Steps m₁ (fun _ found => ∀ t, found = some t → r.TableInside t)
      (p.compileFields fields t m₁) (p.compileFields fields t m₂)
  | [], t, _, _, hl, ht, _ => .ok hl trivial (by rintro _ ⟨⟩; exact ht)
  | field :: rest, t, m₁, m₂, hl, ht, hcodes => by
    rw [List.forall_mem_cons] at hcodes
    rw [Program.compileFields, Program.compileFields]
    cases hfield : Source.field field with
    | error e => exact .error rfl hl trivial
    | ok found =>
      cases found with
      | blank => exact steps_compileFields hl ht hcodes.2
      | other => exact .ok hl trivial (by simp)
      | function key code =>
        have hstep := steps_compile hl (hcodes.1 key code hfield) key
        dsimp only
        generalize p.compile key code Program.globalScope m₁ = x₁ at hstep
        generalize p.compile key code Program.globalScope m₂ = x₂ at hstep
        cases hstep with
        | error errors linked _ => exact .error errors linked trivial
        | @ok f n₁ n₂ linked _ hf =>
          have ht' : r.TableInside (t.insert key (.function f)) := by
            refine Table.forall_insert ht ?_ key
            rintro _ ⟨⟩
            exact hf
          exact steps_from (steps_compileFields linked ht' hcodes.2)

omit hl in
theorem steps_compileObject {name : String} : ∀ {texts : List (List Char)} {m₁ m₂ : Machine},
    r.Linked m₁ m₂ → (∀ text ∈ texts, text ∈ Source.objectCodes p.source name) →
    r.relations.Steps m₁ (fun _ t => r.TableInside t)
      (p.compileObject name texts m₁) (p.compileObject name texts m₂)
  | [], _, _, hl, _ => .error rfl hl trivial
  | text :: rest, m₁, m₂, hl, htexts => by
    rw [List.forall_mem_cons] at htexts
    rw [Program.compileObject, Program.compileObject]
    cases hbody : Source.separateAtBracket text none with
    | error e => exact steps_compileObject hl htexts.2
    | ok found =>
      obtain ⟨body, behind⟩ := found
      have hempty : r.TableInside Table.empty := List.forall_mem_nil _
      have hstep := steps_compileFields hl hempty
        fun field hfield key code hcode => .field htexts.1 hbody hfield hcode
      dsimp only
      generalize p.compileFields (Source.fieldCodes body) Table.empty m₁ = x₁ at hstep
      generalize p.compileFields (Source.fieldCodes body) Table.empty m₂ = x₂ at hstep
      cases hstep with
      | error errors linked _ => exact .error errors linked trivial
      | @ok found n₁ n₂ linked _ hfound =>
        cases found with
        | some t => exact .ok linked trivial (hfound t rfl)
        | none => exact steps_from (steps_compileObject linked htexts.2)

theorem steps_extractFunction (name : String) :
    r.relations.Steps m₁ (fun _ f => r.Inside (.function f))
      (p.extractFunction name m₁) (p.extractFunction name m₂) := by
  have hinside : ∀ {f}, r.cells (.function f) → r.Inside (.function f) := by
    rintro f hf _ ⟨⟩
    exact hf
  unfold Program.extractFunction MemoView.fetch Machine.functionMemo
  dsimp only
  rw [← hl.functions]
  cases hget : m₁.functions.get? name with
  | some f =>
    obtain ⟨e, he, rfl⟩ := Table.mem_of_get? hget
    exact .ok hl trivial (hinside (hl.functions_inside e he))
  | none =>
    cases hcode : Source.functionCode p.source name with
    | error e => exact .error rfl hl trivial
    | ok code =>
      have hstep := steps_compile hl (.declared hcode) name
      dsimp only
      generalize p.compile name code Program.globalScope m₁ = x₁ at hstep
      generalize p.compile name code Program.globalScope m₂ = x₂ at hstep
      cases hstep with
      | error errors linked _ => exact .error errors linked trivial
      | @ok f n₁ n₂ linked _ hf =>
        refine .ok { linked with functions := ?_, functions_inside := ?_ } trivial (hinside hf)
        · show n₁.functions.insertNew name f = n₂.functions.insertNew name f
          rw [linked.functions]
        · exact Table.forall_insertNew (P := fun f => r.cells (.function f)) linked.functions_inside hf name

theorem steps_resolveObject (name : String) :
    r.relations.Steps m₁ (fun _ v => r.Inside v) (p.resolveObject name m₁) (p.resolveObject name m₂) := by
  unfold Program.resolveObject MemoView.fetch Machine.objectMemo
  dsimp only
  rw [← hl.known]
  cases hget : m₁.objects.get? name with
  | some v =>
    obtain ⟨e, he, rfl⟩ := Table.mem_of_get? hget
    exact .ok hl trivial (hl.known_inside e he)
  | none =>
    have hstep := steps_compileObject hl fun text (h : text ∈ Source.objectCodes p.source name) => h
    dsimp only
    generalize p.compileObject name (Source.objectCodes p.source name) m₁ = x₁ at hstep
    generalize p.compileObject name (Source.objectCodes p.source name) m₂ = x₂ at hstep
    cases hstep with
    | error errors linked _ => exact .error errors linked trivial
    | @ok t n₁ n₂ linked _ ht =>
      have hadded := linked_addObject linked ht
      have hvalue : r.Inside (n₁.store.addObject t).1 := by
        rintro _ ⟨⟩
        exact r.fresh _ (Nat.not_lt.2 linked.objects.grown)
      dsimp only [Store.addObject]
      rw [← linked.objects.size]
      refine .ok { hadded with known := ?_, known_inside := ?_ } trivial hvalue
      · show n₁.objects.insertNew name _ = n₂.objects.insertNew name _
        rw [linked.known]
      · exact Table.forall_insertNew linked.known_inside hvalue name

/-! ## The discipline of a region -/

omit hl in
/-- Code that starts inside a region stays inside. -/
def discipline (r : Region p) : Discipline p p where
  toRelations := r.relations
  fails_refl := fun _ => rfl
  later_refl := fun _ => trivial
  later_trans := fun _ _ => trivial
  val_later := fun _ hv => hv
  target_later := fun _ hv => hv
  layer_later := fun _ hl => hl
  val_plain := fun hv => r.inside_plain hv
  target_of_val := fun hv => hv
  val_of_target := fun hv _ => hv
  loop := r.loop
  arrays_size := fun hl => hl.arrays.size
  layer := fun hl h => layer_inside hl h
  elements := fun hl h => elements_inside hl (h _ rfl)
  members := fun hl h => members_inside hl (h _ rfl)
  closure := fun hl h =>
    let ⟨heq, hc⟩ := closure_inside hl (h _ rfl)
    ⟨heq, hc.captured, hc.body⟩
  bind := fun hl h hv name => ⟨linked_bind hl h hv name, trivial⟩
  modifyArray := fun hl h _ hf => ⟨linked_modifyArray hl (h _ rfl) hf, trivial⟩
  setMember := fun hl h hv key => ⟨linked_setMember hl (h _ rfl) hv key, trivial⟩
  addLayer := fun hl ht =>
    ⟨congrArg LayerRef.mk hl.layers.size, ⟨linked_addLayer hl ht, trivial⟩,
      r.fresh _ (Nat.not_lt.2 hl.layers.grown)⟩
  addArray := fun hl h =>
    ⟨congrArg (fun i => Value.array ⟨i⟩) hl.arrays.size, ⟨linked_addArray hl h, trivial⟩,
      by rintro _ ⟨⟩; exact r.fresh _ (Nat.not_lt.2 hl.arrays.grown)⟩
  addObject := fun hl ht =>
    ⟨congrArg (fun i => Value.object ⟨i⟩) hl.objects.size, ⟨linked_addObject hl ht, trivial⟩,
      by rintro _ ⟨⟩; exact r.fresh _ (Nat.not_lt.2 hl.objects.grown)⟩
  addClosure := fun hl hs hb =>
    ⟨congrArg FunctionRef.mk hl.closures.size, ⟨linked_addClosure hl ⟨hs, hb⟩, trivial⟩,
      by rintro _ ⟨⟩; exact r.fresh _ (Nat.not_lt.2 hl.closures.grown)⟩
  extractFunction := fun hl name _ => steps_extractFunction hl name
  resolveObject := fun hl name _ => steps_resolveObject hl name

omit hl in
theorem uncleaned : r.discipline.Uncleaned := fun _ _ _ hcut => r.no_cleanup hcut

end Region
end PlayerScript
