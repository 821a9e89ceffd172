/-
Stores that are the same but for the cells of arrays and objects. What operators and members give in two
such stores is the same but for these cells, so code cannot tell which cells it works on. A cell that is
added to one store can be given to a cell of the other one that nothing was given to.
-/
import PlayerScript.Proofs.Store.Closed
import PlayerScript.Proofs.Value.Growth

namespace PlayerScript

/-! ## Tables -/

namespace Table

variable {α β : Type}

/-- The table with other values under the same names. -/
def map (f : α → β) (t : Table α) : Table β := ⟨t.entries.map fun e => (e.1, f e.2)⟩

theorem size_map (f : α → β) (t : Table α) : (t.map f).size = t.size := List.length_map _

theorem get?_map (f : α → β) (t : Table α) (name : String) : (t.map f).get? name = (t.get? name).map f := by
  obtain ⟨entries⟩ := t
  show (entries.map fun e => (e.1, f e.2)).lookup name = (entries.lookup name).map f
  induction entries with
  | nil => rfl
  | cons e rest ih =>
    obtain ⟨n, v⟩ := e
    rw [List.map_cons, List.lookup_cons, List.lookup_cons, ih]
    cases name == n <;> rfl

theorem map_insert (f : α → β) (t : Table α) (name : String) (v : α) :
    (t.insert name v).map f = (t.map f).insert name (f v) := by
  obtain ⟨entries⟩ := t
  refine congrArg mk (show (insertEntry name v entries).map (fun e => (e.1, f e.2)) =
    insertEntry name (f v) (entries.map fun e => (e.1, f e.2)) from ?_)
  induction entries with
  | nil => rfl
  | cons e rest ih =>
    obtain ⟨n, w⟩ := e
    rw [List.map_cons, insertEntry, insertEntry]
    split
    · rfl
    · rw [List.map_cons, ih]

theorem map_congr {f g : α → β} {t : Table α} (h : ∀ e ∈ t.entries, f e.2 = g e.2) : t.map f = t.map g :=
  congrArg mk (List.map_congr_left fun e he => by rw [h e he])

theorem map_eq_self {f : α → α} {t : Table α} (h : ∀ e ∈ t.entries, f e.2 = e.2) : t.map f = t := by
  have hid : t.map (fun x => x) = t := congrArg mk (List.map_id _)
  exact (map_congr h).trans hid

end Table

/-! ## Renamings -/

namespace Renaming

variable (ρ : Renaming)

/-- The renaming that gives an array another cell. -/
def setArray (a b : ArrayRef) : Renaming := { ρ with array := fun x => if x = a then b else ρ.array x }

/-- The renaming that gives an object another cell. -/
def setObject (o b : ObjectRef) : Renaming := { ρ with object := fun x => if x = o then b else ρ.object x }

theorem array_setArray_self (a b : ArrayRef) : (ρ.setArray a b).array a = b := if_pos rfl

theorem array_setArray_of_ne {a b x : ArrayRef} (h : x ≠ a) : (ρ.setArray a b).array x = ρ.array x := if_neg h

theorem object_setObject_self (o b : ObjectRef) : (ρ.setObject o b).object o = b := if_pos rfl

theorem object_setObject_of_ne {o b x : ObjectRef} (h : x ≠ o) : (ρ.setObject o b).object x = ρ.object x :=
  if_neg h

/-- Two renamings give the same cells to what a store has. -/
def AgreesOn (s : Store) (σ : Renaming) : Prop := ∀ v : Value, v.ExistsIn s → v.rename σ = v.rename ρ

end Renaming

namespace Value

variable {ρ : Renaming} {s : Store}

@[simp] theorem isTruthy_rename (v : Value) : (v.rename ρ).isTruthy = v.isTruthy := by
  cases v <;> rfl

theorem joinsText_rename (v : Value) : (v.rename ρ).joinsText = v.joinsText := by
  cases v <;> rfl

theorem index?_rename (v : Value) : (v.rename ρ).index? = v.index? := by
  cases v <;> rfl

end Value

namespace Renaming

variable {ρ : Renaming} {s : Store}

theorem agreesOn_setArray {a : ArrayRef} (ha : ¬ s.Has (.array a)) (b : ArrayRef) :
    ρ.AgreesOn s (ρ.setArray a b) := by
  intro v hv
  cases v with
  | array x =>
    have hne : x ≠ a := by
      rintro rfl
      exact ha (hv _ rfl)
    exact congrArg Value.array (ρ.array_setArray_of_ne hne)
  | _ => rfl

theorem agreesOn_setObject {o : ObjectRef} (ho : ¬ s.Has (.object o)) (b : ObjectRef) :
    ρ.AgreesOn s (ρ.setObject o b) := by
  intro v hv
  cases v with
  | object x =>
    have hne : x ≠ o := by
      rintro rfl
      exact ho (hv _ rfl)
    exact congrArg Value.object (ρ.object_setObject_of_ne hne)
  | _ => rfl

end Renaming

/-! ## Stores -/

/-- Every cell of a store is found in another store: functions as they are, arrays and objects in other
cells, with contents that refer to other cells, and no two of them in the same cell. -/
structure Store.Renames (ρ : Renaming) (s t : Store) : Prop where
  array : ∀ a, s.Has (.array a) →
    t.Has (.array (ρ.array a)) ∧ t.elements (ρ.array a) = (s.elements a).map (Value.rename ρ)
  object : ∀ o, s.Has (.object o) →
    t.Has (.object (ρ.object o)) ∧ t.members (ρ.object o) = (s.members o).map (Value.rename ρ)
  closures : s.closures.Extends t.closures
  arrays_apart : ∀ a b, s.Has (.array a) → s.Has (.array b) → ρ.array a = ρ.array b → a = b
  objects_apart : ∀ a b, s.Has (.object a) → s.Has (.object b) → ρ.object a = ρ.object b → a = b

namespace Store.Renames

variable {ρ : Renaming} {s t u : Store}

/-- A store that has grown has every cell under its own name. -/
theorem of_extends (h : s.Extends t) : s.Renames .id t where
  array a ha := by
    have hid : Value.rename .id = fun v => v := funext Value.rename_id
    rw [hid, Array.map_id']
    exact ⟨h.has ha, h.elements ha⟩
  object o ho := ⟨h.has ho, (h.members ho).trans (Table.map_eq_self fun e _ => e.2.rename_id).symm⟩
  closures := h.closures
  arrays_apart _ _ _ _ heq := heq
  objects_apart _ _ _ _ heq := heq

/-- Other renamings do as well if they give the same cells to what there is. -/
theorem of_agree {m : Machine} (h : m.store.Renames ρ t) (hm : m.Closed) {σ : Renaming}
    (hagree : ρ.AgreesOn m.store σ) : m.store.Renames σ t := by
  have harray : ∀ a, m.store.Has (.array a) → σ.array a = ρ.array a :=
    fun a ha => Value.array.inj (hagree _ (Value.ExistsIn.array ha))
  have hobject : ∀ o, m.store.Has (.object o) → σ.object o = ρ.object o :=
    fun o ho => Value.object.inj (hagree _ (Value.ExistsIn.object ho))
  refine ⟨fun a ha => ?_, fun o ho => ?_, h.closures, fun a b ha hb => ?_, fun a b ha hb => ?_⟩
  · rw [harray a ha, Array.map_congr_left fun v hv => hagree v (hm.elementsExist a v hv)]
    exact h.array a ha
  · rw [hobject o ho, Table.map_congr fun e he => hagree e.2 (hm.members o e he)]
    exact h.object o ho
  · rw [harray a ha, harray b hb]
    exact h.arrays_apart a b ha hb
  · rw [hobject a ha, hobject b hb]
    exact h.objects_apart a b ha hb

/-- More functions in the first store are found in the second one if they are there. -/
theorem grown {m m' : Machine} (h : m.store.Renames ρ t) (hg : m.Grown m')
    (hclosures : m'.store.closures.Extends t.closures) : m'.store.Renames ρ t := by
  have harrays := hg.arrays
  have hobjects := hg.objects
  obtain ⟨⟨layers, arrays, objects, closures⟩, functions, known, minted⟩ := m
  obtain ⟨⟨layers', arrays', objects', closures'⟩, functions', known', minted'⟩ := m'
  cases harrays
  cases hobjects
  exact ⟨h.array, h.object, hclosures, h.arrays_apart, h.objects_apart⟩

variable (h : s.Renames ρ t)
include h

theorem extends_right (hu : t.Extends u) : s.Renames ρ u where
  array a ha := ⟨hu.has (h.array a ha).1, (hu.elements (h.array a ha).1).trans (h.array a ha).2⟩
  object o ho := ⟨hu.has (h.object o ho).1, (hu.members (h.object o ho).1).trans (h.object o ho).2⟩
  closures := h.closures.trans hu.closures
  arrays_apart := h.arrays_apart
  objects_apart := h.objects_apart

/-! ### Additions -/

/-- A new array goes to a cell that has its contents and that no other array went to. -/
theorem addArray {items : Array Value} (hhas : t.Has (.array (ρ.array ⟨s.arrays.size⟩)))
    (helements : t.elements (ρ.array ⟨s.arrays.size⟩) = items.map (Value.rename ρ))
    (hfree : ∀ a, s.Has (.array a) → ρ.array a ≠ ρ.array ⟨s.arrays.size⟩) :
    (s.addArray items).2.Renames ρ t := by
  have hcases : ∀ a, (s.addArray items).2.Has (.array a) → s.Has (.array a) ∨ a = ⟨s.arrays.size⟩ :=
    fun _ => Store.array_of_has_addArray
  refine ⟨fun a ha => ?_, h.object, h.closures, fun a b ha hb heq => ?_, h.objects_apart⟩
  · rcases hcases a ha with hold | rfl
    · rw [(Store.Extends.addArray s items).elements hold]
      exact h.array a hold
    · rw [Store.elements_addArray]
      exact ⟨hhas, helements⟩
  · rcases hcases a ha with ha | rfl
    · rcases hcases b hb with hb | rfl
      · exact h.arrays_apart a b ha hb heq
      · exact absurd heq (hfree a ha)
    · rcases hcases b hb with hb | rfl
      · exact absurd heq.symm (hfree b hb)
      · rfl

/-- A new object goes to a cell that has its members and that no other object went to. -/
theorem addObject {members : Table Value} (hhas : t.Has (.object (ρ.object ⟨s.objects.size⟩)))
    (hmembers : t.members (ρ.object ⟨s.objects.size⟩) = members.map (Value.rename ρ))
    (hfree : ∀ o, s.Has (.object o) → ρ.object o ≠ ρ.object ⟨s.objects.size⟩) :
    (s.addObject members).2.Renames ρ t := by
  have hcases : ∀ o, (s.addObject members).2.Has (.object o) → s.Has (.object o) ∨ o = ⟨s.objects.size⟩ :=
    fun _ => Store.object_of_has_addObject
  refine ⟨h.array, fun o ho => ?_, h.closures, h.arrays_apart, fun a b ha hb heq => ?_⟩
  · rcases hcases o ho with hold | rfl
    · rw [(Store.Extends.addObject s members).members hold]
      exact h.object o hold
    · rw [Store.members_addObject]
      exact ⟨hhas, hmembers⟩
  · rcases hcases a ha with ha | rfl
    · rcases hcases b hb with hb | rfl
      · exact h.objects_apart a b ha hb heq
      · exact absurd heq (hfree a ha)
    · rcases hcases b hb with hb | rfl
      · exact absurd heq.symm (hfree b hb)
      · rfl

/-! ### Equality -/

section

variable {a b : Value} (ha : a.ExistsIn s) (hb : b.ExistsIn s)
include ha hb

theorem strictEquals : (a.rename ρ).strictEquals (b.rename ρ) = a.strictEquals b := by
  cases a with
  | array x =>
    cases b with
    | array y =>
      have hiff : ρ.array x = ρ.array y ↔ x = y :=
        ⟨h.arrays_apart x y (ha _ rfl) (hb _ rfl), congrArg ρ.array⟩
      exact Bool.eq_iff_iff.2 (beq_iff_eq.trans (hiff.trans beq_iff_eq.symm))
    | _ => rfl
  | object x =>
    cases b with
    | object y =>
      have hiff : ρ.object x = ρ.object y ↔ x = y :=
        ⟨h.objects_apart x y (ha _ rfl) (hb _ rfl), congrArg ρ.object⟩
      exact Bool.eq_iff_iff.2 (beq_iff_eq.trans (hiff.trans beq_iff_eq.symm))
    | _ => rfl
  | _ => cases b <;> rfl

theorem looseEquals : (a.rename ρ).looseEquals (b.rename ρ) = a.looseEquals b := by
  rw [Value.looseEquals, Value.looseEquals, h.strictEquals ha hb, Value.isNullish_rename,
    Value.isNullish_rename]

end

variable (hs : s.ElementsExist)
include hs

/-! ### Conversions -/

section

variable {v : Value} (hv : v.ExistsIn s)
include hv

theorem text : (v.rename ρ).text t = v.text s :=
  Value.text_rename (P := fun v => v.ExistsIn s)
    (fun a ha => ⟨(h.array a (ha _ rfl)).2, fun v hv => hs a v hv⟩)
    (fun f hf => by rw [Store.closure, Store.closure, h.closures.get?_eq (hf _ rfl)])
    (fun a ha => ⟨ha _ rfl, (h.array a (ha _ rfl)).1⟩) hv

theorem toNumber : (v.rename ρ).toNumber t = v.toNumber s :=
  Value.toNumber_rename (P := fun v => v.ExistsIn s)
    (fun a ha => ⟨(h.array a (ha _ rfl)).2, fun v hv => hs a v hv⟩) (fun hw => h.text hs hw) hv

theorem toInt32 : (v.rename ρ).toInt32 t = v.toInt32 s := by
  rw [Value.toInt32, Value.toInt32, h.toNumber hs hv]

end

/-! ### Operators -/

theorem unary (op : UnaryOp) {v : Value} (hv : v.ExistsIn s) :
    op.apply t (v.rename ρ) = (op.apply s v).rename ρ := by
  cases op with
  | neg => exact congrArg (fun x : Float => Value.number (-x)) (h.toNumber hs hv)
  | plus => exact congrArg Value.number (h.toNumber hs hv)
  | not => exact congrArg (fun b => Value.bool !b) v.isTruthy_rename
  | void => rfl

section

variable {a b : Value} (ha : a.ExistsIn s) (hb : b.ExistsIn s)
include ha hb

theorem bitwise (f : BitVec 32 → BitVec 32 → BitVec 32) :
    Value.bitwise t f (a.rename ρ) (b.rename ρ) = (Value.bitwise s f a b).rename ρ := by
  rw [Value.bitwise, h.toInt32 hs ha, h.toInt32 hs hb]
  rfl

theorem arithmetic (f : Float → Float → Float) :
    Value.arithmetic t f (a.rename ρ) (b.rename ρ) = (Value.arithmetic s f a b).rename ρ := by
  rw [Value.arithmetic, h.toNumber hs ha, h.toNumber hs hb]
  rfl

theorem sum : Value.sum t (a.rename ρ) (b.rename ρ) = (Value.sum s a b).rename ρ := by
  unfold Value.sum
  rw [Value.joinsText_rename, Value.joinsText_rename, h.text hs ha, h.text hs hb, h.toNumber hs ha,
    h.toNumber hs hb]
  split <;> rfl

theorem compare? : (a.rename ρ).compare? t (b.rename ρ) = a.compare? s b := by
  have hnumbers := congrArg₂ Value.compareNumbers? (h.toNumber hs ha) (h.toNumber hs hb)
  cases a with
  | undefined => rfl
  | string =>
    cases b with
    | undefined | string => rfl
    | _ => exact hnumbers
  | _ =>
    cases b with
    | undefined => rfl
    | _ => exact hnumbers

theorem comparesAs (accepts : Ordering → Bool) :
    Value.comparesAs t accepts (a.rename ρ) (b.rename ρ) = (Value.comparesAs s accepts a b).rename ρ := by
  rw [Value.comparesAs, h.compare? hs ha hb]
  rfl

theorem binary (op : BinaryOp) : op.apply t (a.rename ρ) (b.rename ρ) = (op.apply s a b).rename ρ := by
  unfold BinaryOp.apply
  cases op with
  | nullish => dsimp only; rw [Value.isNullish_rename]; split <;> rfl
  | or => dsimp only; rw [Value.isTruthy_rename]; split <;> rfl
  | and => dsimp only; rw [Value.isTruthy_rename]; split <;> rfl
  | bitOr | bitXor | bitAnd | shr | shl => exact h.bitwise hs ha hb _
  | strictEq => exact congrArg Value.bool (h.strictEquals ha hb)
  | strictNe => exact congrArg (fun c => Value.bool !c) (h.strictEquals ha hb)
  | eq => exact congrArg Value.bool (h.looseEquals ha hb)
  | ne => exact congrArg (fun c => Value.bool !c) (h.looseEquals ha hb)
  | lt | le | gt | ge => exact h.comparesAs hs ha hb _
  | add => exact h.sum hs ha hb
  | sub | mul | div | mod | pow => exact h.arithmetic hs ha hb _

end

/-! ### Members -/

theorem member {target key : Value} (htarget : target.ExistsIn s) (hkey : key.ExistsIn s) :
    (target.rename ρ).member t (key.rename ρ) = (target.member s key).map (Value.rename ρ) := by
  unfold Value.member Value.place?
  dsimp only
  rw [h.text hs hkey, key.index?_rename]
  generalize key.text s = name
  generalize key.index? = index
  cases target with
  | undefined | null =>
    exact congrArg (fun text => (.error (.type (.noProperties text name)) : Except Error Value))
      (h.text hs htarget)
  | string x =>
    dsimp only [Value.rename]
    split
    · rfl
    · cases index.bind fun i => x.toList[i]? <;> rfl
  | array a =>
    dsimp only [Value.rename]
    rw [(h.array a (htarget _ rfl)).2, Array.size_map]
    split
    · rfl
    · cases index with
      | none => rfl
      | some i =>
        simp only [Option.bind_some, Array.getElem?_map]
        cases (s.elements a)[i]? <;> rfl
  | object o =>
    dsimp only [Value.rename]
    rw [(h.object o (htarget _ rfl)).2, Table.get?_map, Table.size_map]
    cases (s.members o).get? name with
    | some v => rfl
    | none =>
      dsimp only [Option.map_none]
      split <;> rfl
  | bool | number | function => rfl

end Store.Renames

end PlayerScript
