/-
What texts and numbers of values depend on: the arrays that a value reaches through arrays, the
functions in them, and how many arrays there are. Which cells the arrays and objects are does not
matter, so these facts are stated for values whose arrays and objects have been given other cells.
-/
import PlayerScript.Proofs.Store.Changes
import PlayerScript.Value.Convert

namespace PlayerScript

variable {v : Value}

/-- A value that refers to a cell that exists, if it refers to a cell. -/
def Value.ExistsIn (v : Value) (s : Store) : Prop := ∀ n, v.node? = some n → s.Has n

/-- Every element of an array refers to a cell that exists, if it refers to a cell. -/
def Store.ElementsExist (s : Store) : Prop := ∀ a, ∀ v ∈ s.elements a, v.ExistsIn s

/-- Other cells for arrays and objects. -/
structure Renaming where
  array : ArrayRef → ArrayRef
  object : ObjectRef → ObjectRef

/-- Every cell stays what it is. -/
def Renaming.id : Renaming := ⟨fun a => a, fun o => o⟩

namespace Value

/-- A value that refers to the other cell. -/
def rename (ρ : Renaming) : Value → Value
  | .array a => .array (ρ.array a)
  | .object o => .object (ρ.object o)
  | v => v

@[simp] theorem rename_id (v : Value) : v.rename .id = v := by
  cases v <;> rfl

@[simp] theorem isNullish_rename (ρ : Renaming) (v : Value) : (v.rename ρ).isNullish = v.isNullish := by
  cases v <;> rfl

/-! ## Texts of values without elements -/

/-- Whether a value is an array. -/
def isArray : Value → Bool
  | .array _ => true
  | _ => false

theorem nestsWithin_of_not_isArray (h : v.isArray = false) (store : Store) (depth : Nat) :
    v.nestsWithin store depth = true := by
  cases v with
  | array a => cases h
  | _ => cases depth <;> rfl

theorem textWithin_of_not_isArray (h : v.isArray = false) (store : Store) (depth : Nat) :
    v.textWithin store depth = v.textWithin store 0 := by
  cases v with
  | array a => cases h
  | bool b => cases b <;> cases depth <;> rfl
  | _ => cases depth <;> rfl

theorem text_of_not_isArray (h : v.isArray = false) (store : Store) :
    v.text store = v.textWithin store 0 := by
  rw [text, if_pos (nestsWithin_of_not_isArray h _ _), textWithin_of_not_isArray h]

theorem text_number (x : Float) (store : Store) : (Value.number x).text store = Number.text x :=
  text_of_not_isArray rfl store

theorem text_string (store : Store) (x : String) : (Value.string x).text store = x :=
  text_of_not_isArray rfl store

/-! ## Values with other cells -/

section

variable {ρ : Renaming} {s t : Store} {P : Value → Prop}
  (harray : ∀ a, P (.array a) →
    t.elements (ρ.array a) = (s.elements a).map (rename ρ) ∧ ∀ v ∈ s.elements a, P v)
include harray

theorem elements_rename {a : ArrayRef} (ha : P (.array a)) :
    (t.elements (ρ.array a)).toList = (s.elements a).toList.map (rename ρ) ∧
      ∀ v ∈ (s.elements a).toList, P v := by
  obtain ⟨heq, helements⟩ := harray a ha
  rw [heq, Array.toList_map]
  exact ⟨rfl, fun v hmem => helements v (Array.mem_def.2 hmem)⟩

/-- A text is the same in two stores that agree, up to a renaming, on the arrays and functions it is
made from. -/
theorem textWithin_rename (hfunction : ∀ f, P (.function f) → t.closure f = s.closure f) (depth : Nat)
    (hv : P v) : (v.rename ρ).textWithin t depth = v.textWithin s depth := by
  induction depth generalizing v with
  | zero =>
    cases v with
    | function f => exact congrArg (fun c => functionText c.definition.name) (hfunction f hv)
    | bool b => cases b <;> rfl
    | _ => rfl
  | succ depth ih =>
    cases v with
    | array a =>
      obtain ⟨heq, helements⟩ := elements_rename harray hv
      rw [rename, textWithin, textWithin, heq, List.map_map]
      congr 1
      refine List.map_congr_left fun w hmem => ?_
      rw [Function.comp_apply, isNullish_rename, ih (helements w hmem)]
    | function f => exact congrArg (fun c => functionText c.definition.name) (hfunction f hv)
    | bool b => cases b <;> rfl
    | _ => rfl

theorem nestsWithin_rename (depth : Nat) (hv : P v) :
    (v.rename ρ).nestsWithin t depth = v.nestsWithin s depth := by
  induction depth generalizing v with
  | zero => cases v <;> rfl
  | succ depth ih =>
    cases v with
    | array a =>
      obtain ⟨heq, helements⟩ := elements_rename harray hv
      rw [rename, nestsWithin, nestsWithin, heq, List.all_map, Bool.eq_iff_iff, List.all_eq_true,
        List.all_eq_true]
      refine forall₂_congr fun w hmem => ?_
      rw [Function.comp_apply, ih (helements w hmem)]
    | _ => rfl

/-- A number is the same in two stores in which the elements of arrays have the same texts. -/
theorem toNumber_rename (htext : ∀ {v}, P v → (v.rename ρ).text t = v.text s) (hv : P v) :
    (v.rename ρ).toNumber t = v.toNumber s := by
  cases v with
  | array a =>
    obtain ⟨heq, helements⟩ := elements_rename harray hv
    unfold rename toNumber
    dsimp only
    rw [heq]
    generalize (s.elements a).toList = items at helements
    cases items with
    | nil => rfl
    | cons w rest =>
      cases rest with
      | nil => exact congrArg Number.ofText (htext (helements w List.mem_cons_self))
      | cons => rfl
  | _ => rfl

end

section

variable {s t : Store} {P : Value → Prop}
  (harray : ∀ a, P (.array a) → s.elements a = t.elements a ∧ ∀ v ∈ s.elements a, P v)
include harray

theorem elements_rename_id (a : ArrayRef) (ha : P (.array a)) :
    t.elements (Renaming.id.array a) = (s.elements a).map (rename .id) ∧ ∀ v ∈ s.elements a, P v := by
  have hid : rename .id = fun v => v := funext rename_id
  rw [hid, Array.map_id']
  exact ⟨(harray a ha).1.symm, (harray a ha).2⟩

/-- A text is the same in two stores with as many arrays that agree on the arrays and functions it is
made from. -/
theorem text_congr (hfunction : ∀ f, P (.function f) → s.closure f = t.closure f)
    (hsize : s.arrays.size = t.arrays.size) (hv : P v) : v.text s = v.text t := by
  have hsame := elements_rename_id harray
  have htext := textWithin_rename hsame (fun f hf => (hfunction f hf).symm) t.arrays.size hv
  have hnests := nestsWithin_rename hsame t.arrays.size hv
  rw [rename_id] at htext hnests
  rw [text, text, hsize, htext, hnests]

theorem toNumber_congr (htext : ∀ {v}, P v → v.text s = v.text t) (hv : P v) :
    v.toNumber s = v.toNumber t := by
  have hnumber := toNumber_rename (elements_rename_id harray)
    (fun hw => by rw [rename_id]; exact (htext hw).symm) hv
  rw [rename_id] at hnumber
  exact hnumber.symm

end

end Value
end PlayerScript
