/-
What the built-in methods do to the store. A call that is refused changes nothing. One that is accepted
changes at most the array it is called on, in the way of a list function, and adds at most one array,
which it returns.
-/
import Mathlib
import PlayerScript.Proofs.Eval.Steps
import PlayerScript.Proofs.Value.LinkedMethods

namespace PlayerScript

open Eval

namespace Method

/-! ## List functions -/

/-- The list with `count` elements from `start` on replaced by others. -/
def replaceRun {α : Type} (start count : Nat) (others xs : List α) : List α :=
  xs.take start ++ others ++ xs.drop (start + count)

/-- The place from which on elements of an array are replaced. -/
def spliceStart (store : Store) (args : List Value) (size : Nat) : Nat :=
  Value.position store size 0 args[0]?

/-- The number of elements of an array that are replaced: all from the place on if it is not given. -/
def spliceCount (store : Store) (args : List Value) (size : Nat) : Nat :=
  let available := size - spliceStart store args size
  (args[1]?.map (Value.count store available)).getD available

/-- What a method makes of the elements of the array it is called on. -/
def remaining (store : Store) (args xs : List Value) : Method → List Value
  | .reverse => xs.reverse
  | .splice =>
    replaceRun (spliceStart store args xs.length) (spliceCount store args xs.length) (args.drop 2) xs
  | .unshift => args ++ xs
  | .pop => xs.dropLast
  | .push => xs ++ args
  | _ => xs

/-! ## Effects -/

/-- The methods whose results, if they are arrays, are new ones. -/
def makers : List Method := [.split, .slice, .splice, .concat]

/-- The methods that return what they are called on. -/
def selves : List Method := [.reverse, .unshift, .push]

/-- What a call of a method that returns `v` does: layers, objects and functions stay, and so do all
arrays but the one it is called on, of which the method makes what its list function says. -/
structure Effect (method : Method) (store : Store) (target : Value) (args : List Value) (v : Value)
    (after : Store) : Prop where
  layers : after.layers = store.layers
  objects : after.objects = store.objects
  closures : after.closures = store.closures
  others : ∀ a, store.Has (.array a) → target ≠ .array a → after.elements a = store.elements a
  receiver : ∀ a, target = .array a →
    (after.elements a).toList = method.remaining store args (store.elements a).toList
  fresh : method ∈ makers → ∀ a, v = .array a → ¬ store.Has (.array a) ∧ after.Has (.array a)
  itself : method ∈ selves → v = target

/-- A call is refused, or it has its effect. -/
inductive Acts (method : Method) (store : Store) (target : Value) (args : List Value) :
    Except Error (Value × Store) → Prop
  | refused (e : Error) : Acts method store target args (.error e)
  | done {v : Value} {after : Store} (effect : method.Effect store target args v after) :
      Acts method store target args (.ok (v, after))

section

variable {method : Method} {store : Store} {target : Value} {args : List Value}

/-- A method that changes nothing and returns no array. -/
theorem acts_pure {v : Value} (hv : ∀ a, v ≠ .array a) (hself : method ∉ selves)
    (hid : ∀ xs, method.remaining store args xs = xs) :
    method.Acts store target args (.ok (v, store)) :=
  .done ⟨rfl, rfl, rfl, fun _ _ _ => rfl, fun _ _ => (hid _).symm, fun _ a ha => absurd ha (hv a),
    fun h => absurd h hself⟩

/-- A method that adds an array and returns it. -/
theorem acts_addArray (items : Array Value) (htarget : target.ExistsIn store) (hself : method ∉ selves)
    (hid : ∀ xs, method.remaining store args xs = xs) :
    method.Acts store target args (.ok (store.addArray items)) := by
  have hkept : ∀ a, store.Has (.array a) → (store.addArray items).2.elements a = store.elements a :=
    fun a ha => Store.elements_of_sameAt (Store.sameAt_addArray items ha)
  refine .done ⟨rfl, rfl, rfl, fun a ha _ => hkept a ha, ?_, ?_, fun h => absurd h hself⟩
  · rintro a rfl
    rw [hid]
    exact congrArg Array.toList (hkept a (htarget _ rfl))
  · rintro - a ha
    obtain ⟨b, hb, hnew, hhas⟩ := Store.not_has_addArray store items
    cases hb.symm.trans ha
    exact ⟨hnew, hhas⟩

/-- A method that changes its array. -/
theorem acts_modifyArray {a : ArrayRef} (hhas : store.Has (.array a)) {v : Value}
    {f : Array Value → Array Value}
    (hf : (f (store.elements a)).toList = method.remaining store args (store.elements a).toList)
    (hmaker : method ∉ makers) (hself : method ∈ selves → v = .array a) :
    method.Acts store (.array a) args (.ok (v, store.modifyArray a f)) := by
  refine .done ⟨rfl, rfl, rfl, fun b _ hne => ?_, ?_, fun h => absurd h hmaker, hself⟩
  · refine Store.elements_of_sameAt (Store.sameAt_modifyArray f ?_)
    rintro ⟨⟩
    exact hne rfl
  · rintro b ⟨⟩
    rw [Store.elements_modifyArray hhas, hf]

variable (args) (htarget : target.ExistsIn store)
include htarget

/-! ## Methods that only read -/

theorem acts_split : Acts .split store target args (runSplit store target args) := by
  cases target with
  | string s =>
    match args with
    | [] => exact acts_addArray _ htarget (by decide) fun _ => rfl
    | [_] => exact acts_addArray _ htarget (by decide) fun _ => rfl
    | _ :: _ :: _ => exact .refused _
  | _ => exact .refused _

omit htarget in
theorem acts_join : Acts .join store target args (runJoin store target args) := by
  cases target with
  | array a =>
    match args with
    | [_] => exact acts_pure (by simp) (by decide) fun _ => rfl
    | [] => exact .refused _
    | _ :: _ :: _ => exact .refused _
  | _ => exact .refused _

theorem acts_slice : Acts .slice store target args (runSlice store target args) := by
  unfold runSlice
  split_ifs with hmany
  · exact .refused _
  · cases target with
    | array a => exact acts_addArray _ htarget (by decide) fun _ => rfl
    | string s => exact acts_pure (by simp) (by decide) fun _ => rfl
    | _ => exact .refused _

omit htarget in
theorem acts_lookFor (needle : Value) (start : Option Value) :
    Acts .indexOf store target args (lookFor store target needle start) := by
  have hfound : ∀ i a, found i ≠ .array a := fun i a => by cases i <;> simp [found, Value.ofNat]
  cases target with
  | array a => exact acts_pure (hfound _) (by decide) fun _ => rfl
  | string s => exact acts_pure (hfound _) (by decide) fun _ => rfl
  | _ => exact .refused _

omit htarget in
theorem acts_indexOf : Acts .indexOf store target args (runIndexOf store target args) := by
  unfold runIndexOf
  split
  · exact acts_lookFor _ _ _
  · exact acts_lookFor _ _ _
  · exact .refused _

omit htarget in
theorem acts_charCodeAt : Acts .charCodeAt store target args (runCharCodeAt store target args) := by
  cases target with
  | string s =>
    have hcode : ∀ (c : Option Char) (a : ArrayRef),
        ((c.map fun c => Value.ofNat c.toNat).getD (.number Number.nan)) ≠ .array a := by
      intro c a
      cases c <;> simp [Value.ofNat]
    exact acts_pure (hcode _) (by decide) fun _ => rfl
  | _ => exact .refused _

theorem acts_concat : Acts .concat store target args (runConcat store target args) := by
  cases target with
  | array a => exact acts_addArray _ htarget (by decide) fun _ => rfl
  | string s => exact acts_pure (by simp) (by decide) fun _ => rfl
  | _ => exact .refused _

/-! ## Methods that change their array -/

theorem acts_reverse : Acts .reverse store target args (runReverse store target args) := by
  match args with
  | [] =>
    cases target with
    | array a => exact acts_modifyArray (htarget _ rfl) Array.toList_reverse (by decide) fun _ => rfl
    | _ => exact .refused _
  | _ :: _ => exact .refused _

theorem acts_unshift : Acts .unshift store target args (runUnshift store target args) := by
  cases target with
  | array a =>
    refine acts_modifyArray (htarget _ rfl) ?_ (by decide) fun _ => rfl
    rw [Array.toList_append, List.toList_toArray]
    rfl
  | _ => exact .refused _

theorem acts_pop : Acts .pop store target args (runPop store target args) := by
  match args with
  | [] =>
    cases target with
    | array a =>
      exact acts_modifyArray (htarget _ rfl) Array.toList_pop (by decide) fun h => absurd h (by decide)
    | _ => exact .refused _
  | _ :: _ => exact .refused _

theorem acts_push : Acts .push store target args (runPush store target args) := by
  cases target with
  | array a =>
    match args with
    | [] => exact .refused _
    | v :: rest =>
      refine acts_modifyArray (htarget _ rfl) ?_ (by decide) fun _ => rfl
      rw [Array.toList_append, List.toList_toArray]
      rfl
  | _ => exact .refused _

omit htarget in
theorem extract_eq (items : Array Value) (i j : Nat) :
    items.extract i j = ((items.toList.drop i).take (j - i)).toArray := by
  rw [← List.extract_eq_take_drop, ← Array.toList_extract, Array.toArray_toList]

omit htarget in
/-- The elements that are taken out are put into a new array. -/
theorem runSplice_eq (a : ArrayRef) (hargs : args ≠ []) :
    runSplice store (.array a) args =
      let xs := (store.elements a).toList
      .ok ((store.modifyArray a fun _ => (remaining store args xs .splice).toArray).addArray
        ((xs.drop (spliceStart store args xs.length)).take (spliceCount store args xs.length)).toArray) := by
  obtain ⟨first, rest, rfl⟩ := List.exists_cons_of_ne_nil hargs
  have hrest : ∀ i, ((store.elements a).toList.drop i).take ((store.elements a).size - i) =
      (store.elements a).toList.drop i := by
    intro i
    exact List.take_of_length_le (by rw [List.length_drop, Array.length_toList])
  rw [runSplice_cons]
  simp only [extract_eq, hrest, Nat.add_sub_cancel_left, Nat.sub_zero, List.drop_zero,
    List.append_toArray, remaining, replaceRun, spliceStart, spliceCount, Array.length_toList,
    List.getElem?_cons_zero, List.getElem?_cons_succ, List.drop_succ_cons]

theorem acts_splice : Acts .splice store target args (runSplice store target args) := by
  cases target with
  | array a =>
    by_cases hargs : args = []
    · rw [hargs]
      exact .refused _
    · have hhas : store.Has (.array a) := htarget _ rfl
      rw [runSplice_eq args a hargs]
      dsimp only
      generalize hnew : (remaining store args (store.elements a).toList .splice).toArray = new
      generalize List.toArray _ = removed
      -- The array is changed first; the new one leaves it as it is then.
      have hkept : ∀ b, store.Has (.array b) →
          ((store.modifyArray a fun _ => new).addArray removed).2.elements b =
            (store.modifyArray a fun _ => new).elements b := fun b hb =>
        Store.elements_of_sameAt (Store.sameAt_addArray removed ((Store.has_modifyArray_iff _).2 hb))
      refine .done ⟨rfl, rfl, rfl, fun b hb hne => ?_, ?_, ?_, fun h => absurd h (by decide)⟩
      · refine (hkept b hb).trans (Store.elements_of_sameAt (Store.sameAt_modifyArray _ ?_))
        rintro ⟨⟩
        exact hne rfl
      · rintro b ⟨⟩
        refine (congrArg Array.toList ((hkept a hhas).trans (Store.elements_modifyArray hhas _))).trans ?_
        rw [← hnew, List.toList_toArray]
      · rintro - b hb
        obtain ⟨c, hc, hfresh, hafter⟩ := Store.not_has_addArray (store.modifyArray a fun _ => new) removed
        cases hc.symm.trans hb
        exact ⟨fun h => hfresh ((Store.has_modifyArray_iff _).2 h), hafter⟩
  | _ => exact .refused _

/-- Every method but the one that calls a function is refused or has its effect. -/
theorem acts_run (hcall : method ≠ .forEach) :
    method.Acts store target args (method.run store target args) := by
  cases method with
  | split => exact acts_split args htarget
  | join => exact acts_join args
  | reverse => exact acts_reverse args htarget
  | slice => exact acts_slice args htarget
  | splice => exact acts_splice args htarget
  | unshift => exact acts_unshift args htarget
  | pop => exact acts_pop args htarget
  | push => exact acts_push args htarget
  | forEach => exact absurd rfl hcall
  | indexOf => exact acts_indexOf args
  | charCodeAt => exact acts_charCodeAt args
  | concat => exact acts_concat args htarget

end

end Method

/-! ## Calls -/

/-- A call of a built-in method, by any name but the one that calls a function, either fails in the
state in which it was made, or it returns a value, and then the method has had its effect on the store
and on nothing else. -/
theorem callMethod_atomic (parts : Evaluators) (target : Value) (name : String) (args : List Value)
    (m : Machine) (hname : name ≠ "forEach") (htarget : target.ExistsIn m.store) :
    (∃ e, callMethod parts target name args m = .failed e m) ∨
      ∃ method v after, Method.ofName? name = some method ∧
        callMethod parts target name args m = .done v (m.withStore after) ∧
        method.Effect m.store target args v after := by
  cases hmethod : Method.ofName? name with
  | none =>
    refine .inl ⟨Method.unknown target name, ?_⟩
    unfold callMethod
    rw [hmethod]
    rfl
  | some method =>
    have hcall : method ≠ .forEach := by
      rintro rfl
      have hfound := List.find?_some (p := fun m : Method => m.name == name) hmethod
      exact hname (beq_iff_eq.1 hfound).symm
    have hacts := Method.acts_run args htarget hcall
    rw [callMethod_eq_attempt hmethod hcall, Eval.attempt]
    generalize method.run m.store target args = result at hacts
    cases hacts with
    | refused e => exact .inl ⟨e, rfl⟩
    | @done v after effect => exact .inr ⟨method, v, after, rfl, rfl, effect⟩

/-- A store with one array, whose only element is null. -/
def Store.withNull : Store := { Store.initial with arrays := Arena.empty.push #[.null] }

/-- An array is put in front of its own elements. -/
theorem callMethod_atomic_unshift :
    ∃ after, callMethod (evaluators ⟨[], .standard⟩ 0 0) (.array ⟨0⟩) "unshift"
        [.array ⟨0⟩, .bool true] (.initial .withNull Table.empty) =
        .done (.array ⟨0⟩) ((Machine.initial .withNull Table.empty).withStore after) ∧
      (after.elements ⟨0⟩).toList = [.array ⟨0⟩, .bool true, .null] ∧
      after.layers = Store.withNull.layers := by
  rcases callMethod_atomic (evaluators ⟨[], .standard⟩ 0 0) (.array ⟨0⟩) "unshift"
    [.array ⟨0⟩, .bool true] (.initial .withNull Table.empty) (by decide) (by rintro n ⟨⟩; decide)
    with ⟨e, h⟩ | ⟨method, v, after, hmethod, hrun, heffect⟩
  · cases h
  · cases hmethod
    have hself : v = .array ⟨0⟩ := heffect.itself (by decide)
    exact ⟨after, hself ▸ hrun, heffect.receiver ⟨0⟩ rfl, heffect.layers⟩

end PlayerScript
