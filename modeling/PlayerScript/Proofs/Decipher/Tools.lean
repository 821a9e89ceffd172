/-
The tools of a deciphering routine at work. A tool changes the array that it is called on as its list
operation says, and beside that array nothing that was there before.
-/
import PlayerScript.Proofs.Decipher.Routine
import PlayerScript.Proofs.Eval.Steps
import PlayerScript.Proofs.Number.Texts
import PlayerScript.Proofs.Number.Whole

namespace PlayerScript

/-! ## Whole numbers as keys and counts -/

namespace Value

variable {n : Nat} (store : Store)

theorem index?_ofNat (hn : n < 2 ^ 53) : (Value.number (Float.ofNat n)).index? = some n := by
  have hmax : min n maxIndex = n := by
    unfold maxIndex Text.wordBound
    omega
  rw [index?, Number.integer?_ofNat hn]
  simp [hmax]

theorem count_ofNat (available : Nat) (hn : n < 2 ^ 53) :
    (Value.number (Float.ofNat n)).count store available = min n available := by
  unfold count
  dsimp only [toNumber]
  rw [Number.truncate?_ofNat hn]
  rfl

theorem position_ofNat (size absent : Nat) (hn : n < 2 ^ 53) :
    Value.position store size absent (some (.number (Float.ofNat n))) = min n size := by
  unfold position
  dsimp only [toNumber]
  rw [Number.truncate?_ofNat hn]
  simp

end Value

namespace Decipher

open Eval

/-! ## Tools at work -/

theorem memberFunction?_array {store : Store} {r : ArrayRef} {how : String} (hlength : how ≠ "length")
    (hindex : Text.unsigned? 10 Text.wordBound how.toList = none) :
    memberFunction? store (.array r) (.string how) = .ok none := by
  unfold memberFunction? Value.member
  simp [Value.text_string, hlength, Value.place?, Value.index?, hindex]

/-- A place of an array within its length is written. -/
theorem assignPlace_array {store : Store} {r : ArrayRef} {xs : List Value} {i : Nat}
    (harray : store.arrays.get? r.index = some xs.toArray) (hi : i < xs.length) (hsmall : i < 2 ^ 53)
    (name : String) (v : Value) :
    assignPlace name (.array r) (.number (Float.ofNat i)) none v store =
      .ok (v, store.modifyArray r fun items => writePlace items i v) := by
  have hgrowth : ¬ xs.toArray.size + maxGrowth < i := by
    rw [List.size_toArray]
    omega
  show assignElement name r (.number (Float.ofNat i)) none v store = _
  unfold assignElement
  rw [Value.index?_ofNat hsmall, Store.elements, harray]
  dsimp only
  rw [Option.getD_some, if_neg hgrowth]
  rfl

theorem get?_writePlace {store : Store} {r : ArrayRef} {xs : List Value} {i : Nat}
    (harray : store.arrays.get? r.index = some xs.toArray) (hi : i < xs.length) (v : Value) :
    (store.modifyArray r fun items => writePlace items i v).arrays.get? r.index =
      some (xs.set i v).toArray := by
  show (store.arrays.modify r.index _).get? r.index = _
  rw [Arena.get?_modify, if_pos rfl, harray, Option.map_some, writePlace, if_pos (by simpa using hi)]
  simp

/-- The elements at the front of an array are taken out into an array of their own. -/
theorem runSplice_front {store : Store} {r : ArrayRef} {xs : List Value} {n : Nat}
    (harray : store.arrays.get? r.index = some xs.toArray) (hn : n < 2 ^ 53) :
    Method.runSplice store (.array r) [.number (Float.ofNat 0), .number (Float.ofNat n)] =
      .ok ((store.modifyArray r fun _ => (xs.drop n).toArray).addArray (xs.take n).toArray) := by
  have hitems : store.elements r = xs.toArray := by rw [Store.elements, harray, Option.getD_some]
  have hstart : Value.position store xs.length 0 (some (.number (Float.ofNat 0))) = 0 := by
    rw [Value.position_ofNat store _ _ (by norm_num), Nat.zero_min]
  have hdrop : xs.drop (min n xs.length) = xs.drop n := by
    rcases Nat.le_total n xs.length with h | h <;> simp [h]
  have htake : xs.take (min n xs.length) = xs.take n := by
    rcases Nat.le_total n xs.length with h | h <;> simp [h]
  have hrest : (xs.drop n).take (xs.length - min n xs.length) = xs.drop n :=
    List.take_of_length_le (by rw [List.length_drop]; omega)
  show Except.ok _ = _
  simp [hitems, hstart, Value.count_ofNat store _ hn, hdrop, htake, hrest]

theorem get?_setLocal {store : Store} {scope : Scope} {t : Table Value}
    (hlayer : store.layers.get? scope.innermost.index = some t) (name : String) (v : Value) :
    (scope.setLocal store name v).layers.get? scope.innermost.index = some (t.insert name v) := by
  show (store.layers.modify scope.innermost.index _).get? _ = _
  rw [Arena.get?_modify, if_pos rfl, hlayer]
  rfl

theorem exchange_of_lt {α : Type} {xs : List α} {k : Nat} (hne : 0 < xs.length) (hk : k < xs.length) :
    exchange k xs = (xs.set 0 xs[k]).set k xs[0] := by
  rw [exchange, List.getElem?_eq_getElem hne, List.getElem?_eq_getElem hk]

/-- What a tool leaves behind: an array with other elements, and beside it only things that were not
there, except in layers of its own. -/
structure Worked (old : Nat → Prop) (r : ArrayRef) (xs : List Value) (m m' : Machine) : Prop where
  layers : ∀ i, old i → m'.store.layers.get? i = m.store.layers.get? i
  array : m'.store.arrays.get? r.index = some xs.toArray
  members : m'.store.objects = m.store.objects
  closures : m'.store.closures = m.store.closures
  functions : m'.functions = m.functions
  objects : m'.objects = m.objects

section

variable {p : Program} {rounds b n : Nat} {scope : Scope} {m : Machine} {t : Table Value} {r : ArrayRef}
  {xs : List Value} (hlayer : m.store.layers.get? scope.innermost.index = some t)
  (ha : t.get? "a" = some (.array r)) (harray : m.store.arrays.get? r.index = some xs.toArray)
include hlayer ha harray

theorem evalExpr_length : evalExpr p rounds (b + 2) scope (ofList (.name "length")) m =
    .done (.number (Float.ofNat xs.length)) m := by
  refine evalExpr_member (Scope.get?_innermost hlayer ha) rfl ?_
  unfold Value.member
  simp only [Value.text_string, if_true, Store.elements, harray]
  rfl

theorem evalExpr_element {e : Expr} {i : Nat} (hi : i < xs.length) (hsmall : i < 2 ^ 53)
    (he : evalExpr p rounds (b + 1) scope e m = .done (.number (Float.ofNat i)) m) :
    evalExpr p rounds (b + 2) scope (ofList (.computed e)) m = .done xs[i] m := by
  refine evalExpr_member (Scope.get?_innermost hlayer ha) he ?_
  unfold Value.member
  simp [Value.text_number, Number.text_ne_length, Store.elements, harray, Value.place?,
    Value.index?_ofNat hsmall, hi]

theorem block_reverse : ∃ v m', block (evaluators p rounds (b + 3)) scope Tool.reverse.definition.body
    .undefined m = .done (.normal v) m' ∧
      Worked (fun i => i ≠ scope.innermost.index) r (Tool.reverse.apply n xs) m m' := by
  have hrun : Method.reverse.run m.store (.array r) [] =
      .ok (.array r, m.store.modifyArray r Array.reverse) := rfl
  have hcall : evalExpr p rounds (b + 2) scope (.call (ofList (.name "reverse")) []) m =
      .done (.array r) { m with store := m.store.modifyArray r Array.reverse } :=
    evalExpr_method (Scope.get?_innermost hlayer ha) evalAll_nil
      (memberFunction?_array (by decide) (by decide)) (by decide) (by decide) hrun
  refine ⟨_, _, (block_cons (execStmt_expr hcall)).trans rfl, ⟨fun _ _ => rfl, ?_, rfl, rfl, rfl, rfl⟩⟩
  show (m.store.arrays.modify r.index Array.reverse).get? r.index = _
  rw [Arena.get?_modify, if_pos rfl, harray, Option.map_some, List.reverse_toArray]
  rfl

variable (hb : t.get? "b" = some (.number (Float.ofNat n))) (hn : n < 2 ^ 31)
include hb hn

theorem evalExpr_place (hne : 0 < xs.length) :
    evalExpr p rounds (b + 3) scope place m = .done (.number (Float.ofNat (n % xs.length))) m := by
  have hleft : evalExpr p rounds (b + 2) scope (.ident "b") m = .done (.number (Float.ofNat n)) m :=
    evalExpr_ident (Scope.get?_innermost hlayer hb)
  have hright : evalExpr p rounds (b + 2) scope (ofList (.name "length")) m =
      .done (.number (Float.ofNat xs.length)) m := evalExpr_length hlayer ha harray
  rw [place, evalExpr_succ]
  refine (bind_of_done hleft _).trans ((bind_of_done hright _).trans ?_)
  show Outcome.done (Value.number (Number.remainder (Float.ofNat n) (Float.ofNat xs.length))) m = _
  rw [Number.remainder_ofNat (by omega) hne]

theorem block_drop : ∃ v m', block (evaluators p rounds (b + 3)) scope Tool.drop.definition.body
    .undefined m = .done (.normal v) m' ∧
      Worked (fun i => i ≠ scope.innermost.index) r (Tool.drop.apply n xs) m m' := by
  have hargs : evalAll (evaluators p rounds (b + 1)) scope [zero, .ident "b"] m =
      .done [.number (Float.ofNat 0), .number (Float.ofNat n)] m :=
    evalAll_cons_evalExpr (evalExpr_literal _)
      (evalAll_cons_evalExpr (evalExpr_ident (Scope.get?_innermost hlayer hb)) evalAll_nil)
  have hrun : Method.splice.run m.store (.array r) [.number (Float.ofNat 0), .number (Float.ofNat n)] =
      .ok ((m.store.modifyArray r fun _ => (xs.drop n).toArray).addArray (xs.take n).toArray) :=
    runSplice_front harray (by omega)
  have hstored : memberFunction? m.store (.array r) (.string "splice") = .ok none :=
    memberFunction?_array (by decide) (by decide)
  have hcall := evalExpr_method (Scope.get?_innermost hlayer ha) hargs hstored rfl (by decide) hrun
  refine ⟨_, _, (block_cons (execStmt_expr hcall)).trans rfl, ⟨fun _ _ => rfl, ?_, rfl, rfl, rfl, rfl⟩⟩
  show ((m.store.arrays.modify r.index fun _ => (xs.drop n).toArray).push _).get? r.index = _
  have hsize : r.index < m.store.arrays.size := Arena.lt_size_of_get? harray
  rw [Arena.get?_push, Arena.size_modify, if_neg (by omega), Arena.get?_modify, if_pos rfl, harray]
  rfl

theorem block_swap (hne : 0 < xs.length) : ∃ v m', block (evaluators p rounds (b + 6)) scope
    Tool.swap.definition.body .undefined m = .done (.normal v) m' ∧
      Worked (fun i => i ≠ scope.innermost.index) r (Tool.swap.apply n xs) m m' := by
  have hk : n % xs.length < xs.length := Nat.mod_lt n hne
  have hplace : n % xs.length < 2 ^ 53 := lt_of_le_of_lt (Nat.mod_le n _) (by omega)
  have hzero : ∀ (b : Nat) (m : Machine), evalExpr p rounds (b + 1) scope zero m =
      .done (.number (Float.ofNat 0)) m := fun _ _ => evalExpr_literal _
  -- The first element is kept in a variable.
  have hfirst : evalExpr p rounds (b + 5) scope (ofList (.computed zero)) m = .done xs[0] m :=
    evalExpr_element hlayer ha harray hne (by norm_num) (hzero _ _)
  obtain ⟨m₁, hm₁⟩ : ∃ m₁ : Machine, m₁ = { m with store := scope.setLocal m.store "c" xs[0] } := ⟨_, rfl⟩
  have hkeep : execStmt p rounds (b + 6) scope (.var [("c", some (ofList (.computed zero)))]) m =
      .done (.normal .undefined) m₁ := by
    rw [hm₁]
    exact execStmt_var hfirst
  have hlayer₁ : m₁.store.layers.get? scope.innermost.index = some (t.insert "c" xs[0]) := by
    rw [hm₁]
    exact get?_setLocal hlayer "c" xs[0]
  have ha₁ : (t.insert "c" xs[0]).get? "a" = some (.array r) := by
    rw [Table.get?_insert, if_neg (by decide), ha]
  have hb₁ : (t.insert "c" xs[0]).get? "b" = some (.number (Float.ofNat n)) := by
    rw [Table.get?_insert, if_neg (by decide), hb]
  have hc₁ : (t.insert "c" xs[0]).get? "c" = some xs[0] := by rw [Table.get?_insert, if_pos rfl]
  have harray₁ : m₁.store.arrays.get? r.index = some xs.toArray := by
    rw [hm₁]
    exact harray
  -- The other element is put in front.
  have hother : evalExpr p rounds (b + 4) scope (ofList (.computed place)) m₁ =
      .done xs[n % xs.length] m₁ :=
    evalExpr_element hlayer₁ ha₁ harray₁ hk hplace (evalExpr_place hlayer₁ ha₁ harray₁ hb₁ hn hne)
  obtain ⟨m₂, hm₂⟩ : ∃ m₂ : Machine, m₂ = { m₁ with
    store := m₁.store.modifyArray r fun items => writePlace items 0 xs[n % xs.length] } := ⟨_, rfl⟩
  have hput : evalExpr p rounds (b + 5) scope
      (.assign "a" (some zero) none (ofList (.computed place))) m₁ = .done xs[n % xs.length] m₂ := by
    rw [hm₂]
    exact evalExpr_assignIndex (Scope.get?_innermost hlayer₁ ha₁) (hzero _ _) hother
      (assignPlace_array harray₁ hne (by norm_num) "a" xs[n % xs.length])
  have hlayer₂ : m₂.store.layers.get? scope.innermost.index = some (t.insert "c" xs[0]) := by
    rw [hm₂]
    exact hlayer₁
  have harray₂ : m₂.store.arrays.get? r.index = some (xs.set 0 xs[n % xs.length]).toArray := by
    rw [hm₂]
    exact get?_writePlace harray₁ hne _
  -- The first element is put in its place.
  have hlength : (xs.set 0 xs[n % xs.length]).length = xs.length := List.length_set
  have hindex : evalExpr p rounds (b + 4) scope place m₂ =
      .done (.number (Float.ofNat (n % xs.length))) m₂ := by
    rw [← hlength]
    exact evalExpr_place hlayer₂ ha₁ harray₂ hb₁ hn (by omega)
  have hback : evalExpr p rounds (b + 5) scope (.assign "a" (some place) none (.ident "c")) m₂ =
      .done xs[0] { m₂ with
        store := m₂.store.modifyArray r fun items => writePlace items (n % xs.length) xs[0] } :=
    evalExpr_assignIndex (Scope.get?_innermost hlayer₂ ha₁) hindex
      (evalExpr_ident (Scope.get?_innermost hlayer₂ hc₁))
      (assignPlace_array harray₂ (by omega) hplace "a" xs[0])
  refine ⟨_, _, (block_cons hkeep).trans ((block_cons (execStmt_expr hput)).trans
    ((block_cons (execStmt_expr hback)).trans rfl)), ?_⟩
  refine ⟨fun i hi => ?_, ?_, by rw [hm₂, hm₁]; rfl, by rw [hm₂, hm₁]; rfl, by rw [hm₂, hm₁],
    by rw [hm₂, hm₁]⟩
  · rw [hm₂, hm₁]
    show (m.store.layers.modify scope.innermost.index _).get? i = _
    rw [Arena.get?_modify, if_neg (Ne.symm hi)]
  · rw [Tool.apply, exchange_of_lt hne hk]
    exact get?_writePlace harray₂ (by omega) _

end

/-! ## Calls of the tools -/

theorem Worked.of_child {captured : Scope} {t : Table Value} {r : ArrayRef} {xs : List Value}
    {m m' : Machine} (h : Worked (fun i => i ≠ m.store.layers.size) r xs
      { m with store := (captured.child m.store t).2 } m') :
    Worked (fun i => i < m.store.layers.size) r xs m m' := by
  refine ⟨fun i hi => ?_, h.array, h.members, h.closures, h.functions, h.objects⟩
  rw [h.layers i (Nat.ne_of_lt hi)]
  show (m.store.layers.push t).get? i = _
  rw [Arena.get?_push, if_neg (Nat.ne_of_lt hi)]

/-- A tool changes the array that it is called on as its list operation says. -/
theorem invoke_tool {p : Program} {rounds n : Nat} {m : Machine} {tool : Tool} {f : FunctionRef}
    {r : ArrayRef} {xs : List Value} (b : Nat) (hf : FunctionMade m.store f tool.definition)
    (harray : m.store.arrays.get? r.index = some xs.toArray) (hn : n < 2 ^ 31)
    (hne : tool = .swap → xs ≠ []) :
    ∃ m', invoke (evaluators p rounds (b + 6)) f [.array r, .number (Float.ofNat n)] [] m =
      .done .undefined m' ∧ Worked (fun i => i < m.store.layers.size) r (tool.apply n xs) m m' := by
  have hlayer : ∀ t : Table Value, (Program.globalScope.child m.store t).2.layers.get?
      (Program.globalScope.child m.store t).1.innermost.index = some t := by
    intro t
    show (m.store.layers.push t).get? m.store.layers.size = _
    rw [Arena.get?_push, if_pos rfl]
  suffices hblock : ∃ v m', block (evaluators p rounds (b + 6))
      (Program.globalScope.child m.store
        (bindings tool.definition.params [.array r, .number (Float.ofNat n)] [] Table.empty)).1
      tool.definition.body .undefined
      { m with store := (Program.globalScope.child m.store
        (bindings tool.definition.params [.array r, .number (Float.ofNat n)] [] Table.empty)).2 } =
        .done (.normal v) m' ∧ Worked (fun i => i ≠ m.store.layers.size) r (tool.apply n xs)
          { m with store := (Program.globalScope.child m.store
            (bindings tool.definition.params [.array r, .number (Float.ofNat n)] [] Table.empty)).2 } m' by
    obtain ⟨v, m', hblock, hworked⟩ := hblock
    exact ⟨m', invoke_eq hf hblock, hworked.of_child⟩
  cases tool with
  | drop => exact block_drop (hlayer _) rfl harray rfl hn
  | reverse => exact block_reverse (hlayer _) rfl harray
  | swap => exact block_swap (hlayer _) rfl harray rfl hn (List.length_pos_of_ne_nil (hne rfl))

end Decipher
end PlayerScript
