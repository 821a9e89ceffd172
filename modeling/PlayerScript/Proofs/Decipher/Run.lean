/-
Calling a deciphering routine. Each step of the function calls a tool on the array of the characters;
so a call gives back the characters as the steps leave them. What a call leaves behind does not disturb
the calls after it.
-/
import PlayerScript.Proofs.Decipher.Tools

namespace PlayerScript

theorem Table.forall₂_lookup {α β : Type} {R : α → β → Prop} {name : String} {b : β} :
    ∀ {xs : List (String × α)} {ys : List (String × β)},
    List.Forall₂ (fun x y => x.1 = y.1 ∧ R x.2 y.2) xs ys → ys.lookup name = some b →
    ∃ a, xs.lookup name = some a ∧ R a b
  | _, _, .nil, h => by cases h
  | (n, x) :: xs, (n', y) :: ys, .cons hxy hrest, h => by
    obtain ⟨rfl, hr⟩ := hxy
    rw [List.lookup_cons] at h ⊢
    cases hname : name == n with
    | true =>
      rw [hname] at h
      cases h
      exact ⟨x, rfl, hr⟩
    | false =>
      rw [hname] at h
      exact forall₂_lookup hrest h

/-- In a table of functions as the source defines them, each stands under its name. -/
theorem TableMade.get? {s : Store} {t : Table Value} {defs : Table FunctionDef} {key : String}
    {d : FunctionDef} (h : TableMade s t defs) (hd : defs.get? key = some d) :
    ∃ f, t.get? key = some (.function f) ∧ FunctionMade s f d := by
  obtain ⟨v, hv, f, rfl, hf⟩ := Table.forall₂_lookup
    (R := fun v d => ∃ f, v = Value.function f ∧ FunctionMade s f d) h hd
  exact ⟨f, hv, hf⟩

namespace Decipher

open Eval

variable {steps : List Step} {m m' : Machine}

/-! ## Interpreters of a routine -/

/-- An object that holds the tools under their names. -/
def Toolbox (s : Store) (v : Value) : Prop :=
  ∃ o t, v = .object o ∧ s.objects.get? o.index = some t ∧
    ∀ tool : Tool, ∃ f, t.get? tool.key = some (.function f) ∧ FunctionMade s f tool.definition

/-- An interpreter that has taken nothing but the function and the tools of a routine out of its
source, if it has taken them out. No global hides the tools. -/
structure Prepared (steps : List Step) (m : Machine) : Prop where
  globals : ∃ g, m.store.layers.get? LayerRef.globals.index = some g ∧ g.get? "Xy" = none
  function : ∀ f, m.functions.get? "sig" = some f → FunctionMade m.store f (definition steps)
  tools : ∀ v, m.objects.get? "Xy" = some v → Toolbox m.store v

theorem Toolbox.extends {s s' : Store} {v : Value} (h : Toolbox s v)
    (hobjects : s.objects.Extends s'.objects) (hclosures : s.closures.Extends s'.closures) :
    Toolbox s' v := by
  obtain ⟨o, t, hv, ht, htools⟩ := h
  refine ⟨o, t, hv, hobjects _ _ ht, fun tool => ?_⟩
  obtain ⟨f, hf, hmade⟩ := htools tool
  exact ⟨f, hf, hclosures _ _ hmade⟩

/-- The memos and the layer of globals are left alone, and so is what the memos refer to. -/
structure Undisturbed (m m' : Machine) : Prop where
  globals : m'.store.layers.get? LayerRef.globals.index = m.store.layers.get? LayerRef.globals.index
  members : m.store.objects.Extends m'.store.objects
  closures : m.store.closures.Extends m'.store.closures
  functions : m'.functions = m.functions
  objects : m'.objects = m.objects

theorem Prepared.of_undisturbed (h : Prepared steps m) (hm : Undisturbed m m') : Prepared steps m' := by
  refine ⟨?_, fun f hf => ?_, fun v hv => ?_⟩
  · rw [hm.globals]
    exact h.globals
  · rw [hm.functions] at hf
    exact hm.closures _ _ (h.function f hf)
  · rw [hm.objects] at hv
    exact (h.tools v hv).extends hm.members hm.closures

theorem prepared_initial (steps : List Step) : Prepared steps (.initial .initial Table.empty) :=
  ⟨⟨Table.empty, rfl, rfl⟩, nofun, nofun⟩

theorem undisturbed_of_grown (h : m.Grown m') : Undisturbed m m' :=
  ⟨by rw [h.layers], by rw [h.objects]; exact fun _ _ h => h, h.closures, h.functions, h.known⟩

/-- The function is taken out of the source, or known. -/
theorem extract_sig (hsteps : ∀ s ∈ steps, s.Valid) (h : Prepared steps m) :
    ∃ f m', (program steps).extractFunction "sig" m = (.ok f, m') ∧
      FunctionMade m'.store f (definition steps) ∧ Prepared steps m' := by
  have hextracts := extracts_extractFunction (program steps) "sig" m
  generalize (program steps).extractFunction "sig" m = x at hextracts
  cases hextracts with
  | known hknown => exact ⟨_, m, rfl, h.function _ hknown, h⟩
  | missing _ _ undefined =>
    rw [functionDefinition_sig hsteps] at undefined
    cases congrArg Prod.fst undefined
  | @taken m₁ f d _ hgrown defined hf =>
    rw [functionDefinition_sig hsteps] at defined
    obtain rfl := Except.ok.inj (congrArg Prod.fst defined)
    have h₁ := h.of_undisturbed (undisturbed_of_grown hgrown)
    refine ⟨f, _, rfl, hf, h₁.globals, fun f' hf' => ?_, h₁.tools⟩
    have hnew : (m₁.functions.insert "sig" f).get? "sig" = some f := by rw [Table.get?_insert, if_pos rfl]
    cases hnew.symm.trans hf'
    exact hf

/-- The tools are taken out of the source, or known. -/
theorem resolve_tools (h : Prepared steps m) :
    ∃ v m', (program steps).resolveObject "Xy" m = (.ok v, m') ∧ Toolbox m'.store v ∧
      Prepared steps m' ∧ m'.store.layers = m.store.layers ∧ m'.store.arrays = m.store.arrays := by
  have hsource : (program steps).source = sourceText steps := rfl
  have hresolves := resolves_resolveObject (program steps) "Xy" m
  generalize (program steps).resolveObject "Xy" m = x at hresolves
  cases hresolves with
  | known hknown => exact ⟨_, m, rfl, h.tools _ hknown, h, rfl, rfl⟩
  | missing _ _ undefined =>
    rw [hsource, objectDefinitions_tools] at undefined
    cases congrArg Prod.fst undefined
  | @taken m₁ t defs _ hgrown defined ht =>
    rw [hsource, objectDefinitions_tools] at defined
    obtain rfl := Except.ok.inj (congrArg Prod.fst defined)
    have h₁ := h.of_undisturbed (undisturbed_of_grown hgrown)
    have hbox : Toolbox (m₁.store.addObject t).2 (m₁.store.addObject t).1 := by
      refine ⟨⟨m₁.store.objects.size⟩, t, rfl, ?_, fun tool => ht.get? (by cases tool <;> rfl)⟩
      show (m₁.store.objects.push t).get? m₁.store.objects.size = _
      rw [Arena.get?_push, if_pos rfl]
    refine ⟨_, _, rfl, hbox, ⟨h₁.globals, h₁.function, fun v hv => ?_⟩, hgrown.layers, hgrown.arrays⟩
    have hnew : (m₁.objects.insert "Xy" (m₁.store.addObject t).1).get? "Xy" =
        some (m₁.store.addObject t).1 := by rw [Table.get?_insert, if_pos rfl]
    cases hnew.symm.trans hv
    exact hbox

/-! ## Running the steps -/

/-- The scope of the function in a call. -/
def scopeAt (l : LayerRef) : Scope := ⟨l, [LayerRef.globals]⟩

/-- The interpreter within a call: the variable `a` holds an array with given elements. -/
structure Running (steps : List Step) (l : LayerRef) (r : ArrayRef) (xs : List Value) (m : Machine) :
    Prop extends Prepared steps m where
  bound : ∃ t, m.store.layers.get? l.index = some t ∧ t.get? "a" = some (.array r) ∧ t.get? "Xy" = none
  array : m.store.arrays.get? r.index = some xs.toArray

variable {l : LayerRef} {r : ArrayRef} {xs : List Value}

theorem Running.unbound (h : Running steps l r xs m) : (scopeAt l).get? m.store "Xy" = none := by
  obtain ⟨g, hg, hglobal⟩ := h.globals
  obtain ⟨t, ht, -, hlocal⟩ := h.bound
  simp [Scope.get?, Scope.layers, scopeAt, Store.layer, hg, ht, hglobal, hlocal]

theorem Running.of_worked {ys : List Value} (h : Running steps l r xs m)
    (hm : Worked (fun i => i < m.store.layers.size) r ys m m') : Running steps l r ys m' := by
  obtain ⟨g, hg, -⟩ := h.globals
  obtain ⟨t, ht, hlocal⟩ := h.bound
  have hprepared : Prepared steps m' := h.toPrepared.of_undisturbed
    ⟨hm.layers _ (Arena.lt_size_of_get? hg), by rw [hm.members]; exact fun _ _ h => h,
      by rw [hm.closures]; exact fun _ _ h => h, hm.functions, hm.objects⟩
  refine ⟨hprepared, ⟨t, ?_, hlocal⟩, hm.array⟩
  rw [hm.layers _ (Arena.lt_size_of_get? ht), ht]

/-- A step changes the array of the characters as its tool says. -/
theorem execStmt_step {s : Step} (rounds b : Nat) (hs : s.Valid) (hne : s.tool = .swap → xs ≠ [])
    (h : Running steps l r xs m) :
    ∃ m', execStmt (program steps) rounds (b + 8) (scopeAt l) s.stmt m = .done (.normal .undefined) m' ∧
      Running steps l r (s.tool.apply s.count xs) m' := by
  have hunbound : (scopeAt l).contains m.store "Xy" = false := by
    rw [Scope.contains_eq, h.unbound]
    rfl
  obtain ⟨v, m₁, hresolve, ⟨o, t, rfl, ho, htools⟩, hprepared, hlayers, harrays⟩ :=
    resolve_tools h.toPrepared
  have h₁ : Running steps l r xs m₁ :=
    ⟨hprepared, by rw [hlayers]; exact h.bound, by rw [harrays]; exact h.array⟩
  obtain ⟨f, hf, hmade⟩ := htools s.tool
  obtain ⟨m', hinvoke, hworked⟩ := invoke_tool b hmade h₁.array hs.small hne
  refine ⟨m', execStmt_expr ?_, h₁.of_worked hworked⟩
  have hspace : (namespace? m.store (scopeAt l) (.ident "Xy")) = none := by
    rw [namespace?, hunbound]
    rfl
  have htarget : memberTarget (program steps) (evaluators (program steps) rounds (b + 6)) (scopeAt l)
      (.ident "Xy") false m = .done (.object o) m₁ := by
    show (if (scopeAt l).contains m.store "Xy" = true then _ else
      namedObject (program steps) "Xy" false m) = _
    rw [hunbound, if_neg Bool.false_ne_true, namedObject, hresolve]
  obtain ⟨u, hu, ha, -⟩ := h₁.bound
  have hargs : evalAll (evaluators (program steps) rounds (b + 6)) (scopeAt l)
      [.ident "a", .literal (.number (Float.ofNat s.count))] m₁ =
        .done [.array r, .number (Float.ofNat s.count)] m₁ :=
    evalAll_cons_evalExpr (evalExpr_ident (Scope.get?_innermost hu ha))
      (evalAll_cons_evalExpr (evalExpr_literal _) evalAll_nil)
  have hstored : memberFunction? m₁.store (.object o) (.string s.tool.key) = .ok (some f) := by
    unfold memberFunction? Value.member
    dsimp only
    rw [Value.text_string, Store.members, ho, Option.getD_some, hf]
  exact (evalExpr_stored rfl hspace htarget hargs hstored).trans hinvoke

/-- The steps change the array of the characters one after another. -/
theorem block_steps (rounds b : Nat) (rest : List Stmt) : ∀ (todo : List Step) {xs : List Value}
    {m : Machine} (last : Value), (∀ s ∈ todo, s.Valid) → Admits todo xs → Running steps l r xs m →
    ∃ m' last', block (evaluators (program steps) rounds (b + 8)) (scopeAt l)
        (todo.map Step.stmt ++ rest) last m =
      block (evaluators (program steps) rounds (b + 8)) (scopeAt l) rest last' m' ∧
        Running steps l r (applyAll todo xs) m'
  | [], _, m, last, _, _, h => ⟨m, last, rfl, h⟩
  | s :: todo, _, _, _, hvalid, hadmits, h => by
    obtain ⟨hs, hvalid⟩ := List.forall_mem_cons.1 hvalid
    obtain ⟨m₁, hstep, h₁⟩ := execStmt_step rounds b hs hadmits.1 h
    obtain ⟨m', last', hblock, h'⟩ := block_steps rounds b rest todo .undefined hvalid hadmits.2 h₁
    exact ⟨m', last', (block_cons hstep).trans hblock, h'⟩

/-! ## Calls -/

/-- A character as a string of its own. -/
def ofChar (c : Char) : Value := .string (String.ofList [c])

/-- The string is taken apart into its characters. -/
theorem execStmt_split (rounds b : Nat) {s : String} {t : Table Value} (hl : l.index ≠ LayerRef.globals.index)
    (hlayer : m.store.layers.get? l.index = some t) (ha : t.get? "a" = some (.string s))
    (htools : t.get? "Xy" = none) (h : Prepared steps m) :
    ∃ v r m', execStmt (program steps) rounds (b + 4) (scopeAt l) splitStmt m = .done (.normal v) m' ∧
      Running steps l r (s.toList.map ofChar) m' := by
  have hargs : evalAll (evaluators (program steps) rounds (b + 1)) (scopeAt l) [.literal (.string "")] m =
      .done [.string ""] m := evalAll_cons_evalExpr (evalExpr_literal _) evalAll_nil
  have hrun : Method.split.run m.store (.string s) [.string ""] =
      .ok (m.store.addArray (s.toList.map ofChar).toArray) := by
    show Except.ok (m.store.addArray ((Text.pieces ((Value.string "").text m.store).toList s.toList).map
      fun p => Value.string (String.ofList p)).toArray) = _
    rw [Value.text_string, Text.pieces, if_pos (by simp), List.map_map]
    rfl
  have hcall : evalExpr (program steps) rounds (b + 2) (scopeAt l)
      (.call (ofList (.name "split")) [.literal (.string "")]) m =
        .done (m.store.addArray (s.toList.map ofChar).toArray).1
          { m with store := (m.store.addArray (s.toList.map ofChar).toArray).2 } :=
    evalExpr_method (Scope.get?_innermost hlayer ha) hargs rfl rfl (by decide) hrun
  have hset : (scopeAt l).set (m.store.addArray (s.toList.map ofChar).toArray).2 "a"
      (m.store.addArray (s.toList.map ofChar).toArray).1 =
        (scopeAt l).setLocal (m.store.addArray (s.toList.map ofChar).toArray).2 "a"
          (m.store.addArray (s.toList.map ofChar).toArray).1 := Scope.set_innermost hlayer ha _
  refine ⟨_, ⟨m.store.arrays.size⟩, _, execStmt_expr (evalExpr_assignName hcall), ?_⟩
  dsimp only
  rw [hset]
  refine ⟨h.of_undisturbed ⟨?_, fun _ _ h => h, fun _ _ h => h, rfl, rfl⟩,
    ⟨_, get?_setLocal hlayer "a" _, ?_, ?_⟩, ?_⟩
  · show (m.store.layers.modify l.index _).get? LayerRef.globals.index = _
    rw [Arena.get?_modify, if_neg hl]
  · rw [Table.get?_insert, if_pos rfl]
    rfl
  · rw [Table.get?_insert, if_neg (by decide), htools]
  · show (m.store.arrays.push _).get? m.store.arrays.size = _
    rw [Arena.get?_push, if_pos rfl]

theorem intercalate_characters : ∀ cs : List Char,
    String.intercalate "" (cs.map fun c => String.ofList [c]) = String.ofList cs
  | [] => String.intercalate_nil
  | [c] => String.intercalate_singleton
  | c :: d :: cs => by
    have ih := intercalate_characters (d :: cs)
    rw [List.map_cons] at ih
    rw [List.map_cons, List.map_cons, String.intercalate_cons_cons, ih, String.append_empty,
      ← String.ofList_append]
    rfl

/-- The characters are put together. -/
theorem execStmt_join (rounds b : Nat) {cs : List Char} (h : Running steps l r (cs.map ofChar) m) :
    execStmt (program steps) rounds (b + 3) (scopeAt l) joinStmt m =
      .done (.returned (.string (String.ofList cs))) m := by
  obtain ⟨t, hlayer, ha, -⟩ := h.bound
  have hargs : evalAll (evaluators (program steps) rounds (b + 1)) (scopeAt l) [.literal (.string "")] m =
      .done [.string ""] m := evalAll_cons_evalExpr (evalExpr_literal _) evalAll_nil
  have htexts : (cs.map ofChar).map (Value.elementText m.store) = cs.map fun c => String.ofList [c] := by
    rw [List.map_map]
    exact List.map_congr_left fun c _ => Value.text_string m.store (String.ofList [c])
  have hrun : Method.join.run m.store (.array r) [.string ""] = .ok (.string (String.ofList cs), m.store) := by
    show Except.ok (Value.string (String.intercalate ((Value.string "").text m.store)
      ((m.store.elements r).toList.map (Value.elementText m.store))), m.store) = _
    rw [Value.text_string, Store.elements, h.array, Option.getD_some, List.toList_toArray, htexts,
      intercalate_characters]
  exact execStmt_returns (evalExpr_method (Scope.get?_innermost hlayer ha) hargs
    (memberFunction?_array (by decide) (by decide)) rfl (by decide) hrun)

theorem Tool.apply_map {α β : Type} (f : α → β) (n : Nat) (xs : List α) (t : Tool) :
    t.apply n (xs.map f) = (t.apply n xs).map f := by
  cases t with
  | drop => exact List.map_drop.symm
  | reverse => exact List.map_reverse.symm
  | swap =>
    rw [apply, apply, List.length_map, exchange, exchange, List.getElem?_map, List.getElem?_map]
    cases xs[0]? with
    | none => rfl
    | some x =>
      cases xs[n % xs.length]? with
      | none => rfl
      | some y => simp [List.map_set]

theorem applyAll_map {α β : Type} (f : α → β) : ∀ (steps : List Step) (xs : List α),
    applyAll steps (xs.map f) = (applyAll steps xs).map f
  | [], _ => rfl
  | s :: rest, xs => by rw [applyAll, applyAll, Tool.apply_map, applyAll_map f rest]

theorem Admits.map {α β : Type} (f : α → β) : ∀ {steps : List Step} {xs : List α},
    Admits steps xs → Admits steps (xs.map f)
  | [], _, _ => trivial
  | s :: rest, xs, h => by
    refine ⟨fun hswap => ?_, ?_⟩
    · rw [Ne, List.map_eq_nil_iff]
      exact h.1 hswap
    · rw [Tool.apply_map]
      exact h.2.map f

/-- A call gives the characters of its argument as the steps leave them. -/
theorem call_deciphers (hsteps : ∀ s ∈ steps, s.Valid) (h : Prepared steps m) {s : String}
    (hs : Admits steps s.toList) :
    ∃ m', (program steps).callFunction "sig" [.string s] m =
      .done (.string (String.ofList (applyAll steps s.toList))) m' ∧ Prepared steps m' := by
  obtain ⟨f, m₁, hextract, hf, h₁⟩ := extract_sig hsteps h
  have hstep : Eval.ofStep ((program steps).extractFunction "sig") m = .done f m₁ := by
    rw [Eval.ofStep, hextract]
  -- The function runs in a layer of its own, which binds its argument.
  obtain ⟨g, hg, -⟩ := h₁.globals
  have hnew : (⟨m₁.store.layers.size⟩ : LayerRef).index ≠ LayerRef.globals.index :=
    Ne.symm (Nat.ne_of_lt (Arena.lt_size_of_get? hg))
  have hlayer : (m₁.store.layers.push (bindings ["a"] [.string s] [] Table.empty)).get?
      m₁.store.layers.size = some (bindings ["a"] [.string s] [] Table.empty) := by
    rw [Arena.get?_push, if_pos rfl]
  have hlayers : (m₁.store.layers.push (bindings ["a"] [.string s] [] Table.empty)).get?
      LayerRef.globals.index = m₁.store.layers.get? LayerRef.globals.index := by
    rw [Arena.get?_push, if_neg hnew.symm]
  have hchild : Prepared steps { m₁ with
      store := (Program.globalScope.child m₁.store (bindings ["a"] [.string s] [] Table.empty)).2 } :=
    h₁.of_undisturbed ⟨hlayers, fun _ _ h => h, fun _ _ h => h, rfl, rfl⟩
  obtain ⟨v, r, m₂, hsplit, h₂⟩ := execStmt_split Program.maxRounds 96 hnew hlayer rfl rfl hchild
  obtain ⟨m₃, last, hblock, h₃⟩ := block_steps Program.maxRounds 92 [joinStmt] steps v hsteps (hs.map ofChar) h₂
  rw [applyAll_map] at h₃
  have hjoin := execStmt_join Program.maxRounds 97 h₃
  have hbody : block (evaluators (program steps) Program.maxRounds 100) (scopeAt ⟨m₁.store.layers.size⟩)
      (definition steps).body .undefined { m₁ with
        store := (Program.globalScope.child m₁.store (bindings ["a"] [.string s] [] Table.empty)).2 } =
      .done (.returned (.string (String.ofList (applyAll steps s.toList)))) m₃ :=
    (block_cons hsplit).trans (hblock.trans (block_returned hjoin))
  exact ⟨m₃, (bind_of_done hstep _).trans (invoke_eq hf hbody), h₃.toPrepared⟩

/-- **Deciphering.** On an interpreter of a routine, calls with strings, one after another, give the
characters of each string as the steps leave them: reversed, without the first ones, or with two
exchanged. -/
theorem calls_decipher (hsteps : ∀ s ∈ steps, s.Valid) (inputs : List String)
    (hinputs : ∀ s ∈ inputs, Admits steps s.toList) :
    ∃ m, (inputs.mapM' fun s => (program steps).callFunction "sig" [.string s])
        (.initial .initial Table.empty) =
      .done (inputs.map fun s => .string (String.ofList (applyAll steps s.toList))) m := by
  suffices hall : ∀ {m}, Prepared steps m → ∃ m',
      (inputs.mapM' fun s => (program steps).callFunction "sig" [.string s]) m =
        .done (inputs.map fun s => .string (String.ofList (applyAll steps s.toList))) m' from
    hall (prepared_initial steps)
  induction inputs with
  | nil => exact fun {m} _ => ⟨m, rfl⟩
  | cons s rest ih =>
    intro m h
    obtain ⟨hs, hrest⟩ := List.forall_mem_cons.1 hinputs
    obtain ⟨m₁, hcall, h₁⟩ := call_deciphers hsteps h hs
    obtain ⟨m', hcalls⟩ := ih hrest h₁
    exact ⟨m', (bind_of_done hcall _).trans (bind_of_done hcalls _)⟩

/-- A routine that reverses, drops two characters and exchanges the first with the one at 13. -/
def sampleRoutine : List Step := [⟨.reverse, ['3']⟩, ⟨.drop, ['2']⟩, ⟨.swap, ['1', '3']⟩]

theorem calls_decipher_sample :
    (∀ s ∈ sampleRoutine, s.Valid) ∧ (∀ s ∈ ["abcdefg", "äß€𝄞z"], Admits sampleRoutine s.toList) ∧
    ∃ m, (["abcdefg", "äß€𝄞z"].mapM' fun s => (program sampleRoutine).callFunction "sig" [.string s])
      (.initial .initial Table.empty) = .done [.string "bdcea", .string "ß€ä"] m := by
  have hsmall : ∀ s ∈ sampleRoutine, s.count ≤ 13 := by decide +kernel
  have hdigits : ∀ s ∈ sampleRoutine, s.digits ≠ [] ∧ ∀ d ∈ s.digits, Text.isDecimal d = true := by
    simp [sampleRoutine, show Text.isDecimal '1' = true from rfl, show Text.isDecimal '2' = true from rfl,
      show Text.isDecimal '3' = true from rfl]
  have hvalid : ∀ s ∈ sampleRoutine, s.Valid := fun s hs =>
    ⟨(hdigits s hs).1, (hdigits s hs).2, lt_of_le_of_lt (hsmall s hs) (by norm_num)⟩
  have hadmits : ∀ s ∈ ["abcdefg", "äß€𝄞z"], Admits sampleRoutine s.toList := by
    intro s hs
    simp only [List.mem_cons, List.not_mem_nil, or_false] at hs
    rcases hs with rfl | rfl <;> refine ⟨nofun, nofun, fun _ => ?_, trivial⟩ <;> decide +kernel
  have hfirst : String.ofList (applyAll sampleRoutine "abcdefg".toList) = "bdcea" := by decide +kernel
  have hsecond : String.ofList (applyAll sampleRoutine "äß€𝄞z".toList) = "ß€ä" := by decide +kernel
  obtain ⟨m, hm⟩ := calls_decipher hvalid ["abcdefg", "äß€𝄞z"] hadmits
  rw [List.map_cons, List.map_cons, List.map_nil, hfirst, hsecond] at hm
  exact ⟨hvalid, hadmits, m, hm⟩

end Decipher
end PlayerScript
