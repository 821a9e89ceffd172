/-
Built-in methods in linked states. A method gives the same answer on both sides, and what it changes
or adds keeps the link; objects have no methods, so every method is called on a value that code may
hold.
-/
import PlayerScript.Proofs.Value.Linked

namespace PlayerScript

variable {v : Value}

theorem mem_of_mem_extract {xs : Array Value} {i j : Nat} (h : v ∈ xs.extract i j) : v ∈ xs := by
  rw [← Array.mem_toList_iff, Array.toList_extract, List.extract_eq_take_drop] at h
  exact Array.mem_toList_iff.1 (List.mem_of_mem_drop (List.mem_of_mem_take h))

theorem mem_of_mem_pop {xs : Array Value} (h : v ∈ xs.pop) : v ∈ xs := by
  rw [← Array.mem_toList_iff, Array.toList_pop] at h
  exact Array.mem_toList_iff.1 (List.dropLast_subset _ h)

namespace Method

theorem runSplice_nil (store : Store) (a : ArrayRef) :
    runSplice store (.array a) [] = .error (splice.refuse (.array a) .needsArgument) := rfl

theorem runSplice_cons (store : Store) (a : ArrayRef) (first : Value) (rest : List Value) :
    runSplice store (.array a) (first :: rest) =
      let items := store.elements a
      let start := Value.position store items.size 0 (some first)
      let available := items.size - start
      let count := (rest[0]?.map (Value.count store available)).getD available
      .ok ((store.modifyArray a fun _ => items.extract 0 start ++ (rest.drop 1).toArray ++
        items.extract (start + count) items.size).addArray (items.extract start (start + count))) :=
  rfl

end Method

namespace Discipline

variable {p q : Program} (d : Discipline p q) {m₁ m₂ : Machine} (hl : d.Linked m₁ m₂)

/-- Code may hold everything that a call on each element of a target needs. -/
structure Iterates (m : Machine) (target : Value) (run : Method.Iteration) : Prop where
  items : ∀ v ∈ run.items, d.Val m v
  callback : d.Val m (.function run.callback)
  receiver : ∀ v ∈ run.receiver, d.Val m v
  target : d.Val m target

include hl

/-! ## Positions -/

theorem position_eq (size absent : Nat) {v : Option Value} (hv : ∀ w ∈ v, d.Val m₁ w) :
    Value.position m₁.store size absent v = Value.position m₂.store size absent v := by
  unfold Value.position
  split
  · rfl
  · rfl
  · rename_i w _
    simp only [d.toNumber_eq hl (hv w rfl)]

theorem count_eq (available : Nat) (hv : d.Val m₁ v) :
    Value.count m₁.store available v = Value.count m₂.store available v := by
  simp only [Value.count, d.toNumber_eq hl hv]

theorem charPlace?_eq (hv : d.Val m₁ v) :
    Value.charPlace? m₁.store v = Value.charPlace? m₂.store v := by
  simp only [Value.charPlace?, d.toNumber_eq hl hv]

/-! ## Attempts -/

theorem keeps_refl : d.Keeps m₁ m₂ m₁.store m₂.store := ⟨hl, d.later_refl m₁⟩

theorem attempts_pure (hv : d.Val m₁ v) :
    d.Attempts m₁ m₂ d.Val (.ok (v, m₁.store)) (.ok (v, m₂.store)) :=
  .ok (d.keeps_refl hl) hv

theorem attempts_addArray {items : Array Value} (hv : ∀ v ∈ items, d.Val m₁ v) :
    d.Attempts m₁ m₂ d.Val (.ok (m₁.store.addArray items)) (.ok (m₂.store.addArray items)) := by
  obtain ⟨heq, hkeeps, hval⟩ := d.addArray hl hv
  have hpair : m₂.store.addArray items =
      ((m₁.store.addArray items).1, (m₂.store.addArray items).2) := Prod.ext heq.symm rfl
  rw [hpair]
  exact .ok hkeeps hval

theorem attempts_modifyArray {a : ArrayRef} (ha : d.Val m₁ (.array a)) (hv : d.Val m₁ v)
    {f : Array Value → Array Value} (hf : ∀ w ∈ f (m₁.store.elements a), d.Val m₁ w) :
    d.Attempts m₁ m₂ d.Val (.ok (v, m₁.store.modifyArray a f))
      (.ok (v, m₂.store.modifyArray a f)) := by
  have hkeeps := d.modifyArray hl ha f hf
  exact .ok hkeeps (d.val_later hkeeps.later hv)

omit hl in
theorem attempts_after {s₁ s₂ : Store} (hk : d.Keeps m₁ m₂ s₁ s₂) {x y : Except Error (Value × Store)}
    (h : d.Attempts (m₁.withStore s₁) (m₂.withStore s₂) d.Val x y) :
    d.Attempts m₁ m₂ d.Val x y := by
  cases h with
  | ok keeps result => exact .ok ⟨keeps.linked, d.later_trans hk.later keeps.later⟩ result
  | error e => exact .error e

/-! ## Methods that only read -/

variable {target : Value} (ht : d.Target m₁ target) {args : List Value}
  (ha : ∀ v ∈ args, d.Val m₁ v)
include ht ha

omit ht in
theorem attempts_split : d.Attempts m₁ m₂ d.Val (Method.runSplit m₁.store target args)
    (Method.runSplit m₂.store target args) := by
  cases target with
  | string s =>
    have hpieces : ∀ sep, ∀ v ∈ ((Text.pieces sep s.toList).map fun p =>
        Value.string (String.ofList p)).toArray, d.Val m₁ v := by
      intro sep v hv
      simp only [List.mem_toArray, List.mem_map] at hv
      obtain ⟨piece, -, rfl⟩ := hv
      exact d.val_plain rfl
    match args, ha with
    | [], _ => exact d.attempts_addArray hl (hpieces [])
    | [v], ha =>
      have htext := d.text_eq hl (ha v List.mem_cons_self)
      show d.Attempts m₁ m₂ d.Val (.ok (m₁.store.addArray _)) (.ok (m₂.store.addArray _))
      rw [← htext]
      exact d.attempts_addArray hl (hpieces _)
    | _ :: _ :: _, _ => exact .error _
  | _ => exact .error _

theorem attempts_join : d.Attempts m₁ m₂ d.Val (Method.runJoin m₁.store target args)
    (Method.runJoin m₂.store target args) := by
  cases target with
  | array a =>
    have helements := d.elements hl (d.val_of_target ht (by simp))
    match args, ha with
    | [v], ha =>
      have hmap : (m₁.store.elements a).toList.map (Value.elementText m₁.store) =
          (m₂.store.elements a).toList.map (Value.elementText m₂.store) := by
        rw [← helements.1]
        exact List.map_congr_left fun w hw =>
          d.elementText_eq hl (helements.2 w (Array.mem_def.2 hw))
      show d.Attempts m₁ m₂ d.Val (.ok (.string _, m₁.store)) (.ok (.string _, m₂.store))
      rw [← hmap, ← d.text_eq hl (ha v List.mem_cons_self)]
      exact d.attempts_pure hl (d.val_plain rfl)
    | [], _ => exact .error _
    | _ :: _ :: _, _ => exact .error _
  | _ => exact .error _

theorem attempts_slice : d.Attempts m₁ m₂ d.Val (Method.runSlice m₁.store target args)
    (Method.runSlice m₂.store target args) := by
  have hpos : ∀ size absent i, Value.position m₁.store size absent args[i]? =
      Value.position m₂.store size absent args[i]? := fun size absent i =>
    d.position_eq hl size absent fun w hw => ha w (List.mem_of_getElem? hw)
  unfold Method.runSlice
  simp only [hpos]
  split
  · exact .error _
  · cases target with
    | array a =>
      have helements := d.elements hl (d.val_of_target ht (by simp))
      dsimp only
      rw [← helements.1]
      refine d.attempts_addArray hl fun v hv => helements.2 v ?_
      exact mem_of_mem_extract hv
    | string s => exact d.attempts_pure hl (d.val_plain rfl)
    | _ => exact .error _

omit ha in
theorem attempts_lookFor {needle : Value} (hn : d.Val m₁ needle) {start : Option Value}
    (hs : ∀ w ∈ start, d.Val m₁ w) :
    d.Attempts m₁ m₂ d.Val (Method.lookFor m₁.store target needle start)
      (Method.lookFor m₂.store target needle start) := by
  have hfound : ∀ i, d.Val m₁ (Method.found i) := fun i => by cases i <;> exact d.val_plain rfl
  unfold Method.lookFor
  simp only [d.position_eq hl _ _ hs, d.text_eq hl hn]
  cases target with
  | array a =>
    dsimp only
    rw [← (d.elements hl (d.val_of_target ht (by simp))).1]
    exact d.attempts_pure hl (hfound _)
  | string s => exact d.attempts_pure hl (hfound _)
  | _ => exact .error _

theorem attempts_indexOf : d.Attempts m₁ m₂ d.Val (Method.runIndexOf m₁.store target args)
    (Method.runIndexOf m₂.store target args) := by
  unfold Method.runIndexOf
  split
  · exact d.attempts_lookFor hl ht (ha _ List.mem_cons_self) (by simp)
  · rename_i needle start
    refine d.attempts_lookFor hl ht (ha _ List.mem_cons_self) ?_
    rintro _ ⟨⟩
    exact ha _ (List.mem_cons_of_mem _ List.mem_cons_self)
  · exact .error _

omit ht in
theorem attempts_charCodeAt : d.Attempts m₁ m₂ d.Val (Method.runCharCodeAt m₁.store target args)
    (Method.runCharCodeAt m₂.store target args) := by
  cases target with
  | string s =>
    have hplain : ∀ place : Option Nat, d.Val m₁ (((place.bind fun i => s.toList[i]?).map fun c =>
        Value.ofNat c.toNat).getD (.number Number.nan)) := by
      intro place
      cases place.bind fun i => s.toList[i]? <;> exact d.val_plain rfl
    match args, ha with
    | [], _ => exact d.attempts_pure hl (hplain (some 0))
    | v :: rest, ha =>
      show d.Attempts m₁ m₂ d.Val (.ok (_, m₁.store)) (.ok (_, m₂.store))
      dsimp only
      rw [← d.charPlace?_eq hl (ha v List.mem_cons_self)]
      exact d.attempts_pure hl (hplain _)
  | _ => exact .error _

omit ht ha in
theorem spread_eq (hv : d.Val m₁ v) : Method.spread m₁.store v = Method.spread m₂.store v ∧
      ∀ w ∈ Method.spread m₁.store v, d.Val m₁ w := by
  cases v with
  | array a =>
    have helements := d.elements hl hv
    rw [Method.spread, Method.spread, helements.1]
    refine ⟨rfl, fun w hw => helements.2 w (helements.1 ▸ Array.mem_def.2 hw)⟩
  | _ => exact ⟨rfl, fun w hw => List.mem_singleton.1 hw ▸ hv⟩

theorem attempts_concat : d.Attempts m₁ m₂ d.Val (Method.runConcat m₁.store target args)
    (Method.runConcat m₂.store target args) := by
  cases target with
  | array a =>
    have helements := d.elements hl (d.val_of_target ht (by simp))
    have hspread : args.flatMap (Method.spread m₁.store) = args.flatMap (Method.spread m₂.store) := by
      rw [List.flatMap, List.flatMap, List.map_congr_left fun v hv => (d.spread_eq hl (ha v hv)).1]
    unfold Method.runConcat
    dsimp only
    rw [← helements.1, ← hspread]
    refine d.attempts_addArray hl fun v hv => ?_
    rcases Array.mem_append.1 hv with hv | hv
    · exact helements.2 v hv
    · obtain ⟨w, hw, hv⟩ := List.mem_flatMap.1 (List.mem_toArray.1 hv)
      exact (d.spread_eq hl (ha w hw)).2 v hv
  | string s =>
    have htexts : args.map (Value.text m₁.store) = args.map (Value.text m₂.store) :=
      List.map_congr_left fun v hv => d.text_eq hl (ha v hv)
    unfold Method.runConcat
    dsimp only
    rw [← htexts]
    exact d.attempts_pure hl (d.val_plain rfl)
  | _ => exact .error _

/-! ## Methods that change their array -/

theorem attempts_reverse : d.Attempts m₁ m₂ d.Val (Method.runReverse m₁.store target args)
    (Method.runReverse m₂.store target args) := by
  match args with
  | [] =>
    cases target with
    | array a =>
      have hv := d.val_of_target ht (by simp)
      exact d.attempts_modifyArray hl hv hv fun w hw =>
        (d.elements hl hv).2 w (Array.mem_reverse.1 hw)
    | _ => exact .error _
  | _ :: _ => exact .error _

theorem attempts_splice : d.Attempts m₁ m₂ d.Val (Method.runSplice m₁.store target args)
    (Method.runSplice m₂.store target args) := by
  cases target with
  | array a =>
    have hv := d.val_of_target ht (by simp)
    have helements := d.elements hl hv
    match args, ha with
    | [], _ => rw [Method.runSplice_nil, Method.runSplice_nil]; exact .error _
    | first :: rest, ha =>
      rw [Method.runSplice_cons, Method.runSplice_cons]
      rw [List.forall_mem_cons] at ha
      have hstart : ∀ size, Value.position m₁.store size 0 (some first) =
          Value.position m₂.store size 0 (some first) := fun size =>
        d.position_eq hl size 0 (by rintro _ ⟨⟩; exact ha.1)
      have hcount : ∀ available, rest[0]?.map (Value.count m₁.store available) =
          rest[0]?.map (Value.count m₂.store available) := by
        intro available
        cases hw : rest[0]? with
        | none => rw [Option.map_none, Option.map_none]
        | some w =>
          have hw' := ha.2 w (List.mem_of_getElem? hw)
          rw [Option.map_some, Option.map_some, d.count_eq hl available hw']
      dsimp only
      rw [← helements.1]
      simp only [← hstart, ← hcount]
      generalize Value.position m₁.store _ 0 (some first) = start
      generalize Option.getD _ _ = count
      -- The array is changed first, then the elements taken out of it are put into a new one.
      have hkeeps := d.modifyArray hl hv (fun _ => (m₁.store.elements a).extract 0 start ++
          (rest.drop 1).toArray ++ (m₁.store.elements a).extract (start + count)) fun w hw => by
        rcases Array.mem_append.1 hw with hw | hw
        · rcases Array.mem_append.1 hw with hw | hw
          · exact helements.2 w (mem_of_mem_extract hw)
          · exact ha.2 w (List.mem_of_mem_drop (List.mem_toArray.1 hw))
        · exact helements.2 w (mem_of_mem_extract hw)
      exact d.attempts_after hkeeps (d.attempts_addArray hkeeps.linked fun w hw =>
        d.val_later hkeeps.later (helements.2 w (mem_of_mem_extract hw)))
  | _ => exact .error _

theorem attempts_unshift : d.Attempts m₁ m₂ d.Val (Method.runUnshift m₁.store target args)
    (Method.runUnshift m₂.store target args) := by
  cases target with
  | array a =>
    have hv := d.val_of_target ht (by simp)
    refine d.attempts_modifyArray hl hv hv fun w hw => ?_
    rcases Array.mem_append.1 hw with hw | hw
    · exact ha w (List.mem_toArray.1 hw)
    · exact (d.elements hl hv).2 w hw
  | _ => exact .error _

theorem attempts_pop : d.Attempts m₁ m₂ d.Val (Method.runPop m₁.store target args)
    (Method.runPop m₂.store target args) := by
  match args with
  | [] =>
    cases target with
    | array a =>
      have hv := d.val_of_target ht (by simp)
      have helements := d.elements hl hv
      show d.Attempts m₁ m₂ d.Val (.ok (_, m₁.store.modifyArray a Array.pop))
        (.ok (_, m₂.store.modifyArray a Array.pop))
      rw [← helements.1]
      refine d.attempts_modifyArray hl hv ?_ fun w hw => helements.2 w (mem_of_mem_pop hw)
      cases hlast : (m₁.store.elements a).back? with
      | none => exact d.val_plain rfl
      | some w => exact helements.2 w (Array.mem_of_back? hlast)
    | _ => exact .error _
  | _ :: _ => exact .error _

theorem attempts_push : d.Attempts m₁ m₂ d.Val (Method.runPush m₁.store target args)
    (Method.runPush m₂.store target args) := by
  cases target with
  | array a =>
    have hv := d.val_of_target ht (by simp)
    match args, ha with
    | [], _ => exact .error _
    | first :: rest, ha =>
      refine d.attempts_modifyArray hl hv hv fun w hw => ?_
      rcases Array.mem_append.1 hw with hw | hw
      · exact (d.elements hl hv).2 w hw
      · exact ha w (List.mem_toArray.1 hw)
  | _ => exact .error _

/-! ## Calls -/

theorem attempts_method (method : Method) : d.Attempts m₁ m₂ d.Val
    (method.run m₁.store target args) (method.run m₂.store target args) := by
  cases method with
  | split => exact d.attempts_split hl ha
  | join => exact d.attempts_join hl ht ha
  | reverse => exact d.attempts_reverse hl ht ha
  | slice => exact d.attempts_slice hl ht ha
  | splice => exact d.attempts_splice hl ht ha
  | unshift => exact d.attempts_unshift hl ht ha
  | pop => exact d.attempts_pop hl ht ha
  | push => exact d.attempts_push hl ht ha
  | forEach => exact d.attempts_pure hl (d.val_plain rfl)
  | indexOf => exact d.attempts_indexOf hl ht ha
  | charCodeAt => exact d.attempts_charCodeAt hl ha
  | concat => exact d.attempts_concat hl ht ha

theorem iteration_eq : Method.iteration m₁.store target args = Method.iteration m₂.store target args ∧
    ∀ run, Method.iteration m₁.store target args = .ok run → d.Iterates m₁ target run := by
  cases target with
  | array a =>
    have hv := d.val_of_target ht (by simp)
    have helements := d.elements hl hv
    refine ⟨by simp only [Method.iteration, Method.array, Bind.bind, Except.bind, helements.1], fun run hrun => ?_⟩
    have hitems : ∀ v ∈ (m₁.store.elements a).toList, d.Val m₁ v := fun v hmem =>
      helements.2 v (Array.mem_def.2 hmem)
    match args, ha with
    | [.function f], ha =>
      cases hrun
      exact ⟨hitems, ha _ List.mem_cons_self, by simp, hv⟩
    | [.function f, this], ha =>
      cases hrun
      refine ⟨hitems, ha _ List.mem_cons_self, ?_, hv⟩
      rintro _ ⟨⟩
      exact ha _ (List.mem_cons_of_mem _ List.mem_cons_self)
    | [], _ => cases hrun
    | _ :: _ :: _ :: _, _ => cases hrun
    | [.undefined], _ | [.null], _ | [.bool _], _ | [.number _], _ | [.string _], _ |
      [.array _], _ | [.object _], _ => cases hrun
    | [.undefined, _], _ | [.null, _], _ | [.bool _, _], _ | [.number _, _], _ |
      [.string _, _], _ | [.array _, _], _ | [.object _, _], _ => cases hrun
  | _ => exact ⟨rfl, fun run hrun => by cases hrun⟩

omit ht in
theorem callStatic_eq (space method : String) :
    callStatic m₁.store space method args = callStatic m₂.store space method args ∧
      ∀ v, callStatic m₁.store space method args = .ok v → d.Val m₁ v := by
  have hchars : args.map (Namespace.character m₁.store) =
      args.map (Namespace.character m₂.store) := by
    refine List.map_congr_left fun v hv => ?_
    rw [Namespace.character, Namespace.character, d.toInt32_eq hl (ha v hv)]
  unfold callStatic
  rw [← hchars]
  split
  · refine ⟨rfl, fun v hv => ?_⟩
    split at hv
    · cases hv
    · cases hv; exact d.val_plain rfl
  · split
    · split
      · rename_i base exponent
        rw [← d.arithmetic_eq hl (ha base List.mem_cons_self)
          (ha exponent (List.mem_cons_of_mem _ List.mem_cons_self)) Number.power]
        exact ⟨rfl, fun v hv => by cases hv; exact d.val_plain rfl⟩
      · exact ⟨rfl, fun v hv => by cases hv⟩
    · exact ⟨rfl, fun v hv => by cases hv⟩

end Discipline
end PlayerScript
