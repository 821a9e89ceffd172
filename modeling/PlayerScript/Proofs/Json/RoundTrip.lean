/-
Values survive the way through JSON text. The text of a value is read as the document that it was printed
from, and the value of this document is built beside the first one, with arrays and objects of its own. The
two are structurally equal: an object is built in the order of the names, which equality does not look at,
and minus zero comes back as zero, which is equal to it.
-/
import PlayerScript.Proofs.Store.Closed
import PlayerScript.Proofs.Value.Portable

namespace PlayerScript

/-! ## Tables with different names -/

namespace Table

variable {α : Type}

theorem insertEntry_of_new {name : String} {value : α} {es : List (String × α)} (h : ∀ e ∈ es, e.1 ≠ name) :
    insertEntry name value es = es ++ [(name, value)] := by
  induction es with
  | nil => rfl
  | cons e es ih =>
    rw [insertEntry, if_neg (h e List.mem_cons_self), ih fun e he => h e (List.mem_cons_of_mem _ he)]
    rfl

theorem entries_insertAll {es : List (String × α)} {t : Table α} (h : Distinct (t.entries ++ es)) :
    (t.insertAll es).entries = t.entries ++ es := by
  induction es generalizing t with
  | nil => exact (List.append_nil _).symm
  | cons e es ih =>
    have hnew : (t.insert e.1 e.2).entries = t.entries ++ [e] := by
      refine insertEntry_of_new fun e' he' => ?_
      exact (List.pairwise_append.1 h).2.2 e' he' e List.mem_cons_self
    have hrest := @ih (t.insert e.1 e.2) (by rw [hnew, List.append_assoc]; exact h)
    rw [hnew, List.append_assoc] at hrest
    exact hrest

/-- Entries with different names are all kept, in their order. -/
theorem entries_ofList {es : List (String × α)} (h : Distinct es) : (ofList es).entries = es :=
  entries_insertAll h

theorem sorted_perm (t : Table α) : t.sorted.Perm t.entries := List.mergeSort_perm _ _

theorem Distinct.sorted {t : Table α} (h : Distinct t.entries) : Distinct t.sorted :=
  (t.sorted_perm.pairwise_iff fun hab => hab.symm).2 h

end Table

namespace Value

variable {s t u : Store} {v v' : Value} {d : Nat}

/-! ## Equality in growing stores -/

/-- Two values are structurally equal at each depth from `d` on, also when the store has grown. -/
def EqualFrom (t : Store) (d : Nat) (v v' : Value) : Prop :=
  ∀ {t' : Store}, t.Extends t' → ∀ {k : Nat}, d ≤ k → equalWithin t' k v v' = true

theorem EqualFrom.extends (h : EqualFrom t d v v') (ht : t.Extends u) : EqualFrom u d v v' :=
  fun hu _ hk => h (ht.trans hu) hk

theorem equalWithin_of_plain (h : v.isPlain = true) (k : Nat) : equalWithin t k v v' = strictEquals v v' := by
  cases k with
  | zero => cases v <;> rfl
  | succ k => cases v <;> first | rfl | cases h

theorem equalFrom_plain (h : v.isPlain = true) (heq : strictEquals v v' = true) : EqualFrom t d v v' :=
  fun _ _ _ => (equalWithin_of_plain h _).trans heq

theorem equalItems_of_forall₂ {equal : Value → Value → Bool} {vs vs' : List Value}
    (h : List.Forall₂ (fun v v' => equal v v' = true) vs vs') : equalItems equal vs vs' = true := by
  induction h with
  | nil => rfl
  | cons hv _ ih => rw [equalItems, hv, ih, Bool.and_self]

/-- Equality of objects does not look at the order of the members. -/
theorem equalMembers_of_perm {equal : Value → Value → Bool} {a b c : Table Value}
    (hperm : b.entries.Perm a.entries) (h : equalMembers equal b c = true) : equalMembers equal a c = true := by
  rw [equalMembers, Bool.and_eq_true, beq_iff_eq, List.all_eq_true] at h ⊢
  exact ⟨hperm.length_eq.symm.trans h.1, fun e he => h.2 e (hperm.mem_iff.2 he)⟩

/-! ## Rebuilding a value -/

/-- The value of a document that is added to a store is structurally equal to a value of the store. -/
def Rebuilt (u : Store) (d : Nat) (v : Value) (j : Json) : Prop :=
  ∃ v' t, ofJson j u = (v', t) ∧ u.Extends t ∧ EqualFrom t d v v'

theorem rebuilt_plain {j : Json} {v' : Value} (hj : ofJson j u = (v', u)) (hv : v.isPlain = true)
    (heq : strictEquals v v' = true) : Rebuilt u d v j :=
  ⟨v', u, hj, .refl u, equalFrom_plain hv heq⟩

/-- Elements are rebuilt one after another. -/
theorem ofItems_rebuilt {toDoc : Value → Json} {vs : List Value}
    (h : ∀ v ∈ vs, ∀ {u : Store}, s.Extends u → Rebuilt u d v (toDoc v)) (hu : s.Extends u) :
    ∃ vs' t, ofItems (vs.map toDoc) u = (vs', t) ∧ u.Extends t ∧ List.Forall₂ (EqualFrom t d) vs vs' := by
  induction vs generalizing u with
  | nil => exact ⟨[], u, rfl, .refl u, .nil⟩
  | cons v vs ih =>
    obtain ⟨v', t₁, hv, ht₁, hequal⟩ := h v List.mem_cons_self hu
    obtain ⟨vs', t₂, hvs, ht₂, hequals⟩ := ih (fun w hw => h w (List.mem_cons_of_mem _ hw)) (hu.trans ht₁)
    refine ⟨v' :: vs', t₂, ?_, ht₁.trans ht₂, .cons (hequal.extends ht₂) hequals⟩
    rw [List.map_cons, ofItems, hv]
    dsimp only
    rw [hvs]

/-- Members are rebuilt one after another, under the same names. -/
theorem ofMembers_rebuilt {toDoc : Value → Json} {es : List (String × Value)}
    (h : ∀ e ∈ es, ∀ {u : Store}, s.Extends u → Rebuilt u d e.2 (toDoc e.2)) (hu : s.Extends u)
    (table : Table Value) : ∃ es' t,
      ofMembers (es.map fun e => (e.1, toDoc e.2)) table u = (table.insertAll es', t) ∧ u.Extends t ∧
        List.Forall₂ (fun e e' => e.1 = e'.1 ∧ EqualFrom t d e.2 e'.2) es es' := by
  induction es generalizing u table with
  | nil => exact ⟨[], u, rfl, .refl u, .nil⟩
  | cons e es ih =>
    obtain ⟨v', t₁, hv, ht₁, hequal⟩ := h e List.mem_cons_self hu
    obtain ⟨es', t₂, hes, ht₂, hequals⟩ :=
      ih (fun w hw => h w (List.mem_cons_of_mem _ hw)) (hu.trans ht₁) (table.insert e.1 v')
    refine ⟨(e.1, v') :: es', t₂, ?_, ht₁.trans ht₂, .cons ⟨rfl, hequal.extends ht₂⟩ hequals⟩
    rw [List.map_cons, ofMembers, hv]
    dsimp only
    rw [hes]
    rfl

/-- An array is rebuilt from its elements. -/
theorem rebuilt_array {a : ArrayRef} (ha : s.Has (.array a)) (hu : s.Extends u)
    (h : ∀ v ∈ s.elements a, ∀ {u : Store}, s.Extends u → Rebuilt u d v (v.toJsonWithin s d)) :
    Rebuilt u (d + 1) (.array a) ((Value.array a).toJsonWithin s (d + 1)) := by
  obtain ⟨vs', t, hvs, ht, hequals⟩ := ofItems_rebuilt (fun v hv => h v (Array.mem_def.2 hv)) hu
  have hgrown := Store.Extends.addArray t vs'.toArray
  refine ⟨(t.addArray vs'.toArray).1, (t.addArray vs'.toArray).2, ?_, ht.trans hgrown, ?_⟩
  · rw [toJsonWithin, ofJson, hvs]
  · intro t' ht' k hk
    obtain ⟨k, rfl⟩ : ∃ k', k = k' + 1 := ⟨k - 1, by omega⟩
    have hold : t'.elements a = s.elements a := ((hu.trans ht).trans (hgrown.trans ht')).elements ha
    have hnew : t'.elements ⟨t.arrays.size⟩ = vs'.toArray := by
      refine (ht'.elements ?_).trans (Store.elements_addArray t vs'.toArray)
      show t.arrays.size < (t.arrays.push vs'.toArray).size
      rw [Arena.size_push]
      omega
    show equalWithin t' (k + 1) (.array a) (.array ⟨t.arrays.size⟩) = true
    rw [equalWithin, hold, hnew, Bool.or_eq_true]
    refine .inr (equalItems_of_forall₂ ?_)
    exact hequals.imp fun _ _ hv => hv (hgrown.trans ht') (Nat.le_of_succ_le_succ hk)

/-- An object is rebuilt from its members, in the order of their names. -/
theorem rebuilt_object {o : ObjectRef} (ho : s.Has (.object o)) (hnames : Table.Distinct (s.members o).entries)
    (hu : s.Extends u)
    (h : ∀ e ∈ (s.members o).entries, ∀ {u : Store}, s.Extends u → Rebuilt u d e.2 (e.2.toJsonWithin s d)) :
    Rebuilt u (d + 1) (.object o) ((Value.object o).toJsonWithin s (d + 1)) := by
  have hperm := (s.members o).sorted_perm
  obtain ⟨es', t, hes, ht, hequals⟩ :=
    ofMembers_rebuilt (fun e he => h e (hperm.mem_iff.1 he)) hu Table.empty
  have hgrown := Store.Extends.addObject t (Table.ofList es')
  refine ⟨(t.addObject (Table.ofList es')).1, (t.addObject (Table.ofList es')).2, ?_, ht.trans hgrown, ?_⟩
  · rw [toJsonWithin, ofJson, hes]
    rfl
  · intro t' ht' k hk
    obtain ⟨k, rfl⟩ : ∃ k', k = k' + 1 := ⟨k - 1, by omega⟩
    have hold : t'.members o = s.members o := ((hu.trans ht).trans (hgrown.trans ht')).members ho
    have hnew : t'.members ⟨t.objects.size⟩ = Table.ofList es' := by
      refine (ht'.members ?_).trans (Store.members_addObject t (Table.ofList es'))
      show t.objects.size < (t.objects.push (Table.ofList es')).size
      rw [Arena.size_push]
      omega
    have hsorted : (Table.ofList (s.members o).sorted).entries.Perm (s.members o).entries := by
      rw [Table.entries_ofList hnames.sorted]
      exact hperm
    show equalWithin t' (k + 1) (.object o) (.object ⟨t.objects.size⟩) = true
    rw [equalWithin, hold, hnew, Bool.or_eq_true]
    refine .inr (equalMembers_of_perm hsorted (Json.equalMembers_of_forall₂ ?_))
    exact hequals.imp fun _ _ he => ⟨he.1, he.2 (hgrown.trans ht') (Nat.le_of_succ_le_succ hk)⟩

/-- Every value that JSON can express is rebuilt from its document. -/
theorem Portable.rebuilt (h : v.Portable s d) (hu : s.Extends u) : Rebuilt u d v (v.toJsonWithin s d) := by
  induction h generalizing u with
  | null => rw [toJsonWithin]; exact rebuilt_plain rfl rfl rfl
  | bool b => rw [toJsonWithin]; exact rebuilt_plain rfl rfl (beq_self_eq_true b)
  | string text => rw [toJsonWithin]; exact rebuilt_plain rfl rfl (beq_self_eq_true text)
  | number hx hn =>
    rw [toJsonWithin, numberToJson_eq hx hn]
    refine rebuilt_plain rfl rfl ?_
    have hinteger := Number.isInteger_of_integer? (Number.integer?_of_rational? hx) hn
    exact (hinteger.beq_iff (Number.isInteger_ofInt hn) hn hn).2 rfl
  | array ha _ ih => exact rebuilt_array ha hu fun v hv _ hu' => ih v hv hu'
  | object ho hnames _ ih => exact rebuilt_object ho hnames hu fun e he _ hu' => ih e he hu'

end Value

/-- The text of a value that JSON can express, nested less than 128 levels deep, is read as a value that is
structurally equal. Nothing in the store is changed by that. -/
theorem json_text_keeps_value {s : Store} {v : Value} {d : Nat} (h : v.Portable s d) (hd : d < 128) :
    ∃ v' t, Value.parse (v.toJson s).text s = .ok (v', t) ∧ s.Extends t ∧ v.equals t v' = true := by
  have hread : Json.parse? (v.toJson s).text.toList = some (v.toJson s) := by
    rw [h.toJson_eq]
    exact Json.parse?_text h.integralWithin hd
  obtain ⟨v', t, hv', ht, hequal⟩ := h.within_containers.rebuilt (.refl s)
  rw [← h.within_containers.toJson_eq] at hv'
  refine ⟨v', t, ?_, ht, hequal (.refl t) (Nat.add_le_add ht.arrays.size_le ht.objects.size_le)⟩
  rw [Value.parse, hread]
  exact congrArg Except.ok hv'

/-- A store with an object that holds an array. A name and a text in it are printed with escapes. -/
def escapedStore : Store where
  layers := Arena.empty
  arrays := ⟨#[#[.number (-0.0), .ofInt (-9007199254740991), .string "\x01\"😀"]]⟩
  objects := ⟨#[Table.ofList [("b\\", .array ⟨0⟩), ("a", .null)]]⟩
  closures := Arena.empty

theorem portable_escapedStore : (Value.object ⟨0⟩).Portable escapedStore 2 := by
  have hzero := (Number.isInteger_ofNat (show 0 < 2 ^ 53 by norm_num)).neg.rational?
  have hleast := (@Number.isInteger_ofInt (-9007199254740991) (by norm_num)).rational?
  have harray : (Value.array ⟨0⟩).Portable escapedStore 1 := by
    refine .array (by decide) fun v hv => ?_
    have hmem : v ∈ [Value.number (-0.0), .ofInt (-9007199254740991), .string "\x01\"😀"] := Array.mem_def.1 hv
    simp only [List.mem_cons, List.not_mem_nil, or_false] at hmem
    rcases hmem with rfl | rfl | rfl
    · exact .number hzero (by norm_num)
    · exact .number hleast (by norm_num)
    · exact .string _
  refine .object (by decide) (Table.distinct_ofList _) fun e he => ?_
  have hmem : e ∈ [("b\\", Value.array ⟨0⟩), ("a", .null)] := he
  simp only [List.mem_cons, List.not_mem_nil, or_false] at hmem
  rcases hmem with rfl | rfl
  · exact harray
  · exact .null

theorem json_text_keeps_value_escaped : (Value.object ⟨0⟩).Portable escapedStore 2 ∧ 2 < 128 ∧
    ∃ v' t, Value.parse ((Value.object ⟨0⟩).toJson escapedStore).text escapedStore = .ok (v', t) ∧
      escapedStore.Extends t ∧ (Value.object ⟨0⟩).equals t v' = true :=
  ⟨portable_escapedStore, by norm_num, json_text_keeps_value portable_escapedStore (by norm_num)⟩

end PlayerScript
