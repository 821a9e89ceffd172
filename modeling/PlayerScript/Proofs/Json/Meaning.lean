/-
What a value of a document is. A value denotes a written document in a store if it is the plain
value that is written, or a reference to an array or an object whose parts denote the written parts.
Adding to the store changes nothing about that, and two values that denote the same document are
structurally equal.
-/
import PlayerScript.Json.Convert
import PlayerScript.Proofs.Eval.Definitions
import PlayerScript.Proofs.Json.Parsing
import PlayerScript.Proofs.Number.Comparable
import PlayerScript.Proofs.Value.Linked
import PlayerScript.Value.Equality

namespace PlayerScript

/-! ## Stores that grow by arrays and objects -/

namespace Store

/-- The number of arrays and objects. -/
def containers (s : Store) : Nat := s.arrays.size + s.objects.size

/-- At least `n` arrays and objects were added, and nothing else changed. -/
structure Adds (n : Nat) (s s' : Store) : Prop where
  layers : s'.layers = s.layers
  closures : s'.closures = s.closures
  arrays : s.arrays.Extends s'.arrays
  objects : s.objects.Extends s'.objects
  count : s.containers + n ≤ s'.containers

namespace Adds

variable {s s' s'' : Store} {n k : Nat}

theorem refl (s : Store) : Adds 0 s s :=
  ⟨rfl, rfl, fun _ _ h => h, fun _ _ h => h, Nat.le_refl _⟩

theorem trans (h : Adds n s s') (h' : Adds k s' s'') : Adds (n + k) s s'' := by
  refine ⟨h'.layers.trans h.layers, h'.closures.trans h.closures,
    fun i x hx => h'.arrays i x (h.arrays i x hx), fun i x hx => h'.objects i x (h.objects i x hx), ?_⟩
  have h₁ := h.count
  have h₂ := h'.count
  omega

theorem mono (h : Adds n s s') (hk : k ≤ n) : Adds k s s' := by
  refine ⟨h.layers, h.closures, h.arrays, h.objects, ?_⟩
  have := h.count
  omega

theorem addArray (s : Store) (items : Array Value) : Adds 1 s (s.addArray items).2 := by
  refine ⟨rfl, rfl, Arena.extends_push _ _, fun _ _ h => h, ?_⟩
  show s.arrays.size + s.objects.size + 1 ≤ (s.arrays.push items).size + s.objects.size
  rw [Arena.size_push]
  omega

theorem addObject (s : Store) (members : Table Value) : Adds 1 s (s.addObject members).2 := by
  refine ⟨rfl, rfl, fun _ _ h => h, Arena.extends_push _ _, ?_⟩
  show s.arrays.size + s.objects.size + 1 ≤ s.arrays.size + (s.objects.push members).size
  rw [Arena.size_push]
  omega

end Adds
end Store

/-! ## Tables with the same names -/

namespace Table

variable {α : Type}

/-- No two entries have the same name. -/
def Distinct (es : List (String × α)) : Prop := es.Pairwise fun a b => a.1 ≠ b.1

theorem Distinct.insertEntry {name : String} {value : α} : ∀ {es : List (String × α)},
    Distinct es → Distinct (insertEntry name value es)
  | [], _ => List.pairwise_singleton _ _
  | (n, v) :: rest, h => by
    unfold Distinct at h ⊢
    rw [List.pairwise_cons] at h
    rw [Table.insertEntry]
    split
    · exact List.pairwise_cons.2 h
    · rename_i hn
      refine List.pairwise_cons.2 ⟨fun e he => ?_, Distinct.insertEntry h.2⟩
      rcases mem_insertEntry he with rfl | he
      · exact hn
      · exact h.1 e he

theorem Distinct.insertAll {es : List (String × α)} : ∀ {t : Table α}, Distinct t.entries →
    Distinct (t.insertAll es).entries := by
  induction es with
  | nil => exact fun h => h
  | cons e es ih => exact fun h => ih h.insertEntry

theorem distinct_ofList (es : List (String × α)) : Distinct (ofList es).entries :=
  Distinct.insertAll List.Pairwise.nil

variable {R : α → α → Prop}

theorem forall₂_insertAll {xs ys : List (String × α)}
    (h : List.Forall₂ (fun x y => x.1 = y.1 ∧ R x.2 y.2) xs ys) : ∀ {t u : Table α},
    List.Forall₂ (fun x y => x.1 = y.1 ∧ R x.2 y.2) t.entries u.entries →
    List.Forall₂ (fun x y => x.1 = y.1 ∧ R x.2 y.2) (t.insertAll xs).entries
      (u.insertAll ys).entries := by
  induction h with
  | nil => exact fun h => h
  | cons hxy _ ih =>
    intro t u htu
    obtain ⟨hname, hvalue⟩ := hxy
    refine ih ?_
    dsimp only [insert]
    rw [hname]
    exact forall₂_insert hvalue _ htu

/-- An entry has its counterpart under the same name. -/
theorem lookup_of_forall₂ {xs ys : List (String × α)}
    (h : List.Forall₂ (fun x y => x.1 = y.1 ∧ R x.2 y.2) xs ys) (hxs : Distinct xs) :
    ∀ e ∈ xs, ∃ v, ys.lookup e.1 = some v ∧ R e.2 v := by
  induction h with
  | nil => exact List.forall_mem_nil _
  | @cons x y xs ys hxy _ ih =>
    unfold Distinct at hxs
    rw [List.pairwise_cons] at hxs
    obtain ⟨name, y⟩ := y
    obtain ⟨hname, hvalue⟩ := hxy
    dsimp only at hname hvalue
    intro e he
    rcases List.mem_cons.1 he with rfl | he
    · exact ⟨y, by rw [hname, List.lookup_cons_self], hvalue⟩
    · have hne : (e.1 == name) = false := by
        rw [beq_eq_false_iff_ne, ← hname]
        exact (hxs.1 e he).symm
      obtain ⟨v, hv, hr⟩ := ih hxs.2 e he
      exact ⟨v, by rw [List.lookup_cons, hne]; exact hv, hr⟩

end Table

namespace Json

open PlayerScript.Text

/-! ## Values that denote documents -/

/-- The double nearest to what is written, sign included. -/
def Numeral.value (n : Numeral) : Float := if n.negative then -n.size else n.size

mutual

/-- A value denotes a written document. -/
def Denotes (s : Store) : Written → Value → Prop
  | .null, v => v = .null
  | .bool b, v => v = .bool b
  | .number n, v => v = .number n.value
  | .string parts, v => v = .string (decoded parts)
  | .array items, v =>
    ∃ a vs, v = .array a ∧ s.arrays.get? a.index = some vs.toArray ∧ DenotesItems s items vs
  | .object members, v =>
    ∃ o es, v = .object o ∧ s.objects.get? o.index = some (Table.ofList es) ∧
      DenotesMembers s members es

/-- Values denote written elements. -/
def DenotesItems (s : Store) : List Written → List Value → Prop
  | [], vs => vs = []
  | w :: rest, vs => ∃ v more, vs = v :: more ∧ Denotes s w v ∧ DenotesItems s rest more

/-- Entries denote written members. -/
def DenotesMembers (s : Store) : List (List StringPart × Written) → List (String × Value) → Prop
  | [], es => es = []
  | (key, w) :: rest, es =>
    ∃ v more, es = (decoded key, v) :: more ∧ Denotes s w v ∧ DenotesMembers s rest more

end

section

variable {s s' : Store} {n : Nat}

mutual

theorem Denotes.adds (h : s.Adds n s') : ∀ {w : Written} {v : Value}, Denotes s w v → Denotes s' w v
  | .null, _, hw | .bool _, _, hw | .number _, _, hw | .string _, _, hw => by
    simpa only [Denotes] using hw
  | .array items, v, hw => by
    rw [Denotes] at hw ⊢
    obtain ⟨a, vs, hv, hget, hitems⟩ := hw
    exact ⟨a, vs, hv, h.arrays _ _ hget, hitems.adds h⟩
  | .object members, v, hw => by
    rw [Denotes] at hw ⊢
    obtain ⟨o, es, hv, hget, hmembers⟩ := hw
    exact ⟨o, es, hv, h.objects _ _ hget, hmembers.adds h⟩

theorem DenotesItems.adds (h : s.Adds n s') : ∀ {ws : List Written} {vs : List Value},
    DenotesItems s ws vs → DenotesItems s' ws vs
  | [], vs, hw => by simpa only [DenotesItems] using hw
  | w :: rest, vs, hw => by
    rw [DenotesItems] at hw ⊢
    obtain ⟨v, more, hvs, hv, hmore⟩ := hw
    exact ⟨v, more, hvs, hv.adds h, hmore.adds h⟩

theorem DenotesMembers.adds (h : s.Adds n s') : ∀ {ms : List (List StringPart × Written)}
    {es : List (String × Value)}, DenotesMembers s ms es → DenotesMembers s' ms es
  | [], es, hw => by simpa only [DenotesMembers] using hw
  | (key, w) :: rest, es, hw => by
    rw [DenotesMembers] at hw ⊢
    obtain ⟨v, more, hes, hv, hmore⟩ := hw
    exact ⟨v, more, hes, hv.adds h, hmore.adds h⟩

end

end

theorem denotes_addArray {s : Store} {ws : List Written} {vs : List Value}
    (h : DenotesItems s ws vs) :
    Denotes (s.addArray vs.toArray).2 (.array ws) (s.addArray vs.toArray).1 := by
  rw [Denotes]
  refine ⟨⟨s.arrays.size⟩, vs, rfl, ?_, h.adds (.addArray s vs.toArray)⟩
  exact (Arena.get?_push _ _ _).trans (if_pos rfl)

theorem denotes_addObject {s : Store} {ms : List (List StringPart × Written)}
    {es : List (String × Value)} (h : DenotesMembers s ms es) :
    Denotes (s.addObject (Table.ofList es)).2 (.object ms) (s.addObject (Table.ofList es)).1 := by
  rw [Denotes]
  refine ⟨⟨s.objects.size⟩, es, rfl, ?_, h.adds (.addObject s (Table.ofList es))⟩
  exact (Arena.get?_push _ _ _).trans (if_pos rfl)

/-! ## Structural equality -/

section

open Value

variable {s : Store} {depth : Nat}

theorem Numeral.isNumber_value (n : Numeral) : Number.IsNumber n.value := by
  unfold Numeral.value
  split
  · exact (Number.isNumber_toFloat _).neg
  · exact Number.isNumber_toFloat _

theorem equalWithin_plain {v : Value} (h : strictEquals v v = true) : equalWithin s depth v v = true := by
  cases depth with
  | zero => cases v <;> exact h
  | succ depth => cases v <;> simp_all [equalWithin, strictEquals]

theorem equalMembers_of_forall₂ {equal : Value → Value → Bool} {xs ys : List (String × Value)}
    (h : List.Forall₂ (fun x y => x.1 = y.1 ∧ equal x.2 y.2 = true) xs ys) :
    equalMembers equal (Table.ofList xs) (Table.ofList ys) = true := by
  have htables : List.Forall₂ (fun x y => x.1 = y.1 ∧ equal x.2 y.2 = true)
      (Table.ofList xs).entries (Table.ofList ys).entries :=
    Table.forall₂_insertAll (R := fun x y => equal x y = true) h .nil
  rw [equalMembers, Bool.and_eq_true, beq_iff_eq, List.all_eq_true]
  refine ⟨htables.length_eq, fun e he => ?_⟩
  obtain ⟨v, hv, hequal⟩ := Table.lookup_of_forall₂ (R := fun x y => equal x y = true) htables (Table.distinct_ofList xs) e he
  rw [Table.get?, hv]
  exact hequal

mutual

/-- Two values of one document are structurally equal. -/
theorem Denotes.equalWithin : ∀ {w : Written} {v v' : Value} {depth : Nat}, w.depth ≤ depth →
    Denotes s w v → Denotes s w v' → equalWithin s depth v v' = true
  | .null, v, v', depth, _, h, h' => by
    rw [Denotes] at h h'
    subst h h'
    exact equalWithin_plain rfl
  | .bool b, v, v', depth, _, h, h' => by
    rw [Denotes] at h h'
    subst h h'
    exact equalWithin_plain (beq_self_eq_true b)
  | .number n, v, v', depth, _, h, h' => by
    rw [Denotes] at h h'
    subst h h'
    exact equalWithin_plain n.isNumber_value.beq_self
  | .string parts, v, v', depth, _, h, h' => by
    rw [Denotes] at h h'
    subst h h'
    exact equalWithin_plain (beq_self_eq_true (decoded parts))
  | .array items, v, v', 0, hd, _, _ => by
    rw [Written.depth] at hd
    omega
  | .array items, v, v', depth + 1, hd, h, h' => by
    rw [Written.depth] at hd
    rw [Denotes] at h h'
    obtain ⟨a, vs, rfl, hget, hitems⟩ := h
    obtain ⟨a', vs', rfl, hget', hitems'⟩ := h'
    have helements : s.elements a = vs.toArray := by rw [Store.elements, hget]; rfl
    have helements' : s.elements a' = vs'.toArray := by rw [Store.elements, hget']; rfl
    rw [Value.equalWithin, helements, helements', DenotesItems.equalItems (by omega) hitems hitems',
      Bool.or_true]
  | .object members, v, v', 0, hd, _, _ => by
    rw [Written.depth] at hd
    omega
  | .object members, v, v', depth + 1, hd, h, h' => by
    rw [Written.depth] at hd
    rw [Denotes] at h h'
    obtain ⟨o, es, rfl, hget, hmembers⟩ := h
    obtain ⟨o', es', rfl, hget', hmembers'⟩ := h'
    have hentries : s.members o = Table.ofList es := by rw [Store.members, hget]; rfl
    have hentries' : s.members o' = Table.ofList es' := by rw [Store.members, hget']; rfl
    have hlevels : depthOfMembers members ≤ depth := by omega
    have hequal := DenotesMembers.forall₂ hlevels hmembers hmembers'
    rw [Value.equalWithin, hentries, hentries', equalMembers_of_forall₂ hequal, Bool.or_true]

theorem DenotesItems.equalItems : ∀ {ws : List Written} {vs vs' : List Value} {depth : Nat},
    depthOfItems ws ≤ depth → DenotesItems s ws vs → DenotesItems s ws vs' →
    equalItems (Value.equalWithin s depth) vs vs' = true
  | [], vs, vs', depth, _, h, h' => by
    rw [DenotesItems] at h h'
    subst h h'
    rfl
  | w :: rest, vs, vs', depth, hd, h, h' => by
    rw [depthOfItems] at hd
    rw [DenotesItems] at h h'
    obtain ⟨v, more, rfl, hv, hmore⟩ := h
    obtain ⟨v', more', rfl, hv', hmore'⟩ := h'
    rw [Value.equalItems, hv.equalWithin (by omega) hv',
      DenotesItems.equalItems (by omega) hmore hmore', Bool.and_self]

theorem DenotesMembers.forall₂ : ∀ {ms : List (List StringPart × Written)}
    {es es' : List (String × Value)} {depth : Nat}, depthOfMembers ms ≤ depth →
    DenotesMembers s ms es → DenotesMembers s ms es' →
    List.Forall₂ (fun x y => x.1 = y.1 ∧ Value.equalWithin s depth x.2 y.2 = true) es es'
  | [], es, es', depth, _, h, h' => by
    rw [DenotesMembers] at h h'
    subst h h'
    exact .nil
  | (key, w) :: rest, es, es', depth, hd, h, h' => by
    rw [depthOfMembers] at hd
    rw [DenotesMembers] at h h'
    obtain ⟨v, more, rfl, hv, hmore⟩ := h
    obtain ⟨v', more', rfl, hv', hmore'⟩ := h'
    exact .cons ⟨rfl, hv.equalWithin (by omega) hv'⟩ (DenotesMembers.forall₂ (by omega) hmore hmore')

end

end

end Json
end PlayerScript
