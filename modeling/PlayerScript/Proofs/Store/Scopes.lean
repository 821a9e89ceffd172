/-
Scopes over shared layers. Scopes are lists of layers, and a layer can belong to many of them, in any
place and more than once. A write through one scope changes one binding of one layer; another scope sees
it if and only if that layer is the first of its own layers that binds the name.
-/
import PlayerScript.Proofs.Store.Changes

namespace PlayerScript

/-! ## Tables -/

theorem Table.get?_insert {α : Type} (t : Table α) (name n : String) (v : α) :
    (t.insert name v).get? n = if n = name then some v else t.get? n := by
  obtain ⟨entries⟩ := t
  unfold insert get?
  dsimp only
  induction entries with
  | nil =>
    rw [insertEntry, List.lookup_cons]
    by_cases h : n = name
    · rw [if_pos h, beq_iff_eq.2 h]
    · rw [if_neg h, beq_eq_false_iff_ne.2 h]
  | cons e rest ih =>
    obtain ⟨key, w⟩ := e
    rw [insertEntry]
    by_cases hkey : key = name
    · rw [if_pos hkey, List.lookup_cons, List.lookup_cons]
      by_cases h : n = key
      · rw [if_pos (h.trans hkey), beq_iff_eq.2 h]
      · rw [if_neg (hkey ▸ h), beq_eq_false_iff_ne.2 h]
    · rw [if_neg hkey, List.lookup_cons, List.lookup_cons, ih]
      by_cases h : n = key
      · rw [beq_iff_eq.2 h]
        exact (if_neg (h ▸ hkey)).symm
      · rw [beq_eq_false_iff_ne.2 h]

/-! ## One binding of one layer -/

namespace Store

/-- One binding of one layer has a value that may be new, and nothing else differs. -/
structure Rebound (old new : Store) (l : LayerRef) (name : String) (v : Value) : Prop where
  here : (new.layer l).get? name = some v
  kept : ∀ k x, k ≠ l ∨ x ≠ name → (new.layer k).get? x = (old.layer k).get? x
  elsewhere : ∀ n, n ≠ .layer l → old.SameAt new n
  cells : ∀ n, new.Has n ↔ old.Has n

theorem get?_layer_bind (s : Store) (l l' : LayerRef) (name x : String) (v : Value) (h : x ≠ name) :
    ((s.bind l name v).layer l').get? x = (s.layer l').get? x := by
  unfold Store.layer Store.bind
  dsimp only
  rw [Arena.get?_modify]
  split
  · cases s.layers.get? l'.index with
    | none => rfl
    | some t => exact (Table.get?_insert t name x v).trans (if_neg h)
  · rfl

theorem layer_bind {s : Store} {l : LayerRef} (h : s.Has (.layer l)) (name : String) (v : Value) :
    (s.bind l name v).layer l = (s.layer l).insert name v := by
  obtain ⟨t, ht⟩ : ∃ t, s.layers.get? l.index = some t := ⟨_, Array.getElem?_eq_getElem h⟩
  unfold Store.layer Store.bind
  dsimp only
  rw [Arena.get?_modify, if_pos rfl, ht]
  rfl

theorem sameAt_bind {s : Store} {l : LayerRef} {n : Node} (name : String) (v : Value) (h : n ≠ .layer l) :
    s.SameAt (s.bind l name v) n := by
  cases n with
  | layer k =>
    show s.layers.get? k.index = (s.layers.modify l.index _).get? k.index
    have hindex : l.index ≠ k.index := by
      intro heq
      cases l
      cases k
      exact h (congrArg (fun i => Node.layer ⟨i⟩) heq.symm)
    rw [Arena.get?_modify, if_neg hindex]
  | _ => rfl

theorem has_bind_iff {s : Store} {l : LayerRef} {n : Node} (name : String) (v : Value) :
    (s.bind l name v).Has n ↔ s.Has n := by
  cases n with
  | layer k =>
    show k.index < (s.layers.modify l.index _).size ↔ _
    rw [Arena.size_modify]
    rfl
  | _ => rfl

theorem layer_of_sameAt {s t : Store} {l : LayerRef} (h : s.SameAt t (.layer l)) : t.layer l = s.layer l := by
  rw [layer, layer, show s.layers.get? l.index = t.layers.get? l.index from h]

theorem rebound_bind {s : Store} {l : LayerRef} (h : s.Has (.layer l)) (name : String) (v : Value) :
    s.Rebound (s.bind l name v) l name v := by
  constructor
  · rw [layer_bind h, Table.get?_insert, if_pos rfl]
  · intro k x hne
    by_cases hx : x = name
    · -- The same name in another layer.
      have hk : Node.layer k ≠ .layer l := by
        intro heq
        rcases hne with hne | hne
        · exact hne (Node.layer.inj heq)
        · exact hne hx
      rw [layer_of_sameAt (sameAt_bind name v hk)]
    · exact s.get?_layer_bind l k name x v hx
  · intro n hn
    exact sameAt_bind name v hn
  · intro n
    exact has_bind_iff name v

end Store

/-! ## Which layer is read, and which is written -/

namespace Scope

/-- A layer is the first one of a scope that binds a name. -/
def BoundFirst (store : Store) (s : Scope) (name : String) (l : LayerRef) : Prop :=
  ∃ inner outer, s.layers = inner ++ l :: outer ∧ (∀ k ∈ inner, (store.layer k).get? name = none) ∧
    ∃ v, (store.layer l).get? name = some v

/-- No layer of a scope binds a name. -/
def Unbound (store : Store) (s : Scope) (name : String) : Prop :=
  ∀ l ∈ s.layers, (store.layer l).get? name = none

/-- A write of a name goes to a layer: the first one that binds the name, or the last one of all if
none does. -/
def WritesTo (store : Store) (s : Scope) (name : String) (l : LayerRef) : Prop :=
  s.BoundFirst store name l ∨ s.Unbound store name ∧ s.layers.getLast? = some l

variable {store : Store} {s : Scope} {name : String} {l : LayerRef}

theorem definer?_eq_some_iff : s.definer? store name = some l ↔ s.BoundFirst store name l := by
  rw [definer?, List.find?_eq_some_iff_append]
  constructor
  · rintro ⟨hbound, inner, outer, heq, hinner⟩
    refine ⟨inner, outer, heq, fun k hk => ?_, Option.isSome_iff_exists.1 hbound⟩
    simpa [Table.contains] using hinner k hk
  · rintro ⟨inner, outer, heq, hinner, hbound⟩
    refine ⟨Option.isSome_iff_exists.2 hbound, inner, outer, heq, fun k hk => ?_⟩
    simp [Table.contains, hinner k hk]

theorem definer?_eq_none_iff : s.definer? store name = none ↔ s.Unbound store name := by
  rw [definer?, List.find?_eq_none]
  simp [Unbound, Table.contains]

theorem boundFirst_or_unbound (store : Store) (s : Scope) (name : String) :
    (∃ l, s.BoundFirst store name l) ∨ s.Unbound store name := by
  cases h : s.definer? store name with
  | none => exact .inr (definer?_eq_none_iff.1 h)
  | some l => exact .inl ⟨l, definer?_eq_some_iff.1 h⟩

theorem getLast?_layers (s : Scope) : s.layers.getLast? = some s.outermost := by
  rw [layers, outermost, List.getLast?_cons, List.getLastD_eq_getLast?]

/-- A write goes to one layer, and is a new binding there. -/
theorem exists_writesTo (store : Store) (s : Scope) (name : String) :
    ∃ l, s.WritesTo store name l ∧ ∀ v, s.set store name v = store.bind l name v := by
  cases h : s.definer? store name with
  | none =>
    refine ⟨s.outermost, .inr ⟨definer?_eq_none_iff.1 h, getLast?_layers s⟩, fun v => ?_⟩
    rw [set, h, Option.getD_none]
  | some l =>
    refine ⟨l, .inl (definer?_eq_some_iff.1 h), fun v => ?_⟩
    rw [set, h, Option.getD_some]

theorem BoundFirst.mem (h : s.BoundFirst store name l) : l ∈ s.layers := by
  obtain ⟨inner, outer, heq, -⟩ := h
  simp [heq]

theorem WritesTo.mem (h : s.WritesTo store name l) : l ∈ s.layers := by
  rcases h with h | ⟨-, h⟩
  · exact h.mem
  · exact List.mem_of_getLast? h

/-! ## Reading -/

theorem get?_of_boundFirst (h : s.BoundFirst store name l) :
    s.get? store name = (store.layer l).get? name := by
  obtain ⟨inner, outer, heq, hinner, v, hv⟩ := h
  have hnone : inner.findSome? (fun k => (store.layer k).get? name) = none :=
    List.findSome?_eq_none_iff.2 hinner
  rw [get?, heq, List.findSome?_append, hnone, Option.none_or, List.findSome?_cons, hv]

theorem get?_of_unbound (h : s.Unbound store name) : s.get? store name = none :=
  List.findSome?_eq_none_iff.2 h

theorem contains_eq (store : Store) (s : Scope) (name : String) :
    s.contains store name = (s.get? store name).isSome := by
  rw [contains, get?]
  induction s.layers with
  | nil => rfl
  | cons l layers ih =>
    rw [List.any_cons, ih, List.findSome?_cons, Table.contains]
    cases (store.layer l).get? name <;> rfl

/-- A name that is bound changes what no other name reads. -/
theorem get?_bind_of_ne (store : Store) (s : Scope) (l : LayerRef) {name x : String} (v : Value)
    (h : x ≠ name) : s.get? (store.bind l name v) x = s.get? store x := by
  unfold Scope.get?
  congr 1
  funext l'
  exact store.get?_layer_bind l l' name x v h

/-- A name that is bound in the innermost layer is read from there. -/
theorem get?_setLocal (store : Store) (s : Scope) (name : String) (v : Value)
    (h : s.innermost.index < store.layers.size) : s.get? (s.setLocal store name v) name = some v := by
  have hlayer := Store.layer_bind (l := s.innermost) h name v
  unfold Scope.get? Scope.layers
  rw [List.findSome?_cons, setLocal, hlayer, Table.get?_insert, if_pos rfl]

/-! ## Reading after one binding has changed -/

section

variable {new : Store} {v : Value} (h : store.Rebound new l name v)
include h

/-- The layer of a new binding comes first in the scope that the binding was written through. -/
theorem boundFirst_of_writesTo (hw : s.WritesTo store name l) : s.BoundFirst new name l := by
  rcases hw with ⟨inner, outer, heq, hinner, w, hw⟩ | ⟨hunbound, hlast⟩
  · refine ⟨inner, outer, heq, fun k hk => ?_, v, h.here⟩
    -- A layer before it did not bind the name, so it is another one.
    have hne : k ≠ l := by
      rintro rfl
      rw [hinner k hk] at hw
      cases hw
    rw [h.kept k name (.inl hne)]
    exact hinner k hk
  · obtain ⟨inner, outer, heq, hnot⟩ := List.eq_append_cons_of_mem (List.mem_of_getLast? hlast)
    refine ⟨inner, outer, heq, fun k hk => ?_, v, h.here⟩
    have hne : k ≠ l := by
      rintro rfl
      exact hnot hk
    rw [h.kept k name (.inl hne)]
    exact hunbound k (by simp [heq, hk])

theorem get?_of_rebound_ne (t : Scope) {x : String} (hx : x ≠ name) : t.get? new x = t.get? store x := by
  unfold Scope.get?
  congr 1
  funext k
  exact h.kept k x (.inr hx)

/-- A scope whose reading of the name does not end at the new binding reads it as before. -/
theorem get?_of_not_boundFirst {t : Scope} (hnot : ¬ t.BoundFirst new name l) :
    t.get? new name = t.get? store name := by
  rcases boundFirst_or_unbound new t name with ⟨k, hk⟩ | hunbound
  · have hne : k ≠ l := by
      rintro rfl
      exact hnot hk
    rw [get?_of_boundFirst hk]
    obtain ⟨inner, outer, heq, hinner, w, hw⟩ := hk
    have hold : t.BoundFirst store name k := by
      refine ⟨inner, outer, heq, fun j hj => ?_, w, ?_⟩
      · have hj' := hinner j hj
        have hjne : j ≠ l := by
          rintro rfl
          rw [h.here] at hj'
          cases hj'
        rwa [h.kept j name (.inl hjne)] at hj'
      · rwa [h.kept k name (.inl hne)] at hw
    rw [get?_of_boundFirst hold, h.kept k name (.inl hne)]
  · have hold : t.Unbound store name := by
      intro j hj
      have hj' := hunbound j hj
      have hjne : j ≠ l := by
        rintro rfl
        rw [h.here] at hj'
        cases hj'
      rwa [h.kept j name (.inl hjne)] at hj'
    rw [get?_of_unbound hunbound, get?_of_unbound hold]

end

/-! ## Scopes that are made one after another -/

/-- Scopes that are there after any number of steps, beginning with any store: layers and scopes are
made, over layers that exist, and names are written through the scopes. -/
inductive Built : Store → List Scope → Prop
  | start (store : Store) : Built store []
  | layer {store : Store} {scopes : List Scope} (h : Built store scopes) (bindings : Table Value) :
      Built (store.addLayer bindings).2 scopes
  | ofLayers {store : Store} {scopes : List Scope} (h : Built store scopes) (layers : List LayerRef)
      (hlayers : ∀ l ∈ layers, store.Has (.layer l)) :
      Built (ofLayers store layers).2 ((ofLayers store layers).1 :: scopes)
  | child {store : Store} {scopes : List Scope} (h : Built store scopes) {s : Scope} (hs : s ∈ scopes)
      (bindings : Table Value) :
      Built (s.child store bindings).2 ((s.child store bindings).1 :: scopes)
  | set {store : Store} {scopes : List Scope} (h : Built store scopes) {s : Scope} (hs : s ∈ scopes)
      (name : String) (v : Value) : Built (s.set store name v) scopes
  | setLocal {store : Store} {scopes : List Scope} (h : Built store scopes) {s : Scope} (hs : s ∈ scopes)
      (name : String) (v : Value) : Built (s.setLocal store name v) scopes

end Scope

theorem Store.has_addLayer {s : Store} {n : Node} (bindings : Table Value) (h : s.Has n) :
    (s.addLayer bindings).2.Has n := by
  cases n with
  | layer k =>
    show k.index < (s.layers.push bindings).size
    rw [Arena.size_push]
    exact Nat.lt_succ_of_lt h
  | _ => exact h

theorem Store.has_new_layer (s : Store) (bindings : Table Value) :
    (s.addLayer bindings).2.Has (.layer (s.addLayer bindings).1) := by
  show s.layers.size < (s.layers.push bindings).size
  rw [Arena.size_push]
  exact Nat.lt_succ_self _

namespace Scope

variable {store : Store} {scopes : List Scope}

/-- Every layer of a scope that was made exists. -/
theorem Built.has_layers (h : Built store scopes) :
    ∀ s ∈ scopes, ∀ l ∈ s.layers, store.Has (.layer l) := by
  induction h with
  | start => simp
  | layer h bindings ih => exact fun s hs l hl => Store.has_addLayer bindings (ih s hs l hl)
  | @ofLayers store scopes h layers hlayers ih =>
    cases layers with
    | nil =>
      refine List.forall_mem_cons.2 ⟨?_, fun s hs l hl => Store.has_addLayer _ (ih s hs l hl)⟩
      exact List.forall_mem_singleton.2 (store.has_new_layer _)
    | cons k rest => exact List.forall_mem_cons.2 ⟨hlayers, ih⟩
  | @child store scopes h s hs bindings ih =>
    have hold : ∀ t ∈ scopes, ∀ l ∈ t.layers, (store.addLayer bindings).2.Has (.layer l) :=
      fun t ht l hl => Store.has_addLayer bindings (ih t ht l hl)
    refine List.forall_mem_cons.2 ⟨?_, hold⟩
    exact List.forall_mem_cons.2 ⟨store.has_new_layer bindings, hold s hs⟩
  | set h hs name v ih => exact fun t ht l hl => (Store.has_bind_iff name v).2 (ih t ht l hl)
  | setLocal h hs name v ih => exact fun t ht l hl => (Store.has_bind_iff name v).2 (ih t ht l hl)

/-- Writes through scopes over shared layers. A write changes exactly one binding: in the first layer of
the scope that binds the name, or in its last layer if none does. The scope itself then reads the value
that was written. Any scope reads every other name as before, and reads the name that was written as the
new value if the written layer is the first of its layers to bind it, and as before if not. A name is
contained in a scope when it reads a value there. A local write changes one binding of the first layer.
Every scope that was made has a layer, and all its layers exist. -/
theorem writes_reach_first_binding (h : Built store scopes) {s : Scope} (hs : s ∈ scopes)
    (name : String) (v : Value) :
    (∃ l, s.WritesTo store name l ∧ store.Rebound (s.set store name v) l name v ∧
      s.get? (s.set store name v) name = some v ∧
      ∀ t : Scope, (∀ x, x ≠ name → t.get? (s.set store name v) x = t.get? store x) ∧
        (t.BoundFirst (s.set store name v) name l → t.get? (s.set store name v) name = some v) ∧
        (¬ t.BoundFirst (s.set store name v) name l →
          t.get? (s.set store name v) name = t.get? store name)) ∧
    (∀ x, s.contains store x = true ↔ ∃ w, s.get? store x = some w) ∧
    (∃ l rest, s.layers = l :: rest ∧ store.Rebound (s.setLocal store name v) l name v) ∧
    s.layers ≠ [] ∧ ∀ l ∈ s.layers, store.Has (.layer l) := by
  have hlayers := h.has_layers s hs
  refine ⟨?_, ?_, ?_, List.cons_ne_nil _ _, hlayers⟩
  · obtain ⟨l, hwrites, hset⟩ := exists_writesTo store s name
    have hrebound := Store.rebound_bind (hlayers l hwrites.mem) name v
    rw [← hset] at hrebound
    refine ⟨l, hwrites, hrebound, ?_, fun t => ⟨?_, ?_, ?_⟩⟩
    · rw [get?_of_boundFirst (boundFirst_of_writesTo hrebound hwrites)]
      exact hrebound.here
    · intro x hx
      exact get?_of_rebound_ne hrebound t hx
    · intro hfirst
      rw [get?_of_boundFirst hfirst]
      exact hrebound.here
    · intro hnot
      exact get?_of_not_boundFirst hrebound hnot
  · intro x
    rw [contains_eq, Option.isSome_iff_exists]
  · exact ⟨s.innermost, s.outer, rfl, Store.rebound_bind (hlayers _ List.mem_cons_self) name v⟩

/-- Two scopes over three layers, which share the second one; the last layer binds a name, and the
second scope has it in front and behind. -/
def crossed : Store × Scope × Scope :=
  (⟨⟨#[Table.empty, Table.empty, Table.empty.insert "n" (.bool true)]⟩, .empty, .empty, .empty⟩,
    ⟨⟨0⟩, [⟨1⟩]⟩, ⟨⟨2⟩, [⟨1⟩, ⟨2⟩]⟩)

/-- A new name is written in the shared layer. The first scope reads it, and the second one goes on to
read the name from its own first layer. -/
theorem writes_reach_first_binding_crossed :
    Built crossed.1 [crossed.2.1, crossed.2.2] ∧
    crossed.2.1.get? (crossed.2.1.set crossed.1 "n" .null) "n" = some .null ∧
    crossed.2.2.get? (crossed.2.1.set crossed.1 "n" .null) "n" = some (.bool true) := by
  have hbuilt : Built crossed.1 [crossed.2.1, crossed.2.2] :=
    .ofLayers (.ofLayers (.start crossed.1) [⟨2⟩, ⟨1⟩, ⟨2⟩] (by decide)) [⟨0⟩, ⟨1⟩] (by decide)
  obtain ⟨⟨l, hwrites, -, hread, hothers⟩, -⟩ :=
    writes_reach_first_binding hbuilt (s := crossed.2.1) List.mem_cons_self "n" .null
  refine ⟨hbuilt, hread, ?_⟩
  have hfirst : crossed.2.2.definer? (crossed.2.1.set crossed.1 "n" .null) "n" = some ⟨2⟩ := rfl
  have hnot : ¬ crossed.2.2.BoundFirst (crossed.2.1.set crossed.1 "n" .null) "n" l := by
    intro hl
    obtain rfl : l = ⟨2⟩ := Option.some.inj ((definer?_eq_some_iff.2 hl).symm.trans hfirst)
    exact absurd hwrites.mem (by decide)
  rw [(hothers crossed.2.2).2.2 hnot]
  rfl

end Scope
end PlayerScript
