/-
Reading in linked states. What a scope, a conversion, an operator or a member gives depends only on
what the discipline keeps the same, and is again a value that may be held.
-/
import PlayerScript.Proofs.Eval.Discipline
import PlayerScript.Proofs.Value.Texts

namespace PlayerScript

variable {name : String} {m : Machine} {v : Value}

/-! ## Tables -/

namespace Table

variable {α : Type}

theorem mem_of_get? {t : Table α} {v : α} (h : t.get? name = some v) :
    ∃ e ∈ t.entries, e.2 = v := by
  obtain ⟨entries⟩ := t
  unfold get? at h
  dsimp only at h ⊢
  induction entries with
  | nil => cases h
  | cons e rest ih =>
    obtain ⟨n, w⟩ := e
    rw [List.lookup_cons] at h
    split at h
    · exact ⟨(n, w), List.mem_cons_self, Option.some.inj h⟩
    · obtain ⟨e, he, hv⟩ := ih h
      exact ⟨e, List.mem_cons_of_mem _ he, hv⟩

theorem mem_insertEntry {v : α} {e : String × α} :
    ∀ {entries : List (String × α)}, e ∈ insertEntry name v entries → e = (name, v) ∨ e ∈ entries
  | [], h => by
    rw [insertEntry, List.mem_singleton] at h
    exact .inl h
  | (n, w) :: rest, h => by
    rw [insertEntry] at h
    split at h
    · rename_i hn
      rcases List.mem_cons.1 h with rfl | h
      · exact .inl (by rw [hn])
      · exact .inr (List.mem_cons_of_mem _ h)
    · rcases List.mem_cons.1 h with rfl | h
      · exact .inr List.mem_cons_self
      · rcases mem_insertEntry h with h | h
        · exact .inl h
        · exact .inr (List.mem_cons_of_mem _ h)

theorem mem_insert {t : Table α} {v : α} {e : String × α}
    (h : e ∈ (t.insert name v).entries) : e.2 = v ∨ e ∈ t.entries :=
  (mem_insertEntry h).imp_left fun heq => by rw [heq]

/-- What holds of all values of a table still holds after one with it is inserted. -/
theorem forall_insert {P : α → Prop} {t : Table α} (ht : ∀ e ∈ t.entries, P e.2) {v : α} (hv : P v)
    (name : String) : ∀ e ∈ (t.insert name v).entries, P e.2 := by
  intro e he
  rcases mem_insert he with heq | hmem
  · rw [heq]
    exact hv
  · exact ht e hmem

theorem forall_insertNew {P : α → Prop} {t : Table α} (ht : ∀ e ∈ t.entries, P e.2) {v : α}
    (hv : P v) (name : String) : ∀ e ∈ (t.insertNew name v).entries, P e.2 := by
  unfold insertNew
  split
  · exact ht
  · exact forall_insert ht hv name

end Table

/-- An operator gives one of its operands or a plain value. -/
theorem BinaryOp.apply_cases (op : BinaryOp) (store : Store) (a b : Value) :
    op.apply store a b = a ∨ op.apply store a b = b ∨ (op.apply store a b).isPlain = true := by
  unfold BinaryOp.apply
  cases op with
  | nullish => dsimp only; split <;> simp
  | or => dsimp only; split <;> simp
  | and => dsimp only; split <;> simp
  | add => dsimp only; unfold Value.sum; split <;> exact .inr (.inr rfl)
  | _ => exact .inr (.inr rfl)

theorem Value.place?_mem {α : Type} {key : Value} {xs : Array α} {x : α}
    (h : Value.place? key (fun i => xs[i]?) = some x) : x ∈ xs := by
  unfold Value.place? at h
  obtain ⟨i, -, hi⟩ := Option.bind_eq_some_iff.1 h
  exact Array.mem_of_getElem? hi

namespace Discipline

variable {p q : Program} (d : Discipline p q) {m₁ m₂ : Machine} (hl : d.Linked m₁ m₂)

theorem holds_empty (m : Machine) : d.Holds m Table.empty := List.forall_mem_nil _

theorem holds_insert {t : Table Value} (ht : d.Holds m t) (hv : d.Val m v)
    (name : String) : d.Holds m (t.insert name v) := Table.forall_insert ht hv name

theorem holds_insertAll {entries : List (String × Value)} :
    ∀ {t : Table Value}, d.Holds m t → (∀ e ∈ entries, d.Val m e.2) → d.Holds m (t.insertAll entries) := by
  induction entries with
  | nil => intro t ht _; exact ht
  | cons e rest ih =>
    intro t ht h
    rw [List.forall_mem_cons] at h
    exact ih (d.holds_insert ht h.1 e.1) h.2

theorem holds_later {m' : Machine} (h : d.Later m m') {t : Table Value} (ht : d.Holds m t) :
    d.Holds m' t := fun e he => d.val_later h (ht e he)

theorem inScope_later {m' : Machine} (h : d.Later m m') {scope : Scope} (hs : d.InScope m scope) :
    d.InScope m' scope := fun l hm => d.layer_later h (hs l hm)

include hl

/-! ## Scopes -/

section Scopes

variable {scope : Scope} (hs : d.InScope m₁ scope)
include hs

theorem scope_get?_eq (name : String) :
    scope.get? m₁.store name = scope.get? m₂.store name := by
  unfold Scope.get?
  unfold Relations.InScope at hs
  generalize scope.layers = layers at hs ⊢
  induction layers with
  | nil => rfl
  | cons l rest ih =>
    rw [List.forall_mem_cons] at hs
    rw [List.findSome?_cons, List.findSome?_cons, (d.layer hl hs.1).1, ih hs.2]

theorem scope_get?_val (h : scope.get? m₁.store name = some v) : d.Val m₁ v := by
  obtain ⟨l, hmem, hv⟩ := List.exists_of_findSome?_eq_some h
  obtain ⟨e, he, rfl⟩ := Table.mem_of_get? hv
  exact (d.layer hl (hs l hmem)).2 e he

theorem scope_get_eq (name : String) : scope.get m₁.store name = scope.get m₂.store name := by
  rw [Scope.get, Scope.get, d.scope_get?_eq hl hs name]

theorem scope_get_val (name : String) : d.Val m₁ (scope.get m₁.store name) := by
  unfold Scope.get
  cases h : scope.get? m₁.store name with
  | none => exact d.val_plain rfl
  | some v => exact d.scope_get?_val hl hs h

theorem scope_definer?_eq (name : String) :
    scope.definer? m₁.store name = scope.definer? m₂.store name := by
  unfold Scope.definer?
  unfold Relations.InScope at hs
  generalize scope.layers = layers at hs ⊢
  induction layers with
  | nil => rfl
  | cons l rest ih =>
    rw [List.forall_mem_cons] at hs
    rw [List.find?_cons, List.find?_cons, (d.layer hl hs.1).1, ih hs.2]

theorem scope_contains_eq (name : String) :
    scope.contains m₁.store name = scope.contains m₂.store name := by
  rw [Scope.contains, Scope.contains, ← List.isSome_find?, ← List.isSome_find?]
  exact congrArg Option.isSome (d.scope_definer?_eq hl hs name)

theorem getLocal?_eq (name : String) :
    scope.getLocal? m₁.store name = scope.getLocal? m₂.store name := by
  rw [Scope.getLocal?, Scope.getLocal?, (d.layer hl (hs _ List.mem_cons_self)).1]

theorem keeps_set (hv : d.Val m₁ v) (name : String) :
    d.Keeps m₁ m₂ (scope.set m₁.store name v) (scope.set m₂.store name v) := by
  unfold Scope.set
  rw [← d.scope_definer?_eq hl hs name]
  refine d.bind hl (hs _ ?_) hv name
  cases h : scope.definer? m₁.store name with
  | some l => exact List.mem_of_find?_eq_some h
  | none =>
    -- the outermost layer is the last one, or the innermost if there is no other
    show scope.outer.getLastD scope.innermost ∈ scope.innermost :: scope.outer
    rw [← List.getLast_eq_getLastD (List.cons_ne_nil _ _)]
    exact List.getLast_mem _

theorem keeps_setLocal (hv : d.Val m₁ v) (name : String) :
    d.Keeps m₁ m₂ (scope.setLocal m₁.store name v) (scope.setLocal m₂.store name v) :=
  d.bind hl (hs _ List.mem_cons_self) hv name

end Scopes

/-! ## Conversions -/

theorem text_eq (hv : d.Val m₁ v) : v.text m₁.store = v.text m₂.store :=
  Value.text_congr (P := d.Val m₁) (fun _ ha => d.elements hl ha) (fun _ hf => (d.closure hl hf).1)
    (d.arrays_size hl) hv

theorem elementText_eq (hv : d.Val m₁ v) : v.elementText m₁.store = v.elementText m₂.store := by
  rw [Value.elementText, Value.elementText, d.text_eq hl hv]

theorem toNumber_eq (hv : d.Val m₁ v) : v.toNumber m₁.store = v.toNumber m₂.store :=
  Value.toNumber_congr (P := d.Val m₁) (fun _ ha => d.elements hl ha)
    (fun hw => d.text_eq hl hw) hv

theorem toInt32_eq (hv : d.Val m₁ v) : v.toInt32 m₁.store = v.toInt32 m₂.store := by
  rw [Value.toInt32, Value.toInt32, d.toNumber_eq hl hv]

/-! ## Operators -/

section Operators

variable {a b : Value} (ha : d.Val m₁ a) (hb : d.Val m₁ b)
include ha hb

theorem sum_eq : Value.sum m₁.store a b = Value.sum m₂.store a b := by
  rw [Value.sum, Value.sum, d.text_eq hl ha, d.text_eq hl hb, d.toNumber_eq hl ha,
    d.toNumber_eq hl hb]

theorem bitwise_eq (f : BitVec 32 → BitVec 32 → BitVec 32) :
    Value.bitwise m₁.store f a b = Value.bitwise m₂.store f a b := by
  rw [Value.bitwise, Value.bitwise, d.toInt32_eq hl ha, d.toInt32_eq hl hb]

theorem arithmetic_eq (f : Float → Float → Float) :
    Value.arithmetic m₁.store f a b = Value.arithmetic m₂.store f a b := by
  rw [Value.arithmetic, Value.arithmetic, d.toNumber_eq hl ha, d.toNumber_eq hl hb]

theorem comparesAs_eq (accepts : Ordering → Bool) :
    Value.comparesAs m₁.store accepts a b = Value.comparesAs m₂.store accepts a b := by
  have hcompare : Value.compare? m₁.store a b = Value.compare? m₂.store a b := by
    unfold Value.compare?
    split
    · rfl
    · rfl
    · rfl
    · rw [d.toNumber_eq hl ha, d.toNumber_eq hl hb]
  rw [Value.comparesAs, Value.comparesAs, hcompare]

theorem binary_eq (op : BinaryOp) : op.apply m₁.store a b = op.apply m₂.store a b := by
  unfold BinaryOp.apply
  cases op with
  | add => exact d.sum_eq hl ha hb
  | bitOr | bitXor | bitAnd | shr | shl => exact d.bitwise_eq hl ha hb _
  | lt | le | gt | ge => exact d.comparesAs_eq hl ha hb _
  | sub | mul | div | mod | pow => exact d.arithmetic_eq hl ha hb _
  | _ => rfl

omit hl in
theorem binary_val (op : BinaryOp) (store : Store) : d.Val m₁ (op.apply store a b) := by
  rcases op.apply_cases store a b with heq | heq | hplain
  · rw [heq]
    exact ha
  · rw [heq]
    exact hb
  · exact d.val_plain hplain

theorem assign_eq (op : AssignOp) : op.apply m₁.store a b = op.apply m₂.store a b := by
  cases op with
  | none => rfl
  | some op => exact d.binary_eq hl ha hb op

omit hl in
theorem assign_val (op : AssignOp) (store : Store) : d.Val m₁ (op.apply store a b) := by
  cases op with
  | none => exact hb
  | some op => exact d.binary_val ha hb op store

omit hb in
theorem unary_eq (op : UnaryOp) : op.apply m₁.store a = op.apply m₂.store a := by
  cases op with
  | neg => rw [UnaryOp.apply, UnaryOp.apply, d.toNumber_eq hl ha]
  | plus => rw [UnaryOp.apply, UnaryOp.apply, d.toNumber_eq hl ha]
  | _ => rfl

omit hl ha hb in
theorem unary_val (op : UnaryOp) (store : Store) : d.Val m₁ (op.apply store a) := by
  cases op <;> exact d.val_plain rfl

end Operators

/-! ## Members -/

theorem member_eq {target key : Value} (ht : d.Target m₁ target) (hk : d.Val m₁ key) :
    target.member m₁.store key = target.member m₂.store key ∧
      ∀ v, target.member m₁.store key = .ok v → d.Val m₁ v := by
  have hname := d.text_eq hl hk
  cases target with
  | undefined | null =>
    refine ⟨?_, fun v hv => by cases hv⟩
    simp only [Value.member, hname, d.text_eq hl (d.val_of_target ht (by simp))]
  | string s =>
    refine ⟨by simp only [Value.member, hname], fun v hv => ?_⟩
    simp only [Value.member] at hv
    split at hv
    · cases hv; exact d.val_plain rfl
    · cases hv
      cases Value.place? key fun i => s.toList[i]? with
      | none => exact d.val_plain rfl
      | some c => exact d.val_plain rfl
  | array a =>
    have helements := d.elements hl (d.val_of_target ht (by simp))
    refine ⟨by simp only [Value.member, hname, helements.1], fun v hv => ?_⟩
    simp only [Value.member] at hv
    split at hv
    · cases hv; exact d.val_plain rfl
    · cases hv
      cases hplace : Value.place? key fun i => (m₁.store.elements a)[i]? with
      | none => exact d.val_plain rfl
      | some w => exact helements.2 w (Value.place?_mem hplace)
  | object o =>
    have hmembers := d.members hl ht
    refine ⟨by simp only [Value.member, hname, hmembers.1], fun v hv => ?_⟩
    simp only [Value.member] at hv
    split at hv
    · rename_i w hw
      obtain ⟨e, he, rfl⟩ := Table.mem_of_get? hw
      cases hv
      exact hmembers.2 e he
    · cases hv
      split <;> exact d.val_plain rfl
  | bool | number | function => exact ⟨rfl, fun v hv => by cases hv; exact d.val_plain rfl⟩

end Discipline
end PlayerScript
