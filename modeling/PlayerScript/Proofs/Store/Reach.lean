/-
What can be reached in a state. Layers, arrays, objects and functions are cells of the store; a
layer refers to the values bound in it, an array to its elements, an object to its members, and a
function to the layers it closed over. The layer of globals and the values in the memos are reached
in any case.
-/
import PlayerScript.Eval.Machine

namespace PlayerScript

variable {s : Store} {i : Nat} {n : Node}

/-- A cell of the store. -/
inductive Node where
  | layer (l : LayerRef)
  | array (a : ArrayRef)
  | object (o : ObjectRef)
  | function (f : FunctionRef)
  deriving DecidableEq

/-- The cell that a value refers to. -/
def Value.node? : Value → Option Node
  | .array a => some (.array a)
  | .object o => some (.object o)
  | .function f => some (.function f)
  | _ => none

namespace Store

/-- There is such a cell. -/
def Has (s : Store) : Node → Prop
  | .layer l => l.index < s.layers.size
  | .array a => a.index < s.arrays.size
  | .object o => o.index < s.objects.size
  | .function f => f.index < s.closures.size

instance (s : Store) : (n : Node) → Decidable (s.Has n)
  | .layer l => inferInstanceAs (Decidable (l.index < s.layers.size))
  | .array a => inferInstanceAs (Decidable (a.index < s.arrays.size))
  | .object o => inferInstanceAs (Decidable (o.index < s.objects.size))
  | .function f => inferInstanceAs (Decidable (f.index < s.closures.size))

/-- A cell has the same contents in two stores. -/
def SameAt (s t : Store) : Node → Prop
  | .layer l => s.layers.get? l.index = t.layers.get? l.index
  | .array a => s.arrays.get? a.index = t.arrays.get? a.index
  | .object o => s.objects.get? o.index = t.objects.get? o.index
  | .function f => s.closures.get? f.index = t.closures.get? f.index

/-- A cell refers to another one. -/
inductive Refers (s : Store) : Node → Node → Prop
  | binding {l : LayerRef} {e : String × Value} {n : Node} :
      e ∈ (s.layer l).entries → e.2.node? = some n → Refers s (.layer l) n
  | element {a : ArrayRef} {v : Value} {n : Node} :
      v ∈ s.elements a → v.node? = some n → Refers s (.array a) n
  | member {o : ObjectRef} {e : String × Value} {n : Node} :
      e ∈ (s.members o).entries → e.2.node? = some n → Refers s (.object o) n
  | captured {f : FunctionRef} {l : LayerRef} :
      l ∈ (s.closure f).captured.layers → Refers s (.function f) (.layer l)

theorem layer_of_get? {t : Table Value} (h : s.layers.get? i = some t) : s.layer ⟨i⟩ = t := by
  rw [layer, h]
  rfl

theorem elements_of_get? {items : Array Value}
    (h : s.arrays.get? i = some items) : s.elements ⟨i⟩ = items := by
  rw [elements, h]
  rfl

theorem members_of_get? {t : Table Value} (h : s.objects.get? i = some t) : s.members ⟨i⟩ = t := by
  rw [members, h]
  rfl

theorem closure_of_get? {c : Closure} (h : s.closures.get? i = some c) : s.closure ⟨i⟩ = c := by
  rw [closure, h]
  rfl

theorem sameAt_refl (s : Store) (n : Node) : s.SameAt s n := by
  cases n <;> exact rfl

theorem SameAt.symm {t : Store} (h : s.SameAt t n) : t.SameAt s n := by
  cases n <;> exact Eq.symm h

theorem SameAt.trans {t u : Store} (h : s.SameAt t n) (h' : t.SameAt u n) : s.SameAt u n := by
  cases n <;> exact Eq.trans h h'

end Store

namespace Machine

/-- What can be reached from given layers and values, from the layer of globals and from the
memos. -/
inductive Reaches (m : Machine) (layers : List LayerRef) (values : List Value) : Node → Prop
  | layer {l : LayerRef} : l ∈ layers → Reaches m layers values (.layer l)
  | value {v : Value} {n : Node} : v ∈ values → v.node? = some n → Reaches m layers values n
  | globals : Reaches m layers values (.layer LayerRef.globals)
  | function {e : String × FunctionRef} :
      e ∈ m.functions.entries → Reaches m layers values (.function e.2)
  | object {e : String × Value} {n : Node} :
      e ∈ m.objects.entries → e.2.node? = some n → Reaches m layers values n
  | step {a b : Node} : Reaches m layers values a → m.store.Refers a b → Reaches m layers values b

variable {m : Machine} {layers : List LayerRef} {values : List Value}

/-- A set of cells that has the starting points and is closed under reference has everything that
can be reached. -/
theorem Reaches.inside {G : Node → Prop} (hlayers : ∀ l ∈ layers, G (.layer l))
    (hvalues : ∀ v ∈ values, ∀ n, v.node? = some n → G n) (hglobals : G (.layer LayerRef.globals))
    (hfunctions : ∀ e ∈ m.functions.entries, G (.function e.2))
    (hobjects : ∀ e ∈ m.objects.entries, ∀ n, e.2.node? = some n → G n)
    (hclosed : ∀ a b, G a → m.store.Refers a b → G b) (h : m.Reaches layers values n) : G n := by
  induction h with
  | layer hl => exact hlayers _ hl
  | value hv hn => exact hvalues _ hv _ hn
  | globals => exact hglobals
  | function he => exact hfunctions _ he
  | object he hn => exact hobjects _ he _ hn
  | step _ href ih => exact hclosed _ _ ih href

/-- A value never is a layer, so a layer is reached from the start or through a function that closed
over it. -/
theorem Reaches.layer_cases {l : LayerRef} (h : m.Reaches layers values (.layer l)) :
    l ∈ layers ∨ l = LayerRef.globals ∨
      ∃ f, m.Reaches layers values (.function f) ∧ l ∈ (m.store.closure f).captured.layers := by
  have hvalue : ∀ v : Value, v.node? ≠ some (.layer l) := by
    intro v
    cases v <;> simp [Value.node?]
  cases h with
  | layer hl => exact .inl hl
  | value _ hn => exact absurd hn (hvalue _)
  | globals => exact .inr (.inl rfl)
  | object _ hn => exact absurd hn (hvalue _)
  | step ha href =>
    cases href with
    | binding _ hn => exact absurd hn (hvalue _)
    | element _ hn => exact absurd hn (hvalue _)
    | member _ hn => exact absurd hn (hvalue _)
    | captured hl => exact .inr (.inr ⟨_, ha, hl⟩)

end Machine
end PlayerScript
