/-
Disciplines: what links two states of an interpreter while the same code runs on both, and which
values, layers and statements that code may meet. A discipline says of every basic step on a state
that it keeps the link; the evaluator then keeps it over whole runs. The first of two runs may be
allowed to be cut off by the recursion limit, after which nothing is asked of the second one. The two
runs may take what they call out of different sources.
-/
import PlayerScript.Eval
import PlayerScript.Proofs.Ast.Everywhere

namespace PlayerScript

/-- Whether a value refers to nothing in the store. -/
def Value.isPlain : Value → Bool
  | .array _ | .object _ | .function _ => false
  | _ => true

/-- The state with another store. -/
def Machine.withStore (m : Machine) (store : Store) : Machine := { m with store := store }

/-- The relations that a discipline speaks of. -/
structure Relations where
  /-- Whether the first run may be cut off by the recursion limit. -/
  cut : Prop
  /-- Whether a run may be given up in a loop. -/
  loops : Prop
  /-- The two runs may fail with these errors. -/
  Fails : Error → Error → Prop
  /-- The code that may be run. -/
  allowed : Ast.Condition
  /-- The two states belong together. -/
  Linked : Machine → Machine → Prop
  /-- The first run can lead from one state to another. -/
  Later : Machine → Machine → Prop
  /-- A value that code may hold. -/
  Val : Machine → Value → Prop
  /-- A value whose members code may read. -/
  Target : Machine → Value → Prop
  /-- A layer that a scope may have. -/
  Layer : Machine → LayerRef → Prop

namespace Relations

variable (d : Relations) {α : Type}

/-- A run that may be cut off meets no clean-up. -/
def Uncleaned : Prop :=
  ∀ body handler clean, d.cut → ¬ d.allowed.stmt (.tryBlock body handler (some clean))

/-- Every layer of a scope may be used. -/
def InScope (m : Machine) (scope : Scope) : Prop := ∀ l ∈ scope.layers, d.Layer m l

/-- Every value of a table may be held. -/
def Holds (m : Machine) (t : Table Value) : Prop := ∀ e ∈ t.entries, d.Val m e.2

/-- Two new stores keep the link. -/
structure Keeps (m₁ m₂ : Machine) (s₁ s₂ : Store) : Prop where
  linked : d.Linked (m₁.withStore s₁) (m₂.withStore s₂)
  later : d.Later m₁ (m₁.withStore s₁)

/-- Two outcomes belong together: the same result in linked states, errors that belong together in
linked states, both given up, or the first one cut off. The first state has to be later than `m`, and
a result has to satisfy `Q`. -/
inductive Matches (m : Machine) (Q : Machine → α → Prop) : Outcome α → Outcome α → Prop
  | done {a : α} {m₁ m₂ : Machine} (linked : d.Linked m₁ m₂) (later : d.Later m m₁)
      (result : Q m₁ a) : Matches m Q (.done a m₁) (.done a m₂)
  | failed {e₁ e₂ : Error} {m₁ m₂ : Machine} (errors : d.Fails e₁ e₂) (linked : d.Linked m₁ m₂)
      (later : d.Later m m₁) : Matches m Q (.failed e₁ m₁) (.failed e₂ m₂)
  | unfinished (h : d.loops) : Matches m Q .unfinished .unfinished
  | cut {m₁ : Machine} {o : Outcome α} (h : d.cut) : Matches m Q (.failed .recursionLimit m₁) o

/-- Two attempts on linked states match: the same error, or the same result with stores that keep
the link. -/
inductive Attempts (m₁ m₂ : Machine) (Q : Machine → α → Prop) :
    Except Error (α × Store) → Except Error (α × Store) → Prop
  | ok {a : α} {s₁ s₂ : Store} (keeps : d.Keeps m₁ m₂ s₁ s₂) (result : Q (m₁.withStore s₁) a) :
      Attempts m₁ m₂ Q (.ok (a, s₁)) (.ok (a, s₂))
  | error (e : Error) : Attempts m₁ m₂ Q (.error e) (.error e)

/-- Two steps on linked states match: errors that belong together, or the same result, in linked
states. -/
inductive Steps (m : Machine) (Q : Machine → α → Prop) :
    Except Error α × Machine → Except Error α × Machine → Prop
  | ok {a : α} {m₁ m₂ : Machine} (linked : d.Linked m₁ m₂) (later : d.Later m m₁)
      (result : Q m₁ a) : Steps m Q (.ok a, m₁) (.ok a, m₂)
  | error {e₁ e₂ : Error} {m₁ m₂ : Machine} (errors : d.Fails e₁ e₂) (linked : d.Linked m₁ m₂)
      (later : d.Later m m₁) : Steps m Q (.error e₁, m₁) (.error e₂, m₂)

end Relations

/-- Relations that every basic step on a state respects. -/
structure Discipline (p q : Program) extends Relations where
  fails_refl : ∀ e, Fails e e
  later_refl : ∀ m, Later m m
  later_trans : ∀ {a b c}, Later a b → Later b c → Later a c
  val_later : ∀ {m m' v}, Later m m' → Val m v → Val m' v
  target_later : ∀ {m m' v}, Later m m' → Target m v → Target m' v
  layer_later : ∀ {m m' l}, Later m m' → Layer m l → Layer m' l
  val_plain : ∀ {m v}, v.isPlain = true → Val m v
  target_of_val : ∀ {m v}, Val m v → Target m v
  val_of_target : ∀ {m v}, Target m v → (∀ o, v ≠ .object o) → Val m v
  loop : ∀ {init cond update body}, allowed.stmt (.forLoop init cond update body) → loops
  -- What is read is the same on both sides, and may be held.
  arrays_size : ∀ {m₁ m₂}, Linked m₁ m₂ → m₁.store.arrays.size = m₂.store.arrays.size
  layer : ∀ {m₁ m₂ l}, Linked m₁ m₂ → Layer m₁ l →
    m₁.store.layer l = m₂.store.layer l ∧ toRelations.Holds m₁ (m₁.store.layer l)
  elements : ∀ {m₁ m₂ a}, Linked m₁ m₂ → Val m₁ (.array a) →
    m₁.store.elements a = m₂.store.elements a ∧ ∀ v ∈ m₁.store.elements a, Val m₁ v
  members : ∀ {m₁ m₂ o}, Linked m₁ m₂ → Target m₁ (.object o) →
    m₁.store.members o = m₂.store.members o ∧ toRelations.Holds m₁ (m₁.store.members o)
  closure : ∀ {m₁ m₂ f}, Linked m₁ m₂ → Val m₁ (.function f) →
    m₁.store.closure f = m₂.store.closure f ∧
      toRelations.InScope m₁ (m₁.store.closure f).captured ∧
      Ast.bodyAll allowed (m₁.store.closure f).definition.body
  -- What is written keeps the link.
  bind : ∀ {m₁ m₂ l v}, Linked m₁ m₂ → Layer m₁ l → Val m₁ v → ∀ name,
    toRelations.Keeps m₁ m₂ (m₁.store.bind l name v) (m₂.store.bind l name v)
  modifyArray : ∀ {m₁ m₂ a}, Linked m₁ m₂ → Val m₁ (.array a) → ∀ f : Array Value → Array Value,
    (∀ v ∈ f (m₁.store.elements a), Val m₁ v) →
    toRelations.Keeps m₁ m₂ (m₁.store.modifyArray a f) (m₂.store.modifyArray a f)
  setMember : ∀ {m₁ m₂ o v}, Linked m₁ m₂ → Val m₁ (.object o) → Val m₁ v → ∀ key,
    toRelations.Keeps m₁ m₂ (m₁.store.setMember o key v) (m₂.store.setMember o key v)
  -- What is added is the same on both sides.
  addLayer : ∀ {m₁ m₂ t}, Linked m₁ m₂ → toRelations.Holds m₁ t →
    (m₁.store.addLayer t).1 = (m₂.store.addLayer t).1 ∧
      toRelations.Keeps m₁ m₂ (m₁.store.addLayer t).2 (m₂.store.addLayer t).2 ∧
      Layer (m₁.withStore (m₁.store.addLayer t).2) (m₁.store.addLayer t).1
  addArray : ∀ {m₁ m₂ items}, Linked m₁ m₂ → (∀ v ∈ items, Val m₁ v) →
    (m₁.store.addArray items).1 = (m₂.store.addArray items).1 ∧
      toRelations.Keeps m₁ m₂ (m₁.store.addArray items).2 (m₂.store.addArray items).2 ∧
      Val (m₁.withStore (m₁.store.addArray items).2) (m₁.store.addArray items).1
  addObject : ∀ {m₁ m₂ t}, Linked m₁ m₂ → toRelations.Holds m₁ t →
    (m₁.store.addObject t).1 = (m₂.store.addObject t).1 ∧
      toRelations.Keeps m₁ m₂ (m₁.store.addObject t).2 (m₂.store.addObject t).2 ∧
      Val (m₁.withStore (m₁.store.addObject t).2) (m₁.store.addObject t).1
  addClosure : ∀ {m₁ m₂ c}, Linked m₁ m₂ → toRelations.InScope m₁ c.captured →
    Ast.bodyAll allowed c.definition.body →
    (m₁.store.addClosure c).1 = (m₂.store.addClosure c).1 ∧
      toRelations.Keeps m₁ m₂ (m₁.store.addClosure c).2 (m₂.store.addClosure c).2 ∧
      Val (m₁.withStore (m₁.store.addClosure c).2) (.function (m₁.store.addClosure c).1)
  -- What is taken out of the source.
  extractFunction : ∀ {m₁ m₂}, Linked m₁ m₂ → ∀ name, allowed.name name →
    toRelations.Steps m₁ (fun m f => Val m (.function f))
      (p.extractFunction name m₁) (q.extractFunction name m₂)
  resolveObject : ∀ {m₁ m₂}, Linked m₁ m₂ → ∀ name, allowed.name name →
    toRelations.Steps m₁ Target (p.resolveObject name m₁) (q.resolveObject name m₂)

namespace Discipline

open Relations

variable {p q : Program} (d : Discipline p q) {α β : Type} {m m₁ m₂ : Machine}

/-! ## Computations -/

variable {Q : Machine → α → Prop} {R : Machine → β → Prop}

theorem matches_later {m' : Machine} (h : d.Later m m') {o₁ o₂ : Outcome α}
    (ho : d.Matches m' Q o₁ o₂) : d.Matches m Q o₁ o₂ := by
  cases ho with
  | done linked later result => exact .done linked (d.later_trans h later) result
  | failed errors linked later => exact .failed errors linked (d.later_trans h later)
  | unfinished hloops => exact .unfinished hloops
  | cut hcut => exact .cut hcut

/-- One computation after another: the second one starts in any pair of states that the first one
can end in. -/
theorem matches_bind {x y : Eval α} {f g : α → Eval β} (hx : d.Matches m Q (x m₁) (y m₂))
    (hf : ∀ a m₁' m₂', d.Linked m₁' m₂' → d.Later m m₁' → Q m₁' a →
      d.Matches m₁' R (f a m₁') (g a m₂')) :
    d.Matches m R ((x >>= f) m₁) ((y >>= g) m₂) := by
  show d.Matches m R (Eval.andThen x f m₁) (Eval.andThen y g m₂)
  unfold Eval.andThen
  generalize x m₁ = o₁ at hx
  generalize y m₂ = o₂ at hx
  cases hx with
  | done linked later result => exact d.matches_later later (hf _ _ _ linked later result)
  | failed errors linked later => exact .failed errors linked later
  | unfinished hloops => exact .unfinished hloops
  | cut hcut => exact .cut hcut

theorem matches_ite {c : Prop} [Decidable c] {x x' y y' : Eval α}
    (ht : c → d.Matches m Q (x m₁) (y m₂)) (he : ¬ c → d.Matches m Q (x' m₁) (y' m₂)) :
    d.Matches m Q ((if c then x else x') m₁) ((if c then y else y') m₂) := by
  by_cases h : c
  · rw [if_pos h, if_pos h]
    exact ht h
  · rw [if_neg h, if_neg h]
    exact he h

variable (hl : d.Linked m₁ m₂)
include hl

theorem matches_done {a : α} (ha : Q m₁ a) :
    d.Matches m₁ Q (Eval.done a m₁) (Eval.done a m₂) :=
  .done hl (d.later_refl m₁) ha

theorem matches_fail (e : Error) :
    d.Matches m₁ Q (Eval.fail e m₁) (Eval.fail e m₂) :=
  .failed (d.fails_refl e) hl (d.later_refl m₁)

theorem matches_read {f : Store → α} (hf : f m₁.store = f m₂.store) (ha : Q m₁ (f m₁.store)) :
    d.Matches m₁ Q (Eval.read f m₁) (Eval.read f m₂) := by
  unfold Eval.read
  rw [← hf]
  exact .done hl (d.later_refl m₁) ha

omit hl in
/-- Reading changes nothing: what follows starts in the same states. -/
theorem matches_read_bind {f : Store → α} {g g' : α → Eval β} (hf : f m₁.store = f m₂.store)
    (h : d.Matches m₁ R (g (f m₁.store) m₁) (g' (f m₁.store) m₂)) :
    d.Matches m₁ R ((Eval.read f >>= g) m₁) ((Eval.read f >>= g') m₂) := by
  show d.Matches m₁ R (g (f m₁.store) m₁) (g' (f m₂.store) m₂)
  rw [← hf]
  exact h

omit hl in
theorem matches_change {f : Store → Store} (hk : d.Keeps m₁ m₂ (f m₁.store) (f m₂.store)) :
    d.Matches m₁ (fun _ _ => True) (Eval.change f m₁) (Eval.change f m₂) :=
  .done hk.linked hk.later trivial

omit hl in
theorem matches_add {f : Store → α × Store} (hf : (f m₁.store).1 = (f m₂.store).1)
    (hk : d.Keeps m₁ m₂ (f m₁.store).2 (f m₂.store).2)
    (ha : Q (m₁.withStore (f m₁.store).2) (f m₁.store).1) :
    d.Matches m₁ Q (Eval.add f m₁) (Eval.add f m₂) := by
  unfold Eval.add
  dsimp only
  rw [← hf]
  exact .done hk.linked hk.later ha

theorem matches_ofExcept {x : Except Error α} (hx : ∀ a, x = .ok a → Q m₁ a) :
    d.Matches m₁ Q (Eval.ofExcept x m₁) (Eval.ofExcept x m₂) := by
  unfold Eval.ofExcept
  cases x with
  | ok a => exact .done hl (d.later_refl m₁) (hx a rfl)
  | error e => exact .failed (d.fails_refl e) hl (d.later_refl m₁)

/-- A result that is looked at changes nothing either. -/
theorem matches_ofExcept_bind {x : Except Error α} {g g' : α → Eval β}
    (h : ∀ a, x = .ok a → d.Matches m₁ R (g a m₁) (g' a m₂)) :
    d.Matches m₁ R ((Eval.ofExcept x >>= g) m₁) ((Eval.ofExcept x >>= g') m₂) := by
  cases x with
  | ok a => exact h a rfl
  | error e => exact .failed (d.fails_refl e) hl (d.later_refl m₁)

theorem matches_attempt {f : Store → Except Error (α × Store)}
    (hf : d.Attempts m₁ m₂ Q (f m₁.store) (f m₂.store)) :
    d.Matches m₁ Q (Eval.attempt f m₁) (Eval.attempt f m₂) := by
  unfold Eval.attempt
  generalize f m₁.store = x₁ at hf
  generalize f m₂.store = x₂ at hf
  cases hf with
  | ok keeps result => exact .done keeps.linked keeps.later result
  | error e => exact .failed (d.fails_refl e) hl (d.later_refl m₁)

omit hl in
theorem matches_ofStep {f g : Machine → Except Error α × Machine}
    (hf : d.Steps m₁ Q (f m₁) (g m₂)) :
    d.Matches m₁ Q (Eval.ofStep f m₁) (Eval.ofStep g m₂) := by
  unfold Eval.ofStep
  generalize f m₁ = x₁ at hf
  generalize g m₂ = x₂ at hf
  cases hf with
  | ok linked later result => exact .done linked later result
  | error errors linked later => exact .failed errors linked later

end Discipline

/-! ## Runs from one state -/

/-- A condition holds everywhere in the functions of a store. -/
def Store.CodeAll (s : Store) (P : Ast.Condition) : Prop :=
  ∀ f, Ast.bodyAll P (s.closure f).definition.body

theorem Store.codeAll_always (s : Store) : s.CodeAll .always := fun _ => Ast.bodyAll_true _

theorem Store.codeAll_addClosure {s : Store} {P : Ast.Condition} (h : s.CodeAll P) {c : Closure}
    (hc : Ast.bodyAll P c.definition.body) : (s.addClosure c).2.CodeAll P := by
  intro f
  unfold Store.closure Store.addClosure Arena.get? Arena.push
  dsimp only
  rw [Array.getElem?_push]
  split
  · exact hc
  · exact h f

/-- The relations between two runs that are in the same state at every time. -/
def Relations.ofSame (cut : Prop) (Fails : Error → Error → Prop) (allowed : Ast.Condition)
    (Later : Machine → Machine → Prop) : Relations where
  cut := cut
  loops := True
  Fails := Fails
  allowed := allowed
  Linked := fun m₁ m₂ => m₁ = m₂ ∧ m₁.store.CodeAll allowed
  Later := Later
  Val := fun _ _ => True
  Target := fun _ _ => True
  Layer := fun _ _ => True

theorem Relations.steps_ofSame {cut : Prop} {Fails : Error → Error → Prop} {Later : Machine → Machine → Prop}
    (hrefl : ∀ e, Fails e e) {α : Type} {m : Machine} {Q : Machine → α → Prop} (hQ : ∀ m a, Q m a)
    {x : Except Error α × Machine} (h : Later m x.2) :
    (Relations.ofSame cut Fails .always Later).Steps m Q x x := by
  obtain ⟨result, m'⟩ := x
  cases result with
  | ok a => exact .ok ⟨rfl, m'.store.codeAll_always⟩ h (hQ m' a)
  | error e => exact .error (hrefl e) ⟨rfl, m'.store.codeAll_always⟩ h

/-- Two runs stay in the same state if what they take out of their sources leaves them in one. A
change of the store has to lead to a later state. -/
def Discipline.ofSame {p q : Program} (cut : Prop) (Later : Machine → Machine → Prop)
    {Fails : Error → Error → Prop} {allowed : Ast.Condition} (hrefl : ∀ e, Fails e e)
    (htrans : ∀ {a b c}, Later a b → Later b c → Later a c) (hstore : ∀ m s, Later m (m.withStore s))
    (hfunction : ∀ m name, m.store.CodeAll allowed → allowed.name name →
      (Relations.ofSame cut Fails allowed Later).Steps m (fun _ _ => True)
        (p.extractFunction name m) (q.extractFunction name m))
    (hobject : ∀ m name, m.store.CodeAll allowed → allowed.name name →
      (Relations.ofSame cut Fails allowed Later).Steps m (fun _ _ => True)
        (p.resolveObject name m) (q.resolveObject name m)) : Discipline p q :=
  have hkeeps : ∀ {m : Machine} {s : Store}, s.CodeAll allowed →
      (Relations.ofSame cut Fails allowed Later).Keeps m m s s := fun h => ⟨⟨rfl, h⟩, hstore _ _⟩
  { Relations.ofSame cut Fails allowed Later with
    fails_refl := hrefl
    later_refl := fun m => hstore m m.store
    later_trans := htrans
    val_later := fun _ _ => trivial
    target_later := fun _ _ => trivial
    layer_later := fun _ _ => trivial
    val_plain := fun _ => trivial
    target_of_val := fun _ => trivial
    val_of_target := fun _ _ => trivial
    loop := fun _ => trivial
    arrays_size := by rintro m _ ⟨rfl, -⟩; rfl
    layer := by rintro m _ l ⟨rfl, -⟩ -; exact ⟨rfl, fun _ _ => trivial⟩
    elements := by rintro m _ a ⟨rfl, -⟩ -; exact ⟨rfl, fun _ _ => trivial⟩
    members := by rintro m _ o ⟨rfl, -⟩ -; exact ⟨rfl, fun _ _ => trivial⟩
    closure := by rintro m _ f ⟨rfl, h⟩ -; exact ⟨rfl, fun _ _ => trivial, h f⟩
    bind := by rintro m _ l v ⟨rfl, h⟩ - - name; exact hkeeps h
    modifyArray := by rintro m _ a ⟨rfl, h⟩ - f -; exact hkeeps h
    setMember := by rintro m _ o v ⟨rfl, h⟩ - - key; exact hkeeps h
    addLayer := by rintro m _ t ⟨rfl, h⟩ -; exact ⟨rfl, hkeeps h, trivial⟩
    addArray := by rintro m _ items ⟨rfl, h⟩ -; exact ⟨rfl, hkeeps h, trivial⟩
    addObject := by rintro m _ t ⟨rfl, h⟩ -; exact ⟨rfl, hkeeps h, trivial⟩
    addClosure := by rintro m _ c ⟨rfl, h⟩ - hc; exact ⟨rfl, hkeeps (Store.codeAll_addClosure h hc), trivial⟩
    extractFunction := by rintro m _ ⟨rfl, h⟩ name hn; exact hfunction m name h hn
    resolveObject := by rintro m _ ⟨rfl, h⟩ name hn; exact hobject m name h hn }

end PlayerScript
