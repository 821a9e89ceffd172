/-
The state of an interpreter, and computations on it. A computation ends with a result or with an
error, and in both cases with a state; only a loop that is cut off ends with neither.
-/
import PlayerScript.Error
import PlayerScript.Memo
import PlayerScript.Options
import PlayerScript.Store.Scope

namespace PlayerScript

/-- What an interpreter is made for: a source text and limits. -/
structure Program where
  source : List Char
  options : Options

/-- The state of an interpreter: the store, the functions and objects already taken from the
source, and the number of names minted. -/
structure Machine where
  store : Store
  functions : Table FunctionRef
  objects : Table Value
  minted : Nat

namespace Machine

/-- The state of a new interpreter over a store, with some objects known in advance. -/
def initial (store : Store) (objects : Table Value) : Machine := ⟨store, Table.empty, objects, 0⟩

/-- The memo of functions. -/
def functionMemo : MemoView Machine FunctionRef where
  get m := m.functions
  update f m := { m with functions := f m.functions }

/-- The memo of objects. -/
def objectMemo : MemoView Machine Value where
  get m := m.objects
  update f m := { m with objects := f m.objects }

end Machine

/-- How a computation ends. -/
inductive Outcome (α : Type) where
  | done (result : α) (machine : Machine)
  | failed (error : Error) (machine : Machine)
  /-- A loop was cut off. -/
  | unfinished

/-- A computation on the state of an interpreter. -/
def Eval (α : Type) : Type := Machine → Outcome α

namespace Eval

variable {α β : Type}

/-- A result that changes nothing. -/
@[inline] def done (a : α) : Eval α := fun m => .done a m

/-- An error that changes nothing. -/
@[inline] def fail (e : Error) : Eval α := fun m => .failed e m

/-- One computation after another, unless the first one gives no result. -/
@[inline] def andThen (x : Eval α) (f : α → Eval β) : Eval β := fun m =>
  match x m with
  | .done a m' => f a m'
  | .failed e m' => .failed e m'
  | .unfinished => .unfinished

instance : Monad Eval where
  pure := done
  bind := andThen

/-- Looks at the store. -/
@[inline] def read (f : Store → α) : Eval α := fun m => .done (f m.store) m

/-- Changes the store. -/
@[inline] def change (f : Store → Store) : Eval Unit := fun ⟨store, functions, objects, minted⟩ =>
  .done () ⟨f store, functions, objects, minted⟩

/-- Adds to the store, and gives what was added. -/
@[inline] def add (f : Store → α × Store) : Eval α := fun ⟨store, functions, objects, minted⟩ =>
  let (a, store) := f store
  .done a ⟨store, functions, objects, minted⟩

/-- A result or an error, without a change. -/
@[inline] def ofExcept (x : Except Error α) : Eval α := fun m =>
  match x with
  | .ok a => .done a m
  | .error e => .failed e m

/-- A result with a new store, or an error without a change. -/
@[inline] def attempt (f : Store → Except Error (α × Store)) : Eval α := fun m =>
  match f m.store with
  | .ok (a, store) => .done a { m with store := store }
  | .error e => .failed e m

/-- A step that always ends with a state. -/
@[inline] def ofStep (f : Machine → Except Error α × Machine) : Eval α := fun m =>
  match f m with
  | (.ok a, m') => .done a m'
  | (.error e, m') => .failed e m'

end Eval
end PlayerScript
