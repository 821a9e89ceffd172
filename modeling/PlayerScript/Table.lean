/-
Tables: finite maps keyed by names. Members of objects, bindings of layers and memoized results
are all kept in such tables.
-/
namespace PlayerScript

/-- A finite map from names, as entries with different names in the order of their first
insertion. -/
structure Table (α : Type) where
  entries : List (String × α)
  deriving Repr, DecidableEq

namespace Table

variable {α : Type}

/-- The table without entries. -/
def empty : Table α := ⟨[]⟩

instance : Inhabited (Table α) := ⟨empty⟩

/-- The value stored under a name. -/
def get? (t : Table α) (name : String) : Option α := t.entries.lookup name

/-- Whether a name has an entry. -/
def contains (t : Table α) (name : String) : Bool := (t.get? name).isSome

/-- The number of entries. -/
def size (t : Table α) : Nat := t.entries.length

/-- Replaces the first entry under a name, or adds one at the end. -/
def insertEntry (name : String) (value : α) : List (String × α) → List (String × α)
  | [] => [(name, value)]
  | (n, v) :: rest =>
    if n = name then (n, value) :: rest else (n, v) :: insertEntry name value rest

/-- Stores a value under a name, in place of the one stored before. -/
def insert (t : Table α) (name : String) (value : α) : Table α :=
  ⟨insertEntry name value t.entries⟩

/-- Stores a value under a name unless the name has an entry. -/
def insertNew (t : Table α) (name : String) (value : α) : Table α :=
  if t.contains name then t else t.insert name value

/-- Stores the listed values one after another, so that the last one under a name stays. -/
def insertAll (t : Table α) (entries : List (String × α)) : Table α :=
  entries.foldl (fun acc e => acc.insert e.1 e.2) t

/-- The table with the listed values. -/
def ofList (entries : List (String × α)) : Table α := empty.insertAll entries

/-- The entries in the order of their names. -/
def sorted (t : Table α) : List (String × α) :=
  t.entries.mergeSort fun a b => decide (a.1 ≤ b.1)

end Table
end PlayerScript
