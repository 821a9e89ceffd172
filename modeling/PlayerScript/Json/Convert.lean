/-
Values as JSON documents and back. What JSON cannot express becomes null or its text.
-/
import PlayerScript.Json.Printer
import PlayerScript.Json.Reader
import PlayerScript.Value.Convert

namespace PlayerScript

namespace Value

/-- The bound of the integers that are all doubles. -/
def exactBound : Nat := 0x20000000000000

/-- The document for a number: an integer if it is one below the bound, its text if it is not
finite. -/
def numberToJson (x : Float) : Json :=
  if !x.isFinite then .string (Number.text x)
  else
    match Number.integer? x with
    | some n => if n.natAbs < exactBound then .integer n else .number x
    | none => .number x

/-- The document for a value nested at most `depth` deep. The members of an object are in the
order of their names. -/
def toJsonWithin (store : Store) : Nat → Value → Json
  | _, .undefined => .null
  | _, .null => .null
  | _, .bool b => .bool b
  | _, .number x => numberToJson x
  | _, .string s => .string s
  | 0, .array _ => .null
  | 0, .object _ => .null
  | depth + 1, .array a => .array ((store.elements a).toList.map (toJsonWithin store depth))
  | depth + 1, .object o =>
    .object ((store.members o).sorted.map fun e => (e.1, toJsonWithin store depth e.2))
  | _, .function f => .string (functionText (store.closure f).definition.name)

/-- The document for a value. Without cycles, no nesting is deeper than the number of arrays and
objects. -/
def toJson (store : Store) (v : Value) : Json :=
  v.toJsonWithin store (store.arrays.size + store.objects.size)

mutual

/-- The value of a document, added to a store. -/
def ofJson : Json → Store → Value × Store
  | .null, store => (.null, store)
  | .bool b, store => (.bool b, store)
  | .integer n, store => (.ofInt n, store)
  | .number x, store => (.number x, store)
  | .string s, store => (.string s, store)
  | .array items, store =>
    let (values, store) := ofItems items store
    store.addArray values.toArray
  | .object members, store =>
    let (table, store) := ofMembers members Table.empty store
    store.addObject table

/-- The values of documents. -/
def ofItems : List Json → Store → List Value × Store
  | [], store => ([], store)
  | j :: rest, store =>
    let (v, store) := ofJson j store
    let (vs, store) := ofItems rest store
    (v :: vs, store)

/-- The values of members; the last one under a name stays. -/
def ofMembers : List (String × Json) → Table Value → Store → Table Value × Store
  | [], table, store => (table, store)
  | (key, j) :: rest, table, store =>
    let (v, store) := ofJson j store
    ofMembers rest (table.insert key v) store

end

/-- Reads a text as a JSON document and takes its value. -/
def parse (text : String) (store : Store) : Except Error (Value × Store) :=
  match Json.parse? text.toList with
  | some j => .ok (ofJson j store)
  | none => .error .invalidJson

end Value
end PlayerScript
