/-
The store: layers of bindings, arrays, objects and functions. All of them are only ever added;
layers, arrays and objects can be changed in place.
-/
import PlayerScript.Ast.Basic
import PlayerScript.Store.Arena
import PlayerScript.Table
import PlayerScript.Value.Basic

namespace PlayerScript

/-- A chain of layers, the innermost first. A scope has at least one layer. -/
structure Scope where
  innermost : LayerRef
  outer : List LayerRef
  deriving DecidableEq, Repr

/-- A function as written, together with the layers it closed over. -/
structure Closure where
  definition : FunctionDef
  captured : Scope

/-- Everything that values and scopes refer to. -/
structure Store where
  layers : Arena (Table Value)
  arrays : Arena (Array Value)
  objects : Arena (Table Value)
  closures : Arena Closure

/-- The layer that every extracted function closes over. -/
def LayerRef.globals : LayerRef := ⟨0⟩

instance : Inhabited Closure := ⟨⟨"", [], []⟩, ⟨LayerRef.globals, []⟩⟩

namespace Store

/-- The store with the empty layer of globals and nothing else. -/
def initial : Store := ⟨Arena.empty.push Table.empty, Arena.empty, Arena.empty, Arena.empty⟩

/-! ## Contents -/

/-- The bindings of a layer. -/
def layer (s : Store) (l : LayerRef) : Table Value := (s.layers.get? l.index).getD Table.empty

/-- The elements of an array. -/
def elements (s : Store) (a : ArrayRef) : Array Value := (s.arrays.get? a.index).getD #[]

/-- The members of an object. -/
def members (s : Store) (o : ObjectRef) : Table Value := (s.objects.get? o.index).getD Table.empty

/-- What a function refers to. -/
def closure (s : Store) (f : FunctionRef) : Closure := (s.closures.get? f.index).getD default

/-! ## Additions -/

/-- Adds a layer. -/
def addLayer (s : Store) (bindings : Table Value) : LayerRef × Store :=
  (⟨s.layers.size⟩, { s with layers := s.layers.push bindings })

/-- Adds an array. -/
def addArray (s : Store) (items : Array Value) : Value × Store :=
  (.array ⟨s.arrays.size⟩, { s with arrays := s.arrays.push items })

/-- Adds an object. -/
def addObject (s : Store) (members : Table Value) : Value × Store :=
  (.object ⟨s.objects.size⟩, { s with objects := s.objects.push members })

/-- Adds a function. -/
def addClosure (s : Store) (c : Closure) : FunctionRef × Store :=
  (⟨s.closures.size⟩, { s with closures := s.closures.push c })

/-! ## Changes -/

/-- Binds a name in a layer. -/
def bind (s : Store) (l : LayerRef) (name : String) (value : Value) : Store :=
  { s with layers := s.layers.modify l.index fun t => t.insert name value }

/-- Changes the elements of an array. -/
def modifyArray (s : Store) (a : ArrayRef) (f : Array Value → Array Value) : Store :=
  { s with arrays := s.arrays.modify a.index f }

/-- Stores a member of an object. -/
def setMember (s : Store) (o : ObjectRef) (key : String) (value : Value) : Store :=
  { s with objects := s.objects.modify o.index fun t => t.insert key value }

end Store
end PlayerScript
