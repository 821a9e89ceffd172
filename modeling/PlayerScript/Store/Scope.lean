/-
Scopes: a name is read from the innermost layer that binds it. A write goes to that layer too, and
to the outermost one when no layer binds the name.
-/
import PlayerScript.Store.Basic

namespace PlayerScript.Scope

/-- The layers of a scope, the innermost first. -/
def layers (s : Scope) : List LayerRef := s.innermost :: s.outer

/-- The outermost layer. -/
def outermost (s : Scope) : LayerRef := s.outer.getLastD s.innermost

/-- The scope over given layers; there is none without a layer. -/
def ofLayers? : List LayerRef → Option Scope
  | [] => none
  | l :: rest => some ⟨l, rest⟩

/-- The scope over given layers. Without any, it gets a fresh empty one. -/
def ofLayers (store : Store) (ls : List LayerRef) : Scope × Store :=
  match ofLayers? ls with
  | some s => (s, store)
  | none =>
    let (l, store) := store.addLayer Table.empty
    (⟨l, []⟩, store)

/-- A scope with a fresh innermost layer. -/
def child (store : Store) (s : Scope) (bindings : Table Value) : Scope × Store :=
  let (l, store) := store.addLayer bindings
  (⟨l, s.layers⟩, store)

/-- The innermost layer that binds a name. -/
def definer? (store : Store) (s : Scope) (name : String) : Option LayerRef :=
  s.layers.find? fun l => (store.layer l).contains name

/-- The value that a name reads. -/
def get? (store : Store) (s : Scope) (name : String) : Option Value :=
  s.layers.findSome? fun l => (store.layer l).get? name

/-- The value that a name reads, where an unbound name reads as undefined. -/
def get (store : Store) (s : Scope) (name : String) : Value :=
  (s.get? store name).getD .undefined

/-- Whether some layer binds a name. -/
def contains (store : Store) (s : Scope) (name : String) : Bool :=
  s.layers.any fun l => (store.layer l).contains name

/-- Writes a name: in the innermost layer that binds it, or else in the outermost layer. -/
def set (store : Store) (s : Scope) (name : String) (value : Value) : Store :=
  store.bind ((s.definer? store name).getD s.outermost) name value

/-- Binds a name in the innermost layer. -/
def setLocal (store : Store) (s : Scope) (name : String) (value : Value) : Store :=
  store.bind s.innermost name value

/-- The value that the innermost layer binds to a name. -/
def getLocal? (store : Store) (s : Scope) (name : String) : Option Value :=
  (store.layer s.innermost).get? name

end PlayerScript.Scope
