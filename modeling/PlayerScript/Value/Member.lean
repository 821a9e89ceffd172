/-
Reading a member of a value: the length and the places of strings and arrays, and the members of
objects.
-/
import PlayerScript.Error
import PlayerScript.Value.Convert

namespace PlayerScript.Value

/-- The place of a list that a key denotes, if any. -/
def place? {α : Type} (key : Value) (get? : Nat → Option α) : Option α := key.index?.bind get?

/-- The member of a value under a key. An object without a member `length` has its number of
members as one. -/
def member (store : Store) (target key : Value) : Except Error Value :=
  let name := key.text store
  match target with
  | .undefined | .null => .error (.type (.noProperties (target.text store) name))
  | .string s =>
    if name = "length" then .ok (.ofNat s.toList.length)
    else
      .ok (((place? key fun i => s.toList[i]?).map fun c => .string (String.singleton c)).getD
        .undefined)
  | .array a =>
    let items := store.elements a
    if name = "length" then .ok (.ofNat items.size)
    else .ok ((place? key fun i => items[i]?).getD .undefined)
  | .object o =>
    let members := store.members o
    match members.get? name with
    | some v => .ok v
    | none => .ok (if name = "length" then .ofNat members.size else .undefined)
  | .bool _ | .number _ | .function _ => .ok .undefined

end PlayerScript.Value
