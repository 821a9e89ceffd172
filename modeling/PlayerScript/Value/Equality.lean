/-
Structural equality: arrays and objects are equal when their contents are.
-/
import PlayerScript.Store.Basic

namespace PlayerScript.Value

/-- Whether two lists have equal elements in the same places. -/
def equalItems (equal : Value → Value → Bool) : List Value → List Value → Bool
  | [], [] => true
  | a :: as, b :: bs => equal a b && equalItems equal as bs
  | _, _ => false

/-- Whether two tables have equal values under the same names. -/
def equalMembers (equal : Value → Value → Bool) (a b : Table Value) : Bool :=
  a.size == b.size && a.entries.all fun e =>
    match b.get? e.1 with
    | some v => equal e.2 v
    | none => false

/-- Structural equality of values nested at most `depth` deep. -/
def equalWithin (store : Store) : Nat → Value → Value → Bool
  | depth + 1, .array a, .array b =>
    a == b || equalItems (equalWithin store depth) (store.elements a).toList
      (store.elements b).toList
  | depth + 1, .object a, .object b =>
    a == b || equalMembers (equalWithin store depth) (store.members a) (store.members b)
  | _, a, b => strictEquals a b

/-- Structural equality. Without cycles, no nesting is deeper than the number of arrays and
objects. -/
def equals (store : Store) (a b : Value) : Bool :=
  equalWithin store (store.arrays.size + store.objects.size) a b

end PlayerScript.Value
