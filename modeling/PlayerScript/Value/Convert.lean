/-
Conversions of values to text, numbers and indices. The text of an array is made of the texts of
its elements, so conversions look into the store.
-/
import PlayerScript.Number.Numeral
import PlayerScript.Number.Printer
import PlayerScript.Store.Basic

namespace PlayerScript.Value

/-- The text of a function. -/
def functionText (name : String) : String := "F<" ++ name ++ ">"

/-- The text of a value whose arrays are nested at most `depth` deep. -/
def textWithin (store : Store) : Nat → Value → String
  | _, .undefined => "undefined"
  | _, .null => "null"
  | _, .bool true => "true"
  | _, .bool false => "false"
  | _, .number x => Number.text x
  | _, .string s => s
  | 0, .array _ => ""
  | depth + 1, .array a =>
    String.intercalate "," ((store.elements a).toList.map fun v =>
      if v.isNullish then "" else textWithin store depth v)
  | _, .object _ => "[object Object]"
  | _, .function f => functionText (store.closure f).definition.name

/-- Whether the arrays of a value are nested at most `depth` deep. -/
def nestsWithin (store : Store) : Nat → Value → Bool
  | 0, .array _ => false
  | depth + 1, .array a => (store.elements a).toList.all fun v => nestsWithin store depth v
  | _, _ => true

/-- The text of a value. Without cycles, no nesting is deeper than the number of arrays; a value with
an array that holds itself has the empty text. -/
def text (store : Store) (v : Value) : String :=
  if v.nestsWithin store store.arrays.size then v.textWithin store store.arrays.size else ""

/-- The text that an element adds to its array: that of its value, and nothing for a nullish
one. -/
def elementText (store : Store) (v : Value) : String := if v.isNullish then "" else v.text store

/-- The number of a value. An array counts as its only element does, by its text. -/
def toNumber (store : Store) : Value → Float
  | .undefined => Number.nan
  | .null => 0.0
  | .bool b => if b then 1.0 else 0.0
  | .number x => x
  | .string s => Number.ofText s
  | .array a =>
    match (store.elements a).toList with
    | [] => 0.0
    | [v] => Number.ofText (v.text store)
    | _ => Number.nan
  | .object _ | .function _ => Number.nan

/-- The signed 32-bit integer of a value. -/
def toInt32 (store : Store) (v : Value) : Int := Number.int32 (v.toNumber store)

/-- The largest index. -/
def maxIndex : Nat := Text.wordBound - 1

/-- The index that a value denotes: a whole number that is not negative, or its decimal text.
Numbers beyond the largest index stand for it. -/
def index? : Value → Option Nat
  | .number x =>
    match Number.integer? x with
    | some n => if 0 ≤ n then some (min n.toNat maxIndex) else none
    | none => none
  | .string s => Text.unsigned? 10 Text.wordBound s.toList
  | _ => none

end PlayerScript.Value
