/-
Values of the language. Arrays, objects and functions are references into a store, so two values
can share one array; everything else is plain data.
-/
namespace PlayerScript

/-- A reference to a layer of bindings. -/
structure LayerRef where
  index : Nat
  deriving DecidableEq, Repr

/-- A reference to an array. -/
structure ArrayRef where
  index : Nat
  deriving DecidableEq, Repr

/-- A reference to an object. -/
structure ObjectRef where
  index : Nat
  deriving DecidableEq, Repr

/-- A reference to a function together with the layers it closed over. -/
structure FunctionRef where
  index : Nat
  deriving DecidableEq, Repr

/-- A value. -/
inductive Value where
  | undefined
  | null
  | bool (b : Bool)
  | number (x : Float)
  | string (s : String)
  | array (ref : ArrayRef)
  | object (ref : ObjectRef)
  | function (ref : FunctionRef)
  deriving Repr

namespace Value

instance : Inhabited Value := ⟨.undefined⟩

/-- The value of a whole number. -/
def ofNat (n : Nat) : Value := .number (Float.ofNat n)

/-- The value of an integer. -/
def ofInt (n : Int) : Value := .number (Float.ofInt n)

/-- The kind of a value, as messages call it. -/
def kind : Value → String
  | .undefined => "undefined"
  | .null => "null"
  | .bool _ => "boolean"
  | .number _ => "number"
  | .string _ => "string"
  | .array _ => "array"
  | .object _ => "object"
  | .function _ => "function"

/-- Whether a value stands for the absence of one. -/
def isNullish : Value → Bool
  | .undefined | .null => true
  | _ => false

/-- Whether a value counts as true in a condition. -/
def isTruthy : Value → Bool
  | .undefined | .null => false
  | .bool b => b
  | .number x => !(x == 0.0) && !x.isNaN
  | .string s => !s.isEmpty
  | .array _ | .object _ | .function _ => true

/-- Strict equality: plain data by contents, references by identity. NaN differs from itself. -/
def strictEquals : Value → Value → Bool
  | .undefined, .undefined => true
  | .null, .null => true
  | .bool a, .bool b => a == b
  | .number x, .number y => x == y
  | .string s, .string t => s == t
  | .array a, .array b => a == b
  | .object a, .object b => a == b
  | .function a, .function b => a == b
  | _, _ => false

/-- Loose equality: strict equality, except that the two nullish values are equal. Nothing is
converted. -/
def looseEquals (a b : Value) : Bool := (a.isNullish && b.isNullish) || strictEquals a b

end Value
end PlayerScript
