/-
JSON documents.
-/
namespace PlayerScript

/-- A JSON document. Integers of at most 64 bits are kept apart from other numbers. -/
inductive Json where
  | null
  | bool (b : Bool)
  | integer (n : Int)
  | number (x : Float)
  | string (s : String)
  | array (items : List Json)
  /-- The members in the order in which they are written. -/
  | object (members : List (String × Json))

end PlayerScript
