/-
Limits as a JSON document: an object with a member for each limit, or an array with the limits in
order. A limit that is left out keeps its standard value; members of other names are passed over
without a look at their contents.
-/
import PlayerScript.Json.Printer
import PlayerScript.Json.Reader
import PlayerScript.Options

namespace PlayerScript.Options

/-- The name of the recursion limit. -/
def recursionLimitKey : String := "recursion_limit"

/-- The name of the nesting limit. -/
def maxNestingKey : String := "max_nesting"

/-- The limit that a document states: an unsigned 64-bit integer. -/
def limit? (w : Json.Written) : Option Nat :=
  match w with
  | .number n =>
    match n.toJson? with
    | some (.integer (.ofNat n)) => some n
    | _ => none
  | _ => none

/-- Reads members in turn, with what was stated before. No limit is stated twice. -/
def ofMembers? : List (List Json.StringPart × Json.Written) → Option Nat → Option Nat →
    Option Options
  | [], recursion, nesting =>
    some ⟨recursion.getD standard.recursionLimit, nesting.getD standard.maxNesting⟩
  | (parts, w) :: rest, recursion, nesting =>
    match Json.string? parts with
    | none => none
    | some key =>
      if key = recursionLimitKey then
        if recursion.isSome then none
        else (limit? w).bind fun n => ofMembers? rest (some n) nesting
      else if key = maxNestingKey then
        if nesting.isSome then none
        else (limit? w).bind fun n => ofMembers? rest recursion (some n)
      else ofMembers? rest recursion nesting

/-- Reads limits in order. -/
def ofItems? : List Json.Written → Option Options
  | [] => some standard
  | [a] => (limit? a).map fun n => { standard with recursionLimit := n }
  | [a, b] => do
    let recursion ← limit? a
    let nesting ← limit? b
    return ⟨recursion, nesting⟩
  | _ => none

/-- Reads limits from a text. -/
def parse (text : String) : Except Error Options :=
  let options? := match Json.Written.read? text.toList with
    | some (.object members) => ofMembers? members none none
    | some (.array items) => ofItems? items
    | _ => none
  match options? with
  | some o => .ok o
  | none => .error .invalidJson

/-- The limits as a document. -/
def toJson (o : Options) : Json :=
  .object [(recursionLimitKey, .integer o.recursionLimit), (maxNestingKey, .integer o.maxNesting)]

end PlayerScript.Options
