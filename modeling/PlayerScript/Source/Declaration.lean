/-
Finding declarations in source text without parsing it: functions by name, and objects whose
members are all functions. Only the code between the braces is taken out; it is parsed later.
-/
import PlayerScript.Source.Pattern
import PlayerScript.Source.Splitter

namespace PlayerScript.Source

open Pattern

/-- A function found in a text: its parameters and the code of its body. -/
structure FunctionCode where
  params : List String
  body : List Char

/-- The parameters in a text: separated by commas, without blanks around, the empty ones left
out. -/
def splitParams (cs : List Char) : List String :=
  (((Text.pieces [','] cs).map Text.trim).filter fun p => !p.isEmpty).map String.ofList

/-- The parameters in parentheses at the beginning of a text, blanks allowed before them, and what
follows from the opening brace of the body on. -/
def header? (cs : List Char) : Option (List Char × List Char) :=
  match Text.trimStart cs with
  | '(' :: rest =>
    match rest.dropWhile (· ≠ ')') with
    | ')' :: more =>
      match Text.trimStart more with
      | '\x7b' :: body => some (rest.takeWhile (· ≠ ')'), '\x7b' :: body)
      | _ => none
    | _ => none
  | _ => none

/-- The first rest at which parameters and a body begin. -/
def firstHeader? (rests : List (List Char)) : Option (List Char × List Char) :=
  rests.findSome? header?

/-- What stands before the parameters of the function with a name: the word `function` and the
name, or an assignment to the name at the start of a declaration. -/
def functionHead (name : List Char) : Pattern :=
  let assigned := inOrder [text name, blanks, word "=", blanks, word "function"]
  anyOf [
    inOrder [word "function", someBlanks, text name],
    inOrder [one fun c => c == '\x7b' || c == ';' || c == ',', blanks, assigned],
    inOrder [anyOf [word "var", word "let", word "const"], someBlanks, assigned]]

/-- The leftmost place of a text where `find` succeeds. -/
def leftmost? {α : Type} (find : List Char → Option α) : List Char → Option α
  | [] => find []
  | c :: cs =>
    match find (c :: cs) with
    | some a => some a
    | none => leftmost? find cs

/-- The parameters and the body of the function with a name, where it is declared first. -/
def functionCode (source : List Char) (name : String) : Except Error FunctionCode :=
  let find := fun cs => firstHeader? (functionHead name.toList cs)
  match leftmost? find source with
  | none => .error (.malformed (.noFunction name) name)
  | some (params, braces) => do
    let (body, _) ← separateAtBracket braces none
    return ⟨splitParams params, body⟩

/-! ## Objects -/

/-- Whether a character can be part of a longer name or of a member's path. -/
def continuesName (c : Char) : Bool :=
  ('a' ≤ c && c ≤ 'z') || ('A' ≤ c && c ≤ 'Z') || ('0' ≤ c && c ≤ '9') || c == '_' || c == '$' ||
    c == '.'

/-- The assignment of an object to a name, up to the inside of its braces. -/
def objectHead (name : List Char) : Pattern :=
  inOrder [text name, blanks, word "=", blanks, word "\x7b"]

/-- The places behind the opening brace where an object is assigned to a name, from left to right
and without overlaps. At the start of the text nothing need stand before the name; everywhere
else a character that does not continue a name. -/
def objectPlaces (name : List Char) : Nat → Bool → List Char → List (List Char)
  | 0, _, _ => []
  | fuel + 1, atStart, cs =>
    let bounded := inOrder [one fun c => !continuesName c, objectHead name]
    let head := if atStart then orElse (objectHead name) bounded else bounded
    match (head cs).head? with
    | some rest => rest :: objectPlaces name fuel false rest
    | none =>
      match cs with
      | [] => []
      | _ :: more => objectPlaces name fuel false more

/-- The codes, from the opening brace on, of the objects assigned to a name. -/
def objectCodes (source : List Char) (name : String) : List (List Char) :=
  (objectPlaces name.toList (source.length + 1) true source).map fun rest => '\x7b' :: rest

/-- What a field of an object is. -/
inductive Field where
  /-- Nothing but blanks. -/
  | blank
  /-- No function, so that the object is not one of functions only. -/
  | other
  | function (key : String) (code : FunctionCode)

/-- Drops quotation marks on both sides. -/
def dropQuotes (cs : List Char) : List Char :=
  ((cs.dropWhile Nesting.isQuote).reverse.dropWhile Nesting.isQuote).reverse

/-- Reads a field: a key, a colon and a function without a name. -/
def field (code : List Char) : Except Error Field :=
  if (Text.trim code).isEmpty then .ok .blank
  else
    match separate code [':'] (some 1) with
    | key :: value :: _ =>
      match firstHeader? (inOrder [blanks, word "function"] value) with
      | some (params, braces) => do
        let (body, _) ← separateAtBracket braces none
        return .function (String.ofList (dropQuotes (Text.trim key))) ⟨splitParams params, body⟩
      | none => .ok .other
    | _ => .ok .other

/-- The codes of the fields of an object. -/
def fieldCodes (body : List Char) : List (List Char) := separate body [','] none

end PlayerScript.Source
