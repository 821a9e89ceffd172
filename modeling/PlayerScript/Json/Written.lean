/-
JSON as it is written: the grammar, without a meaning for numbers and escapes yet. Only the blanks
are dropped.
-/
import PlayerScript.Text.Digits

namespace PlayerScript.Json

/-- A part of a written string: a character, or an escaped 16-bit code. -/
inductive StringPart where
  | char (c : Char)
  | code (n : Nat)
  deriving DecidableEq, Repr

/-- A written number. -/
structure Numeral where
  negative : Bool
  whole : List Char
  /-- The digits after the point; empty without a point. -/
  fraction : List Char
  /-- The exponent, with whether it is negative. -/
  exponent : Option (Bool × List Char)
  deriving DecidableEq, Repr

/-- A written document. -/
inductive Written where
  | null
  | bool (b : Bool)
  | number (n : Numeral)
  | string (parts : List StringPart)
  | array (items : List Written)
  | object (members : List (List StringPart × Written))

/-- What a part of a text is read as, and the rest of the text. -/
abbrev Read (α : Type) := Option (α × List Char)

/-- Drops the blanks that may stand between the parts of a document. -/
def dropBlanks (cs : List Char) : List Char :=
  cs.dropWhile fun c => c == ' ' || c == '\t' || c == '\n' || c == '\r'

/-! ## Strings -/

/-- The character that a letter stands for after a backslash. -/
def simpleEscape? (c : Char) : Option Char :=
  match c.toNat with
  | 34 => some '"'
  | 92 => some '\\'
  | 47 => some '/'
  | 98 => some (Char.ofNat 8)
  | 102 => some (Char.ofNat 12)
  | 110 => some '\n'
  | 114 => some '\r'
  | 116 => some '\t'
  | _ => none

/-- The code of four hexadecimal digits. -/
def hexCode? (cs : List Char) : Option Nat :=
  if cs.all (Text.isDigitOf 16) then some (Text.natOfDigits 16 cs) else none

/-- Puts a part in front of a string that is read. -/
def consPart (p : StringPart) (r : List StringPart × List Char) : List StringPart × List Char :=
  (p :: r.1, r.2)

/-- Reads a string after its opening quotation mark. -/
def readString : List Char → Read (List StringPart)
  | [] => none
  | '\\' :: 'u' :: a :: b :: c :: d :: cs =>
    match hexCode? [a, b, c, d] with
    | some n => (readString cs).map (consPart (.code n))
    | none => none
  | '\\' :: c :: cs =>
    match simpleEscape? c with
    | some e => (readString cs).map (consPart (.char e))
    | none => none
  | c :: cs =>
    if c = '"' then some ([], cs)
    else if c = '\\' ∨ c.toNat < 32 then none
    else (readString cs).map (consPart (.char c))

/-! ## Numbers -/

/-- Reads the digits after a point, of which there is at least one; without a point there are
none. -/
def readFraction : List Char → Read (List Char)
  | '.' :: cs =>
    let digits := cs.takeWhile Text.isDecimal
    if digits.isEmpty then none else some (digits, cs.dropWhile Text.isDecimal)
  | cs => some ([], cs)

/-- Takes a sign off, and tells whether it was a minus. -/
def takeSign : List Char → Bool × List Char
  | '-' :: cs => (true, cs)
  | '+' :: cs => (false, cs)
  | cs => (false, cs)

/-- Reads an exponent, if there is one. -/
def readExponent : List Char → Read (Option (Bool × List Char))
  | [] => some (none, [])
  | c :: cs =>
    if c = 'e' ∨ c = 'E' then
      let (negative, rest) := takeSign cs
      let digits := rest.takeWhile Text.isDecimal
      if digits.isEmpty then none
      else some (some (negative, digits), rest.dropWhile Text.isDecimal)
    else some (none, c :: cs)

/-- Reads the digits before the point: zero alone, or digits that do not start with a zero. -/
def readWhole (cs : List Char) : Read (List Char) :=
  let digits := cs.takeWhile Text.isDecimal
  if digits.isEmpty || (digits.head? == some '0' && 1 < digits.length) then none
  else some (digits, cs.dropWhile Text.isDecimal)

/-- Reads a number without its sign. -/
def readMagnitude (negative : Bool) (cs : List Char) : Option (Written × List Char) := do
  let (whole, cs) ← readWhole cs
  let (fraction, cs) ← readFraction cs
  let (exponent, cs) ← readExponent cs
  return (.number ⟨negative, whole, fraction, exponent⟩, cs)

/-- Reads a number. -/
def readNumber : List Char → Read Written
  | '-' :: cs => readMagnitude true cs
  | cs => readMagnitude false cs

/-! ## Documents -/

/-- Reads a document without parts, at its first character. -/
def readPlain : List Char → Read Written
  | 'n' :: 'u' :: 'l' :: 'l' :: cs => some (.null, cs)
  | 't' :: 'r' :: 'u' :: 'e' :: cs => some (.bool true, cs)
  | 'f' :: 'a' :: 'l' :: 's' :: 'e' :: cs => some (.bool false, cs)
  | '"' :: cs => (readString cs).map fun r => (.string r.1, r.2)
  | cs => readNumber cs

mutual

/-- Reads a document, blanks allowed before it. -/
def readDocument : Nat → List Char → Read Written
  | 0, _ => none
  | fuel + 1, cs =>
    match dropBlanks cs with
    | '[' :: rest =>
      match dropBlanks rest with
      | ']' :: rest => some (.array [], rest)
      | rest => (readItems fuel rest).map fun r => (.array r.1, r.2)
    | '\x7b' :: rest =>
      match dropBlanks rest with
      | '\x7d' :: rest => some (.object [], rest)
      | rest => (readMembers fuel rest).map fun r => (.object r.1, r.2)
    | rest => readPlain rest

/-- Reads the elements of an array and its closing bracket. -/
def readItems : Nat → List Char → Read (List Written)
  | 0, _ => none
  | fuel + 1, cs =>
    match readDocument fuel cs with
    | none => none
    | some (item, rest) =>
      match dropBlanks rest with
      | ',' :: rest => (readItems fuel rest).map fun r => (item :: r.1, r.2)
      | ']' :: rest => some ([item], rest)
      | _ => none

/-- Reads the members of an object and its closing brace. -/
def readMembers : Nat → List Char → Read (List (List StringPart × Written))
  | 0, _ => none
  | fuel + 1, cs =>
    match dropBlanks cs with
    | '"' :: rest =>
      match readString rest with
      | none => none
      | some (key, rest) =>
        match dropBlanks rest with
        | ':' :: rest =>
          match readDocument fuel rest with
          | none => none
          | some (value, rest) =>
            match dropBlanks rest with
            | ',' :: rest => (readMembers fuel rest).map fun r => ((key, value) :: r.1, r.2)
            | '\x7d' :: rest => some ([(key, value)], rest)
            | _ => none
        | _ => none
    | _ => none

end

/-- Reads a text as one document. Every second step of the reader takes a character, which bounds
the steps. -/
def Written.read? (cs : List Char) : Option Written :=
  match readDocument (2 * cs.length + 2) cs with
  | some (w, rest) => if (dropBlanks rest).isEmpty then some w else none
  | none => none

end PlayerScript.Json
