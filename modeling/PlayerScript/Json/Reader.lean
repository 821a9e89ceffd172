/-
The meaning of written JSON. Escaped surrogates must come in pairs, numbers must not overflow, and
containers must not be nested too deep. A number that is no integer of 64 bits is read from its
leading digits, as many as make up a 64-bit word, and scaled by powers of ten.
-/
import PlayerScript.Error
import PlayerScript.Json.Basic
import PlayerScript.Json.Written
import PlayerScript.Number.Exact

namespace PlayerScript.Json

/-! ## Strings -/

/-- Whether a code is the first half of a surrogate pair. -/
def isHighSurrogate (n : Nat) : Bool := 0xD800 ≤ n && n ≤ 0xDBFF

/-- Whether a code is the second half of a surrogate pair. -/
def isLowSurrogate (n : Nat) : Bool := 0xDC00 ≤ n && n ≤ 0xDFFF

/-- The characters of a written string. -/
def characters? : List StringPart → Option (List Char)
  | [] => some []
  | .char c :: rest => (characters? rest).map fun cs => c :: cs
  | .code high :: .code low :: rest =>
    if isHighSurrogate high && isLowSurrogate low then
      let c := Char.ofNat (0x10000 + (high - 0xD800) * 0x400 + (low - 0xDC00))
      (characters? rest).map fun cs => c :: cs
    else if isHighSurrogate high || isLowSurrogate high then none
    else (characters? (.code low :: rest)).map fun cs => Char.ofNat high :: cs
  | .code n :: rest =>
    if isHighSurrogate n || isLowSurrogate n then none
    else (characters? rest).map fun cs => Char.ofNat n :: cs

/-- The string that is written. -/
def string? (parts : List StringPart) : Option String := (characters? parts).map String.ofList

/-! ## Numbers -/

/-- Takes digits as long as the number they make up is below 2 ^ 64, and tells how many were
taken. -/
def takeDigits : Nat → Nat → List Char → Nat × Nat
  | n, taken, [] => (n, taken)
  | n, taken, d :: rest =>
    let next := n * 10 + Text.digitValue d
    if next < Text.wordBound then takeDigits next (taken + 1) rest else (n, taken)

/-- The largest power of ten that is a double. -/
def largestPower : Nat := 308

/-- A power of ten. -/
def powerOfTen (n : Nat) : Float := Float.ofScientific 1 false n

/-- Scales by a power of ten; large negative powers in more than one step, of which two turn every
64-bit word into zero. A number that overflows is none. -/
def scale? : Nat → Float → Int → Option Float
  | 0, x, _ => some x
  | steps + 1, x, exponent =>
    if exponent.natAbs ≤ largestPower then
      if 0 ≤ exponent then
        let scaled := x * powerOfTen exponent.natAbs
        if scaled.isInf then none else some scaled
      else some (x / powerOfTen exponent.natAbs)
    else if x == 0.0 then some x
    else if 0 ≤ exponent then none
    else scale? steps (x / powerOfTen largestPower) (exponent + largestPower)

/-- The largest exponent that is looked at digit by digit. -/
def maxExponent : Nat := 0x7fffffff

/-- The size of a number that is scaled: from its leading digits, the power of ten that these
leave, and the exponent that is written. -/
def magnitude? (digits : Nat) (power : Int) : Option (Bool × List Char) → Option Float
  | none => scale? 4 (Float.ofNat digits) power
  | some (negative, exponent) =>
    let e := Text.natOfDigits 10 exponent
    if maxExponent < e then if digits ≠ 0 ∧ !negative then none else some 0.0
    else scale? 4 (Float.ofNat digits) (if negative then power - e else power + e)

/-- The number that is written. An integer below zero must fit in 64 bits with its sign, and minus
zero is no integer. -/
def Numeral.toJson? (n : Numeral) : Option Json :=
  let (digits, taken) := takeDigits 0 0 n.whole
  if n.fraction.isEmpty && n.exponent.isNone && taken == n.whole.length then
    if !n.negative then some (.integer digits)
    else if 0 < digits && decide (digits ≤ 0x8000000000000000) then some (.integer (-(digits : Int)))
    else some (.number (-(Float.ofNat digits)))
  else
    let (digits, places) := takeDigits digits 0 n.fraction
    (magnitude? digits ((n.whole.length - taken : Nat) - (places : Int)) n.exponent).map fun x =>
      .number (if n.negative then -x else x)

/-! ## Documents -/

mutual

/-- How deep the containers of a written document are nested. -/
def Written.depth : Written → Nat
  | .array items => depthOfItems items + 1
  | .object members => depthOfMembers members + 1
  | _ => 0

/-- How deep the containers among the elements are nested. -/
def depthOfItems : List Written → Nat
  | [] => 0
  | w :: rest => max w.depth (depthOfItems rest)

/-- How deep the containers among the members are nested. -/
def depthOfMembers : List (List StringPart × Written) → Nat
  | [] => 0
  | (_, w) :: rest => max w.depth (depthOfMembers rest)

end

mutual

/-- The document that is written. -/
def Written.toJson? : Written → Option Json
  | .null => some .null
  | .bool b => some (.bool b)
  | .number n => n.toJson?
  | .string parts => (string? parts).map Json.string
  | .array items => (itemsOf? items).map Json.array
  | .object members => (membersOf? members).map Json.object

/-- The elements that are written. -/
def itemsOf? : List Written → Option (List Json)
  | [] => some []
  | w :: rest => do
    let j ← w.toJson?
    let js ← itemsOf? rest
    return j :: js

/-- The members that are written. -/
def membersOf? : List (List StringPart × Written) → Option (List (String × Json))
  | [] => some []
  | (key, w) :: rest => do
    let key ← string? key
    let j ← w.toJson?
    let js ← membersOf? rest
    return (key, j) :: js

end

/-- The number of nested containers that a document may not reach. -/
def depthBound : Nat := 128

/-- Reads a document. -/
def parse? (cs : List Char) : Option Json := do
  let w ← Written.read? cs
  if w.depth < depthBound then w.toJson? else none

end PlayerScript.Json
