/-
The built-in methods of strings and arrays, and the static methods of the namespaces. A method
that refuses a call changes nothing; one that accepts it changes at most its own array.
-/
import PlayerScript.Error
import PlayerScript.Value.Operation

namespace PlayerScript

/-! ## Positions -/

namespace Value

/-- The position in a sequence of length `size` that a value denotes: counted from the end when
negative, and kept inside the sequence. A missing value denotes `absent`. -/
def position (store : Store) (size absent : Nat) : Option Value → Nat
  | none | some .undefined => absent
  | some v =>
    let x := v.toNumber store
    match Number.truncate? x with
    | some n => if n < 0 then (n + size).toNat else min n.toNat size
    | none => if 0.0 < x then size else 0

/-- The number of places, of those available, that a value asks for. -/
def count (store : Store) (available : Nat) (v : Value) : Nat :=
  let x := v.toNumber store
  match Number.truncate? x with
  | some n => min n.toNat available
  | none => if 0.0 < x then available else 0

/-- The place that a value asks for, if it is not before the first one. What is not a number asks
for the first place. -/
def charPlace? (store : Store) (v : Value) : Option Nat :=
  let x := v.toNumber store
  match Number.truncate? x with
  | some n => if 0 ≤ n then some n.toNat else none
  | none => if x.isNaN then some 0 else none

end Value

/-! ## Methods -/

/-- A method of strings or arrays. -/
inductive Method where
  | split
  | join
  | reverse
  | slice
  | splice
  | unshift
  | pop
  | push
  | forEach
  | indexOf
  | charCodeAt
  | concat
  deriving DecidableEq, Repr

namespace Method

/-- The name of a method. -/
def name : Method → String
  | .split => "split"
  | .join => "join"
  | .reverse => "reverse"
  | .slice => "slice"
  | .splice => "splice"
  | .unshift => "unshift"
  | .pop => "pop"
  | .push => "push"
  | .forEach => "forEach"
  | .indexOf => "indexOf"
  | .charCodeAt => "charCodeAt"
  | .concat => "concat"

/-- All methods. -/
def all : List Method :=
  [.split, .join, .reverse, .slice, .splice, .unshift, .pop, .push, .forEach, .indexOf,
    .charCodeAt, .concat]

/-- The method of a given name. -/
def ofName? (s : String) : Option Method := all.find? fun m => m.name == s

/-- The refusal of a call. -/
def refuse (m : Method) (target : Value) (fault : MethodFault) : Error :=
  .method target.kind m.name fault

/-- The text that a method needs. -/
def string (m : Method) : Value → Except Error (List Char)
  | .string s => .ok s.toList
  | target => .error (m.refuse target .needsString)

/-- The array that a method needs. -/
def array (m : Method) : Value → Except Error ArrayRef
  | .array a => .ok a
  | target => .error (m.refuse target .needsArray)

/-- Requires that there are no arguments. -/
def noArguments (m : Method) (target : Value) (args : List Value) : Except Error Unit :=
  if args.isEmpty then .ok () else .error (m.refuse target .takesNoArguments)

/-- Requires that there is an argument. -/
def someArgument (m : Method) (target : Value) (args : List Value) : Except Error Unit :=
  if args.isEmpty then .error (m.refuse target .needsArgument) else .ok ()

/-! ### Methods that only read -/

/-- The part of a list between two positions; empty if they are not in order. -/
def part {α : Type} (start stop : Nat) (xs : List α) : List α := (xs.take stop).drop start

/-- Cuts a text at a separator, or into its characters. -/
def runSplit (store : Store) (target : Value) (args : List Value) :
    Except Error (Value × Store) := do
  let cs ← split.string target
  let sep ← match args with
    | [] => .ok []
    | [v] => .ok (v.text store).toList
    | _ => .error (split.refuse target .takesNoLimit)
  return store.addArray ((Text.pieces sep cs).map fun p => Value.string (String.ofList p)).toArray

/-- Joins the texts of the elements with a separator between them. -/
def runJoin (store : Store) (target : Value) (args : List Value) :
    Except Error (Value × Store) := do
  let a ← join.array target
  match args with
  | [v] =>
    let texts := (store.elements a).toList.map (Value.elementText store)
    return (.string (String.intercalate (v.text store) texts), store)
  | _ => .error (join.refuse target .needsOneArgument)

/-- The part of a string or an array between two positions. -/
def runSlice (store : Store) (target : Value) (args : List Value) : Except Error (Value × Store) :=
  if 2 < args.length then .error (slice.refuse target .atMostTwoArguments)
  else
    let start (size : Nat) := Value.position store size 0 args[0]?
    let stop (size : Nat) := Value.position store size size args[1]?
    match target with
    | .array a =>
      let items := store.elements a
      .ok (store.addArray (items.extract (start items.size) (stop items.size)))
    | .string s =>
      let cs := s.toList
      .ok (.string (String.ofList (part (start cs.length) (stop cs.length) cs)), store)
    | _ => .error (slice.refuse target .needsSequence)

/-- The least position from `start` on whose element is strictly equal to the needle, where the
list begins at position `pos`. -/
def findElement? (needle : Value) (start : Nat) : Nat → List Value → Option Nat
  | _, [] => none
  | pos, v :: rest =>
    if start ≤ pos && Value.strictEquals v needle then some pos
    else findElement? needle start (pos + 1) rest

/-- The value for a position that was looked for. -/
def found : Option Nat → Value
  | some i => .ofNat i
  | none => .number (-1.0)

/-- Looks for a needle from a position on. -/
def lookFor (store : Store) (target needle : Value) (start? : Option Value) :
    Except Error (Value × Store) :=
  match target with
  | .array a =>
    let items := store.elements a
    let start := Value.position store items.size 0 start?
    .ok (found (findElement? needle start 0 items.toList), store)
  | .string s =>
    let cs := s.toList
    let start := Value.position store cs.length 0 start?
    .ok (found (Text.find? (needle.text store).toList start 0 cs), store)
  | _ => .error (indexOf.refuse target .needsSequence)

/-- The least position of a needle in a string or an array. -/
def runIndexOf (store : Store) (target : Value) (args : List Value) :
    Except Error (Value × Store) :=
  match args with
  | [needle] => lookFor store target needle none
  | [needle, start] => lookFor store target needle (some start)
  | _ => .error (indexOf.refuse target .needsOneOrTwoArguments)

/-- The code point at a place of a string. -/
def runCharCodeAt (store : Store) (target : Value) (args : List Value) :
    Except Error (Value × Store) := do
  let cs ← charCodeAt.string target
  let place := match args with
    | [] => some 0
    | v :: _ => v.charPlace? store
  return (((place.bind fun i => cs[i]?).map fun c => Value.ofNat c.toNat).getD
    (.number Number.nan), store)

/-- The elements that an argument adds to an array: its own elements if it is an array. -/
def spread (store : Store) : Value → List Value
  | .array a => (store.elements a).toList
  | v => [v]

/-- A string or an array with the arguments added at its end, as a new value. -/
def runConcat (store : Store) (target : Value) (args : List Value) : Except Error (Value × Store) :=
  match target with
  | .array a => .ok (store.addArray (store.elements a ++ (args.flatMap (spread store)).toArray))
  | .string s => .ok (.string (s ++ String.join (args.map (Value.text store))), store)
  | _ => .error (concat.refuse target .needsSequence)

/-! ### Methods that change their array -/

/-- Reverses an array. -/
def runReverse (store : Store) (target : Value) (args : List Value) :
    Except Error (Value × Store) := do
  reverse.noArguments target args
  let a ← reverse.array target
  return (target, store.modifyArray a Array.reverse)

/-- Replaces a run of elements by the arguments after the first two; the run is returned. -/
def runSplice (store : Store) (target : Value) (args : List Value) :
    Except Error (Value × Store) := do
  let a ← splice.array target
  splice.someArgument target args
  let items := store.elements a
  let start := Value.position store items.size 0 args[0]?
  let available := items.size - start
  let count := (args[1]?.map (Value.count store available)).getD available
  let changed := items.extract 0 start ++ (args.drop 2).toArray ++
    items.extract (start + count) items.size
  return (store.modifyArray a fun _ => changed).addArray (items.extract start (start + count))

/-- Puts the arguments in front of an array. -/
def runUnshift (store : Store) (target : Value) (args : List Value) :
    Except Error (Value × Store) := do
  let a ← unshift.array target
  return (target, store.modifyArray a fun items => args.toArray ++ items)

/-- Removes the last element of an array and returns it. -/
def runPop (store : Store) (target : Value) (args : List Value) : Except Error (Value × Store) := do
  pop.noArguments target args
  let a ← pop.array target
  return ((store.elements a).back?.getD .undefined, store.modifyArray a Array.pop)

/-- Puts the arguments at the end of an array. -/
def runPush (store : Store) (target : Value) (args : List Value) : Except Error (Value × Store) := do
  let a ← push.array target
  push.someArgument target args
  return (target, store.modifyArray a fun items => items ++ args.toArray)

/-! ### Calls -/

/-- What a call of a function on each element needs. -/
structure Iteration where
  items : List Value
  callback : FunctionRef
  receiver : Option Value

/-- What a call of a function on each element needs, from its target and arguments. -/
def iteration (store : Store) (target : Value) (args : List Value) : Except Error Iteration := do
  let a ← forEach.array target
  let (callback, receiver) ← match args with
    | [f] => .ok (f, none)
    | [f, this] => .ok (f, some this)
    | _ => .error (forEach.refuse target .needsOneOrTwoArguments)
  match callback with
  | .function f => return ⟨(store.elements a).toList, f, receiver⟩
  | _ => .error (forEach.refuse target .needsCallback)

/-- Calls a method. The one that calls a function is not run here and answers undefined. -/
def run (store : Store) (target : Value) (args : List Value) :
    Method → Except Error (Value × Store)
  | .split => runSplit store target args
  | .join => runJoin store target args
  | .reverse => runReverse store target args
  | .slice => runSlice store target args
  | .splice => runSplice store target args
  | .unshift => runUnshift store target args
  | .pop => runPop store target args
  | .push => runPush store target args
  | .forEach => .ok (.undefined, store)
  | .indexOf => runIndexOf store target args
  | .charCodeAt => runCharCodeAt store target args
  | .concat => runConcat store target args

/-- The error for a name that is no method of a value. -/
def unknown (target : Value) (name : String) : Error :=
  match target with
  | .string _ => .method "String" name .unsupported
  | _ => .type (.noMethod target.kind name)

end Method

/-! ## Namespaces -/

/-- A built-in namespace. -/
inductive Namespace where
  | string
  | math
  | array
  | object
  deriving DecidableEq, Repr

namespace Namespace

/-- The name of a namespace. -/
def name : Namespace → String
  | .string => "String"
  | .math => "Math"
  | .array => "Array"
  | .object => "Object"

/-- The namespace of a given name. -/
def ofName? (s : String) : Option Namespace :=
  [string, math, array, object].find? fun n => n.name == s

/-- The character for the low 16 bits of a value. Half of a surrogate pair has no character of its
own. -/
def character (store : Store) (v : Value) : Char :=
  let code := (v.toInt32 store % 0x10000).toNat
  if 0xD800 ≤ code && code ≤ 0xDFFF then Char.ofNat 0xFFFD else Char.ofNat code

end Namespace

/-- Calls a static method of the namespace with a given name. -/
def callStatic (store : Store) (space method : String) (args : List Value) : Except Error Value :=
  if space = "String" ∧ method = "fromCharCode" then
    if args.isEmpty then .error (.method space method .needsArgument)
    else .ok (.string (String.ofList (args.map (Namespace.character store))))
  else if space = "Math" ∧ method = "pow" then
    match args with
    | [base, exponent] => .ok (Value.arithmetic store Number.power base exponent)
    | _ => .error (.method space method .needsTwoArguments)
  else .error (.method space method .unsupported)

end PlayerScript
