/-
The command line: one source file, the name of a function, its arguments and some options. An
option that takes a value is settled only at the next option or file, or at the end, so an unknown
word is reported before a value that is missing or wrong.
-/
import PlayerScript.Text.Digits

namespace PlayerScript.CommandLine

/-- Why a command line is not carried out. -/
inductive UsageFault where
  /-- The source or the function is missing. -/
  | missingRequired
  /-- A value is missing, or is an empty path. -/
  | invalidValue
  /-- An option is given twice. -/
  | conflict
  | unknownArgument
  /-- A limit is no unsigned integer. -/
  | invalidNumber
  /-- A flag is given a value. -/
  | tooManyValues
  | helpRequested
  | versionRequested
  deriving DecidableEq, Repr

/-- How much is reported on the way. -/
inductive Verbosity where
  | quiet
  | normal
  | verbose
  deriving DecidableEq, Repr

/-- The least severe level that is reported. -/
def Verbosity.level : Verbosity → String
  | .quiet => "error"
  | .normal => "warn"
  | .verbose => "debug"

/-- A command line that was understood. -/
structure Arguments where
  source : String
  function : String
  args : List String
  options : Option String
  recursionLimit : Option Nat
  verbose : Bool
  quiet : Bool
  deriving DecidableEq, Repr

/-- How much is reported on the way; to be quiet wins. -/
def Arguments.verbosity (a : Arguments) : Verbosity :=
  if a.quiet then .quiet else if a.verbose then .verbose else .normal

/-! ## Options -/

/-- Something that takes a value. -/
inductive Slot where
  | source
  | function
  | arg
  | options
  | recursionLimit
  deriving DecidableEq, Repr

/-- An option without a value. -/
inductive Flag where
  | verbose
  | quiet
  | help
  | version
  deriving DecidableEq, Repr

/-- The option with a long name. -/
def ofLong? : String → Option (Slot ⊕ Flag)
  | "function" => some (.inl .function)
  | "arg" => some (.inl .arg)
  | "options" => some (.inl .options)
  | "recursion-limit" => some (.inl .recursionLimit)
  | "verbose" => some (.inr .verbose)
  | "quiet" => some (.inr .quiet)
  | "help" => some (.inr .help)
  | "version" => some (.inr .version)
  | _ => none

/-- The option with a short name. -/
def ofShort? : Char → Option (Slot ⊕ Flag)
  | 'f' => some (.inl .function)
  | 'a' => some (.inl .arg)
  | 'v' => some (.inr .verbose)
  | 'q' => some (.inr .quiet)
  | 'h' => some (.inr .help)
  | 'V' => some (.inr .version)
  | _ => none

/-! ## Reading -/

/-- What was read so far. -/
structure Draft where
  source : Option String
  function : Option String
  args : List String
  options : Option String
  recursionLimit : Option Nat
  verbose : Bool
  quiet : Bool
  /-- The last option or file, with its value as far as there is one; not settled yet. -/
  pending : Option (Slot × Option String)
  /-- Whether a source file was named. -/
  sourceNamed : Bool
  /-- Whether all further words are files. -/
  filesOnly : Bool

namespace Draft

/-- Nothing was read. -/
def empty : Draft := ⟨none, none, [], none, none, false, false, none, false, false⟩

/-- A path; the empty one is refused. -/
def path (value : String) : Except UsageFault String :=
  if value.isEmpty then .error .invalidValue else .ok value

/-- Requires that an option is given for the first time. -/
def firstTime {α : Type} (given : Option α) : Except UsageFault Unit :=
  if given.isSome then .error .conflict else .ok ()

/-- Settles a value. -/
def store (d : Draft) (value : String) : Slot → Except UsageFault Draft
  | .source => do
    let p ← path value
    return { d with source := some p }
  | .function => do
    firstTime d.function
    return { d with function := some value }
  | .arg => .ok { d with args := d.args ++ [value] }
  | .options => do
    firstTime d.options
    let p ← path value
    return { d with options := some p }
  | .recursionLimit => do
    firstTime d.recursionLimit
    match Text.unsigned? 10 Text.wordBound value.toList with
    | some n => return { d with recursionLimit := some n }
    | none => .error .invalidNumber

/-- Settles the last option or file. -/
def settle (d : Draft) : Except UsageFault Draft :=
  match d.pending with
  | none => .ok d
  | some (_, none) => .error .invalidValue
  | some (slot, some value) => store { d with pending := none } value slot

/-- Raises a flag. -/
def raise (d : Draft) : Flag → Except UsageFault Draft
  | .verbose => if d.verbose then .error .conflict else .ok { d with verbose := true }
  | .quiet => if d.quiet then .error .conflict else .ok { d with quiet := true }
  | .help => .error .helpRequested
  | .version => .error .versionRequested

/-- Takes an option that needs a value, with the value if it is attached. -/
def take (d : Draft) (slot : Slot) (attached : Option String) : Except UsageFault Draft := do
  let d ← d.settle
  match attached with
  | some value => d.store value slot
  | none => return { d with pending := some (slot, none) }

/-- Takes a flag. -/
def takeFlag (d : Draft) (flag : Flag) : Except UsageFault Draft := do
  let d ← d.settle
  d.raise flag

/-- Takes a long option, without its two dashes. A value is attached by an equals sign. -/
def takeLong (d : Draft) (cs : List Char) : Except UsageFault Draft :=
  let name := String.ofList (cs.takeWhile (· ≠ '='))
  let attached := match cs.dropWhile (· ≠ '=') with
    | _ :: value => some (String.ofList value)
    | [] => none
  match ofLong? name, attached with
  | some (.inl slot), _ => d.take slot attached
  | some (.inr _), some _ => .error .tooManyValues
  | some (.inr flag), none => d.takeFlag flag
  | none, _ => .error .unknownArgument

/-- The value attached to a short option; an equals sign before it is left out. -/
def attachedTo : List Char → Option String
  | [] => none
  | '=' :: value => some (String.ofList value)
  | value => some (String.ofList value)

/-- Takes short options that are written together, without their dash. -/
def takeShort (d : Draft) : List Char → Except UsageFault Draft
  | [] => .ok d
  | c :: rest =>
    match ofShort? c with
    | some (.inl slot) => d.take slot (attachedTo rest)
    | some (.inr flag) =>
      match d.takeFlag flag with
      | .ok d => takeShort d rest
      | .error e => .error e
    | none => .error .unknownArgument

/-- Takes a file. There is only one. -/
def takeFile (d : Draft) (word : String) : Except UsageFault Draft :=
  if d.sourceNamed then .error .unknownArgument
  else do
    let d ← d.settle
    return { d with pending := some (.source, some word), sourceNamed := true }

/-- Takes a word that is no option: the value of the last option, or a file. -/
def takeValue (d : Draft) (word : String) : Except UsageFault Draft :=
  match d.pending with
  | some (slot, none) => .ok { d with pending := some (slot, some word) }
  | _ => d.takeFile word

/-- Takes a word. -/
def takeWord (d : Draft) (word : String) : Except UsageFault Draft :=
  if d.filesOnly then d.takeFile word
  else
    match word.toList with
    | ['-', '-'] => .ok { d with filesOnly := true }
    | '-' :: '-' :: cs => d.takeLong cs
    | '-' :: c :: cs => d.takeShort (c :: cs)
    | _ => d.takeValue word

/-- Takes all words. -/
def takeWords (d : Draft) : List String → Except UsageFault Draft
  | [] => .ok d
  | word :: rest => do
    let d ← d.takeWord word
    takeWords d rest

/-- The arguments, if nothing is missing. -/
def finish (d : Draft) : Except UsageFault Arguments := do
  let d ← d.settle
  match d.source, d.function with
  | some source, some function =>
    return ⟨source, function, d.args, d.options, d.recursionLimit, d.verbose, d.quiet⟩
  | _, _ => .error .missingRequired

end Draft

/-- Understands a command line, without the name of the program. -/
def Arguments.parse (words : List String) : Except UsageFault Arguments := do
  let d ← Draft.empty.takeWords words
  d.finish

end PlayerScript.CommandLine
