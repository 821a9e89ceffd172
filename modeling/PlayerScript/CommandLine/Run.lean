/-
Carrying out a command line: the files are read, the arguments are taken as JSON documents, and
the result of the call is a JSON document again.
-/
import PlayerScript.CommandLine.Arguments
import PlayerScript.Interpreter
import PlayerScript.Json.Convert
import PlayerScript.Options.Document

namespace PlayerScript.CommandLine.Arguments

/-- The text of a file. -/
def load (read : String → Option String) (path : String) : Except Error String :=
  match read path with
  | some text => .ok text
  | none => .error .unreadable

/-- The limits: from a file if there is one, with the recursion limit replaced if one is given. -/
def limits (read : String → Option String) (a : Arguments) : Except Error Options := do
  let options ← match a.options with
    | some path => do
      let text ← load read path
      Options.parse text
    | none => .ok Options.standard
  return { options with recursionLimit := a.recursionLimit.getD options.recursionLimit }

/-- The values of texts, added to a store. -/
def values : List String → Store → Except Error (List Value × Store)
  | [], store => .ok ([], store)
  | text :: rest, store => do
    let (v, store) ← Value.parse text store
    let (vs, store) ← values rest store
    return (v :: vs, store)

/-- A call that is ready to be made. -/
structure Prepared where
  program : Program
  args : List Value
  machine : Machine

/-- Reads the files and the arguments, in this order: the source, the limits, the arguments. -/
def prepare (read : String → Option String) (a : Arguments) : Except Error Prepared := do
  let source ← load read a.source
  let options ← a.limits read
  let (args, store) ← values a.args Store.initial
  return ⟨⟨source.toList, options⟩, args, Machine.initial store Table.empty⟩

/-- Carries out a command line, given the texts of the files. There is no result if a loop is cut
off. -/
def run (read : String → Option String) (a : Arguments) : Option (Except Error Json) :=
  match a.prepare read with
  | .error e => some (.error e)
  | .ok call =>
    match call.program.callFunction a.function call.args call.machine with
    | .done v m => some (.ok (v.toJson m.store))
    | .failed e _ => some (.error e)
    | .unfinished => none

end PlayerScript.CommandLine.Arguments
