/-
The program: it calls a function of a script and prints the result as JSON.
-/
import PlayerScript.CommandLine.Run

namespace PlayerScript.CommandLine

/-- How the program is used. -/
def usage : String :=
  "Usage: playerscript [OPTIONS] --function <NAME> <SOURCE>\n\n" ++
  "  -f, --function <NAME>      Name of the function to call\n" ++
  "  -a, --arg <JSON>           Argument as a JSON value, repeat for more arguments\n" ++
  "      --options <PATH>       JSON file with interpreter options\n" ++
  "      --recursion-limit <N>  Override the recursion budget\n" ++
  "  -v, --verbose              Verbose output\n" ++
  "  -q, --quiet                Quiet output (only errors)\n" ++
  "  -h, --help                 Print help\n" ++
  "  -V, --version              Print version"

/-- The wording of a fault of usage. -/
def UsageFault.message : UsageFault → String
  | .missingRequired => "a required argument is missing"
  | .invalidValue => "a value is missing"
  | .conflict => "an option is given twice"
  | .unknownArgument => "unexpected argument"
  | .invalidNumber => "the recursion limit is no unsigned integer"
  | .tooManyValues => "a flag takes no value"
  | .helpRequested => usage
  | .versionRequested => "playerscript 0.1.0"

/-- Reads a file that may be missing or not be text. -/
def readText (path : String) : IO (Option String) := do
  match ← (IO.FS.readFile path).toBaseIO with
  | .ok text => return some text
  | .error _ => return none

/-- Carries out a command line and prints its result. -/
def Arguments.execute (a : Arguments) : IO UInt32 := do
  let source ← readText a.source
  let options ← readText (a.options.getD a.source)
  match a.run fun path => if path = a.source then source else options with
  | some (.ok result) =>
    IO.println result.text
    return 0
  | some (.error e) =>
    IO.eprintln s!"Error: {e.message}"
    return 1
  | none =>
    IO.eprintln "Error: a loop was cut off"
    return 1

end PlayerScript.CommandLine

/-- Calls a function of a script, as the command line says. -/
def main (words : List String) : IO UInt32 := do
  match PlayerScript.CommandLine.Arguments.parse words with
  | .ok a => a.execute
  | .error .helpRequested =>
    IO.println PlayerScript.CommandLine.usage
    return 0
  | .error .versionRequested =>
    IO.println PlayerScript.CommandLine.UsageFault.versionRequested.message
    return 0
  | .error e =>
    IO.eprintln s!"error: {e.message}\n\n{PlayerScript.CommandLine.usage}"
    return 2
