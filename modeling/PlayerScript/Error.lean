/-
What can go wrong, by cause. Each cause has one wording, given by the `message` functions; code
is quoted as an excerpt.
-/
import PlayerScript.Text.Excerpt
import PlayerScript.Text.Shown

namespace PlayerScript

/-- What is wrong with a text that is not well formed. -/
inductive Fault where
  | unterminatedComment
  | unterminatedString
  | invalidEscape
  | invalidUnicodeEscape
  | invalidNumber (literal : String)
  | unexpectedCharacter (c : Char)
  | unexpected (c : Char)
  | mismatched (closer : Char)
  | unclosed (closer : String)
  | expected (what : String)
  | invalidDeclaration
  | invalidDefault
  | invalidTarget
  | nestingTooDeep
  | noFunction (name : String)
  | noObject (name : String)
  | strayLoopControl
  | strayReturn
  | other (text : String)
  deriving DecidableEq, Repr

/-- The wording of a fault. -/
def Fault.message : Fault → String
  | .unterminatedComment => "Unterminated comment"
  | .unterminatedString => "Unterminated string"
  | .invalidEscape => "Invalid escape sequence"
  | .invalidUnicodeEscape => "Invalid unicode escape"
  | .invalidNumber literal => "Invalid number " ++ literal
  | .unexpectedCharacter c => "Unexpected character " ++ Text.quotedChar c
  | .unexpected c => "Unexpected " ++ String.singleton c
  | .mismatched closer => "Mismatched " ++ String.singleton closer
  | .unclosed closer => "No terminating paren " ++ closer
  | .expected what => "Expected " ++ what
  | .invalidDeclaration => "Invalid variable declaration"
  | .invalidDefault => "Invalid default clause"
  | .invalidTarget => "Invalid assignment target"
  | .nestingTooDeep => "Nesting too deep"
  | .noFunction name => "Could not find JS function \"" ++ name ++ "\""
  | .noObject name => "Could not find object " ++ name
  | .strayLoopControl => "Illegal break statement"
  | .strayReturn => "Cannot return from an expression"
  | .other text => text

/-- Why a built-in method refuses a call. -/
inductive MethodFault where
  | needsArgument
  | needsOneArgument
  | needsTwoArguments
  | needsOneOrTwoArguments
  | atMostTwoArguments
  | takesNoArguments
  | takesNoLimit
  | needsString
  | needsArray
  | needsSequence
  | needsCallback
  | unsupported
  | other (text : String)
  deriving DecidableEq, Repr

/-- The wording of a refused call. -/
def MethodFault.message : MethodFault → String
  | .needsArgument => "takes at least one argument"
  | .needsOneArgument => "takes exactly one argument"
  | .needsTwoArguments => "takes exactly two arguments"
  | .needsOneOrTwoArguments => "takes one or two arguments"
  | .atMostTwoArguments => "takes at most two arguments"
  | .takesNoArguments => "does not take arguments"
  | .takesNoLimit => "does not support a limit"
  | .needsString => "must be called on a string"
  | .needsArray => "must be called on an array"
  | .needsSequence => "must be called on an array or string"
  | .needsCallback => "callback must be a function"
  | .unsupported => "is not supported"
  | .other text => text

/-- A value of the wrong kind for what is done with it. -/
inductive TypeFault where
  | unbound (name : String)
  | unboundTarget (name : String)
  | invalidIndex (key name : String)
  | indexOutOfRange (index : Nat) (name : String)
  | notIndexable (name kind : String)
  | notCallable (text : String)
  | noProperties (target key : String)
  | noMethod (kind method : String)
  | notObject (name kind : String)
  | other (text : String)
  deriving DecidableEq, Repr

/-- The wording of a type fault. -/
def TypeFault.message : TypeFault → String
  | .unbound name => name ++ " is not defined"
  | .unboundTarget name => "Cannot set index of undefined variable " ++ name
  | .invalidIndex key name => "Invalid array index " ++ key ++ " for " ++ name
  | .indexOutOfRange index name =>
    "Array index " ++ toString index ++ " out of range for " ++ name
  | .notIndexable name kind => "Cannot set index of " ++ name ++ " (" ++ kind ++ ")"
  | .notCallable text => text ++ " is not a function"
  | .noProperties target key =>
    "Cannot read properties of " ++ target ++ " (reading '" ++ key ++ "')"
  | .noMethod kind method => kind ++ "." ++ method ++ " is not a function"
  | .notObject name kind => name ++ " is a " ++ kind ++ ", not an object"
  | .other text => text

/-- A broken expectation of the interpreter itself. -/
inductive InternalFault where
  | loopControlEscaped (name : String)
  | other (text : String)
  deriving DecidableEq, Repr

/-- The wording of an internal fault. -/
def InternalFault.message : InternalFault → String
  | .loopControlEscaped name => "loop control escaped function " ++ name
  | .other text => text

/-- Everything that can go wrong. -/
inductive Error where
  /-- The text is not well formed; the code at fault is quoted. -/
  | malformed (fault : Fault) (code : String)
  /-- The text uses something outside the language; it is quoted. -/
  | unsupported (code : String)
  /-- A built-in method refuses the call. -/
  | method (target name : String) (fault : MethodFault)
  | type (fault : TypeFault)
  /-- The recursion budget is used up. -/
  | recursionLimit
  /-- A value was thrown; this is its text. -/
  | thrown (text : String)
  | internal (fault : InternalFault)
  /-- A file is missing or is not text. -/
  | unreadable
  /-- A text is not JSON, or not of the expected shape. -/
  | invalidJson
  deriving DecidableEq, Repr

namespace Error

/-- The wording of an error. -/
def message : Error → String
  | .malformed fault code =>
    "Syntax error: " ++ String.ofList (Text.trimEnd fault.message.toList) ++ " in: " ++
      Text.excerpt code
  | .unsupported code => "Unsupported JS expression: " ++ Text.excerpt code
  | .method target name fault => target ++ "." ++ name ++ " " ++ fault.message
  | .type fault => "Type error: " ++ fault.message
  | .recursionLimit => "Recursion limit reached"
  | .thrown text => "Uncaught exception " ++ text
  | .internal fault => "Internal interpreter error: " ++ fault.message
  | .unreadable => "IO error"
  | .invalidJson => "JSON error"

/-- Whether the error comes from text that is malformed or outside the language. -/
def isMalformed : Error → Bool
  | .malformed .. | .unsupported _ => true
  | _ => false

/-- Whether the recursion budget was used up. -/
def isRecursionLimit : Error → Bool
  | .recursionLimit => true
  | _ => false

end Error
end PlayerScript
