/-
Taking functions and objects out of the source. Each is looked for and parsed once; what was found
stays in a memo under its name.
-/
import PlayerScript.Ast.Parser
import PlayerScript.Eval.Machine
import PlayerScript.Source.Declaration

namespace PlayerScript.Program

/-- Parses code. The names minted on the way are counted in any case. -/
def parse (p : Program) (code : List Char) (m : Machine) : Except Error (List Stmt) × Machine :=
  let (parsed, minted) := Ast.parseStatements code p.options.maxNesting m.minted
  (parsed, { m with minted := minted })

/-- Makes a function from its name, parameters, code and scope. -/
def compile (p : Program) (name : String) (code : Source.FunctionCode) (captured : Scope)
    (m : Machine) : Except Error FunctionRef × Machine :=
  match p.parse code.body m with
  | (.error e, m) => (.error e, m)
  | (.ok body, m) =>
    let (f, store) := m.store.addClosure ⟨⟨name, code.params, body⟩, captured⟩
    (.ok f, { m with store := store })

/-- The scope of the functions of the source. -/
def globalScope : Scope := ⟨LayerRef.globals, []⟩

/-- Takes a function out of the source. -/
def extractFunction (p : Program) (name : String) : Machine → Except Error FunctionRef × Machine :=
  Machine.functionMemo.fetch name fun m =>
    match Source.functionCode p.source name with
    | .error e => (.error e, m)
    | .ok code => p.compile name code globalScope m

/-- Makes the members of an object from the codes of its fields. There is no object when a field
is no function. -/
def compileFields (p : Program) :
    List (List Char) → Table Value → Machine → Except Error (Option (Table Value)) × Machine
  | [], members, m => (.ok (some members), m)
  | code :: rest, members, m =>
    match Source.field code with
    | .error e => (.error e, m)
    | .ok .blank => compileFields p rest members m
    | .ok .other => (.ok none, m)
    | .ok (.function key code) =>
      match p.compile key code globalScope m with
      | (.error e, m) => (.error e, m)
      | (.ok f, m) => compileFields p rest (members.insert key (.function f)) m

/-- Makes an object from the first of the given codes that is one of functions only. -/
def compileObject (p : Program) (name : String) :
    List (List Char) → Machine → Except Error (Table Value) × Machine
  | [], m => (.error (.malformed (.noObject name) name), m)
  | code :: rest, m =>
    match Source.separateAtBracket code none with
    | .error _ => compileObject p name rest m
    | .ok (body, _) =>
      match p.compileFields (Source.fieldCodes body) Table.empty m with
      | (.error e, m) => (.error e, m)
      | (.ok (some members), m) => (.ok members, m)
      | (.ok none, m) => compileObject p name rest m

/-- The object under a name: a known one, or one taken out of the source. -/
def resolveObject (p : Program) (name : String) : Machine → Except Error Value × Machine :=
  Machine.objectMemo.fetch name fun m =>
    match p.compileObject name (Source.objectCodes p.source name) m with
    | (.error e, m) => (.error e, m)
    | (.ok members, m) =>
      let (value, store) := m.store.addObject members
      (.ok value, { m with store := store })

end PlayerScript.Program
