/-
The interpreter: calling the functions of a source text, building functions, and running code in a
scope. Everything is a computation on the interpreter's state.
-/
import PlayerScript.Eval

namespace PlayerScript.Program

open PlayerScript.Eval

/-- The number of rounds after which a single loop is cut off. -/
def maxRounds : Nat := 0x4000000000000000

/-- Calls a function with a fresh budget. -/
def call (p : Program) (f : FunctionRef) (args : List Value) : Eval Value :=
  invoke (evaluators p maxRounds p.options.recursionLimit) f args []

/-- Calls a function of the source by its name. -/
def callFunction (p : Program) (name : String) (args : List Value) : Eval Value := do
  let f ← ofStep (p.extractFunction name)
  p.call f args

/-- The object under a name. Known values that are no objects are refused. -/
def extractObject (p : Program) (name : String) : Eval Value := do
  match ← ofStep (p.resolveObject name) with
  | .object o => done (.object o)
  | other => fail (.type (.notObject name other.kind))

/-- Builds a function from parameters, code and layers. Its name is minted. Without layers it
closes over a fresh one. -/
def build (p : Program) (params : List String) (body : List Char) (layers : List LayerRef) :
    Eval FunctionRef := fun m =>
  let minted := m.minted + 1
  let (captured, store) := Scope.ofLayers m.store layers
  let m := { m with store := store, minted := minted }
  ofStep (p.compile (Ast.syntheticName minted) ⟨params, body⟩ captured) m

/-- Runs code in a scope within a budget: its value, and whether it returned. -/
def interpretStatement (p : Program) (code : List Char) (scope : Scope) (budget : Nat) :
    Eval (Value × Bool) := do
  let stmts ← ofStep (p.parse code)
  match ← block (evaluators p maxRounds budget) scope stmts .undefined with
  | .normal v => done (v, false)
  | .returned v => done (v, true)
  | .broken | .continued => fail (.malformed .strayLoopControl (String.ofList code))

/-- Evaluates code in a scope within a budget. It must not return. -/
def interpretExpression (p : Program) (code : List Char) (scope : Scope) (budget : Nat) :
    Eval Value := do
  let (v, returned) ← p.interpretStatement code scope budget
  if returned then fail (.malformed .strayReturn (String.ofList code)) else done v

end PlayerScript.Program
