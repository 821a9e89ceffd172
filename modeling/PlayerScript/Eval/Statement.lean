/-
Running of statements, one level at a time. Loops are bounded by a number of rounds; a loop that
needs more is cut off.
-/
import PlayerScript.Eval.Expression

namespace PlayerScript.Eval

/-- Declares variables in the innermost layer. One that is declared again without a value keeps
the value it has. -/
def declare (parts : Evaluators) (scope : Scope) : List (String × Option Expr) → Eval Unit
  | [] => done ()
  | (name, some init) :: rest => do
    let v ← parts.expr scope init
    change fun store => scope.setLocal store name v
    declare parts scope rest
  | (name, none) :: rest => do
    change fun store =>
      if (scope.getLocal? store name).isSome then store
      else scope.setLocal store name .undefined
    declare parts scope rest

/-- Evaluates an expression that may be left out. -/
def evalOptional (parts : Evaluators) (scope : Scope) (e : Option Expr) : Eval (Option Value) :=
  match e with
  | none => done none
  | some e => do
    let v ← parts.expr scope e
    return some v

/-! ## Loops -/

/-- One round of a loop: the condition, the body and the update. Gives how the loop ends, if it
does. -/
def round (parts : Evaluators) (scope : Scope) (cond update : Option Expr) (body : Stmt) :
    Eval (Option Completion) := do
  let test ← evalOptional parts scope cond
  if (test.map Value.isTruthy).getD true then
    match ← parts.stmt scope body with
    | .broken => done (some (.normal .undefined))
    | .returned v => done (some (.returned v))
    | .normal _ | .continued => do
      let _ ← evalOptional parts scope update
      return none
  else done (some (.normal .undefined))

/-- Repeats a round until the loop ends, at most `rounds` times. -/
def repeatRound (once : Eval (Option Completion)) : Nat → Machine → Outcome Completion
  | 0, _ => .unfinished
  | rounds + 1, m =>
    match once m with
    | .done (some c) m' => .done c m'
    | .done none m' => repeatRound once rounds m'
    | .failed e m' => .failed e m'
    | .unfinished => .unfinished

/-- Runs a loop. -/
def forLoop (rounds : Nat) (parts : Evaluators) (scope : Scope) (init : Option Stmt)
    (cond update : Option Expr) (body : Stmt) : Eval Completion := do
  match init with
  | some s => do
    let _ ← parts.stmt scope s
    repeatRound (round parts scope cond update body) rounds
  | none => repeatRound (round parts scope cond update body) rounds

/-! ## Switches -/

/-- The clauses from the first one whose label is loosely equal to a value on. Labels behind that
one are not evaluated. -/
def matchingClauses (parts : Evaluators) (scope : Scope) (value : Value) :
    List Clause → Eval (Option (List Clause))
  | [] => done none
  | .mk none _ :: rest => matchingClauses parts scope value rest
  | .mk (some label) body :: rest => do
    let v ← parts.expr scope label
    if Value.looseEquals v value then done (some (.mk (some label) body :: rest))
    else matchingClauses parts scope value rest

/-- The clauses from the first default clause on. -/
def defaultClauses : List Clause → List Clause
  | [] => []
  | .mk none body :: rest => .mk none body :: rest
  | .mk (some _) _ :: rest => defaultClauses rest

/-- Runs clauses one after another until a statement does not end normally. -/
def runClauses (parts : Evaluators) (scope : Scope) : List Clause → Eval Completion
  | [] => done (.normal .undefined)
  | .mk _ body :: rest => do
    match ← block parts scope body .undefined with
    | .normal _ => runClauses parts scope rest
    | .broken => done (.normal .undefined)
    | other => done other

/-- Runs a switch: from the clause that matches, or else from the default clause. -/
def switch (parts : Evaluators) (scope : Scope) (selector : Expr) (clauses : List Clause) :
    Eval Completion := do
  let value ← parts.expr scope selector
  let entry ← matchingClauses parts scope value clauses
  runClauses parts scope (entry.getD (defaultClauses clauses))

/-! ## Guarded blocks -/

/-- Runs a clean-up after a computation, however that ended. A clean-up that does not end normally
replaces the outcome. -/
def withCleanup (body clean : Eval Completion) : Eval Completion := fun m =>
  match body m with
  | .unfinished => .unfinished
  | .done c m' =>
    match clean m' with
    | .done (.normal _) m'' => .done c m''
    | other => other
  | .failed e m' =>
    match clean m' with
    | .done (.normal _) m'' => .failed e m''
    | other => other

/-- Runs a guarded block. Errors are not caught. -/
def guarded (parts : Evaluators) (scope : Scope) (body : List Stmt)
    (cleanup : Option (List Stmt)) : Eval Completion :=
  match cleanup with
  | none => block parts scope body .undefined
  | some clean => withCleanup (block parts scope body .undefined) (block parts scope clean .undefined)

/-! ## Statements -/

/-- Runs a statement, given the evaluators for its parts. -/
def stmtStep (rounds : Nat) (parts : Evaluators) (scope : Scope) : Stmt → Eval Completion
  | .empty => done (.normal .undefined)
  | .expr e => do
    let v ← parts.expr scope e
    return .normal v
  | .var decls => do
    declare parts scope decls
    return .normal .undefined
  | .returns e => do
    let v ← evalOptional parts scope e
    return .returned (v.getD .undefined)
  | .throws e => do
    let v ← parts.expr scope e
    let text ← read fun store => v.text store
    fail (.thrown text)
  | .block body => block parts scope body .undefined
  | .ifElse cond body otherwise => do
    let v ← parts.expr scope cond
    if v.isTruthy then parts.stmt scope body
    else
      match otherwise with
      | some s => parts.stmt scope s
      | none => done (.normal .undefined)
  | .forLoop init cond update body => forLoop rounds parts scope init cond update body
  | .switch selector clauses => switch parts scope selector clauses
  | .tryBlock body _ cleanup => guarded parts scope body cleanup
  | .breaks => done .broken
  | .continues => done .continued

end PlayerScript.Eval
