/-
The evaluator. Every nested statement or expression spends one unit of a budget; a part that finds
the budget empty fails with the recursion limit. A call passes on what is left of the budget.
-/
import PlayerScript.Eval.Statement

namespace PlayerScript.Eval

mutual

/-- Evaluates an expression within a budget. -/
def evalExpr (p : Program) (rounds : Nat) : Nat → Scope → Expr → Eval Value
  | 0, _, _ => fail .recursionLimit
  | budget + 1, scope, e =>
    exprStep p ⟨evalExpr p rounds budget, execStmt p rounds budget⟩ scope e

/-- Runs a statement within a budget. -/
def execStmt (p : Program) (rounds : Nat) : Nat → Scope → Stmt → Eval Completion
  | 0, _, _ => fail .recursionLimit
  | budget + 1, scope, s =>
    stmtStep rounds ⟨evalExpr p rounds budget, execStmt p rounds budget⟩ scope s

end

/-- The evaluators within a budget. -/
def evaluators (p : Program) (rounds budget : Nat) : Evaluators :=
  ⟨evalExpr p rounds budget, execStmt p rounds budget⟩

end PlayerScript.Eval
