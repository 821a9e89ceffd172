/-
How the functions of a text are named. The functions of a tree are listed in the order in which they
begin in the text, an outer one before those inside of it. Parsing names those that have no name of
their own after their number in this list, counted on from the names minted before.
-/
import PlayerScript.Proofs.Ast.Survey.Counts

namespace PlayerScript.Ast

/-! ## The functions of a tree -/

mutual

/-- The names of the functions in an expression. -/
def exprFunctions : Expr → List String
  | .literal _ | .ident _ | .update _ _ _ => []
  | .array items | .sequence items => exprsFunctions items
  | .object members => membersFunctions members
  | .function name _ body => name :: bodyFunctions body
  | .unary _ operand => exprFunctions operand
  | .binary _ left right => exprFunctions left ++ exprFunctions right
  | .conditional test consequent alternate =>
    exprFunctions test ++ (exprFunctions consequent ++ exprFunctions alternate)
  | .assign _ index _ value => optionFunctions index ++ exprFunctions value
  | .member object property _ => exprFunctions object ++ propertyFunctions property
  | .call callee args => exprFunctions callee ++ exprsFunctions args

/-- The names of the functions in a list of expressions. -/
def exprsFunctions : List Expr → List String
  | [] => []
  | e :: rest => exprFunctions e ++ exprsFunctions rest

/-- The names of the functions in the members of an object. -/
def membersFunctions : List (String × Expr) → List String
  | [] => []
  | (_, e) :: rest => exprFunctions e ++ membersFunctions rest

/-- The names of the functions in the key of a member. -/
def propertyFunctions : Property → List String
  | .name _ => []
  | .computed key => exprFunctions key

/-- The names of the functions in an expression that may be absent. -/
def optionFunctions : Option Expr → List String
  | none => []
  | some e => exprFunctions e

/-- The names of the functions in declared variables. -/
def declsFunctions : List (String × Option Expr) → List String
  | [] => []
  | (_, value) :: rest => optionFunctions value ++ declsFunctions rest

/-- The names of the functions in a statement. -/
def stmtFunctions : Stmt → List String
  | .empty | .breaks | .continues => []
  | .expr e | .throws e => exprFunctions e
  | .var decls => declsFunctions decls
  | .returns value => optionFunctions value
  | .block body => bodyFunctions body
  | .ifElse cond body otherwise =>
    exprFunctions cond ++ (stmtFunctions body ++ branchFunctions otherwise)
  | .forLoop init cond update body =>
    branchFunctions init ++ (optionFunctions cond ++ (optionFunctions update ++ stmtFunctions body))
  | .switch selector clauses => exprFunctions selector ++ clausesFunctions clauses
  | .tryBlock body _ none => bodyFunctions body
  | .tryBlock body _ (some cleanup) => bodyFunctions body ++ bodyFunctions cleanup

/-- The names of the functions in a statement that may be absent. -/
def branchFunctions : Option Stmt → List String
  | none => []
  | some s => stmtFunctions s

/-- The names of the functions in a list of statements. -/
def bodyFunctions : List Stmt → List String
  | [] => []
  | s :: rest => stmtFunctions s ++ bodyFunctions rest

/-- The names of the functions in the clauses of a switch. -/
def clausesFunctions : List Clause → List String
  | [] => []
  | .mk label body :: rest => optionFunctions label ++ (bodyFunctions body ++ clausesFunctions rest)

end

/-! ## Numbers -/

/-- What is known gives the functions of results: they have the names that were met. -/
def Lists {α : Type} (functions : α → List String) : Account Nat α :=
  fun names a => ∀ i, functions (a i) = names.map fun name => name i

/-- Trees of which the functions are those that were met. -/
def listed : Trees Nat := ⟨Lists exprFunctions, Lists stmtFunctions⟩

variable {names : List (Nat → String)}

end PlayerScript.Ast
