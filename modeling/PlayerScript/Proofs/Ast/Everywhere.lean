/-
Conditions on all that stands in a tree. A condition holds everywhere in an expression or a statement
if it holds of every statement in it, those in the bodies of functions included, and of every name
that stands for a value.
-/
import PlayerScript.Ast.Basic

namespace PlayerScript.Ast

/-- A condition on trees. -/
structure Condition where
  stmt : Stmt → Prop
  name : String → Prop

/-- A condition on statements asks nothing of names. -/
instance : Coe (Stmt → Prop) Condition := ⟨fun P => ⟨P, fun _ => True⟩⟩

/-- Nothing is asked. -/
def Condition.always : Condition := ⟨fun _ => True, fun _ => True⟩

mutual

/-- The condition holds everywhere in an expression. -/
def exprAll (P : Condition) : Expr → Prop
  | .literal _ => True
  | .ident name => P.name name
  | .array items => exprsAll P items
  | .object members => membersAll P members
  | .function _ _ body => bodyAll P body
  | .unary _ operand => exprAll P operand
  | .update _ _ _ => True
  | .binary _ left right => exprAll P left ∧ exprAll P right
  | .conditional test consequent alternate =>
    exprAll P test ∧ exprAll P consequent ∧ exprAll P alternate
  | .assign _ index _ value => optionAll P index ∧ exprAll P value
  | .sequence items => exprsAll P items
  | .member object property _ => exprAll P object ∧ propertyAll P property
  | .call callee args => exprAll P callee ∧ exprsAll P args

/-- The condition holds everywhere in a list of expressions. -/
def exprsAll (P : Condition) : List Expr → Prop
  | [] => True
  | e :: rest => exprAll P e ∧ exprsAll P rest

/-- The condition holds everywhere in the members of an object. -/
def membersAll (P : Condition) : List (String × Expr) → Prop
  | [] => True
  | (_, e) :: rest => exprAll P e ∧ membersAll P rest

/-- The condition holds everywhere in the key of a member. -/
def propertyAll (P : Condition) : Property → Prop
  | .name _ => True
  | .computed key => exprAll P key

/-- The condition holds everywhere in an expression that may be absent. -/
def optionAll (P : Condition) : Option Expr → Prop
  | none => True
  | some e => exprAll P e

/-- The condition holds everywhere in declared variables. -/
def declsAll (P : Condition) : List (String × Option Expr) → Prop
  | [] => True
  | (_, value) :: rest => optionAll P value ∧ declsAll P rest

/-- The condition holds of a statement and of all in it. -/
def stmtAll (P : Condition) : Stmt → Prop
  | .empty => P.stmt .empty
  | .expr e => P.stmt (.expr e) ∧ exprAll P e
  | .var decls => P.stmt (.var decls) ∧ declsAll P decls
  | .returns value => P.stmt (.returns value) ∧ optionAll P value
  | .throws value => P.stmt (.throws value) ∧ exprAll P value
  | .block body => P.stmt (.block body) ∧ bodyAll P body
  | .ifElse cond body none =>
    P.stmt (.ifElse cond body none) ∧ exprAll P cond ∧ stmtAll P body
  | .ifElse cond body (some otherwise) =>
    P.stmt (.ifElse cond body (some otherwise)) ∧ exprAll P cond ∧ stmtAll P body ∧ stmtAll P otherwise
  | .forLoop none cond update body =>
    P.stmt (.forLoop none cond update body) ∧ optionAll P cond ∧ optionAll P update ∧ stmtAll P body
  | .forLoop (some init) cond update body =>
    P.stmt (.forLoop (some init) cond update body) ∧ optionAll P cond ∧ optionAll P update ∧
      stmtAll P body ∧ stmtAll P init
  | .switch selector clauses =>
    P.stmt (.switch selector clauses) ∧ exprAll P selector ∧ clausesAll P clauses
  | .tryBlock body handler none => P.stmt (.tryBlock body handler none) ∧ bodyAll P body
  | .tryBlock body handler (some cleanup) =>
    P.stmt (.tryBlock body handler (some cleanup)) ∧ bodyAll P body ∧ bodyAll P cleanup
  | .breaks => P.stmt .breaks
  | .continues => P.stmt .continues

/-- The condition holds everywhere in a list of statements. -/
def bodyAll (P : Condition) : List Stmt → Prop
  | [] => True
  | s :: rest => stmtAll P s ∧ bodyAll P rest

/-- The condition holds everywhere in the clauses of a switch. -/
def clausesAll (P : Condition) : List Clause → Prop
  | [] => True
  | .mk label body :: rest => optionAll P label ∧ bodyAll P body ∧ clausesAll P rest

end

mutual

theorem exprAll_true : ∀ e : Expr, exprAll Condition.always e
  | .literal _ => trivial
  | .ident _ => trivial
  | .array items => exprsAll_true items
  | .object members => membersAll_true members
  | .function _ _ body => bodyAll_true body
  | .unary _ operand => exprAll_true operand
  | .update _ _ _ => trivial
  | .binary _ left right => ⟨exprAll_true left, exprAll_true right⟩
  | .conditional test consequent alternate =>
    ⟨exprAll_true test, exprAll_true consequent, exprAll_true alternate⟩
  | .assign _ index _ value => ⟨optionAll_true index, exprAll_true value⟩
  | .sequence items => exprsAll_true items
  | .member object property _ => ⟨exprAll_true object, propertyAll_true property⟩
  | .call callee args => ⟨exprAll_true callee, exprsAll_true args⟩

theorem exprsAll_true : ∀ es : List Expr, exprsAll Condition.always es
  | [] => trivial
  | e :: rest => ⟨exprAll_true e, exprsAll_true rest⟩

theorem membersAll_true : ∀ members : List (String × Expr), membersAll Condition.always members
  | [] => trivial
  | (_, e) :: rest => ⟨exprAll_true e, membersAll_true rest⟩

theorem propertyAll_true : ∀ property : Property, propertyAll Condition.always property
  | .name _ => trivial
  | .computed key => exprAll_true key

theorem optionAll_true : ∀ value : Option Expr, optionAll Condition.always value
  | none => trivial
  | some e => exprAll_true e

theorem declsAll_true : ∀ decls : List (String × Option Expr), declsAll Condition.always decls
  | [] => trivial
  | (_, value) :: rest => ⟨optionAll_true value, declsAll_true rest⟩

theorem stmtAll_true : ∀ s : Stmt, stmtAll Condition.always s
  | .empty => trivial
  | .expr e => ⟨trivial, exprAll_true e⟩
  | .var decls => ⟨trivial, declsAll_true decls⟩
  | .returns value => ⟨trivial, optionAll_true value⟩
  | .throws value => ⟨trivial, exprAll_true value⟩
  | .block body => ⟨trivial, bodyAll_true body⟩
  | .ifElse cond body none => ⟨trivial, exprAll_true cond, stmtAll_true body⟩
  | .ifElse cond body (some otherwise) =>
    ⟨trivial, exprAll_true cond, stmtAll_true body, stmtAll_true otherwise⟩
  | .forLoop none cond update body =>
    ⟨trivial, optionAll_true cond, optionAll_true update, stmtAll_true body⟩
  | .forLoop (some init) cond update body =>
    ⟨trivial, optionAll_true cond, optionAll_true update, stmtAll_true body, stmtAll_true init⟩
  | .switch selector clauses => ⟨trivial, exprAll_true selector, clausesAll_true clauses⟩
  | .tryBlock body _ none => ⟨trivial, bodyAll_true body⟩
  | .tryBlock body _ (some cleanup) => ⟨trivial, bodyAll_true body, bodyAll_true cleanup⟩
  | .breaks => trivial
  | .continues => trivial

theorem bodyAll_true : ∀ stmts : List Stmt, bodyAll Condition.always stmts
  | [] => trivial
  | s :: rest => ⟨stmtAll_true s, bodyAll_true rest⟩

theorem clausesAll_true : ∀ clauses : List Clause, clausesAll Condition.always clauses
  | [] => trivial
  | .mk label body :: rest => ⟨optionAll_true label, bodyAll_true body, clausesAll_true rest⟩

end

end PlayerScript.Ast
