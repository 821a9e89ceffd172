/-
The trees of the language: expressions and statements.
-/
import PlayerScript.Operator

namespace PlayerScript

/-- A value written out in the source. -/
inductive Literal where
  | undefined
  | null
  | bool (b : Bool)
  | number (x : Float)
  | string (s : String)
  deriving Repr

mutual

/-- An expression. -/
inductive Expr where
  | literal (value : Literal)
  | ident (name : String)
  | array (items : List Expr)
  /-- The members are kept in the order of the source. -/
  | object (members : List (String × Expr))
  /-- A function with its own name, or one minted for it. -/
  | function (name : String) (params : List String) (body : List Stmt)
  | unary (op : UnaryOp) (operand : Expr)
  /-- A step of a variable by one; `before` if the operator stands before the name. -/
  | update (op : UpdateOp) (before : Bool) (name : String)
  | binary (op : BinaryOp) (left right : Expr)
  | conditional (test consequent alternate : Expr)
  /-- An assignment to a variable, or to one of its elements. -/
  | assign (name : String) (index : Option Expr) (op : AssignOp) (value : Expr)
  | sequence (items : List Expr)
  | member (object : Expr) (property : Property) (optional : Bool)
  | call (callee : Expr) (args : List Expr)

/-- Which member of an object is meant. -/
inductive Property where
  | name (name : String)
  | computed (key : Expr)

/-- A statement. -/
inductive Stmt where
  | empty
  | expr (e : Expr)
  | var (decls : List (String × Option Expr))
  | returns (value : Option Expr)
  | throws (value : Expr)
  | block (body : List Stmt)
  | ifElse (cond : Expr) (body : Stmt) (otherwise : Option Stmt)
  | forLoop (init : Option Stmt) (cond update : Option Expr) (body : Stmt)
  | switch (selector : Expr) (clauses : List Clause)
  /-- A handler is never run, so only its presence and its parameter are kept. -/
  | tryBlock (body : List Stmt) (handler : Option (Option String)) (cleanup : Option (List Stmt))
  | breaks
  | continues

/-- A clause of a switch; the default clause has no label. -/
inductive Clause where
  | mk (label : Option Expr) (body : List Stmt)

end

/-- A function as written: its name, its parameters and its body. -/
structure FunctionDef where
  name : String
  params : List String
  body : List Stmt

end PlayerScript
