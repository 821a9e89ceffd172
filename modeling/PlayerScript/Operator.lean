/-
The operators of the language. Binary operators carry no precedence of their own: an expression
is split at the operators in one fixed scan order.
-/
namespace PlayerScript

/-- An operator written before its operand. -/
inductive UnaryOp where
  | neg
  | plus
  | not
  | void
  deriving DecidableEq, Repr

/-- An operator that changes a variable by one. -/
inductive UpdateOp where
  | increment
  | decrement
  deriving DecidableEq, Repr

/-- An operator between two operands. -/
inductive BinaryOp where
  | nullish
  | or
  | and
  | bitOr
  | bitXor
  | bitAnd
  | strictEq
  | strictNe
  | eq
  | ne
  | le
  | ge
  | lt
  | gt
  | shr
  | shl
  | sub
  | add
  | mod
  | div
  | mul
  | pow
  deriving DecidableEq, Repr

namespace BinaryOp

/-- The order in which an expression is searched for operators, the loosest first. -/
def scanOrder : List BinaryOp :=
  [.nullish, .or, .and, .bitOr, .bitXor, .bitAnd, .strictEq, .strictNe, .eq, .ne, .le, .ge, .lt,
    .gt, .shr, .shl, .sub, .add, .mod, .div, .mul, .pow]

/-- How an operator is written. -/
def symbol : BinaryOp → String
  | .nullish => "??"
  | .or => "||"
  | .and => "&&"
  | .bitOr => "|"
  | .bitXor => "^"
  | .bitAnd => "&"
  | .strictEq => "==="
  | .strictNe => "!=="
  | .eq => "=="
  | .ne => "!="
  | .le => "<="
  | .ge => ">="
  | .lt => "<"
  | .gt => ">"
  | .shr => ">>"
  | .shl => "<<"
  | .sub => "-"
  | .add => "+"
  | .mod => "%"
  | .div => "/"
  | .mul => "*"
  | .pow => "**"

/-- The operator written in a given way. -/
def ofSymbol? (s : String) : Option BinaryOp := scanOrder.find? fun op => op.symbol == s

/-- The operators that may be joined with an assignment. -/
def assignable : List BinaryOp :=
  [.add, .sub, .mul, .div, .mod, .pow, .bitAnd, .bitOr, .bitXor, .shl, .shr]

end BinaryOp

/-- An assignment: plain, or joined with an operator. -/
abbrev AssignOp := Option BinaryOp

namespace AssignOp

/-- How an assignment is written. -/
def symbol : AssignOp → String
  | none => "="
  | some op => op.symbol ++ "="

/-- All assignments. -/
def all : List AssignOp := none :: BinaryOp.assignable.map some

/-- The assignment written in a given way. -/
def ofSymbol? (s : String) : Option AssignOp := all.find? fun op => AssignOp.symbol op == s

end AssignOp
end PlayerScript
