/-
Tokens: names, numbers, strings and punctuators, each with its place in the source.
-/
import PlayerScript.Operator

namespace PlayerScript

/-- A kind of bracket. -/
inductive Bracket where
  | round
  | square
  | curly
  deriving DecidableEq, Repr

namespace Bracket

/-- The opening bracket. -/
def opener : Bracket → Char
  | .round => '('
  | .square => '['
  | .curly => '\x7b'

/-- The closing bracket. -/
def closer : Bracket → Char
  | .round => ')'
  | .square => ']'
  | .curly => '\x7d'

/-- The kinds of brackets. -/
def all : List Bracket := [.round, .curly, .square]

/-- The kind that a character opens. -/
def ofOpener? (c : Char) : Option Bracket := all.find? fun b => b.opener == c

/-- The kind that a character closes. -/
def ofCloser? (c : Char) : Option Bracket := all.find? fun b => b.closer == c

/-- The closing bracket that belongs to an opening one. -/
def matching? (c : Char) : Option Char := (ofOpener? c).map closer

end Bracket

/-- A punctuator. -/
inductive Punct where
  | opening (b : Bracket)
  | closing (b : Bracket)
  | semicolon
  | comma
  | colon
  | question
  | dot
  | optionalDot
  | not
  | tilde
  | arrow
  | update (op : UpdateOp)
  | binary (op : BinaryOp)
  | assign (op : AssignOp)
  | unsignedShift
  | unsignedShiftAssign
  deriving DecidableEq, Repr

namespace Punct

/-- How a punctuator is written. -/
def symbol : Punct → String
  | .opening b => String.singleton b.opener
  | .closing b => String.singleton b.closer
  | .semicolon => ";"
  | .comma => ","
  | .colon => ":"
  | .question => "?"
  | .dot => "."
  | .optionalDot => "?."
  | .not => "!"
  | .tilde => "~"
  | .arrow => "=>"
  | .update .increment => "++"
  | .update .decrement => "--"
  | .binary op => op.symbol
  | .assign op => AssignOp.symbol op
  | .unsignedShift => ">>>"
  | .unsignedShiftAssign => ">>>="

/-- Every punctuator, the longer ones before those that they begin with. -/
def longestFirst : List Punct :=
  [.unsignedShiftAssign,
    .binary .strictEq, .binary .strictNe, .assign (some .pow), .assign (some .shl),
    .assign (some .shr), .unsignedShift,
    .optionalDot, .binary .nullish, .binary .eq, .binary .ne, .binary .le, .binary .ge,
    .binary .and, .binary .or, .update .increment, .update .decrement, .assign (some .add),
    .assign (some .sub), .assign (some .mul), .assign (some .div), .assign (some .mod),
    .assign (some .bitAnd), .assign (some .bitOr), .assign (some .bitXor), .binary .shl,
    .binary .shr, .binary .pow, .arrow,
    .opening .curly, .closing .curly, .opening .round, .closing .round, .opening .square,
    .closing .square, .semicolon, .comma, .colon, .question, .assign none, .binary .add,
    .binary .sub, .binary .mul, .binary .div, .binary .mod, .binary .bitAnd, .binary .bitOr,
    .binary .bitXor, .not, .binary .lt, .binary .gt, .dot, .tilde]

end Punct

/-- What a token stands for. -/
inductive TokenKind where
  | ident (name : String)
  | number (value : Float)
  | string (value : String)
  | punct (p : Punct)
  deriving Repr

/-- A token and its place in the source: from byte `start` up to byte `stop`. -/
structure Token where
  kind : TokenKind
  start : Nat
  stop : Nat
  deriving Repr

namespace Token

/-- The name, if the token is one. -/
def ident? (t : Token) : Option String :=
  match t.kind with
  | .ident name => some name
  | _ => none

/-- The punctuator, if the token is one. -/
def punct? (t : Token) : Option Punct :=
  match t.kind with
  | .punct p => some p
  | _ => none

/-- Whether the token is a given word. -/
def isWord (t : Token) (word : String) : Bool := t.ident? == some word

/-- Whether the token is a given punctuator. -/
def isPunct (t : Token) (p : Punct) : Bool := t.punct? == some p

end Token
end PlayerScript
