/-
What the operators compute. Bitwise operators work on signed 32-bit integers; a sum joins texts as
soon as one operand is neither a number nor nullish nor boolean.
-/
import PlayerScript.Value.Convert

namespace PlayerScript

namespace Value

/-- Whether a value turns a sum into a joined text. -/
def joinsText : Value → Bool
  | .string _ | .array _ | .object _ | .function _ => true
  | _ => false

/-- The sum of two values. -/
def sum (store : Store) (a b : Value) : Value :=
  if a.joinsText || b.joinsText then .string (a.text store ++ b.text store)
  else .number (a.toNumber store + b.toNumber store)

/-- How two numbers compare; NaN compares with nothing. -/
def compareNumbers? (x y : Float) : Option Ordering :=
  if x < y then some .lt else if x == y then some .eq else if y < x then some .gt else none

/-- How two values compare: strings by their characters, all else as numbers, and undefined with
nothing. -/
def compare? (store : Store) : Value → Value → Option Ordering
  | .undefined, _ => none
  | _, .undefined => none
  | .string s, .string t => some (if s < t then .lt else if s = t then .eq else .gt)
  | a, b => compareNumbers? (a.toNumber store) (b.toNumber store)

/-- Whether two values compare, and in a way that `accepts` holds of. -/
def comparesAs (store : Store) (accepts : Ordering → Bool) (a b : Value) : Value :=
  .bool ((a.compare? store b).any accepts)

/-- A 32-bit operation on the integers of two values. -/
def bitwise (store : Store) (f : BitVec 32 → BitVec 32 → BitVec 32) (a b : Value) : Value :=
  .ofInt (f (BitVec.ofInt 32 (a.toInt32 store)) (BitVec.ofInt 32 (b.toInt32 store))).toInt

/-- An operation on the numbers of two values. -/
def arithmetic (store : Store) (f : Float → Float → Float) (a b : Value) : Value :=
  .number (f (a.toNumber store) (b.toNumber store))

end Value

open Value in
/-- The value of a binary operator for evaluated operands. -/
def BinaryOp.apply (store : Store) (a b : Value) : BinaryOp → Value
  | .nullish => if a.isNullish then b else a
  | .or => if a.isTruthy then a else b
  | .and => if a.isTruthy then b else a
  | .bitOr => bitwise store (· ||| ·) a b
  | .bitXor => bitwise store (· ^^^ ·) a b
  | .bitAnd => bitwise store (· &&& ·) a b
  | .shr => bitwise store (fun x y => x.sshiftRight (y.toNat % 32)) a b
  | .shl => bitwise store (fun x y => x <<< (y.toNat % 32)) a b
  | .strictEq => .bool (strictEquals a b)
  | .strictNe => .bool (!strictEquals a b)
  | .eq => .bool (looseEquals a b)
  | .ne => .bool (!looseEquals a b)
  | .lt => comparesAs store Ordering.isLT a b
  | .le => comparesAs store Ordering.isLE a b
  | .gt => comparesAs store Ordering.isGT a b
  | .ge => comparesAs store Ordering.isGE a b
  | .add => sum store a b
  | .sub => arithmetic store (· - ·) a b
  | .mul => arithmetic store (· * ·) a b
  | .div => arithmetic store (· / ·) a b
  | .mod => arithmetic store Number.remainder a b
  | .pow => arithmetic store Number.power a b

/-- Whether the left operand alone settles a binary operator. -/
def BinaryOp.settledBy (a : Value) : BinaryOp → Bool
  | .nullish => !a.isNullish
  | .or => a.isTruthy
  | .and => !a.isTruthy
  | _ => false

/-- The value of an operator written before its operand. -/
def UnaryOp.apply (store : Store) (v : Value) : UnaryOp → Value
  | .neg => .number (-(v.toNumber store))
  | .plus => .number (v.toNumber store)
  | .not => .bool (!v.isTruthy)
  | .void => .undefined

/-- The number that a step by one leads to. -/
def UpdateOp.apply (x : Float) : UpdateOp → Float
  | .increment => x + 1.0
  | .decrement => x - 1.0

/-- What an assignment stores, given the current value and the one assigned. -/
def AssignOp.apply (store : Store) (current value : Value) : AssignOp → Value
  | some op => op.apply store current value
  | none => value

end PlayerScript
