/-
The bitwise operators. The number of a value is cut to an integer and reduced to a signed 32-bit word;
the operators work on the residues of the words of their operands, as two's complement does, and give
a word that is a number exactly.
-/
import PlayerScript.Proofs.Number.Words
import PlayerScript.Value.Operation

namespace PlayerScript

open Number

namespace Number

/-! ## Words and residues -/

end Number

/-! ## The operators -/

/-- The operators that work on words. -/
def BinaryOp.bitwise : List BinaryOp := [.bitOr, .bitXor, .bitAnd, .shl, .shr]

namespace Value

variable (store : Store) (a b : Value)

end Value

end PlayerScript
