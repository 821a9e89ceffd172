/-
The limits of an interpreter.
-/
namespace PlayerScript

/-- How deep a program may recurse and how deep its text may nest. -/
structure Options where
  recursionLimit : Nat
  maxNesting : Nat
  deriving DecidableEq, Repr

namespace Options

/-- The limits that hold unless others are given. -/
def standard : Options := ⟨100, 256⟩

end Options
end PlayerScript
