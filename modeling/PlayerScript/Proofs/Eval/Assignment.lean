/-
Assignments to a place of an array or an object. The array or object is looked up first, and only then
are the index and the value evaluated, which may change it or bind its name to something else. What is
written in the end is one place of it, or nothing at all.
-/
import PlayerScript.Proofs.Eval.Confinement
import PlayerScript.Proofs.Eval.Steps
import PlayerScript.Proofs.Eval.Tracing
import PlayerScript.Proofs.Number.Texts

namespace PlayerScript

open Ast Eval

/-! ## Places -/

section

variable {store : Store} {key : Value} (value : Value) (op : AssignOp) (name : String)

end

/-! ## Cells stay -/

end PlayerScript
