/-
Code quoted in a message: trimmed, and when long shown by its first and last fifty characters.
-/
import PlayerScript.Text.Blank

namespace PlayerScript.Text

/-- The number of characters an excerpt keeps on each side. -/
def excerptSide : Nat := 50

/-- A quotation of code for a message. -/
def excerpt (code : String) : String :=
  let cs := trim code.toList
  if cs.length ≤ 2 * excerptSide + 3 then String.ofList cs
  else
    String.ofList (cs.take excerptSide) ++ "..." ++ String.ofList (cs.drop (cs.length - excerptSide))

end PlayerScript.Text
