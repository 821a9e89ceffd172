/-
Looking for a text inside a text: what follows a given beginning, and the pieces between the
leftmost, non-overlapping occurrences of a separator.
-/
namespace PlayerScript.Text

/-- The rest of `cs` after `lead`, if `cs` begins with it. -/
def after? : List Char → List Char → Option (List Char)
  | [], cs => some cs
  | _ :: _, [] => none
  | l :: lead, c :: cs => if l = c then after? lead cs else none

/-- Whether `cs` begins with `lead`. -/
def beginsWith (lead cs : List Char) : Bool := (after? lead cs).isSome

/-- Puts a character in front of the first piece. -/
def consFirst (c : Char) : List (List Char) → List (List Char)
  | [] => [[c]]
  | p :: ps => (c :: p) :: ps

/-- The pieces of a text between the occurrences of `sep`, after passing over `skip` characters
that belong to an occurrence already found. -/
def piecesFrom (sep : List Char) : List Char → Nat → List (List Char)
  | [], _ => [[]]
  | _ :: cs, skip + 1 => piecesFrom sep cs skip
  | c :: cs, 0 =>
    if beginsWith sep (c :: cs) then [] :: piecesFrom sep cs (sep.length - 1)
    else consFirst c (piecesFrom sep cs 0)

/-- The pieces of a text between the occurrences of a non-empty separator; for the empty
separator, its single characters. -/
def pieces (sep cs : List Char) : List (List Char) :=
  if sep.isEmpty then cs.map fun c => [c] else piecesFrom sep cs 0

/-- The least position from `start` on at which `needle` occurs in `cs`, where `cs` is what is
left of a text from position `pos` on. -/
def find? (needle : List Char) (start : Nat) : Nat → List Char → Option Nat
  | pos, [] => if start ≤ pos && needle.isEmpty then some pos else none
  | pos, c :: cs =>
    if start ≤ pos && beginsWith needle (c :: cs) then some pos else find? needle start (pos + 1) cs

end PlayerScript.Text
