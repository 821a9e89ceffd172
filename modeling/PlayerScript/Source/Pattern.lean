/-
Small patterns on text. A pattern gives every way to match the beginning of a text, as what is
left of it, the preferred way first.
-/
import PlayerScript.Text.Blank
import PlayerScript.Text.Pieces

namespace PlayerScript.Source

/-- A pattern: from a text to what may be left of it, the preferred rest first. -/
abbrev Pattern := List Char → List (List Char)

namespace Pattern

/-- Nothing. -/
def nothing : Pattern := fun cs => [cs]

/-- A given text. -/
def text (lead : List Char) : Pattern := fun cs => (Text.after? lead cs).toList

/-- A given word. -/
def word (s : String) : Pattern := text s.toList

/-- One character for which `p` holds. -/
def one (p : Char → Bool) : Pattern
  | [] => []
  | c :: cs => if p c then [cs] else []

/-- Any number of blanks, rather more than fewer. -/
def blanks : Pattern
  | [] => [[]]
  | c :: cs => if Text.isBlank c then blanks cs ++ [c :: cs] else [c :: cs]

/-- At least one blank, rather more than fewer. -/
def someBlanks : Pattern := fun cs => (one Text.isBlank cs).flatMap blanks

/-- One pattern after another. -/
def andThen (p q : Pattern) : Pattern := fun cs => (p cs).flatMap q

/-- All the patterns in turn. -/
def inOrder (ps : List Pattern) : Pattern := ps.foldr andThen nothing

/-- The first pattern, or else the second. -/
def orElse (p q : Pattern) : Pattern := fun cs => p cs ++ q cs

/-- One of the patterns, the earlier ones preferred. -/
def anyOf (ps : List Pattern) : Pattern := ps.foldr orElse fun _ => []

end Pattern
end PlayerScript.Source
