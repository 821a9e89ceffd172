/-
Positions in a text, counted in bytes of its UTF-8 form. Tokens carry such positions, and a
message quotes the part of the source between two of them.
-/
namespace PlayerScript.Text

/-- The number of bytes of a text. -/
def byteLength (cs : List Char) : Nat := cs.foldr (fun c n => c.utf8Size + n) 0

/-- What is left of a text from byte `n` on. -/
def dropBytes : List Char → Nat → List Char
  | [], _ => []
  | c :: cs, n => if n = 0 then c :: cs else dropBytes cs (n - c.utf8Size)

/-- The characters of a text that start before byte `n`. -/
def takeBytes : List Char → Nat → List Char
  | [], _ => []
  | c :: cs, n => if n = 0 then [] else c :: takeBytes cs (n - c.utf8Size)

/-- The part of a text from byte `start` up to byte `stop`. -/
def slice (cs : List Char) (start stop : Nat) : List Char :=
  takeBytes (dropBytes cs start) (stop - start)

/-- Cuts off exactly the first `n` bytes. There is no such cut if the text is shorter, or if the
cut would fall inside a character. -/
def cutBytes? : List Char → Nat → Option (List Char × List Char)
  | cs, 0 => some ([], cs)
  | [], _ + 1 => none
  | c :: cs, n + 1 =>
    if c.utf8Size ≤ n + 1 then
      (cutBytes? cs (n + 1 - c.utf8Size)).map fun cut => (c :: cut.1, cut.2)
    else none

end PlayerScript.Text
