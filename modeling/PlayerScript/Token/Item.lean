/-
Bracketed structure of a token list. Tokens are grouped by their brackets once, up front; the
parser then works on lists of items, so that a top-level search never looks inside a group.
-/
import PlayerScript.Error
import PlayerScript.Text.Bytes
import PlayerScript.Token.Basic

namespace PlayerScript

/-- A token that is no bracket, or a group of items between two brackets of one kind. -/
inductive Item where
  | leaf (token : Token)
  | group (bracket : Bracket) (opening closing : Token) (items : List Item)

/-- A part of the source, from byte `start` up to byte `stop`. -/
structure Span where
  start : Nat
  stop : Nat
  deriving DecidableEq, Repr

namespace Span

/-- The span of no text. -/
def none : Span := ⟨0, 0⟩

/-- The text of a span. -/
def text (source : List Char) (span : Span) : String :=
  String.ofList (Text.slice source span.start span.stop)

end Span

namespace Token

/-- The place of a token. -/
def span (t : Token) : Span := ⟨t.start, t.stop⟩

end Token

namespace Item

/-- The first token of an item. -/
def first : Item → Token
  | .leaf t => t
  | .group _ opening _ _ => opening

/-- The last token of an item. -/
def last : Item → Token
  | .leaf t => t
  | .group _ _ closing _ => closing

/-- The part of the source that a list of items covers. -/
def spanOf (items : List Item) : Span :=
  match items.head?, items.getLast? with
  | some first, some last => ⟨first.first.start, last.last.stop⟩
  | _, _ => Span.none

/-- The name, if the item is one. -/
def ident? : Item → Option String
  | .leaf t => t.ident?
  | .group .. => none

/-- Whether the item is a given word. -/
def isWord (item : Item) (word : String) : Bool := item.ident? == some word

/-- Whether the item is a given punctuator. -/
def isPunct (item : Item) (p : Punct) : Bool :=
  match item with
  | .leaf t => t.isPunct p
  | .group .. => false

mutual

/-- The tokens of an item, brackets included. -/
def tokens : Item → List Token
  | .leaf t => [t]
  | .group _ opening closing items => opening :: (tokensOf items ++ [closing])

/-- The tokens of a list of items. -/
def tokensOf : List Item → List Token
  | [] => []
  | item :: rest => tokens item ++ tokensOf rest

end

/-- A group that is still open: its opening token, and the items before it, the last one first. -/
structure Open where
  bracket : Bracket
  opening : Token
  before : List Item

/-- Groups the rest of a token list, given the items of the innermost open group, the last one
first, and the groups that are open around it, the innermost first. A closing bracket has to
belong to the innermost open group. -/
def groupFrom (source : List Char) : List Item → List Open → List Token → Except Error (List Item)
  | items, [], [] => .ok items.reverse
  | _, opened :: _, [] =>
    .error (.malformed (.unclosed (String.singleton opened.bracket.closer))
      (String.ofList (Text.dropBytes source opened.opening.start)))
  | items, stack, token :: rest =>
    match token.kind with
    | .punct (.opening b) => groupFrom source [] (⟨b, token, items⟩ :: stack) rest
    | .punct (.closing b) =>
      match stack with
      | [] =>
        .error (.malformed (.unexpected b.closer)
          (String.ofList (Text.dropBytes source token.start)))
      | opened :: stack =>
        if opened.bracket = b then
          groupFrom source (.group b opened.opening token items.reverse :: opened.before) stack rest
        else
          .error (.malformed (.mismatched b.closer)
            (Span.text source ⟨opened.opening.start, token.stop⟩))
    | _ => groupFrom source (.leaf token :: items) stack rest

/-- Groups a token list by its brackets. -/
def group? (source : List Char) (tokens : List Token) : Except Error (List Item) :=
  groupFrom source [] [] tokens

end Item
end PlayerScript
