/-
Two ways to find the bracket that closes a text. The splitter counts brackets of each kind, character
by character, outside quotations; the parser puts the tokens that open a bracket on a stack. For a text
without comments whose brackets match, both find the same one.
-/
import PlayerScript.Proofs.Ast.Ranges.Closedness
import PlayerScript.Proofs.Source.Nesting

namespace PlayerScript

open PlayerScript.Text PlayerScript.Token

/-! ## Tokens of lexemes -/

namespace Token

theorem length_tokensAt (pos : Nat) (ls : List Lexeme) :
    (tokensAt pos ls).length = (ls.filterMap Lexeme.value).length := by
  rw [← kind_tokensAt pos ls, List.length_map]

/-- The lexemes around the first token behind some others. -/
theorem lexemes_around {ls : List Lexeme} {kinds kinds' : List TokenKind} {kind : TokenKind}
    (h : ls.filterMap Lexeme.value = kinds ++ kind :: kinds') :
    ∃ front raw back, ls = front ++ ⟨some kind, raw⟩ :: back ∧ front.filterMap Lexeme.value = kinds ∧
      back.filterMap Lexeme.value = kinds' := by
  obtain ⟨front, more, rfl, hfront, hmore⟩ := List.filterMap_eq_append_iff.1 h
  obtain ⟨blanks, ⟨value, raw⟩, back, rfl, hblanks, hvalue, hback⟩ := List.filterMap_eq_cons_iff.1 hmore
  cases hvalue
  refine ⟨front ++ blanks, raw, back, (List.append_assoc ..).symm, ?_, hback⟩
  rw [List.filterMap_append, hfront, List.filterMap_eq_nil_iff.2 hblanks, List.append_nil]

theorem lexeme_opener (b : Bracket) (cs : List Char) :
    lexeme b.opener cs = .ok ⟨some (.punct (.opening b)), [b.opener], cs⟩ := by
  cases b <;> rfl

end Token

/-! ## Groups and partners -/

namespace Ast.Ranges

/-- A range has as many tokens as its shapes. -/
theorem Holds.length_kinds {l : Layout} {lo hi : Nat} {items : List Item} (h : Holds l lo hi items) :
    lo + (Shape.kindsOf (items.map Item.shape)).length = hi := by
  induction h with
  | nil => rfl
  | leaf _ _ _ _ ih =>
    rw [List.map_cons, Shape.kindsOf, Item.shape_leaf, Shape.kinds, List.length_append,
      List.length_singleton]
    omega
  | group _ _ _ _ _ _ _ _ ih₁ ih₂ =>
    rw [List.map_cons, Shape.kindsOf, Item.shape_group, Shape.kinds, List.length_append,
      List.length_cons, List.length_append, List.length_singleton]
    omega

/-- Brackets can be grouped if their partners are found. -/
theorem groupFrom_ok {source : List Char} {tokens : List Token} {i : Nat} {stack : List Opening}
    {partners final : Array (Option Nat)} {items : List Item} {opens : List Item.Open}
    (hstack : List.Forall₂ (fun op opened => op.bracket = opened.bracket ∧ op.token = opened.opening)
      stack opens)
    (h : partnersFrom source i stack partners tokens = .ok final) :
    ∃ all, Item.groupFrom source items opens tokens = .ok all :=
  ok_of_ends (partnersFrom_ends hstack) h

end Ast.Ranges

namespace Source

open Ast.Ranges

/-! ## The closing bracket -/

theorem raw_of_closing {b : Bracket} {raw : List Char}
    (h : Nesting.Counts ⟨some (.punct (.closing b)), raw⟩) : raw = [b.closer] := by
  generalize hl : (⟨some (.punct (.closing b)), raw⟩ : Lexeme) = l at h
  cases h with
  | opening b' => cases hl
  | closing b' =>
    cases hl
    rfl
  | other hvalue _ =>
    cases hl
    cases hvalue _ rfl

/-- The lexemes of a text that begins with an opening bracket, up to its partner and behind it. -/
theorem lexemes_of_group {b : Bracket} {rest : List Char} {ls : List Lexeme} {items : List Item}
    (hsplits : Splits (b.opener :: rest) ls [])
    (hgroup : Item.group? (b.opener :: rest) (tokensAt 0 ls) = .ok items) :
    ∃ o c inner more mid raw back, items = .group b o c inner :: more ∧
      ls = ⟨some (.punct (.opening b)), [b.opener]⟩ :: (mid ++ ⟨some (.punct (.closing b)), raw⟩ :: back) ∧
      mid.filterMap Lexeme.value = Shape.kindsOf (inner.map Item.shape) ∧
      Shape.allOf (fun _ => true) (inner.map Item.shape) = true := by
  obtain ⟨hkinds, hall⟩ := Item.kinds_of_group (p := fun _ => true) hgroup (by simp)
  rw [kind_tokensAt] at hkinds
  cases hsplits with
  | @cons _ _ s ls _ hlex hsplits =>
    rw [lexeme_opener] at hlex
    cases hlex
    rw [List.filterMap_cons] at hkinds
    -- the first item begins with the opening bracket, so it is a group
    cases items with
    | nil => cases hkinds
    | cons item more =>
      rw [List.map_cons, Shape.kindsOf] at hkinds
      rw [List.map_cons, Shape.allOf, Bool.and_eq_true] at hall
      cases item with
      | leaf t =>
        rw [Item.shape_leaf, Shape.kinds] at hkinds
        have hkind : .punct (.opening b) = t.kind := (List.cons.inj hkinds).1
        rw [Item.shape_leaf, Shape.all, ← hkind] at hall
        cases hall.1
      | group b' o c inner =>
        rw [Item.shape_group, Shape.kinds, List.cons_append, List.append_assoc] at hkinds
        obtain ⟨hb, hkinds⟩ := List.cons.inj hkinds
        cases hb
        obtain ⟨mid, raw, back, rfl, hmid, -⟩ := lexemes_around hkinds
        rw [Item.shape_group, Shape.all] at hall
        exact ⟨o, c, inner, more, mid, raw, back, rfl, rfl, hmid, hall.1⟩

/-- A text that begins with an opening bracket, that has no comments and whose brackets match is cut
at the partner of its first token: what is found is the text between the two tokens and the text
behind the second one, without the blanks around. -/
theorem separateAtBracket_at_partner {text : List Char} {b : Bracket} {tokens : List Token}
    {partners : Array (Option Nat)} (hopening : text.head? = some b.opener)
    (hplain : Uncommented text) (htokens : tokenize text = .ok tokens)
    (hpartners : partners? text tokens = .ok partners) :
    ∃ first partner j, tokens[0]? = some first ∧ partners[0]? = some (some j) ∧
      tokens[j]? = some partner ∧ separateAtBracket text none =
        .ok (trim (slice text first.stop partner.start), trim (dropBytes text partner.stop)) := by
  obtain ⟨ls, hsplits, hfree⟩ := hplain
  rw [tokenize_iff.2 ⟨ls, hsplits, rfl⟩] at htokens
  cases htokens
  obtain ⟨rest, rfl⟩ : ∃ rest, text = b.opener :: rest := by
    cases text with
    | nil => cases hopening
    | cons c rest =>
      cases hopening
      exact ⟨rest, rfl⟩
  have hcounts := Nesting.counts_of_splits hsplits (Nesting.harmless_of_commentFree hfree)
  have htext := hsplits.eq_append
  obtain ⟨items, hgroup⟩ : ∃ items, Item.group? (b.opener :: rest) (tokensAt 0 ls) = .ok items :=
    groupFrom_ok .nil hpartners
  obtain ⟨partners', hpartners', hholds⟩ := layout_holds hgroup
  rw [hpartners] at hpartners'
  cases hpartners'
  obtain ⟨o, c, inner, more, mid, raw, back, rfl, rfl, hmid, hall⟩ := lexemes_of_group hsplits hgroup
  rw [List.forall_mem_cons, List.forall_mem_append, List.forall_mem_cons] at hcounts
  obtain rfl := raw_of_closing hcounts.2.2.1
  -- the places of the two tokens
  have hone : byteLength [b.opener] = 1 := by cases b <;> rfl
  have hsame : byteLength [b.closer] = 1 := by cases b <;> rfl
  have htokens : tokensAt 0 (⟨some (.punct (.opening b)), [b.opener]⟩ ::
      (mid ++ ⟨some (.punct (.closing b)), [b.closer]⟩ :: back)) =
      ⟨.punct (.opening b), 0, 1⟩ :: (tokensAt 1 mid ++
        ⟨.punct (.closing b), 1 + byteLength (rawOf mid), 2 + byteLength (rawOf mid)⟩ ::
          tokensAt (2 + byteLength (rawOf mid)) back) := by
    have hstop : 1 + byteLength (rawOf mid) + 1 = 2 + byteLength (rawOf mid) := by omega
    rw [tokensAt, hone, Nat.zero_add, tokensAt_append, tokensAt, hsame, hstop]
  rw [htokens] at hholds ⊢
  cases hholds with
  | @group _ close _ _ _ _ _ _ ho _ hop hinner _ _ _ _ =>
    have hclose : close = (tokensAt 1 mid).length + 1 := by
      rw [length_tokensAt, hmid, ← hinner.length_kinds]
      omega
    refine ⟨_, ⟨.punct (.closing b), 1 + byteLength (rawOf mid), 2 + byteLength (rawOf mid)⟩, close, rfl,
      hop, ?_, ?_⟩
    · rw [hclose, List.getElem?_cons_succ, List.getElem?_append_right (Nat.le_refl _), Nat.sub_self]
      rfl
    · rw [List.append_nil, rawOf_cons, rawOf_append, rawOf_cons] at htext
      obtain rfl : rest = rawOf mid ++ b.closer :: rawOf back := (List.cons.inj htext).2
      have hbetween : slice (b.opener :: (rawOf mid ++ b.closer :: rawOf back)) 1
          (1 + byteLength (rawOf mid)) = rawOf mid := by
        have := slice_append [b.opener] (rawOf mid) (b.closer :: rawOf back)
        rwa [hone] at this
      have hbehind : dropBytes (b.opener :: (rawOf mid ++ b.closer :: rawOf back))
          (2 + byteLength (rawOf mid)) = rawOf back := by
        have hlength : 2 + byteLength (rawOf mid) =
            byteLength ([b.opener] ++ rawOf mid ++ [b.closer]) := by
          rw [byteLength_append, byteLength_append, hone, hsame]
          omega
        have := dropBytes_append ([b.opener] ++ rawOf mid ++ [b.closer]) (rawOf back)
        rwa [← hlength, List.append_assoc, List.append_assoc] at this
      rw [separateAtBracket_lexemes hcounts.2.1 hall hmid, hbetween, hbehind]

/-- A text with a closing bracket inside a string. -/
def enclosedText : List Char := "[\"]\", x] y".toList

def enclosedTokens : List Token :=
  [⟨.punct (.opening .square), 0, 1⟩, ⟨.string "]", 1, 4⟩, ⟨.punct .comma, 4, 5⟩, ⟨.ident "x", 6, 7⟩,
    ⟨.punct (.closing .square), 7, 8⟩, ⟨.ident "y", 9, 10⟩]

/-- The bracket inside the string is no partner. -/
theorem separateAtBracket_at_partner_sample :
    separateAtBracket enclosedText none = .ok ("\"]\", x".toList, "y".toList) := by
  have htokens : tokenize enclosedText = .ok enclosedTokens := by cbv
  have hpartners : partners? enclosedText enclosedTokens =
      .ok #[some 4, none, none, none, some 0, none] := by cbv
  have hplain := uncommented_of_no_slash htokens (by decide)
  obtain ⟨first, partner, j, hfirst, hj, hpartner, h⟩ :=
    separateAtBracket_at_partner (b := .square) rfl hplain htokens hpartners
  cases hfirst
  cases hj
  cases hpartner
  exact h

end Source
end PlayerScript
