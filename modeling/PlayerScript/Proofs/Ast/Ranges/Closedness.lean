/-
The parser never leaves its ranges. For every source that splits into tokens with matched brackets,
parsing by positions ends as parsing the items does, with statements or with an error that the source
can be quoted in; every range that is entered on the way is closed under partners, and every
statement takes at least one token.
-/
import PlayerScript.Proofs.Ast.Ranges.Statements
import PlayerScript.Proofs.Token.Lexemes

namespace PlayerScript.Ast.Ranges

open Reading

variable {tokens : List Token} {items : List Item} {opens : List Item.Open}

/-! ## Places -/

theorem slice?_append (u v w : List Char) :
    slice? (u ++ v ++ w) (Text.byteLength u) (Text.byteLength (u ++ v)) =
      some (Text.slice (u ++ v ++ w) (Text.byteLength u) (Text.byteLength (u ++ v))) := by
  have hlen := Text.byteLength_append u v
  have hstop : Text.byteLength (u ++ v) - Text.byteLength u = Text.byteLength v := by omega
  rw [slice?, if_pos (by omega), Text.slice, hstop, List.append_assoc, Text.cutBytes?_append,
    Text.dropBytes_append, Text.takeBytes_append]
  dsimp only [Option.bind_some]
  rw [Text.cutBytes?_append]
  rfl

/-- The tokens of a source stand at places where it can be cut. -/
theorem wellPlaced_of_tokenize {source : List Char}
    (h : Token.tokenize source = .ok tokens) (partners : Array (Option Nat)) :
    WellPlaced ⟨source, tokens.toArray, partners⟩ := by
  obtain ⟨ls, hsplits, rfl⟩ := Token.tokenize_iff.1 h
  intro i j a b hij ha hb
  rw [List.getElem?_toArray] at ha hb
  obtain ⟨u, v, w, htext, hstart, hstop⟩ := Token.tokensAt_places hij ha hb
  have hsource := hsplits.eq_append
  rw [List.append_nil, htext] at hsource
  rw [hstart, hstop, Nat.zero_add, Nat.zero_add]
  dsimp only
  rw [hsource]
  exact slice?_append u v w

/-! ## Partners -/

theorem bracket_cases (t : Token) :
    t.kind.isBracket = false ∨ (∃ b, t.kind = .punct (.opening b)) ∨ ∃ b, t.kind = .punct (.closing b) := by
  cases t.kind with
  | punct p =>
    cases p with
    | opening b => exact .inr (.inl ⟨b, rfl⟩)
    | closing b => exact .inr (.inr ⟨b, rfl⟩)
    | _ => exact .inl rfl
  | _ => exact .inl rfl

section Partners

variable {source : List Char} {i : Nat} {stack : List Opening} {partners final : Array (Option Nat)}
  {t : Token} {rest : List Token}

theorem partnersFrom_leaf (h : t.kind.isBracket = false) :
    partnersFrom source i stack partners (t :: rest) =
      partnersFrom source (i + 1) stack partners rest := by
  rw [partnersFrom]
  split
  · rename_i hk
    rw [hk] at h
    cases h
  · rename_i hk
    rw [hk] at h
    cases h
  · rfl

theorem partnersFrom_opening {b : Bracket} (h : t.kind = .punct (.opening b)) :
    partnersFrom source i stack partners (t :: rest) =
      partnersFrom source (i + 1) (⟨i, b, t⟩ :: stack) partners rest := by
  rw [partnersFrom, h]

theorem partnersFrom_closing {b : Bracket} {opened : Opening} (h : t.kind = .punct (.closing b))
    (hb : opened.bracket = b) :
    partnersFrom source i (opened :: stack) partners (t :: rest) =
      partnersFrom source (i + 1) stack
        ((partners.setIfInBounds opened.position (some i)).setIfInBounds i (some opened.position))
        rest := by
  rw [partnersFrom, h]
  exact if_pos hb

/-- Finding partners ends as grouping does: with a result, or with the same error. -/
theorem partnersFrom_ends
    (hstack : List.Forall₂ (fun op opened => op.bracket = opened.bracket ∧ op.token = opened.opening)
      stack opens) :
    (partnersFrom source i stack partners tokens).map (fun _ => ()) =
      (Item.groupFrom source items opens tokens).map fun _ => () := by
  induction tokens generalizing i stack partners items opens with
  | nil =>
    cases hstack with
    | nil => rfl
    | cons hop =>
      rw [partnersFrom, Item.groupFrom, hop.1, hop.2]
      rfl
  | cons t rest ih =>
    rcases bracket_cases t with hk | ⟨b, hk⟩ | ⟨b, hk⟩
    · rw [partnersFrom_leaf hk, Item.groupFrom_leaf hk]
      exact ih hstack
    · rw [partnersFrom_opening hk, Item.groupFrom, hk]
      exact ih (.cons ⟨rfl, rfl⟩ hstack)
    · rw [partnersFrom, Item.groupFrom, hk]
      cases hstack with
      | nil => rfl
      | cons hop hstack =>
        dsimp only
        rw [hop.1, hop.2]
        split
        · exact ih hstack
        · rfl

/-- If one of two computations that end alike has a result, so has the other. -/
theorem ok_of_ends {α β : Type} {x : Except Error α} {y : Except Error β} {a : α}
    (h : x.map (fun _ => ()) = y.map fun _ => ()) (hx : x = .ok a) : ∃ b, y = .ok b := by
  subst hx
  cases y with
  | ok b => exact ⟨b, rfl⟩
  | error e => cases h

/-- What was found before stays, except for the brackets that are still open. -/
theorem partnersFrom_keeps (h : partnersFrom source i stack partners tokens = .ok final) :
    final.size = partners.size ∧
      ∀ k < i, k ∉ stack.map Opening.position → final[k]? = partners[k]? := by
  induction tokens generalizing i stack partners with
  | nil =>
    cases stack with
    | nil =>
      cases h
      exact ⟨rfl, fun _ _ _ => rfl⟩
    | cons => cases h
  | cons t rest ih =>
    rcases bracket_cases t with hk | ⟨b, hk⟩ | ⟨b, hk⟩
    · rw [partnersFrom_leaf hk] at h
      obtain ⟨hsize, hkeeps⟩ := ih h
      exact ⟨hsize, fun k hlt hk' => hkeeps k (by omega) hk'⟩
    · rw [partnersFrom_opening hk] at h
      obtain ⟨hsize, hkeeps⟩ := ih h
      refine ⟨hsize, fun k hlt hk' => hkeeps k (by omega) ?_⟩
      rw [List.map_cons, List.mem_cons, not_or]
      exact ⟨Nat.ne_of_lt hlt, hk'⟩
    · rw [partnersFrom, hk] at h
      cases stack with
      | nil => cases h
      | cons opened stack =>
        dsimp only at h
        split_ifs at h
        obtain ⟨hsize, hkeeps⟩ := ih h
        refine ⟨by simpa using hsize, fun k hlt hk' => ?_⟩
        rw [List.map_cons, List.mem_cons, not_or] at hk'
        rw [hkeeps k (by omega) hk'.2, Array.getElem?_setIfInBounds_ne (by omega),
          Array.getElem?_setIfInBounds_ne (Ne.symm hk'.1)]

end Partners

/-- The brackets that are open, on both sides: each stands where its group began, and the items
before it stand before it. -/
inductive Levels (l : Layout) : Nat → List Opening → List Item.Open → Prop
  | nil : Levels l 0 [] []
  | cons {lo i : Nat} {b : Bracket} {t : Token} {before : List Item} {stack : List Opening}
      {opens : List Item.Open} (ht : l.tokens[i]? = some t) (hk : t.kind = .punct (.opening b))
      (hbefore : Holds l lo i before.reverse) (hrest : Levels l lo stack opens) :
      Levels l (i + 1) (⟨i, b, t⟩ :: stack) (⟨b, t, before⟩ :: opens)

theorem Levels.not_mem {l : Layout} {lo k : Nat} {stack : List Opening} (h : Levels l lo stack opens)
    (hk : lo ≤ k) : k ∉ stack.map Opening.position := by
  induction h with
  | nil => exact List.not_mem_nil
  | @cons _ i _ _ _ _ _ _ _ hbefore _ ih =>
    have hle := hbefore.le
    rw [List.map_cons, List.mem_cons, not_or]
    exact ⟨Nat.ne_of_gt hk, ih (by omega)⟩

/-- A closing bracket and the opening one that it closes become partners for good. -/
theorem partnersFrom_pairs {source : List Char} {rest : List Token} {final partners : Array (Option Nat)}
    {i lo : Nat} {opened : Opening} {stack : List Opening} {l : Layout} (hlevels : Levels l lo stack opens)
    (hlo : lo ≤ opened.position) (hlt : opened.position < i) (hsize : i < partners.size)
    (h : partnersFrom source (i + 1) stack
      ((partners.setIfInBounds opened.position (some i)).setIfInBounds i (some opened.position)) rest =
        .ok final) :
    final[opened.position]? = some (some i) ∧ final[i]? = some (some opened.position) := by
  obtain ⟨-, hkeeps⟩ := partnersFrom_keeps h
  constructor
  · rw [hkeeps _ (by omega) (hlevels.not_mem hlo), Array.getElem?_setIfInBounds_ne (by omega),
      Array.getElem?_setIfInBounds_self_of_lt (by omega)]
  · rw [hkeeps i (Nat.lt_succ_self i) (hlevels.not_mem (by omega)),
      Array.getElem?_setIfInBounds_self_of_lt (by simpa using hsize)]

/-- Grouped tokens lie in the layout with the partners that are found. The induction is on the tokens
that are left, and what is already grouped lies before them. -/
theorem holds_groupFrom {source : List Char} {rest : List Token}
    {final partners : Array (Option Nat)} {i lo : Nat} {stack : List Opening} {all : List Item}
    (hpartners : partnersFrom source i stack partners rest = .ok final)
    (hgroup : Item.groupFrom source items opens rest = .ok all)
    (hlevels : Levels ⟨source, tokens.toArray, final⟩ lo stack opens)
    (hitems : Holds ⟨source, tokens.toArray, final⟩ lo i items.reverse)
    (hrest : tokens.drop i = rest) (hsize : partners.size = tokens.length)
    (hnone : ∀ k, i ≤ k → k < tokens.length → partners[k]? = some none) :
    Holds ⟨source, tokens.toArray, final⟩ 0 tokens.length all := by
  induction rest generalizing i lo stack opens partners items with
  | nil =>
    have hle : i ≤ tokens.length := by simpa using hitems.le_size
    have hend : i = tokens.length := Nat.le_antisymm hle (List.drop_eq_nil_iff.1 hrest)
    cases hlevels with
    | nil =>
      cases hgroup
      rwa [← hend]
    | cons => cases hgroup
  | cons t rest ih =>
    have ht : tokens[i]? = some t := by
      have := congrArg List.head? hrest
      rwa [List.head?_drop] at this
    have hlt : i < tokens.length := (List.getElem?_eq_some_iff.1 ht).1
    have hdrop : tokens.drop (i + 1) = rest := by
      rw [← List.drop_drop, hrest]
      rfl
    have htoken : tokens.toArray[i]? = some t := by rwa [List.getElem?_toArray]
    have hbound : i + 1 ≤ tokens.toArray.size := by simpa using hlt
    rcases bracket_cases t with hk | ⟨b, hk⟩ | ⟨b, hk⟩
    · rw [partnersFrom_leaf hk] at hpartners
      rw [Item.groupFrom_leaf hk] at hgroup
      have halone : final[i]? = some none := by
        rw [(partnersFrom_keeps hpartners).2 i (Nat.lt_succ_self i) (hlevels.not_mem hitems.le)]
        exact hnone i (Nat.le_refl i) hlt
      refine ih hpartners hgroup hlevels ?_ hdrop hsize fun k hle => hnone k (by omega)
      rw [List.reverse_cons]
      exact hitems.append (.leaf htoken hk halone (.nil hbound))
    · rw [partnersFrom_opening hk] at hpartners
      rw [Item.groupFrom, hk] at hgroup
      exact ih hpartners hgroup (.cons htoken hk hitems hlevels) (.nil hbound) hdrop hsize
        fun k hle => hnone k (by omega)
    · rw [Item.groupFrom, hk] at hgroup
      cases hlevels with
      | nil => cases hgroup
      | cons ho hok hbefore hlevels =>
        dsimp only at hgroup
        split_ifs at hgroup with hb
        subst hb
        rw [partnersFrom_closing hk rfl] at hpartners
        have hlt' := hitems.le
        obtain ⟨hopening, hclosing⟩ :=
          partnersFrom_pairs hlevels hbefore.le (by dsimp only; omega) (by omega) hpartners
        refine ih hpartners hgroup hlevels ?_ hdrop (by simpa using hsize) fun k hle hk' => ?_
        · rw [List.reverse_cons]
          exact hbefore.append (.group ho hok hopening hitems htoken hk hclosing (.nil hbound))
        · rw [Array.getElem?_setIfInBounds_ne (by omega), Array.getElem?_setIfInBounds_ne (by dsimp only; omega)]
          exact hnone k (by omega) hk'

/-- A source with matched brackets has a layout that holds its items. -/
theorem layout_holds {source : List Char} (h : Item.group? source tokens = .ok items) :
    ∃ partners, partners? source tokens = .ok partners ∧
      Holds ⟨source, tokens.toArray, partners⟩ 0 tokens.length items := by
  obtain ⟨partners, hpartners⟩ : ∃ partners, partners? source tokens = .ok partners :=
    ok_of_ends (partnersFrom_ends .nil).symm h
  refine ⟨partners, hpartners, holds_groupFrom hpartners h .nil (.nil (Nat.zero_le _)) rfl ?_ ?_⟩
  · simp
  · intro k _ hk
    simp [hk]

/-! ## Parsing within ranges -/

/-- An error of the parser: something outside the language, or a fault of the syntax that is no
bracket without a partner. -/
def Refused (e : Error) : Prop :=
  (∃ code, e = .unsupported code) ∨ ∃ fault code, e = .malformed fault code ∧ isUnclosed fault = false

theorem refused_toError {d : Diagnostic} (h : Matched d) (source : List Char) :
    Refused (d.toError source) := by
  obtain ⟨objection, span⟩ := d
  cases objection with
  | malformed fault => exact .inr ⟨fault, _, rfl, h fault rfl⟩
  | unsupported => exact .inl ⟨_, rfl⟩

/-- Every source that splits into tokens with matched brackets is parsed within its ranges. Reading
by positions ends as parsing does, never outside the tokens, their partners or the source and never
without progress; every range that is entered is closed under partners, and every statement of a list
takes at least one token. -/
theorem parse_within_ranges {source : List Char} {tokens : List Token} {items : List Item}
    (htokens : Token.tokenize source = .ok tokens) (hitems : Item.group? source tokens = .ok items)
    (maxDepth minted : Nat) :
    ∃ partners visits minted', partners? source tokens = .ok partners ∧
      (∀ v ∈ visits, Visit.Sound ⟨source, tokens.toArray, partners⟩ v) ∧
      ((∃ stmts, parse ⟨source, tokens.toArray, partners⟩ maxDepth ⟨minted, []⟩ =
            (.done stmts, ⟨minted', visits⟩) ∧
          parseStatements source maxDepth minted = (.ok stmts, minted')) ∨
        ∃ e, parse ⟨source, tokens.toArray, partners⟩ maxDepth ⟨minted, []⟩ =
            (.failed e, ⟨minted', visits⟩) ∧
          parseStatements source maxDepth minted = (.error e, minted') ∧ Refused e) := by
  obtain ⟨partners, hpartners, hholds⟩ := layout_holds hitems
  have hwhole : Holds ⟨source, tokens.toArray, partners⟩ 0 tokens.toArray.size items := by
    simpa using hholds
  have hagrees := follows_parse (wellPlaced_of_tokenize htokens partners) hwhole maxDepth ⟨minted, []⟩
  have hsource : itemsOf source = .ok items := by
    rw [itemsOf, htokens]
    exact hitems
  rw [parseStatements, hsource]
  dsimp only at hagrees ⊢
  cases hread : parse ⟨source, tokens.toArray, partners⟩ maxDepth ⟨minted, []⟩ with
  | mk ending notes =>
    cases hparse : Ast.statements (parsersWithin maxDepth) false ⟨none, items⟩ minted with
    | mk outcome minted' =>
      rw [hread, hparse] at hagrees
      cases hagrees with
      | @ok stmts _ _ visits heq hv =>
        subst heq
        exact ⟨partners, visits, minted', hpartners, hv, .inl ⟨stmts, hread, rfl⟩⟩
      | @error d _ visits hd hv =>
        exact ⟨partners, visits, minted', hpartners, hv,
          .inr ⟨d.toError source, hread, rfl, refused_toError hd source⟩⟩

/-- A switch whose last clause has a function word right before the closing brace, an unfinished
handler and an unfinished conditional. -/
def sampleText : List Char :=
  "switch(a)\x7bcase b:function\x7d try\x7bc[d?e]\x7dcatch".toList

/-- The theorem at a source where the parser looks at tokens behind its ranges. -/
theorem parse_within_ranges_sample :
    ∃ tokens items, Token.tokenize sampleText = .ok tokens ∧
      Item.group? sampleText tokens = .ok items ∧
      ∃ partners visits minted', partners? sampleText tokens = .ok partners ∧
        (∀ v ∈ visits, Visit.Sound ⟨sampleText, tokens.toArray, partners⟩ v) ∧
        ((∃ stmts, parse ⟨sampleText, tokens.toArray, partners⟩ 8 ⟨0, []⟩ =
              (.done stmts, ⟨minted', visits⟩) ∧
            parseStatements sampleText 8 0 = (.ok stmts, minted')) ∨
          ∃ e, parse ⟨sampleText, tokens.toArray, partners⟩ 8 ⟨0, []⟩ =
              (.failed e, ⟨minted', visits⟩) ∧
            parseStatements sampleText 8 0 = (.error e, minted') ∧ Refused e) :=
  ⟨_, _, rfl, rfl, parse_within_ranges rfl rfl 8 0⟩

end PlayerScript.Ast.Ranges
