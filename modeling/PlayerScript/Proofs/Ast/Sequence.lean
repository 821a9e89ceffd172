/-
Texts one after the other. Statements of a text and of another one, with a semicolon on a line of its own
between the texts, are parsed as those of the first text followed by those of the second one.
-/
import PlayerScript.Proofs.Ast.Continuation
import PlayerScript.Proofs.Source.Agreement

namespace PlayerScript.Ast

open PlayerScript.Token PlayerScript.Text

variable {xs items : List Item} {cut : Cut} {depth k : Nat} {stmts : List Stmt}

/-! ## Words that begin no expression -/

/-- A parser that stops, however many names were minted before. -/
def Stops {α : Type} (x : Parse α) : Prop := ∀ k a k', x k ≠ (.ok a, k')

section

variable {α β : Type}

theorem stops_stop (d : Diagnostic) : Stops (Parse.stop d : Parse α) := by
  rintro k a k' ⟨⟩

theorem Stops.bind {x : Parse α} (h : Stops x) (f : α → Parse β) : Stops (x >>= f) := by
  intro k b k' hrun
  obtain ⟨a, k₁, ha, -⟩ := parse_bind_ok hrun
  exact h k a k₁ ha

theorem Stops.each {f : α → Parse β} {a : α} (h : Stops (f a)) (rest : List α) :
    Stops (Parse.each f (a :: rest)) := h.bind _

end

theorem first?_cons {p : Token → Bool} {t : Token} (ht : p t = false)
    (h : Cut.first? p (.leaf t :: xs) = some cut) : ∃ left, cut.left = .leaf t :: left := by
  rw [Cut.first?, ht, if_neg Bool.false_ne_true] at h
  obtain ⟨found, -, rfl⟩ := Option.map_eq_some_iff.1 h
  exact ⟨found.left, rfl⟩

theorem binary?_cons {item : Item} {op : BinaryOp}
    (h : Cut.binary? (item :: xs) = some (op, cut)) : ∃ left, cut.left = item :: left := by
  obtain ⟨op', -, hop⟩ := List.exists_of_findSome?_eq_some h
  obtain ⟨cut', hcut, heq⟩ := Option.map_eq_some_iff.1 hop
  cases heq
  obtain ⟨found, -, rfl⟩ := Option.map_eq_some_iff.1 hcut
  exact ⟨found.left, rfl⟩

theorem splitItems_cons {p : Punct} {item : Item} (h : item.isPunct p = false) (before : Option Token)
    (xs : List Item) : ∃ before' items rest,
      Range.splitItems p before (item :: xs) = ⟨before', item :: items⟩ :: rest := by
  obtain ⟨r, rest, hr⟩ := List.exists_cons_of_ne_nil (splitItems_ne_nil p before xs)
  rw [Range.splitItems, h, if_neg Bool.false_ne_true, hr]
  exact ⟨r.before, r.items, rest, rfl⟩

section

variable {t : Token} {name : String} (ht : t.ident? = some name) (hname : name ∈ statementWords)
include ht hname

theorem stops_operand (parts : Parsers) (before : Option Token) (xs : List Item) :
    Stops (operand parts ⟨before, .leaf t :: xs⟩) := by
  have hkind := kind_of_ident? ht
  have hwords : ∀ word ∈ statementWords, word ≠ "void" ∧ word ≠ "function" ∧
      (wordLiteral? word).isNone = true := by decide
  obtain ⟨hvoid, hfunction, hliteral⟩ := hwords name hname
  have hcontains : statementWords.contains name = true := List.contains_iff_mem.2 hname
  have hchain : Stops (chain parts ⟨before, .leaf t :: xs⟩) := by
    refine Stops.bind ?_ _
    unfold primary
    dsimp only
    rw [hkind]
    dsimp only
    unfold namePrimary
    rw [if_neg hfunction, Option.isNone_iff_eq_none.1 hliteral, hcontains]
    simp only [Bool.or_true, if_true]
    exact stops_stop _
  have hunary : unaryOp? t = none := by
    unfold unaryOp?
    rw [hkind]
    split <;> simp_all
  have hupdate : updateOp? t = none := by
    unfold updateOp?
    rw [hkind]
  unfold operand
  dsimp only
  rw [hunary, hupdate]
  dsimp only
  split
  · split
    · unfold stepAfter
      rw [ht]
      dsimp only
      rw [if_pos hcontains]
      exact stops_stop _
    · exact hchain
  · exact hchain

theorem stops_assignment (parts : Parsers) (r : Range) {left : List Item}
    (hleft : cut.left = .leaf t :: left) : Stops (assignment parts r cut) := by
  have hcontains : statementWords.contains name = true := List.contains_iff_mem.2 hname
  have htarget : ∀ target, assignTarget? cut.left = some target → target.1 = name := by
    intro target h
    rw [hleft] at h
    unfold assignTarget? at h
    split at h
    · rename_i u heq
      cases heq
      rw [ht] at h
      cases h
      rfl
    · rename_i u _ _ _ _ heq
      cases heq
      rw [ht] at h
      cases h
      rfl
    · cases h
  unfold assignment
  split
  · rename_i target index op hfound hop
    have heq : target = name := htarget _ hfound
    rw [heq, if_pos hcontains]
    exact stops_stop _
  · exact stops_stop _

/-- No operation has its first operand at a word that begins no expression. -/
theorem stops_singleExpression {parts : Parsers}
    (hp : ∀ before xs, Stops (parts.expression ⟨before, .leaf t :: xs⟩)) (before : Option Token)
    (xs : List Item) : Stops (singleExpression parts ⟨before, .leaf t :: xs⟩) := by
  have hassign : (assignOp? t).isSome = false := by
    unfold assignOp?
    rw [kind_of_ident? ht]
    rfl
  unfold singleExpression
  dsimp only
  split
  · rename_i cut hcut
    obtain ⟨left, hleft⟩ := first?_cons hassign hcut
    exact stops_assignment ht hname parts _ hleft
  · split
    · rename_i cut hcut
      obtain ⟨left, hleft⟩ := first?_cons (isPunct_of_ident? ht .question) hcut
      unfold conditional
      split
      · exact stops_stop _
      · rw [hleft]
        exact (hp _ _).bind _
    · split
      · rename_i op cut hcut
        obtain ⟨left, hleft⟩ := binary?_cons hcut
        rw [hleft]
        exact (hp _ _).bind _
      · exact stops_operand ht hname parts before xs

theorem stops_expressionWithin : ∀ (depth : Nat) (before : Option Token) (xs : List Item),
    Stops (expressionWithin depth ⟨before, .leaf t :: xs⟩)
  | 0, before, xs => by
    rw [expressionWithin]
    exact stops_stop _
  | depth + 1, before, xs => by
    have hp := stops_expressionWithin depth
    rw [expressionWithin]
    show Stops (expressionStep (parsersWithin depth) ⟨before, .leaf t :: xs⟩)
    unfold expressionStep
    dsimp only
    split_ifs
    · obtain ⟨before', items, rest, hsplit⟩ :=
        splitItems_cons (isPunct_of_ident? ht .comma) before xs
      unfold Range.splitAt
      dsimp only
      rw [hsplit]
      exact ((hp before' items).each rest).bind _
    · exact stops_singleExpression ht hname hp before xs

end

/-- No statement begins with the word that begins the second branch of another one. -/
theorem stops_else {t : Token} (ht : t.ident? = some "else") (depth : Nat) (before : Option Token)
    (xs : List Item) : Stops (statementWithin depth false ⟨before, .leaf t :: xs⟩) := by
  have hitem := isPunct_of_ident? ht .semicolon
  cases depth with
  | zero =>
    rw [statementWithin]
    exact stops_stop _
  | succ depth =>
    rw [statementWithin]
    show Stops (statementStep (parsersWithin depth) false ⟨before, .leaf t :: xs⟩)
    have hstep : statementStep (parsersWithin depth) false ⟨before, .leaf t :: xs⟩ =
        expressionStatement (parsersWithin depth) ⟨before, .leaf t :: xs⟩ (.leaf t) := by
      unfold statementStep
      dsimp only
      rw [if_neg (show ¬ t.isPunct .semicolon = true from Bool.eq_false_iff.1 hitem), ht]
      rfl
    rw [hstep, expressionStatement, upToSemicolon_cons hitem]
    exact (stops_expressionWithin ht (by decide) depth _ _).bind _

/-! ## Lists of statements -/

theorem not_else_of_statements {k' : Nat} {before : Option Token}
    (h : statements (parsersWithin depth) false ⟨before, items⟩ k = (.ok stmts, k')) :
    ∀ item ∈ items.head?, item.isWord "else" = false := by
  rintro item hitem
  obtain ⟨rest, rfl⟩ := List.head?_eq_some_iff.1 hitem
  rw [Bool.eq_false_iff]
  intro hword
  rw [Item.isWord, beq_iff_eq] at hword
  cases item with
  | group => cases hword
  | leaf t =>
    have hsemi := isPunct_of_ident? hword .semicolon
    rw [statements, List.length_cons, statementsFrom, if_neg (Bool.eq_false_iff.1 hsemi)] at h
    obtain ⟨parsed, k₁, hparsed, -⟩ := parse_bind_ok h
    exact stops_else hword depth before rest k parsed k₁ hparsed

/-- The statements of items that others follow are those of the items and those of the others. -/
theorem statementsFrom_append {tail : List Item} {stmts₂ : List Stmt} {k₁ k₂ : Nat}
    (htail : ∀ fuel before, tail.length ≤ fuel →
      statementsFrom (parsersWithin depth) false fuel before tail k₁ = (.ok stmts₂, k₂)) :
    ∀ (fuel : Nat) {before : Option Token} {xs : List Item} {k : Nat} {stmts₁ : List Stmt},
      Continues xs tail → xs.length ≤ fuel →
      statementsFrom (parsersWithin depth) false fuel before xs k = (.ok stmts₁, k₁) →
      ∀ fuel', (xs ++ tail).length ≤ fuel' →
        statementsFrom (parsersWithin depth) false fuel' before (xs ++ tail) k =
          (.ok (stmts₁ ++ stmts₂), k₂) := by
  intro fuel
  induction fuel with
  | zero =>
    intro before xs k stmts₁ _ hfuel h fuel' hfuel'
    have hnil : xs = [] := List.eq_nil_of_length_eq_zero (Nat.le_zero.1 hfuel)
    subst hnil
    rw [statementsFrom] at h
    cases h
    exact htail fuel' before hfuel'
  | succ fuel ih =>
    intro before xs k stmts₁ hcontinues hfuel h fuel' hfuel'
    cases xs with
    | nil =>
      rw [statementsFrom] at h
      cases h
      exact htail fuel' before hfuel'
    | cons item rest =>
      have hrest := hcontinues.of_suffix (List.suffix_cons item rest)
      rw [List.length_cons] at hfuel
      rw [List.cons_append, List.length_cons, List.length_append] at hfuel'
      obtain ⟨fuel', rfl⟩ : ∃ n, fuel' = n + 1 := ⟨fuel' - 1, by omega⟩
      rw [List.cons_append, statementsFrom]
      rw [statementsFrom] at h
      by_cases hsemi : item.isPunct .semicolon = true
      · rw [if_pos hsemi] at h ⊢
        exact ih hrest (by omega) h fuel' (by rw [List.length_append]; omega)
      · rw [if_neg hsemi] at h ⊢
        obtain ⟨parsed, k', hparsed, h⟩ := parse_bind_ok h
        obtain ⟨more, k'', hmore, h⟩ := parse_bind_ok h
        cases h
        obtain ⟨_, hrun, rfl, hsuffix⟩ := continued_statementWithin depth hcontinues k parsed k' hparsed
        -- The statement takes the first item at least, so that the fuel lasts for the others.
        have hlength : parsed.rest.length ≤ rest.length := hsuffix.length_le
        have hall := ih (hrest.of_suffix hsuffix) (by omega) hmore fuel' (by rw [List.length_append]; omega)
        refine (parse_bind_of_ok hrun _).trans ((parse_bind_of_ok hall _).trans ?_)
        rfl

/-- Neither the token before the items nor fuel to spare changes the statements. -/
theorem statementsFrom_of_statements {k' : Nat}
    (h : statements (parsersWithin depth) false ⟨none, xs⟩ k = (.ok stmts, k')) {fuel : Nat}
    (hfuel : xs.length ≤ fuel) (before : Option Token) :
    statementsFrom (parsersWithin depth) false fuel before xs k = (.ok stmts, k') := by
  have hsame := statements_wherever depth k xs (.still none) (.still before)
  rw [Move.still_range, Move.still_range, h] at hsame
  have hrun : statements (parsersWithin depth) false ⟨before, xs⟩ k = (.ok stmts, k') := hsame.ok_iff.1 rfl
  have hmore := statementsFrom_append (fun _ _ _ => by rw [statementsFrom]; rfl) _ .nothing
    (Nat.le_refl _) hrun fuel (by rwa [List.append_nil])
  rwa [List.append_nil, List.append_nil] at hmore

/-- The statements of two lists of items with a semicolon between them. -/
theorem statements_joined {ys : List Item} {t : Token} (ht : t.kind = .punct .semicolon)
    (hends : ¬ EndsEmpty xs) {k₁ k₂ : Nat} {stmts₁ stmts₂ : List Stmt}
    (h₁ : statements (parsersWithin depth) false ⟨none, xs⟩ k = (.ok stmts₁, k₁))
    (h₂ : statements (parsersWithin depth) false ⟨none, ys⟩ k₁ = (.ok stmts₂, k₂)) :
    statements (parsersWithin depth) false ⟨none, xs ++ .leaf t :: ys⟩ k = (.ok (stmts₁ ++ stmts₂), k₂) := by
  have hcontinues : Continues xs (.leaf t :: ys) := .semicolon ht (not_else_of_statements h₂) hends
  have hsemi : (Item.leaf t).isPunct .semicolon = true := isPunct_semicolon ht .semicolon
  refine statementsFrom_append ?_ _ hcontinues (Nat.le_refl _) h₁ _ (Nat.le_refl _)
  intro fuel before hfuel
  rw [List.length_cons] at hfuel
  obtain ⟨fuel, rfl⟩ : ∃ n, fuel = n + 1 := ⟨fuel - 1, by omega⟩
  rw [statementsFrom, if_pos hsemi]
  exact statementsFrom_of_statements h₂ (by omega) _

/-! ## Texts -/

theorem splitsInto_joined {s₁ s₂ : List Char} {kinds₁ kinds₂ : List TokenKind}
    (h₁ : SplitsInto s₁ kinds₁ []) (h₂ : SplitsInto s₂ kinds₂ []) :
    SplitsInto (s₁ ++ '\n' :: ';' :: '\n' :: s₂) (kinds₁ ++ .punct .semicolon :: kinds₂) [] := by
  obtain ⟨ls₁, hsplits₁, rfl⟩ := h₁
  have htext : s₁ = rawOf ls₁ := by rw [hsplits₁.eq_append, List.append_nil]
  have hbounds : Bounds ('\n' :: ';' :: '\n' :: s₂) := by
    rintro c ⟨⟩
    exact .inl rfl
  have hfront : Splits (s₁ ++ '\n' :: ';' :: '\n' :: s₂) ls₁ ('\n' :: ';' :: '\n' :: s₂) := by
    rw [htext]
    rw [htext, ← List.append_nil (rawOf ls₁)] at hsplits₁
    refine hsplits₁.before_of fun l _ c cs rest hlex => ?_
    exact lexeme_tail_of_line ends_nil.bounds hbounds (by simp) (by simp) hlex
  have hsemi : lexeme ';' ('\n' :: s₂) = .ok ⟨some (.punct .semicolon), [';'], '\n' :: s₂⟩ := rfl
  have hmiddle : SplitsInto ('\n' :: ';' :: '\n' :: s₂) [.punct .semicolon] s₂ :=
    (SplitsInto.blank rfl _).trans ((SplitsInto.token hsemi).trans (SplitsInto.blank rfl _))
  exact SplitsInto.trans ⟨ls₁, hfront, rfl⟩ (hmiddle.trans h₂)

theorem splitsInto_of_itemsOf {text : List Char} (h : itemsOf text = .ok items) :
    SplitsInto text (Shape.kindsOf (items.map Item.shape)) [] ∧
      Shape.allOf (fun _ => true) (items.map Item.shape) = true := by
  unfold itemsOf at h
  split at h
  · rename_i tokens htokens
    obtain ⟨ls, hsplits, rfl⟩ := tokenize_iff.1 htokens
    obtain ⟨hkinds, hall⟩ := Item.kinds_of_group h (p := fun _ => true) fun _ _ => rfl
    rw [kind_tokensAt] at hkinds
    exact ⟨⟨ls, hsplits, hkinds⟩, hall⟩
  · cases h

theorem parseStatements_ok_iff {source : List Char} {maxDepth minted minted' : Nat} :
    parseStatements source maxDepth minted = (.ok stmts, minted') ↔ ∃ items, itemsOf source = .ok items ∧
      statements (parsersWithin maxDepth) false ⟨none, items⟩ minted = (.ok stmts, minted') := by
  unfold parseStatements
  cases itemsOf source with
  | error e => simp
  | ok items =>
    rcases hrun : statements (parsersWithin maxDepth) false ⟨none, items⟩ minted with ⟨_ | _, _⟩ <;>
      simp [hrun]

/-- Empty braces at the end are the last two tokens. -/
theorem kinds_of_endsEmpty (h : EndsEmpty items) :
    [TokenKind.punct (.opening .curly), .punct (.closing .curly)] <:+
      Shape.kindsOf (items.map Item.shape) := by
  obtain ⟨o, c, hlast⟩ := h
  obtain ⟨front, rfl⟩ := List.getLast?_eq_some_iff.1 hlast
  rw [List.map_append, Item.kindsOf_append]
  exact List.suffix_append _ _

/-- A text of statements, a semicolon on its own line and another text of statements are parsed into the
statements of the first text followed by those of the second one, unless the first text ends with
empty braces. -/
theorem parseStatements_joined (s₁ s₂ : List Char) (maxDepth minted : Nat) {minted₁ minted₂ : Nat}
    {stmts₁ stmts₂ : List Stmt}
    (h₁ : parseStatements s₁ maxDepth minted = (.ok stmts₁, minted₁))
    (h₂ : parseStatements s₂ maxDepth minted₁ = (.ok stmts₂, minted₂))
    (hends : ∀ tokens, tokenize s₁ = .ok tokens →
      ¬ [TokenKind.punct (.opening .curly), .punct (.closing .curly)] <:+ tokens.map Token.kind) :
    parseStatements (s₁ ++ '\n' :: ';' :: '\n' :: s₂) maxDepth minted =
      (.ok (stmts₁ ++ stmts₂), minted₂) := by
  obtain ⟨xs, hxs, hrun₁⟩ := parseStatements_ok_iff.1 h₁
  obtain ⟨ys, hys, hrun₂⟩ := parseStatements_ok_iff.1 h₂
  obtain ⟨hsplits₁, hall₁⟩ := splitsInto_of_itemsOf hxs
  obtain ⟨hsplits₂, hall₂⟩ := splitsInto_of_itemsOf hys
  have hempty : ¬ EndsEmpty xs := by
    intro hempty
    obtain ⟨tokens, htokens, hkinds⟩ := SplitsInto.tokenize_eq hsplits₁
    exact hends tokens htokens (hkinds ▸ kinds_of_endsEmpty hempty)
  -- The items of the joined text have the shapes of these items, and are parsed alike.
  have hjoined := statements_joined (t := ⟨.punct .semicolon, 0, 0⟩) rfl hempty hrun₁ hrun₂
  have hshapes : Shape.kindsOf ((xs ++ .leaf ⟨.punct .semicolon, 0, 0⟩ :: ys).map Item.shape) =
      Shape.kindsOf (xs.map Item.shape) ++ .punct .semicolon :: Shape.kindsOf (ys.map Item.shape) := by
    rw [List.map_append, Item.kindsOf_append]
    simp [Shape.kindsOf, Shape.kinds]
  have hall : Shape.allOf (fun _ => true)
      ((xs ++ .leaf ⟨.punct .semicolon, 0, 0⟩ :: ys).map Item.shape) = true := by
    rw [List.map_append, Shape.allOf_append, hall₁]
    simpa [Shape.allOf, Shape.all, TokenKind.isBracket] using hall₂
  obtain ⟨ts, htokens, hkinds⟩ := (hshapes ▸ splitsInto_joined hsplits₁ hsplits₂).tokenize_eq
  have hproper : ∀ x ∈ xs ++ .leaf ⟨.punct .semicolon, 0, 0⟩ :: ys, Proper x := by
    rw [List.forall_mem_append, List.forall_mem_cons]
    exact ⟨proper_itemsOf hxs, .leaf _, proper_itemsOf hys⟩
  exact (parseStatements_of_shapes htokens hkinds hall maxDepth minted).ok_iff.1
    ((statements_of_shapes maxDepth minted (r := ⟨none, _⟩) hproper).ok_iff.2 hjoined)

/-- A comment at the end of the first text ends with its line. -/
theorem parseStatements_joined_comment :
    parseStatements "f=function()\x7bg\x7d//else\n;\nfunction()\x7bg\x7d".toList 9 0 =
      (.ok [.expr (.assign "f" none none (.function "__ytjs_obj1" [] [.expr (.ident "g")])),
        .expr (.function "__ytjs_obj2" [] [.expr (.ident "g")])], 2) := by
  have htokens : tokenize "f=function()\x7bg\x7d//else".toList = .ok [⟨.ident "f", 0, 1⟩,
      ⟨.punct (.assign none), 1, 2⟩, ⟨.ident "function", 2, 10⟩, ⟨.punct (.opening .round), 10, 11⟩,
      ⟨.punct (.closing .round), 11, 12⟩, ⟨.punct (.opening .curly), 12, 13⟩, ⟨.ident "g", 13, 14⟩,
      ⟨.punct (.closing .curly), 14, 15⟩] := rfl
  refine parseStatements_joined "f=function()\x7bg\x7d//else".toList "function()\x7bg\x7d".toList 9 0
    rfl rfl ?_
  rintro tokens heq ⟨front, hfront⟩
  rw [htokens] at heq
  cases heq
  have hlast := congrArg (fun kinds => kinds.reverse[1]?) hfront
  simp at hlast

end PlayerScript.Ast
