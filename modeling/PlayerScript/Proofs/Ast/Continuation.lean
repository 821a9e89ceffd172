/-
Statements with more items behind them. A statement is known by its own items: a semicolon behind them,
with anything after it but the word `else`, changes neither the statement nor where it ends. Only
braces with nothing in them are told apart by being the last of all items, so the items must not end
with such braces.
-/
import PlayerScript.Proofs.Ast.Relocation

namespace PlayerScript.Ast

/-! ## Items that may follow -/

/-- The last item is a pair of braces with nothing in them. -/
def EndsEmpty (xs : List Item) : Prop := ∃ o c, xs.getLast? = some (.group .curly o c [])

/-- Items that may follow others: none, or a semicolon without an `else` after it. In front of a
semicolon there must not be empty braces. -/
inductive Continues (xs : List Item) : List Item → Prop
  | nothing : Continues xs []
  | semicolon {t : Token} {more : List Item} (hkind : t.kind = .punct .semicolon)
      (helse : ∀ item ∈ more.head?, item.isWord "else" = false) (hends : ¬ EndsEmpty xs) :
      Continues xs (.leaf t :: more)

theorem EndsEmpty.of_suffix {xs ys : List Item} (h : EndsEmpty ys) (hys : ys <:+ xs) : EndsEmpty xs := by
  obtain ⟨o, c, hlast⟩ := h
  obtain ⟨front, rfl⟩ := hys
  refine ⟨o, c, ?_⟩
  rw [List.getLast?_append, hlast]
  rfl

theorem Continues.of_suffix {xs ys tail : List Item} (h : Continues xs tail) (hys : ys <:+ xs) :
    Continues ys tail := by
  cases h with
  | nothing => exact .nothing
  | semicolon hkind helse hends => exact .semicolon hkind helse fun hempty => hends (hempty.of_suffix hys)

section

variable {t : Token} (h : t.kind = .punct .semicolon)
include h

theorem isPunct_semicolon (p : Punct) : (Item.leaf t).isPunct p = decide (Punct.semicolon = p) :=
  isPunct_leaf h p

theorem ident?_semicolon : (Item.leaf t).ident? = none := by
  show t.ident? = none
  rw [Token.ident?, h]

theorem isWord_semicolon (word : String) : (Item.leaf t).isWord word = false := by
  rw [Item.isWord, ident?_semicolon h]
  rfl

end

theorem isPunct_of_ident? {t : Token} {name : String} (h : t.ident? = some name) (p : Punct) :
    (Item.leaf t).isPunct p = false := by
  show t.isPunct p = false
  rw [Token.isPunct, Token.punct?, kind_of_ident? h]
  rfl

/-! ## Searches -/

section

variable {xs tail : List Item}

theorem first?_append (p : Token → Bool) : ∀ xs : List Item,
    Cut.first? p (xs ++ tail) = match Cut.first? p xs with
      | some cut => some { cut with right := cut.right ++ tail }
      | none => (Cut.first? p tail).map fun cut => { cut with left := xs ++ cut.left }
  | [] => by
    rw [List.nil_append, Cut.first?]
    cases Cut.first? p tail <;> rfl
  | .leaf t :: xs => by
    rw [List.cons_append, Cut.first?, Cut.first?, first?_append p xs]
    split_ifs
    · rfl
    · cases Cut.first? p xs with
      | some cut => rfl
      | none => cases Cut.first? p tail <;> rfl
  | .group b o c inner :: xs => by
    rw [List.cons_append, Cut.first?, Cut.first?, first?_append p xs]
    cases Cut.first? p xs with
    | some cut => rfl
    | none => cases Cut.first? p tail <;> rfl

theorem upToSemicolon_continued (h : Continues xs tail) :
    upToSemicolon (xs ++ tail) = ((upToSemicolon xs).1, (upToSemicolon xs).2 ++ tail) := by
  unfold upToSemicolon
  rw [first?_append]
  cases Cut.first? (fun t => t.isPunct .semicolon) xs with
  | some cut => rfl
  | none =>
    cases h with
    | nothing => rw [List.append_nil]; rfl
    | @semicolon t more hkind =>
      have hpunct : t.isPunct .semicolon = true := isPunct_semicolon hkind .semicolon
      simp only [Cut.first?, hpunct, if_true, Option.map_some, List.append_nil, List.nil_append]

theorem upToSemicolon_cons {item : Item} (h : item.isPunct .semicolon = false) (xs : List Item) :
    upToSemicolon (item :: xs) = (item :: (upToSemicolon xs).1, (upToSemicolon xs).2) := by
  unfold upToSemicolon
  have hfirst : Cut.first? (fun t => t.isPunct .semicolon) (item :: xs) =
      (Cut.first? (fun t => t.isPunct .semicolon) xs).map (Cut.cons item) := by
    cases item with
    | leaf t => exact if_neg (Bool.eq_false_iff.1 h)
    | group => rfl
  rw [hfirst]
  cases Cut.first? (fun t => t.isPunct .semicolon) xs <;> rfl

theorem elseBranch?_continued (h : Continues xs tail) :
    elseBranch? (xs ++ tail) = (elseBranch? xs).map fun branch => (branch.1, branch.2 ++ tail) := by
  cases h with
  | nothing =>
    rw [List.append_nil]
    cases elseBranch? xs <;> simp
  | @semicolon t more hkind helse =>
    have hword : ¬ (Item.leaf t).isWord "else" = true := by simp [isWord_semicolon hkind]
    have hpunct : (Item.leaf t).isPunct .semicolon = true := isPunct_semicolon hkind .semicolon
    unfold elseBranch?
    match xs with
    | [] =>
      dsimp only [List.nil_append]
      rw [if_neg hword, if_pos hpunct]
      cases more with
      | nil => rfl
      | cons second more => exact if_neg (by simp [helse second rfl])
    | [first] =>
      dsimp only [List.singleton_append]
      rw [if_neg hword]
      split_ifs <;> rfl
    | first :: second :: rest =>
      dsimp only [List.cons_append]
      split_ifs <;> rfl

theorem elseBranch?_suffix {word : Token} {rest : List Item} (h : elseBranch? xs = some (word, rest)) :
    rest <:+ xs := by
  unfold elseBranch? at h
  match xs, h with
  | [], h => cases h
  | first :: more, h =>
    dsimp only at h
    split_ifs at h
    · cases h
      exact List.suffix_cons _ _
    · cases more with
      | nil => cases h
      | cons second more =>
        dsimp only at h
        split_ifs at h
        cases h
        exact (List.suffix_cons _ _).trans (List.suffix_cons _ _)

theorem handlerHeader_continued (h : Continues xs tail) :
    handlerHeader (xs ++ tail) = ((handlerHeader xs).1, (handlerHeader xs).2 ++ tail) := by
  match xs with
  | [] => cases h <;> rfl
  | .leaf _ :: _ => rfl
  | .group .round _ _ _ :: _ => rfl
  | .group .square _ _ _ :: _ => rfl
  | .group .curly _ _ _ :: _ => rfl

theorem handlerHeader_suffix (xs : List Item) : (handlerHeader xs).2 <:+ xs := by
  match xs with
  | [] => exact List.suffix_rfl
  | .leaf _ :: _ => exact List.suffix_rfl
  | .group .round _ _ _ :: _ => exact List.suffix_cons _ _
  | .group .square _ _ _ :: _ => exact List.suffix_rfl
  | .group .curly _ _ _ :: _ => exact List.suffix_rfl

theorem isObject_continued {o c : Token} {inner : List Item}
    (h : Continues (.group .curly o c inner :: xs) tail) :
    isObject inner (xs ++ tail) = isObject inner xs := by
  cases h with
  | nothing => rw [List.append_nil]
  | @semicolon t more hkind _ hends =>
    cases xs with
    | cons item rest =>
      unfold isObject
      dsimp only [List.cons_append, List.isEmpty_cons]
      cases item with
      | leaf => rfl
      | group b => cases b <;> rfl
    | nil =>
      -- Empty braces would be a block before the semicolon, and an object at the end.
      have hinner : inner.isEmpty = false := by
        cases inner with
        | nil => exact absurd ⟨o, c, rfl⟩ hends
        | cons => rfl
      unfold isObject
      simp only [List.nil_append, isPunct_semicolon hkind, hinner, Bool.false_and]
      rfl

theorem declaresFunction_continued (h : Continues xs tail) :
    declaresFunction false (xs ++ tail) = declaresFunction false xs := by
  cases xs with
  | cons => rfl
  | nil =>
    cases h with
    | nothing => rfl
    | semicolon hkind => rw [List.nil_append, declaresFunction, ident?_semicolon hkind]; rfl

end

/-! ## Parsers with more items behind -/

section

variable {α β γ : Type}

/-- Where the first parser succeeds, the second one succeeds with a related result and has minted as
many names. -/
def Leads (R : α → β → Prop) (x : Parse α) (y : Parse β) : Prop :=
  ∀ k a k', x k = (.ok a, k') → ∃ b, y k = (.ok b, k') ∧ R a b

theorem leads_done {R : α → β → Prop} {a : α} {b : β} (h : R a b) : Leads R (Parse.done a) (Parse.done b) := by
  rintro k _ _ ⟨⟩
  exact ⟨b, rfl, h⟩

theorem leads_bind {δ : Type} {R : α → β → Prop} {S : γ → δ → Prop} {x : Parse α} {y : Parse β}
    {f : α → Parse γ} {g : β → Parse δ} (h : Leads R x y) (hf : ∀ a b, R a b → Leads S (f a) (g b)) :
    Leads S (x >>= f) (y >>= g) := by
  intro k c k' hrun
  obtain ⟨a, k₁, hx, hrest⟩ := parse_bind_ok hrun
  obtain ⟨b, hy, hab⟩ := h k a k₁ hx
  exact (parse_bind_of_ok hy g).symm ▸ hf a b hab k₁ c k' hrest

theorem leads_stopped {R : α → β → Prop} (d : Diagnostic) (y : Parse β) :
    Leads R (Parse.stop d) y := by
  rintro k _ _ ⟨⟩

theorem leads_after {S : β → γ → Prop} (x : Parse α) {f : α → Parse β} {g : α → Parse γ}
    (h : ∀ a, Leads S (f a) (g a)) : Leads S (x >>= f) (x >>= g) := by
  refine leads_bind (fun k a k' hrun => ⟨a, hrun, rfl⟩) ?_
  rintro a _ rfl
  exact h a

theorem leads_ite {R : α → β → Prop} {c : Prop} [Decidable c] {x x' : Parse α} {y y' : Parse β}
    (h : Leads R x y) (h' : Leads R x' y') :
    Leads R (if c then x else x') (if c then y else y') := by
  split_ifs
  · exact h
  · exact h'

end

/-- What is parsed with more items behind is the same, and the more items are left behind the rest, which
is one of the given items. -/
def Continued (tail xs : List Item) (a b : Parsed) : Prop :=
  b = ⟨a.stmt, a.last, a.rest ++ tail⟩ ∧ a.rest <:+ xs

section

variable {parts : Parsers} {tail : List Item}
  (hp : ∀ {before : Option Token} {xs : List Item}, Continues xs tail →
    Leads (Continued tail xs.tail) (parts.statement false ⟨before, xs⟩)
      (parts.statement false ⟨before, xs ++ tail⟩))

theorem continued_expectGroup (b : Bracket) (xs : List Item) :
    Leads (fun o o' => o' = { o with rest := o.rest ++ tail } ∧ o.rest <:+ xs)
      (expectGroup b xs) (expectGroup b (xs ++ tail)) := by
  match xs with
  | [] => exact leads_stopped _ _
  | .leaf t :: xs => exact leads_stopped _ _
  | .group b' opening closing inner :: xs =>
    unfold expectGroup
    dsimp only [List.cons_append]
    split_ifs
    · exact leads_done ⟨rfl, List.suffix_cons _ _⟩
    · exact leads_stopped _ _

variable {xs : List Item} (h : Continues xs tail)
include h

theorem continued_functionName :
    Leads (fun a b => b = (a.1, a.2 ++ tail) ∧ a.2 <:+ xs) (functionName xs)
      (functionName (xs ++ tail)) := by
  have hmint : Leads (fun a b => b = (a.1, a.2 ++ tail) ∧ a.2 <:+ xs)
      (do let name ← Parse.mint; return (name, xs)) (do let name ← Parse.mint; return (name, xs ++ tail)) :=
    leads_after _ fun _ => leads_done ⟨rfl, List.suffix_rfl⟩
  cases xs with
  | nil =>
    cases h with
    | nothing => exact hmint
    | semicolon hkind =>
      unfold functionName
      dsimp only [List.nil_append]
      rw [ident?_semicolon hkind]
      exact hmint
  | cons item rest =>
    unfold functionName
    dsimp only [List.cons_append]
    cases item.ident? with
    | none => exact hmint
    | some name => exact leads_done ⟨rfl, List.suffix_cons _ _⟩

theorem continued_functionAfterWord :
    Leads (fun f g => g = { f with rest := f.rest ++ tail } ∧ f.rest <:+ xs)
      (functionAfterWord parts xs) (functionAfterWord parts (xs ++ tail)) := by
  unfold functionAfterWord
  refine leads_bind (continued_functionName h) ?_
  rintro ⟨name, afterName⟩ _ ⟨rfl, hname⟩
  refine leads_bind (continued_expectGroup .round afterName) ?_
  rintro header _ ⟨rfl, hheader⟩
  refine leads_after _ fun params => ?_
  refine leads_bind (continued_expectGroup .curly header.rest) ?_
  rintro braces _ ⟨rfl, hbraces⟩
  refine leads_after _ fun body => leads_done ⟨rfl, ?_⟩
  exact (hbraces.trans hheader).trans hname

theorem continued_expressionStatement {item : Item} (hitem : item.isPunct .semicolon = false)
    (before : Option Token) (first : Item) :
    Leads (Continued tail xs) (expressionStatement parts ⟨before, item :: xs⟩ first)
      (expressionStatement parts ⟨before, item :: xs ++ tail⟩ first) := by
  unfold expressionStatement
  dsimp only [List.cons_append]
  rw [upToSemicolon_cons hitem, upToSemicolon_cons hitem, upToSemicolon_continued h]
  exact leads_after _ fun e => leads_done ⟨rfl, upToSemicolon_suffix xs⟩

omit h in
theorem continued_switchStatement :
    Leads (Continued tail xs) (switchStatement parts xs) (switchStatement parts (xs ++ tail)) := by
  unfold switchStatement
  refine leads_bind (continued_expectGroup .round xs) ?_
  rintro header _ ⟨rfl, hheader⟩
  refine leads_after _ fun selector => ?_
  refine leads_bind (continued_expectGroup .curly header.rest) ?_
  rintro braces _ ⟨rfl, hbraces⟩
  dsimp only
  split_ifs
  · exact leads_after _ fun clauses => leads_done ⟨rfl, hbraces.trans hheader⟩
  · exact leads_stopped _ _

theorem continued_handler (last : Token) :
    Leads (fun a b => b = (a.1, a.2.1, a.2.2 ++ tail) ∧ a.2.2 <:+ xs) (handler last xs)
      (handler last (xs ++ tail)) := by
  unfold handler
  cases xs with
  | nil =>
    cases h with
    | nothing => exact leads_done ⟨rfl, List.suffix_rfl⟩
    | semicolon hkind =>
      dsimp only [List.nil_append]
      rw [if_neg (by simp [isWord_semicolon hkind])]
      exact leads_done ⟨rfl, List.suffix_rfl⟩
  | cons word rest =>
    have hrest := h.of_suffix (List.suffix_cons word rest)
    dsimp only [List.cons_append]
    rw [handlerHeader_continued hrest]
    split_ifs
    · refine leads_bind (continued_expectGroup .curly (handlerHeader rest).2) ?_
      rintro braces _ ⟨rfl, hbraces⟩
      refine leads_done ⟨rfl, (hbraces.trans (handlerHeader_suffix rest)).trans (List.suffix_cons _ _)⟩
    · exact leads_done ⟨rfl, List.suffix_rfl⟩

theorem continued_cleanup (last : Token) :
    Leads (fun a b => b = (a.1, a.2.1, a.2.2 ++ tail) ∧ a.2.2 <:+ xs) (cleanup parts last xs)
      (cleanup parts last (xs ++ tail)) := by
  unfold cleanup
  cases xs with
  | nil =>
    cases h with
    | nothing => exact leads_done ⟨rfl, List.suffix_rfl⟩
    | semicolon hkind =>
      dsimp only [List.nil_append]
      rw [if_neg (by simp [isWord_semicolon hkind])]
      exact leads_done ⟨rfl, List.suffix_rfl⟩
  | cons word rest =>
    dsimp only [List.cons_append]
    split_ifs
    · refine leads_bind (continued_expectGroup .curly rest) ?_
      rintro braces _ ⟨rfl, hbraces⟩
      exact leads_after _ fun body => leads_done ⟨rfl, hbraces.trans (List.suffix_cons _ _)⟩
    · exact leads_done ⟨rfl, List.suffix_rfl⟩

theorem continued_tryStatement :
    Leads (Continued tail xs) (tryStatement parts xs) (tryStatement parts (xs ++ tail)) := by
  unfold tryStatement
  refine leads_bind (continued_expectGroup .curly xs) ?_
  rintro braces _ ⟨rfl, hbraces⟩
  refine leads_after _ fun body => ?_
  refine leads_bind (continued_handler (h.of_suffix hbraces) _) ?_
  rintro ⟨caught, last, rest⟩ _ ⟨rfl, hcaught⟩
  have hrest : rest <:+ xs := hcaught.trans hbraces
  refine leads_bind (continued_cleanup (h.of_suffix hrest) _) ?_
  rintro ⟨final, last, rest⟩ _ ⟨rfl, hfinal⟩
  exact leads_done ⟨rfl, hfinal.trans hrest⟩

include hp

theorem continued_ifStatement :
    Leads (Continued tail xs) (ifStatement parts false xs) (ifStatement parts false (xs ++ tail)) := by
  unfold ifStatement
  refine leads_bind (continued_expectGroup .round xs) ?_
  rintro header _ ⟨rfl, hheader⟩
  refine leads_after _ fun cond => ?_
  refine leads_bind (hp (h.of_suffix hheader)) ?_
  rintro body _ ⟨rfl, hbody⟩
  have hrest : body.rest <:+ xs := (hbody.trans (List.tail_suffix _)).trans hheader
  dsimp only
  rw [elseBranch?_continued (h.of_suffix hrest)]
  cases helse : elseBranch? body.rest with
  | none => exact leads_done ⟨rfl, hrest⟩
  | some branch =>
    obtain ⟨word, rest⟩ := branch
    have hbranch : rest <:+ xs := (elseBranch?_suffix helse).trans hrest
    refine leads_bind (hp (h.of_suffix hbranch)) ?_
    rintro other _ ⟨rfl, hother⟩
    exact leads_done ⟨rfl, (hother.trans (List.tail_suffix _)).trans hbranch⟩

theorem continued_forStatement (word : Token) :
    Leads (Continued tail xs) (forStatement parts false word xs)
      (forStatement parts false word (xs ++ tail)) := by
  unfold forStatement
  refine leads_bind (continued_expectGroup .round xs) ?_
  rintro header _ ⟨rfl, hheader⟩
  dsimp only [Opened.range]
  split
  · refine leads_after _ fun init => leads_after _ fun cond => leads_after _ fun update => ?_
    refine leads_bind (hp (h.of_suffix hheader)) ?_
    rintro body _ ⟨rfl, hbody⟩
    exact leads_done ⟨rfl, (hbody.trans (List.tail_suffix _)).trans hheader⟩
  · exact leads_stopped _ _

theorem continued_wordStatement (before : Option Token) {word : Token} {name : String}
    (hword : word.ident? = some name) :
    Leads (Continued tail xs) (wordStatement parts false ⟨before, .leaf word :: xs⟩ word name xs)
      (wordStatement parts false ⟨before, .leaf word :: xs ++ tail⟩ word name (xs ++ tail)) := by
  have hfollowing := upToSemicolon_suffix xs
  unfold wordStatement
  rw [upToSemicolon_continued h, declaresFunction_continued h]
  dsimp only
  refine leads_ite (leads_after _ fun decls => leads_done ⟨rfl, hfollowing⟩) ?_
  refine leads_ite (leads_after _ fun value => leads_done ⟨rfl, hfollowing⟩) ?_
  refine leads_ite (leads_after _ fun value => leads_done ⟨rfl, hfollowing⟩) ?_
  refine leads_ite (leads_ite (leads_done ⟨rfl, hfollowing⟩) (leads_stopped _ _)) ?_
  refine leads_ite (continued_ifStatement hp h) ?_
  refine leads_ite (continued_forStatement hp h word) ?_
  refine leads_ite (continued_switchStatement) ?_
  refine leads_ite (continued_tryStatement h) ?_
  refine leads_ite ?_ (leads_ite (leads_stopped _ _) ?_)
  · refine leads_bind (continued_functionAfterWord h) ?_
    rintro f _ ⟨rfl, hf⟩
    exact leads_done ⟨rfl, hf⟩
  · exact continued_expressionStatement h (isPunct_of_ident? hword .semicolon) before _

omit h in
theorem continued_statementStep (before : Option Token) (xs : List Item) (h : Continues xs tail) :
    Leads (Continued tail xs.tail) (statementStep parts false ⟨before, xs⟩)
      (statementStep parts false ⟨before, xs ++ tail⟩) := by
  cases xs with
  | nil => exact leads_stopped _ _
  | cons item rest =>
    have hrest := h.of_suffix (List.suffix_cons item rest)
    unfold statementStep
    cases item with
    | leaf t =>
      dsimp only [List.cons_append, List.tail_cons]
      by_cases hsemi : t.isPunct .semicolon = true
      · rw [if_pos hsemi, if_pos hsemi]
        exact leads_done ⟨rfl, List.suffix_rfl⟩
      · have hitem : (Item.leaf t).isPunct .semicolon = false := Bool.eq_false_iff.2 hsemi
        rw [if_neg hsemi, if_neg hsemi]
        cases hident : t.ident? with
        | some name => exact continued_wordStatement hp hrest before hident
        | none => exact continued_expressionStatement hrest hitem before _
    | group b o c inner =>
      cases b with
      | round => exact continued_expressionStatement hrest rfl before _
      | square => exact continued_expressionStatement hrest rfl before _
      | curly =>
        dsimp only [List.cons_append, List.tail_cons]
        rw [isObject_continued h]
        refine leads_ite (continued_expressionStatement hrest rfl before _) ?_
        exact leads_after _ fun body => leads_done ⟨rfl, List.suffix_rfl⟩

end

/-- A statement is parsed alike with more items behind it, at any level. -/
theorem continued_statementWithin {tail : List Item} : ∀ (depth : Nat) {before : Option Token}
    {xs : List Item}, Continues xs tail →
      Leads (Continued tail xs.tail) (statementWithin depth false ⟨before, xs⟩)
        (statementWithin depth false ⟨before, xs ++ tail⟩)
  | 0, before, xs, _ => by
    rw [statementWithin]
    split_ifs <;> exact leads_stopped _ _
  | depth + 1, before, xs, h => by
    rw [statementWithin, statementWithin]
    cases xs with
    | nil => exact leads_stopped _ _
    | cons item rest =>
      exact continued_statementStep (continued_statementWithin depth) before _ h

end PlayerScript.Ast
