/-
Reading statements by positions follows parsing them from items, and so does the whole parser. A
statement looks at the token behind its range at three places: after a function word, in front of a
handler's parameter and after `?.`; what it can find there is the word of the next clause, a closing
bracket, a token that ends the range, or nothing.
-/
import PlayerScript.Proofs.Ast.Ranges.Operators

namespace PlayerScript.Ast.Ranges

open Reading

variable {range : Nat × Nat} {r : Range} {word : Token} {pos marker : Nat} {rest : List Item}
variable {l : Layout} {parts : Readers} {parsers : Parsers} {lo hi : Nat} {items : List Item}

/-- The last token of a range, or the one before it if the range is empty. -/
theorem Holds.lastToken {before : Token} (h : Holds l lo hi items)
    (hbefore : l.tokens[lo - 1]? = some before) :
    l.tokens[hi - 1]? = some (lastToken before items) := by
  rw [Ast.lastToken]
  cases hlast : items.getLast? with
  | none =>
    rw [List.getLast?_eq_none_iff] at hlast
    rw [← h.eq_iff.2 hlast]
    exact hbefore
  | some last => exact h.last hlast

theorem Covers.isEmpty_iff (h : Covers l range r) : r.items.isEmpty = true ↔ range.2 ≤ range.1 := by
  have hle := h.holds.le
  have heq := h.holds.eq_iff
  rw [List.isEmpty_iff, ← heq]
  omega

theorem isPunct_of_isWord {item : Item} {word : String} {p : Punct} (h : item.isWord word = true) :
    item.isPunct p = false := by
  cases item with
  | group => cases h
  | leaf t =>
    have hident : t.ident? = some word := eq_of_beq h
    rw [Token.ident?] at hident
    rw [Item.isPunct, Token.isPunct, Token.punct?]
    cases hk : t.kind <;> simp_all

/-- The word at a position is looked for as the first of the items is. -/
theorem Holds.word_cases (h : Holds l pos hi items) (word : String) :
    (¬(pos < hi ∧ l.wordAt pos word = true) ∧ ∀ first ∈ items.head?, first.isWord word = false) ∨
    ∃ first rest, items = first :: rest ∧ first.isWord word = true ∧
      (pos < hi ∧ l.wordAt pos word = true) ∧ CutAt l pos pos hi ⟨[], first.last, rest⟩ := by
  cases items with
  | nil =>
    have heq := h.eq_iff.2 rfl
    exact .inl ⟨by omega, by simp⟩
  | cons first rest =>
    rw [h.wordAt]
    cases hword : first.isWord word with
    | false => exact .inl ⟨by simp, by simpa using hword⟩
    | true => exact .inr ⟨first, rest, rfl, hword, ⟨h.lt (List.cons_ne_nil _ _), rfl⟩, h.cutAt_word hword⟩

section Statements

variable (hw : WellPlaced l) (hp : PartsFollow l parts parsers)
include hw hp

/-! ## Declarations -/

theorem follows_declaration (h : Covers l range r) :
    Follows l Eq (declaration l parts range) (Ast.declaration parsers r) := by
  obtain ⟨lo, hi⟩ := range
  obtain ⟨before, items⟩ := r
  obtain ⟨holds, -, ends⟩ := h
  dsimp only at holds ends
  have hrefuse : ∀ {fault}, isUnclosed fault = false → Follows l Eq (l.refuse fault lo hi)
      (Parse.fault (α := String × Option Expr) fault (Range.span ⟨before, items⟩)) :=
    follows_refuse hw holds
  rw [declaration, Ast.declaration]
  dsimp only
  match items, holds with
  | [], holds =>
    have heq := holds.eq_iff.2 rfl
    rw [if_neg (by omega)]
    exact hrefuse rfl
  | first :: rest, holds =>
    rw [if_pos (holds.lt (List.cons_ne_nil _ _)), holds.identAt]
    cases hname : first.ident? with
    | none =>
      dsimp only
      rw [hname]
      exact hrefuse rfl
    | some name =>
      have hrest := holds.after_ident hname
      dsimp only
      rw [hname]
      match rest, hrest with
      | [], hrest =>
        rw [if_pos (hrest.eq_iff.2 rfl).symm]
        exact follows_done rfl
      | [equals], hrest =>
        have hlt := hrest.lt (List.cons_ne_nil _ _)
        have hshort : ¬(l.punctAt (lo + 1) (.assign none) = true ∧ lo + 2 < hi) := by
          rw [hrest.punctAt rfl]
          rintro ⟨hequals, hlong⟩
          have hcut := hrest.cutAt_punct hequals
          have heq := hcut.right.eq_iff.2 rfl
          omega
        rw [if_neg (by omega), if_neg hshort]
        exact hrefuse rfl
      | equals :: value :: more, hrest =>
        have hlt := hrest.tail.lt (List.cons_ne_nil _ _)
        have hpos := width_pos equals
        rw [if_neg (by omega), hrest.punctAt rfl]
        dsimp only
        cases hequals : equals.isPunct (.assign none) with
        | false =>
          rw [if_neg (by simp), if_neg (by simp)]
          exact hrefuse rfl
        | true =>
          have hcut := hrest.cutAt_punct hequals
          rw [if_pos ⟨rfl, by omega⟩, if_pos rfl]
          exact follows_map (hp.expression (hcut.covers_right ends)) fun a b hab => by rw [hab]

theorem follows_declarations (h : Covers l (lo, hi) ⟨some word, items⟩) :
    Follows l Eq (declarations l parts lo hi) (Ast.declarations parsers word items) := by
  have hempty := h.isEmpty_iff
  rw [declarations, Ast.declarations]
  dsimp only at hempty ⊢
  by_cases hle : hi ≤ lo
  · rw [if_pos hle, if_pos (hempty.2 hle)]
    exact follows_missing hw h (List.isEmpty_iff.1 (hempty.2 hle)) _
  · obtain ⟨ranges, hranges, hcovers⟩ := split_eq (p := .comma) rfl h
    rw [if_neg hle, if_neg (mt hempty.1 hle), hranges, done_bind]
    exact follows_each (fun range r hr => follows_declaration hw hp hr.1) hcovers

omit hw in
theorem follows_optionalExpression (h : Covers l range r) :
    Follows l Eq (optionalExpression parts range) (Ast.optionalExpression parsers r) := by
  have hempty := h.isEmpty_iff
  rw [optionalExpression, Ast.optionalExpression]
  by_cases hle : range.2 ≤ range.1
  · rw [if_pos hle, if_pos (hempty.2 hle)]
    exact follows_done rfl
  · rw [if_neg hle, if_neg (mt hempty.1 hle)]
    exact follows_map (hp.expression h) fun a b hab => by rw [hab]

/-! ## Branches and loops -/

omit hw hp in
/-- The other branch begins where the items say. -/
theorem elseAt_eq (h : Holds l pos hi items) :
    (elseAt? l pos hi = none ∧ elseBranch? items = none) ∨
    ∃ start word rest, elseAt? l pos hi = some start ∧ elseBranch? items = some (word, rest) ∧
      pos < start ∧ l.tokens[start - 1]? = some word ∧ Holds l start hi rest := by
  -- the place that is looked at is the position itself, or the one after a semicolon
  have hlook : ∀ look, (if l.punctAt pos .semicolon ∧ pos + 1 < hi ∧ l.wordAt (pos + 1) "else"
        then pos + 1 else pos) = look →
      elseAt? l pos hi = if look < hi ∧ l.wordAt look "else" then some (look + 1) else none := by
    rintro look rfl
    rfl
  rcases h.word_cases "else" with ⟨hread, hhead⟩ | ⟨first, rest, rfl, helse, hread, hcut⟩
  · cases items with
    | nil =>
      have heq := h.eq_iff.2 rfl
      exact .inl ⟨by rw [hlook pos (if_neg (by omega)), if_neg hread], rfl⟩
    | cons first rest =>
      have helse := hhead first rfl
      have hsemi := h.punctAt (p := .semicolon) rfl
      cases hfirst : first.isPunct .semicolon with
      | false =>
        rw [hfirst] at hsemi
        refine .inl ⟨by rw [hlook pos (if_neg (by simp [hsemi])), if_neg hread], ?_⟩
        cases rest <;> simp [elseBranch?, helse, hfirst]
      | true =>
        rw [hfirst] at hsemi
        have hrest := (h.cutAt_punct hfirst).right
        rcases hrest.word_cases "else" with ⟨hread', hhead'⟩ | ⟨second, more, rfl, helse', hread', hcut⟩
        · refine .inl ⟨by rw [hlook pos (if_neg fun h => hread' h.2), if_neg hread], ?_⟩
          cases rest with
          | nil => simp [elseBranch?, helse, hfirst]
          | cons second more => simp [elseBranch?, helse, hfirst, hhead' second rfl]
        · refine .inr ⟨pos + 1 + 1, second.last, more, ?_, ?_, by omega, hcut.token, hcut.right⟩
          · rw [hlook (pos + 1) (if_pos ⟨hsemi, hread'⟩), if_pos hread']
          · simp [elseBranch?, helse, hfirst, helse']
  · have hsemi := h.punctAt (p := .semicolon) rfl
    rw [isPunct_of_isWord helse] at hsemi
    refine .inr ⟨pos + 1, first.last, rest, ?_, ?_, by omega, hcut.token, hcut.right⟩
    · rw [hlook pos (if_neg (by simp [hsemi])), if_pos hread]
    · cases rest <;> simp [elseBranch?, helse]

theorem follows_ifStatement (h : Holds l (lo + 1) hi items) (hends : NoOpening l hi) :
    Follows l (StmtAt l lo hi) (ifStatement l parts lo hi)
      (Ast.ifStatement parsers (l.identAt? hi).isSome items) := by
  rw [ifStatement, Ast.ifStatement]
  refine follows_bind (follows_expectOpen hw h .round) ?_
  intro close header hheader
  have hlt := hheader.lt
  refine follows_bind (hp.expression hheader.covers) ?_
  rintro cond _ rfl
  refine follows_bind (hp.statement (hheader.covers_rest hends)) ?_
  rintro ⟨body, next⟩ parsed ⟨hbody, hnext, hlast, hrest⟩
  dsimp only at hbody hnext hlast hrest ⊢
  subst hbody
  rcases elseAt_eq hrest with ⟨hread, hnone⟩ | ⟨start, word, rest, hread, hsome, hstart, htoken, helse⟩
  · rw [hread, hnone]
    exact follows_done ⟨rfl, by dsimp only; omega, hlast, hrest⟩
  · rw [hread, hsome]
    have hcovers : Covers l (start, hi) ⟨some word, rest⟩ := by
      refine ⟨helse, ?_, hends⟩
      dsimp only
      rw [if_neg (by omega), htoken]
    refine follows_map (hp.statement hcovers) ?_
    rintro ⟨otherwise, after⟩ parsed' ⟨hother, hafter, hlast', hrest'⟩
    dsimp only at hother hafter hlast' hrest'
    exact ⟨by rw [hother], by dsimp only; omega, hlast', hrest'⟩

theorem follows_loopInit (h : Covers l range r) :
    Follows l Eq (loopInit l parts range) (Ast.loopInit parsers r) := by
  obtain ⟨lo, hi⟩ := range
  obtain ⟨before, items⟩ := r
  have holds := h.holds
  dsimp only at holds
  rw [loopInit, Ast.loopInit]
  dsimp only
  match items, holds with
  | [], holds =>
    have heq := holds.eq_iff.2 rfl
    rw [if_neg (by omega)]
    exact follows_done rfl
  | first :: rest, holds =>
    have hwords : declaringWords.any (l.wordAt lo) = declaringWords.any first.isWord :=
      congrArg _ (funext holds.wordAt)
    rw [if_pos (holds.lt (List.cons_ne_nil _ _)), hwords]
    dsimp only
    by_cases hdeclares : declaringWords.any first.isWord = true
    · rw [if_pos hdeclares, if_pos hdeclares]
      obtain ⟨word, -, hword⟩ := List.any_eq_true.1 hdeclares
      have hcut := holds.cutAt_word hword
      exact follows_map (follows_declarations hw hp (hcut.covers_right h.ends)) fun a b hab => by
        rw [hab]
    · rw [if_neg hdeclares, if_neg hdeclares]
      exact follows_map (hp.expression h) fun a b hab => by rw [hab]

theorem follows_forStatement (h : Holds l (lo + 1) hi items)
    (hends : NoOpening l hi) (hword : l.tokens[lo]? = some word) :
    Follows l (StmtAt l lo hi) (forStatement l parts lo hi)
      (Ast.forStatement parsers (l.identAt? hi).isSome word items) := by
  rw [forStatement, Ast.forStatement]
  refine follows_bind (follows_expectOpen hw h .round) ?_
  intro close header hheader
  have hlt := hheader.lt
  obtain ⟨ranges, hranges, hcovers⟩ := split_eq (p := .semicolon) rfl hheader.covers
  rw [hranges, done_bind]
  generalize header.range.splitAt .semicolon = split at hcovers
  have hrefuse : Follows l (StmtAt l lo hi) (l.unsupported lo (close + 1))
      (.unsupported ⟨word.start, header.closing.stop⟩) :=
    follows_unsupported_tokens hw (by omega) hword hheader.closing
  rcases hcovers with _ | ⟨h₁, _ | ⟨h₂, _ | ⟨h₃, _ | _⟩⟩⟩
  · exact hrefuse
  · exact hrefuse
  · exact hrefuse
  · dsimp only
    refine follows_bind (follows_loopInit hw hp h₁.1) ?_
    rintro init _ rfl
    refine follows_bind (follows_optionalExpression hp h₂.1) ?_
    rintro cond _ rfl
    refine follows_bind (follows_optionalExpression hp h₃.1) ?_
    rintro update _ rfl
    refine follows_map (hp.statement (hheader.covers_rest hends)) ?_
    rintro ⟨body, next⟩ parsed ⟨hbody, hnext, hlast, hrest⟩
    dsimp only at hbody hnext hlast hrest
    exact ⟨by rw [hbody], by dsimp only; omega, hlast, hrest⟩
  · exact hrefuse

/-! ## Switches -/

theorem follows_clauseLabel {colon stop : Nat} {cut : Cut}
    (h : Holds l marker stop (.leaf word :: items)) (hcut : CutAt l (marker + 1) colon stop cut) :
    Follows l Eq (clauseLabel l parts marker colon stop)
      (Ast.clauseLabel parsers word items cut) := by
  have hempty : cut.left.isEmpty = true ↔ colon = marker + 1 := by
    rw [List.isEmpty_iff, ← hcut.left.eq_iff]
    exact eq_comm
  have hword : l.wordAt marker "default" = word.isWord "default" := wordAt_eq h.first _
  rw [clauseLabel, Ast.clauseLabel, hword]
  by_cases hdefault : word.isWord "default" = true
  · rw [if_pos hdefault, if_pos hdefault]
    by_cases heq : colon = marker + 1
    · rw [if_pos heq, if_pos (hempty.2 heq)]
      exact follows_done rfl
    · rw [if_neg heq, if_neg (mt hempty.1 heq)]
      exact follows_refuse hw h rfl
  · rw [if_neg hdefault, if_neg hdefault]
    exact follows_map (hp.expression (hcut.covers_left (before_eq h.first))) fun a b hab => by rw [hab]

theorem follows_clause {stop : Nat}
    (h : Holds l marker stop (.leaf word :: items)) (hends : NoOpening l stop) :
    Follows l Eq (clause l parts marker stop)
      (Ast.clause parsers (l.identAt? stop).isSome word items) := by
  rw [clause, Ast.clause]
  rcases find_eq (plain_isPunct (q := .colon) rfl) h.after_leaf with
    ⟨hread, hnone⟩ | ⟨colon, cut, hread, hsome, -, hcut⟩
  · rw [hread, hnone, done_bind]
    exact follows_refuse hw h rfl
  · rw [hread, hsome, done_bind]
    refine follows_bind (follows_clauseLabel hw hp h hcut) ?_
    rintro label _ rfl
    exact follows_map (follows_statements hp (hcut.covers_right hends)) fun a b hab => by rw [hab]

theorem follows_clauses {markers : List Nat} {parted : List (Token × List Item)}
    (h : ClausesAt l hi markers parted) (hends : NoOpening l hi) (hunnamed : l.identAt? hi = none) :
    Follows l Eq (clauses l parts hi markers) (clausesOf parsers parted) := by
  induction h with
  | nil => exact follows_done rfl
  | @cons marker markers word items parted hword hkind hplain halone hitems hrest ih =>
    have hstop : NoOpening l (markers.head?.getD hi) ∧
        (l.identAt? (markers.head?.getD hi)).isSome = !parted.isEmpty := by
      cases hrest with
      | nil => exact ⟨hends, by rw [List.head?_nil, Option.getD_none, hunnamed]; rfl⟩
      | cons hword' hkind' hplain' =>
        refine ⟨noOpening_of_plain hword' hplain', ?_⟩
        rw [List.head?_cons, Option.getD_some, identAt_eq hword', hkind']
        rfl
    have hclause := follows_clause hw hp (.leaf hword hplain halone hitems) hstop.1
    rw [hstop.2] at hclause
    refine follows_bind hclause ?_
    rintro c _ rfl
    exact follows_map ih fun cs cs' hcs => by rw [hcs]

omit hw hp in
theorem ClausesAt.lt {markers : List Nat} {parted : List (Token × List Item)}
    (h : ClausesAt l hi markers parted) (hhead : markers.head? = some marker) : marker < hi := by
  induction h generalizing marker with
  | nil => cases hhead
  | @cons first markers _ _ _ _ _ _ _ hitems _ ih =>
    rw [List.head?_cons, Option.some.injEq] at hhead
    have hle := hitems.le
    cases hnext : markers.head? with
    | none =>
      rw [hnext, Option.getD_none] at hle
      omega
    | some next =>
      have hlt := ih hnext
      rw [hnext, Option.getD_some] at hle
      omega

theorem follows_switchStatement (h : Holds l (lo + 1) hi items) :
    Follows l (StmtAt l lo hi) (switchStatement l parts lo hi) (Ast.switchStatement parsers items) := by
  rw [switchStatement, Ast.switchStatement]
  refine follows_bind (follows_expectOpen hw h .round) ?_
  intro close header hheader
  have hlt := hheader.lt
  refine follows_bind (hp.expression hheader.covers) ?_
  rintro selector _ rfl
  refine follows_bind (follows_expectOpen hw hheader.rest .curly) ?_
  intro bodyClose braces hbraces
  have hlt' := hbraces.lt
  have hplain : Plain fun t => t.isWord "case" || t.isWord "default" :=
    plain_or (plain_isWord _) (plain_isWord _)
  have hinside : Holds l (close + 2) bodyClose braces.items := hbraces.inside
  have hstart : Precedes l (close + 2) (close + 2) none := rfl
  obtain ⟨hlead, hclauses⟩ := splitClauses_eq hinside hstart (Nat.le_refl _)
  dsimp only
  rw [findAll_eq hplain hinside, done_bind]
  generalize splitClauses none braces.items = split at hlead hclauses ⊢
  generalize (marksIn _ _ _).filter _ = markers at hlead hclauses ⊢
  obtain ⟨lead, parted⟩ := split
  dsimp only at hlead hclauses ⊢
  have hempty : lead.isEmpty = true ↔ ¬(close + 2 < bodyClose ∧ markers.head? ≠ some (close + 2)) := by
    rw [List.isEmpty_iff, ← hlead.eq_iff]
    cases hhead : markers.head? with
    | none =>
      have hle := hinside.le
      simp
      omega
    | some marker =>
      have hlt := hclauses.lt hhead
      rw [Option.getD_some, Ne, Option.some.injEq]
      rw [hhead, Option.getD_some] at hlead
      have hle := hlead.le
      omega
  by_cases hrefused : close + 2 < bodyClose ∧ markers.head? ≠ some (close + 2)
  · rw [if_pos hrefused, if_neg (mt hempty.1 (not_not.2 hrefused))]
    exact follows_refuse hw hinside rfl
  · rw [if_neg hrefused, if_pos (hempty.2 hrefused)]
    refine follows_map (follows_clauses hw hp hclauses hbraces.ends hbraces.unnamed) ?_
    rintro cs _ rfl
    exact ⟨rfl, by dsimp only; omega, hbraces.closing, hbraces.rest⟩

/-! ## Guarded blocks -/

omit hw hp in
/-- The parentheses of a handler are passed over as its group is. -/
theorem handlerHeaderAt_eq (h : Holds l pos hi items) (hends : NoOpening l hi) :
    ∃ block, handlerHeaderAt l pos hi = done ((handlerHeader items).1, block) ∧ pos ≤ block ∧
      Holds l block hi (handlerHeader items).2 := by
  match items, h with
  | [], h =>
    refine ⟨pos, ?_, Nat.le_refl _, h⟩
    rw [handlerHeaderAt, h.eq_iff.2 rfl, hends .round, if_neg (by simp)]
    rfl
  | .leaf t :: rest, h =>
    refine ⟨pos, ?_, Nat.le_refl _, h⟩
    rw [handlerHeaderAt, h.punctAt_leaf, if_neg (by simp)]
    rfl
  | .group .square o c inner :: rest, h =>
    refine ⟨pos, ?_, Nat.le_refl _, h⟩
    rw [handlerHeaderAt, h.punctAt_group, if_neg (by simp)]
    rfl
  | .group .curly o c inner :: rest, h =>
    refine ⟨pos, ?_, Nat.le_refl _, h⟩
    rw [handlerHeaderAt, h.punctAt_group, if_neg (by simp)]
    rfl
  | .group .round o c inner :: rest, h =>
    obtain ⟨close, hclose, hopen⟩ := h.openAt
    have hlt := hopen.lt
    have hinside := hopen.inside
    dsimp only at hinside
    refine ⟨close + 1, ?_, by omega, hopen.rest⟩
    rw [handlerHeaderAt, h.punctAt_group, if_pos (by simp), hclose, done_bind, handlerHeader]
    match inner, hinside with
    | [], hinside =>
      have heq := hinside.eq_iff.2 rfl
      rw [if_neg (by omega)]
      rfl
    | [.leaf t], hinside =>
      have heq := hinside.after_leaf.eq_iff.2 rfl
      rw [if_pos heq.symm, tokenAt_eq hinside.first, done_bind]
      rfl
    | [.group b o c inner], hinside =>
      obtain ⟨close', -, hopen'⟩ := hinside.openAt
      have hlt' := hopen'.lt
      have hle' := hopen'.rest.le
      rw [if_neg (by omega)]
      rfl
    | first :: second :: more, hinside =>
      have hpos := width_pos first
      have hlt' := hinside.tail.lt (List.cons_ne_nil _ _)
      rw [if_neg (by omega)]
      rfl

/-- A part at the end of a statement that may be missing: the same one, with the same rest. -/
structure TailAt {α : Type} (l : Layout) (pos hi : Nat) (x : α × Nat) (y : α × Token × List Item) :
    Prop where
  result : x.1 = y.1
  le : pos ≤ x.2
  last : l.tokens[x.2 - 1]? = some y.2.1
  rest : Holds l x.2 hi y.2.2

omit hp in
theorem follows_handlerAt {last : Token} (h : Holds l pos hi items)
    (hends : NoOpening l hi) (hlast : l.tokens[pos - 1]? = some last) :
    Follows l (TailAt l pos hi) (handlerAt l pos hi) (handler last items) := by
  rw [handlerAt]
  rcases h.word_cases "catch" with ⟨hread, hhead⟩ | ⟨word, rest, rfl, hcatch, hread, hcut⟩
  · have hnone : handler last items = Parse.done (none, last, items) := by
      cases items with
      | nil => rfl
      | cons word rest => rw [handler, hhead word rfl, if_neg Bool.false_ne_true]
    rw [if_neg hread, hnone]
    exact follows_done ⟨rfl, Nat.le_refl _, hlast, h⟩
  · obtain ⟨block, hheader, hle, hblock⟩ := handlerHeaderAt_eq hcut.right hends
    rw [if_pos hread, handler, if_pos hcatch, hheader, done_bind]
    refine follows_map (follows_expectOpen hw hblock .curly) ?_
    intro close braces hbraces
    have hlt' := hbraces.lt
    exact ⟨rfl, by dsimp only; omega, hbraces.closing, hbraces.rest⟩

theorem follows_cleanupAt {last : Token} (h : Holds l pos hi items)
    (hlast : l.tokens[pos - 1]? = some last) :
    Follows l (TailAt l pos hi) (cleanupAt l parts pos hi) (cleanup parsers last items) := by
  rw [cleanupAt]
  rcases h.word_cases "finally" with ⟨hread, hhead⟩ | ⟨word, rest, rfl, hfinally, hread, hcut⟩
  · have hnone : cleanup parsers last items = Parse.done (none, last, items) := by
      cases items with
      | nil => rfl
      | cons word rest => rw [cleanup, hhead word rfl, if_neg Bool.false_ne_true]
    rw [if_neg hread, hnone]
    exact follows_done ⟨rfl, Nat.le_refl _, hlast, h⟩
  · rw [if_pos hread, cleanup, if_pos hfinally]
    refine follows_bind (follows_expectOpen hw hcut.right .curly) ?_
    intro close braces hbraces
    have hlt' := hbraces.lt
    have hbody := follows_statements hp hbraces.covers
    rw [hbraces.unnamed] at hbody
    refine follows_map hbody ?_
    rintro body _ rfl
    exact ⟨rfl, by dsimp only; omega, hbraces.closing, hbraces.rest⟩

theorem follows_tryStatement (h : Holds l (lo + 1) hi items) (hends : NoOpening l hi) :
    Follows l (StmtAt l lo hi) (tryStatement l parts lo hi) (Ast.tryStatement parsers items) := by
  rw [tryStatement, Ast.tryStatement]
  refine follows_bind (follows_expectOpen hw h .curly) ?_
  intro close braces hbraces
  have hlt := hbraces.lt
  have hbody := follows_statements hp hbraces.covers
  rw [hbraces.unnamed] at hbody
  refine follows_bind hbody ?_
  rintro body _ rfl
  refine follows_bind (follows_handlerAt hw hbraces.rest hends hbraces.closing) ?_
  rintro ⟨caught, next⟩ ⟨_, last, rest⟩ ⟨hresult, hle, hlast, hrest⟩
  dsimp only at hresult hle hlast hrest ⊢
  subst hresult
  refine follows_map (follows_cleanupAt hw hp hrest hlast) ?_
  rintro ⟨final, next'⟩ ⟨_, last', rest'⟩ ⟨hresult, hle', hlast', hrest'⟩
  dsimp only at hresult hle' hlast' hrest' ⊢
  subst hresult
  exact ⟨rfl, by dsimp only; omega, hlast', hrest'⟩

/-! ## Statements by their first token -/

omit hw hp in
theorem upToSemicolon_cons {item : Item} (h : item.isPunct .semicolon = false) :
    upToSemicolon (item :: rest) = (item :: (upToSemicolon rest).1, (upToSemicolon rest).2) := by
  rw [upToSemicolon, first?_cons, meets_isPunct, h, upToSemicolon]
  cases Cut.first? (fun t => t.isPunct .semicolon) rest <;> rfl

omit hw in
theorem follows_expressionStatement {before : Option Token} {first : Item}
    (h : Covers l (lo, hi) ⟨before, first :: rest⟩) (hfirst : first.isPunct .semicolon = false) :
    Follows l (StmtAt l lo hi) (expressionStatement l parts lo hi)
      (Ast.expressionStatement parsers ⟨before, first :: rest⟩ first) := by
  obtain ⟨stop, hread, hitems, hrest, hends⟩ := statementEnd_eq h.holds h.ends
  dsimp only at hitems hrest
  rw [expressionStatement, hread, done_bind, Ast.expressionStatement]
  dsimp only
  rw [upToSemicolon_cons hfirst] at hitems hrest ⊢
  dsimp only at hitems hrest ⊢
  have hcovers : Covers l (lo, stop) ⟨before, first :: (upToSemicolon rest).1⟩ :=
    ⟨hitems, h.before, hends⟩
  refine follows_map (hp.expression hcovers) ?_
  rintro e _ rfl
  refine ⟨rfl, hitems.lt (List.cons_ne_nil _ _), ?_, hrest⟩
  have hlast : ((first :: (upToSemicolon rest).1).getLast?) = some _ :=
    List.getLast?_eq_some_getLast (List.cons_ne_nil _ _)
  rw [lastToken, hlast]
  exact hitems.last hlast

omit hw hp in
/-- A statement that ends at the next semicolon. -/
theorem follows_simple {α : Type} {f : Nat → Reading α}
    {y : Parse α} {e : α → Stmt} (h : Holds l lo hi (.leaf word :: rest)) (hends : NoOpening l hi)
    (hf : ∀ stop, Covers l (lo + 1, stop) ⟨some word, (upToSemicolon rest).1⟩ →
      Follows l Eq (f stop) y) :
    Follows l (StmtAt l lo hi)
      (l.statementEnd (lo + 1) hi >>= fun stop => f stop >>= fun a => done (e a, stop))
      (y >>= fun a => Parse.done ⟨e a, lastToken word (upToSemicolon rest).1, (upToSemicolon rest).2⟩) := by
  obtain ⟨stop, hread, hitems, hrest, hstop⟩ := statementEnd_eq h.after_leaf hends
  have hle := hitems.le
  rw [hread, done_bind]
  refine follows_map (hf stop ⟨hitems, before_eq h.first, hstop⟩) ?_
  rintro a _ rfl
  exact ⟨rfl, by dsimp only; omega, hitems.lastToken h.first, hrest⟩

omit hp in
/-- A statement that is a single word. -/
theorem follows_leave (h : Holds l lo hi (.leaf word :: rest))
    (hends : NoOpening l hi) (stmt : Stmt) :
    Follows l (StmtAt l lo hi)
      (l.statementEnd (lo + 1) hi >>= fun stop =>
        if stop = lo + 1 then done (stmt, stop) else l.unsupported lo stop)
      (if (upToSemicolon rest).1.isEmpty then
        Parse.done ⟨stmt, lastToken word (upToSemicolon rest).1, (upToSemicolon rest).2⟩
      else Parse.unsupported (Item.spanOf (.leaf word :: (upToSemicolon rest).1))) := by
  obtain ⟨stop, hread, hitems, hrest, hstop⟩ := statementEnd_eq h.after_leaf hends
  have hempty : stop = lo + 1 ↔ (upToSemicolon rest).1.isEmpty = true := by
    rw [List.isEmpty_iff, ← hitems.eq_iff]
    exact eq_comm
  rw [hread, done_bind]
  refine follows_ite hempty (fun heq => ?_) fun _ => ?_
  · exact follows_done ⟨rfl, by dsimp only; omega, hitems.lastToken h.first, hrest⟩
  · cases h with
    | leaf ht hk hp => exact follows_unsupported hw (.leaf ht hk hp hitems)

theorem follows_wordStatement {before : Option Token} {name : String}
    (h : Covers l (lo, hi) ⟨before, .leaf word :: rest⟩) (hname : word.ident? = some name) :
    Follows l (StmtAt l lo hi) (wordStatement l parts lo hi name)
      (Ast.wordStatement parsers (l.identAt? hi).isSome ⟨before, .leaf word :: rest⟩ word name
        rest) := by
  have holds := h.holds
  have hends := h.ends
  dsimp only at holds hends
  have hrest := holds.after_leaf
  have hsemi : Item.isPunct (.leaf word) .semicolon = false := by
    have hword : Item.isWord (.leaf word) name = true := beq_iff_eq.2 hname
    exact isPunct_of_isWord hword
  have hdeclares : (name = "function" ∧ (l.identAt? (lo + 1)).isSome = true) ↔
      (name = "function" ∧ declaresFunction (l.identAt? hi).isSome rest = true) := by
    cases rest with
    | nil => rw [hrest.eq_iff.2 rfl, declaresFunction]
    | cons next more => rw [hrest.identAt, declaresFunction]
  rw [wordStatement, Ast.wordStatement]
  dsimp only
  refine follows_ite Iff.rfl (fun _ => follows_simple holds hends fun stop hstop =>
    follows_declarations hw hp hstop) fun _ => ?_
  refine follows_ite Iff.rfl (fun _ => follows_simple holds hends fun stop hstop =>
    follows_optionalExpression hp hstop) fun _ => ?_
  refine follows_ite Iff.rfl (fun _ => follows_simple holds hends fun stop hstop =>
    hp.expression hstop) fun _ => ?_
  refine follows_ite Iff.rfl (fun _ => follows_leave hw holds hends _) fun _ => ?_
  refine follows_ite Iff.rfl (fun _ => follows_ifStatement hw hp hrest hends) fun _ => ?_
  refine follows_ite Iff.rfl (fun _ => follows_forStatement hw hp hrest hends holds.first) fun _ => ?_
  refine follows_ite Iff.rfl (fun _ => follows_switchStatement hw hp hrest) fun _ => ?_
  refine follows_ite Iff.rfl (fun _ => follows_tryStatement hw hp hrest hends) fun _ => ?_
  refine follows_ite hdeclares (fun _ => ?_) fun _ => ?_
  · refine follows_map (follows_functionAt hp hw hrest) ?_
    intro f f' hf
    refine ⟨?_, hf.lt, hf.last, hf.rest⟩
    rw [hf.name, hf.params, hf.body]
  refine follows_ite Iff.rfl (fun _ => ?_) fun _ => follows_expressionStatement hp h hsemi
  obtain ⟨stop, hread, hitems, -, -⟩ := statementEnd_eq holds hends
  rw [upToSemicolon_cons hsemi] at hitems
  rw [hread, done_bind]
  exact follows_unsupported hw hitems

/-! ## Blocks and objects -/

omit hw hp in
theorem isObjectAt_eq {close : Nat} {o : Opened} (h : OpenAt l lo hi close o) :
    isObjectAt l lo close hi = isObject o.items o.rest := by
  have hlt := h.lt
  have hle := h.rest.le
  have hinner := h.inside.eq_iff
  have hrest := h.rest.eq_iff
  have hempty : (decide (close = lo + 1) && decide (close + 1 = hi)) =
      (o.items.isEmpty && o.rest.isEmpty) := by
    rw [Bool.eq_iff_iff, Bool.and_eq_true, Bool.and_eq_true, decide_eq_true_eq, decide_eq_true_eq,
      List.isEmpty_iff, List.isEmpty_iff, ← hinner, ← hrest, eq_comm]
  unfold isObjectAt isObject
  refine congrArg₂ or (congrArg₂ or ?_ ?_) hempty
  · -- a member is taken
    cases hitems : o.rest with
    | nil =>
      have heq := hrest.2 hitems
      rw [decide_eq_false (by omega), Bool.false_and]
    | cons item more =>
      have holds := h.rest
      rw [hitems] at holds
      rw [decide_eq_true (holds.lt (List.cons_ne_nil _ _)), Bool.true_and, holds.punctAt rfl,
        holds.punctAt rfl]
      cases item with
      | leaf t => rw [holds.punctAt_leaf, Bool.or_false]
      | group b o c inner =>
        rw [holds.punctAt_group]
        cases b <;> rfl
  · -- the first entry has a key and a colon
    cases hitems : o.items with
    | nil =>
      have heq := hinner.2 hitems
      rw [decide_eq_false (by omega), Bool.false_and, Bool.false_and]
    | cons key more =>
      have holds := h.inside
      rw [hitems] at holds
      rw [holds.keyAt]
      cases hkey : memberKey? key with
      | none =>
        rw [Option.isSome_none, Bool.and_false, Bool.false_and]
        cases more with
        | nil => rfl
        | cons colon more =>
          dsimp only
          rw [hkey]
          rfl
      | some name =>
        have hmore := holds.after_key hkey
        cases more with
        | nil =>
          have heq := hmore.eq_iff.2 rfl
          rw [decide_eq_false (by omega), Bool.false_and, Bool.false_and]
        | cons colon more =>
          dsimp only
          rw [decide_eq_true (hmore.lt (List.cons_ne_nil _ _)), Bool.true_and, hkey,
            ← hmore.punctAt (p := .colon) rfl]

theorem follows_statementStep (h : Covers l (lo, hi) r) (hne : r.items ≠ []) :
    Follows l (StmtAt l lo hi) (statementStep l parts lo hi)
      (Ast.statementStep parsers (l.identAt? hi).isSome r) := by
  obtain ⟨before, items⟩ := r
  have holds := h.holds
  dsimp only at holds hne
  match items, holds with
  | .leaf t :: rest, holds =>
    rw [statementStep, tokenAt_eq holds.first, done_bind, Ast.statementStep]
    dsimp only [Item.first]
    have hplain := holds.leaf_plain
    cases hkind : t.kind with
    | ident name =>
      have hname := ident_leaf hkind
      rw [show t.isPunct .semicolon = false by rw [Token.isPunct, Token.punct?, hkind]; rfl, hname,
        if_neg Bool.false_ne_true]
      exact follows_wordStatement hw hp h hname
    | punct p =>
      rw [hkind] at hplain
      have hpunct := isPunct_leaf hkind .semicolon
      have hident : t.ident? = none := by rw [Token.ident?, hkind]
      rw [hpunct, hident]
      cases p with
      | semicolon => exact follows_done ⟨rfl, Nat.lt_succ_self lo, holds.first, holds.after_leaf⟩
      | opening b => cases hplain
      | _ => exact follows_expressionStatement hp h hpunct
    | number x =>
      have hpunct : t.isPunct .semicolon = false := by rw [Token.isPunct, Token.punct?, hkind]; rfl
      rw [hpunct, if_neg Bool.false_ne_true, show t.ident? = none by rw [Token.ident?, hkind]]
      exact follows_expressionStatement hp h hpunct
    | string s =>
      have hpunct : t.isPunct .semicolon = false := by rw [Token.isPunct, Token.punct?, hkind]; rfl
      rw [hpunct, if_neg Bool.false_ne_true, show t.ident? = none by rw [Token.ident?, hkind]]
      exact follows_expressionStatement hp h hpunct
  | .group b o c inner :: rest, holds =>
    have hkind := holds.group_kinds.1
    rw [statementStep, tokenAt_eq holds.first, done_bind]
    dsimp only [Item.first]
    rw [hkind]
    cases b with
    | round => exact follows_expressionStatement hp h rfl
    | square => exact follows_expressionStatement hp h rfl
    | curly =>
      obtain ⟨close, hclose, hopen⟩ := holds.openAt
      have hlt := hopen.lt
      have hbody := follows_statements hp hopen.covers
      rw [hopen.unnamed] at hbody
      dsimp only
      rw [hclose, done_bind, isObjectAt_eq hopen]
      refine follows_ite Iff.rfl (fun _ => follows_expressionStatement hp h rfl) fun _ => ?_
      refine follows_map hbody ?_
      rintro body _ rfl
      exact ⟨rfl, by dsimp only; omega, hopen.closing, hopen.rest⟩

end Statements

/-! ## The whole parser -/

section Within

variable (hw : WellPlaced l)
include hw

/-- A range that is empty or too deep is refused; any other is left to the next step. -/
theorem follows_expressionWithin {depth : Nat} (h : Covers l (lo, hi) r)
    (hstep : ∀ depth', depth = depth' + 1 → PartsFollow l (readersWithin l depth')
      (parsersWithin depth')) :
    Follows l Eq (expressionWithin l depth lo hi) (Ast.expressionWithin depth r) := by
  have hempty := h.isEmpty_iff
  dsimp only at hempty
  unfold expressionWithin
  refine follows_note h.holds.closed ?_
  by_cases hle : hi ≤ lo
  · have hnil := List.isEmpty_iff.1 (hempty.2 hle)
    have hmissing : Ast.expressionWithin depth r = r.missing "expression" := by
      cases depth <;> rw [Ast.expressionWithin, if_pos (hempty.2 hle)]
    have hmax : max hi lo = hi := by
      have := h.holds.le
      dsimp only at this
      omega
    rw [if_pos hle, hmissing, hmax]
    exact follows_missing hw h hnil _
  · rw [if_neg hle]
    cases depth with
    | zero =>
      rw [Ast.expressionWithin, if_neg (mt hempty.1 hle)]
      exact follows_refuse hw h.holds rfl
    | succ depth =>
      rw [Ast.expressionWithin, if_neg (mt hempty.1 hle)]
      exact follows_expressionStep hw (hstep depth rfl) h (mt List.isEmpty_iff.2 (mt hempty.1 hle))

theorem follows_statementWithin {depth : Nat} (h : Covers l (lo, hi) r)
    (hstep : ∀ depth', depth = depth' + 1 → PartsFollow l (readersWithin l depth')
      (parsersWithin depth')) :
    Follows l (StmtAt l lo hi) (statementWithin l depth lo hi)
      (Ast.statementWithin depth (l.identAt? hi).isSome r) := by
  have hempty := h.isEmpty_iff
  dsimp only at hempty
  unfold statementWithin
  refine follows_note h.holds.closed ?_
  by_cases hle : hi ≤ lo
  · have hnil := List.isEmpty_iff.1 (hempty.2 hle)
    have hmissing : Ast.statementWithin depth (l.identAt? hi).isSome r = r.missing "statement" := by
      cases depth <;> rw [Ast.statementWithin, if_pos (hempty.2 hle)]
    rw [if_pos hle, hmissing]
    exact follows_missing hw h hnil _
  · rw [if_neg hle]
    cases depth with
    | zero =>
      rw [Ast.statementWithin, if_neg (mt hempty.1 hle)]
      exact follows_refuse hw h.holds rfl
    | succ depth =>
      rw [Ast.statementWithin, if_neg (mt hempty.1 hle)]
      exact follows_statementStep hw (hstep depth rfl) h (mt List.isEmpty_iff.2 (mt hempty.1 hle))

theorem partsFollow_within (depth : Nat) :
    PartsFollow l (readersWithin l depth) (parsersWithin depth) := by
  induction depth with
  | zero =>
    refine ⟨fun h => follows_expressionWithin hw h ?_, fun h => follows_statementWithin hw h ?_⟩
    all_goals
      intro depth' heq
      cases heq
  | succ depth ih =>
    refine ⟨fun h => follows_expressionWithin hw h ?_, fun h => follows_statementWithin hw h ?_⟩
    all_goals
      rintro depth' heq
      cases heq
      exact ih

/-- Reading a whole layout follows parsing the items that it holds. -/
theorem follows_parse (h : Holds l 0 l.tokens.size items) (maxDepth : Nat) :
    Follows l Eq (parse l maxDepth)
      (Ast.statements (parsersWithin maxDepth) false ⟨none, items⟩) := by
  have hends : l.tokens[l.tokens.size]? = none := Array.getElem?_eq_none (Nat.le_refl _)
  have hcovers : Covers l (0, l.tokens.size) ⟨none, items⟩ := by
    refine ⟨h, rfl, fun b => ?_⟩
    rw [Layout.punctAt, hends]
    rfl
  have hparse := follows_statements (partsFollow_within hw maxDepth) hcovers
  rw [Layout.identAt?, hends] at hparse
  exact hparse

end Within

end PlayerScript.Ast.Ranges
