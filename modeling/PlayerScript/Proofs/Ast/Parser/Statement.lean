/-
Reading printed statements, one construct at a time, in the manner of the expressions: if the parts
of a statement are read back, the statement is. A statement may stand before others. A simple one
leaves its semicolon to them, and none of them begins with a word that would continue it.
-/
import PlayerScript.Proofs.Ast.Parser.Expression

namespace PlayerScript.Ast

open Shape Item

variable {s : Stmt} {stmts body : List Stmt} {item : Item} {decls : List (String × Option Expr)}
  {t : Token} {name : String} {c : Clause} {previous : Option Item} {clauses : List Clause}
  {caught : Option (Option String)}
variable {parts : Parsers} {before : Option Token} {items rest : List Item} {clauseNext : Bool}

/-! ## What a statement begins with -/

/-- The words that continue a statement. -/
def continuingWords : List String := ["else", "catch", "finally"]

/-- Whether a shape can begin a statement and cannot continue the one before it. -/
def opensStatement : Shape → Bool
  | .leaf (.ident name) => !continuingWords.contains name
  | .leaf _ => false
  | .group b _ => b != .square

/-- The items begin with a new statement, if there are any. -/
def StartsAnew (rest : List Item) : Prop := ∀ item ∈ rest.head?, opensStatement item.shape = true

theorem stmtShapes_opens (h : stmtWritable s = true) :
    ∃ first more, stmtShapes s = first :: more ∧ opensStatement first = true := by
  cases s with
  | empty => cases h
  | ifElse cond body otherwise => cases otherwise <;> exact ⟨_, _, by rw [stmtShapes], rfl⟩
  | tryBlock body handler cleanup => cases cleanup <;> exact ⟨_, _, by rw [stmtShapes], rfl⟩
  | _ => exact ⟨_, _, by rw [stmtShapes], rfl⟩

theorem startsAnew_body (h : bodyWritable stmts = true) : StartsAnew (ofShapes (bodyShapes stmts)) := by
  cases stmts with
  | nil => simp [StartsAnew, bodyShapes]
  | cons s more =>
    rw [bodyWritable, Bool.and_eq_true] at h
    obtain ⟨first, shapes, hs, hopen⟩ := stmtShapes_opens h.1
    rw [bodyShapes, hs, List.cons_append, ofShapes]
    rintro _ ⟨⟩
    rwa [shape_ofShape]

theorem StartsAnew.isWord {rest : List Item} (h : StartsAnew (item :: rest))
    (name : String) (hname : name ∈ continuingWords) : item.isWord name = false := by
  have hopen := h item rfl
  cases item with
  | group => rfl
  | leaf t =>
    rw [shape_leaf] at hopen
    rw [Item.isWord, Item.ident?, Token.ident?]
    cases hk : t.kind with
    | ident word =>
      rw [hk, opensStatement, Bool.not_eq_true'] at hopen
      have hne : word ≠ name := by
        rintro rfl
        rw [List.contains_eq_mem, decide_eq_false_iff_not] at hopen
        exact hopen hname
      simpa using hne
    | _ => rfl

theorem StartsAnew.isPunct {rest : List Item} (h : StartsAnew (item :: rest))
    (p : Punct) : item.isPunct p = false := by
  have hopen := h item rfl
  rw [← Bool.not_eq_true, isPunct_iff]
  intro hp
  rw [hp] at hopen
  cases hopen

theorem elseBranch_startsAnew (h : StartsAnew rest) : elseBranch? rest = none := by
  cases rest with
  | nil => rfl
  | cons item rest =>
    unfold elseBranch?
    simp only [h.isWord "else" (by decide), h.isPunct, Bool.false_eq_true, if_false]

/-! ## What a parser for statements gives -/

/-- What is left after a statement before `rest`: `rest` itself, or its semicolon before it. -/
def Leaves (rest : List Item) (left : List Item) : Prop :=
  left = rest ∨ left = .leaf ⟨.punct .semicolon, 0, 0⟩ :: rest

/-- A parser gives a statement back that stands before others. -/
def GivesBack (parse : Bool → Range → Parse Parsed) (s : Stmt) : Prop :=
  ∀ clauseNext before rest, StartsAnew rest →
    ∃ last left, parse clauseNext ⟨before, ofShapes (stmtShapes s) ++ rest⟩ = Parse.done ⟨s, last, left⟩ ∧
      Leaves rest left ∧ left.length < (ofShapes (stmtShapes s) ++ rest).length

/-- Whether what follows braces takes a member of them. -/
def takesMember : List Item → Bool
  | .group .square _ _ _ :: _ => true
  | item :: _ => item.isPunct .dot || item.isPunct .optionalDot
  | [] => false

/-- A parser gives a block back, whatever follows, unless a member of it is taken. -/
def GivesBlock (parse : Bool → Range → Parse Parsed) (s : Stmt) : Prop :=
  ∀ clauseNext before rest, takesMember rest = false →
    ∃ last, parse clauseNext ⟨before, ofShapes (stmtShapes s) ++ rest⟩ = Parse.done ⟨s, last, rest⟩

theorem StartsAnew.takesMember (h : StartsAnew rest) : takesMember rest = false := by
  unfold Ast.takesMember
  split
  · exact absurd (h _ rfl) (by simp [opensStatement])
  · rw [h.isPunct, h.isPunct]; rfl
  · rfl

theorem statementsFrom_body (hw : bodyWritable stmts = true) (hr : ∀ s ∈ stmts, GivesBack parts.statement s) :
    ∀ (fuel : Nat) (before : Option Token), (ofShapes (bodyShapes stmts)).length ≤ fuel →
      statementsFrom parts clauseNext fuel before (ofShapes (bodyShapes stmts)) = Parse.done stmts := by
  induction stmts with
  | nil =>
    intro fuel before _
    rw [bodyShapes]
    cases fuel <;> rfl
  | cons s stmts ih =>
    intro fuel before hfuel
    rw [bodyWritable, Bool.and_eq_true] at hw
    rw [List.forall_mem_cons] at hr
    obtain ⟨last, left, hparse, hleaves, hless⟩ := hr.1 clauseNext before _ (startsAnew_body hw.2)
    obtain ⟨first, more, hshapes, hopen⟩ := stmtShapes_opens hw.1
    have hsemi : (ofShape first).isPunct .semicolon = false := by
      rw [← Bool.not_eq_true, isPunct_iff, shape_ofShape]
      rintro rfl
      cases hopen
    rw [bodyShapes, ofShapes_append] at hfuel ⊢
    rw [hshapes, ofShapes, List.cons_append, List.length_cons] at hfuel hless
    obtain ⟨fuel, rfl⟩ : ∃ n, fuel = n + 1 := ⟨fuel - 1, by omega⟩
    -- A semicolon that the statement leaves behind is skipped as one of its own.
    have hmore : statementsFrom parts clauseNext fuel (some last) left = Parse.done stmts := by
      rcases hleaves with rfl | rfl
      · exact ih hw.2 hr.2 fuel (some last) (by omega)
      · rw [List.length_cons] at hless
        obtain ⟨fuel, rfl⟩ : ∃ n, fuel = n + 1 := ⟨fuel - 1, by omega⟩
        exact ih hw.2 hr.2 fuel _ (by omega)
    rw [hshapes, ofShapes, List.cons_append] at hparse ⊢
    rw [statementsFrom, hsemi, if_neg (by simp), hparse, done_bind, hmore]
    rfl

theorem readsBody (hw : bodyWritable stmts = true) (hr : ∀ s ∈ stmts, GivesBack parts.statement s) :
    ReadsBody parts stmts :=
  fun _ before => ⟨statementsFrom_body hw hr _ before (Nat.le_refl _),
    statementsFrom_body hw hr _ (some ⟨.punct .semicolon, 0, 0⟩) (Nat.le_refl _)⟩

/-! ## Simple statements -/

theorem declShapes_eq_map : ∀ decls : List (String × Option Expr),
    declShapes decls = decls.map fun d => word d.1 ::
      (match d.2 with
        | none => []
        | some e => [mark (.assign none), .group .round (inside e)])
  | [] => by rw [declShapes, List.map_nil]
  | (name, none) :: rest => by rw [declShapes, declShapes_eq_map rest, List.map_cons]
  | (name, some e) :: rest => by rw [declShapes, declShapes_eq_map rest, List.map_cons]

theorem optionalExpression_done {value : Option Expr} (hv : ∀ e ∈ value, Reads parts e) (before : Option Token) :
    optionalExpression parts ⟨before, ofShapes (optionalShapes value)⟩ = Parse.done value := by
  cases value with
  | none => rw [optionalShapes]; rfl
  | some e =>
    rw [optionalShapes, optionalExpression, if_neg (by simp), (hv e rfl).wrapped]
    rfl

theorem declarations_done (hne : decls ≠ []) (hd : ∀ d ∈ decls, ∀ e ∈ d.2, Reads parts e) (word : Token) :
    declarations parts word (ofShapes (commas (declShapes decls))) = Parse.done decls := by
  rw [declShapes_eq_map]
  have hfull : commas (decls.map fun d => Shape.word d.1 :: (match d.2 with
      | none => []
      | some e => [mark (.assign none), .group .round (inside e)])) ≠ [] := by
    obtain ⟨d, ds, rfl⟩ := List.exists_cons_of_ne_nil hne
    cases ds <;> simp [commas, List.intercalate_cons_cons]
  rw [declarations, if_neg (by simpa [ofShapes_eq_nil] using hfull),
    splitAt_commas hne fun d => by cases d.2 <;> simp [mark, Shape.word],
    each_rangesOf fun d hmem before => ?_, List.map_id']
  obtain ⟨name, value⟩ := d
  cases value with
  | none => rfl
  | some e =>
    simp [Shape.word, mark, declaration, Item.ident?, Token.ident?, Item.isPunct, (hd _ hmem e rfl).group, done_bind]
    rfl

theorem statementStep_word (ht : t.kind = .ident name) :
    statementStep parts clauseNext ⟨before, .leaf t :: rest⟩ =
      wordStatement parts clauseNext ⟨before, .leaf t :: rest⟩ t name rest := by
  simp [statementStep, Token.isPunct, Token.punct?, ht, ident_leaf ht]

/-- A statement of a word, some items and a semicolon is read if its items are. -/
theorem givesBack_simple (shapes : List Shape)
    (hs : stmtShapes s = word name :: (shapes ++ [mark .semicolon])) (hsemi : mark .semicolon ∉ shapes)
    (hparse : ∀ clauseNext r t more following, upToSemicolon more = (ofShapes shapes, following) →
      wordStatement parts clauseNext r t name more =
        Parse.done ⟨s, lastToken t (ofShapes shapes), following⟩) :
    GivesBack (statementStep parts) s := by
  intro clauseNext before rest _
  have hcut := upToSemicolon_append (t := ⟨.punct .semicolon, 0, 0⟩) (ofShapes shapes)
    (by rwa [map_shape_ofShapes]) rfl rest
  refine ⟨lastToken ⟨.ident name, 0, 0⟩ (ofShapes shapes), .leaf ⟨.punct .semicolon, 0, 0⟩ :: rest, ?_,
    .inr rfl, by simp [hs]⟩
  rw [hs, ofShapes, ofShapes_append, word, ofShape, List.cons_append, List.append_assoc, statementStep_word rfl]
  exact hparse _ _ _ _ _ hcut

theorem semicolon_notMem_decls (decls : List (String × Option Expr)) :
    mark .semicolon ∉ commas (declShapes decls) := by
  intro hsemi
  rcases mem_commas hsemi with h | ⟨part, hpart, h⟩
  · simp [mark] at h
  · rw [declShapes_eq_map, List.mem_map] at hpart
    obtain ⟨⟨name, value⟩, -, rfl⟩ := hpart
    cases value <;> simp [mark, word] at h

theorem semicolon_notMem_optional (value : Option Expr) :
    mark .semicolon ∉ optionalShapes value := by
  cases value <;> simp [optionalShapes, mark]

theorem statementStep_var (hne : decls ≠ []) (hd : ∀ d ∈ decls, ∀ e ∈ d.2, Reads parts e) :
    GivesBack (statementStep parts) (.var decls) := by
  refine givesBack_simple (commas (declShapes decls)) (by rw [stmtShapes])
    (semicolon_notMem_decls decls) ?_
  intro clauseNext r t more following hcut
  simp [wordStatement, hcut, declaringWords, declarations_done hne hd, done_bind]
  rfl

theorem statementStep_returns {value : Option Expr} (hv : ∀ e ∈ value, Reads parts e) :
    GivesBack (statementStep parts) (.returns value) := by
  refine givesBack_simple (optionalShapes value) (by rw [stmtShapes])
    (semicolon_notMem_optional value) ?_
  intro clauseNext r t more following hcut
  simp [wordStatement, hcut, declaringWords, optionalExpression_done hv, done_bind]
  rfl

theorem statementStep_throws {value : Expr} (hv : Reads parts value) :
    GivesBack (statementStep parts) (.throws value) := by
  refine givesBack_simple [.group .round (inside value)] (by rw [stmtShapes]; rfl)
    (by simp [mark]) ?_
  intro clauseNext r t more following hcut
  simp [wordStatement, hcut, declaringWords, hv.group, done_bind]
  rfl

theorem statementStep_breaks : GivesBack (statementStep parts) .breaks := by
  refine givesBack_simple [] (by rw [stmtShapes]; rfl) (by simp) ?_
  intro clauseNext r t more following hcut
  simp [wordStatement, hcut, declaringWords]

theorem statementStep_continues : GivesBack (statementStep parts) .continues := by
  refine givesBack_simple [] (by rw [stmtShapes]; rfl) (by simp) ?_
  intro clauseNext r t more following hcut
  simp [wordStatement, hcut, declaringWords]

theorem statementStep_expr {e : Expr} (he : Reads parts e) :
    GivesBack (statementStep parts) (.expr e) := by
  intro clauseNext before rest _
  have hcut := upToSemicolon_append (t := ⟨.punct .semicolon, 0, 0⟩) (ofShapes [.group .round (inside e)])
    (by simp [mark]) rfl rest
  refine ⟨⟨.punct (.closing .round), 0, 0⟩, .leaf ⟨.punct .semicolon, 0, 0⟩ :: rest, ?_, .inr rfl, by simp [stmtShapes]⟩
  simp only [ofShapes, ofShape, List.singleton_append] at hcut
  simp [stmtShapes, mark, statementStep, expressionStatement, hcut, he.group, done_bind, lastToken, Item.last]
  rfl

/-! ## Blocks, branches and loops -/

theorem statementStep_block (hbody : ReadsBody parts body) :
    GivesBlock (statementStep parts) (.block body) := by
  intro clauseNext before rest hrest
  -- No object begins with a semicolon.
  have hobject : ∀ inner, isObject (.leaf ⟨.punct .semicolon, 0, 0⟩ :: inner) rest = false := by
    intro inner
    cases inner <;> simp [isObject, memberKey?] <;> exact hrest
  exact ⟨_, by simp [stmtShapes, mark, statementStep, hobject, hbody.block, done_bind]; rfl⟩

theorem GivesBlock.givesBack {parse : Bool → Range → Parse Parsed}
    (h : GivesBlock parse s) (hs : stmtShapes s ≠ []) : GivesBack parse s := by
  intro clauseNext before rest hrest
  obtain ⟨last, hparse⟩ := h clauseNext before rest hrest.takesMember
  refine ⟨last, rest, hparse, .inl rfl, ?_⟩
  have := List.length_pos_iff.2 (mt ofShapes_eq_nil.1 hs)
  rw [List.length_append]
  omega

theorem takesMember_word (ht : t.kind = .ident name) : takesMember (.leaf t :: rest) = false := by
  simp [takesMember, Item.isPunct, Token.isPunct, Token.punct?, ht]

theorem statementStep_if {cond : Expr} {body : Stmt} (hc : Reads parts cond)
    (hb : GivesBlock parts.statement body) :
    GivesBack (statementStep parts) (.ifElse cond body none) := by
  intro clauseNext before rest hrest
  obtain ⟨last, hbody⟩ := hb clauseNext (some ⟨.punct (.closing .round), 0, 0⟩) rest hrest.takesMember
  refine ⟨last, rest, ?_, .inl rfl, by simp [stmtShapes]; omega⟩
  simp only [stmtShapes, word, ofShapes, ofShape, List.cons_append]
  rw [statementStep_word rfl]
  simp [wordStatement, declaringWords, ifStatement, expectGroup_group, done_bind, Opened.range, hc.group, hbody,
    elseBranch_startsAnew hrest]
  rfl

theorem statementStep_ifElse {cond : Expr} {body otherwise : Stmt} (hc : Reads parts cond)
    (hb : GivesBlock parts.statement body) (ho : GivesBlock parts.statement otherwise) :
    GivesBack (statementStep parts) (.ifElse cond body (some otherwise)) := by
  intro clauseNext before rest hrest
  obtain ⟨_, hbody⟩ := hb clauseNext (some ⟨.punct (.closing .round), 0, 0⟩)
    (.leaf ⟨.ident "else", 0, 0⟩ :: (ofShapes (stmtShapes otherwise) ++ rest)) (takesMember_word rfl)
  obtain ⟨last, hother⟩ := ho clauseNext (some ⟨.ident "else", 0, 0⟩) rest hrest.takesMember
  refine ⟨last, rest, ?_, .inl rfl, by simp [stmtShapes]; omega⟩
  simp only [stmtShapes, word, ofShapes, ofShape, ofShapes_append, List.cons_append, List.append_assoc]
  rw [statementStep_word rfl]
  simp [wordStatement, declaringWords, ifStatement, expectGroup_group, done_bind, Opened.range, hc.group, hbody,
    elseBranch?, Item.isWord, Item.ident?, Token.ident?, Item.last, hother]
  rfl

/-- The start of a loop can be read: its declared values or its expression. -/
def ReadsInit (parts : Parsers) : Option Stmt → Prop
  | none => True
  | some (.var decls) => decls ≠ [] ∧ ∀ d ∈ decls, ∀ e ∈ d.2, Reads parts e
  | some (.expr e) => Reads parts e
  | some _ => False

theorem loopInit_done {init : Option Stmt} (hi : ReadsInit parts init) (before : Option Token) :
    loopInit parts ⟨before, ofShapes (initShapes init)⟩ = Parse.done init ∧ mark .semicolon ∉ initShapes init := by
  unfold ReadsInit at hi
  split at hi
  · simp [initShapes, loopInit]
  · rename_i decls
    refine ⟨?_, by simpa [initShapes, word, mark] using semicolon_notMem_decls decls⟩
    simp [initShapes, word, loopInit, declaringWords, Item.isWord, Item.ident?, Token.ident?,
      declarations_done hi.1 hi.2, done_bind]
    rfl
  · refine ⟨?_, by simp [initShapes, mark]⟩
    simp [initShapes, loopInit, Item.isWord, Item.ident?, hi.group, done_bind]
    rfl
  · exact hi.elim

theorem statementStep_for {init : Option Stmt} {cond update : Option Expr} {body : Stmt}
    (hi : ReadsInit parts init) (hc : ∀ e ∈ cond, Reads parts e) (hu : ∀ e ∈ update, Reads parts e)
    (hb : GivesBlock parts.statement body) :
    GivesBack (statementStep parts) (.forLoop init cond update body) := by
  intro clauseNext before rest hrest
  obtain ⟨last, hbody⟩ := hb clauseNext (some ⟨.punct (.closing .round), 0, 0⟩) rest hrest.takesMember
  -- the header is split at its two semicolons
  have hsplit : ∀ before semicolon : Token, semicolon.isPunct .semicolon = true →
      Range.splitAt .semicolon ⟨some before, ofShapes (initShapes init) ++ .leaf semicolon ::
          (ofShapes (optionalShapes cond) ++ .leaf semicolon :: ofShapes (optionalShapes update))⟩ =
        [⟨some before, ofShapes (initShapes init)⟩, ⟨some semicolon, ofShapes (optionalShapes cond)⟩,
          ⟨some semicolon, ofShapes (optionalShapes update)⟩] := by
    intro before semicolon hsemicolon
    rw [Range.splitAt, splitItems_append _ (isPunct_ofShapes (loopInit_done hi none).2) hsemicolon,
      splitItems_append _ (isPunct_ofShapes (semicolon_notMem_optional cond)) hsemicolon,
      splitItems_none _ (isPunct_ofShapes (semicolon_notMem_optional update))]
  refine ⟨last, rest, ?_, .inl rfl, by simp [stmtShapes]; omega⟩
  simp only [stmtShapes, word, mark, ofShapes, ofShape, ofShapes_append, List.cons_append]
  rw [statementStep_word rfl]
  simp [wordStatement, declaringWords, forStatement, expectGroup_group, done_bind, Opened.range,
    hsplit, (loopInit_done hi _).1, optionalExpression_done hc, optionalExpression_done hu, hbody]
  rfl

/-! ## Switches -/

/-- Whether a shape, at the top level of a statement, neither begins a clause nor joins what
follows to what precedes. -/
def isInert : Shape → Bool
  | .leaf (.ident name) => name != "case" && name != "default"
  | .leaf (.punct p) => p != .dot && p != .optionalDot
  | _ => true

theorem isInert_of_isIdentifier (h : isIdentifier name = true) : isInert (word name) = true := by
  have hn := not_reserved h
  have hcase : name ≠ "case" := by rintro rfl; exact hn (by decide)
  have hdefault : name ≠ "default" := by rintro rfl; exact hn (by decide)
  simp [isInert, word, hcase, hdefault]

theorem stmtShapes_block (h : isBlock s = true) :
    ∃ inner, stmtShapes s = [.group .curly inner] := by
  cases s with
  | block body => exact ⟨_, by rw [stmtShapes]⟩
  | _ => cases h

theorem isInert_decls (h : declsWritable decls = true) :
    ∀ x ∈ commas (declShapes decls), isInert x = true := by
  have hpart : ∀ part ∈ declShapes decls, ∀ x ∈ part, isInert x = true := by
    induction decls with
    | nil => rw [declShapes]; exact List.forall_mem_nil _
    | cons d rest ih =>
      obtain ⟨name, value⟩ := d
      simp only [declsWritable, Bool.and_eq_true] at h
      cases value with
      | none => simpa [declShapes, isInert_of_isIdentifier h.1.1] using ih h.2
      | some e =>
        rw [declShapes, List.forall_mem_cons, List.forall_mem_cons]
        exact ⟨⟨isInert_of_isIdentifier h.1.1, by simp [isInert, mark]⟩, ih h.2⟩
  intro x hx
  rcases mem_commas hx with rfl | ⟨part, hmem, hx⟩
  · rfl
  · exact hpart part hmem x hx

theorem isInert_stmt (h : stmtWritable s = true) : ∀ x ∈ stmtShapes s, isInert x = true := by
  cases s with
  | empty => cases h
  | var decls =>
    rw [stmtWritable, Bool.and_eq_true] at h
    rw [stmtShapes, List.forall_mem_cons, List.forall_mem_append]
    exact ⟨rfl, isInert_decls h.2, by simp [isInert, mark]⟩
  | returns value => cases value <;> simp [stmtShapes, optionalShapes, isInert, mark, word]
  | ifElse cond body otherwise =>
    cases otherwise with
    | none =>
      simp only [stmtWritable, Bool.and_eq_true] at h
      obtain ⟨inner, hb⟩ := stmtShapes_block h.1.2
      simp [stmtShapes, hb, isInert, word]
    | some otherwise =>
      simp only [stmtWritable, Bool.and_eq_true] at h
      obtain ⟨inner, hb⟩ := stmtShapes_block h.1.1.1.2
      obtain ⟨inner', ho⟩ := stmtShapes_block h.1.2
      simp [stmtShapes, hb, ho, isInert, word]
  | forLoop init cond update body =>
    simp only [stmtWritable, Bool.and_eq_true] at h
    obtain ⟨inner, hb⟩ := stmtShapes_block h.1.2
    simp [stmtShapes, hb, isInert, word]
  | tryBlock body handler cleanup =>
    have hhandler : ∀ x ∈ handlerShapes handler, isInert x = true := by
      cases handler with
      | none => exact List.forall_mem_nil _
      | some name => cases name <;> simp [handlerShapes, isInert, word]
    cases cleanup with
    | none => simpa [stmtShapes, isInert, word] using hhandler
    | some cleanup =>
      rw [stmtShapes, List.forall_mem_cons, List.forall_mem_cons, List.forall_mem_append]
      exact ⟨rfl, rfl, hhandler, by simp [isInert, word]⟩
  | _ => simp [stmtShapes, isInert, mark, word]

theorem isInert_body (h : bodyWritable stmts = true) :
    ∀ x ∈ bodyShapes stmts, isInert x = true := by
  induction stmts with
  | nil => rw [bodyShapes]; exact List.forall_mem_nil _
  | cons s rest ih =>
    rw [bodyWritable, Bool.and_eq_true] at h
    rw [bodyShapes]
    exact List.forall_mem_append.2 ⟨isInert_stmt h.1, ih h.2⟩

/-- The word and the shapes of a clause. -/
def clauseParts : Clause → String × List Shape
  | .mk none body => ("default", mark .colon :: bodyShapes body)
  | .mk (some label) body =>
    ("case", .group .round (inside label) :: mark .colon :: bodyShapes body)

theorem clauseShapes_cons (c : Clause) (rest : List Clause) :
    clauseShapes (c :: rest) = word (clauseParts c).1 :: ((clauseParts c).2 ++ clauseShapes rest) := by
  obtain ⟨label, body⟩ := c
  cases label <;> rw [clauseShapes] <;> rfl

theorem isInert_clause {rest : List Clause} (h : clausesWritable (c :: rest) = true) :
    ∀ x ∈ (clauseParts c).2, isInert x = true := by
  obtain ⟨label, body⟩ := c
  simp only [clausesWritable, Bool.and_eq_true] at h
  cases label with
  | none => exact List.forall_mem_cons.2 ⟨rfl, isInert_body h.1.2⟩
  | some label =>
    exact List.forall_mem_cons.2 ⟨rfl, List.forall_mem_cons.2 ⟨rfl, isInert_body h.1.2⟩⟩

/-- The item before a word does not make it the name of a member. -/
def Separate (previous : Option Item) : Prop :=
  ∀ item ∈ previous, item.isPunct .dot = false ∧ item.isPunct .optionalDot = false

theorem separate_inert (h : isInert item.shape = true) : Separate (some item) := by
  have hmark : ∀ p, isInert (mark p) = false → item.isPunct p = false := by
    intro p hp
    rw [← Bool.not_eq_true, isPunct_iff]
    intro hitem
    rw [hitem, hp] at h
    cases h
  rintro _ ⟨⟩
  exact ⟨hmark .dot rfl, hmark .optionalDot rfl⟩

theorem isClauseWord_inert (h : isInert item.shape = true) :
    isClauseWord previous item = false := by
  cases item with
  | group => simp [isClauseWord, Item.isWord, Item.ident?]
  | leaf t =>
    rw [shape_leaf] at h
    cases hk : t.kind <;>
      simp_all [isClauseWord, Item.isWord, Item.ident?, Token.ident?, isInert]

theorem isClauseWord_clause (hp : Separate previous) (c : Clause) :
    isClauseWord previous (ofShape (word (clauseParts c).1)) = true := by
  have hword : (ofShape (word (clauseParts c).1)).isWord "case" = true ∨
      (ofShape (word (clauseParts c).1)).isWord "default" = true := by
    obtain ⟨label, body⟩ := c
    cases label <;> simp [word, Item.isWord, Item.ident?, Token.ident?, clauseParts]
  rw [isClauseWord, Bool.and_eq_true, Bool.or_eq_true, Bool.not_eq_true']
  refine ⟨hword, ?_⟩
  cases previous with
  | none => rfl
  | some item => simpa using hp item rfl

/-- The word and the items of a clause. -/
def clauseItems (c : Clause) : Token × List Item := (⟨.ident (clauseParts c).1, 0, 0⟩, ofShapes (clauseParts c).2)

/-- Items that belong to no clause stay in front of the clauses. -/
theorem splitClauses_lead {lead : List Shape} {more : List Item} {parted : List (Token × List Item)}
    (hlead : ∀ x ∈ lead, isInert x = true)
    (hmore : ∀ previous, Separate previous → splitClauses previous more = ([], parted))
    (hp : Separate previous) : splitClauses previous (ofShapes lead ++ more) = (ofShapes lead, parted) := by
  induction lead generalizing previous with
  | nil => exact hmore previous hp
  | cons s lead ih =>
    rw [List.forall_mem_cons] at hlead
    have hs : isInert (ofShape s).shape = true := by rw [shape_ofShape]; exact hlead.1
    rw [ofShapes, List.cons_append, splitClauses, ih hlead.2 (separate_inert hs)]
    simp only [isClauseWord_inert hs, Bool.false_eq_true, if_false]

/-- Clauses are split at their words. -/
theorem splitClauses_clauses (hw : clausesWritable clauses = true) (hp : Separate previous) :
    splitClauses previous (ofShapes (clauseShapes clauses)) = ([], clauses.map clauseItems) := by
  induction clauses generalizing previous with
  | nil => rw [clauseShapes]; rfl
  | cons c rest ih =>
    have hrest : clausesWritable rest = true := by
      obtain ⟨label, body⟩ := c
      simp only [clausesWritable, Bool.and_eq_true] at hw
      exact hw.2
    have hsep : Separate (some (ofShape (word (clauseParts c).1))) := by
      rintro _ ⟨⟩
      exact ⟨rfl, rfl⟩
    rw [clauseShapes_cons, ofShapes, ofShapes_append, splitClauses,
      splitClauses_lead (isInert_clause hw) (fun _ => ih hrest) hsep, isClauseWord_clause hp]
    rfl

/-- The label and the body of a clause can be read. -/
def ReadsClause (parts : Parsers) : Clause → Prop
  | .mk label body => (∀ e ∈ label, Reads parts e) ∧ ReadsBody parts body

theorem clause_done (hc : ReadsClause parts c) :
    clause parts clauseNext (clauseItems c).1 (clauseItems c).2 = Parse.done c := by
  obtain ⟨label, body⟩ := c
  cases label with
  | none =>
    simp [clauseItems, clauseParts, mark, clause, Cut.first?, clauseLabel, Token.isWord, Token.ident?, done_bind,
      (hc.2 _ _).1]
    rfl
  | some label =>
    simp [clauseItems, clauseParts, mark, clause, Cut.first?, Cut.cons, clauseLabel, Token.isWord, Token.ident?,
      (hc.1 label rfl).group, done_bind, pure, (hc.2 _ _).1]

theorem clausesOf_done (hc : ∀ c ∈ clauses, ReadsClause parts c) :
    clausesOf parts (clauses.map clauseItems) = Parse.done clauses := by
  induction clauses with
  | nil => rfl
  | cons c clauses ih =>
    rw [List.forall_mem_cons] at hc
    rw [List.map_cons, clausesOf, clause_done hc.1, done_bind, ih hc.2]
    rfl

theorem statementStep_switch {selector : Expr} (hs : Reads parts selector)
    (hw : clausesWritable clauses = true) (hc : ∀ c ∈ clauses, ReadsClause parts c) :
    GivesBack (statementStep parts) (.switch selector clauses) := by
  intro clauseNext before rest hrest
  have hsplit : splitClauses none (ofShapes (clauseShapes clauses)) = ([], clauses.map clauseItems) :=
    splitClauses_clauses hw (by rintro _ ⟨⟩)
  refine ⟨⟨.punct (.closing .curly), 0, 0⟩, rest, ?_, .inl rfl, by simp [stmtShapes]; omega⟩
  simp only [stmtShapes, word, ofShapes, ofShape, List.cons_append]
  rw [statementStep_word rfl]
  simp [wordStatement, declaringWords, switchStatement, expectGroup_group, done_bind, Opened.range, hs.group,
    hsplit, clausesOf_done hc]
  rfl

/-! ## Guarded blocks -/

theorem handler_done (caught : Option (Option String)) (last : Token)
    (hrest : ∀ item ∈ rest.head?, item.isWord "catch" = false) :
    ∃ last', handler last (ofShapes (handlerShapes caught) ++ rest) = Parse.done (caught, last', rest) := by
  match caught with
  | none =>
    cases rest with
    | nil => exact ⟨last, rfl⟩
    | cons item rest => exact ⟨last, by simp [handlerShapes, handler, hrest item rfl]⟩
  | some none => exact ⟨_, rfl⟩
  | some (some name) => exact ⟨_, rfl⟩

theorem cleanup_startsAnew {last : Token} (h : StartsAnew rest) :
    cleanup parts last rest = Parse.done (none, last, rest) := by
  cases rest with
  | nil => rfl
  | cons item rest => simp [cleanup, h.isWord "finally" (by decide)]

theorem statementStep_try (hb : ReadsBody parts body) :
    GivesBack (statementStep parts) (.tryBlock body caught none) := by
  intro clauseNext before rest hrest
  have hcatch : ∀ item ∈ rest.head?, item.isWord "catch" = false := by
    cases rest with
    | nil => simp
    | cons item rest => rintro _ ⟨⟩; exact hrest.isWord "catch" (by decide)
  obtain ⟨last, hhandler⟩ := handler_done caught ⟨.punct (.closing .curly), 0, 0⟩ hcatch
  refine ⟨last, rest, ?_, .inl rfl, by simp [stmtShapes]; omega⟩
  simp only [stmtShapes, word, mark, ofShapes, ofShape, List.cons_append]
  rw [statementStep_word rfl]
  simp [wordStatement, declaringWords, tryStatement, expectGroup_group, done_bind, Opened.range,
    hb.block, hhandler, cleanup_startsAnew hrest]
  rfl

theorem statementStep_tryFinally {final : List Stmt}
    (hb : ReadsBody parts body) (hf : ReadsBody parts final) :
    GivesBack (statementStep parts) (.tryBlock body caught (some final)) := by
  intro clauseNext before rest hrest
  have hcatch : ∀ item ∈ (ofShapes [word "finally", .group .curly (mark .semicolon :: bodyShapes final)] ++
      rest).head?, item.isWord "catch" = false := by
    rintro _ ⟨⟩
    rfl
  obtain ⟨last, hhandler⟩ := handler_done caught ⟨.punct (.closing .curly), 0, 0⟩ hcatch
  refine ⟨⟨.punct (.closing .curly), 0, 0⟩, rest, ?_, .inl rfl, by simp [stmtShapes]; omega⟩
  simp only [stmtShapes, word, mark, ofShapes, ofShape, ofShapes_append, List.cons_append, List.append_assoc,
    List.nil_append] at hhandler ⊢
  rw [statementStep_word rfl]
  simp [wordStatement, declaringWords, tryStatement, expectGroup_group, done_bind, Opened.range,
    hb.block, hhandler, cleanup, Item.isWord, Item.ident?, Token.ident?, hf.block]
  rfl

end PlayerScript.Ast
