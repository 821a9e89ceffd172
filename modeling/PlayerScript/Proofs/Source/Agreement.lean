/-
Two readings of declared functions. The parser reads a text of declarations as a whole; taking a
function out of the text cuts its body out, and the body is parsed by itself. Where each body is closed
in itself, both give the same functions, after every history of an interpreter.
-/
import PlayerScript.Proofs.Ast.Parser.Statement
import PlayerScript.Proofs.Ast.Relocation
import PlayerScript.Proofs.Eval.Extraction
import PlayerScript.Proofs.Source.Declarations
import PlayerScript.Proofs.Token.Comments

namespace PlayerScript.Token

open PlayerScript.Text

variable {rest : List Char}

/-! ## Lexemes of a text -/

theorem splitsInto_name {name : String} (h : isName name.toList = true) {c : Char}
    (hc : isNamePart c = false) (rest : List Char) :
    SplitsInto (name.toList ++ c :: rest) [.ident name] (c :: rest) := by
  have hnext : ∀ d ∈ (c :: rest).head?, isNamePart d = false := by simpa using hc
  obtain ⟨d, ds, hraw, hlex⟩ := lexes_word h hnext
  rw [hraw, List.cons_append]
  exact .token hlex

theorem splitsInto_front {front : List Char} (h : ∀ c ∈ front, isBlank c = true) (rest : List Char) :
    SplitsInto (front ++ rest) [] rest := by
  induction front with
  | nil => exact .refl rest
  | cons c front ih =>
    rw [List.forall_mem_cons] at h
    exact (SplitsInto.blank h.1 _).trans (ih h.2)

theorem splitsInto_char (c : Char) (p : Punct)
    (h : ∀ cs, lexeme c cs = .ok ⟨some (.punct p), [c], cs⟩) (cs : List Char) :
    SplitsInto (c :: cs) [.punct p] cs := .token (h cs)

theorem Splits.raw_isInfix {text : List Char} {ls : List Lexeme} (h : Splits text ls rest) :
    ∀ l ∈ ls, l.raw <:+: text := by
  intro l hl
  obtain ⟨before, later, rfl⟩ := List.append_of_mem hl
  rw [h.eq_append]
  exact ⟨rawOf before, rawOf later ++ rest, by simp [rawOf]⟩

theorem Splits.lexeme_of_mem {text : List Char} {ls : List Lexeme} (h : Splits text ls rest) :
    ∀ l ∈ ls, ∃ c cs more, lexeme c cs = .ok ⟨l.value, l.raw, more⟩ := by
  induction h with
  | nil => simp
  | cons hlex _ ih => exact List.forall_mem_cons.2 ⟨⟨_, _, _, hlex⟩, ih⟩

/-- The lexeme of a name is the name. -/
theorem raw_of_ident {c : Char} {cs raw : List Char} {name : String}
    (h : lexeme c cs = .ok ⟨some (.ident name), raw, rest⟩) : raw = name.toList := by
  generalize hs : (⟨some (.ident name), raw, rest⟩ : Scan (Option TokenKind)) = s at h
  cases reads_of_lexeme h with
  | name hname =>
    cases hs
    rw [String.toList_ofList]
  | @number s hdigit hnumber =>
    obtain ⟨x, -, rfl⟩ := number_eq_ok hnumber
    cases hs
  | _ => cases hs

end PlayerScript.Token

namespace PlayerScript.Source
variable {d : FunctionText} {body : List Shape} {ds : List FunctionText} {items : List Item}
  {depth k k' : Nat}

namespace FunctionText

open PlayerScript.Text PlayerScript.Token PlayerScript.Ast Shape

/-! ## Tokens of declarations -/

theorem splitsInto_params {spacing : List Char} (hspacing : ∀ c ∈ spacing, isBlank c = true)
    (rest : List Char) : ∀ params : List String, (∀ p ∈ params, isName p.toList = true) →
      SplitsInto (List.intercalate (',' :: spacing) (params.map String.toList) ++ ')' :: rest)
        (kindsOf (commas (params.map fun p => [word p]))) (')' :: rest)
  | [], _ => .refl _
  | [p], hparams => by
    have hp := hparams p List.mem_cons_self
    simpa [commas, word, kindsOf, kinds] using splitsInto_name hp (c := ')') (by decide) rest
  | p :: q :: params, hparams => by
    rw [List.forall_mem_cons] at hparams
    have hmore := (splitsInto_char ',' .comma (fun _ => rfl) _).trans ((splitsInto_front hspacing _).trans
      (splitsInto_params hspacing rest (q :: params) hparams.2))
    have hall := (splitsInto_name hparams.1 (by decide) _).trans hmore
    simpa [commas_cons, Item.kindsOf_append, kindsOf, kinds, word, mark] using hall

/-- The shapes of a declaration, given those of its body. -/
def shapes (d : FunctionText) (body : List Shape) : List Shape :=
  [word "function", word d.name, .group .round (commas (d.params.map fun p => [word p])),
    .group .curly body]

/-- The shapes of a body: no word in it begins a function, and they are those of the body when blanks
around it are dropped. -/
structure Shaped (d : FunctionText) (body : List Shape) : Prop where
  balanced : allOf (fun _ => true) body = true
  noFunction : allOf isNoFunction body = true
  trimmed : SplitsInto (trim d.body) (kindsOf body) []

theorem Valid.shaped (hd : d.Valid) : ∃ body, d.Shaped body ∧
    ∀ rest, SplitsInto (d.body ++ '\x7d' :: rest) (kindsOf body) ('\x7d' :: rest) := by
  obtain ⟨ls, items, hsplits, hfree, hgroup⟩ := hd.closed
  have hnone : ∀ t ∈ tokensAt 0 ls, isNoFunction t.kind = true := by
    intro t ht
    have hkind : t.kind ∈ ls.filterMap Lexeme.value := by
      rw [← kind_tokensAt 0 ls]
      exact List.mem_map_of_mem ht
    obtain ⟨l, hl, hvalue⟩ := List.mem_filterMap.1 hkind
    cases hname : t.kind with
    | ident name =>
      rw [isNoFunction, bne_iff_ne]
      rintro rfl
      obtain ⟨c, cs, more, hlex⟩ := hsplits.lexeme_of_mem l hl
      rw [hvalue, hname] at hlex
      refine hd.body ?_
      have hpart := hsplits.raw_isInfix l hl
      rwa [raw_of_ident hlex] at hpart
    | _ => rfl
  obtain ⟨hkinds, hall⟩ := Item.kinds_of_group hgroup hnone
  have hbalanced := (Item.kinds_of_group (p := fun _ => true) hgroup (by simp)).2
  rw [kind_tokensAt] at hkinds
  refine ⟨items.map Item.shape, ⟨hbalanced, hall, hkinds ▸ hsplits.trim⟩, fun rest => ?_⟩
  have htext := hsplits.eq_append
  rw [htext] at hsplits
  rw [htext, List.append_nil]
  exact ⟨ls, hsplits.before ends_nil (ends_brace rest) hfree, hkinds⟩

theorem functionWord_isName : isName "function".toList = true := by decide

theorem Valid.splitsInto (hd : d.Valid) : ∃ body, d.Shaped body ∧
    ∀ rest, SplitsInto (d.text ++ rest) (kindsOf (d.shapes body)) rest := by
  obtain ⟨body, hshaped, hbody⟩ := hd.shaped
  refine ⟨body, hshaped, fun rest => ?_⟩
  have hbraces : SplitsInto ('\x7b' :: (d.body ++ '\x7d' :: rest))
      (.punct (.opening .curly) :: (kindsOf body ++ [.punct (.closing .curly)])) rest :=
    (splitsInto_char '\x7b' (.opening .curly) (fun _ => rfl) _).trans ((hbody rest).trans
      (splitsInto_char '\x7d' (.closing .curly) (fun _ => rfl) rest))
  have hheader := (splitsInto_char '(' (.opening .round) (fun _ => rfl) _).trans
    ((splitsInto_params hd.spacing _ d.params hd.params).trans
      ((splitsInto_char ')' (.closing .round) (fun _ => rfl) _).trans hbraces))
  have hname := (splitsInto_name hd.name (c := '(') rfl _).trans hheader
  have hspace := (SplitsInto.blank (c := ' ') rfl _).trans hname
  have hword := (splitsInto_name functionWord_isName (c := ' ') rfl _).trans hspace
  have hall := (splitsInto_front hd.lead _).trans hword
  have htext : d.text ++ rest = d.lead ++ ("function".toList ++ ' ' :: (d.name.toList ++ '(' ::
      (List.intercalate (',' :: d.spacing) (d.params.map String.toList) ++ ')' :: '\x7b' ::
        (d.body ++ '\x7d' :: rest)))) := by
    simp only [text, paramText, List.append_assoc, List.cons_append, List.nil_append]
    rfl
  rw [htext]
  have hkinds : kindsOf (d.shapes body) = [] ++ ([.ident "function"] ++ ([] ++ ([.ident d.name] ++
      ([.punct (.opening .round)] ++ (kindsOf (commas (d.params.map fun p => [word p])) ++
        ([.punct (.closing .round)] ++
          .punct (.opening .curly) :: (kindsOf body ++ [.punct (.closing .curly)]))))))) := by
    simp only [shapes, kindsOf, kinds, word, List.append_assoc, List.cons_append, List.nil_append,
      List.append_nil]
  rw [hkinds]
  exact hall

/-- The shapes of a list of declarations, given those of their bodies. -/
theorem splitsInto_textOf : ∀ {ds : List FunctionText}, (∀ d ∈ ds, d.Valid) →
    ∃ bodies, List.Forall₂ Shaped ds bodies ∧
      ∀ rest, SplitsInto (textOf ds ++ rest) (kindsOf (List.zipWith shapes ds bodies).flatten) rest
  | [], _ => ⟨[], .nil, fun rest => .refl rest⟩
  | d :: ds, hds => by
    rw [List.forall_mem_cons] at hds
    obtain ⟨body, hbody, htext⟩ := hds.1.splitsInto
    obtain ⟨bodies, hbodies, hmore⟩ := splitsInto_textOf hds.2
    refine ⟨body :: bodies, .cons hbody hbodies, fun rest => ?_⟩
    have hall := (htext (textOf ds ++ rest)).trans (hmore rest)
    rw [List.zipWith_cons_cons, List.flatten_cons, Item.kindsOf_append, textOf, List.flatMap_cons,
      List.append_assoc]
    exact hall

theorem Shaped.allOf_shapes (h : d.Shaped body) : allOf (fun _ => true) (d.shapes body) = true := by
  have hparams : allOf (fun _ => true) (commas (d.params.map fun p => [word p])) = true := by
    refine allOf_commas rfl fun part hpart => ?_
    obtain ⟨p, -, rfl⟩ := List.mem_map.1 hpart
    rfl
  rw [shapes, allOf, allOf, allOf, all, hparams, allOf, all, h.balanced]
  rfl

theorem allOf_flatten {bodies : List (List Shape)} (h : List.Forall₂ Shaped ds bodies) :
    allOf (fun _ => true) (List.zipWith shapes ds bodies).flatten = true := by
  induction h with
  | nil => rfl
  | cons hd _ ih =>
    rw [List.zipWith_cons_cons, List.flatten_cons, allOf_append, hd.allOf_shapes, ih]
    rfl

/-! ## Declarations as they are parsed -/

theorem parse_bind_assoc {α β γ : Type} (x : Parse α) (f : α → Parse β) (g : β → Parse γ) :
    (x >>= f) >>= g = x >>= fun a => f a >>= g := by
  funext k
  show Parse.andThen (Parse.andThen x f) g k = Parse.andThen x (fun a => Parse.andThen (f a) g) k
  unfold Parse.andThen
  rcases x k with ⟨_ | a, k'⟩ <;> rfl

/-- The parser reads a declaration up to its body, and leaves the body to parse. -/
theorem statementStep_declaration (parts : Parsers) (d : FunctionText) (body : List Shape) (rest : List Item)
    (before : Option Token) : statementStep parts false ⟨before, Item.ofShapes (d.shapes body) ++ rest⟩ = do
      let stmts ← statements parts false ⟨some ⟨.punct (.opening .curly), 0, 0⟩, Item.ofShapes body⟩
      return ⟨.var [(d.name, some (.function d.name d.params stmts))], ⟨.punct (.closing .curly), 0, 0⟩, rest⟩ := by
  rw [shapes, Item.ofShapes, word, Item.ofShape, List.cons_append, statementStep_word rfl]
  unfold wordStatement
  dsimp only
  rw [if_neg (by decide), if_neg (by decide), if_neg (by decide), if_neg (by decide),
    if_neg (by decide), if_neg (by decide), if_neg (by decide), if_neg (by decide),
    if_pos ⟨rfl, rfl⟩, functionAfterWord_header parts d.name d.params, parse_bind_assoc]
  rfl

/-- A declaration that was parsed: its body was, and so is a body of the same shapes elsewhere. -/
def Parsed (depth : Nat) (d : FunctionText) (s : Stmt) : Prop :=
  ∃ stmts, s = .var [(d.name, some (.function d.name d.params stmts))] ∧
    ∀ minted, parseStatements (trim d.body) depth minted = (.ok stmts, minted)

/-- A body that was parsed within some levels is parsed by itself, within at least as many. -/
theorem Shaped.parseStatements (hd : d.Shaped body) {depth' : Nat} (hdepth : depth ≤ depth')
    {before : Option Token} {stmts : List Stmt}
    (h : statements (parsersWithin depth) false ⟨before, Item.ofShapes body⟩ k = (.ok stmts, k')) (minted : Nat) :
    Ast.parseStatements (trim d.body) depth' minted = (.ok stmts, minted) := by
  obtain ⟨ts, htokens, hkinds⟩ := hd.trimmed.tokenize_eq
  exact (parseStatements_of_shapes htokens hkinds hd.balanced depth' minted).ok_iff.1
    (statements_elsewhere hdepth hd.noFunction h minted)

/-- One declaration of a text that is parsed, and what follows it. -/
theorem parsed_of_statement (hd : d.Shaped body) {before : Option Token} {rest : List Item} {found : Ast.Parsed}
    (h : (parsersWithin depth).statement false ⟨before, Item.ofShapes (d.shapes body) ++ rest⟩ k = (.ok found, k')) :
    Parsed depth d found.stmt ∧ found.rest = rest := by
  cases depth with
  | zero => cases h
  | succ depth =>
    rw [show (parsersWithin (depth + 1)).statement false ⟨before, Item.ofShapes (d.shapes body) ++ rest⟩ = _ from
      statementStep_declaration (parsersWithin depth) d body rest before] at h
    obtain ⟨stmts, k₁, hstmts, hfound⟩ := parse_bind_ok h
    cases hfound
    exact ⟨⟨stmts, rfl, hd.parseStatements (Nat.le_succ depth) hstmts⟩, rfl⟩

theorem parsed_of_statementsFrom {bodies : List (List Shape)}
    (h : List.Forall₂ Shaped ds bodies) : ∀ {fuel : Nat} {before : Option Token} {k k' : Nat} {stmts : List Stmt},
      (Item.ofShapes (List.zipWith shapes ds bodies).flatten).length ≤ fuel →
      statementsFrom (parsersWithin depth) false fuel before
        (Item.ofShapes (List.zipWith shapes ds bodies).flatten) k = (.ok stmts, k') →
      List.Forall₂ (Parsed depth) ds stmts := by
  induction h with
  | nil =>
    intro fuel before k k' stmts hfuel hrun
    cases fuel <;> cases hrun <;> exact .nil
  | @cons d body ds bodies hd _ ih =>
    intro fuel before k k' stmts hfuel hrun
    rw [List.zipWith_cons_cons, List.flatten_cons, Item.ofShapes_append] at hfuel hrun
    rw [List.length_append] at hfuel
    have hlength : (Item.ofShapes (d.shapes body)).length = 4 := rfl
    obtain ⟨fuel, rfl⟩ : ∃ n, fuel = n + 1 := ⟨fuel - 1, by omega⟩
    obtain ⟨found, k₁, hfound, hrun⟩ := parse_bind_ok hrun
    obtain ⟨more, k₂, hmore, hrun⟩ := parse_bind_ok hrun
    cases hrun
    obtain ⟨hparsed, hleft⟩ := parsed_of_statement hd hfound
    rw [hleft] at hmore
    exact .cons hparsed (ih (by omega) hmore)

/-- A text of declarations that is parsed gives one function for each of them. -/
theorem parsed_of_parseStatements (hds : ∀ d ∈ ds, d.Valid)
    {stmts : List Stmt} (h : Ast.parseStatements (textOf ds) depth k = (.ok stmts, k')) :
    List.Forall₂ (Parsed depth) ds stmts := by
  obtain ⟨bodies, hbodies, htext⟩ := splitsInto_textOf hds
  have hsplits := htext []
  rw [List.append_nil] at hsplits
  obtain ⟨ts, htokens, hkinds⟩ := hsplits.tokenize_eq
  exact parsed_of_statementsFrom hbodies (Nat.le_refl _)
    ((parseStatements_of_shapes htokens hkinds (allOf_flatten hbodies) depth k).ok_iff.2 h)

end FunctionText

/-! ## The two readings -/

open Ast Token Text

/-- A function whose definition does not depend on the names minted before is extracted as it is
defined, after every history of an interpreter. -/
theorem extractFunction_of_definition {p : Program} {name : String} {d : FunctionDef}
    (hdefined : ∀ minted, p.functionDefinition name minted = (.ok d, minted)) {store : Store}
    {seeded : Table Value} {history : List Operation} {m : Machine}
    (hm : Operation.runAll p history (.initial store seeded) = some m) :
    ∃ f m', p.extractFunction name m = (.ok f, m') ∧ FunctionMade m'.store f d := by
  have htraced : Traced p none m := ((traced_initial p (by simp) (by simp)).runAll (by simp) hm).1
  rcases hx : p.extractFunction name m with ⟨result, m'⟩
  cases extractFunction_yields htraced hx with
  | error h =>
    rw [hdefined] at h
    cases h
  | @ok f d' k k' h hmade =>
    rw [hdefined] at h
    cases h
    exact ⟨f, m', rfl, hmade⟩

/-- A program whose source is a text of declarations with different names, each with a body that is
closed in itself: where the parser accepts the text, it gives one function for each declaration, and
taking that function out of the source succeeds, after every history of an interpreter, and gives the
same parameters and the same body. -/
theorem extracted_as_parsed (p : Program) {ds : List FunctionText}
    (hsource : p.source = FunctionText.textOf ds) (hds : ∀ d ∈ ds, d.Valid)
    (hdistinct : (ds.map FunctionText.name).Nodup) {minted minted' : Nat} {stmts : List Stmt}
    (hparse : parseStatements p.source p.options.maxNesting minted = (.ok stmts, minted')) :
    List.Forall₂ (fun d s => ∃ body, s = .var [(d.name, some (.function d.name d.params body))] ∧
      ∀ store seeded history m, Operation.runAll p history (.initial store seeded) = some m →
        ∃ f m', p.extractFunction d.name m = (.ok f, m') ∧
          FunctionMade m'.store f ⟨d.name, d.params, body⟩) ds stmts := by
  have hparsed := FunctionText.parsed_of_parseStatements hds (hsource ▸ hparse)
  refine ((List.forall₂_and_left ds stmts).2 ⟨fun d hd => hd, hparsed⟩).imp ?_
  rintro d s ⟨hd, body, rfl, hbody⟩
  refine ⟨body, rfl, fun store seeded history m hm => ?_⟩
  refine extractFunction_of_definition (fun minted => ?_) hm
  rw [Program.functionDefinition, hsource, FunctionText.functionCode_textOf hds hdistinct hd]
  dsimp only
  rw [Program.definition, hbody]

theorem FunctionText.closed_of_no_slash {body : List Char} {tokens : List Token}
    (htokens : tokenize body = .ok tokens) (hgroup : Item.group? body tokens = .ok items)
    (h : '/' ∉ body) : FunctionText.Closed body := by
  obtain ⟨ls, hsplits, hfree⟩ := uncommented_of_no_slash htokens h
  rw [tokenize_iff.2 ⟨ls, hsplits, rfl⟩] at htokens
  cases htokens
  exact ⟨ls, items, hsplits, hfree, hgroup⟩

/-- Two declarations, one with a closing brace inside a string. -/
def sampleTexts : List FunctionText :=
  [⟨[], "f", ["a"], [], "return g('\x7d', a)".toList⟩,
    ⟨[' '], "g", ["a", "b"], [' '], "return [b, a]".toList⟩]

def sampleStmts : List Stmt :=
  [.var [("f", some (.function "f" ["a"]
      [.returns (some (.call (.ident "g") [.literal (.string "\x7d"), .ident "a"]))]))],
    .var [("g", some (.function "g" ["a", "b"] [.returns (some (.array [.ident "b", .ident "a"]))]))]]

theorem extracted_as_parsed_sample :
    ∃ f m', (Program.mk (FunctionText.textOf sampleTexts) .standard).extractFunction "g"
        (.initial .initial Table.empty) = (.ok f, m') ∧
      FunctionMade m'.store f
        ⟨"g", ["a", "b"], [.returns (some (.array [.ident "b", .ident "a"]))]⟩ := by
  have hparse : parseStatements (FunctionText.textOf sampleTexts) Options.standard.maxNesting 0 =
      (.ok sampleStmts, 0) := by cbv
  have hspace : ∀ c ∈ [' '], isBlank c = true := List.forall_mem_singleton.2 rfl
  have hvalid : ∀ d ∈ sampleTexts, d.Valid := by
    rw [sampleTexts, List.forall_mem_cons, List.forall_mem_singleton]
    constructor
    · exact ⟨by simp, by simp, by decide, by decide, by decide,
        FunctionText.closed_of_no_slash (by cbv) (by cbv) (by decide)⟩
    · exact ⟨hspace, hspace, by decide, by decide, by decide,
        FunctionText.closed_of_no_slash (by cbv) (by cbv) (by decide)⟩
  have hboth := extracted_as_parsed ⟨FunctionText.textOf sampleTexts, .standard⟩ rfl hvalid
    (by decide) hparse
  rcases hboth with _ | ⟨-, _ | ⟨⟨body, hbody, hextract⟩, -⟩⟩
  cases hbody
  exact hextract .initial Table.empty [] _ rfl

/-- Two declarations whose bodies are the halves of a string: neither is closed in itself. -/
def brokenTexts : List FunctionText :=
  [⟨[], "f", [], [], "x=\"".toList⟩, ⟨[' '], "g", [], [], "\"".toList⟩]

/-- The parser accepts a text in which the second declaration stands inside a string, and the function
of that name cannot be taken out of it. -/
theorem declaration_inside_string :
    (∃ stmts, parseStatements (FunctionText.textOf brokenTexts) Options.standard.maxNesting 0 =
      (.ok stmts, 0)) ∧
    ¬ ∃ code, functionCode (FunctionText.textOf brokenTexts) "g" = .ok code := by
  have hparse : parseStatements (FunctionText.textOf brokenTexts) Options.standard.maxNesting 0 =
      (.ok [.var [("f", some (.function "f" []
        [.expr (.assign "x" none none (.literal (.string "\x7d function g()\x7b")))]))]], 0) := by
    cbv
  have hcode : (functionCode (FunctionText.textOf brokenTexts) "g").isOk = false := by cbv
  refine ⟨⟨_, hparse⟩, ?_⟩
  rintro ⟨code, h⟩
  rw [h] at hcode
  cases hcode

end PlayerScript.Source
