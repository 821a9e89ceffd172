/-
Programs with comments. A program and the same program with a space in place of each comment compute the
same, as long as the search for declarations finds the same ones: two runs that start in the same state
are in the same state at every time.
-/
import PlayerScript.Proofs.Source.Comments

namespace PlayerScript

open PlayerScript.Token PlayerScript.Source PlayerScript.Ast Eval

/-! ## Steps from the same state -/

/-- Two runs that are in the same state at every time, and in whose functions every name fits. -/
def alike (fits : TokenKind → Bool) : Relations :=
  .ofSame False (fun _ _ => True) (fitting fits) fun _ _ => True

section

variable {fits : TokenKind → Bool} {p q : Program} (hoptions : q.options = p.options) {m : Machine}
  {α : Type}

theorem alike_ok (hm : m.store.CodeAll (fitting fits)) (n : Machine) (a : α) :
    (alike fits).Steps n (fun _ _ => True) (.ok a, m) (.ok a, m) := .ok ⟨rfl, hm⟩ trivial trivial

theorem alike_error (hm : m.store.CodeAll (fitting fits)) (n : Machine) (e e' : Error) :
    (alike fits).Steps (α := α) n (fun _ _ => True) (.error e, m) (.error e', m) :=
  .error trivial ⟨rfl, hm⟩ trivial

include hoptions in
theorem alike_compile {code code' : List Char} (h : SameCode fits code code') (name : String)
    (params : List String) (scope : Scope) (hm : m.store.CodeAll (fitting fits)) :
    (alike fits).Steps m (fun _ _ => True) (p.compile name ⟨params, code⟩ scope m)
      (q.compile name ⟨params, code'⟩ scope m) := by
  have hparse := h.parse p.options.maxNesting m.minted
  unfold Program.compile Program.parse
  rw [hoptions]
  generalize parseStatements code p.options.maxNesting m.minted = x at hparse
  generalize parseStatements code' p.options.maxNesting m.minted = y at hparse
  cases hparse with
  | error e e' k => exact alike_error (m := { m with minted := k }) hm m e e'
  | @ok body _ k hsame =>
    obtain ⟨rfl, hnames⟩ := hsame
    have hadded : (m.store.addClosure ⟨⟨name, params, body⟩, scope⟩).2.CodeAll (fitting fits) :=
      Store.codeAll_addClosure hm hnames
    exact alike_ok (m := { m with store := _, minted := k }) hadded m _

variable {ls : List Lexeme} {source : List Char} (hsplits : Splits source ls [])
  (hfits : ∀ k ∈ ls.filterMap Lexeme.value, fits k = true)

include hoptions hsplits hfits

theorem alike_compileFields {codes codes' : List (List Char)}
    (h : List.Forall₂ (SameField ls) codes codes') (n : Machine) (members : Table Value)
    (hm : m.store.CodeAll (fitting fits)) :
    (alike fits).Steps n (fun _ _ => True) (p.compileFields codes members m)
      (q.compileFields codes' members m) := by
  induction h generalizing members m with
  | nil => exact alike_ok hm n _
  | @cons code code' codes codes' hfield _ ih =>
    rw [Program.compileFields, Program.compileFields]
    have hfound := hfield.found hsplits hfits
    generalize field code = x at hfound
    generalize field code' = y at hfound
    cases hfound with
    | blank => exact ih members hm
    | other => exact alike_ok hm n _
    | function key params hcode =>
      have hcompile := alike_compile hoptions hcode key params Program.globalScope hm
      dsimp only
      generalize p.compile key ⟨params, _⟩ Program.globalScope m = x at hcompile
      generalize q.compile key ⟨params, _⟩ Program.globalScope m = y at hcompile
      cases hcompile with
      | error _ linked =>
        obtain ⟨rfl, hm⟩ := linked
        exact alike_error hm n _ _
      | ok linked =>
        obtain ⟨rfl, hm⟩ := linked
        exact ih _ hm

theorem alike_compileObject {codes codes' : List (List Char)}
    (h : List.Forall₂ (SameObject ls) codes codes') (n : Machine) (name : String)
    (hm : m.store.CodeAll (fitting fits)) :
    (alike fits).Steps n (fun _ _ => True) (p.compileObject name codes m)
      (q.compileObject name codes' m) := by
  induction h generalizing m with
  | nil => exact alike_error hm n _ _
  | @cons code code' codes codes' hobject _ ih =>
    rw [Program.compileObject, Program.compileObject]
    cases hobject with
    | unclosed h h' =>
      rw [h, h']
      exact ih hm
    | fields h h' hfields =>
      rw [h, h']
      have hmembers := alike_compileFields hoptions hsplits hfits hfields n Table.empty hm
      dsimp only
      generalize p.compileFields _ Table.empty m = x at hmembers
      generalize q.compileFields _ Table.empty m = y at hmembers
      cases hmembers with
      | error _ linked =>
        obtain ⟨rfl, hm⟩ := linked
        exact alike_error hm n _ _
      | @ok members _ _ linked =>
        obtain ⟨rfl, hm⟩ := linked
        cases members with
        | none => exact ih hm
        | some members => exact alike_ok hm n members

end

/-! ## Runs -/

/-- The program with a space in place of each comment. -/
def Program.bare (p : Program) (ls : List Lexeme) : Program := { p with source := bareOf ls }

section

variable {fits : TokenKind → Bool} {p : Program} {ls : List Lexeme} (hsplits : Splits p.source ls [])
  (hfits : ∀ k ∈ ls.filterMap Lexeme.value, fits k = true) {m : Machine}
  (hm : m.store.CodeAll (fitting fits)) {name : String} (h : SameDeclarations ls name)

include hm in
/-- What is fetched for a name is stored for both runs, or both compute it. -/
theorem alike_fetch {α : Type} {view : MemoView Machine α}
    (hview : ∀ f m, (view.update f m).store = m.store) {compute compute' : Machine → Except Error α × Machine}
    (h : (alike fits).Steps m (fun _ _ => True) (compute m) (compute' m)) :
    (alike fits).Steps m (fun _ _ => True) (view.fetch name compute m) (view.fetch name compute' m) := by
  unfold MemoView.fetch
  cases (view.get m).get? name with
  | some value => exact alike_ok hm m value
  | none =>
    dsimp only
    generalize compute m = x at h
    generalize compute' m = y at h
    cases h with
    | error _ linked =>
      obtain ⟨rfl, hm⟩ := linked
      exact alike_error hm m _ _
    | @ok a _ _ linked =>
      obtain ⟨rfl, hm⟩ := linked
      exact alike_ok (by rw [hview]; exact hm) m a

include hsplits hfits hm h

theorem alike_extractFunction : (alike fits).Steps m (fun _ _ => True) (p.extractFunction name m)
    ((p.bare ls).extractFunction name m) := by
  have hcode := sameFunction_functionCode hsplits hfits h
  have hsource : p.source = rawOf ls := by rw [hsplits.eq_append, List.append_nil]
  refine alike_fetch hm (fun _ _ => rfl) ?_
  rw [hsource]
  dsimp only [Program.bare]
  generalize functionCode (rawOf ls) name = x at hcode
  generalize functionCode (bareOf ls) name = y at hcode
  cases hcode with
  | error e e' => exact alike_error hm m e e'
  | ok params hcode => exact alike_compile (q := p.bare ls) rfl hcode name params Program.globalScope hm

theorem alike_resolveObject : (alike fits).Steps m (fun _ _ => True) (p.resolveObject name m)
    ((p.bare ls).resolveObject name m) := by
  have hsource : p.source = rawOf ls := by rw [hsplits.eq_append, List.append_nil]
  refine alike_fetch hm (fun _ _ => rfl) ?_
  have hobject := alike_compileObject (p := p) (q := p.bare ls) rfl hsplits hfits h.objects m name hm
  rw [hsource]
  dsimp only [Program.bare] at hobject ⊢
  generalize p.compileObject name (objectCodes (rawOf ls) name) m = x at hobject
  generalize Program.compileObject _ name (objectCodes (bareOf ls) name) m = y at hobject
  cases hobject with
  | error _ linked =>
    obtain ⟨rfl, hm⟩ := linked
    exact alike_error hm m _ _
  | @ok members n _ linked =>
    obtain ⟨rfl, hm⟩ := linked
    exact alike_ok (m := { n with store := (n.store.addObject members).2 }) hm m _

end

open Classical in
/-- Whether a token is no name, or a name whose declarations are found with and without comments. -/
noncomputable def isFoundAlike (ls : List Lexeme) : TokenKind → Bool
  | .ident name => decide (SameDeclarations ls name)
  | _ => true

open Classical in
theorem isFoundAlike_ident {ls : List Lexeme} {name : String} :
    isFoundAlike ls (.ident name) = true ↔ SameDeclarations ls name := decide_eq_true_iff

/-- Every name that stands for a value has the same declarations with and without comments. -/
def FoundAlike (ls : List Lexeme) : Condition := ⟨fun _ => True, SameDeclarations ls⟩

theorem names_isFoundAlike (ls : List Lexeme) : fitting (isFoundAlike ls) = FoundAlike ls := by
  unfold fitting FoundAlike isFoundAlike
  congr 1
  funext name
  exact propext isFoundAlike_ident

/-- A run with comments and a run without them. -/
noncomputable def commentsDiscipline {p : Program} {ls : List Lexeme} (hsplits : Splits p.source ls [])
    (hfits : ∀ k ∈ ls.filterMap Lexeme.value, isFoundAlike ls k = true) : Discipline p (p.bare ls) :=
  @Discipline.ofSame p (p.bare ls) False (fun _ _ => True) (fun _ _ => True)
    (fitting (isFoundAlike ls)) (fun _ => trivial) (fun _ _ => trivial) (fun _ _ => trivial)
    (fun _ _ hm hn => alike_extractFunction hsplits hfits hm (isFoundAlike_ident.1 hn))
    fun _ _ hm hn => alike_resolveObject hsplits hfits hm (isFoundAlike_ident.1 hn)

/-- Comments do not change what a program computes. Let the search for the called name, and for every name
in the source, find the same declarations with a space in place of each comment. Then a call has a
result if and only if it has the same result, in the same state, with a space in place of each
comment. -/
theorem comments_change_nothing {p : Program} {ls : List Lexeme} (hsplits : Splits p.source ls [])
    (hnames : ∀ name, .ident name ∈ ls.filterMap Lexeme.value → SameDeclarations ls name) {m : Machine}
    (hm : m.store.CodeAll (FoundAlike ls)) {name : String} (hname : SameDeclarations ls name)
    (args : List Value) (result : Value) (m' : Machine) :
    p.callFunction name args m = .done result m' ↔
      (p.bare ls).callFunction name args m = .done result m' := by
  have hfits : ∀ k ∈ ls.filterMap Lexeme.value, isFoundAlike ls k = true := by
    intro k hk
    cases k with
    | ident name => exact isFoundAlike_ident.2 (hnames name hk)
    | _ => rfl
  rw [← names_isFoundAlike] at hm
  have hmatches : (commentsDiscipline hsplits hfits).Matches m _ (p.callFunction name args m)
      ((p.bare ls).callFunction name args m) :=
    Discipline.matches_callFunction (d := commentsDiscipline hsplits hfits) (by rintro _ _ _ ⟨⟩) rfl
      ⟨rfl, hm⟩ (fun _ _ => trivial) (isFoundAlike_ident.2 hname)
  generalize p.callFunction name args m = x at hmatches
  generalize (p.bare ls).callFunction name args m = y at hmatches
  cases hmatches with
  | done linked _ _ => rw [linked.1]
  | failed => constructor <;> rintro ⟨⟩
  | unfinished => constructor <;> rintro ⟨⟩
  | cut hcut => exact hcut.elim

/-! ## Two programs -/

/-- The lexeme of a name. -/
def Token.Lexeme.word (name : String) : Lexeme := ⟨some (.ident name), name.toList⟩

/-- The lexeme of a punctuator. -/
def Token.Lexeme.mark (p : Punct) : Lexeme := ⟨some (.punct p), p.symbol.toList⟩

/-- A blank or a comment. -/
def Token.Lexeme.skipped (raw : String) : Lexeme := ⟨none, raw.toList⟩

namespace Commented

open Lexeme

def source : List Char :=
  "o=\x7bg:function(a)\x7breturn a/* c */\x7d\x7d;function f(x)\x7breturn o.g(/* of */x)\x7d".toList

def bareSource : List Char :=
  "o=\x7bg:function(a)\x7breturn a \x7d\x7d;function f(x)\x7breturn o.g( x)\x7d".toList

def memberBody : List Lexeme := [word "return", skipped " ", word "a", skipped "/* c */"]

def functionBody : List Lexeme :=
  [word "return", skipped " ", word "o", mark .dot, word "g", mark (.opening .round), skipped "/* of */",
    word "x", mark (.closing .round)]

/-- The lexemes before the body of the member. -/
def front : List Lexeme :=
  [word "o", mark (.assign none), mark (.opening .curly), word "g", mark .colon, word "function",
    mark (.opening .round), word "a", mark (.closing .round), mark (.opening .curly)]

/-- The lexemes between the two bodies. -/
def middle : List Lexeme :=
  [mark (.closing .curly), mark (.closing .curly), mark .semicolon, word "function", skipped " ", word "f",
    mark (.opening .round), word "x", mark (.closing .round), mark (.opening .curly)]

def lexemes : List Lexeme := front ++ (memberBody ++ (middle ++ (functionBody ++ [mark (.closing .curly)])))

theorem splits_lexemes : Splits source lexemes [] := by
  repeat refine .cons (s := ⟨_, _, _⟩) rfl ?_
  exact .nil

theorem rawOf_lexemes : rawOf lexemes = source := by cbv

theorem bareOf_lexemes : bareOf lexemes = bareSource := by cbv

theorem sameBody_member : SameBody lexemes ('\x7b' :: (rawOf memberBody ++ ['\x7d']))
    ('\x7b' :: (bareOf memberBody ++ ['\x7d'])) :=
  @SameBody.intro lexemes front memberBody (middle.tail ++ (functionBody ++ [mark (.closing .curly)]))
    [.leaf (.ident "return"), .leaf (.ident "a")] [] [] rfl rfl rfl (Nesting.harmless_iff.2 rfl)

theorem sameBody_function : SameBody lexemes ('\x7b' :: (rawOf functionBody ++ ['\x7d']))
    ('\x7b' :: (bareOf functionBody ++ ['\x7d'])) :=
  @SameBody.intro lexemes (front ++ (memberBody ++ middle)) functionBody []
    [.leaf (.ident "return"), .leaf (.ident "o"), .leaf (.punct .dot), .leaf (.ident "g"),
      .group .round [.leaf (.ident "x")]] [] [] rfl rfl rfl (Nesting.harmless_iff.2 rfl)

theorem sameDeclarations_f : SameDeclarations lexemes "f" := by
  have hhead : leftmost? (headerAt? "f".toList) source =
      some (['x'], '\x7b' :: (rawOf functionBody ++ ['\x7d'])) := by
    cbv
  have hhead' : leftmost? (headerAt? "f".toList) bareSource =
      some (['x'], '\x7b' :: (bareOf functionBody ++ ['\x7d'])) := by
    cbv
  have hobjects : objectCodes source "f" = [] ∧ objectCodes bareSource "f" = [] := ⟨by cbv, by cbv⟩
  constructor
  · rw [rawOf_lexemes, bareOf_lexemes, hhead, hhead']
    exact .some ⟨rfl, sameBody_function⟩
  · rw [rawOf_lexemes, bareOf_lexemes, hobjects.1, hobjects.2]
    exact .nil

theorem sameField_g : SameField lexemes "g:function(a)\x7breturn a/* c */\x7d".toList
    "g:function(a)\x7breturn a \x7d".toList := by
  refine .head (by cbv) (by cbv) ?_
  have hhead : fieldHead? "g:function(a)\x7breturn a/* c */\x7d".toList =
      some ("g", ['a'], '\x7b' :: (rawOf memberBody ++ ['\x7d'])) := by
    cbv
  have hhead' : fieldHead? "g:function(a)\x7breturn a \x7d".toList =
      some ("g", ['a'], '\x7b' :: (bareOf memberBody ++ ['\x7d'])) := by
    cbv
  rw [hhead, hhead']
  exact .some ⟨rfl, rfl, sameBody_member⟩

theorem sameDeclarations_o : SameDeclarations lexemes "o" := by
  have hheads : leftmost? (headerAt? "o".toList) source = none ∧
      leftmost? (headerAt? "o".toList) bareSource = none := ⟨by cbv, by cbv⟩
  have hobjects : objectCodes source "o" = [source.drop 2] ∧
      objectCodes bareSource "o" = [bareSource.drop 2] := ⟨by cbv, by cbv⟩
  constructor
  · rw [rawOf_lexemes, bareOf_lexemes, hheads.1, hheads.2]
    exact .none
  · rw [rawOf_lexemes, bareOf_lexemes, hobjects.1, hobjects.2]
    have hcut : separateAtBracket (source.drop 2) none = .ok ("g:function(a)\x7breturn a/* c */\x7d".toList,
        ";function f(x)\x7breturn o.g(/* of */x)\x7d".toList) := by
      cbv
    have hcut' : separateAtBracket (bareSource.drop 2) none = .ok ("g:function(a)\x7breturn a \x7d".toList,
        ";function f(x)\x7breturn o.g( x)\x7d".toList) := by
      cbv
    refine .cons (.fields hcut hcut' ?_) .nil
    have hfields : fieldCodes "g:function(a)\x7breturn a/* c */\x7d".toList =
        ["g:function(a)\x7breturn a/* c */\x7d".toList] := by
      cbv
    have hfields' : fieldCodes "g:function(a)\x7breturn a \x7d".toList =
        ["g:function(a)\x7breturn a \x7d".toList] := by
      cbv
    rw [hfields, hfields']
    exact .cons sameField_g .nil

theorem sameDeclarations {name : String} (h : .ident name ∈ lexemes.filterMap Lexeme.value) :
    SameDeclarations lexemes name := by
  have hnone : ["g", "function", "a", "return", "x"].all
      (fun n => isUndeclared source n && isUndeclared bareSource n) = true := by
    cbv
  have hundeclared : ∀ n ∈ ["g", "function", "a", "return", "x"], SameDeclarations lexemes n := by
    intro n hn
    have hboth := List.all_eq_true.1 hnone n hn
    rw [Bool.and_eq_true, ← rawOf_lexemes, ← bareOf_lexemes] at hboth
    exact sameDeclarations_of_undeclared hboth.1 hboth.2
  have hnames : (lexemes.filterMap Lexeme.value).all (fun
      | .ident n => "f" :: "o" :: ["g", "function", "a", "return", "x"] |>.contains n
      | _ => true) = true := by
    cbv
  have hname : name ∈ "f" :: "o" :: ["g", "function", "a", "return", "x"] :=
    List.contains_iff_mem.1 (List.all_eq_true.1 hnames _ h)
  rcases List.mem_cons.1 hname with rfl | hname
  · exact sameDeclarations_f
  rcases List.mem_cons.1 hname with rfl | hname
  · exact sameDeclarations_o
  · exact hundeclared name hname

end Commented

/-- A call of a function that calls a member of an object, each with a comment in its body. -/
theorem comments_change_nothing_sample :
    Splits Commented.source Commented.lexemes [] ∧ bareOf Commented.lexemes = Commented.bareSource ∧
      ∀ args result m',
        (Program.mk Commented.source .standard).callFunction "f" args (.initial .initial .empty) =
            .done result m' ↔
          (Program.mk Commented.bareSource .standard).callFunction "f" args (.initial .initial .empty) =
            .done result m' := by
  refine ⟨Commented.splits_lexemes, Commented.bareOf_lexemes, fun args result m' => ?_⟩
  rw [← Commented.bareOf_lexemes]
  exact comments_change_nothing (p := ⟨Commented.source, .standard⟩) (m := .initial .initial .empty)
    Commented.splits_lexemes (fun _ => Commented.sameDeclarations) (fun _ => trivial)
    Commented.sameDeclarations_f args result m'

namespace Bracketed

/-- A function with a brace in a comment. -/
def program : Program := ⟨"function f()\x7breturn true/* \x7d */\x7d".toList, ⟨9, 9⟩⟩

def lexemes : List Lexeme :=
  [.word "function", .skipped " ", .word "f", .mark (.opening .round), .mark (.closing .round),
    .mark (.opening .curly), .word "return", .skipped " ", .word "true", .skipped "/* \x7d */",
    .mark (.closing .curly)]

/-- The state in which the function has been extracted without the comment. -/
def extracted : Machine where
  store := { Store.initial with
    closures := ⟨#[⟨⟨"f", [], [.returns (some (.literal (.bool true)))]⟩, Program.globalScope⟩]⟩ }
  functions := ⟨[("f", ⟨0⟩)]⟩
  objects := Table.empty
  minted := 0

theorem extractFunction_bare : (program.bare lexemes).extractFunction "f" (.initial .initial .empty) =
    (.ok ⟨0⟩, extracted) := by
  have hcode : functionCode (program.bare lexemes).source "f" = .ok ⟨[], "return true".toList⟩ := by cbv
  have hparse : parseStatements "return true".toList 9 0 =
      (.ok [.returns (some (.literal (.bool true)))], 0) := rfl
  simp only [Program.extractFunction, MemoView.fetch, hcode, Program.compile,
    Program.parse_of_parsed (program.bare lexemes) (m := .initial .initial .empty) hparse]
  rfl

/-- The body ends in the comment, which is then not closed. -/
theorem extractFunction_commented : ∃ e, program.extractFunction "f" (.initial .initial .empty) =
    (.error e, .initial .initial .empty) := by
  have hcode : functionCode program.source "f" = .ok ⟨[], "return true/*".toList⟩ := by cbv
  obtain ⟨e, hparse⟩ : ∃ e, parseStatements "return true/*".toList 9 0 = (.error e, 0) := ⟨_, rfl⟩
  refine ⟨e, ?_⟩
  simp only [Program.extractFunction, MemoView.fetch, hcode, Program.compile,
    Program.parse_of_parsed program (m := .initial .initial .empty) hparse]
  rfl

end Bracketed

/-- A bracket in a comment ends a body: a call succeeds with a space in place of the comment, and fails
with the comment. -/
theorem bracket_in_comment_ends_body :
    Splits Bracketed.program.source Bracketed.lexemes [] ∧
      (∃ m', (Bracketed.program.bare Bracketed.lexemes).callFunction "f" [] (.initial .initial .empty) =
        .done (.bool true) m') ∧
      ∀ result m', Bracketed.program.callFunction "f" [] (.initial .initial .empty) ≠ .done result m' := by
  refine ⟨?_, ?_, ?_⟩
  · repeat refine .cons (s := ⟨_, _, _⟩) rfl ?_
    exact .nil
  · have hcall : ∃ m', (Bracketed.program.bare Bracketed.lexemes).call ⟨0⟩ [] Bracketed.extracted =
        .done (.bool true) m' := ⟨_, rfl⟩
    unfold Program.callFunction
    show ∃ m', andThen (ofStep _) _ _ = _
    unfold andThen ofStep
    rw [Bracketed.extractFunction_bare]
    exact hcall
  · intro result m'
    obtain ⟨e, hextract⟩ := Bracketed.extractFunction_commented
    unfold Program.callFunction
    show andThen (ofStep _) _ _ ≠ _
    unfold andThen ofStep
    rw [hextract]
    exact nofun

end PlayerScript
