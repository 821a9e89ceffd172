/-
Declarations in a text with comments. The search for declarations and the cutting of their bodies know
nothing of comments. Where they find the same bodies with a space in place of each comment, and no
comment in a body has a bracket or a quotation mark, the code that they take out has the same tokens, and
it is parsed alike.
-/
import PlayerScript.Proofs.Source.Agreement

namespace PlayerScript.Source

open PlayerScript.Text PlayerScript.Token PlayerScript.Ast Pattern

/-! ## The same code -/

/-- Two codes have the same tokens, with brackets that match. -/
def SameCode (fits : TokenKind → Bool) (code code' : List Char) : Prop :=
  ∃ shapes, Shape.allOf fits shapes = true ∧ SplitsInto code (Shape.kindsOf shapes) [] ∧
    SplitsInto code' (Shape.kindsOf shapes) []

/-- Codes with the same tokens are parsed alike. -/
theorem SameCode.parse {fits : TokenKind → Bool} {code code' : List Char} (h : SameCode fits code code')
    (depth k : Nat) : SameRun (fun a b => a = b ∧ bodyAll (fitting fits) a) (parseStatements code depth k)
      (parseStatements code' depth k) := by
  obtain ⟨shapes, hall, hcode, hcode'⟩ := h
  obtain ⟨ts, htokens, hkinds⟩ := hcode.tokenize_eq
  obtain ⟨ts', htokens', hkinds'⟩ := hcode'.tokenize_eq
  have hrun := parseStatements_of_shapes htokens hkinds hall depth k
  have hrun' := parseStatements_of_shapes htokens' hkinds' hall depth k
  generalize parseStatements code depth k = x at hrun ⊢
  generalize parseStatements code' depth k = y at hrun' ⊢
  cases hparse : statements (parsersWithin depth) false ⟨none, Item.ofShapes shapes⟩ k with
  | mk result s =>
    rw [hparse] at hrun hrun'
    cases hrun with
    | ok _ h =>
      cases hrun' with
      | ok _ h' => exact .ok s ⟨h.symm.trans h', h ▸ statements_fitting hall hparse⟩
    | error _ e =>
      cases hrun' with
      | error _ e' => exact .error e e' s

/-! ## The same bodies -/

/-- At the beginning of two texts the same body stands between braces: some lexemes of `ls` with brackets
that match and with harmless comments, and in the second text with a space in place of each comment. -/
inductive SameBody (ls : List Lexeme) : List Char → List Char → Prop
  | intro {before body after : List Lexeme} {shapes : List Shape} (rest rest' : List Char)
      (part : ls = before ++ (body ++ ⟨some (.punct (.closing .curly)), ['\x7d']⟩ :: after))
      (kinds : body.filterMap Lexeme.value = Shape.kindsOf shapes)
      (balanced : Shape.allOf (fun _ => true) shapes = true) (harmless : Nesting.Harmless body) :
      SameBody ls ('\x7b' :: (rawOf body ++ '\x7d' :: rest)) ('\x7b' :: (bareOf body ++ '\x7d' :: rest'))

theorem allOf_of_kinds {fits : TokenKind → Bool} {ls : List Lexeme} {shapes : List Shape}
    (hkinds : ls.filterMap Lexeme.value = Shape.kindsOf shapes)
    (hbalanced : Shape.allOf (fun _ => true) shapes = true)
    (hfits : ∀ k ∈ ls.filterMap Lexeme.value, fits k = true) : Shape.allOf fits shapes = true := by
  rw [← kind_tokensAt 0] at hkinds hfits
  obtain ⟨items, hgroup, rfl⟩ := Item.group_of_kinds [] hbalanced hkinds
  exact (Item.kinds_of_group hgroup fun t ht => hfits _ (List.mem_map_of_mem ht)).2

/-- The same body is cut out of both texts. -/
theorem SameBody.cut {fits : TokenKind → Bool} {ls : List Lexeme} {source u v : List Char}
    (hsplits : Splits source ls []) (hfits : ∀ k ∈ ls.filterMap Lexeme.value, fits k = true)
    (h : SameBody ls u v) : ∃ code code' rest rest', separateAtBracket u none = .ok (code, rest) ∧
      separateAtBracket v none = .ok (code', rest') ∧ SameCode fits code code' := by
  cases h with
  | @intro before body after shapes rest rest' part kinds balanced harmless =>
    subst part
    have hbody : Splits (rawOf body) body [] := hsplits.cut rfl
    have hbare : Splits (bareOf body) (body.map Lexeme.bare) [] := by
      rw [← List.append_nil (rawOf body)] at hbody
      rw [← List.append_nil (bareOf body)]
      exact hbody.bare ends_nil.bounds ends_nil
    have hkinds := (filterMap_value_bare body).trans kinds
    have hcounts := Nesting.counts_of_splits hbody harmless
    have hcounts' := Nesting.counts_of_splits hbare
      (Nesting.harmless_of_commentFree (commentFree_bare body))
    refine ⟨_, _, _, _, separateAtBracket_lexemes (b := .curly) hcounts balanced kinds rest,
      separateAtBracket_lexemes (b := .curly) hcounts' balanced hkinds rest', shapes, ?_, ?_, ?_⟩
    · refine allOf_of_kinds kinds balanced fun k hk => hfits k ?_
      rw [List.filterMap_append, List.filterMap_append]
      exact List.mem_append_right _ (List.mem_append_left _ hk)
    · exact kinds ▸ hbody.trim
    · exact hkinds ▸ hbare.trim

/-! ## The same declarations -/

/-- The same parameters and the same body. -/
def SameHeader (ls : List Lexeme) (x y : List Char × List Char) : Prop :=
  splitParams x.1 = splitParams y.1 ∧ SameBody ls x.2 y.2

/-- The key of a field that is a function, its parameters and its text from the body on. -/
def fieldHead? (code : List Char) : Option (String × List Char × List Char) :=
  match separate code [':'] (some 1) with
  | key :: value :: _ => (firstHeader? (inOrder [blanks, word "function"] value)).map fun header =>
    (String.ofList (dropQuotes (trim key)), header)
  | _ => none

theorem field_eq (code : List Char) : field code =
    if (trim code).isEmpty then .ok .blank
    else
      match fieldHead? code with
      | none => .ok .other
      | some (key, params, braces) => do
        let (body, _) ← separateAtBracket braces none
        return .function key ⟨splitParams params, body⟩ := by
  unfold field fieldHead?
  split_ifs
  · rfl
  · rcases separate code [':'] (some 1) with _ | ⟨key, _ | ⟨value, more⟩⟩
    · rfl
    · rfl
    · dsimp only
      cases firstHeader? (inOrder [blanks, word "function"] value) <;> rfl

/-- Two fields with nothing, with functions under the same key, or with something else. -/
inductive SameField (ls : List Lexeme) (code code' : List Char) : Prop
  | blank (h : (trim code).isEmpty = true) (h' : (trim code').isEmpty = true)
  | head (h : (trim code).isEmpty = false) (h' : (trim code').isEmpty = false)
      (heads : Option.Rel (fun x y => x.1 = y.1 ∧ SameHeader ls x.2 y.2) (fieldHead? code)
        (fieldHead? code'))

/-- Two objects that are not closed, or with the same fields. -/
inductive SameObject (ls : List Lexeme) (code code' : List Char) : Prop
  | unclosed {e e' : Error} (h : separateAtBracket code none = .error e)
      (h' : separateAtBracket code' none = .error e')
  | fields {body body' rest rest' : List Char} (h : separateAtBracket code none = .ok (body, rest))
      (h' : separateAtBracket code' none = .ok (body', rest'))
      (fields : List.Forall₂ (SameField ls) (fieldCodes body) (fieldCodes body'))

/-- With and without comments, the search for a name finds the same function and the same objects. -/
structure SameDeclarations (ls : List Lexeme) (name : String) : Prop where
  function : Option.Rel (SameHeader ls) (leftmost? (headerAt? name.toList) (rawOf ls))
    (leftmost? (headerAt? name.toList) (bareOf ls))
  objects : List.Forall₂ (SameObject ls) (objectCodes (rawOf ls) name) (objectCodes (bareOf ls) name)

/-- Whether neither a function nor an object is found under a name. -/
def isUndeclared (source : List Char) (name : String) : Bool :=
  (leftmost? (headerAt? name.toList) source).isNone && (objectCodes source name).isEmpty

theorem sameDeclarations_of_undeclared {ls : List Lexeme} {name : String}
    (h : isUndeclared (rawOf ls) name = true) (h' : isUndeclared (bareOf ls) name = true) :
    SameDeclarations ls name := by
  rw [isUndeclared, Bool.and_eq_true, Option.isNone_iff_eq_none, List.isEmpty_iff] at h h'
  constructor
  · rw [h.1, h'.1]
    exact .none
  · rw [h.2, h'.2]
    exact .nil

/-! ## What is found -/

variable {fits : TokenKind → Bool} {ls : List Lexeme} {source : List Char}

/-- Functions with the same parameters and the same code, or none. -/
inductive SameFunction (fits : TokenKind → Bool) :
    Except Error FunctionCode → Except Error FunctionCode → Prop
  | ok (params : List String) {code code' : List Char} (h : SameCode fits code code') :
      SameFunction fits (.ok ⟨params, code⟩) (.ok ⟨params, code'⟩)
  | error (e e' : Error) : SameFunction fits (.error e) (.error e')

theorem functionCode_eq (source : List Char) (name : String) : functionCode source name =
    match leftmost? (headerAt? name.toList) source with
    | none => .error (.malformed (.noFunction name) name)
    | some (params, braces) => do
      let (body, _) ← separateAtBracket braces none
      return ⟨splitParams params, body⟩ := rfl

theorem sameFunction_functionCode (hsplits : Splits source ls [])
    (hfits : ∀ k ∈ ls.filterMap Lexeme.value, fits k = true) {name : String} (h : SameDeclarations ls name) :
    SameFunction fits (functionCode (rawOf ls) name) (functionCode (bareOf ls) name) := by
  have hheads := h.function
  rw [functionCode_eq, functionCode_eq]
  generalize leftmost? (headerAt? name.toList) (rawOf ls) = x at hheads
  generalize leftmost? (headerAt? name.toList) (bareOf ls) = y at hheads
  cases hheads with
  | none => exact .error _ _
  | some hsame =>
    obtain ⟨hparams, hbody⟩ := hsame
    obtain ⟨code, code', rest, rest', hcut, hcut', hcode⟩ := hbody.cut hsplits hfits
    dsimp only
    rw [hcut, hcut', hparams]
    exact .ok _ hcode

/-- What is found in two fields that are the same. -/
inductive SameFound (fits : TokenKind → Bool) : Except Error Field → Except Error Field → Prop
  | blank : SameFound fits (.ok .blank) (.ok .blank)
  | other : SameFound fits (.ok .other) (.ok .other)
  | function (key : String) (params : List String) {code code' : List Char} (h : SameCode fits code code') :
      SameFound fits (.ok (.function key ⟨params, code⟩)) (.ok (.function key ⟨params, code'⟩))

theorem SameField.found (hsplits : Splits source ls [])
    (hfits : ∀ k ∈ ls.filterMap Lexeme.value, fits k = true) {code code' : List Char}
    (h : SameField ls code code') : SameFound fits (field code) (field code') := by
  rw [field_eq, field_eq]
  cases h with
  | blank h h' =>
    rw [h, h']
    exact .blank
  | head h h' heads =>
    rw [h, h']
    generalize fieldHead? code = x at heads
    generalize fieldHead? code' = y at heads
    cases heads with
    | none => exact .other
    | some hsame =>
      obtain ⟨hkey, hparams, hbody⟩ := hsame
      obtain ⟨cut, cut', rest, rest', hcut, hcut', hcode⟩ := hbody.cut hsplits hfits
      dsimp only
      rw [hcut, hcut', hparams, hkey]
      exact .function _ _ hcode

end PlayerScript.Source
