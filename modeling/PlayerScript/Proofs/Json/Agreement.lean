/-
Text that is JSON means the same to the interpreter as to the JSON reader. Both make a value that
denotes the written document, and add nothing to the store but the arrays and objects of it.
-/
import PlayerScript.Interpreter
import PlayerScript.Proofs.Eval.Steps
import PlayerScript.Proofs.Json.Meaning

namespace PlayerScript.Json

open PlayerScript.Text PlayerScript.Eval

/-! ## The value that the interpreter computes -/

section

variable (p : Program) (rounds : Nat)

mutual

/-- Each container takes one unit of the budget, and a number at most two. -/
theorem evalExpr_document : ∀ (w : Written) {budget : Nat}, w.depth + 2 ≤ budget →
    ∀ (scope : Scope) (m : Machine), ∃ v s,
      evalExpr p rounds budget scope w.expr m = .done v { m with store := s } ∧
        m.store.Adds w.depth s ∧ Denotes s w v
  | w, 0, hbudget, _, _ => by omega
  | .null, budget + 1, _, scope, m => by
    refine ⟨.null, m.store, ?_, .refl _, by rw [Denotes]⟩
    rw [Written.expr, evalExpr]
    rfl
  | .bool b, budget + 1, _, scope, m => by
    refine ⟨.bool b, m.store, ?_, .refl _, by rw [Denotes]⟩
    rw [Written.expr, evalExpr]
    rfl
  | .string parts, budget + 1, _, scope, m => by
    refine ⟨.string (decoded parts), m.store, ?_, .refl _, by rw [Denotes]⟩
    rw [Written.expr, evalExpr]
    rfl
  | .number n, budget + 1, hbudget, scope, m => by
    obtain ⟨budget, rfl⟩ : ∃ b, budget = b + 1 := ⟨budget - 1, by omega⟩
    refine ⟨.number n.value, m.store, ?_, .refl _, by rw [Denotes]⟩
    rw [Written.expr, Numeral.value]
    split
    · rw [evalExpr]
      dsimp only [exprStep]
      rw [evalExpr]
      rfl
    · rw [evalExpr]
      rfl
  | .array ws, budget + 1, hbudget, scope, m => by
    rw [Written.depth] at hbudget
    obtain ⟨vs, s, heval, hadds, hvs⟩ := evalAll_documents ws (show _ ≤ budget by omega) scope m
    refine ⟨(s.addArray vs.toArray).1, (s.addArray vs.toArray).2, ?_,
      hadds.trans (.addArray s vs.toArray), denotes_addArray hvs⟩
    rw [Written.expr, evalExpr]
    exact bind_of_done heval _
  | .object ms, budget + 1, hbudget, scope, m => by
    rw [Written.depth] at hbudget
    obtain ⟨es, s, heval, hadds, hes⟩ :=
      evalMembers_documents ms (show _ ≤ budget by omega) scope Table.empty m
    refine ⟨(s.addObject (Table.ofList es)).1, (s.addObject (Table.ofList es)).2, ?_,
      hadds.trans (.addObject s (Table.ofList es)), denotes_addObject hes⟩
    rw [Written.expr, evalExpr]
    exact bind_of_done heval _

theorem evalAll_documents : ∀ (ws : List Written) {budget : Nat}, depthOfItems ws + 2 ≤ budget →
    ∀ (scope : Scope) (m : Machine), ∃ vs s,
      evalAll (evaluators p rounds budget) scope (itemExprs ws) m = .done vs { m with store := s } ∧
        m.store.Adds (depthOfItems ws) s ∧ DenotesItems s ws vs
  | [], budget, _, scope, m => ⟨[], m.store, rfl, .refl _, by rw [DenotesItems]⟩
  | w :: ws, budget, hbudget, scope, m => by
    rw [depthOfItems] at hbudget ⊢
    obtain ⟨v, s, heval, hadds, hv⟩ := evalExpr_document w (show _ ≤ budget by omega) scope m
    obtain ⟨vs, s', heval', hadds', hvs⟩ :=
      evalAll_documents ws (show _ ≤ budget by omega) scope { m with store := s }
    refine ⟨v :: vs, s', ?_, (hadds.trans hadds').mono (by omega), ?_⟩
    · rw [itemExprs, evalAll]
      exact (bind_of_done heval _).trans (bind_of_done heval' _)
    · rw [DenotesItems]
      exact ⟨v, vs, rfl, hv.adds hadds', hvs⟩

theorem evalMembers_documents : ∀ (ms : List (List StringPart × Written)) {budget : Nat},
    depthOfMembers ms + 2 ≤ budget → ∀ (scope : Scope) (t : Table Value) (m : Machine), ∃ es s,
      evalMembers (evaluators p rounds budget) scope (memberExprs ms) t m =
          .done (t.insertAll es) { m with store := s } ∧
        m.store.Adds (depthOfMembers ms) s ∧ DenotesMembers s ms es
  | [], budget, _, scope, t, m => ⟨[], m.store, rfl, .refl _, by rw [DenotesMembers]⟩
  | (key, w) :: ms, budget, hbudget, scope, t, m => by
    rw [depthOfMembers] at hbudget ⊢
    obtain ⟨v, s, heval, hadds, hv⟩ := evalExpr_document w (show _ ≤ budget by omega) scope m
    obtain ⟨es, s', heval', hadds', hes⟩ := evalMembers_documents ms (show _ ≤ budget by omega) scope
      (t.insert (decoded key) v) { m with store := s }
    refine ⟨(decoded key, v) :: es, s', ?_, (hadds.trans hadds').mono (by omega), ?_⟩
    · rw [memberExprs, evalMembers]
      exact (bind_of_done heval _).trans heval'
    · rw [DenotesMembers]
      exact ⟨v, es, rfl, hv.adds hadds', hes⟩

end

end

/-! ## The value that the JSON reader makes -/

mutual

/-- The numbers in a written document. -/
def Written.numerals : Written → List Numeral
  | .number n => [n]
  | .array items => numeralsOfItems items
  | .object members => numeralsOfMembers members
  | _ => []

/-- The numbers in written elements. -/
def numeralsOfItems : List Written → List Numeral
  | [] => []
  | w :: rest => w.numerals ++ numeralsOfItems rest

/-- The numbers in written members. -/
def numeralsOfMembers : List (List StringPart × Written) → List Numeral
  | [] => []
  | (_, w) :: rest => w.numerals ++ numeralsOfMembers rest

end

theorem takeDigits_all {cs : List Char} : ∀ {n taken digits count : Nat},
    takeDigits n taken cs = (digits, count) → count ≤ taken + cs.length ∧
      (count = taken + cs.length → digits = cs.foldl (fun n c => n * 10 + digitValue c) n) := by
  induction cs with
  | nil =>
    intro n taken digits count h
    cases h
    exact ⟨Nat.le_refl _, fun _ => rfl⟩
  | cons c cs ih =>
    intro n taken digits count h
    rw [takeDigits] at h
    split at h
    · obtain ⟨hle, heq⟩ := ih h
      rw [List.length_cons, List.foldl_cons]
      exact ⟨by omega, fun hcount => heq (by omega)⟩
    · cases h
      rw [List.length_cons]
      exact ⟨by omega, fun hcount => by omega⟩

theorem ofInt_neg {n : Nat} (h : 0 < n) : Float.ofInt (-(n : Int)) = -Float.ofNat n := by
  obtain ⟨k, rfl⟩ := Nat.exists_eq_add_one.2 h
  rfl

theorem Numeral.size_of_whole (n : Numeral) (hfraction : n.fraction = [])
    (hexponent : n.exponent = none) : n.size = Float.ofNat (natOfDigits 10 n.whole) := by
  rw [Numeral.size, hfraction, hexponent, List.append_nil]
  rfl

/-- An integer is read as the double nearest to it; another number is read as a double. -/
theorem Numeral.toJson?_cases {n : Numeral} {j : Json} (h : n.toJson? = some j) :
    (∃ k, j = .integer k ∧ Float.ofInt k = n.value) ∨ ∃ x, j = .number x := by
  unfold Numeral.toJson? at h
  split at h
  rename_i digits taken htake
  split at h
  · rename_i hwhole
    simp only [Bool.and_eq_true, List.isEmpty_iff, Option.isNone_iff_eq_none, beq_iff_eq] at hwhole
    obtain ⟨⟨hfraction, hexponent⟩, htaken⟩ := hwhole
    have hdigits : digits = natOfDigits 10 n.whole := (takeDigits_all htake).2 (by omega)
    have hsize := n.size_of_whole hfraction hexponent
    rw [← hdigits] at hsize
    split at h
    · rename_i hsign
      rw [Bool.not_eq_true'] at hsign
      cases h
      exact .inl ⟨digits, rfl, by rw [Numeral.value, hsign, hsize]; rfl⟩
    · rename_i hsign
      rw [Bool.not_eq_true', Bool.not_eq_false] at hsign
      split at h
      · rename_i hpos
        rw [Bool.and_eq_true, decide_eq_true_eq] at hpos
        cases h
        exact .inl ⟨-(digits : Int), rfl, by rw [ofInt_neg hpos.1, Numeral.value, if_pos hsign, hsize]⟩
      · cases h
        exact .inr ⟨_, rfl⟩
  · obtain ⟨x, -, hx⟩ := Option.map_eq_some_iff.1 h
    exact .inr ⟨_, hx.symm⟩

/-- The double that a number is read as, if it is not read as an integer. -/
def Numeral.double? (n : Numeral) : Option Float :=
  match n.toJson? with
  | some (.number x) => some x
  | _ => none

/-- A number that is read as a double is read as the one nearest to what is written. -/
def Numeral.ReadNearest (n : Numeral) : Prop := ∀ x ∈ n.double?, x = n.value

instance (n : Numeral) : Decidable n.ReadNearest :=
  inferInstanceAs (Decidable (∀ x ∈ n.double?, x = n.value))

mutual

theorem ofJson_document : ∀ (w : Written) {j : Json}, w.toJson? = some j →
    (∀ n ∈ w.numerals, n.ReadNearest) → ∀ s : Store, ∃ v s',
      Value.ofJson j s = (v, s') ∧ s.Adds w.depth s' ∧ Denotes s' w v
  | .null, j, h, _, s => by
    cases h
    exact ⟨.null, s, rfl, .refl s, by rw [Denotes]⟩
  | .bool b, j, h, _, s => by
    cases h
    exact ⟨.bool b, s, rfl, .refl s, by rw [Denotes]⟩
  | .string parts, j, h, _, s => by
    rw [Written.toJson?, Option.map_eq_some_iff] at h
    obtain ⟨text, htext, rfl⟩ := h
    refine ⟨.string text, s, rfl, .refl s, ?_⟩
    rw [Denotes, decoded, htext]
    rfl
  | .number n, j, h, hn, s => by
    rw [Written.toJson?] at h
    refine ⟨.number n.value, s, ?_, .refl s, by rw [Denotes]⟩
    rcases n.toJson?_cases h with ⟨k, rfl, hk⟩ | ⟨x, rfl⟩
    · rw [Value.ofJson, Value.ofInt, hk]
    · have hx : x ∈ n.double? := by rw [Numeral.double?, h]; rfl
      have hmem : n ∈ Written.numerals (.number n) := by
        rw [Written.numerals]
        exact List.mem_singleton_self n
      rw [Value.ofJson, hn n hmem x hx]
  | .array ws, j, h, hn, s => by
    rw [Written.toJson?, Option.map_eq_some_iff] at h
    obtain ⟨js, hjs, rfl⟩ := h
    rw [Written.numerals] at hn
    obtain ⟨vs, s', hitems, hadds, hvs⟩ := ofItems_documents ws hjs hn s
    refine ⟨(s'.addArray vs.toArray).1, (s'.addArray vs.toArray).2, ?_,
      hadds.trans (.addArray s' vs.toArray), denotes_addArray hvs⟩
    rw [Value.ofJson, hitems]
  | .object ms, j, h, hn, s => by
    rw [Written.toJson?, Option.map_eq_some_iff] at h
    obtain ⟨js, hjs, rfl⟩ := h
    rw [Written.numerals] at hn
    obtain ⟨es, s', hmembers, hadds, hes⟩ := ofMembers_documents ms hjs hn Table.empty s
    refine ⟨(s'.addObject (Table.ofList es)).1, (s'.addObject (Table.ofList es)).2, ?_,
      hadds.trans (.addObject s' (Table.ofList es)), denotes_addObject hes⟩
    rw [Value.ofJson, hmembers]
    rfl

theorem ofItems_documents : ∀ (ws : List Written) {js : List Json}, itemsOf? ws = some js →
    (∀ n ∈ numeralsOfItems ws, n.ReadNearest) → ∀ s : Store, ∃ vs s',
      Value.ofItems js s = (vs, s') ∧ s.Adds (depthOfItems ws) s' ∧ DenotesItems s' ws vs
  | [], js, h, _, s => by
    cases h
    exact ⟨[], s, rfl, .refl s, by rw [DenotesItems]⟩
  | w :: ws, js, h, hn, s => by
    simp only [itemsOf?, Option.bind_eq_bind, Option.bind_eq_some_iff, pure, Option.some.injEq] at h
    obtain ⟨j, hj, js, hjs, rfl⟩ := h
    rw [numeralsOfItems, List.forall_mem_append] at hn
    obtain ⟨v, s', hitem, hadds, hv⟩ := ofJson_document w hj hn.1 s
    obtain ⟨vs, s'', hitems, hadds', hvs⟩ := ofItems_documents ws hjs hn.2 s'
    refine ⟨v :: vs, s'', ?_, (hadds.trans hadds').mono ?_, ?_⟩
    · simp only [Value.ofItems, hitem, hitems]
    · rw [depthOfItems]
      omega
    · rw [DenotesItems]
      exact ⟨v, vs, rfl, hv.adds hadds', hvs⟩

theorem ofMembers_documents : ∀ (ms : List (List StringPart × Written)) {js : List (String × Json)},
    membersOf? ms = some js → (∀ n ∈ numeralsOfMembers ms, n.ReadNearest) →
    ∀ (t : Table Value) (s : Store), ∃ es s', Value.ofMembers js t s = (t.insertAll es, s') ∧
      s.Adds (depthOfMembers ms) s' ∧ DenotesMembers s' ms es
  | [], js, h, _, t, s => by
    cases h
    exact ⟨[], s, rfl, .refl s, by rw [DenotesMembers]⟩
  | (key, w) :: ms, js, h, hn, t, s => by
    simp only [membersOf?, Option.bind_eq_bind, Option.bind_eq_some_iff, pure, Option.some.injEq] at h
    obtain ⟨name, hname, j, hj, js, hjs, rfl⟩ := h
    rw [numeralsOfMembers, List.forall_mem_append] at hn
    have hkey : decoded key = name := by
      rw [decoded, hname]
      rfl
    obtain ⟨v, s', hitem, hadds, hv⟩ := ofJson_document w hj hn.1 s
    obtain ⟨es, s'', hitems, hadds', hes⟩ := ofMembers_documents ms hjs hn.2 (t.insert name v) s'
    refine ⟨(name, v) :: es, s'', ?_, (hadds.trans hadds').mono ?_, ?_⟩
    · simp only [Value.ofMembers, hitem, hitems]
      rfl
    · rw [depthOfMembers]
      omega
    · rw [DenotesMembers, hkey]
      exact ⟨v, es, rfl, hv.adds hadds', hes⟩

end

/-! ## Agreement -/

theorem interpretExpression_document (p : Program) {cs : List Char} {w : Written}
    (hread : Written.read? cs = some w) {j : Json} (hj : w.toJson? = some j)
    (hnesting : w.depth + 3 ≤ p.options.maxNesting) {budget : Nat} (hbudget : w.depth + 3 ≤ budget)
    (scope : Scope) (m : Machine) : ∃ v s,
      p.interpretExpression cs scope budget m = .done v { m with store := s } ∧
        m.store.Adds w.depth s ∧ Denotes s w v := by
  obtain ⟨budget, rfl⟩ : ∃ b, budget = b + 1 := ⟨budget - 1, by omega⟩
  obtain ⟨v, s, heval, hadds, hv⟩ :=
    evalExpr_document p Program.maxRounds w (show _ ≤ budget by omega) scope m
  refine ⟨v, s, ?_, hadds, hv⟩
  have hparse : ofStep (p.parse cs) m = .done [.expr w.expr] m := by
    simp only [ofStep, Program.parse, parseStatements_document hread hj hnesting]
  have hstmt : execStmt p Program.maxRounds (budget + 1) scope (.expr w.expr) m =
      .done (.normal v) { m with store := s } := by
    rw [execStmt]
    exact bind_of_done heval _
  have hblock : block (evaluators p Program.maxRounds (budget + 1)) scope [.expr w.expr] .undefined m =
      .done (.normal v) { m with store := s } := by
    rw [block]
    exact bind_of_done hstmt _
  have hstatement : p.interpretStatement cs scope (budget + 1) m =
      .done (v, false) { m with store := s } := by
    rw [Program.interpretStatement]
    exact (bind_of_done hparse _).trans (bind_of_done hblock _)
  rw [Program.interpretExpression]
  exact bind_of_done hstatement _

/-- Text that is accepted as a JSON document evaluates in every scope, with three units of the budget
and three levels of nesting more than its containers need. Nothing is added to the store but arrays
and objects, and the value is structurally equal to the one that the document has. The numbers of the
document are assumed to be read as the nearest doubles. -/
theorem json_text_agrees (p : Program) {text : String} {store : Store} {read : Value × Store}
    (haccepted : Value.parse text store = .ok read) {w : Written}
    (hwritten : Written.read? text.toList = some w) (hnumbers : ∀ n ∈ w.numerals, n.ReadNearest)
    (hnesting : w.depth + 3 ≤ p.options.maxNesting) {budget : Nat} (hbudget : w.depth + 3 ≤ budget)
    (scope : Scope) (m : Machine) : ∃ v s v' s',
      p.interpretExpression text.toList scope budget m = .done v { m with store := s } ∧
        m.store.Adds w.depth s ∧ Value.parse text s = .ok (v', s') ∧
        Value.equals s' v v' = true := by
  have hj : ∃ j, Json.parse? text.toList = some j ∧ w.toJson? = some j := by
    unfold Value.parse at haccepted
    split at haccepted
    · rename_i j hparse
      refine ⟨j, hparse, ?_⟩
      unfold Json.parse? at hparse
      rw [hwritten] at hparse
      simp only [Option.bind_eq_bind, Option.bind_some] at hparse
      split_ifs at hparse
      exact hparse
    · cases haccepted
  obtain ⟨j, hparse, hj⟩ := hj
  obtain ⟨v, s, heval, hadds, hv⟩ := interpretExpression_document p hwritten hj hnesting hbudget scope m
  obtain ⟨v', s', hread, hadds', hv'⟩ := ofJson_document w hj hnumbers s
  refine ⟨v, s, v', s', heval, hadds, ?_, ?_⟩
  · rw [Value.parse, hparse]
    exact congrArg Except.ok hread
  · refine (hv.adds hadds').equalWithin ?_ hv'
    have hcount := hadds'.count
    show w.depth ≤ s'.containers
    omega

/-- A text with a repeated key, a negative number with an exponent, and the two halves of a pair. -/
def sampleText : String := "[-2.5e1, \x7b\"a\": 1,\"a\": \"\\uD83D\\uDE00\"\x7d]"

/-- The document that is written there. -/
def sampleDocument : Written :=
  .array [.number ⟨true, ['2'], ['5'], some (false, ['1'])⟩,
    .object [([.char 'a'], .number ⟨false, ['1'], [], none⟩),
      ([.char 'a'], .string [.code 0xD83D, .code 0xDE00])]]

theorem json_text_agrees_sample :
    ∃ read, Value.parse sampleText Store.initial = .ok read ∧
      Written.read? sampleText.toList = some sampleDocument ∧
      (∀ n ∈ sampleDocument.numerals, n.ReadNearest) ∧
      ∃ v s v' s', Program.interpretExpression ⟨[], ⟨5, 5⟩⟩ sampleText.toList ⟨⟨0⟩, []⟩ 5
            (.initial .initial Table.empty) = .done v { Machine.initial .initial Table.empty with store := s } ∧
          Store.initial.Adds 2 s ∧ Value.parse sampleText s = .ok (v', s') ∧
          Value.equals s' v v' = true := by
  have hwritten : Written.read? sampleText.toList = some sampleDocument := by cbv
  have hnumbers : ∀ n ∈ sampleDocument.numerals, n.ReadNearest := by decide +kernel
  have haccepted : ∃ read, Value.parse sampleText Store.initial = .ok read := by
    have hsome : (Json.parse? sampleText.toList).isSome = true := by decide +kernel
    obtain ⟨j, hj⟩ := Option.isSome_iff_exists.1 hsome
    exact ⟨_, by rw [Value.parse, hj]⟩
  obtain ⟨read, haccepted⟩ := haccepted
  exact ⟨read, haccepted, hwritten, hnumbers, json_text_agrees ⟨[], ⟨5, 5⟩⟩ haccepted hwritten hnumbers
    (by decide) (by decide) ⟨⟨0⟩, []⟩ (.initial .initial Table.empty)⟩

end PlayerScript.Json
