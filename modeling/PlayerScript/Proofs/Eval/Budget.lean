/-
The budget decides whether a run is cut off, never what it computes. Only a clean-up can see that
the part before it was cut off; without clean-ups, a run that is not cut off by the recursion limit
goes exactly the same way with any larger budget.
-/
import PlayerScript.Proofs.Eval.Confinement

namespace PlayerScript

open Ast Eval

/-- A statement that is no guarded block with a clean-up. -/
def Stmt.noCleanup : Stmt → Prop
  | .tryBlock _ _ (some _) => False
  | _ => True

/-- No function of the source has a guarded block with a clean-up. -/
def Program.NoCleanup (p : Program) : Prop :=
  ∀ {code}, p.HasCode code → ∀ minted body,
    (parseStatements code.body p.options.maxNesting minted).1 = .ok body →
      bodyAll Stmt.noCleanup body

/-- No function that can be reached has a guarded block with a clean-up. -/
def Machine.NoCleanup (m : Machine) (layers : List LayerRef) (values : List Value) : Prop :=
  ∀ f, m.Reaches layers values (.function f) →
    bodyAll Stmt.noCleanup (m.store.closure f).definition.body

/-- The program with another recursion limit. -/
def Program.withLimit (p : Program) (limit : Nat) : Program :=
  { p with options := { p.options with recursionLimit := limit } }

/-- Without clean-ups, the first of two runs may be cut off. -/
def Rules.cutting {p : Program} (h : p.NoCleanup) : Rules p where
  cut := True
  loops := True
  allowed := Stmt.noCleanup
  no_cleanup := fun _ h => h
  loop := fun _ => trivial
  source := h

/-! ## States -/

variable {p : Program} {m m₁ m₂ : Machine} {layers : List LayerRef} {values : List Value}

/-- Two runs from the same state that are linked by a region are in the same state. -/
theorem Region.eq_of_linked {r : Region p} (hstart : r.first = r.second) (hl : r.Linked m₁ m₂) :
    m₁ = m₂ := by
  -- Inside the states agree; outside both are as they were at the beginning.
  have hsame : ∀ n, m₁.store.SameAt m₂.store n := by
    intro n
    by_cases h : r.cells n
    · exact sameAt_inside hl h
    · exact (sameAt_first hl h).symm.trans (hstart ▸ sameAt_second hl h)
  obtain ⟨⟨layers₁, arrays₁, objects₁, closures₁⟩, functions₁, known₁, minted₁⟩ := m₁
  obtain ⟨⟨layers₂, arrays₂, objects₂, closures₂⟩, functions₂, known₂, minted₂⟩ := m₂
  have hlayers : layers₁ = layers₂ := Arena.ext_get? fun i => hsame (.layer ⟨i⟩)
  have harrays : arrays₁ = arrays₂ := Arena.ext_get? fun i => hsame (.array ⟨i⟩)
  have hobjects : objects₁ = objects₂ := Arena.ext_get? fun i => hsame (.object ⟨i⟩)
  have hclosures : closures₁ = closures₂ := Arena.ext_get? fun i => hsame (.function ⟨i⟩)
  obtain rfl : functions₁ = functions₂ := hl.functions
  obtain rfl : known₁ = known₂ := hl.known
  obtain rfl : minted₁ = minted₂ := hl.minted
  rw [hlayers, harrays, hobjects, hclosures]

/-- Two matching outcomes of runs from the same state are the same, unless the first run was cut
off. -/
theorem Region.eq_of_matches {α : Type} {r : Region p} (hstart : r.first = r.second)
    {Q : Machine → α → Prop} {o₁ o₂ : Outcome α} (h : r.discipline.Matches m Q o₁ o₂)
    (hcut : ∀ m', o₁ ≠ .failed .recursionLimit m') : o₂ = o₁ := by
  cases h with
  | done linked _ _ => rw [eq_of_linked hstart linked]
  | failed errors linked _ => rw [eq_of_linked hstart linked, show _ = _ from errors]
  | unfinished => rfl
  | cut _ => exact absurd rfl (hcut _)

/-! ## Limits -/

theorem compileFields_withLimit (p : Program) (limit : Nat) :
    ∀ (fields : List (List Char)) (t : Table Value) (m : Machine),
      (p.withLimit limit).compileFields fields t m = p.compileFields fields t m
  | [], _, _ => rfl
  | field :: rest, t, m => by
    have hcompile : ∀ key code, (p.withLimit limit).compile key code Program.globalScope m =
      p.compile key code Program.globalScope m := fun _ _ => rfl
    rw [Program.compileFields, Program.compileFields]
    simp only [hcompile, compileFields_withLimit p limit rest]

theorem compileObject_withLimit (p : Program) (limit : Nat) (name : String) :
    ∀ (texts : List (List Char)) (m : Machine),
      (p.withLimit limit).compileObject name texts m = p.compileObject name texts m
  | [], _ => rfl
  | text :: rest, m => by
    rw [Program.compileObject, Program.compileObject]
    simp only [compileFields_withLimit, compileObject_withLimit p limit name rest]

theorem resolveObject_withLimit (p : Program) (limit : Nat) (name : String) :
    (p.withLimit limit).resolveObject name = p.resolveObject name := by
  unfold Program.resolveObject
  simp only [compileObject_withLimit]
  rfl

theorem exprStep_withLimit (p : Program) (limit : Nat) (E : Evaluators) (scope : Scope) (e : Expr) :
    exprStep (p.withLimit limit) E scope e = exprStep p E scope e := by
  -- A step looks at the program only to take functions and objects out of its source.
  have hobject : ∀ name optional,
      namedObject (p.withLimit limit) name optional = namedObject p name optional := by
    intro name optional
    funext m
    rw [namedObject, namedObject, resolveObject_withLimit]
  have htarget : ∀ object optional, memberTarget (p.withLimit limit) E scope object optional =
      memberTarget p E scope object optional := by
    intro object optional
    unfold memberTarget
    simp only [hobject]
  cases e with
  | member object property optional =>
    rw [exprStep, exprStep, evalMember, evalMember]
    simp only [htarget]
  | call callee args =>
    have hnamed : ∀ name, callNamed (p.withLimit limit) E scope name args =
      callNamed p E scope name args := fun _ => rfl
    have hmember : ∀ object property optional,
        callMember (p.withLimit limit) E scope object property optional args =
          callMember p E scope object property optional args := by
      intro object property optional
      rw [callMember, callMember, htarget]
    rw [exprStep, exprStep]
    funext m
    unfold evalCall
    cases callee with
    | member object property optional => simp only [hmember]
    | ident name => simp only [hnamed]
    | _ => rfl
  | assign name index op value => cases index <;> rfl
  | _ => rfl

/-- The evaluators do not look at the limit. -/
theorem evaluators_withLimit (p : Program) (limit rounds : Nat) : ∀ budget,
    evaluators (p.withLimit limit) rounds budget = evaluators p rounds budget
  | 0 => by
    have hexpr : evalExpr (p.withLimit limit) rounds 0 = evalExpr p rounds 0 := by
      funext scope e
      rw [evalExpr, evalExpr]
    have hstmt : execStmt (p.withLimit limit) rounds 0 = execStmt p rounds 0 := by
      funext scope s
      rw [execStmt, execStmt]
    rw [evaluators, evaluators, hexpr, hstmt]
  | budget + 1 => by
    have hparts := evaluators_withLimit p limit rounds budget
    rw [evaluators, evaluators] at hparts
    have hexpr : evalExpr (p.withLimit limit) rounds (budget + 1) =
        evalExpr p rounds (budget + 1) := by
      funext scope e
      rw [evalExpr, evalExpr, hparts, exprStep_withLimit]
    have hstmt : execStmt (p.withLimit limit) rounds (budget + 1) =
        execStmt p rounds (budget + 1) := by
      funext scope s
      rw [execStmt, execStmt, hparts]
    rw [evaluators, evaluators, hexpr, hstmt]

theorem call_withLimit (p : Program) (limit : Nat) (f : FunctionRef) (args : List Value) :
    (p.withLimit limit).call f args = invoke (evaluators p Program.maxRounds limit) f args [] := by
  rw [Program.call, evaluators_withLimit]
  rfl

/-! ## Budgets -/

section

variable (hsource : p.NoCleanup) {budget budget' : Nat} (hle : budget ≤ budget')
include hsource hle

theorem interpretStatement_of_le {code : List Char} {scope : Scope}
    (hcode : ∀ stmts, (p.parse code m).1 = .ok stmts → bodyAll Stmt.noCleanup stmts)
    (hreached : m.NoCleanup scope.layers [])
    (hcut : ∀ m', p.interpretStatement code scope budget m ≠ .failed .recursionLimit m') :
    p.interpretStatement code scope budget' m = p.interpretStatement code scope budget m := by
  have hl := Region.linked_around (Rules.cutting hsource) (m.agreeOn_refl _) hreached
  refine Region.eq_of_matches rfl (Discipline.matches_interpretStatement
    (d := (Region.around (Rules.cutting hsource) m m scope.layers []).discipline) Region.uncleaned hle
    (fun h => absurd trivial h) (fun l hm => .inl (.layer hm)) (Region.steps_parse hl hcode)) hcut

theorem invoke_of_le {f : FunctionRef} {args : List Value}
    (hreached : m.NoCleanup [] (.function f :: args))
    (hcut : ∀ m', invoke (evaluators p Program.maxRounds budget) f args [] m ≠
      .failed .recursionLimit m') :
    invoke (evaluators p Program.maxRounds budget') f args [] m =
      invoke (evaluators p Program.maxRounds budget) f args [] m := by
  have hl := Region.linked_around (Rules.cutting hsource) (m.agreeOn_refl _) hreached
  have hinside : ∀ v ∈ .function f :: args,
      (Region.around (Rules.cutting hsource) m m [] (.function f :: args)).Inside v :=
    fun v hv n hn => .inl (.value hv hn)
  rw [List.forall_mem_cons] at hinside
  have hparts := Discipline.parts_evaluators
    (Region.around (Rules.cutting hsource) m m [] (.function f :: args)).discipline
    Region.uncleaned Program.maxRounds hle (fun h => absurd trivial h)
  exact Region.eq_of_matches rfl (Discipline.matches_invoke hparts hl hinside.1 hinside.2
    (List.forall_mem_nil _)) hcut

end

/-- Without clean-ups, a run that is not cut off by the recursion limit has the same outcome, the
final state included, with every larger budget; and so has a call of a function. -/
theorem outcome_of_larger_budget (p : Program) (m : Machine) (hsource : p.NoCleanup)
    {budget budget' : Nat} (hle : budget ≤ budget') :
    (∀ code scope, (∀ stmts, (p.parse code m).1 = .ok stmts → bodyAll Stmt.noCleanup stmts) →
      m.NoCleanup scope.layers [] →
      (∀ m', p.interpretStatement code scope budget m ≠ .failed .recursionLimit m') →
      p.interpretStatement code scope budget' m = p.interpretStatement code scope budget m) ∧
    (∀ f args, m.NoCleanup [] (.function f :: args) →
      (∀ m', (p.withLimit budget).call f args m ≠ .failed .recursionLimit m') →
      (p.withLimit budget').call f args m = (p.withLimit budget).call f args m) := by
  constructor
  · intro code scope hcode hreached hcut
    exact interpretStatement_of_le hsource hle hcode hreached hcut
  · intro f args hreached hcut
    rw [call_withLimit] at hcut
    rw [call_withLimit, call_withLimit]
    exact invoke_of_le hsource hle hreached hcut

/-- The sample state after a call of its function. -/
def sampleEnd : Machine :=
  sampleState.withStore { sampleState.store with
    layers := ⟨#[⟨[("x", .string "new")]⟩, ⟨[("a", .string "old")]⟩, ⟨[("a", .string "new")]⟩]⟩ }

/-- A program without a source that calls the function of the sample state by its name. -/
theorem parse_sample : (Program.mk [] .standard).parse "f('new')".toList sampleState =
    (.ok [.expr (.call (.ident "f") [.literal (.string "new")])], sampleState) := rfl

theorem outcome_of_larger_budget_sample :
    (Program.mk [] .standard).interpretStatement "f('new')".toList Program.globalScope 100
      sampleState = .done (.string "new", false) sampleEnd ∧
    ((Program.mk [] .standard).withLimit 100).call ⟨0⟩ [.string "new"] sampleState =
      .done (.string "new") sampleEnd := by
  have hbudget := outcome_of_larger_budget ⟨[], .standard⟩ sampleState
    (Program.codeAll_empty _ _)
    (show 5 ≤ 100 by decide)
  have hreached : ∀ {layers values}, (∀ l ∈ layers, l = LayerRef.globals) →
      (∀ v ∈ values, ∀ n, v.node? = some n → n = .function ⟨0⟩) →
      sampleState.NoCleanup layers values := by
    intro layers values hlayers hvalues f hf
    rcases reaches_sampleState hlayers hvalues hf with h | h
    · cases h
    · cases h
      exact ⟨⟨trivial, trivial, trivial⟩, trivial⟩
  have hstatement : (Program.mk [] .standard).interpretStatement "f('new')".toList
      Program.globalScope 5 sampleState = .done (.string "new", false) sampleEnd := by
    unfold Program.interpretStatement
    show Eval.andThen _ _ _ = _
    rw [Eval.andThen, Eval.ofStep, parse_sample]
    rfl
  have hcall : ((Program.mk [] .standard).withLimit 5).call ⟨0⟩ [.string "new"] sampleState =
      .done (.string "new") sampleEnd := rfl
  constructor
  · rw [← hstatement]
    refine hbudget.1 _ _ ?_ (hreached (by decide) (by simp)) ?_
    · intro stmts h
      rw [parse_sample] at h
      cases h
      exact ⟨⟨trivial, trivial, trivial, trivial⟩, trivial⟩
    · intro m' h
      rw [hstatement] at h
      cases h
  · rw [← hcall]
    refine hbudget.2 _ _ (hreached (by simp) (by simp [Value.node?])) ?_
    intro m' h
    rw [hcall] at h
    cases h

end PlayerScript
