/-
A step without any budget left ends the whole call with the recursion limit. What such a step does is
made a parameter of the evaluators, and so is what becomes of a clean-up that does not end normally
while the limit is pending: a call attempts such a step if its outcome depends on the first, and a
clean-up gets in the way of the limit if the outcome depends on the second.
-/
import PlayerScript.Proofs.Eval.Runs

namespace PlayerScript

open Ast Eval

/-! ## Evaluators with parameters -/

/-- What a step without any budget does, and what becomes of the outcome of a clean-up that starts
in a state with the limit pending and does not end normally. -/
structure Exhaustion where
  step : Evaluators
  replaced : Machine → Outcome Completion → Outcome Completion

namespace Exhaustion

/-- Steps without any budget fail. -/
def failing : Evaluators := ⟨fun _ _ => fail .recursionLimit, fun _ _ => fail .recursionLimit⟩

/-- The evaluators as they are: the outcome of a clean-up replaces the limit. -/
def standard : Exhaustion := ⟨failing, fun _ outcome => outcome⟩

/-- The limit stays, however a clean-up ends. -/
def keeping : Exhaustion := ⟨failing, fun m _ => .failed .recursionLimit m⟩

/-- What is left of a limit that was pending in a state, after a clean-up. -/
def pending (x : Exhaustion) (m : Machine) : Outcome Completion → Outcome Completion
  | .done (.normal _) m' => .failed .recursionLimit m'
  | outcome => x.replaced m outcome

/-- What is left of an outcome after a clean-up. -/
def cleaned (x : Exhaustion) (clean : Eval Completion) : Outcome Completion → Outcome Completion
  | .unfinished => .unfinished
  | .done c m => Discipline.cleaned (fun m' => .done c m') (clean m)
  | .failed .recursionLimit m => x.pending m (clean m)
  | .failed e m => Discipline.cleaned (fun m' => .failed e m') (clean m)

/-- Runs a statement, given the evaluators for its parts. -/
def stmtStep (x : Exhaustion) (rounds : Nat) (parts : Evaluators) (scope : Scope) :
    Stmt → Eval Completion
  | .tryBlock body _ (some clean) =>
    fun m => x.cleaned (block parts scope clean .undefined) (block parts scope body .undefined m)
  | s => Eval.stmtStep rounds parts scope s

/-- Only clean-ups look at the parameters. -/
theorem stmtStep_eq (x : Exhaustion) (rounds : Nat) (parts : Evaluators) (scope : Scope) {s : Stmt}
    (h : ∀ body handler clean, s ≠ .tryBlock body handler (some clean)) :
    x.stmtStep rounds parts scope s = Eval.stmtStep rounds parts scope s := by
  cases s with
  | tryBlock body handler clean =>
    cases clean with
    | none => rfl
    | some clean => exact absurd rfl (h _ _ _)
  | _ => rfl

/-- The evaluators within a budget. -/
def evaluators (x : Exhaustion) (p : Program) (rounds : Nat) : Nat → Evaluators
  | 0 => x.step
  | budget + 1 =>
    ⟨exprStep p (x.evaluators p rounds budget), x.stmtStep rounds (x.evaluators p rounds budget)⟩

theorem cleaned_standard (body clean : Eval Completion) (m : Machine) :
    standard.cleaned clean (body m) = withCleanup body clean m := by
  unfold withCleanup
  cases body m with
  | unfinished => rfl
  | done c m' => rfl
  | failed e m' => cases e <;> rfl

theorem cleaned_failed (x : Exhaustion) (clean : Eval Completion) {e : Error} (m : Machine)
    (he : e ≠ .recursionLimit) :
    x.cleaned clean (.failed e m) = Discipline.cleaned (fun m' => .failed e m') (clean m) := by
  cases e with
  | recursionLimit => exact absurd rfl he
  | _ => rfl

theorem stmtStep_standard (rounds : Nat) (parts : Evaluators) (scope : Scope) (s : Stmt) :
    standard.stmtStep rounds parts scope s = Eval.stmtStep rounds parts scope s := by
  by_cases hs : ∃ body handler clean, s = .tryBlock body handler (some clean)
  · obtain ⟨body, handler, clean, rfl⟩ := hs
    funext m
    exact cleaned_standard _ _ m
  · exact stmtStep_eq _ _ _ _ fun body handler clean heq => hs ⟨body, handler, clean, heq⟩

theorem evaluators_standard (p : Program) (rounds : Nat) : ∀ budget,
    standard.evaluators p rounds budget = ⟨evalExpr p rounds budget, execStmt p rounds budget⟩
  | 0 => by
    have hexpr : failing.expr = evalExpr p rounds 0 := by
      funext scope e
      rw [evalExpr, failing]
    have hstmt : failing.stmt = execStmt p rounds 0 := by
      funext scope s
      rw [execStmt, failing]
    rw [evaluators, ← hexpr, ← hstmt, standard]
  | budget + 1 => by
    rw [evaluators, evaluators_standard p rounds budget]
    have hexpr : exprStep p ⟨evalExpr p rounds budget, execStmt p rounds budget⟩ =
        evalExpr p rounds (budget + 1) := by
      funext scope e
      rw [evalExpr]
    have hstmt : standard.stmtStep rounds ⟨evalExpr p rounds budget, execStmt p rounds budget⟩ =
        execStmt p rounds (budget + 1) := by
      funext scope s
      rw [stmtStep_standard, execStmt]
    rw [hexpr, hstmt]

/-! ## The limit stays or nothing depends on it -/

/-- A run that may end with the limit and another one from the same state. -/
def discipline (p : Program) : Discipline p p :=
  .ofSame True (fun _ _ => True) (fun _ => rfl) (fun _ _ => trivial) (fun _ _ => trivial)
    (fun _ _ _ _ => Relations.steps_ofSame (fun _ => rfl) (fun _ _ => trivial) trivial)
    fun _ _ _ _ => Relations.steps_ofSame (fun _ => rfl) (fun _ _ => trivial) trivial

variable {p : Program}

theorem linked_refl (m : Machine) : (discipline p).Linked m m := ⟨rfl, m.store.codeAll_always⟩

theorem completes (m : Machine) (c : Completion) : (discipline p).Completes m c := by
  cases c <;> trivial

/-- Matching outcomes are the same, unless the first one is the limit. -/
theorem matches_iff {α : Type} {m : Machine} {Q : Machine → α → Prop} (hQ : ∀ m a, Q m a)
    {o₁ o₂ : Outcome α} :
    (discipline p).Matches m Q o₁ o₂ ↔ o₂ = o₁ ∨ ∃ m', o₁ = .failed .recursionLimit m' := by
  constructor
  · intro h
    cases h with
    | done linked _ _ => exact .inl (by rw [linked.1])
    | failed errors linked _ => exact .inl (by rw [linked.1, show _ = _ from errors])
    | unfinished _ => exact .inl rfl
    | cut _ => exact .inr ⟨_, rfl⟩
  · rintro (rfl | ⟨m', rfl⟩)
    · cases o₂ with
      | done a m' => exact .done (linked_refl m') trivial (hQ _ _)
      | failed e m' => exact .failed rfl (linked_refl m') trivial
      | unfinished => exact .unfinished trivial
    · exact .cut trivial

theorem pending_keeping (m : Machine) (o : Outcome Completion) :
    ∃ m', keeping.pending m o = .failed .recursionLimit m' := by
  unfold pending
  split
  · exact ⟨_, rfl⟩
  · exact ⟨m, rfl⟩

/-- After a clean-up that keeps the limit, two runs are the same unless the first one ends with the
limit, if they were before. -/
theorem cleaned_keeping (x : Exhaustion) {clean₁ clean₂ : Eval Completion} {o₁ o₂ : Outcome Completion}
    (hclean : ∀ m, clean₂ m = clean₁ m ∨ ∃ m', clean₁ m = .failed .recursionLimit m')
    (h : o₂ = o₁ ∨ ∃ m', o₁ = .failed .recursionLimit m') :
    x.cleaned clean₂ o₂ = keeping.cleaned clean₁ o₁ ∨
      ∃ m', keeping.cleaned clean₁ o₁ = .failed .recursionLimit m' := by
  have hkept : ∀ (keep : Machine → Outcome Completion) m,
      Discipline.cleaned keep (clean₂ m) = Discipline.cleaned keep (clean₁ m) ∨
        ∃ m', Discipline.cleaned keep (clean₁ m) = .failed .recursionLimit m' := by
    intro keep m
    rcases hclean m with heq | ⟨m', hlimit⟩
    · exact .inl (by rw [heq])
    · exact .inr ⟨m', by rw [hlimit, Discipline.cleaned]; simp⟩
  rcases h with rfl | ⟨m', rfl⟩
  · cases o₂ with
    | unfinished => exact .inl rfl
    | done c m => exact hkept _ m
    | failed e m =>
      by_cases he : e = .recursionLimit
      · subst he
        exact .inr (pending_keeping m (clean₁ m))
      · rw [cleaned_failed x clean₂ m he, cleaned_failed keeping clean₁ m he]
        exact hkept _ m
  · exact .inr (pending_keeping m' (clean₁ m'))

/-- The evaluators that keep the limit give the same as any others, or the limit. -/
theorem parts_keeping (x : Exhaustion) (rounds : Nat) : ∀ budget,
    (discipline p).Parts (keeping.evaluators p rounds budget) (x.evaluators p rounds budget)
  | 0 => ⟨fun _ _ _ => .cut trivial, fun _ _ _ => .cut trivial⟩
  | budget + 1 => by
    have hparts := parts_keeping x rounds budget
    refine ⟨fun hl hs he => Discipline.matches_exprStep hparts hl hs he, ?_⟩
    intro m₁ m₂ scope s hl hs he
    rw [evaluators, evaluators]
    dsimp only
    by_cases hguarded : ∃ body handler clean, s = .tryBlock body handler (some clean)
    · obtain ⟨body, handler, clean, rfl⟩ := hguarded
      obtain rfl : m₁ = m₂ := hl.1
      have hblock : ∀ (stmts : List Stmt) (m : Machine), (discipline p).Matches m
          (discipline p).Completes (block (keeping.evaluators p rounds budget) scope stmts .undefined m)
          (block (x.evaluators p rounds budget) scope stmts .undefined m) :=
        fun stmts m => Discipline.matches_block hparts (linked_refl m) hs (bodyAll_true stmts) trivial
      rw [matches_iff completes]
      exact cleaned_keeping x (fun m => (matches_iff completes).1 (hblock clean m))
        ((matches_iff completes).1 (hblock body m₁))
    · have hne : ∀ body handler clean, s ≠ .tryBlock body handler (some clean) :=
        fun body handler clean heq => hguarded ⟨body, handler, clean, heq⟩
      rw [stmtStep_eq _ _ _ _ hne, stmtStep_eq _ _ _ _ hne]
      exact Discipline.matches_stmtStep_unguarded hparts (fun _ => rfl) hl hs he
        fun heq => absurd heq (hne _ _ _)

end Exhaustion

/-! ## Calls -/

/-- Calls a function with the given behaviour of steps without any budget. -/
def Program.callWith (p : Program) (x : Exhaustion) (f : FunctionRef) (args : List Value) : Eval Value :=
  invoke (x.evaluators p Program.maxRounds p.options.recursionLimit) f args []

theorem callWith_standard (p : Program) (f : FunctionRef) (args : List Value) :
    p.callWith .standard f args = p.call f args := by
  rw [Program.callWith, Exhaustion.evaluators_standard]
  rfl

/-- A call attempts a step without any budget: its outcome depends on what such steps do. -/
def Program.Exhausts (p : Program) (f : FunctionRef) (args : List Value) (m : Machine) : Prop :=
  ∃ step, p.callWith { Exhaustion.standard with step } f args m ≠ p.callWith .standard f args m

/-- During a call, a clean-up that starts with the limit pending does not end normally: the outcome
depends on what becomes of such clean-ups. -/
def Program.ReplacesLimit (p : Program) (f : FunctionRef) (args : List Value) (m : Machine) : Prop :=
  ∃ replaced, p.callWith { Exhaustion.standard with replaced } f args m ≠ p.callWith .standard f args m

theorem callWith_keeping (p : Program) (x : Exhaustion) (f : FunctionRef) (args : List Value)
    (m : Machine) :
    p.callWith x f args m = p.callWith .keeping f args m ∨
      ∃ m', p.callWith .keeping f args m = .failed .recursionLimit m' :=
  (Exhaustion.matches_iff fun _ _ => trivial).1 (Discipline.matches_invoke
    (Exhaustion.parts_keeping x Program.maxRounds p.options.recursionLimit) (Exhaustion.linked_refl m) trivial
    (fun _ _ => trivial) (List.forall_mem_nil _))

/-- A call that attempts a step without any budget ends with the recursion limit, unless a clean-up
that starts with the limit pending does not end normally. -/
theorem exhausted_call_fails (p : Program) (f : FunctionRef) (args : List Value) (m : Machine)
    (h : p.Exhausts f args m) :
    (∃ m', p.call f args m = .failed .recursionLimit m') ∨ p.ReplacesLimit f args m := by
  obtain ⟨step, hstep⟩ := h
  rw [← callWith_standard]
  by_cases hkept : p.callWith .keeping f args m = p.callWith .standard f args m
  · -- The limit is not replaced, so that the call is one that keeps it.
    rcases callWith_keeping p { Exhaustion.standard with step } f args m with heq | hlimit
    · exact absurd (heq.trans hkept) hstep
    · exact .inl (hkept ▸ hlimit)
  · exact .inr ⟨Exhaustion.keeping.replaced, hkept⟩

/-- A program without a source and with a small limit. -/
def limitedProgram : Program := ⟨[], { Options.standard with recursionLimit := 3 }⟩

/-- A state with one function, which is known by the name `f`, after some calls of it. -/
def recursiveState (body : List Stmt) (calls : Nat) : Machine where
  store := {
    layers := ⟨Array.replicate (calls + 1) Table.empty⟩
    arrays := Arena.empty
    objects := Arena.empty
    closures := ⟨#[⟨⟨"f", [], body⟩, Program.globalScope⟩]⟩ }
  functions := ⟨[("f", ⟨0⟩)]⟩
  objects := Table.empty
  minted := 0

/-- Steps without any budget that end a run for good. -/
def endingStep : Evaluators := ⟨fun _ _ _ => .unfinished, fun _ _ _ => .unfinished⟩

/-- The body `return f()`. -/
def callingBody : List Stmt := [.returns (some (.call (.ident "f") []))]

/-- The body `try { return f() } finally { return "x" }`. -/
def replacingBody : List Stmt :=
  [.tryBlock callingBody none (some [.returns (some (.literal (.string "x")))])]

/-- A function that only calls itself ends with the limit. -/
theorem exhausted_call_fails_sample :
    ∃ m', limitedProgram.call ⟨0⟩ [] (recursiveState callingBody 0) = .failed .recursionLimit m' := by
  have hfails : ∀ replaced, limitedProgram.callWith ⟨Exhaustion.failing, replaced⟩ ⟨0⟩ []
      (recursiveState callingBody 0) = .failed .recursionLimit (recursiveState callingBody 2) :=
    fun _ => rfl
  have hends : limitedProgram.callWith ⟨endingStep, Exhaustion.standard.replaced⟩ ⟨0⟩ []
      (recursiveState callingBody 0) = .unfinished := rfl
  have hexhausts : limitedProgram.Exhausts ⟨0⟩ [] (recursiveState callingBody 0) := by
    refine ⟨endingStep, ?_⟩
    rw [hends, Exhaustion.standard, hfails]
    exact nofun
  rcases exhausted_call_fails _ _ _ _ hexhausts with h | ⟨replaced, h⟩
  · exact h
  · rw [Exhaustion.standard, hfails, hfails] at h
    exact absurd rfl h

/-- The limit is reached in a function that calls itself, and then the clean-up returns something
else: the call has a result. -/
theorem cleanup_replaces_limit :
    limitedProgram.Exhausts ⟨0⟩ [] (recursiveState replacingBody 0) ∧
    limitedProgram.call ⟨0⟩ [] (recursiveState replacingBody 0) =
      .done (.string "x") (recursiveState replacingBody 2) := by
  have hcall : limitedProgram.call ⟨0⟩ [] (recursiveState replacingBody 0) =
      .done (.string "x") (recursiveState replacingBody 2) := rfl
  have hends : limitedProgram.callWith ⟨endingStep, Exhaustion.standard.replaced⟩ ⟨0⟩ []
      (recursiveState replacingBody 0) = .unfinished := rfl
  refine ⟨⟨endingStep, ?_⟩, hcall⟩
  rw [hends, callWith_standard, hcall]
  exact nofun

end PlayerScript
