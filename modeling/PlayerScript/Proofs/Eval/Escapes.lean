/-
Loop control does not escape well-formed code. Where a call reports that it did, the report comes from a
function whose own body is not well formed: from the called one, or from one that was called on the way.
-/
import PlayerScript.Proofs.Eval.Causes

namespace PlayerScript

open Ast Eval

/-! ## The calls behind reports -/

/-- A call of a function, within a budget and from one state to another, that is left with loop control
by the body of the function itself. -/
structure EscapingCall (p : Program) (rounds budget : Nat) (f : FunctionRef) (name : String)
    (m m' : Machine) : Prop where
  named : (m.store.closure f).definition.name = name
  illFormed : ¬ WellFormed (m.store.closure f).definition.body
  ends : ∃ args extra k, runBody (evaluators p rounds budget) f args extra m = .done k m' ∧
    k.isControl = true

/-- What is behind the error of a run within a budget: a plain cause, the budget, or a call on the way
that was left with loop control. -/
inductive EscapeCause (p : Program) (rounds budget : Nat) (m : Machine) : Error → Machine → Prop
  | plain {e : Error} {m' : Machine} (h : e.isPlain = true) : EscapeCause p rounds budget m e m'
  | limit {m' : Machine} : EscapeCause p rounds budget m .recursionLimit m'
  | call {b : Nat} {f : FunctionRef} {name : String} {m₁ m₂ m' : Machine} (less : b < budget)
      (before : m.Keeps m₁) (call : EscapingCall p rounds b f name m₁ m₂) (after : m₂.Keeps m') :
      EscapeCause p rounds budget m (.internal (.loopControlEscaped name)) m'

variable (p : Program) (rounds : Nat)

/-- The causes of the errors of runs within a budget. -/
def escapeCauses (budget : Nat) : Causes where
  Explains := EscapeCause p rounds budget
  plain h := .plain h
  widen := by
    intro m m₁ e m₂ m' hbefore h hafter
    cases h with
    | plain h => exact .plain h
    | limit => exact .limit
    | call less before call after => exact .call less (hbefore.trans before) call (after.trans hafter)

theorem covers_more {budget : Nat} {α : Type} {x : Eval α} (h : (escapeCauses p rounds budget).Covers x) :
    (escapeCauses p rounds (budget + 1)).Covers x := by
  intro m
  have hrun := h m
  generalize x m = o at hrun
  cases hrun with
  | done kept => exact .done kept
  | unfinished => exact .unfinished
  | failed kept cause =>
    refine .failed kept ?_
    cases cause with
    | plain h => exact .plain h
    | limit => exact .limit
    | call less before call after => exact .call (Nat.lt_succ_of_lt less) before call after

/-- A body that is left with loop control is not well formed. -/
theorem isControl_of_runBody {budget : Nat} {f : FunctionRef} {args : List Value}
    {extra : List (String × Value)} {m m' : Machine} {k : Completion}
    (hbody : WellFormed (m.store.closure f).definition.body)
    (hrun : runBody (evaluators p rounds budget) f args extra m = .done k m') : k.isControl = false :=
  ends_wellFormed p rounds budget _ hbody .undefined _ k m' hrun

theorem escapes_evaluators (budget : Nat) :
    (escapeCauses p rounds (budget + 1)).Escapes (evaluators p rounds budget) := by
  intro f args extra m k m' hrun hcontrol
  have hbody : ¬ WellFormed (m.store.closure f).definition.body := by
    intro hbody
    rw [isControl_of_runBody p rounds hbody hrun] at hcontrol
    exact Bool.false_ne_true hcontrol
  exact .call (Nat.lt_succ_self budget) (.refl m) ⟨rfl, hbody, args, extra, k, hrun, hcontrol⟩ (.refl m')

theorem parts_escapeCauses : ∀ budget, (escapeCauses p rounds budget).Parts (evaluators p rounds budget)
  | 0 => by
    refine ⟨fun scope e m => ?_, fun scope s m => ?_⟩
    · show (escapeCauses p rounds 0).Accounts m (evalExpr p rounds 0 scope e m)
      rw [evalExpr]
      exact .failed (.refl m) .limit
    · show (escapeCauses p rounds 0).Accounts m (execStmt p rounds 0 scope s m)
      rw [execStmt]
      exact .failed (.refl m) .limit
  | budget + 1 => by
    have ih := parts_escapeCauses budget
    have hparts : (escapeCauses p rounds (budget + 1)).Parts (evaluators p rounds budget) :=
      ⟨fun scope e => covers_more p rounds (ih.expr scope e), fun scope s => covers_more p rounds (ih.stmt scope s)⟩
    refine ⟨fun scope e => ?_, fun scope s => ?_⟩
    · show (escapeCauses p rounds (budget + 1)).Covers (evalExpr p rounds (budget + 1) scope e)
      rw [evalExpr_succ]
      exact Causes.covers_exprStep hparts (escapes_evaluators p rounds budget) p scope e
    · show (escapeCauses p rounds (budget + 1)).Covers (execStmt p rounds (budget + 1) scope s)
      rw [execStmt_succ]
      exact Causes.covers_stmtStep rounds fun a _ => hparts.part scope a

/-! ## Well-formed code -/

/-- A report from a well-formed function comes from another one, which it called with less budget. -/
theorem invoke_escaped {budget : Nat} {f : FunctionRef} {args : List Value} {extra : List (String × Value)}
    {name : String} {m m' : Machine} (hbody : WellFormed (m.store.closure f).definition.body)
    (h : invoke (evaluators p rounds budget) f args extra m =
      .failed (.internal (.loopControlEscaped name)) m') :
    ∃ b < budget, ∃ g ≠ f, ∃ m₁ m₂, m.Keeps m₁ ∧ EscapingCall p rounds b g name m₁ m₂ ∧ m₂.Keeps m' := by
  have hcovers := Causes.covers_runBody (parts_escapeCauses p rounds budget) f args extra m
  rw [invoke_eq_runBody] at h
  change andThen _ _ m = _ at h
  unfold andThen at h
  generalize hrun : runBody (evaluators p rounds budget) f args extra m = o at h hcovers
  cases hcovers with
  | unfinished => cases h
  | @done k m₁ kept =>
    have hcontrol := isControl_of_runBody p rounds hbody hrun
    cases k with
    | normal | returned => cases h
    | broken | continued => cases hcontrol
  | failed kept cause =>
    cases h
    cases cause with
    | plain hplain => cases hplain
    | @call b g _ m₁ m₂ _ less before call after =>
      refine ⟨b, less, g, ?_, m₁, m₂, before, call, after⟩
      rintro rfl
      cases hget : m.store.closures.get? g.index with
      | some closure =>
        have hsame : m₁.store.closure g = m.store.closure g := by
          rw [Store.closure, Store.closure, hget, before _ _ hget]
        exact call.illFormed (hsame ▸ hbody)
      | none =>
        -- A function that is not in the store has an empty body, which does not fail.
        have hempty : (m.store.closure g).definition.body = [] := by
          rw [Store.closure, hget]
          rfl
        have hblock : runBody (evaluators p rounds budget) g args extra m =
            block (evaluators p rounds budget) ((m.store.closure g).captured.child m.store (bindings
              (m.store.closure g).definition.params args extra Table.empty)).1
              (m.store.closure g).definition.body .undefined _ := rfl
        rw [hblock, hempty] at hrun
        cases hrun

theorem ofStep_of_ok {α : Type} {f : Machine → Except Error α × Machine} {a : α} {m : Machine}
    (h : (f m).1 = .ok a) : ofStep f m = .done a (f m).2 := by
  unfold ofStep
  split
  · rename_i hrun
    rw [hrun] at h ⊢
    cases h
    rfl
  · rename_i hrun
    rw [hrun] at h
    cases h

/-- No code that is run reports a stray `break`, and well-formed code gives no reason to. -/
theorem interpretStatement_ne_stray {code : List Char} {m : Machine} {stmts : List Stmt}
    (hparse : (p.parse code m).1 = .ok stmts) (hstmts : WellFormed stmts) (scope : Scope) (budget : Nat)
    (text : String) (m' : Machine) :
    p.interpretStatement code scope budget m ≠ .failed (.malformed .strayLoopControl text) m' := by
  intro h
  have hparts := parts_escapeCauses p Program.maxRounds budget
  have hcovers := Causes.covers_block (fun (s : Stmt) (_ : s ∈ stmts) => hparts.stmt scope s)
    .undefined (p.parse code m).2
  have hends := ends_wellFormed p Program.maxRounds budget scope hstmts .undefined (p.parse code m).2
  rw [Program.interpretStatement, bind_of_done (ofStep_of_ok hparse)] at h
  change andThen _ _ _ = _ at h
  unfold andThen at h
  generalize block (evaluators p Program.maxRounds budget) scope stmts .undefined (p.parse code m).2 = o
    at h hcovers hends
  cases hcovers with
  | unfinished => cases h
  | @done k m₁ kept =>
    cases k with
    | normal | returned => cases h
    | broken | continued => cases hends _ _ rfl
  | failed kept cause =>
    cases h
    cases cause with
    | plain hplain => cases hplain

/-- Loop control never escapes well-formed code: well-formed statements end normally, with a `return`, or
with an error. So a call of a function whose own body is well formed reports that loop control escaped
only where another function, called on the way within less budget, let it escape; and code that is well
formed is never said to have a stray `break`. -/
theorem loop_control_stays (p : Program) :
    (∀ rounds budget scope stmts last m, WellFormed stmts →
      ∀ c m', block (evaluators p rounds budget) scope stmts last m = .done c m' →
        ∃ v, c = .normal v ∨ c = .returned v) ∧
    (∀ rounds budget f args extra m name m', WellFormed (m.store.closure f).definition.body →
      invoke (evaluators p rounds budget) f args extra m =
        .failed (.internal (.loopControlEscaped name)) m' →
      ∃ b < budget, ∃ g ≠ f, ∃ m₁ m₂, m.Keeps m₁ ∧ EscapingCall p rounds b g name m₁ m₂ ∧ m₂.Keeps m') ∧
    ∀ code scope budget m stmts, (p.parse code m).1 = .ok stmts → WellFormed stmts →
      ∀ text m', p.interpretStatement code scope budget m ≠
        .failed (.malformed .strayLoopControl text) m' := by
  refine ⟨?_, ?_, ?_⟩
  · intro rounds budget scope stmts last m hstmts c m' hrun
    have hcontrol := ends_wellFormed p rounds budget scope hstmts last m c m' hrun
    cases c with
    | normal v => exact ⟨v, .inl rfl⟩
    | returned v => exact ⟨v, .inr rfl⟩
    | broken | continued => cases hcontrol
  · intro rounds budget f args extra m name m' hbody h
    exact invoke_escaped p rounds hbody h
  · intro code scope budget m stmts hparse hstmts text m'
    exact interpretStatement_ne_stray p hparse hstmts scope budget text m'

/-- The code `for (;;) { switch (true) { case true: continue; default: break } }`. -/
def endlessCode : List Char :=
  "for (;;) \x7b switch (true) \x7b case true: continue; default: break \x7d \x7d".toList

/-- The statements of that code. -/
def endlessStmts : List Stmt :=
  [.forLoop none none none (.block [.switch (.literal (.bool true))
    [.mk (some (.literal (.bool true))) [.continues], .mk none [.breaks]]])]

theorem parse_endlessCode :
    ((Program.mk [] .standard).parse endlessCode (.initial .initial Table.empty)).1 = .ok endlessStmts := by
  cbv

/-- A state with two functions, after some calls. The first one runs `g()` in a loop; the second one is
known by the name `g`, and its body is a `break`. -/
def escapingState (calls : Nat) : Machine where
  store := {
    layers := ⟨Array.replicate (calls + 1) Table.empty⟩
    arrays := Arena.empty
    objects := Arena.empty
    closures := ⟨#[⟨⟨"f", [], [.forLoop none none none (.expr (.call (.ident "g") []))]⟩, Program.globalScope⟩,
      ⟨⟨"g", [], [.breaks]⟩, Program.globalScope⟩]⟩ }
  functions := ⟨[("g", ⟨1⟩)]⟩
  objects := Table.empty
  minted := 0

theorem loop_control_stays_sample :
    (∃ c m', block (evaluators (.mk [] .standard) 1 2) Program.globalScope
      [.forLoop none none none .breaks, .returns none] .undefined (escapingState 0) = .done c m' ∧
      ∃ v, c = .normal v ∨ c = .returned v) ∧
    (∃ b < 4, ∃ g ≠ (⟨0⟩ : FunctionRef), ∃ m₁ m₂, (escapingState 0).Keeps m₁ ∧
      EscapingCall (.mk [] .standard) 1 b g "g" m₁ m₂ ∧ m₂.Keeps (escapingState 2)) ∧
    ∀ text m', (Program.mk [] .standard).interpretStatement endlessCode Program.globalScope 1000
      (.initial .initial Table.empty) ≠ .failed (.malformed .strayLoopControl text) m' := by
  obtain ⟨hblock, hcall, hcode⟩ := loop_control_stays (Program.mk [] .standard)
  have hrun : block (evaluators (.mk [] .standard) 1 2) Program.globalScope
      [.forLoop none none none .breaks, .returns none] .undefined (escapingState 0) =
        .done (.returned .undefined) (escapingState 0) := rfl
  refine ⟨⟨_, _, hrun, hblock _ _ _ _ _ _ (by decide) _ _ hrun⟩, ?_, ?_⟩
  · exact hcall 1 4 ⟨0⟩ [] [] (escapingState 0) "g" (escapingState 2) (by decide) rfl
  · exact hcode _ _ _ _ endlessStmts parse_endlessCode (by decide)

end PlayerScript
