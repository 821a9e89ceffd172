/-
Where `break` and `continue` may stand, and where they can lead. A loop takes up both, a switch takes
up the first; a list of statements in which each of them lies inside of what takes it up never ends
with one.
-/
import Mathlib
import PlayerScript.Proofs.Eval.Steps

namespace PlayerScript

namespace Ast

/-! ## Well-formed code -/

mutual

/-- Every `break` of a statement is taken up inside, or may leave it; so is every `continue`. The
bodies of functions are not looked at: they start afresh. -/
def controlled (breaks continues : Bool) : Stmt → Bool
  | .breaks => breaks
  | .continues => continues
  | .block body => bodyControlled breaks continues body
  | .ifElse _ body none => controlled breaks continues body
  | .ifElse _ body (some otherwise) =>
    controlled breaks continues body && controlled breaks continues otherwise
  | .forLoop none _ _ body => controlled true true body
  | .forLoop (some init) _ _ body => controlled breaks continues init && controlled true true body
  | .switch _ clauses => clausesControlled continues clauses
  | .tryBlock body _ none => bodyControlled breaks continues body
  | .tryBlock body _ (some cleanup) =>
    bodyControlled breaks continues body && bodyControlled breaks continues cleanup
  | .empty | .expr _ | .var _ | .returns _ | .throws _ => true

/-- Every `break` and every `continue` of a list of statements is taken up inside, or may leave it. -/
def bodyControlled (breaks continues : Bool) : List Stmt → Bool
  | [] => true
  | s :: rest => controlled breaks continues s && bodyControlled breaks continues rest

/-- Every `continue` of the clauses of a switch is taken up inside, or may leave it. -/
def clausesControlled (continues : Bool) : List Clause → Bool
  | [] => true
  | .mk _ body :: rest => bodyControlled true continues body && clausesControlled continues rest

end

/-- Every `break` lies inside the body of a loop or a clause of a switch, and every `continue` inside
the body of a loop. -/
def WellFormed (stmts : List Stmt) : Prop := bodyControlled false false stmts = true

instance (stmts : List Stmt) : Decidable (WellFormed stmts) :=
  inferInstanceAs (Decidable (bodyControlled false false stmts = true))

end Ast

namespace Eval

open Ast

variable {α β : Type}

/-- Whether a statement ends with a `break` or a `continue` that was not taken up. -/
def Completion.isControl : Completion → Bool
  | .broken | .continued => true
  | .normal _ | .returned _ => false

/-- A `break` and a `continue` are left over only where they may be. -/
def Completion.Within (breaks continues : Bool) : Completion → Prop
  | .broken => breaks = true
  | .continued => continues = true
  | .normal _ | .returned _ => True

theorem Completion.Within.not_isControl {c : Completion} (h : c.Within false false) : c.isControl = false := by
  cases c with
  | normal | returned => rfl
  | broken | continued => exact absurd h Bool.false_ne_true

theorem Completion.within_of_not_isControl {c : Completion} (h : c.isControl = false)
    (breaks continues : Bool) : c.Within breaks continues := by
  cases c with
  | normal | returned => trivial
  | broken | continued => exact absurd h nofun

/-- All results of a computation are of a kind. -/
def Ends (Q : α → Prop) (x : Eval α) : Prop := ∀ m a m', x m = .done a m' → Q a

theorem ends_done {Q : α → Prop} {a : α} (h : Q a) : Ends Q (done a) := by
  rintro m _ _ ⟨⟩
  exact h

theorem ends_fail (Q : α → Prop) (e : Error) : Ends Q (fail e) := by
  rintro m _ _ ⟨⟩

theorem ends_any (x : Eval α) : Ends (fun _ => True) x := fun _ _ _ _ => trivial

theorem ends_bind {P : α → Prop} {Q : β → Prop} {x : Eval α} {f : α → Eval β} (hx : Ends P x)
    (hf : ∀ a, P a → Ends Q (f a)) : Ends Q (x >>= f) := by
  intro m b m' hrun
  have hbind : (x >>= f) m = andThen x f m := rfl
  rw [hbind, andThen] at hrun
  split at hrun
  · rename_i a m₁ hdone
    exact hf a (hx m a m₁ hdone) m₁ b m' hrun
  · cases hrun
  · cases hrun

theorem ends_imp {P Q : α → Prop} (h : ∀ a, P a → Q a) {x : Eval α} (hx : Ends P x) : Ends Q x :=
  fun m a m' hrun => h a (hx m a m' hrun)

/-! ## Loops -/

/-- A loop takes up whatever its body ends with, other than a `return`. -/
theorem ends_round (parts : Evaluators) (scope : Scope) (cond update : Option Expr) (body : Stmt) :
    Ends (fun end? => ∀ c, end? = some c → c.isControl = false)
      (round parts scope cond update body) := by
  rw [round]
  refine ends_bind (ends_any _) fun test _ => ?_
  split
  · refine ends_bind (ends_any _) fun c _ => ?_
    cases c with
    | broken | returned =>
      refine ends_done ?_
      rintro _ ⟨⟩
      rfl
    | normal | continued => exact ends_bind (ends_any _) fun _ _ => ends_done nofun
  · refine ends_done ?_
    rintro _ ⟨⟩
    rfl

theorem ends_repeatRound {Q : Completion → Prop} {once : Eval (Option Completion)}
    (h : Ends (fun end? => ∀ c, end? = some c → Q c) once) : ∀ rounds, Ends Q (repeatRound once rounds)
  | 0 => nofun
  | rounds + 1 => by
    intro m c m' hrun
    rw [repeatRound] at hrun
    split at hrun
    · rename_i hdone
      cases hrun
      exact h m _ _ hdone c rfl
    · exact ends_repeatRound h rounds _ c m' hrun
    · cases hrun
    · cases hrun

theorem ends_forLoop (rounds : Nat) (parts : Evaluators) (scope : Scope) (init : Option Stmt)
    (cond update : Option Expr) (body : Stmt) :
    Ends (fun c => c.isControl = false) (forLoop rounds parts scope init cond update body) := by
  have hrepeat := ends_repeatRound (ends_round parts scope cond update body) rounds
  cases init with
  | none => exact hrepeat
  | some s => exact ends_bind (ends_any _) fun _ _ => hrepeat

/-! ## Switches -/

/-- The clauses that are found are some of the last ones. -/
theorem suffix_matchingClauses {parts : Evaluators} {scope : Scope} {value : Value} (clauses : List Clause) :
    Ends (fun entry => ∀ found ∈ entry, found <:+ clauses) (matchingClauses parts scope value clauses) := by
  induction clauses with
  | nil => exact ends_done nofun
  | cons clause rest ih =>
    have hrest : ∀ entry : Option (List Clause), (∀ found ∈ entry, found <:+ rest) →
        ∀ found ∈ entry, found <:+ clause :: rest :=
      fun entry h found hfound => (h found hfound).trans (List.suffix_cons clause rest)
    obtain ⟨label, body⟩ := clause
    cases label with
    | none =>
      rw [matchingClauses]
      exact ends_imp hrest ih
    | some label =>
      rw [matchingClauses]
      refine ends_bind (ends_any _) fun v _ => ?_
      split
      · refine ends_done ?_
        rintro _ ⟨⟩
        exact List.suffix_refl _
      · exact ends_imp hrest ih

theorem suffix_defaultClauses : ∀ clauses, defaultClauses clauses <:+ clauses
  | [] => List.suffix_refl _
  | .mk none _ :: _ => List.suffix_refl _
  | .mk (some _) _ :: rest => (suffix_defaultClauses rest).trans (List.suffix_cons _ rest)

/-- The clauses that a switch runs are the last ones of its clauses. -/
theorem suffix_entry {parts : Evaluators} {scope : Scope} {value : Value} (clauses : List Clause) :
    Ends (fun entry => entry.getD (defaultClauses clauses) <:+ clauses)
      (matchingClauses parts scope value clauses) := by
  intro m entry m' hrun
  cases entry with
  | none => exact suffix_defaultClauses clauses
  | some found => exact suffix_matchingClauses clauses m (some found) m' hrun found rfl

theorem clausesControlled_of_suffix {continues : Bool} {xs ys : List Clause} (h : xs <:+ ys)
    (hys : clausesControlled continues ys = true) : clausesControlled continues xs = true := by
  obtain ⟨before, rfl⟩ := h
  induction before with
  | nil => exact hys
  | cons clause rest ih =>
    obtain ⟨label, body⟩ := clause
    rw [List.cons_append, clausesControlled, Bool.and_eq_true] at hys
    exact ih hys.2

/-! ## Statements -/

/-- Statements leave over only what they may. -/
def Evaluators.Controlled (parts : Evaluators) : Prop :=
  ∀ (scope : Scope) {breaks continues : Bool} {s : Stmt}, controlled breaks continues s = true →
    Ends (Completion.Within breaks continues) (parts.stmt scope s)

section

variable {parts : Evaluators} (hparts : parts.Controlled) {scope : Scope} {breaks continues : Bool}
include hparts

theorem ends_block : ∀ {stmts : List Stmt} (last : Value), bodyControlled breaks continues stmts = true →
    Ends (Completion.Within breaks continues) (block parts scope stmts last)
  | [], last, _ => ends_done trivial
  | s :: rest, last, h => by
    rw [bodyControlled, Bool.and_eq_true] at h
    rw [block]
    refine ends_bind (hparts scope h.1) fun c hc => ?_
    cases c with
    | normal v => exact ends_block v h.2
    | _ => exact ends_done hc

/-- A `break` in a clause is taken up; a `continue` belongs to a loop around the switch. -/
theorem ends_runClauses : ∀ {clauses : List Clause}, clausesControlled continues clauses = true →
    Ends (Completion.Within breaks continues) (runClauses parts scope clauses)
  | [], _ => ends_done trivial
  | .mk _ body :: rest, h => by
    rw [clausesControlled, Bool.and_eq_true] at h
    rw [runClauses]
    refine ends_bind (ends_block hparts .undefined h.1) fun c hc => ?_
    cases c with
    | normal => exact ends_runClauses h.2
    | broken => exact ends_done trivial
    | continued | returned => exact ends_done hc

theorem ends_switch {selector : Expr} {clauses : List Clause}
    (h : clausesControlled continues clauses = true) :
    Ends (Completion.Within breaks continues) (switch parts scope selector clauses) := by
  rw [switch]
  refine ends_bind (ends_any _) fun value _ => ?_
  refine ends_bind (suffix_entry clauses) fun entry hentry => ?_
  exact ends_runClauses hparts (clausesControlled_of_suffix hentry h)

omit hparts in
/-- What a clean-up ends with takes the place of what was there before, unless it ends normally. -/
theorem ends_withCleanup {Q : Completion → Prop} {body clean : Eval Completion} (hbody : Ends Q body)
    (hclean : Ends Q clean) : Ends Q (withCleanup body clean) := by
  intro m c m' hrun
  unfold withCleanup at hrun
  split at hrun
  · cases hrun
  · rename_i hdone
    split at hrun
    · cases hrun
      exact hbody _ _ _ hdone
    · exact hclean _ _ _ hrun
  · split at hrun
    · cases hrun
    · exact hclean _ _ _ hrun

theorem ends_stmtStep {rounds : Nat} : ∀ {s : Stmt}, controlled breaks continues s = true →
    Ends (Completion.Within breaks continues) (stmtStep rounds parts scope s)
  | .breaks, h => ends_done h
  | .continues, h => ends_done h
  | .block body, h => ends_block hparts .undefined h
  | .ifElse cond body otherwise, h => by
    refine ends_bind (ends_any (parts.expr scope cond)) fun v _ => ?_
    cases otherwise with
    | none =>
      split
      · exact hparts scope h
      · exact ends_done trivial
    | some s =>
      rw [controlled, Bool.and_eq_true] at h
      split
      · exact hparts scope h.1
      · exact hparts scope h.2
  | .forLoop init cond update body, _ =>
    ends_imp (fun _ hc => Completion.within_of_not_isControl hc _ _)
      (ends_forLoop rounds parts scope init cond update body)
  | .switch selector clauses, h => ends_switch hparts h
  | .tryBlock body handler none, h => ends_block hparts .undefined h
  | .tryBlock body handler (some cleanup), h => by
    rw [controlled, Bool.and_eq_true] at h
    exact ends_withCleanup (ends_block hparts .undefined h.1) (ends_block hparts .undefined h.2)
  | .empty, _ => ends_done trivial
  | .expr _, _ => ends_bind (ends_any _) fun _ _ => ends_done trivial
  | .var _, _ => ends_bind (ends_any _) fun _ _ => ends_done trivial
  | .returns _, _ => ends_bind (ends_any _) fun _ _ => ends_done trivial
  | .throws _, _ => ends_bind (ends_any _) fun _ _ => ends_bind (ends_any _) fun _ _ => ends_fail _ _

end

variable (p : Program) (rounds : Nat)

theorem controlled_evaluators : ∀ budget, (evaluators p rounds budget).Controlled
  | 0 => by
    intro scope breaks continues s _
    show Ends _ (execStmt p rounds 0 scope s)
    rw [execStmt]
    exact ends_fail _ _
  | budget + 1 => by
    intro scope breaks continues s h
    show Ends _ (execStmt p rounds (budget + 1) scope s)
    rw [execStmt_succ]
    exact ends_stmtStep (controlled_evaluators budget) h

/-- A well-formed list of statements never ends with a `break` or a `continue`. -/
theorem ends_wellFormed (budget : Nat) (scope : Scope) {stmts : List Stmt} (h : WellFormed stmts)
    (last : Value) :
    Ends (fun c => c.isControl = false) (block (evaluators p rounds budget) scope stmts last) :=
  ends_imp (fun _ hc => hc.not_isControl) (ends_block (controlled_evaluators p rounds budget) last h)

end Eval
end PlayerScript
