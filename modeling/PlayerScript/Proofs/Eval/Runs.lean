/-
Whole runs keep a discipline: statements do, if their parts do, and so by induction on the budget do
the evaluators. If the first run may be cut off, it may have less of the budget than the second one.
-/
import PlayerScript.Interpreter
import PlayerScript.Proofs.Eval.Preservation

namespace PlayerScript

open Eval Ast

variable {rounds rounds' : Nat}

/-- Runs code in a scope, with at most the given number of rounds for each loop. -/
def Program.interpretWithin (p : Program) (rounds : Nat) (code : List Char) (scope : Scope)
    (budget : Nat) : Eval (Value × Bool) := do
  let stmts ← ofStep (p.parse code)
  match ← block (evaluators p rounds budget) scope stmts .undefined with
  | .normal v => done (v, false)
  | .returned v => done (v, true)
  | .broken | .continued => fail (.malformed .strayLoopControl (String.ofList code))

namespace Discipline

variable {p q : Program} {d : Discipline p q}

theorem completes_later {m m' : Machine} (h : d.Later m m') {c : Completion}
    (hc : d.Completes m c) : d.Completes m' c := by
  cases c with
  | normal v => exact d.val_later h hc
  | returned v => exact d.val_later h hc
  | _ => trivial

variable {E₁ E₂ : Evaluators} (hp : d.Parts E₁ E₂) {m₁ m₂ : Machine} {scope : Scope}
include hp

theorem matches_declare : ∀ {decls : List (String × Option Expr)} {m₁ m₂ : Machine},
    d.Linked m₁ m₂ → d.InScope m₁ scope → declsAll d.allowed decls →
    d.Matches m₁ (fun _ _ => True) (declare E₁ scope decls m₁) (declare E₂ scope decls m₂)
  | [], _, _, hl, _, _ => d.matches_done hl trivial
  | (name, some init) :: rest, _, _, hl, hs, he => by
    rw [declare, declare]
    refine d.matches_bind (hp.expr hl hs he.1) fun v n₁ n₂ hl₁ h₁ hv => ?_
    have hs₁ := d.inScope_later h₁ hs
    refine d.matches_bind (d.matches_change (d.keeps_setLocal hl₁ hs₁ hv name))
      fun _ k₁ k₂ hl₂ h₂ _ => ?_
    exact matches_declare hl₂ (d.inScope_later h₂ hs₁) he.2
  | (name, none) :: rest, m₁, m₂, hl, hs, he => by
    rw [declare, declare]
    -- Without a value, a variable that is there already is left as it is.
    have hkeeps : d.Keeps m₁ m₂
        (if (scope.getLocal? m₁.store name).isSome then m₁.store
          else scope.setLocal m₁.store name .undefined)
        (if (scope.getLocal? m₂.store name).isSome then m₂.store
          else scope.setLocal m₂.store name .undefined) := by
      rw [← d.getLocal?_eq hl hs name]
      split
      · exact d.keeps_refl hl
      · exact d.keeps_setLocal hl hs (d.val_plain rfl) name
    refine d.matches_bind (d.matches_change hkeeps) fun _ n₁ n₂ hl₁ h₁ _ => ?_
    exact matches_declare hl₁ (d.inScope_later h₁ hs) he.2

theorem matches_evalOptional {e : Option Expr} (hl : d.Linked m₁ m₂) (hs : d.InScope m₁ scope)
    (he : optionAll d.allowed e) :
    d.Matches m₁ (fun m v => ∀ w, v = some w → d.Val m w) (evalOptional E₁ scope e m₁)
      (evalOptional E₂ scope e m₂) := by
  cases e with
  | none => exact d.matches_done hl (by simp)
  | some e =>
    refine d.matches_bind (hp.expr hl hs he) fun v n₁ n₂ hl₁ _ hv => ?_
    exact d.matches_done hl₁ (by rintro _ ⟨⟩; exact hv)

/-! ## Loops -/

theorem matches_round {cond update : Option Expr} {body : Stmt} (hl : d.Linked m₁ m₂)
    (hs : d.InScope m₁ scope) (hc : optionAll d.allowed cond) (hu : optionAll d.allowed update)
    (hb : stmtAll d.allowed body) :
    d.Matches m₁ (fun m c => ∀ x, c = some x → d.Completes m x)
      (Eval.round E₁ scope cond update body m₁) (Eval.round E₂ scope cond update body m₂) := by
  have hnormal : ∀ {m : Machine} x, some (Completion.normal .undefined) = some x →
      d.Completes m x := by
    rintro m _ ⟨⟩
    exact d.val_plain rfl
  unfold Eval.round
  refine d.matches_bind (matches_evalOptional hp hl hs hc) fun test n₁ n₂ hl₁ h₁ _ => ?_
  refine d.matches_ite (fun _ => ?_) fun _ => d.matches_done hl₁ hnormal
  have hs₁ := d.inScope_later h₁ hs
  refine d.matches_bind (hp.stmt hl₁ hs₁ hb) fun c k₁ k₂ hl₂ h₂ hc => ?_
  cases c with
  | broken => exact d.matches_done hl₂ hnormal
  | returned v => exact d.matches_done hl₂ (by rintro _ ⟨⟩; exact hc)
  | _ =>
    refine d.matches_bind (matches_evalOptional hp hl₂ (d.inScope_later h₂ hs₁) hu)
      fun _ j₁ j₂ hl₃ _ _ => ?_
    exact d.matches_done hl₃ (by simp)

omit hp in
theorem matches_repeatRound {once₁ once₂ : Eval (Option Completion)} {m₀ : Machine} (hloops : d.loops)
    (h : ∀ {m₁ m₂}, d.Linked m₁ m₂ → d.Later m₀ m₁ →
      d.Matches m₁ (fun m c => ∀ x, c = some x → d.Completes m x) (once₁ m₁) (once₂ m₂)) :
    ∀ {rounds : Nat} {m₁ m₂ : Machine}, d.Linked m₁ m₂ → d.Later m₀ m₁ →
      d.Matches m₁ d.Completes (repeatRound once₁ rounds m₁) (repeatRound once₂ rounds m₂)
  | 0, _, _, _, _ => .unfinished hloops
  | rounds + 1, m₁, m₂, hl, hlater => by
    -- Each round starts in a state later than the first one, so that `h` applies to it.
    have honce := h hl hlater
    rw [repeatRound, repeatRound]
    generalize once₁ m₁ = o₁ at honce
    generalize once₂ m₂ = o₂ at honce
    cases honce with
    | @done c n₁ n₂ linked later result =>
      cases c with
      | some c => exact .done linked later (result c rfl)
      | none =>
        exact d.matches_later later
          (matches_repeatRound hloops h linked (d.later_trans hlater later))
    | failed errors linked later => exact .failed errors linked later
    | unfinished hloops => exact .unfinished hloops
    | cut hcut => exact .cut hcut

theorem matches_forLoop {init : Option Stmt} {cond update : Option Expr} {body : Stmt}
    (hrounds : d.loops → rounds = rounds') (hl : d.Linked m₁ m₂) (hs : d.InScope m₁ scope)
    (h : stmtAll d.allowed (.forLoop init cond update body)) :
    d.Matches m₁ d.Completes (forLoop rounds E₁ scope init cond update body m₁)
      (forLoop rounds' E₂ scope init cond update body m₂) := by
  cases init with
  | none =>
    obtain ⟨hallowed, hc, hu, hb⟩ := h
    have hloops := d.loop hallowed
    obtain rfl := hrounds hloops
    exact matches_repeatRound hloops (fun hl' h' =>
      matches_round hp hl' (d.inScope_later h' hs) hc hu hb) hl (d.later_refl m₁)
  | some s =>
    obtain ⟨hallowed, hc, hu, hb, hi⟩ := h
    have hloops := d.loop hallowed
    obtain rfl := hrounds hloops
    refine d.matches_bind (hp.stmt hl hs hi) fun _ n₁ n₂ hl₁ h₁ _ => ?_
    exact matches_repeatRound hloops (fun hl' h' =>
      matches_round hp hl' (d.inScope_later h' (d.inScope_later h₁ hs)) hc hu hb) hl₁
      (d.later_refl n₁)

/-! ## Switches -/

theorem matches_matchingClauses {value : Value} : ∀ {clauses : List Clause} {m₁ m₂ : Machine},
    d.Linked m₁ m₂ → d.InScope m₁ scope → clausesAll d.allowed clauses →
    d.Matches m₁ (fun _ entry => ∀ cs, entry = some cs → clausesAll d.allowed cs)
      (matchingClauses E₁ scope value clauses m₁) (matchingClauses E₂ scope value clauses m₂)
  | [], _, _, hl, _, _ => d.matches_done hl (by simp)
  | .mk none body :: rest, _, _, hl, hs, he => by
    rw [matchingClauses, matchingClauses]
    exact matches_matchingClauses hl hs he.2.2
  | .mk (some label) body :: rest, _, _, hl, hs, he => by
    rw [matchingClauses, matchingClauses]
    refine d.matches_bind (hp.expr hl hs he.1) fun v n₁ n₂ hl₁ h₁ _ => ?_
    refine d.matches_ite (fun _ => d.matches_done hl₁ ?_) fun _ =>
      matches_matchingClauses hl₁ (d.inScope_later h₁ hs) he.2.2
    rintro _ ⟨⟩
    exact he

omit hp in
theorem clausesAll_defaultClauses {P : Condition} : ∀ {clauses : List Clause},
    clausesAll P clauses → clausesAll P (defaultClauses clauses)
  | [], h => h
  | .mk none _ :: _, h => h
  | .mk (some _) _ :: _, h => by
    rw [defaultClauses]
    exact clausesAll_defaultClauses h.2.2

theorem matches_runClauses : ∀ {clauses : List Clause} {m₁ m₂ : Machine},
    d.Linked m₁ m₂ → d.InScope m₁ scope → clausesAll d.allowed clauses →
    d.Matches m₁ d.Completes (runClauses E₁ scope clauses m₁) (runClauses E₂ scope clauses m₂)
  | [], _, _, hl, _, _ => d.matches_done hl (d.val_plain rfl)
  | .mk _ body :: rest, _, _, hl, hs, he => by
    rw [runClauses, runClauses]
    refine d.matches_bind (matches_block hp hl hs he.2.1 (d.val_plain rfl))
      fun c n₁ n₂ hl₁ h₁ hc => ?_
    cases c with
    | normal v => exact matches_runClauses hl₁ (d.inScope_later h₁ hs) he.2.2
    | broken => exact d.matches_done hl₁ (d.val_plain rfl)
    | _ => exact d.matches_done hl₁ hc

theorem matches_switch {selector : Expr} {clauses : List Clause} (hl : d.Linked m₁ m₂)
    (hs : d.InScope m₁ scope) (he : exprAll d.allowed selector)
    (hc : clausesAll d.allowed clauses) :
    d.Matches m₁ d.Completes (switch E₁ scope selector clauses m₁)
      (switch E₂ scope selector clauses m₂) := by
  unfold switch
  refine d.matches_bind (hp.expr hl hs he) fun value n₁ n₂ hl₁ h₁ _ => ?_
  have hs₁ := d.inScope_later h₁ hs
  refine d.matches_bind (matches_matchingClauses hp hl₁ hs₁ hc)
    fun entry k₁ k₂ hl₂ h₂ hentry => ?_
  refine matches_runClauses hp hl₂ (d.inScope_later h₂ hs₁) ?_
  -- Without a matching clause, the default one is entered.
  cases entry with
  | none => exact clausesAll_defaultClauses hc
  | some cs => exact hentry cs rfl

/-! ## Guarded blocks -/

/-- What is left after a clean-up: one that ends normally gives way to what was kept, any other one
replaces it. -/
def cleaned (keep : Machine → Outcome Completion) : Outcome Completion → Outcome Completion
  | .done (.normal _) m => keep m
  | other => other

omit hp in
theorem matches_cleaned {n₁ : Machine} (keep₁ keep₂ : Machine → Outcome Completion)
    {o₁ o₂ : Outcome Completion} (hlater : d.Later m₁ n₁) (h : d.Matches n₁ d.Completes o₁ o₂)
    (hkeep : ∀ {k₁ k₂}, d.Linked k₁ k₂ → d.Later n₁ k₁ →
      d.Matches m₁ d.Completes (keep₁ k₁) (keep₂ k₂)) :
    d.Matches m₁ d.Completes (cleaned keep₁ o₁) (cleaned keep₂ o₂) := by
  cases h with
  | @done c k₁ k₂ linked later result =>
    cases c with
    | normal v => exact hkeep linked later
    | _ => exact .done linked (d.later_trans hlater later) result
  | failed errors linked later => exact .failed errors linked (d.later_trans hlater later)
  | unfinished hloops => exact .unfinished hloops
  | cut hcut => exact .cut hcut

omit hp in
/-- A run that is not cut off matches the other one also through a clean-up. -/
theorem matches_withCleanup {body₁ body₂ clean₁ clean₂ : Eval Completion} (hcut : ¬ d.cut)
    (hbody : d.Matches m₁ d.Completes (body₁ m₁) (body₂ m₂))
    (hclean : ∀ {n₁ n₂}, d.Linked n₁ n₂ → d.Later m₁ n₁ →
      d.Matches n₁ d.Completes (clean₁ n₁) (clean₂ n₂)) :
    d.Matches m₁ d.Completes (withCleanup body₁ clean₁ m₁) (withCleanup body₂ clean₂ m₂) := by
  unfold withCleanup
  generalize body₁ m₁ = o₁ at hbody
  generalize body₂ m₂ = o₂ at hbody
  cases hbody with
  | unfinished hloops => exact .unfinished hloops
  -- A run that is cut off would still clean up, in a state that the other run does not get into.
  | cut h => exact absurd h hcut
  | @done c n₁ n₂ linked later result =>
    exact matches_cleaned (fun m => .done c m) (fun m => .done c m) later (hclean linked later)
      fun hl' h' => .done hl' (d.later_trans later h') (completes_later h' result)
  | @failed e₁ e₂ n₁ n₂ errors linked later =>
    exact matches_cleaned (fun m => .failed e₁ m) (fun m => .failed e₂ m) later (hclean linked later)
      fun hl' h' => .failed errors hl' (d.later_trans later h')

/-! ## Statements -/

/-- A statement matches if its parts do, guarded blocks with a clean-up apart. -/
theorem matches_stmtStep_unguarded {s : Stmt}
    (hrounds : d.loops → rounds = rounds') (hl : d.Linked m₁ m₂) (hs : d.InScope m₁ scope)
    (h : stmtAll d.allowed s)
    (hguarded : ∀ {body handler clean}, s = .tryBlock body handler (some clean) →
      d.Matches m₁ d.Completes (stmtStep rounds E₁ scope s m₁) (stmtStep rounds' E₂ scope s m₂)) :
    d.Matches m₁ d.Completes (stmtStep rounds E₁ scope s m₁) (stmtStep rounds' E₂ scope s m₂) := by
  cases s with
  | empty => exact d.matches_done hl (d.val_plain rfl)
  | expr e =>
    refine d.matches_bind (hp.expr hl hs h.2) fun v n₁ n₂ hl₁ _ hv => ?_
    exact d.matches_done hl₁ hv
  | var decls =>
    refine d.matches_bind (matches_declare hp hl hs h.2) fun _ n₁ n₂ hl₁ _ _ => ?_
    exact d.matches_done hl₁ (d.val_plain rfl)
  | returns e =>
    refine d.matches_bind (matches_evalOptional hp hl hs h.2) fun v n₁ n₂ hl₁ _ hv => ?_
    refine d.matches_done hl₁ ?_
    cases v with
    | none => exact d.val_plain rfl
    | some v => exact hv v rfl
  | throws e =>
    refine d.matches_bind (hp.expr hl hs h.2) fun v n₁ n₂ hl₁ _ hv => ?_
    exact d.matches_read_bind (d.text_eq hl₁ hv) (d.matches_fail hl₁ _)
  | block body => exact matches_block hp hl hs h.2 (d.val_plain rfl)
  | ifElse cond body otherwise =>
    cases otherwise with
    | none =>
      obtain ⟨-, hc, hb⟩ := h
      refine d.matches_bind (hp.expr hl hs hc) fun v n₁ n₂ hl₁ h₁ _ => ?_
      exact d.matches_ite (fun _ => hp.stmt hl₁ (d.inScope_later h₁ hs) hb) fun _ =>
        d.matches_done hl₁ (d.val_plain rfl)
    | some otherwise =>
      obtain ⟨-, hc, hb, ho⟩ := h
      refine d.matches_bind (hp.expr hl hs hc) fun v n₁ n₂ hl₁ h₁ _ => ?_
      have hs₁ := d.inScope_later h₁ hs
      exact d.matches_ite (fun _ => hp.stmt hl₁ hs₁ hb) fun _ => hp.stmt hl₁ hs₁ ho
  | forLoop init cond update body => exact matches_forLoop hp hrounds hl hs h
  | switch selector clauses => exact matches_switch hp hl hs h.2.1 h.2.2
  | tryBlock body handler clean =>
    cases clean with
    | none => exact matches_block hp hl hs h.2 (d.val_plain rfl)
    | some clean => exact hguarded rfl
  | breaks => exact d.matches_done hl trivial
  | continues => exact d.matches_done hl trivial

theorem matches_stmtStep {s : Stmt} (huncleaned : d.Uncleaned)
    (hrounds : d.loops → rounds = rounds') (hl : d.Linked m₁ m₂) (hs : d.InScope m₁ scope)
    (h : stmtAll d.allowed s) :
    d.Matches m₁ d.Completes (stmtStep rounds E₁ scope s m₁) (stmtStep rounds' E₂ scope s m₂) := by
  refine matches_stmtStep_unguarded hp hrounds hl hs h fun {body handler clean} heq => ?_
  subst heq
  obtain ⟨hallowed, hbody, hclean⟩ := h
  refine matches_withCleanup (fun hcut => huncleaned _ _ _ hcut hallowed)
    (matches_block hp hl hs hbody (d.val_plain rfl)) fun hl' h' => ?_
  exact matches_block hp hl' (d.inScope_later h' hs) hclean (d.val_plain rfl)

/-! ## Budgets -/

omit hp in
/-- The evaluators keep a discipline. Only a discipline that allows cuts lets the second budget
be larger than the first one, and only one without loops lets the numbers of rounds differ. -/
theorem parts_evaluators_rounds (d : Discipline p q) (huncleaned : d.Uncleaned)
    (hrounds : d.loops → rounds = rounds') : ∀ {budget budget' : Nat},
    budget ≤ budget' → (¬ d.cut → budget = budget') →
    d.Parts (evaluators p rounds budget) (evaluators q rounds' budget')
  | 0, 0, _, _ =>
    ⟨fun hl _ _ => d.matches_fail hl .recursionLimit, fun hl _ _ => d.matches_fail hl .recursionLimit⟩
  | 0, budget' + 1, _, hcut => by
    -- Only the first run is cut off here.
    have h : d.cut := Classical.byContradiction fun h => absurd (hcut h) (by omega)
    exact ⟨fun _ _ _ => .cut h, fun _ _ _ => .cut h⟩
  | budget + 1, 0, hle, _ => absurd hle (by omega)
  | budget + 1, budget' + 1, hle, hcut => by
    -- One step of each run, with parts that have a budget smaller by one.
    have hparts := parts_evaluators_rounds d huncleaned hrounds (Nat.le_of_succ_le_succ hle)
      fun h => Nat.succ.inj (hcut h)
    refine ⟨?_, ?_⟩
    · intro m₁ m₂ scope e hl hs he
      exact matches_exprStep hparts hl hs he
    · intro m₁ m₂ scope s hl hs he
      exact matches_stmtStep hparts huncleaned hrounds hl hs he

omit hp in
theorem parts_evaluators (d : Discipline p q) (huncleaned : d.Uncleaned) (rounds : Nat)
    {budget budget' : Nat} (hle : budget ≤ budget') (hcut : ¬ d.cut → budget = budget') :
    d.Parts (evaluators p rounds budget) (evaluators q rounds budget') :=
  parts_evaluators_rounds d huncleaned (fun _ => rfl) hle hcut

/-! ## Operations of the interpreter -/

section

omit hp

variable {f : FunctionRef} {args : List Value} {code : List Char} {budget budget' : Nat}
  (huncleaned : d.Uncleaned)
include huncleaned

theorem matches_call (hlimit : p.options.recursionLimit = q.options.recursionLimit)
    (hl : d.Linked m₁ m₂) (hf : d.Val m₁ (.function f)) (ha : ∀ v ∈ args, d.Val m₁ v) :
    d.Matches m₁ d.Val (p.call f args m₁) (q.call f args m₂) :=
  matches_invoke (d.parts_evaluators huncleaned Program.maxRounds (Nat.le_of_eq hlimit) fun _ => hlimit) hl hf
    ha (List.forall_mem_nil _)

theorem matches_callFunction (hlimit : p.options.recursionLimit = q.options.recursionLimit)
    (hl : d.Linked m₁ m₂) (ha : ∀ v ∈ args, d.Val m₁ v) {name : String} (hn : d.allowed.name name) :
    d.Matches m₁ d.Val (p.callFunction name args m₁) (q.callFunction name args m₂) := by
  unfold Program.callFunction
  refine d.matches_bind (d.matches_ofStep (d.extractFunction hl name hn)) fun f n₁ n₂ hl₁ h₁ hf => ?_
  exact matches_call huncleaned hlimit hl₁ hf fun v hv => d.val_later h₁ (ha v hv)

omit huncleaned in
theorem matches_extractObject (hl : d.Linked m₁ m₂) {name : String} (hn : d.allowed.name name) :
    d.Matches m₁ d.Target (p.extractObject name m₁) (q.extractObject name m₂) := by
  unfold Program.extractObject
  refine d.matches_bind (d.matches_ofStep (d.resolveObject hl name hn)) fun v n₁ n₂ hl₁ _ hv => ?_
  cases v with
  | object o => exact d.matches_done hl₁ hv
  | _ => exact d.matches_fail hl₁ _

theorem matches_interpretWithin (hrounds : d.loops → rounds = rounds')
    (hle : budget ≤ budget') (hcut : ¬ d.cut → budget = budget') (hs : d.InScope m₁ scope)
    (hparse : d.Steps m₁ (fun _ stmts => bodyAll d.allowed stmts) (p.parse code m₁)
      (q.parse code m₂)) :
    d.Matches m₁ (fun m r => d.Val m r.1) (p.interpretWithin rounds code scope budget m₁)
      (q.interpretWithin rounds' code scope budget' m₂) := by
  have hparts := d.parts_evaluators_rounds huncleaned hrounds hle hcut
  unfold Program.interpretWithin
  refine d.matches_bind (d.matches_ofStep hparse) fun stmts n₁ n₂ hl₁ h₁ hstmts => ?_
  refine d.matches_bind (matches_block hparts hl₁ (d.inScope_later h₁ hs) hstmts (d.val_plain rfl))
    fun c k₁ k₂ hl₂ _ hc => ?_
  cases c with
  | normal v => exact d.matches_done hl₂ hc
  | returned v => exact d.matches_done hl₂ hc
  | _ => exact d.matches_fail hl₂ _

theorem matches_interpretStatement (hle : budget ≤ budget') (hcut : ¬ d.cut → budget = budget')
    (hs : d.InScope m₁ scope)
    (hparse : d.Steps m₁ (fun _ stmts => bodyAll d.allowed stmts) (p.parse code m₁)
      (q.parse code m₂)) :
    d.Matches m₁ (fun m r => d.Val m r.1) (p.interpretStatement code scope budget m₁)
      (q.interpretStatement code scope budget' m₂) :=
  matches_interpretWithin huncleaned (fun _ => rfl) hle hcut hs hparse

theorem matches_interpretExpression (hs : d.InScope m₁ scope)
    (hparse : d.Steps m₁ (fun _ stmts => bodyAll d.allowed stmts) (p.parse code m₁)
      (q.parse code m₂)) :
    d.Matches m₁ d.Val (p.interpretExpression code scope budget m₁)
      (q.interpretExpression code scope budget m₂) := by
  unfold Program.interpretExpression
  refine d.matches_bind (matches_interpretStatement huncleaned (Nat.le_refl _) (fun _ => rfl) hs hparse)
    fun r n₁ n₂ hl₁ _ hr => ?_
  exact d.matches_ite (fun _ => d.matches_fail hl₁ _) fun _ => d.matches_done hl₁ hr

end

end Discipline
end PlayerScript
