/-
The switch as a jump. The labels are evaluated in the order of the source, up to the first one that is
loosely equal to the value of the selector. The statements of all clauses from there on, or else from the
first default clause on, then run as if they were one list. Only how the list ends is read differently:
a `break` ends the switch and nothing around it.
-/
import PlayerScript.Proofs.Eval.Steps

namespace PlayerScript

/-! ## Clauses -/

namespace Clause

/-- The label of a clause; the default clause has none. -/
def label? : Clause → Option Expr
  | .mk label _ => label

/-- The statements of a clause. -/
def body : Clause → List Stmt
  | .mk _ body => body

/-- The labels of clauses, in the order of the source. -/
def labels (clauses : List Clause) : List Expr := clauses.filterMap label?

/-- The statements of clauses as one list. -/
def statements (clauses : List Clause) : List Stmt := clauses.flatMap body

end Clause

/-- What is done with a result, in the state that it was left in. -/
def Outcome.map {α β : Type} (f : α → β) : Outcome α → Outcome β
  | .done a m => .done (f a) m
  | .failed e m => .failed e m
  | .unfinished => .unfinished

namespace Eval

/-- How a switch ends when its statements end in some way. -/
def Completion.leaveSwitch : Completion → Completion
  | .normal _ | .broken => .normal .undefined
  | .continued => .continued
  | .returned v => .returned v

variable {parts : Evaluators} {scope : Scope}

/-! ## The statements of several clauses -/

/-- What follows a list of statements runs after it if it ends normally. -/
theorem block_append (xs ys : List Stmt) (last : Value) (m : Machine) :
    block parts scope (xs ++ ys) last m =
      (block parts scope xs last >>= fun
        | .normal v => block parts scope ys v
        | other => done other) m := by
  induction xs generalizing last m with
  | nil => rfl
  | cons s rest ih =>
    show andThen (parts.stmt scope s) _ m = andThen (andThen (parts.stmt scope s) _) _ m
    unfold andThen
    cases parts.stmt scope s m with
    | done c m' =>
      cases c with
      | normal v => exact ih v m'
      | broken | continued | returned => rfl
    | failed | unfinished => rfl

/-- The value before a list of statements shows only if the list is empty, and not after a switch. -/
theorem leaveSwitch_block (xs : List Stmt) (v w : Value) (m : Machine) :
    (block parts scope xs v m).map Completion.leaveSwitch =
      (block parts scope xs w m).map Completion.leaveSwitch := by
  cases xs with
  | nil => rfl
  | cons s rest => rfl

theorem runClauses_eq_block (clauses : List Clause) (m : Machine) :
    runClauses parts scope clauses m =
      (block parts scope (Clause.statements clauses) .undefined m).map Completion.leaveSwitch := by
  induction clauses generalizing m with
  | nil => rfl
  | cons clause rest ih =>
    obtain ⟨label, body⟩ := clause
    have hsplit : Clause.statements (.mk label body :: rest) = body ++ Clause.statements rest := rfl
    rw [hsplit, block_append]
    show andThen (block parts scope body .undefined) _ m =
      (andThen (block parts scope body .undefined) _ m).map _
    unfold andThen
    cases block parts scope body .undefined m with
    | done c m' =>
      cases c with
      | normal v =>
        -- The next clause begins with no value, where the list goes on with the last one.
        exact (ih m').trans (leaveSwitch_block _ _ _ m')
      | broken | continued | returned => rfl
    | failed | unfinished => rfl

/-! ## Labels -/

/-- The labels that are tried evaluate: every label gives a value in the state that the labels before it
leave, if none of those is equal to the value. -/
def LabelsEvaluate (parts : Evaluators) (scope : Scope) (value : Value) (clauses : List Clause)
    (m : Machine) : Prop :=
  ∀ before label after vs m', Clause.labels clauses = before ++ label :: after →
    evalAll parts scope before m = .done vs m' → (∀ w ∈ vs, w.looseEquals value = false) →
    ∃ v m'', parts.expr scope label m' = .done v m''

/-- What trying the labels one after another finds, and the state that it leaves: the clauses from the
first one on whose label is equal to the value, when the labels up to that one are evaluated, or nothing,
when all of them are. -/
inductive Finds (parts : Evaluators) (scope : Scope) (value : Value) (clauses : List Clause) (m : Machine) :
    Option (List Clause) → Machine → Prop
  | label {before after : List Clause} {label : Expr} {body : List Stmt} {vs : List Value} {v : Value}
      {m' m'' : Machine} (split : clauses = before ++ .mk (some label) body :: after)
      (tried : evalAll parts scope (Clause.labels before) m = .done vs m')
      (different : ∀ w ∈ vs, w.looseEquals value = false)
      (last : parts.expr scope label m' = .done v m'') (equal : v.looseEquals value = true) :
      Finds parts scope value clauses m (some (.mk (some label) body :: after)) m''
  | nothing {vs : List Value} {m' : Machine}
      (tried : evalAll parts scope (Clause.labels clauses) m = .done vs m')
      (different : ∀ w ∈ vs, w.looseEquals value = false) : Finds parts scope value clauses m none m'

section

variable {value v : Value} {label : Expr} {body : List Stmt} {rest : List Clause} {m m' m'' : Machine}

/-- A label that is not equal to the value is passed over, in the state that it leaves. -/
theorem LabelsEvaluate.tail (h : LabelsEvaluate parts scope value (.mk (some label) body :: rest) m)
    (hlabel : parts.expr scope label m = .done v m') (hne : v.looseEquals value = false) :
    LabelsEvaluate parts scope value rest m' := by
  intro before next after vs n hsplit htried hdifferent
  refine h (label :: before) next after (v :: vs) n ?_ (evalAll_cons hlabel htried) ?_
  · show label :: Clause.labels rest = _
    rw [hsplit, List.cons_append]
  · exact List.forall_mem_cons.2 ⟨hne, hdifferent⟩

theorem Finds.after_default {found : Option (List Clause)} (h : Finds parts scope value rest m found m') :
    Finds parts scope value (.mk none body :: rest) m found m' := by
  cases h with
  | label split tried different last equal =>
    have hsplit := congrArg (List.cons (.mk none body)) split
    exact .label (hsplit.trans (List.cons_append ..).symm) tried different last equal
  | nothing tried different => exact .nothing tried different

theorem Finds.after_label {found : Option (List Clause)} (h : Finds parts scope value rest m' found m'')
    (hlabel : parts.expr scope label m = .done v m') (hne : v.looseEquals value = false) :
    Finds parts scope value (.mk (some label) body :: rest) m found m'' := by
  cases h with
  | label split tried different last equal =>
    have hsplit := congrArg (List.cons (.mk (some label) body)) split
    exact .label (hsplit.trans (List.cons_append ..).symm) (evalAll_cons hlabel tried)
      (List.forall_mem_cons.2 ⟨hne, different⟩) last equal
  | nothing tried different =>
    exact .nothing (evalAll_cons hlabel tried) (List.forall_mem_cons.2 ⟨hne, different⟩)

end

/-- The search for a label goes through the labels one after another and stops at the first one that is
equal to the value. -/
theorem matchingClauses_finds {value : Value} {clauses : List Clause} {m : Machine}
    (h : LabelsEvaluate parts scope value clauses m) :
    ∃ found m', matchingClauses parts scope value clauses m = .done found m' ∧
      Finds parts scope value clauses m found m' := by
  induction clauses generalizing m with
  | nil =>
    have htried : evalAll parts scope (Clause.labels []) m = .done [] m := rfl
    exact ⟨none, m, rfl, .nothing htried (by simp)⟩
  | cons clause rest ih =>
    obtain ⟨label, body⟩ := clause
    cases label with
    | none =>
      obtain ⟨found, m', hrun, hfinds⟩ := ih h
      refine ⟨found, m', ?_, hfinds.after_default⟩
      rw [matchingClauses]
      exact hrun
    | some label =>
      obtain ⟨v, m', hlabel⟩ := h [] label (Clause.labels rest) [] m rfl rfl (by simp)
      rw [matchingClauses, bind_of_done hlabel]
      by_cases heq : v.looseEquals value = true
      · rw [if_pos heq]
        have htried : evalAll parts scope (Clause.labels []) m = .done [] m := rfl
        exact ⟨_, m', rfl, .label rfl htried (by simp) hlabel heq⟩
      · rw [if_neg heq]
        have hne : v.looseEquals value = false := by simpa using heq
        obtain ⟨found, m'', hrun, hfinds⟩ := ih (h.tail hlabel hne)
        exact ⟨found, m'', hrun, hfinds.after_label hlabel hne⟩

/-! ## Where a switch begins -/

/-- The clauses that a switch begins with: those that were found, or else those from the first default
clause on, wherever it stands, or none. -/
inductive Begins (clauses : List Clause) : Option (List Clause) → List Clause → Prop
  | found (start : List Clause) : Begins clauses (some start) start
  | default {before after : List Clause} {body : List Stmt} (split : clauses = before ++ .mk none body :: after)
      (labelled : ∀ c ∈ before, c.label? ≠ none) : Begins clauses none (.mk none body :: after)
  | nowhere (labelled : ∀ c ∈ clauses, c.label? ≠ none) : Begins clauses none []

theorem begins_default (clauses : List Clause) : Begins clauses none (defaultClauses clauses) := by
  induction clauses with
  | nil => exact .nowhere (by simp)
  | cons clause rest ih =>
    obtain ⟨label, body⟩ := clause
    cases label with
    | none => exact .default (List.nil_append _).symm (by simp)
    | some label =>
      have hlabel : (Clause.mk (some label) body).label? ≠ none := by simp [Clause.label?]
      rw [defaultClauses]
      generalize defaultClauses rest = start at ih
      cases ih with
      | default split labelled =>
        have hsplit := congrArg (List.cons (.mk (some label) body)) split
        exact .default (hsplit.trans (List.cons_append ..).symm) (List.forall_mem_cons.2 ⟨hlabel, labelled⟩)
      | nowhere labelled => exact .nowhere (List.forall_mem_cons.2 ⟨hlabel, labelled⟩)

/-- A switch is a jump into the statements of its clauses. If the selector and the labels that are tried
evaluate, the labels up to the first one that is loosely equal to the selector are evaluated, in the order
of the source and no others. In the state that this leaves, the statements of the clauses from that one
on, or else from the first default clause on, run as one list; if there is neither, nothing runs. The
switch ends as the list does, except that a list that ends normally or with a `break` makes it end
normally. -/
theorem switch_jumps_into_statements (p : Program) (rounds budget : Nat) (scope : Scope) (selector : Expr)
    (clauses : List Clause) {m m₀ : Machine} {value : Value}
    (hselector : evalExpr p rounds budget scope selector m = .done value m₀)
    (hlabels : LabelsEvaluate (evaluators p rounds budget) scope value clauses m₀) :
    ∃ found start m₁, Finds (evaluators p rounds budget) scope value clauses m₀ found m₁ ∧
      Begins clauses found start ∧
      switch (evaluators p rounds budget) scope selector clauses m =
        (block (evaluators p rounds budget) scope (Clause.statements start) .undefined m₁).map
          Completion.leaveSwitch := by
  obtain ⟨found, m₁, hrun, hfinds⟩ := matchingClauses_finds hlabels
  refine ⟨found, found.getD (defaultClauses clauses), m₁, hfinds, ?_, ?_⟩
  · cases found with
    | none => exact begins_default clauses
    | some start => exact .found start
  · calc switch (evaluators p rounds budget) scope selector clauses m
      _ = (matchingClauses (evaluators p rounds budget) scope value clauses >>= fun entry =>
            runClauses (evaluators p rounds budget) scope (entry.getD (defaultClauses clauses))) m₀ :=
          bind_of_done hselector _
      _ = runClauses (evaluators p rounds budget) scope (found.getD (defaultClauses clauses)) m₁ :=
          bind_of_done hrun _
      _ = _ := runClauses_eq_block _ m₁

/-- A default clause in front of the labels, a label that assigns and is not equal to the selector `'b'`,
one that is, and one behind it that would assign again. -/
def mixedClauses : List Clause :=
  [.mk none [.returns none],
    .mk (some (.assign "x" none none (.literal (.string "a")))) [.continues],
    .mk (some (.literal (.string "b"))) [.expr (.assign "y" none none (.literal .null))],
    .mk (some (.assign "x" none none (.literal (.string "b")))) [.breaks],
    .mk none [.continues]]

/-- The switch begins at the label `'b'`, runs on into the next clause and ends at its `break`. The label
behind was not evaluated. -/
theorem switch_jumps_into_statements_mixed :
    (∃ found start m₁, Finds (evaluators ⟨[], .standard⟩ 1 3) Program.globalScope (.string "b") mixedClauses
        (.initial .initial .empty) found m₁ ∧ Begins mixedClauses found start ∧
      switch (evaluators ⟨[], .standard⟩ 1 3) Program.globalScope (.literal (.string "b")) mixedClauses
        (.initial .initial .empty) =
        (block (evaluators ⟨[], .standard⟩ 1 3) Program.globalScope (Clause.statements start) .undefined m₁).map
          Completion.leaveSwitch) ∧
    ∃ m', switch (evaluators ⟨[], .standard⟩ 1 3) Program.globalScope (.literal (.string "b")) mixedClauses
        (.initial .initial .empty) = .done (.normal .undefined) m' ∧
      Program.globalScope.get? m'.store "x" = some (.string "a") ∧
      Program.globalScope.get? m'.store "y" = some .null := by
  have hlabels : LabelsEvaluate (evaluators ⟨[], .standard⟩ 1 3) Program.globalScope (.string "b") mixedClauses
      (.initial .initial .empty) := by
    intro before label after vs m' hsplit _ _
    have hmem : label ∈ Clause.labels mixedClauses := by simp [hsplit]
    simp only [Clause.labels, mixedClauses, List.filterMap, Clause.label?, List.mem_cons,
      List.not_mem_nil, or_false] at hmem
    rcases hmem with rfl | rfl | rfl <;> exact ⟨_, _, rfl⟩
  refine ⟨switch_jumps_into_statements ⟨[], .standard⟩ 1 3 _ _ _ rfl hlabels, ?_⟩
  exact ⟨_, rfl, rfl, rfl⟩

end Eval
end PlayerScript
