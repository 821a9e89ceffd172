/-
Causes of errors, over whole runs. A cause explains why a run from one state failed in another. Plain
errors need none; a call whose body ends with loop control needs one of its own. Then every error of an
expression or a statement has a cause if the errors of its parts have.
-/
import PlayerScript.Proofs.Ast.Nodes
import PlayerScript.Proofs.Eval.Control
import PlayerScript.Proofs.Eval.Errors

namespace PlayerScript

/-- What explains the errors of runs that are not plain. An explanation holds for every run around the
one that it was given for. -/
structure Causes where
  /-- Why a run that started in one state failed with an error in another. -/
  Explains : Machine → Error → Machine → Prop
  plain : ∀ {m e m'}, e.isPlain = true → Explains m e m'
  widen : ∀ {m m₁ e m₂ m'}, m.Keeps m₁ → Explains m₁ e m₂ → m₂.Keeps m' → Explains m e m'

namespace Causes

open Eval

variable (c : Causes) {α β : Type}

/-- An outcome of a run that started in a state: the functions are still there, and an error is
explained. -/
inductive Accounts (m : Machine) : Outcome α → Prop
  | done {a : α} {m' : Machine} (kept : m.Keeps m') : Accounts m (.done a m')
  | failed {e : Error} {m' : Machine} (kept : m.Keeps m') (cause : c.Explains m e m') :
      Accounts m (.failed e m')
  | unfinished : Accounts m .unfinished

/-- Every outcome of a computation is accounted for. -/
def Covers (x : Eval α) : Prop := ∀ m, c.Accounts m (x m)

/-! ## Computations -/

section

variable {c}

theorem Accounts.after {m m' : Machine} (h : m.Keeps m') {o : Outcome α} (ho : c.Accounts m' o) :
    c.Accounts m o := by
  cases ho with
  | done kept => exact .done (h.trans kept)
  | failed kept cause => exact .failed (h.trans kept) (c.widen h cause (.refl _))
  | unfinished => exact .unfinished

theorem covers_done (a : α) : c.Covers (done a) := fun m => .done (.refl m)

theorem covers_fail {e : Error} (h : e.isPlain = true) : c.Covers (fail e : Eval α) :=
  fun m => .failed (.refl m) (c.plain h)

/-- What follows a computation has to be covered only for the results that the computation can have. -/
theorem covers_bind_of_ends {Q : α → Prop} {x : Eval α} {f : α → Eval β} (hx : c.Covers x)
    (hends : Eval.Ends Q x) (hf : ∀ a, Q a → c.Covers (f a)) : c.Covers (x >>= f) := by
  intro m
  show c.Accounts m (andThen x f m)
  unfold andThen
  have hrun := hx m
  generalize hresult : x m = o at hrun
  cases hrun with
  | done kept => exact .after kept (hf _ (hends m _ _ hresult) _)
  | failed kept cause => exact .failed kept cause
  | unfinished => exact .unfinished

theorem covers_bind {x : Eval α} {f : α → Eval β} (hx : c.Covers x) (hf : ∀ a, c.Covers (f a)) :
    c.Covers (x >>= f) :=
  covers_bind_of_ends hx (ends_any x) fun a _ => hf a

theorem covers_ite {q : Prop} [Decidable q] {x y : Eval α} (hx : c.Covers x) (hy : c.Covers y) :
    c.Covers (if q then x else y) := by
  split
  · exact hx
  · exact hy

theorem covers_read (f : Store → α) : c.Covers (read f) := fun m => .done (.refl m)

theorem covers_change {f : Store → Store} (h : ∀ s, (f s).closures = s.closures) : c.Covers (change f) := by
  intro m
  refine .done fun i x hx => ?_
  show (f m.store).closures.get? i = some x
  rw [h]
  exact hx

theorem covers_add {f : Store → α × Store} (h : ∀ s : Store, s.closures.Extends (f s).2.closures) :
    c.Covers (add f) := fun m => .done (h m.store)

theorem covers_ofExcept {x : Except Error α} (h : Plainly x) : c.Covers (ofExcept x) := by
  intro m
  cases x with
  | ok a => exact .done (.refl m)
  | error e => exact .failed (.refl m) (c.plain (h e rfl))

/-- What is found in the store may be an error. -/
theorem covers_found {f : Store → Except Error α} (h : ∀ s, Plainly (f s)) {g : α → Eval β}
    (hg : ∀ a, c.Covers (g a)) :
    c.Covers (read f >>= fun x => ofExcept x >>= g) := by
  intro m
  exact covers_bind (covers_ofExcept (h m.store)) hg m

theorem covers_attempt {f : Store → Except Error (α × Store)} (h : ∀ s, MildAttempt s (f s)) :
    c.Covers (attempt f) := by
  intro m
  unfold attempt
  split
  · rename_i a store hok
    refine .done fun i x hx => ?_
    show store.closures.get? i = some x
    rw [(h m.store).closures _ hok]
    exact hx
  · rename_i e he
    exact .failed (.refl m) (c.plain ((h m.store).plain e he))

theorem covers_ofStep {f : Machine → Except Error α × Machine} (h : MildStep f) : c.Covers (ofStep f) := by
  intro m
  unfold ofStep
  split
  · rename_i hrun
    exact .done (h.of_eq hrun).1
  · rename_i hrun
    exact .failed (h.of_eq hrun).1 (c.plain ((h.of_eq hrun).2 _ rfl))

end

/-! ## Calls of functions -/

/-- Every outcome of one part is accounted for. -/
def CoversPart (parts : Evaluators) (scope : Scope) : Ast.Node → Prop
  | .expr e => c.Covers (parts.expr scope e)
  | .stmt s => c.Covers (parts.stmt scope s)

/-- Evaluators for parts whose outcomes are accounted for. -/
structure Parts (parts : Evaluators) : Prop where
  expr : ∀ scope e, c.Covers (parts.expr scope e)
  stmt : ∀ scope s, c.Covers (parts.stmt scope s)

theorem Parts.part {c : Causes} {parts : Evaluators} (hp : c.Parts parts) (scope : Scope) :
    ∀ a, c.CoversPart parts scope a
  | .expr e => hp.expr scope e
  | .stmt s => hp.stmt scope s

end Causes

namespace Eval

/-- Runs the body of a function in a new layer. -/
def runBody (parts : Evaluators) (f : FunctionRef) (args : List Value) (extra : List (String × Value)) :
    Eval Completion := do
  let closure ← read fun store => store.closure f
  let scope ← add fun store =>
    closure.captured.child store (bindings closure.definition.params args extra Table.empty)
  block parts scope closure.definition.body .undefined

theorem invoke_eq_runBody (parts : Evaluators) (f : FunctionRef) (args : List Value)
    (extra : List (String × Value)) (m : Machine) :
    invoke parts f args extra m =
      (runBody parts f args extra >>= callResult (m.store.closure f).definition.name) m := rfl

end Eval

namespace Causes

open Eval

section Steps

variable {c : Causes} {parts : Evaluators} {scope : Scope}

theorem covers_evalAll {es : List Expr} (h : ∀ e ∈ es, c.Covers (parts.expr scope e)) :
    c.Covers (evalAll parts scope es) := by
  induction es with
  | nil => exact covers_done _
  | cons e rest ih =>
    obtain ⟨he, hrest⟩ := List.forall_mem_cons.1 h
    exact covers_bind he fun _ => covers_bind (ih hrest) fun _ => covers_done _

theorem covers_evalMembers {members : List (String × Expr)}
    (h : ∀ member ∈ members, c.Covers (parts.expr scope member.2)) (t : Table Value) :
    c.Covers (evalMembers parts scope members t) := by
  induction members generalizing t with
  | nil => exact covers_done _
  | cons member rest ih =>
    obtain ⟨hmember, hrest⟩ := List.forall_mem_cons.1 h
    exact covers_bind hmember fun _ => ih hrest _

theorem covers_evalSequence {es : List Expr} (h : ∀ e ∈ es, c.Covers (parts.expr scope e)) (last : Value) :
    c.Covers (evalSequence parts scope es last) := by
  induction es generalizing last with
  | nil => exact covers_done _
  | cons e rest ih =>
    obtain ⟨he, hrest⟩ := List.forall_mem_cons.1 h
    exact covers_bind he fun _ => ih hrest _

theorem covers_block {stmts : List Stmt} (h : ∀ s ∈ stmts, c.Covers (parts.stmt scope s)) (last : Value) :
    c.Covers (block parts scope stmts last) := by
  induction stmts generalizing last with
  | nil => exact covers_done _
  | cons s rest ih =>
    obtain ⟨hs, hrest⟩ := List.forall_mem_cons.1 h
    rw [block]
    refine covers_bind hs fun k => ?_
    cases k with
    | normal v => exact ih hrest v
    | _ => exact covers_done _

theorem covers_runBody (hp : c.Parts parts) (f : FunctionRef) (args : List Value)
    (extra : List (String × Value)) : c.Covers (runBody parts f args extra) := by
  refine covers_bind (covers_read _) fun _ => ?_
  exact covers_bind (covers_add fun _ _ _ h => h) fun scope => covers_block (fun s _ => hp.stmt scope s) _

/-! ## Statements -/

theorem covers_declare {decls : List (String × Option Expr)}
    (h : ∀ d ∈ decls, ∀ e ∈ d.2, c.Covers (parts.expr scope e)) : c.Covers (declare parts scope decls) := by
  induction decls with
  | nil => exact covers_done _
  | cons d rest ih =>
    obtain ⟨hd, hrest⟩ := List.forall_mem_cons.1 h
    obtain ⟨name, init⟩ := d
    cases init with
    | some init =>
      refine covers_bind (hd init rfl) fun _ => ?_
      exact covers_bind (covers_change fun _ => rfl) fun _ => ih hrest
    | none =>
      refine covers_bind (covers_change fun store => ?_) fun _ => ih hrest
      split <;> rfl

theorem covers_evalOptional {e : Option Expr} (h : ∀ e' ∈ e, c.Covers (parts.expr scope e')) :
    c.Covers (evalOptional parts scope e) := by
  cases e with
  | none => exact covers_done _
  | some e => exact covers_bind (h e rfl) fun _ => covers_done _

theorem covers_round {cond update : Option Expr} {body : Stmt}
    (hcond : ∀ e ∈ cond, c.Covers (parts.expr scope e)) (hupdate : ∀ e ∈ update, c.Covers (parts.expr scope e))
    (hbody : c.Covers (parts.stmt scope body)) : c.Covers (round parts scope cond update body) := by
  refine covers_bind (covers_evalOptional hcond) fun test => covers_ite ?_ (covers_done _)
  refine covers_bind hbody fun k => ?_
  cases k with
  | broken | returned => exact covers_done _
  | normal | continued => exact covers_bind (covers_evalOptional hupdate) fun _ => covers_done _

theorem covers_repeatRound {once : Eval (Option Completion)} (h : c.Covers once) :
    ∀ rounds, c.Covers (repeatRound once rounds)
  | 0, _ => .unfinished
  | rounds + 1, m => by
    rw [repeatRound]
    have hrun := h m
    split
    · rename_i hdone
      rw [hdone] at hrun
      cases hrun with
      | done kept => exact .done kept
    · rename_i hdone
      rw [hdone] at hrun
      cases hrun with
      | done kept => exact .after kept (covers_repeatRound h rounds _)
    · rename_i hfailed
      rw [hfailed] at hrun
      cases hrun with
      | failed kept cause => exact .failed kept cause
    · exact .unfinished

theorem covers_matchingClauses (value : Value) {clauses : List Clause}
    (h : ∀ a ∈ clauses.flatMap Ast.Node.ofClause, c.CoversPart parts scope a) :
    c.Covers (matchingClauses parts scope value clauses) := by
  induction clauses with
  | nil => exact covers_done _
  | cons clause rest ih =>
    obtain ⟨hclause, hrest⟩ := List.forall_mem_append.1 h
    obtain ⟨label, body⟩ := clause
    cases label with
    | none =>
      rw [matchingClauses]
      exact ih hrest
    | some label =>
      refine covers_bind (hclause (.expr label) List.mem_cons_self) fun v => ?_
      exact covers_ite (covers_done _) (ih hrest)

theorem covers_runClauses {clauses : List Clause}
    (h : ∀ a ∈ clauses.flatMap Ast.Node.ofClause, c.CoversPart parts scope a) :
    c.Covers (runClauses parts scope clauses) := by
  induction clauses with
  | nil => exact covers_done _
  | cons clause rest ih =>
    obtain ⟨hclause, hrest⟩ := List.forall_mem_append.1 h
    obtain ⟨label, body⟩ := clause
    have hbody : ∀ s ∈ body, c.Covers (parts.stmt scope s) := fun s hs =>
      hclause (.stmt s) (List.mem_append_right _ (List.mem_map_of_mem hs))
    refine covers_bind (covers_block hbody _) fun k => ?_
    cases k with
    | normal => exact ih hrest
    | broken | continued | returned => exact covers_done _

/-- An error that is pending during a clean-up was there before, in a state with no more functions. -/
theorem covers_withCleanup {body clean : Eval Completion} (hbody : c.Covers body) (hclean : c.Covers clean) :
    c.Covers (withCleanup body clean) := by
  intro m
  have hrun := hbody m
  unfold withCleanup
  generalize body m = o at hrun
  cases hrun with
  | unfinished => exact .unfinished
  | @done k m' kept =>
    have hafter := hclean m'
    dsimp only
    split
    · rename_i hdone
      rw [hdone] at hafter
      cases hafter with
      | done kept' => exact .done (kept.trans kept')
    · exact .after kept hafter
  | @failed e m' kept cause =>
    have hafter := hclean m'
    dsimp only
    split
    · rename_i hdone
      rw [hdone] at hafter
      -- The error of the body comes out after the cleanup, so its cause has to hold around both.
      cases hafter with
      | done kept' => exact .failed (kept.trans kept') (c.widen (.refl m) cause kept')
    · exact .after kept hafter

/-- Every outcome of a statement is accounted for if those of its parts are. -/
theorem covers_stmtStep (rounds : Nat) {s : Stmt}
    (h : ∀ a ∈ (Ast.Node.stmt s).below, c.CoversPart parts scope a) :
    c.Covers (stmtStep rounds parts scope s) := by
  cases s with
  | empty | breaks | continues => exact covers_done _
  | expr e => exact covers_bind (h (.expr e) (.head _)) fun _ => covers_done _
  | var decls =>
    have hdecls : ∀ d ∈ decls, ∀ e ∈ d.2, c.Covers (parts.expr scope e) := fun d hd e he =>
      h (.expr e) (List.mem_flatMap.2 ⟨d, hd, List.mem_map_of_mem (Option.mem_toList.2 he)⟩)
    exact covers_bind (covers_declare hdecls) fun _ => covers_done _
  | returns value =>
    have hvalue : ∀ e ∈ value, c.Covers (parts.expr scope e) := fun e he =>
      h (.expr e) (List.mem_map_of_mem (Option.mem_toList.2 he))
    exact covers_bind (covers_evalOptional hvalue) fun _ => covers_done _
  | throws e =>
    exact covers_bind (h (.expr e) (.head _)) fun _ => covers_bind (covers_read _) fun _ => covers_fail rfl
  | block body => exact covers_block (fun s hs => h (.stmt s) (List.mem_map_of_mem hs)) _
  | ifElse cond body otherwise =>
    refine covers_bind (h (.expr cond) (.head _)) fun v => covers_ite (h (.stmt body) (.tail _ (.head _))) ?_
    cases otherwise with
    | none => exact covers_done _
    | some s => exact h (.stmt s) (.tail _ (.tail _ (.head _)))
  | forLoop init cond update body =>
    have hparts : (∀ s ∈ init, c.Covers (parts.stmt scope s)) ∧ (∀ e ∈ cond, c.Covers (parts.expr scope e)) ∧
        (∀ e ∈ update, c.Covers (parts.expr scope e)) ∧ c.Covers (parts.stmt scope body) := by
      simp only [Ast.Node.below, Ast.Node.base, Ast.Node.parts, Option.toList_none, List.nil_append,
        List.forall_mem_append, List.forall_mem_map, Option.mem_toList, List.forall_mem_singleton] at h
      exact ⟨h.1.1, h.1.2.1, h.1.2.2, h.2⟩
    obtain ⟨hinit, hcond, hupdate, hbody⟩ := hparts
    have hrepeat := covers_repeatRound (covers_round hcond hupdate hbody) rounds
    cases init with
    | none => exact hrepeat
    | some s => exact covers_bind (hinit s rfl) fun _ => hrepeat
  | switch selector clauses =>
    refine covers_bind (h (.expr selector) (.head _)) fun value => ?_
    have hclauses : ∀ a ∈ clauses.flatMap Ast.Node.ofClause, c.CoversPart parts scope a :=
      fun a ha => h a (.tail _ ha)
    refine covers_bind_of_ends (covers_matchingClauses value hclauses) (suffix_entry clauses)
      fun entry hentry => ?_
    refine covers_runClauses fun a ha => ?_
    obtain ⟨clause, hclause, ha⟩ := List.mem_flatMap.1 ha
    exact hclauses a (List.mem_flatMap.2 ⟨clause, hentry.subset hclause, ha⟩)
  | tryBlock body handler cleanup =>
    have hbody : ∀ s ∈ body, c.Covers (parts.stmt scope s) := fun s hs =>
      h (.stmt s) (List.mem_map_of_mem (List.mem_append_left _ hs))
    cases cleanup with
    | none => exact covers_block hbody _
    | some clean =>
      have hclean : ∀ s ∈ clean, c.Covers (parts.stmt scope s) := fun s hs =>
        h (.stmt s) (List.mem_map_of_mem (List.mem_append_right body hs))
      exact covers_withCleanup (covers_block hbody _) (covers_block hclean _)

end Steps

/-! ## Expressions -/

section Expressions

variable {c : Causes} {parts : Evaluators} {scope : Scope}

theorem covers_propertyKey {property : Property}
    (h : ∀ a ∈ Ast.Node.ofProperty property, c.CoversPart parts scope a) :
    c.Covers (propertyKey parts scope property) := by
  cases property with
  | name => exact covers_done _
  | computed e => exact h (.expr e) (.head _)

theorem covers_namedObject (p : Program) (name : String) (optional : Bool) :
    c.Covers (namedObject p name optional) := by
  intro m
  have hstep := p.mildStep_resolveObject name
  unfold namedObject
  split
  · rename_i hrun
    exact .done (hstep.of_eq hrun).1
  · rename_i hrun
    split
    · exact .done (hstep.of_eq hrun).1
    · exact .failed (hstep.of_eq hrun).1 (c.plain ((hstep.of_eq hrun).2 _ rfl))

theorem covers_memberTarget (p : Program) {object : Expr} (h : c.Covers (parts.expr scope object))
    (optional : Bool) : c.Covers (memberTarget p parts scope object optional) := by
  intro m
  cases object with
  | ident name =>
    show c.Accounts m (if scope.contains m.store name then parts.expr scope (.ident name) m
      else namedObject p name optional m)
    split
    · exact h m
    · exact covers_namedObject p name optional m
  | _ => exact h m

theorem covers_evalMember (p : Program) {object : Expr} {property : Property}
    (hobject : c.Covers (parts.expr scope object))
    (hproperty : ∀ a ∈ Ast.Node.ofProperty property, c.CoversPart parts scope a) (optional : Bool) :
    c.Covers (evalMember p parts scope object property optional) := by
  refine covers_bind (covers_read _) fun space => ?_
  cases space with
  | some n => exact covers_fail rfl
  | none =>
    refine covers_bind (covers_memberTarget p hobject optional) fun target => ?_
    refine covers_ite (covers_done _) (covers_bind (covers_propertyKey hproperty) fun key m => ?_)
    exact covers_ofExcept (target.plainly_member m.store key) m

theorem mildAttempt_assignPlace (name : String) (target key : Value) (op : AssignOp) (value : Value)
    (store : Store) : MildAttempt store (assignPlace name target key op value store) := by
  unfold assignPlace
  split
  · unfold assignElement
    dsimp only
    split
    · exact mildAttempt_error rfl
    · split
      · exact mildAttempt_error rfl
      · exact mildAttempt_ok rfl
  · exact mildAttempt_ok rfl
  · exact mildAttempt_error rfl

theorem covers_update (op : UpdateOp) (before : Bool) (name : String) :
    c.Covers (update scope op before name) := by
  refine covers_bind (covers_read _) fun current => ?_
  cases current with
  | none => exact covers_fail rfl
  | some v =>
    refine covers_bind (covers_read _) fun x => ?_
    exact covers_bind (covers_change fun _ => rfl) fun _ => covers_done _

/-- Every outcome of an expression that is no call is accounted for if those of its parts are. -/
theorem covers_exprStep_of_below (p : Program) {e : Expr} (hcall : ∀ callee args, e ≠ .call callee args)
    (h : ∀ a ∈ (Ast.Node.expr e).below, c.CoversPart parts scope a) :
    c.Covers (exprStep p parts scope e) := by
  cases e with
  | literal => exact covers_done _
  | ident name => exact covers_read fun store => scope.get store name
  | array items =>
    have hitems := covers_evalAll fun e he => h (.expr e) (List.mem_map_of_mem he)
    exact covers_bind hitems fun _ => covers_add fun _ _ _ h => h
  | object members =>
    have hmembers := covers_evalMembers
      (fun (member : String × Expr) (hm : member ∈ members) => h (.expr member.2) (List.mem_map_of_mem hm))
      Table.empty
    exact covers_bind hmembers fun _ => covers_add fun _ _ _ h => h
  | function name params body =>
    refine covers_bind (covers_add fun store => store.closures.extends_push _) fun f => ?_
    exact covers_bind (covers_change fun _ => rfl) fun _ => covers_done _
  | unary op e => exact covers_bind (h (.expr e) (.head _)) fun _ => covers_read _
  | update op before name => exact covers_update op before name
  | binary op left right =>
    refine covers_bind (h (.expr left) (.head _)) fun a => covers_ite (covers_done _) ?_
    exact covers_bind (h (.expr right) (.tail _ (.head _))) fun _ => covers_read _
  | conditional test consequent alternate =>
    refine covers_bind (h (.expr test) (.head _)) fun v => ?_
    exact covers_ite (h (.expr consequent) (.tail _ (.head _)))
      (h (.expr alternate) (.tail _ (.tail _ (.head _))))
  | assign name index op value =>
    cases index with
    | none =>
      refine covers_bind (h (.expr value) (.head _)) fun v => covers_bind (covers_read _) fun updated => ?_
      exact covers_bind (covers_change fun _ => rfl) fun _ => covers_done _
    | some index =>
      refine covers_bind (covers_read _) fun target => ?_
      cases target with
      | none => exact covers_fail rfl
      | some target =>
        refine covers_bind (h (.expr index) (.head _)) fun key => ?_
        refine covers_bind (h (.expr value) (.tail _ (.head _))) fun v => ?_
        exact covers_attempt (mildAttempt_assignPlace name target key op v)
  | sequence items =>
    exact covers_evalSequence (fun e he => h (.expr e) (List.mem_map_of_mem he)) _
  | member object property optional =>
    exact covers_evalMember p (h (.expr object) (.head _)) (fun a ha => h a (.tail _ ha)) optional
  | call callee args => exact absurd rfl (hcall callee args)

end Expressions

/-! ## Calls -/

/-- A call whose body ends with loop control has a cause of its own. -/
def Escapes (c : Causes) (parts : Evaluators) : Prop :=
  ∀ f args extra m k m', runBody parts f args extra m = .done k m' → k.isControl = true →
    c.Explains m (.internal (.loopControlEscaped (m.store.closure f).definition.name)) m'

section Calls

variable {c : Causes} {parts : Evaluators} (hp : c.Parts parts) (hescapes : c.Escapes parts)
include hp hescapes

theorem covers_invoke (f : FunctionRef) (args : List Value) (extra : List (String × Value)) :
    c.Covers (invoke parts f args extra) := by
  intro m
  have hrun := covers_runBody hp f args extra m
  rw [invoke_eq_runBody]
  show c.Accounts m (andThen _ _ m)
  unfold andThen
  generalize hbody : runBody parts f args extra m = o at hrun
  cases hrun with
  | unfinished => exact .unfinished
  | failed kept cause => exact .failed kept cause
  | @done k m' kept =>
    cases k with
    | normal | returned => exact .done kept
    | broken | continued => exact .failed kept (hescapes f args extra m _ m' hbody rfl)

theorem covers_forEach (target : Value) (f : FunctionRef) (extra : List (String × Value)) :
    ∀ items i, c.Covers (forEach parts target f extra items i)
  | [], _ => covers_done _
  | item :: rest, i => by
    refine covers_bind (covers_invoke hp hescapes f _ extra) fun _ => ?_
    exact covers_bind (covers_forEach target f extra rest (i + 1)) fun _ => covers_done _

theorem covers_callMethod (target : Value) (name : String) (args : List Value) :
    c.Covers (callMethod parts target name args) := by
  unfold callMethod
  split
  · exact covers_fail (Method.isPlain_unknown target name)
  · refine covers_found (fun store => Method.plainly_iteration store target args) fun run => ?_
    refine covers_bind (covers_forEach hp hescapes target run.callback _ run.items 0) fun results => ?_
    exact covers_add fun _ _ _ h => h
  · exact covers_attempt fun store => Method.mildAttempt_run _ store target args

omit hp hescapes in
theorem plainly_memberFunction? (store : Store) (target key : Value) :
    Plainly (memberFunction? store target key) := by
  have hmember := target.plainly_member store key
  unfold memberFunction?
  split
  · split
    · exact failsWith_ok _
    · exact failsWith_ok _
    · rename_i he
      exact hmember.error he
  · split
    · exact failsWith_ok _
    · exact failsWith_ok _
    · rename_i he
      exact hmember.error he
  · exact failsWith_ok _

theorem covers_callMember (p : Program) (scope : Scope) (object : Expr) (property : Property)
    (optional : Bool) (args : List Expr) :
    c.Covers (callMember p parts scope object property optional args) := by
  refine covers_bind (covers_memberTarget p (hp.expr scope object) optional) fun target => ?_
  refine covers_ite (covers_done _) (covers_bind (covers_propertyKey fun a _ => hp.part scope a) fun key => ?_)
  refine covers_bind (covers_evalAll fun e _ => hp.expr scope e) fun values => ?_
  refine covers_found (fun store => plainly_memberFunction? store target key) fun found => ?_
  cases found with
  | some f => exact covers_invoke hp hescapes f values []
  | none => exact covers_bind (covers_read _) fun name => covers_callMethod hp hescapes target name values

theorem covers_callValue (scope : Scope) (callee : Expr) (args : List Expr) :
    c.Covers (callValue parts scope callee args) := by
  refine covers_bind (hp.expr scope callee) fun v => ?_
  cases v with
  | function f =>
    exact covers_bind (covers_evalAll fun e _ => hp.expr scope e)
      fun values => covers_invoke hp hescapes f values []
  | _ => exact covers_bind (covers_read _) fun _ => covers_fail rfl

theorem covers_evalCall (p : Program) (scope : Scope) (callee : Expr) (args : List Expr) :
    c.Covers (evalCall p parts scope callee args) := by
  intro m
  unfold evalCall
  split
  · split
    · refine covers_bind (covers_evalAll fun e _ => hp.expr scope e) (fun values => ?_) m
      exact covers_bind (covers_read _) fun rest => covers_callMethod hp hescapes _ _ rest
    · split
      · refine covers_bind (covers_propertyKey fun a _ => hp.part scope a) (fun key => ?_) m
        refine covers_bind (covers_read _) fun method => ?_
        refine covers_bind (covers_evalAll fun e _ => hp.expr scope e) fun values m => ?_
        exact covers_ofExcept (plainly_callStatic m.store _ _ _) m
      · exact covers_callMember hp hescapes p scope _ _ _ args m
  · split
    · exact covers_callValue hp hescapes scope _ args m
    · refine covers_bind (covers_ofStep (p.mildStep_extractFunction _)) (fun f => ?_) m
      exact covers_bind (covers_evalAll fun e _ => hp.expr scope e)
        fun values => covers_invoke hp hescapes f values []
  · exact covers_callValue hp hescapes scope _ args m

theorem covers_exprStep (p : Program) (scope : Scope) (e : Expr) : c.Covers (exprStep p parts scope e) := by
  cases e with
  | call callee args => exact covers_evalCall hp hescapes p scope callee args
  | _ => exact covers_exprStep_of_below p nofun fun a _ => hp.part scope a

end Calls
end Causes
end PlayerScript
