/-
Expressions keep a discipline. If the evaluators for the parts of an expression give matching outcomes
in linked states, so does the expression. What a step finds in the store may be held only in the state
it was found in, and in later ones: so every proof carries the states along, one step after another.
-/
import PlayerScript.Proofs.Value.LinkedMethods

namespace PlayerScript.Discipline

open Eval Ast

variable {extra : List (String × Value)} {args : List Expr} {property : Property} {optional : Bool}
  {object : Expr}
variable {p q : Program} (d : Discipline p q)

/-- The value of a statement, if it has one, may be held. -/
def Completes (m : Machine) : Completion → Prop
  | .normal v | .returned v => d.Val m v
  | .broken | .continued => True

/-- Two evaluators for parts give matching outcomes in linked states. -/
structure Parts (E₁ E₂ : Evaluators) : Prop where
  expr : ∀ {m₁ m₂ scope e}, d.Linked m₁ m₂ → d.InScope m₁ scope → exprAll d.allowed e →
    d.Matches m₁ d.Val (E₁.expr scope e m₁) (E₂.expr scope e m₂)
  stmt : ∀ {m₁ m₂ scope s}, d.Linked m₁ m₂ → d.InScope m₁ scope → stmtAll d.allowed s →
    d.Matches m₁ d.Completes (E₁.stmt scope s m₁) (E₂.stmt scope s m₂)

variable {d} {E₁ E₂ : Evaluators} (hp : d.Parts E₁ E₂) {m₁ m₂ : Machine} {scope : Scope}
include hp

/-! ## Lists of parts -/

theorem matches_evalAll : ∀ {es : List Expr} {m₁ m₂ : Machine}, d.Linked m₁ m₂ →
    d.InScope m₁ scope → exprsAll d.allowed es →
    d.Matches m₁ (fun m vs => ∀ v ∈ vs, d.Val m v) (evalAll E₁ scope es m₁) (evalAll E₂ scope es m₂)
  | [], _, _, hl, _, _ => d.matches_done hl (List.forall_mem_nil _)
  | e :: rest, _, _, hl, hs, he => by
    rw [evalAll, evalAll]
    refine d.matches_bind (hp.expr hl hs he.1) fun v n₁ n₂ hl' hlater hv => ?_
    refine d.matches_bind (matches_evalAll hl' (d.inScope_later hlater hs) he.2)
      fun vs k₁ k₂ hl'' hlater' hvs => ?_
    exact d.matches_done hl'' (List.forall_mem_cons.2 ⟨d.val_later hlater' hv, hvs⟩)

theorem matches_evalMembers : ∀ {members : List (String × Expr)} {t : Table Value}
    {m₁ m₂ : Machine}, d.Linked m₁ m₂ → d.InScope m₁ scope → membersAll d.allowed members →
    d.Holds m₁ t →
    d.Matches m₁ d.Holds (evalMembers E₁ scope members t m₁) (evalMembers E₂ scope members t m₂)
  | [], _, _, _, hl, _, _, ht => d.matches_done hl ht
  | (key, e) :: rest, _, _, _, hl, hs, he, ht => by
    rw [evalMembers, evalMembers]
    refine d.matches_bind (hp.expr hl hs he.1) fun v n₁ n₂ hl' hlater hv => ?_
    exact matches_evalMembers hl' (d.inScope_later hlater hs) he.2
      (d.holds_insert (d.holds_later hlater ht) hv key)

theorem matches_evalSequence : ∀ {es : List Expr} {last : Value} {m₁ m₂ : Machine},
    d.Linked m₁ m₂ → d.InScope m₁ scope → exprsAll d.allowed es → d.Val m₁ last →
    d.Matches m₁ d.Val (evalSequence E₁ scope es last m₁) (evalSequence E₂ scope es last m₂)
  | [], _, _, _, hl, _, _, hv => d.matches_done hl hv
  | e :: rest, _, _, _, hl, hs, he, _ => by
    rw [evalSequence, evalSequence]
    refine d.matches_bind (hp.expr hl hs he.1) fun v n₁ n₂ hl' hlater hv => ?_
    exact matches_evalSequence hl' (d.inScope_later hlater hs) he.2 hv

theorem matches_block : ∀ {stmts : List Stmt} {last : Value} {m₁ m₂ : Machine},
    d.Linked m₁ m₂ → d.InScope m₁ scope → bodyAll d.allowed stmts → d.Val m₁ last →
    d.Matches m₁ d.Completes (block E₁ scope stmts last m₁) (block E₂ scope stmts last m₂)
  | [], _, _, _, hl, _, _, hv => d.matches_done hl hv
  | s :: rest, _, _, _, hl, hs, he, _ => by
    rw [block, block]
    refine d.matches_bind (hp.stmt hl hs he.1) fun c n₁ n₂ hl' hlater hc => ?_
    cases c with
    | normal v => exact matches_block hl' (d.inScope_later hlater hs) he.2 hc
    | _ => exact d.matches_done hl' hc

/-! ## Calls of functions -/

omit hp in
theorem holds_bindings {m : Machine} (hx : ∀ e ∈ extra, d.Val m e.2) :
    ∀ {params : List String} {args : List Value} {t : Table Value}, (∀ v ∈ args, d.Val m v) →
      d.Holds m t → d.Holds m (bindings params args extra t)
  | [], _, _, _, ht => by rw [bindings]; exact d.holds_insertAll ht hx
  | param :: params, [], _, ha, ht => by
    rw [bindings]
    exact holds_bindings hx ha (d.holds_insert ht (d.val_plain rfl) param)
  | param :: params, v :: args, _, ha, ht => by
    rw [List.forall_mem_cons] at ha
    rw [bindings]
    exact holds_bindings hx ha.2 (d.holds_insert ht ha.1 param)

omit hp in
theorem matches_child {t : Table Value} (hl : d.Linked m₁ m₂) (hs : d.InScope m₁ scope)
    (ht : d.Holds m₁ t) :
    d.Matches m₁ d.InScope (Eval.add (fun store => scope.child store t) m₁)
      (Eval.add (fun store => scope.child store t) m₂) := by
  obtain ⟨heq, hkeeps, hlayer⟩ := d.addLayer hl ht
  refine d.matches_add (congrArg (fun l => Scope.mk l scope.layers) heq) hkeeps ?_
  exact List.forall_mem_cons.2 ⟨hlayer, d.inScope_later hkeeps.later hs⟩

theorem matches_invoke {f : FunctionRef} {args : List Value}
    (hl : d.Linked m₁ m₂) (hf : d.Val m₁ (.function f)) (ha : ∀ v ∈ args, d.Val m₁ v)
    (hx : ∀ e ∈ extra, d.Val m₁ e.2) :
    d.Matches m₁ d.Val (invoke E₁ f args extra m₁) (invoke E₂ f args extra m₂) := by
  obtain ⟨heq, hcaptured, hbody⟩ := d.closure hl hf
  refine d.matches_read_bind heq ?_
  refine d.matches_bind (matches_child hl hcaptured (holds_bindings hx ha (d.holds_empty m₁)))
    fun inner n₁ n₂ hl₁ _ hinner => ?_
  refine d.matches_bind (matches_block hp hl₁ hinner hbody (d.val_plain rfl))
    fun c k₁ k₂ hl₂ _ hc => ?_
  cases c with
  | returned v => exact d.matches_done hl₂ hc
  | normal v => exact d.matches_done hl₂ (d.val_plain rfl)
  | _ => exact d.matches_fail hl₂ _

theorem matches_forEach {target : Value} {f : FunctionRef} :
    ∀ {items : List Value} {i : Nat} {m₁ m₂ : Machine}, d.Linked m₁ m₂ →
    d.Val m₁ target → d.Val m₁ (.function f) → (∀ v ∈ items, d.Val m₁ v) →
    (∀ e ∈ extra, d.Val m₁ e.2) →
    d.Matches m₁ (fun m vs => ∀ v ∈ vs, d.Val m v) (forEach E₁ target f extra items i m₁)
      (forEach E₂ target f extra items i m₂)
  | [], _, _, _, hl, _, _, _, _ => d.matches_done hl (List.forall_mem_nil _)
  | item :: rest, i, _, _, hl, ht, hf, hi, hx => by
    rw [List.forall_mem_cons] at hi
    rw [forEach, forEach]
    have hargs : ∀ v ∈ [item, .ofNat i, target], d.Val _ v :=
      List.forall_mem_cons.2 ⟨hi.1, List.forall_mem_cons.2 ⟨d.val_plain rfl, by simpa using ht⟩⟩
    refine d.matches_bind (matches_invoke hp hl hf hargs hx) fun v n₁ n₂ hl₁ hlater hv => ?_
    refine d.matches_bind (matches_forEach hl₁ (d.val_later hlater ht) (d.val_later hlater hf)
      (fun w hw => d.val_later hlater (hi.2 w hw)) (fun e he => d.val_later hlater (hx e he)))
      fun vs k₁ k₂ hl₂ hlater' hvs => ?_
    exact d.matches_done hl₂ (List.forall_mem_cons.2 ⟨d.val_later hlater' hv, hvs⟩)

omit hp in
theorem matches_addArray {vs : List Value} (hl : d.Linked m₁ m₂) (hv : ∀ v ∈ vs, d.Val m₁ v) :
    d.Matches m₁ d.Val (Eval.add (fun store => store.addArray vs.toArray) m₁)
      (Eval.add (fun store => store.addArray vs.toArray) m₂) := by
  obtain ⟨heq, hkeeps, hval⟩ := d.addArray hl fun v (h : v ∈ vs.toArray) =>
    hv v (List.mem_toArray.1 h)
  exact d.matches_add heq hkeeps hval

theorem matches_callMethod {target : Value} {name : String} {args : List Value}
    (hl : d.Linked m₁ m₂) (ht : d.Target m₁ target) (ha : ∀ v ∈ args, d.Val m₁ v) :
    d.Matches m₁ d.Val (callMethod E₁ target name args m₁) (callMethod E₂ target name args m₂) := by
  unfold callMethod
  cases Method.ofName? name with
  | none => exact d.matches_fail hl _
  | some method =>
    cases method with
    | forEach =>
      obtain ⟨heq, hrun⟩ := d.iteration_eq hl ht ha
      refine d.matches_read_bind heq ?_
      refine d.matches_ofExcept_bind hl fun run hok => ?_
      have hr := hrun run hok
      have hextra : ∀ e ∈ run.receiver.toList.map fun this => ("this", this), d.Val m₁ e.2 := by
        intro e he
        obtain ⟨this, hthis, rfl⟩ := List.mem_map.1 he
        exact hr.receiver this (Option.mem_toList.1 hthis)
      refine d.matches_bind (matches_forEach hp hl hr.target hr.callback hr.items hextra)
        fun vs n₁ n₂ hl₁ _ hvs => ?_
      exact matches_addArray hl₁ hvs
    | _ => exact d.matches_attempt hl (d.attempts_method hl ht ha _)

/-! ## Members -/

omit hp in
theorem namespace?_eq (hl : d.Linked m₁ m₂) (hs : d.InScope m₁ scope)
    (e : Expr) : namespace? m₁.store scope e = namespace? m₂.store scope e := by
  unfold namespace?
  split
  · rw [d.scope_contains_eq hl hs]
  · rfl

omit hp in
theorem borrowed?_eq (hl : d.Linked m₁ m₂) (hs : d.InScope m₁ scope) (object : Expr)
    (property : Property) :
    borrowed? m₁.store scope object property = borrowed? m₂.store scope object property := by
  unfold borrowed?
  split
  · rw [namespace?_eq hl hs]
  · rfl

theorem matches_propertyKey (hl : d.Linked m₁ m₂) (hs : d.InScope m₁ scope)
    (he : propertyAll d.allowed property) :
    d.Matches m₁ d.Val (propertyKey E₁ scope property m₁) (propertyKey E₂ scope property m₂) := by
  cases property with
  | name name => exact d.matches_done hl (d.val_plain rfl)
  | computed key => exact hp.expr hl hs he

omit hp in
theorem matches_namedObject {name : String} (hl : d.Linked m₁ m₂) (hn : d.allowed.name name) :
    d.Matches m₁ d.Target (namedObject p name optional m₁) (namedObject q name optional m₂) := by
  have hstep := d.resolveObject hl name hn
  unfold namedObject
  generalize p.resolveObject name m₁ = x₁ at hstep
  generalize q.resolveObject name m₂ = x₂ at hstep
  cases hstep with
  | ok linked later result => exact .done linked later result
  | error errors linked later =>
    cases optional with
    | true => exact .done linked later (d.target_of_val (d.val_plain rfl))
    | false => exact .failed errors linked later

omit hp in
theorem matches_target {o₁ o₂ : Outcome Value} (h : d.Matches m₁ d.Val o₁ o₂) :
    d.Matches m₁ d.Target o₁ o₂ := by
  cases h with
  | done linked later result => exact .done linked later (d.target_of_val result)
  | failed errors linked later => exact .failed errors linked later
  | unfinished hloops => exact .unfinished hloops
  | cut hcut => exact .cut hcut

theorem matches_memberTarget (hl : d.Linked m₁ m₂)
    (hs : d.InScope m₁ scope) (he : exprAll d.allowed object) :
    d.Matches m₁ d.Target (memberTarget p E₁ scope object optional m₁)
      (memberTarget q E₂ scope object optional m₂) := by
  have hexpr := matches_target (hp.expr hl hs he)
  -- Only a name that is not bound can stand for an object of the source.
  cases object with
  | ident name =>
    show d.Matches m₁ d.Target
      (if scope.contains m₁.store name then E₁.expr scope (.ident name) m₁
        else namedObject p name optional m₁)
      (if scope.contains m₂.store name then E₂.expr scope (.ident name) m₂
        else namedObject q name optional m₂)
    rw [← d.scope_contains_eq hl hs]
    split
    · exact hexpr
    · exact matches_namedObject hl he
  | _ => exact hexpr

theorem matches_evalMember (hl : d.Linked m₁ m₂) (hs : d.InScope m₁ scope)
    (ho : exprAll d.allowed object) (hk : propertyAll d.allowed property) :
    d.Matches m₁ d.Val (evalMember p E₁ scope object property optional m₁)
      (evalMember q E₂ scope object property optional m₂) := by
  unfold evalMember
  refine d.matches_read_bind (namespace?_eq hl hs object) ?_
  cases namespace? m₁.store scope object with
  | some n => exact d.matches_fail hl _
  | none =>
    refine d.matches_bind (matches_memberTarget hp hl hs ho) fun target n₁ n₂ hl₁ h₁ ht => ?_
    refine d.matches_ite (fun _ => d.matches_done hl₁ (d.val_plain rfl)) fun _ => ?_
    refine d.matches_bind (matches_propertyKey hp hl₁ (d.inScope_later h₁ hs) hk)
      fun key k₁ k₂ hl₂ h₂ hkey => ?_
    obtain ⟨heq, hval⟩ := d.member_eq hl₂ (d.target_later h₂ ht) hkey
    refine d.matches_read_bind heq ?_
    exact d.matches_ofExcept hl₂ hval

/-! ## Calls -/

omit hp in
theorem memberFunction?_eq {target key : Value} (hl : d.Linked m₁ m₂) (ht : d.Target m₁ target)
    (hk : d.Val m₁ key) :
    memberFunction? m₁.store target key = memberFunction? m₂.store target key ∧
      ∀ f, memberFunction? m₁.store target key = .ok (some f) → d.Val m₁ (.function f) := by
  obtain ⟨heq, hval⟩ := d.member_eq hl ht hk
  -- What is found is a member of the target, of which the discipline says that it may be held.
  have hfound : ∀ f, memberFunction? m₁.store target key = .ok (some f) →
      target.member m₁.store key = .ok (.function f) := by
    intro f hf
    unfold memberFunction? at hf
    split at hf
    · split at hf <;> simp_all
    · split at hf <;> simp_all
    · cases hf
  refine ⟨?_, fun f hf => hval _ (hfound f hf)⟩
  unfold memberFunction?
  rw [heq]

theorem matches_callMember (hl : d.Linked m₁ m₂) (hs : d.InScope m₁ scope)
    (ho : exprAll d.allowed object) (hk : propertyAll d.allowed property)
    (ha : exprsAll d.allowed args) :
    d.Matches m₁ d.Val (callMember p E₁ scope object property optional args m₁)
      (callMember q E₂ scope object property optional args m₂) := by
  unfold callMember
  refine d.matches_bind (matches_memberTarget hp hl hs ho) fun target n₁ n₂ hl₁ h₁ ht => ?_
  refine d.matches_ite (fun _ => d.matches_done hl₁ (d.val_plain rfl)) fun _ => ?_
  have hs₁ := d.inScope_later h₁ hs
  refine d.matches_bind (matches_propertyKey hp hl₁ hs₁ hk) fun key k₁ k₂ hl₂ h₂ hkey => ?_
  refine d.matches_bind (matches_evalAll hp hl₂ (d.inScope_later h₂ hs₁) ha)
    fun values j₁ j₂ hl₃ h₃ hvalues => ?_
  replace ht := d.target_later h₃ (d.target_later h₂ ht)
  replace hkey := d.val_later h₃ hkey
  obtain ⟨heq, hfound⟩ := memberFunction?_eq hl₃ ht hkey
  refine d.matches_read_bind heq ?_
  refine d.matches_ofExcept_bind hl₃ fun found hok => ?_
  -- A function that is stored under the name takes precedence over a method.
  cases found with
  | some f => exact matches_invoke hp hl₃ (hfound f hok) hvalues (List.forall_mem_nil _)
  | none =>
    refine d.matches_read_bind (d.text_eq hl₃ hkey) ?_
    exact matches_callMethod hp hl₃ ht hvalues

/-- The arguments of a borrowed method behind its receiver, which may come as one array. -/
def borrowedArguments (spread : Bool) (values : List Value) (store : Store) : List Value :=
  if spread then
    match values.drop 1 with
    | .array a :: _ => (store.elements a).toList
    | _ => []
  else values.drop 1

omit hp in
theorem borrowedArguments_eq {values : List Value} (hl : d.Linked m₁ m₂)
    (hv : ∀ v ∈ values, d.Val m₁ v) (spread : Bool) :
    borrowedArguments spread values m₁.store = borrowedArguments spread values m₂.store ∧
      ∀ v ∈ borrowedArguments spread values m₁.store, d.Val m₁ v := by
  have hrest : ∀ v ∈ values.drop 1, d.Val m₁ v := fun v h => hv v (List.mem_of_mem_drop h)
  unfold borrowedArguments
  cases spread with
  | false => exact ⟨rfl, hrest⟩
  | true =>
    rw [if_pos rfl, if_pos rfl]
    split
    · rename_i a rest hdrop
      rw [hdrop] at hrest
      obtain ⟨heq, helements⟩ := d.elements hl (hrest _ List.mem_cons_self)
      rw [← heq]
      exact ⟨rfl, fun v h => helements v (Array.mem_def.2 h)⟩
    · exact ⟨rfl, List.forall_mem_nil _⟩

theorem matches_callBorrowed {method : String} {spread : Bool}
    (hl : d.Linked m₁ m₂) (hs : d.InScope m₁ scope) (ha : exprsAll d.allowed args) :
    d.Matches m₁ d.Val (callBorrowed E₁ scope method spread args m₁)
      (callBorrowed E₂ scope method spread args m₂) := by
  unfold callBorrowed
  refine d.matches_bind (matches_evalAll hp hl hs ha) fun values n₁ n₂ hl₁ _ hvalues => ?_
  obtain ⟨heq, hbehind⟩ := borrowedArguments_eq hl₁ hvalues spread
  have hreceiver : d.Val n₁ (values.head?.getD .undefined) := by
    cases values with
    | nil => exact d.val_plain rfl
    | cons v rest => exact hvalues v List.mem_cons_self
  refine d.matches_read_bind heq ?_
  exact matches_callMethod hp hl₁ (d.target_of_val hreceiver) hbehind

theorem matches_callSpace {space : Namespace}
    (hl : d.Linked m₁ m₂) (hs : d.InScope m₁ scope) (hk : propertyAll d.allowed property)
    (ha : exprsAll d.allowed args) :
    d.Matches m₁ d.Val (callSpace E₁ scope space property args m₁)
      (callSpace E₂ scope space property args m₂) := by
  unfold callSpace
  refine d.matches_bind (matches_propertyKey hp hl hs hk) fun key n₁ n₂ hl₁ h₁ hkey => ?_
  refine d.matches_read_bind (d.text_eq hl₁ hkey) ?_
  refine d.matches_bind (matches_evalAll hp hl₁ (d.inScope_later h₁ hs) ha)
    fun values k₁ k₂ hl₂ _ hvalues => ?_
  obtain ⟨heq, hval⟩ := d.callStatic_eq hl₂ hvalues space.name (key.text n₁.store)
  refine d.matches_read_bind heq ?_
  exact d.matches_ofExcept hl₂ hval

theorem matches_callValue {callee : Expr} (hl : d.Linked m₁ m₂)
    (hs : d.InScope m₁ scope) (hc : exprAll d.allowed callee) (ha : exprsAll d.allowed args) :
    d.Matches m₁ d.Val (callValue E₁ scope callee args m₁) (callValue E₂ scope callee args m₂) := by
  unfold callValue
  refine d.matches_bind (hp.expr hl hs hc) fun v n₁ n₂ hl₁ h₁ hv => ?_
  have hrefused : ∀ {w : Value}, d.Val n₁ w → d.Matches n₁ d.Val
      ((do let text ← read fun store => w.text store; fail (.type (.notCallable text)) : Eval Value)
        n₁)
      ((do let text ← read fun store => w.text store; fail (.type (.notCallable text)) : Eval Value)
        n₂) := by
    intro w hw
    exact d.matches_read_bind (d.text_eq hl₁ hw) (d.matches_fail hl₁ _)
  cases v with
  | function f =>
    refine d.matches_bind (matches_evalAll hp hl₁ (d.inScope_later h₁ hs) ha)
      fun values k₁ k₂ hl₂ h₂ hvalues => ?_
    exact matches_invoke hp hl₂ (d.val_later h₂ hv) hvalues (List.forall_mem_nil _)
  | _ => exact hrefused hv

theorem matches_callNamed {name : String} (hl : d.Linked m₁ m₂)
    (hs : d.InScope m₁ scope) (hn : d.allowed.name name) (ha : exprsAll d.allowed args) :
    d.Matches m₁ d.Val (callNamed p E₁ scope name args m₁) (callNamed q E₂ scope name args m₂) := by
  unfold callNamed
  refine d.matches_bind (d.matches_ofStep (d.extractFunction hl name hn))
    fun f n₁ n₂ hl₁ h₁ hf => ?_
  refine d.matches_bind (matches_evalAll hp hl₁ (d.inScope_later h₁ hs) ha)
    fun values k₁ k₂ hl₂ h₂ hvalues => ?_
  exact matches_invoke hp hl₂ (d.val_later h₂ hf) hvalues (List.forall_mem_nil _)

theorem matches_evalCall {callee : Expr} (hl : d.Linked m₁ m₂)
    (hs : d.InScope m₁ scope) (hc : exprAll d.allowed callee) (ha : exprsAll d.allowed args) :
    d.Matches m₁ d.Val (evalCall p E₁ scope callee args m₁) (evalCall q E₂ scope callee args m₂) := by
  unfold evalCall
  cases callee with
  | member object property optional =>
    dsimp only
    rw [← borrowed?_eq hl hs, ← namespace?_eq hl hs]
    split
    · exact matches_callBorrowed hp hl hs ha
    · split
      · exact matches_callSpace hp hl hs hc.2 ha
      · exact matches_callMember hp hl hs hc.1 hc.2 ha
  | ident name =>
    dsimp only
    rw [← d.scope_contains_eq hl hs]
    split
    · exact matches_callValue hp hl hs hc ha
    · exact matches_callNamed hp hl hs hc ha
  | _ => exact matches_callValue hp hl hs hc ha

/-! ## Assignments -/

omit hp in
theorem mem_writePlace {items : Array Value} {i : Nat} {v w : Value} (h : w ∈ writePlace items i v) :
    w ∈ items ∨ w = .undefined ∨ w = v := by
  unfold writePlace at h
  split at h
  · rcases Array.mem_or_eq_of_mem_setIfInBounds h with h | h
    · exact .inl h
    · exact .inr (.inr h)
  · rcases Array.mem_push.1 h with h | h
    · rcases Array.mem_append.1 h with h | h
      · exact .inl h
      · exact .inr (.inl (Array.mem_replicate.1 h).2)
    · exact .inr (.inr h)

section Places

variable {target key value : Value} {op : AssignOp} (hl : d.Linked m₁ m₂)
  (hk : d.Val m₁ key) (hv : d.Val m₁ value) (name : String)
include hl hk hv

omit hp in
theorem attempts_assignElement {a : ArrayRef} (ha : d.Val m₁ (.array a)) :
    d.Attempts m₁ m₂ d.Val (assignElement name a key op value m₁.store)
      (assignElement name a key op value m₂.store) := by
  obtain ⟨heq, helements⟩ := d.elements hl ha
  unfold assignElement
  dsimp only
  rw [← heq, ← d.text_eq hl hk]
  split
  · exact .error _
  · rename_i i _
    split
    · exact .error _
    · have hcurrent : d.Val m₁ ((m₁.store.elements a)[i]?.getD .undefined) := by
        cases h : (m₁.store.elements a)[i]? with
        | none => exact d.val_plain rfl
        | some v => exact helements v (Array.mem_of_getElem? h)
      have hupdated := d.assign_val hcurrent hv op m₁.store
      rw [← d.assign_eq hl hcurrent hv op]
      refine d.attempts_modifyArray hl ha hupdated fun w hw => ?_
      rcases mem_writePlace hw with h | rfl | rfl
      · exact helements w h
      · exact d.val_plain rfl
      · exact hupdated

omit hp in
theorem attempts_assignMember {o : ObjectRef} (ho : d.Val m₁ (.object o)) :
    d.Attempts m₁ m₂ d.Val (assignMember o key op value m₁.store)
      (assignMember o key op value m₂.store) := by
  obtain ⟨heq, hholds⟩ := d.members hl (d.target_of_val ho)
  unfold assignMember
  dsimp only
  rw [← heq, ← d.text_eq hl hk]
  have hcurrent : d.Val m₁ (((m₁.store.members o).get? (key.text m₁.store)).getD .undefined) := by
    cases h : (m₁.store.members o).get? (key.text m₁.store) with
    | none => exact d.val_plain rfl
    | some v =>
      obtain ⟨e, he, rfl⟩ := Table.mem_of_get? h
      exact hholds e he
  have hupdated := d.assign_val hcurrent hv op m₁.store
  rw [← d.assign_eq hl hcurrent hv op]
  have hkeeps := d.setMember hl ho hupdated (key.text m₁.store)
  exact .ok hkeeps (d.val_later hkeeps.later hupdated)

omit hp in
theorem attempts_assignPlace (ht : d.Val m₁ target) :
    d.Attempts m₁ m₂ d.Val (assignPlace name target key op value m₁.store)
      (assignPlace name target key op value m₂.store) := by
  cases target with
  | array a => exact attempts_assignElement hl hk hv name ht
  | object o => exact attempts_assignMember hl hk hv ht
  | _ => exact .error _

end Places

theorem matches_assignName {name : String} {op : AssignOp} {value : Expr} (hl : d.Linked m₁ m₂)
    (hs : d.InScope m₁ scope) (he : exprAll d.allowed value) :
    d.Matches m₁ d.Val (assignName E₁ scope name op value m₁)
      (assignName E₂ scope name op value m₂) := by
  unfold assignName
  refine d.matches_bind (hp.expr hl hs he) fun v n₁ n₂ hl₁ h₁ hv => ?_
  have hs₁ := d.inScope_later h₁ hs
  have hcurrent := d.scope_get_val hl₁ hs₁ name
  have hupdated := d.assign_val hcurrent hv op n₁.store
  refine d.matches_read_bind ?_ ?_
  · rw [← d.scope_get_eq hl₁ hs₁]
    exact d.assign_eq hl₁ hcurrent hv op
  · refine d.matches_bind (d.matches_change (d.keeps_set hl₁ hs₁ hupdated name))
      fun _ k₁ k₂ hl₂ h₂ _ => ?_
    exact d.matches_done hl₂ (d.val_later h₂ hupdated)

theorem matches_assignIndex {name : String} {index : Expr} {op : AssignOp} {value : Expr}
    (hl : d.Linked m₁ m₂) (hs : d.InScope m₁ scope) (hi : exprAll d.allowed index)
    (he : exprAll d.allowed value) :
    d.Matches m₁ d.Val (assignIndex E₁ scope name index op value m₁)
      (assignIndex E₂ scope name index op value m₂) := by
  unfold assignIndex
  refine d.matches_read_bind (d.scope_get?_eq hl hs name) ?_
  -- The array or object is looked up before the index and the value are evaluated.
  cases htarget : scope.get? m₁.store name with
  | none => exact d.matches_fail hl _
  | some target =>
    have ht := d.scope_get?_val hl hs htarget
    refine d.matches_bind (hp.expr hl hs hi) fun key n₁ n₂ hl₁ h₁ hkey => ?_
    refine d.matches_bind (hp.expr hl₁ (d.inScope_later h₁ hs) he) fun v k₁ k₂ hl₂ h₂ hv => ?_
    exact d.matches_attempt hl₂ (attempts_assignPlace hl₂ (d.val_later h₂ hkey) hv name
      (d.val_later h₂ (d.val_later h₁ ht)))

omit hp in
theorem matches_update {op : UpdateOp} {before : Bool} {name : String} (hl : d.Linked m₁ m₂)
    (hs : d.InScope m₁ scope) :
    d.Matches m₁ d.Val (update scope op before name m₁) (update scope op before name m₂) := by
  unfold update
  refine d.matches_read_bind (d.scope_get?_eq hl hs name) ?_
  cases hcurrent : scope.get? m₁.store name with
  | none => exact d.matches_fail hl _
  | some v =>
    refine d.matches_read_bind (d.toNumber_eq hl (d.scope_get?_val hl hs hcurrent)) ?_
    refine d.matches_bind (d.matches_change (d.keeps_set hl hs (d.val_plain rfl) name))
      fun _ n₁ n₂ hl₁ _ _ => ?_
    exact d.matches_done hl₁ (d.val_plain rfl)

/-! ## Expressions -/

omit hp in
theorem matches_makeFunction {name : String} {params : List String} {body : List Stmt}
    (hl : d.Linked m₁ m₂) (hs : d.InScope m₁ scope) (hb : bodyAll d.allowed body) :
    d.Matches m₁ d.Val (makeFunction scope name params body m₁)
      (makeFunction scope name params body m₂) := by
  unfold makeFunction
  obtain ⟨heq, hkeeps, hval⟩ :=
    d.addClosure (c := ⟨⟨name, params, body⟩, scope⟩) hl hs hb
  refine d.matches_bind (Q := fun m f => d.Val m (.function f)) (d.matches_add heq hkeeps hval)
    fun f n₁ n₂ hl₁ h₁ hf => ?_
  refine d.matches_bind (d.matches_change (d.keeps_setLocal hl₁ (d.inScope_later h₁ hs) hf name))
    fun _ k₁ k₂ hl₂ h₂ _ => ?_
  exact d.matches_done hl₂ (d.val_later h₂ hf)

theorem matches_evalBinary {op : BinaryOp} {left right : Expr} (hl : d.Linked m₁ m₂)
    (hs : d.InScope m₁ scope) (ha : exprAll d.allowed left) (hb : exprAll d.allowed right) :
    d.Matches m₁ d.Val (evalBinary E₁ scope op left right m₁)
      (evalBinary E₂ scope op left right m₂) := by
  unfold evalBinary
  refine d.matches_bind (hp.expr hl hs ha) fun a n₁ n₂ hl₁ h₁ hva => ?_
  refine d.matches_ite (fun _ => d.matches_done hl₁ hva) fun _ => ?_
  refine d.matches_bind (hp.expr hl₁ (d.inScope_later h₁ hs) hb) fun b k₁ k₂ hl₂ h₂ hvb => ?_
  replace hva := d.val_later h₂ hva
  exact d.matches_read hl₂ (d.binary_eq hl₂ hva hvb op) (d.binary_val hva hvb op k₁.store)

theorem matches_exprStep {e : Expr} (hl : d.Linked m₁ m₂) (hs : d.InScope m₁ scope)
    (he : exprAll d.allowed e) :
    d.Matches m₁ d.Val (exprStep p E₁ scope e m₁) (exprStep q E₂ scope e m₂) := by
  cases e with
  | literal l => cases l <;> exact d.matches_done hl (d.val_plain rfl)
  | ident name =>
    rw [exprStep, exprStep]
    exact d.matches_read hl (d.scope_get_eq hl hs name) (d.scope_get_val hl hs name)
  | array items =>
    refine d.matches_bind (matches_evalAll hp hl hs he) fun values n₁ n₂ hl₁ _ hvalues => ?_
    exact matches_addArray hl₁ hvalues
  | object members =>
    refine d.matches_bind (matches_evalMembers hp hl hs he (d.holds_empty m₁))
      fun table n₁ n₂ hl₁ _ htable => ?_
    obtain ⟨heq, hkeeps, hval⟩ := d.addObject hl₁ htable
    exact d.matches_add heq hkeeps hval
  | function name params body => exact matches_makeFunction hl hs he
  | unary op operand =>
    refine d.matches_bind (hp.expr hl hs he) fun v n₁ n₂ hl₁ _ hv => ?_
    exact d.matches_read hl₁ (d.unary_eq hl₁ hv op) (d.unary_val op n₁.store)
  | update op before name => exact matches_update hl hs
  | binary op left right => exact matches_evalBinary hp hl hs he.1 he.2
  | conditional test consequent alternate =>
    refine d.matches_bind (hp.expr hl hs he.1) fun v n₁ n₂ hl₁ h₁ _ => ?_
    have hs₁ := d.inScope_later h₁ hs
    exact d.matches_ite (fun _ => hp.expr hl₁ hs₁ he.2.1) fun _ => hp.expr hl₁ hs₁ he.2.2
  | assign name index op value =>
    cases index with
    | none => exact matches_assignName hp hl hs he.2
    | some index => exact matches_assignIndex hp hl hs he.1 he.2
  | sequence items => exact matches_evalSequence hp hl hs he (d.val_plain rfl)
  | member object property optional => exact matches_evalMember hp hl hs he.1 he.2
  | call callee args => exact matches_evalCall hp hl hs he.1 he.2

end PlayerScript.Discipline
