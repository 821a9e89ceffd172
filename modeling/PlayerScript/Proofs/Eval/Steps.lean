/-
Steps of a run that is known. A computation that goes on after a known result goes on from the state
that the result was left in; so an expression whose parts are known is known.
-/
import PlayerScript.Eval
import PlayerScript.Proofs.Store.Scopes
import PlayerScript.Proofs.Value.Texts

namespace PlayerScript

variable {store : Store} {e : Expr} {args : List Expr} {values : List Value} {how : String}

namespace Scope

/-- A name that the innermost layer binds is read from there. -/
theorem get?_innermost {s : Scope} {t : Table Value} {name : String} {v : Value}
    (hlayer : store.layers.get? s.innermost.index = some t) (h : t.get? name = some v) :
    s.get? store name = some v := by
  rw [get?, layers, List.findSome?_cons, Store.layer, hlayer, Option.getD_some, h]

/-- A name that the innermost layer binds is written there. -/
theorem set_innermost {s : Scope} {t : Table Value} {name : String} {v : Value}
    (hlayer : store.layers.get? s.innermost.index = some t) (h : t.get? name = some v) (w : Value) :
    s.set store name w = s.setLocal store name w := by
  have hdefiner : s.definer? store name = some s.innermost := by
    rw [definer?, layers, List.find?_cons, Store.layer, hlayer, Option.getD_some, Table.contains, h]
    rfl
  rw [set, hdefiner]
  rfl

end Scope

namespace Eval

variable {α β : Type} {m m' : Machine}

theorem bind_of_done {x : Eval α} {a : α} (h : x m = .done a m') (f : α → Eval β) :
    (x >>= f) m = f a m' := by
  show andThen x f m = f a m'
  rw [andThen, h]

/-! ## Expressions -/

variable {p : Program} {rounds b : Nat} {scope : Scope} {name : String} {v target key : Value}

theorem evalExpr_succ (p : Program) (rounds b : Nat) :
    evalExpr p rounds (b + 1) = exprStep p (evaluators p rounds b) := by
  funext scope e
  rw [evalExpr]
  rfl

theorem execStmt_succ (p : Program) (rounds b : Nat) :
    execStmt p rounds (b + 1) = stmtStep rounds (evaluators p rounds b) := by
  funext scope s
  rw [execStmt]
  rfl

theorem evalExpr_literal (l : Literal) :
    evalExpr p rounds (b + 1) scope (.literal l) m = .done (literal l) m := by
  rw [evalExpr_succ]
  rfl

theorem evalExpr_ident (h : scope.get? m.store name = some v) :
    evalExpr p rounds (b + 1) scope (.ident name) m = .done v m := by
  rw [evalExpr_succ]
  show Outcome.done (scope.get m.store name) m = _
  rw [Scope.get, h]
  rfl

theorem evalAll_nil : evalAll (evaluators p rounds b) scope [] m = .done [] m := rfl

theorem evalAll_cons {parts : Evaluators} {es : List Expr} {vs : List Value} {m'' : Machine}
    (he : parts.expr scope e m = .done v m') (hes : evalAll parts scope es m' = .done vs m'') :
    evalAll parts scope (e :: es) m = .done (v :: vs) m'' :=
  (bind_of_done he _).trans (bind_of_done hes _)

theorem evalAll_cons_evalExpr {es : List Expr} {vs : List Value} {m'' : Machine}
    (he : evalExpr p rounds b scope e m = .done v m')
    (hes : evalAll (evaluators p rounds b) scope es m' = .done vs m'') :
    evalAll (evaluators p rounds b) scope (e :: es) m = .done (v :: vs) m'' := evalAll_cons he hes

theorem namespace?_bound (h : scope.get? m.store name = some v) :
    (namespace? m.store scope (.ident name)) = none := by
  rw [namespace?, Scope.contains_eq, h]
  rfl

theorem memberTarget_bound (h : scope.get? m.store name = some v) (optional : Bool) :
    memberTarget p (evaluators p rounds (b + 1)) scope (.ident name) optional m = .done v m := by
  have hcontains : scope.contains m.store name = true := by
    rw [Scope.contains_eq, h]
    rfl
  show (if scope.contains m.store name = true then evalExpr p rounds (b + 1) scope (.ident name) m
    else namedObject p name optional m) = _
  rw [if_pos hcontains]
  exact evalExpr_ident h

/-- A member of the value of a variable. -/
theorem evalExpr_member {property : Property} (h : scope.get? m.store name = some target)
    (hkey : propertyKey (evaluators p rounds (b + 1)) scope property m = .done key m)
    (hmember : target.member m.store key = .ok v) :
    evalExpr p rounds (b + 2) scope (.member (.ident name) property false) m = .done v m := by
  have hspace : Eval.read (fun store => namespace? store scope (.ident name)) m = .done none m := by
    rw [Eval.read, namespace?_bound h]
  rw [evalExpr_succ]
  refine (bind_of_done hspace _).trans ((bind_of_done (memberTarget_bound h false) _).trans
    ((bind_of_done hkey _).trans ?_))
  show Eval.ofExcept (target.member m.store key) m = _
  rw [hmember]
  rfl

theorem evalExpr_callMember {object : Expr} {property : Property}
    (hborrowed : borrowed? m.store scope object property = none)
    (hspace : namespace? m.store scope object = none) :
    evalExpr p rounds (b + 1) scope (.call (.member object property false) args) m =
      callMember p (evaluators p rounds b) scope object property false args m := by
  rw [evalExpr_succ]
  show evalCall p (evaluators p rounds b) scope (.member object property false) args m = _
  unfold evalCall
  dsimp only
  rw [hborrowed, hspace]

theorem callMethod_eq_attempt {method : Method}
    (hmethod : Method.ofName? how = some method) (hplain : method ≠ .forEach) (parts : Evaluators) :
    callMethod parts target how values m =
      Eval.attempt (fun store => method.run store target values) m := by
  unfold callMethod
  rw [hmethod]
  cases method with
  | forEach => exact absurd rfl hplain
  | _ => rfl

/-- A method of the value of a variable is called if no function is stored under its name. -/
theorem evalExpr_method {method : Method} (h : scope.get? m.store name = some target)
    (hargs : evalAll (evaluators p rounds (b + 1)) scope args m = .done values m)
    (hstored : memberFunction? m.store target (.string how) = .ok none)
    (hmethod : Method.ofName? how = some method) (hplain : method ≠ .forEach)
    (hrun : method.run m.store target values = .ok (v, store)) :
    evalExpr p rounds (b + 2) scope (.call (.member (.ident name) (.name how) false) args) m =
      .done v { m with store := store } := by
  have hkey : propertyKey (evaluators p rounds (b + 1)) scope (.name how) m = .done (.string how) m := rfl
  have hread : Eval.read (fun store => memberFunction? store target (.string how)) m =
      .done (.ok none) m := by
    rw [Eval.read, hstored]
  have hname : Eval.read (fun store => (Value.string how).text store) m = .done how m := by
    rw [Eval.read, Value.text_string]
  have hcall : callMethod (evaluators p rounds (b + 1)) target how values m =
      .done v { m with store := store } := by
    rw [callMethod_eq_attempt hmethod hplain, Eval.attempt, hrun]
  rw [evalExpr_callMember rfl (namespace?_bound h)]
  refine (bind_of_done (memberTarget_bound h false) _).trans ((bind_of_done hkey _).trans
    ((bind_of_done hargs _).trans ((bind_of_done hread _).trans ?_)))
  have hnone : Eval.ofExcept (.ok (none : Option FunctionRef)) m = .done none m := rfl
  refine (bind_of_done hnone _).trans ?_
  exact (bind_of_done hname (callMethod (evaluators p rounds (b + 1)) target · values)).trans hcall

/-- A function that is stored as a member is called. -/
theorem evalExpr_stored {object : Expr}
    {f : FunctionRef} (hborrowed : borrowed? m.store scope object (.name how) = none)
    (hspace : namespace? m.store scope object = none)
    (htarget : memberTarget p (evaluators p rounds b) scope object false m = .done target m')
    (hargs : evalAll (evaluators p rounds b) scope args m' = .done values m')
    (hstored : memberFunction? m'.store target (.string how) = .ok (some f)) :
    evalExpr p rounds (b + 1) scope (.call (.member object (.name how) false) args) m =
      invoke (evaluators p rounds b) f values [] m' := by
  have hkey : propertyKey (evaluators p rounds b) scope (.name how) m' = .done (.string how) m' := rfl
  have hread : Eval.read (fun store => memberFunction? store target (.string how)) m' =
      .done (.ok (some f)) m' := by
    rw [Eval.read, hstored]
  have hsome : Eval.ofExcept (.ok (some f)) m' = .done (some f) m' := rfl
  rw [evalExpr_callMember hborrowed hspace]
  exact (bind_of_done htarget _).trans ((bind_of_done hkey _).trans ((bind_of_done hargs _).trans
    ((bind_of_done hread _).trans (bind_of_done hsome _))))

/-- A variable is assigned. -/
theorem evalExpr_assignName (he : evalExpr p rounds b scope e m = .done v m') :
    evalExpr p rounds (b + 1) scope (.assign name none none e) m =
      .done v { m' with store := scope.set m'.store name v } := by
  rw [evalExpr_succ]
  exact bind_of_done he _

/-- The variable of an assignment to a place is read first, then the index and the value are
evaluated, and last the place is written. -/
theorem evalExpr_assignPlace {index : Expr} {op : AssignOp} {m₁ m₂ : Machine}
    (h : scope.get? m.store name = some target)
    (hindex : evalExpr p rounds b scope index m = .done key m₁)
    (he : evalExpr p rounds b scope e m₁ = .done v m₂) :
    evalExpr p rounds (b + 1) scope (.assign name (some index) op e) m =
      Eval.attempt (assignPlace name target key op v) m₂ := by
  have hread : Eval.read (fun store => scope.get? store name) m = .done (some target) m := by
    rw [Eval.read, h]
  rw [evalExpr_succ]
  exact (bind_of_done hread _).trans ((bind_of_done hindex _).trans (bind_of_done he _))

/-- A place of the value of a variable is assigned. -/
theorem evalExpr_assignIndex {index : Expr} {w : Value} (h : scope.get? m.store name = some target)
    (hindex : evalExpr p rounds b scope index m = .done key m)
    (he : evalExpr p rounds b scope e m = .done v m)
    (hassign : assignPlace name target key none v m.store = .ok (w, store)) :
    evalExpr p rounds (b + 1) scope (.assign name (some index) none e) m =
      .done w { m with store := store } := by
  rw [evalExpr_assignPlace h hindex he, Eval.attempt, hassign]

/-! ## Statements and calls -/

theorem execStmt_expr (he : evalExpr p rounds b scope e m = .done v m') :
    execStmt p rounds (b + 1) scope (.expr e) m = .done (.normal v) m' := by
  rw [execStmt_succ]
  exact bind_of_done he _

theorem execStmt_returns (he : evalExpr p rounds b scope e m = .done v m') :
    execStmt p rounds (b + 1) scope (.returns (some e)) m = .done (.returned v) m' := by
  rw [execStmt_succ]
  have hoptional : evalOptional (evaluators p rounds b) scope (some e) m = .done (some v) m' :=
    bind_of_done he _
  exact bind_of_done hoptional _

/-- A variable is declared with a value. -/
theorem execStmt_var (he : evalExpr p rounds b scope e m = .done v m') :
    execStmt p rounds (b + 1) scope (.var [(name, some e)]) m =
      .done (.normal .undefined) { m' with store := scope.setLocal m'.store name v } := by
  rw [execStmt_succ]
  have hdeclare : declare (evaluators p rounds b) scope [(name, some e)] m =
      .done () { m' with store := scope.setLocal m'.store name v } :=
    bind_of_done he _
  exact bind_of_done hdeclare _

theorem block_cons {s : Stmt} {rest : List Stmt} {last : Value}
    (hs : execStmt p rounds b scope s m = .done (.normal v) m') :
    block (evaluators p rounds b) scope (s :: rest) last m =
      block (evaluators p rounds b) scope rest v m' :=
  bind_of_done hs _

theorem block_returned {s : Stmt} {rest : List Stmt} {last : Value}
    (hs : execStmt p rounds b scope s m = .done (.returned v) m') :
    block (evaluators p rounds b) scope (s :: rest) last m = .done (.returned v) m' :=
  bind_of_done hs _

/-- A call runs the body of the function in a new layer. -/
theorem invoke_eq {f : FunctionRef} {d : FunctionDef} {captured : Scope} {args : List Value}
    (hf : m.store.closures.get? f.index = some ⟨d, captured⟩) {completion : Completion}
    (hblock : block (evaluators p rounds b)
      (captured.child m.store (bindings d.params args [] Table.empty)).1 d.body .undefined
      { m with store := (captured.child m.store (bindings d.params args [] Table.empty)).2 } =
        .done completion m') :
    invoke (evaluators p rounds b) f args [] m = callResult d.name completion m' := by
  have hclosure : Eval.read (fun store => store.closure f) m = .done ⟨d, captured⟩ m := by
    rw [Eval.read, Store.closure, hf]
    rfl
  refine (bind_of_done hclosure _).trans ?_
  have hadd : Eval.add (fun store => captured.child store (bindings d.params args [] Table.empty)) m =
      .done (captured.child m.store (bindings d.params args [] Table.empty)).1
        { m with store := (captured.child m.store (bindings d.params args [] Table.empty)).2 } := rfl
  exact (bind_of_done hadd _).trans (bind_of_done hblock _)

end Eval
end PlayerScript
