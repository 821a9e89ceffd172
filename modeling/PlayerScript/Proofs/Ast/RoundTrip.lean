/-
Parsing undoes printing. Each construct is read by one step of the parser from parts that are read
already, and every step takes one level of nesting, or two with the parentheses around an
expression. So twice the size of a tree is depth enough, and any greater depth gives the same.
-/
import PlayerScript.Proofs.Ast.Parser.Statement
import PlayerScript.Proofs.Ast.Relocation

namespace PlayerScript.Ast

open Shape Item

/-! ## Parts that can be written -/

theorem elementsWritable_mem {es : List Expr} (h : elementsWritable es = true) :
    ∀ e ∈ es, exprWritable e = true := by
  induction es with
  | nil => exact List.forall_mem_nil _
  | cons e rest ih =>
    rw [elementsWritable, Bool.and_eq_true] at h
    exact List.forall_mem_cons.2 ⟨h.1, ih h.2⟩

theorem membersWritable_mem {members : List (String × Expr)} (h : membersWritable members = true) :
    ∀ m ∈ members, exprWritable m.2 = true := by
  induction members with
  | nil => exact List.forall_mem_nil _
  | cons m rest ih =>
    rw [membersWritable, Bool.and_eq_true] at h
    exact List.forall_mem_cons.2 ⟨h.1, ih h.2⟩

theorem optionalWritable_mem {value : Option Expr} (h : optionalWritable value = true) :
    ∀ e ∈ value, exprWritable e = true := by
  rintro e ⟨⟩
  rwa [optionalWritable] at h

theorem declsWritable_mem : ∀ {decls : List (String × Option Expr)}, declsWritable decls = true →
    ∀ d ∈ decls, ∀ e ∈ d.2, exprWritable e = true
  | [], _ => List.forall_mem_nil _
  | (_, value) :: rest, h => by
    simp only [declsWritable, Bool.and_eq_true] at h
    exact List.forall_mem_cons.2 ⟨optionalWritable_mem h.1.2, declsWritable_mem h.2⟩

theorem bodyWritable_mem {stmts : List Stmt} (h : bodyWritable stmts = true) :
    ∀ s ∈ stmts, stmtWritable s = true := by
  induction stmts with
  | nil => exact List.forall_mem_nil _
  | cons s rest ih =>
    rw [bodyWritable, Bool.and_eq_true] at h
    exact List.forall_mem_cons.2 ⟨h.1, ih h.2⟩

theorem clausesWritable_mem : ∀ {clauses : List Clause}, clausesWritable clauses = true →
    ∀ label body, Clause.mk label body ∈ clauses →
      optionalWritable label = true ∧ bodyWritable body = true
  | [], _, _, _, hmem => by cases hmem
  | .mk label body :: rest, h, label', body', hmem => by
    simp only [clausesWritable, Bool.and_eq_true] at h
    rcases List.mem_cons.1 hmem with heq | hmem
    · cases heq
      exact h.1
    · exact clausesWritable_mem h.2 label' body' hmem

theorem inside_ne_nil {e : Expr} (h : exprWritable e = true) : inside e ≠ [] := by
  cases e with
  | sequence items =>
    simp only [exprWritable, Bool.and_eq_true, decide_eq_true_eq] at h
    match items, h.1 with
    | _ :: _ :: _, _ => simp [inside, elementShapes, commas_cons]
  | update op before name => cases before <;> simp [inside]
  | assign name index op value => cases index <;> simp [inside]
  | member object property optional =>
    cases property <;> cases optional <;> simp [inside]
  | _ => simp [inside]

/-! ## Depth -/

/-- Trees that are small for the depth are read back. -/
structure ReadsWithin (depth : Nat) : Prop where
  bare : ∀ e, exprWritable e = true → 2 * sizeOf e ≤ depth →
    ∀ before, expressionWithin depth ⟨before, ofShapes (inside e)⟩ = Parse.done e
  wrapped : ∀ e, exprWritable e = true → 2 * sizeOf e < depth →
    ∀ before, expressionWithin depth ⟨before, ofShapes [.group .round (inside e)]⟩ = Parse.done e
  stmt : ∀ s, stmtWritable s = true → 2 * sizeOf s ≤ depth → GivesBack (statementWithin depth) s
  block : ∀ s, stmtWritable s = true → isBlock s = true → 2 * sizeOf s ≤ depth →
    GivesBlock (statementWithin depth) s

variable {depth : Nat}

theorem ReadsWithin.reads (ih : ReadsWithin depth) {e : Expr} (hw : exprWritable e = true)
    (h : 2 * sizeOf e < depth) :
    Reads (parsersWithin depth) e :=
  ⟨ih.bare e hw (Nat.le_of_lt h), ih.wrapped e hw h⟩

theorem ReadsWithin.readsBody (ih : ReadsWithin depth) {stmts : List Stmt}
    (hw : bodyWritable stmts = true) (h : 2 * sizeOf stmts ≤ depth) : ReadsBody (parsersWithin depth) stmts := by
  refine Ast.readsBody hw fun s hs => ih.stmt s (bodyWritable_mem hw s hs) ?_
  have := List.sizeOf_lt_of_mem hs
  omega

theorem ReadsWithin.reads_mem (ih : ReadsWithin depth) {es : List Expr}
    (hw : elementsWritable es = true) (h : 2 * sizeOf es ≤ depth) : ∀ e ∈ es, Reads (parsersWithin depth) e := by
  intro e he
  have := List.sizeOf_lt_of_mem he
  exact ih.reads (elementsWritable_mem hw e he) (by omega)

theorem expressionStep_within (ih : ReadsWithin depth) {e : Expr} (hw : exprWritable e = true)
    (h : 2 * sizeOf e ≤ depth + 1) {before : Option Token} :
    expressionStep (parsersWithin depth) ⟨before, ofShapes (inside e)⟩ = Parse.done e := by
  cases e with
  | literal value => rw [inside]; exact expressionStep_literal _ _ value
  | ident name => rw [inside]; exact expressionStep_name _ _ rfl (not_reserved hw)
  | array es =>
    simp at h
    exact expressionStep_array (ih.reads_mem hw (by omega))
  | object members =>
    simp at h
    refine expressionStep_object (fun m hm => ih.reads (membersWritable_mem hw m hm) ?_)
    have := List.sizeOf_lt_of_mem hm
    obtain ⟨key, value⟩ := m
    simp at this
    simp
    omega
  | function name params body =>
    simp only [exprWritable, Bool.and_eq_true] at hw
    simp at h
    exact expressionStep_function (ih.readsBody hw.2 (by omega))
  | unary op operand =>
    simp at h
    exact expressionStep_unary (ih.reads hw (by omega))
  | update op before name => exact expressionStep_update hw
  | binary op left right =>
    simp only [exprWritable, Bool.and_eq_true] at hw
    simp at h
    exact expressionStep_binary (ih.reads hw.1 (by omega)) (ih.reads hw.2 (by omega))
  | conditional test consequent alternate =>
    simp only [exprWritable, Bool.and_eq_true] at hw
    simp at h
    exact expressionStep_conditional (ih.reads hw.1.1 (by omega)) (ih.reads hw.1.2 (by omega))
      (ih.reads hw.2 (by omega))
  | assign name index op value =>
    simp only [exprWritable, Bool.and_eq_true] at hw
    simp at h
    refine expressionStep_assign hw.1.1.1 (fun e he => ?_) (ih.reads hw.2 (by omega))
    cases he
    simp at h
    exact ih.reads (by simpa [optionalWritable] using hw.1.1.2) (by omega)
  | sequence es =>
    simp only [exprWritable, Bool.and_eq_true, decide_eq_true_eq] at hw
    simp at h
    exact expressionStep_sequence hw.1 (ih.reads_mem hw.2 (by omega))
  | member object property optional =>
    cases property with
    | name name =>
      simp only [exprWritable, Bool.and_eq_true] at hw
      simp at h
      exact expressionStep_named (ih.reads hw.1 (by omega))
    | computed key =>
      simp only [exprWritable, Bool.and_eq_true] at hw
      simp at h
      exact expressionStep_computed (ih.reads hw.1 (by omega)) (ih.reads hw.2 (by omega))
  | call callee args =>
    simp only [exprWritable, Bool.and_eq_true] at hw
    simp at h
    exact expressionStep_call (ih.reads hw.1 (by omega)) (ih.reads_mem hw.2 (by omega))

theorem ReadsWithin.reads_optional (ih : ReadsWithin depth) {value : Option Expr}
    (hw : optionalWritable value = true) (h : 2 * sizeOf value ≤ depth) :
    ∀ e ∈ value, Reads (parsersWithin depth) e := by
  rintro e ⟨⟩
  simp at h
  exact ih.reads (optionalWritable_mem hw e rfl) (by omega)

theorem ReadsWithin.reads_decls (ih : ReadsWithin depth) {decls : List (String × Option Expr)}
    (hw : declsWritable decls = true) (h : 2 * sizeOf decls ≤ depth) :
    ∀ d ∈ decls, ∀ e ∈ d.2, Reads (parsersWithin depth) e := by
  rintro ⟨name, value⟩ hd e ⟨⟩
  have := List.sizeOf_lt_of_mem hd
  simp at this
  exact ih.reads (declsWritable_mem hw _ hd e rfl) (by omega)

theorem ReadsWithin.readsInit (ih : ReadsWithin depth) {init : Option Stmt}
    (hw : initWritable init = true) (h : 2 * sizeOf init ≤ depth) :
    ReadsInit (parsersWithin depth) init := by
  unfold initWritable at hw
  split at hw
  · trivial
  · rw [Bool.and_eq_true, Bool.not_eq_true', List.isEmpty_eq_false_iff] at hw
    simp at h
    exact ⟨hw.1, ih.reads_decls hw.2 (by omega)⟩
  · simp at h
    exact ih.reads hw (by omega)
  · cases hw

theorem ReadsWithin.readsClauses (ih : ReadsWithin depth) {clauses : List Clause}
    (hw : clausesWritable clauses = true) (h : 2 * sizeOf clauses ≤ depth) :
    ∀ c ∈ clauses, ReadsClause (parsersWithin depth) c := by
  rintro ⟨label, body⟩ hc
  have hlt := List.sizeOf_lt_of_mem hc
  have hc' := clausesWritable_mem hw label body hc
  simp at hlt
  exact ⟨ih.reads_optional hc'.1 (by omega), ih.readsBody hc'.2 (by omega)⟩

theorem statementStep_within (ih : ReadsWithin depth) {s : Stmt} (hw : stmtWritable s = true)
    (h : 2 * sizeOf s ≤ depth + 1) : GivesBack (statementStep (parsersWithin depth)) s := by
  cases s with
  | empty => cases hw
  | expr e =>
    simp at h
    exact statementStep_expr (ih.reads hw (by omega))
  | var decls =>
    rw [stmtWritable, Bool.and_eq_true, Bool.not_eq_true', List.isEmpty_eq_false_iff] at hw
    simp at h
    exact statementStep_var hw.1 (ih.reads_decls hw.2 (by omega))
  | returns value =>
    simp at h
    exact statementStep_returns (ih.reads_optional hw (by omega))
  | throws value =>
    simp at h
    exact statementStep_throws (ih.reads hw (by omega))
  | block body =>
    simp at h
    exact (statementStep_block (ih.readsBody hw (by omega))).givesBack (by simp [stmtShapes])
  | ifElse cond body otherwise =>
    simp at h
    cases otherwise with
    | none =>
      simp only [stmtWritable, Bool.and_eq_true] at hw
      exact statementStep_if (ih.reads hw.1.1 (by omega)) (ih.block body hw.2 hw.1.2 (by omega))
    | some otherwise =>
      simp only [stmtWritable, Bool.and_eq_true] at hw
      simp at h
      obtain ⟨⟨⟨⟨hcond, hblock⟩, hbody⟩, hblock'⟩, hother⟩ := hw
      exact statementStep_ifElse (ih.reads hcond (by omega)) (ih.block body hbody hblock (by omega))
        (ih.block otherwise hother hblock' (by omega))
  | forLoop init cond update body =>
    simp only [stmtWritable, Bool.and_eq_true] at hw
    simp at h
    obtain ⟨⟨⟨⟨hinit, hcond⟩, hupdate⟩, hblock⟩, hbody⟩ := hw
    exact statementStep_for (ih.readsInit hinit (by omega)) (ih.reads_optional hcond (by omega))
      (ih.reads_optional hupdate (by omega)) (ih.block body hbody hblock (by omega))
  | switch selector clauses =>
    rw [stmtWritable, Bool.and_eq_true] at hw
    simp at h
    exact statementStep_switch (ih.reads hw.1 (by omega)) hw.2 (ih.readsClauses hw.2 (by omega))
  | tryBlock body handler cleanup =>
    simp at h
    cases cleanup with
    | none =>
      simp only [stmtWritable, Bool.and_eq_true] at hw
      exact statementStep_try (ih.readsBody hw.1 (by omega))
    | some cleanup =>
      simp only [stmtWritable, Bool.and_eq_true] at hw
      simp at h
      exact statementStep_tryFinally (ih.readsBody hw.1.1 (by omega)) (ih.readsBody hw.2 (by omega))
  | breaks => exact statementStep_breaks
  | continues => exact statementStep_continues

theorem readsWithin : ∀ depth : Nat, ReadsWithin depth
  | 0 => by
    refine ⟨fun e _ h => ?_, fun e _ h => ?_, fun s _ h => ?_, fun s _ _ h => ?_⟩
    · cases e <;> simp at h
    · omega
    · cases s <;> simp at h
    · cases s <;> simp at h
  | depth + 1 => by
    -- A step goes one deeper, and parentheses go one deeper than what they enclose.
    have ih := readsWithin depth
    refine ⟨fun e hw h before => ?_, fun e hw h before => ?_, fun s hw h => ?_, fun s hw hb h => ?_⟩
    · rw [expressionWithin_succ (mt ofShapes_eq_nil.1 (inside_ne_nil hw))]
      exact expressionStep_within ih hw h
    · rw [expressionWithin_succ (by simp)]
      exact expressionStep_wrapped (ih.bare e hw (by omega))
    · intro clauseNext before rest hrest
      obtain ⟨first, more, hs, -⟩ := stmtShapes_opens hw
      rw [statementWithin_succ (by simp [hs])]
      exact statementStep_within ih hw h clauseNext before rest hrest
    · intro clauseNext before rest hrest
      obtain ⟨first, more, hs, -⟩ := stmtShapes_opens hw
      rw [statementWithin_succ (by simp [hs])]
      cases s with
      | block body =>
        simp at h
        exact statementStep_block (ih.readsBody hw (by omega)) clauseNext before rest hrest
      | _ => cases hb

/-- Parsing the text of statements gives the statements back, at every depth that is large enough,
and mints no name. -/
theorem parseStatements_print (numerals : Numerals) (stmts : List Stmt)
    (h : bodyWritable stmts = true) :
    ∃ enough, ∀ maxDepth, enough ≤ maxDepth → ∀ minted,
      parseStatements (print numerals stmts) maxDepth minted = (.ok stmts, minted) := by
  refine ⟨2 * sizeOf stmts, fun maxDepth hdepth minted => ?_⟩
  obtain ⟨ts, htokens, hkinds⟩ := tokenize_print numerals h
  have hread := ((readsWithin maxDepth).readsBody h hdepth false none).1
  exact (parseStatements_of_shapes htokens hkinds (writable_body stmts h) maxDepth minted).ok_iff.1
    (congrFun hread minted)

/-- A program with a loop in a function, a switch and a guarded block. -/
def sampleProgram : List Stmt :=
  [.var [("f", some (.function "g" ["a", "b"]
      [.forLoop (some (.var [("i", some (.literal (.number (Float.ofBits 0x3FF8000000000000))))]))
          (some (.binary .lt (.ident "i") (.member (.ident "a") (.name "length") false)))
          (some (.update .increment false "i"))
          (.block [.expr (.assign "b" (some (.ident "i")) (some .add)
            (.unary .neg (.literal (.string "x\"\\\n"))))]),
        .returns (some (.call (.member (.ident "b") (.computed (.literal (.string "join"))) true)
          [.array [], .object [("", .ident "a")]]))])), ("h", none)],
    .switch (.sequence [.ident "f", .literal .null])
      [.mk (some (.conditional (.ident "f") (.literal (.bool true)) (.ident "h")))
          [.ifElse (.ident "h") (.block []) (some (.block [.breaks]))],
        .mk none [.tryBlock [.throws (.ident "f")] (some (some "e")) (some [.continues])]]]

theorem parseStatements_print_sample : bodyWritable sampleProgram = true ∧
    ∃ enough, ∀ maxDepth, enough ≤ maxDepth → ∀ minted,
      parseStatements (print .expanded sampleProgram) maxDepth minted =
        (.ok sampleProgram, minted) :=
  ⟨by rfl, parseStatements_print .expanded sampleProgram (by rfl)⟩

end PlayerScript.Ast
