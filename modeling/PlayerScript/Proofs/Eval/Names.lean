/-
The names that an interpreter mints. Its count of them never goes down, so that the functions without
a name of their own are named differently in all the texts that it parses. Evaluating such a function
binds its name, and changes what no other name reads.
-/
import PlayerScript.Proofs.Ast.Numbering
import PlayerScript.Proofs.Eval.History

namespace PlayerScript

open Ast Eval

/-! ## The count of an interpreter -/

namespace Program

variable (p : Program) (m : Machine)

end Program

/-- The store with a function that is bound to its name in a scope. -/
def Store.define (s : Store) (scope : Scope) (c : Closure) : Store :=
  scope.setLocal (s.addClosure c).2 c.definition.name (.function (s.addClosure c).1)

theorem evalExpr_function (p : Program) (rounds budget : Nat) (scope : Scope) (name : String)
    (params : List String) (body : List Stmt) (m : Machine) :
    evalExpr p rounds (budget + 1) scope (.function name params body) m =
      .done (.function (m.store.addClosure ⟨⟨name, params, body⟩, scope⟩).1)
        (m.withStore (m.store.define scope ⟨⟨name, params, body⟩, scope⟩)) := by
  rw [evalExpr]
  rfl

/-- What minted names begin with. -/
def mintedStem : List Char := "__ytjs_obj".toList

theorem Ast.stem_infix_syntheticName (n : Nat) : mintedStem <:+: (syntheticName n).toList := by
  rw [syntheticName, String.toList_append]
  exact (List.prefix_append _ _).isInfix

/-- Evaluating a function without a name of its own gives a function that closes over the scope, and
binds its minted name to it in the innermost layer. No other name reads anything else than before, in
any scope; in particular no name that stands in the source, if what minted names begin with does not
stand there. -/
theorem minted_binding_unread (p : Program) (rounds budget n : Nat) (scope : Scope) (params : List String)
    (body : List Stmt) (m : Machine) :
    ∃ f m', evalExpr p rounds (budget + 1) scope (.function (syntheticName n) params body) m =
        .done (.function f) m' ∧
      m'.store.closure f = ⟨⟨syntheticName n, params, body⟩, scope⟩ ∧
      (scope.innermost.index < m.store.layers.size →
        scope.get? m'.store (syntheticName n) = some (.function f)) ∧
      (∀ (s : Scope) (x : String), x ≠ syntheticName n → s.get? m'.store x = s.get? m.store x) ∧
      (¬ mintedStem <:+: p.source → ∀ (s : Scope) (x : String), x.toList <:+: p.source →
        s.get? m'.store x = s.get? m.store x) := by
  let c : Closure := ⟨⟨syntheticName n, params, body⟩, scope⟩
  have hframe : ∀ (s : Scope) (x : String), x ≠ syntheticName n →
      s.get? (m.store.define scope c) x = s.get? m.store x :=
    fun s x hx => Scope.get?_bind_of_ne (m.store.addClosure c).2 s _ _ hx
  refine ⟨_, _, evalExpr_function p rounds budget scope _ params body m, ?_, ?_, hframe, ?_⟩
  · show ((m.store.closures.push c).get? m.store.closures.size).getD default = c
    rw [Arena.get?_push, if_pos rfl]
    rfl
  · exact Scope.get?_setLocal (m.store.addClosure c).2 scope _ _
  · intro hsource s x hx
    refine hframe s x ?_
    rintro rfl
    exact hsource ((stem_infix_syntheticName n).trans hx)

/-- A state with one layer, in which a name is bound. -/
def boundState (name : String) (v : Value) : Machine :=
  .initial ⟨⟨#[Table.empty.insert name v]⟩, Arena.empty, Arena.empty, Arena.empty⟩ Table.empty

/-- The name `x` of the source `x=function(){}` reads the same after the function is evaluated. -/
theorem minted_binding_unread_sample :
    ∃ f m', evalExpr ⟨"x=function()\x7b\x7d".toList, .standard⟩ 1 1 Program.globalScope
        (.function (syntheticName 1) [] []) (boundState "x" (.bool true)) = .done (.function f) m' ∧
      Program.globalScope.get? m'.store (syntheticName 1) = some (.function f) ∧
      Program.globalScope.get? m'.store "x" = some (.bool true) := by
  obtain ⟨f, m', hrun, -, hbound, -, hframe⟩ := minted_binding_unread ⟨"x=function()\x7b\x7d".toList, .standard⟩
    1 0 1 Program.globalScope [] [] (boundState "x" (.bool true))
  have hread : Program.globalScope.get? (boundState "x" (.bool true)).store "x" = some (.bool true) := rfl
  exact ⟨f, m', hrun, hbound (by decide), (hframe (by decide) _ "x" (by decide)).trans hread⟩

/-- A function with a parameter that has the name which is minted for a function inside of it. -/
def overlappingSource : List Char :=
  "function f(__ytjs_obj1)\x7breturn function()\x7b\x7d,__ytjs_obj1\x7d".toList

/-- The state in which that function has been extracted. -/
def overlappingState : Machine where
  store := { Store.initial with
    closures := ⟨#[⟨⟨"f", ["__ytjs_obj1"],
      [.returns (some (.sequence [.function "__ytjs_obj1" [] [], .ident "__ytjs_obj1"]))]⟩, Program.globalScope⟩]⟩ }
  functions := ⟨[("f", ⟨0⟩)]⟩
  objects := Table.empty
  minted := 1

/-- A minted name can stand in the source. There the parameter does not read the argument any more
after the function inside is evaluated. -/
theorem minted_name_collides :
    (∃ m', (Program.mk overlappingSource ⟨9, 9⟩).callFunction "f" [.bool true] (.initial .initial .empty) =
      .done (.function ⟨1⟩) m') ∧
    ¬ ∀ (p : Program) (rounds budget n : Nat) (scope : Scope) (params : List String) (body : List Stmt)
      (m m' : Machine) (v : Value),
      evalExpr p rounds budget scope (.function (syntheticName n) params body) m = .done v m' →
        ∀ (s : Scope) (x : String), x.toList <:+: p.source → s.get? m'.store x = s.get? m.store x := by
  constructor
  · have hcode : Source.functionCode overlappingSource "f" =
        .ok ⟨["__ytjs_obj1"], "return function()\x7b\x7d,__ytjs_obj1".toList⟩ := by cbv
    have hparse : parseStatements "return function()\x7b\x7d,__ytjs_obj1".toList 9 0 =
        (.ok [.returns (some (.sequence [.function "__ytjs_obj1" [] [], .ident "__ytjs_obj1"]))], 1) := rfl
    have hextract : (Program.mk overlappingSource ⟨9, 9⟩).extractFunction "f" (.initial .initial .empty) =
        (.ok ⟨0⟩, overlappingState) := by
      simp only [Program.extractFunction, MemoView.fetch, hcode, Program.compile,
        Program.parse_of_parsed (Program.mk overlappingSource ⟨9, 9⟩) (m := .initial .initial .empty) hparse]
      rfl
    have hcall : ∃ m', (Program.mk overlappingSource ⟨9, 9⟩).call ⟨0⟩ [.bool true] overlappingState =
        .done (.function ⟨1⟩) m' := ⟨_, rfl⟩
    unfold Program.callFunction
    show ∃ m', andThen (ofStep _) _ _ = _
    unfold andThen ofStep
    rw [hextract]
    exact hcall
  · intro hclaim
    have hrun := evalExpr_function ⟨overlappingSource, ⟨9, 9⟩⟩ 1 0 Program.globalScope (syntheticName 1) [] []
      (boundState (syntheticName 1) (.bool true))
    have hsame := hclaim _ _ _ _ _ _ _ _ _ _ hrun Program.globalScope (syntheticName 1) (by decide)
    have hread : Program.globalScope.get? (boundState (syntheticName 1) (.bool true)).store (syntheticName 1) =
        some (.bool true) := rfl
    rw [hread] at hsame
    cases (Scope.get?_setLocal _ Program.globalScope (syntheticName 1) _ (by decide)).symm.trans hsame

end PlayerScript
