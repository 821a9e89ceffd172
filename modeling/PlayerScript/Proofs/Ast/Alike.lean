/-
Trees that differ only in minted names. Parsing a text mints names for its functions that have none;
started with another count, it mints other names. Two trees are alike if they are the same except
for such names, and these differ by the same distance everywhere.
-/
import Mathlib
import PlayerScript.Ast.Parser

namespace PlayerScript.Ast

/-- The same name, or the names minted for the same function when the counts were `k₁` and `k₂` at
the beginning. -/
inductive NameAlike (k₁ k₂ : Nat) : String → String → Prop
  | own (name : String) : NameAlike k₁ k₂ name name
  | minted (i : Nat) : NameAlike k₁ k₂ (syntheticName (k₁ + i)) (syntheticName (k₂ + i))

mutual

/-- Expressions that differ only in minted names. -/
inductive ExprAlike (k₁ k₂ : Nat) : Expr → Expr → Prop
  | literal (value : Literal) : ExprAlike k₁ k₂ (.literal value) (.literal value)
  | ident (name : String) : ExprAlike k₁ k₂ (.ident name) (.ident name)
  | array {xs ys : List Expr} (h : List.Forall₂ (ExprAlike k₁ k₂) xs ys) :
      ExprAlike k₁ k₂ (.array xs) (.array ys)
  | object {xs ys : List (String × Expr)} (h : List.Forall₂ (MemberAlike k₁ k₂) xs ys) :
      ExprAlike k₁ k₂ (.object xs) (.object ys)
  | function {n n' : String} {params : List String} {b b' : List Stmt} (hn : NameAlike k₁ k₂ n n')
      (hb : List.Forall₂ (StmtAlike k₁ k₂) b b') :
      ExprAlike k₁ k₂ (.function n params b) (.function n' params b')
  | unary {op : UnaryOp} {e e' : Expr} (h : ExprAlike k₁ k₂ e e') :
      ExprAlike k₁ k₂ (.unary op e) (.unary op e')
  | update (op : UpdateOp) (before : Bool) (name : String) :
      ExprAlike k₁ k₂ (.update op before name) (.update op before name)
  | binary {op : BinaryOp} {a a' b b' : Expr} (ha : ExprAlike k₁ k₂ a a')
      (hb : ExprAlike k₁ k₂ b b') : ExprAlike k₁ k₂ (.binary op a b) (.binary op a' b')
  | conditional {a a' b b' c c' : Expr} (ha : ExprAlike k₁ k₂ a a') (hb : ExprAlike k₁ k₂ b b')
      (hc : ExprAlike k₁ k₂ c c') :
      ExprAlike k₁ k₂ (.conditional a b c) (.conditional a' b' c')
  | assign {name : String} {i i' : Option Expr} {op : AssignOp} {e e' : Expr}
      (hi : Option.Rel (ExprAlike k₁ k₂) i i') (he : ExprAlike k₁ k₂ e e') :
      ExprAlike k₁ k₂ (.assign name i op e) (.assign name i' op e')
  | sequence {xs ys : List Expr} (h : List.Forall₂ (ExprAlike k₁ k₂) xs ys) :
      ExprAlike k₁ k₂ (.sequence xs) (.sequence ys)
  | member {e e' : Expr} {key key' : Property} {optional : Bool} (he : ExprAlike k₁ k₂ e e')
      (hk : PropertyAlike k₁ k₂ key key') :
      ExprAlike k₁ k₂ (.member e key optional) (.member e' key' optional)
  | call {e e' : Expr} {xs ys : List Expr} (he : ExprAlike k₁ k₂ e e')
      (h : List.Forall₂ (ExprAlike k₁ k₂) xs ys) : ExprAlike k₁ k₂ (.call e xs) (.call e' ys)

/-- Members of an object that differ only in minted names. -/
inductive MemberAlike (k₁ k₂ : Nat) : String × Expr → String × Expr → Prop
  | mk {key : String} {e e' : Expr} (h : ExprAlike k₁ k₂ e e') : MemberAlike k₁ k₂ (key, e) (key, e')

/-- Keys of members that differ only in minted names. -/
inductive PropertyAlike (k₁ k₂ : Nat) : Property → Property → Prop
  | name (name : String) : PropertyAlike k₁ k₂ (.name name) (.name name)
  | computed {e e' : Expr} (h : ExprAlike k₁ k₂ e e') :
      PropertyAlike k₁ k₂ (.computed e) (.computed e')

/-- Declared variables that differ only in minted names. -/
inductive DeclAlike (k₁ k₂ : Nat) : String × Option Expr → String × Option Expr → Prop
  | mk {name : String} {e e' : Option Expr} (h : Option.Rel (ExprAlike k₁ k₂) e e') :
      DeclAlike k₁ k₂ (name, e) (name, e')

/-- Statements that differ only in minted names. -/
inductive StmtAlike (k₁ k₂ : Nat) : Stmt → Stmt → Prop
  | empty : StmtAlike k₁ k₂ .empty .empty
  | expr {e e' : Expr} (h : ExprAlike k₁ k₂ e e') : StmtAlike k₁ k₂ (.expr e) (.expr e')
  | var {xs ys : List (String × Option Expr)} (h : List.Forall₂ (DeclAlike k₁ k₂) xs ys) :
      StmtAlike k₁ k₂ (.var xs) (.var ys)
  | returns {e e' : Option Expr} (h : Option.Rel (ExprAlike k₁ k₂) e e') :
      StmtAlike k₁ k₂ (.returns e) (.returns e')
  | throws {e e' : Expr} (h : ExprAlike k₁ k₂ e e') : StmtAlike k₁ k₂ (.throws e) (.throws e')
  | block {b b' : List Stmt} (h : List.Forall₂ (StmtAlike k₁ k₂) b b') :
      StmtAlike k₁ k₂ (.block b) (.block b')
  | ifElse {c c' : Expr} {s s' : Stmt} {o o' : Option Stmt} (hc : ExprAlike k₁ k₂ c c')
      (hs : StmtAlike k₁ k₂ s s') (ho : Option.Rel (StmtAlike k₁ k₂) o o') :
      StmtAlike k₁ k₂ (.ifElse c s o) (.ifElse c' s' o')
  | forLoop {i i' : Option Stmt} {c c' u u' : Option Expr} {s s' : Stmt}
      (hi : Option.Rel (StmtAlike k₁ k₂) i i') (hc : Option.Rel (ExprAlike k₁ k₂) c c')
      (hu : Option.Rel (ExprAlike k₁ k₂) u u') (hs : StmtAlike k₁ k₂ s s') :
      StmtAlike k₁ k₂ (.forLoop i c u s) (.forLoop i' c' u' s')
  | switch {e e' : Expr} {xs ys : List Clause} (he : ExprAlike k₁ k₂ e e')
      (h : List.Forall₂ (ClauseAlike k₁ k₂) xs ys) : StmtAlike k₁ k₂ (.switch e xs) (.switch e' ys)
  | tryBlock {b b' : List Stmt} {handler : Option (Option String)}
      (hb : List.Forall₂ (StmtAlike k₁ k₂) b b') :
      StmtAlike k₁ k₂ (.tryBlock b handler none) (.tryBlock b' handler none)
  | tryCleanup {b b' c c' : List Stmt} {handler : Option (Option String)}
      (hb : List.Forall₂ (StmtAlike k₁ k₂) b b') (hc : List.Forall₂ (StmtAlike k₁ k₂) c c') :
      StmtAlike k₁ k₂ (.tryBlock b handler (some c)) (.tryBlock b' handler (some c'))
  | breaks : StmtAlike k₁ k₂ .breaks .breaks
  | continues : StmtAlike k₁ k₂ .continues .continues

/-- Clauses of a switch that differ only in minted names. -/
inductive ClauseAlike (k₁ k₂ : Nat) : Clause → Clause → Prop
  | mk {l l' : Option Expr} {b b' : List Stmt} (hl : Option.Rel (ExprAlike k₁ k₂) l l')
      (hb : List.Forall₂ (StmtAlike k₁ k₂) b b') : ClauseAlike k₁ k₂ (.mk l b) (.mk l' b')

end

/-- Lists of statements that differ only in minted names. -/
def BodyAlike (k₁ k₂ : Nat) : List Stmt → List Stmt → Prop := List.Forall₂ (StmtAlike k₁ k₂)

/-- The same error, or related results, with the counts at the same distance as before. -/
inductive Minted (k₁ k₂ : Nat) {ε α β : Type} (R : α → β → Prop) :
    Except ε α × Nat → Except ε β × Nat → Prop
  | ok (j : Nat) {a : α} {b : β} (h : R a b) : Minted k₁ k₂ R (.ok a, k₁ + j) (.ok b, k₂ + j)
  | error (j : Nat) (e : ε) : Minted k₁ k₂ R (.error e, k₁ + j) (.error e, k₂ + j)

end PlayerScript.Ast
