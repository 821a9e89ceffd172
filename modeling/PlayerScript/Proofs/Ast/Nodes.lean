/-
Trees as nodes. Every expression and every statement has some nodes right below it; paths down a tree, its
height and conditions on all its nodes are the same for all kinds of trees.
-/
import PlayerScript.Ast.Basic

namespace PlayerScript.Ast

/-- A node of a tree. -/
inductive Node where
  | expr (e : Expr)
  | stmt (s : Stmt)

namespace Node

/-- What a member is taken of, or what is called. -/
def base : Node → Option Node
  | .expr (.member object _ _) => some (.expr object)
  | .expr (.call callee _) => some (.expr callee)
  | _ => none

/-- The key of a member, if it is computed. -/
def ofProperty : Property → List Node
  | .name _ => []
  | .computed key => [.expr key]

/-- The label and the body of a clause. -/
def ofClause : Clause → List Node
  | .mk label body => label.toList.map .expr ++ body.map .stmt

/-- The nodes right below a node, its base apart. -/
def parts : Node → List Node
  | .expr (.literal _) | .expr (.ident _) | .expr (.update _ _ _) => []
  | .expr (.array items) | .expr (.sequence items) => items.map .expr
  | .expr (.object members) => members.map fun m => .expr m.2
  | .expr (.function _ _ body) => body.map .stmt
  | .expr (.unary _ operand) => [.expr operand]
  | .expr (.binary _ left right) => [.expr left, .expr right]
  | .expr (.conditional test consequent alternate) => [.expr test, .expr consequent, .expr alternate]
  | .expr (.assign _ index _ value) => index.toList.map .expr ++ [.expr value]
  | .expr (.member _ property _) => ofProperty property
  | .expr (.call _ args) => args.map .expr
  | .stmt .empty | .stmt .breaks | .stmt .continues => []
  | .stmt (.expr e) | .stmt (.throws e) => [.expr e]
  | .stmt (.var decls) => decls.flatMap fun d => d.2.toList.map .expr
  | .stmt (.returns value) => value.toList.map .expr
  | .stmt (.block body) => body.map .stmt
  | .stmt (.ifElse cond body otherwise) => .expr cond :: .stmt body :: otherwise.toList.map .stmt
  | .stmt (.forLoop init cond update body) =>
    init.toList.map .stmt ++ (cond.toList ++ update.toList).map .expr ++ [.stmt body]
  | .stmt (.switch selector clauses) => .expr selector :: clauses.flatMap ofClause
  | .stmt (.tryBlock body _ cleanup) => (body ++ cleanup.getD []).map .stmt

end Node

/-- There is a path down from a node with a number of nodes, the node itself included. The base of a
node counts as much as `base` says. -/
inductive Path (base : Nat) : Node → Nat → Prop
  | here (a : Node) : Path base a 1
  | part {a b : Node} {n : Nat} (h : b ∈ a.parts) (p : Path base b n) : Path base a (n + 1)
  | base {a b : Node} {n : Nat} (h : b ∈ a.base) (p : Path base b n) : Path base a (n + base)

/-! ## All nodes of a tree -/

/-- The nodes right below a node. -/
def Node.below (a : Node) : List Node := a.base.toList ++ a.parts

/-- A node is the root of a tree, or further down. -/
inductive Contains : Node → Node → Prop
  | root (a : Node) : Contains a a
  | down {a b c : Node} (h : b ∈ a.below) (hc : Contains b c) : Contains a c

/-- A condition holds of all nodes of a tree. -/
def AllNodes (P : Node → Prop) (a : Node) : Prop := ∀ b, Contains a b → P b

theorem allNodes_iff {P : Node → Prop} {a : Node} :
    AllNodes P a ↔ P a ∧ ∀ b ∈ a.below, AllNodes P b := by
  constructor
  · intro h
    exact ⟨h a (.root a), fun b hb c hc => h c (.down hb hc)⟩
  · rintro ⟨ha, hbelow⟩ b hb
    cases hb with
    | root => exact ha
    | down h hc => exact hbelow _ h _ hc

theorem AllNodes.of_below {P : Node → Prop} {a b : Node} (h : AllNodes P a) (hb : b ∈ a.below) :
    AllNodes P b :=
  (allNodes_iff.1 h).2 b hb

/-! ## Heights -/

/-- The height of a tree is at most `n`: no path down from its root has more nodes. -/
def Fits (n : Nat) (a : Node) : Prop := ∀ k, Path 1 a k → k ≤ n

end PlayerScript.Ast
