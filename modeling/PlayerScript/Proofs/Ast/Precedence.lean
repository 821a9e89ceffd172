/-
Precedence climbing. Operands with operators between them are put together into a tree, where every
operator has a level of its own and those of one level are taken from the left. The tree is known from
its form: nothing looser than an operator stands below it, and nothing as loose to its right.
-/
import Mathlib
import PlayerScript.Ast.Basic

namespace PlayerScript

namespace BinaryOp

/-- How tight an operator binds: its place in the scan order, the loosest first. -/
def level (op : BinaryOp) : Nat := scanOrder.idxOf op

theorem mem_scanOrder (op : BinaryOp) : op ∈ scanOrder := by
  cases op <;> decide

/-- The operators that are searched for before one are looser. -/
theorem scanOrder_split (op : BinaryOp) :
    ∃ looser tighter, scanOrder = looser ++ op :: tighter ∧ ∀ x ∈ looser, x.level < op.level := by
  have hlt : scanOrder.idxOf op < scanOrder.length := List.idxOf_lt_length_of_mem (mem_scanOrder op)
  refine ⟨scanOrder.take op.level, scanOrder.drop (op.level + 1), ?_, ?_⟩
  · have hget : scanOrder[scanOrder.idxOf op] = op := List.getElem_idxOf hlt
    conv_lhs =>
      rw [← List.take_append_drop (scanOrder.idxOf op) scanOrder, List.drop_eq_getElem_cons hlt, hget]
    rfl
  · intro x hx
    have hbefore : (scanOrder.take op.level).idxOf x < (scanOrder.take op.level).length :=
      List.idxOf_lt_length_of_mem hx
    have hsame : scanOrder.idxOf x = (scanOrder.take op.level).idxOf x := by
      conv_lhs => rw [← List.take_append_drop op.level scanOrder, List.idxOf_append_of_mem hx]
    rw [level, hsame]
    rw [List.length_take] at hbefore
    omega

end BinaryOp

/-- Operands with operators between them, in the order in which the operators are applied. -/
inductive OpTree (α : Type) where
  | operand (a : α)
  | node (op : BinaryOp) (left right : OpTree α)

namespace OpTree

variable {α : Type}

/-- The first operand, and the operators with the operands behind them, from left to right. -/
def inorder : OpTree α → α × List (BinaryOp × α)
  | .operand a => (a, [])
  | .node op left right =>
    (left.inorder.1, left.inorder.2 ++ (op, right.inorder.1) :: right.inorder.2)

/-- The expression of a tree whose operands are expressions. -/
def expr : OpTree Expr → Expr
  | .operand e => e
  | .node op left right => .binary op left.expr right.expr

/-- Takes the operators that follow a tree into it, as long as they bind at least as tight as a given
level. What follows an operator is first taken together as far as it binds tighter. The rest is left
over. -/
def climb (least : Nat) (left : OpTree α) (rest : List (BinaryOp × α)) :
    {out : OpTree α × List (BinaryOp × α) // out.2.length ≤ rest.length} :=
  match rest with
  | [] => ⟨(left, []), Nat.le_refl _⟩
  | (op, a) :: rest =>
    if op.level < least then ⟨(left, (op, a) :: rest), Nat.le_refl _⟩
    else
      match climb (op.level + 1) (.operand a) rest with
      | ⟨(right, behind), hbehind⟩ =>
        match climb least (.node op left right) behind with
        | ⟨out, hout⟩ => ⟨out, hout.trans (hbehind.trans (Nat.le_succ _))⟩
termination_by rest.length
decreasing_by
  · exact Nat.lt_succ_self _
  · exact Nat.lt_succ_of_le hbehind

/-- The tree that precedence climbing builds from a flat expression. -/
def climbed (first : α) (rest : List (BinaryOp × α)) : OpTree α := (climb 0 (.operand first) rest).1.1

/-- A tree in which every operator is at most as tight as those on its left and looser than those on
its right, with the first operand and what follows it. -/
inductive Ranked : OpTree α → α → List (BinaryOp × α) → Prop
  | operand (a : α) : Ranked (.operand a) a []
  | node {op : BinaryOp} {left right : OpTree α} {a b : α} {ls rs : List (BinaryOp × α)}
      (hleft : Ranked left a ls) (hright : Ranked right b rs) (hls : ∀ x ∈ ls, op.level ≤ x.1.level)
      (hrs : ∀ x ∈ rs, op.level < x.1.level) :
      Ranked (.node op left right) a (ls ++ (op, b) :: rs)

theorem Ranked.inorder_eq {t : OpTree α} {a : α} {rest : List (BinaryOp × α)} (h : Ranked t a rest) :
    t.inorder = (a, rest) := by
  induction h with
  | operand => rfl
  | node _ _ _ _ ihleft ihright => rw [inorder, ihleft, ihright]

/-- Climbing takes operators of at least the given level up to the first one that is looser. The tree
stays ranked if the next operator is at most as tight as those in it. -/
theorem climb_ranked (least : Nat) (left : OpTree α) (rest : List (BinaryOp × α)) {a : α}
    {before : List (BinaryOp × α)} (hleft : Ranked left a before)
    (hnext : ∀ y ∈ rest.head?, ∀ x ∈ before, y.1.level ≤ x.1.level) :
    ∃ taken, rest = taken ++ (climb least left rest).1.2 ∧
      Ranked (climb least left rest).1.1 a (before ++ taken) ∧
      (∀ x ∈ taken, least ≤ x.1.level) ∧
      ∀ y ∈ (climb least left rest).1.2.head?, y.1.level < least := by
  fun_induction climb least left rest generalizing a before with
  | case1 least left => exact ⟨[], rfl, by simpa using hleft, by simp, by simp⟩
  | case2 least left op b rest hlt =>
    refine ⟨[], rfl, by simpa using hleft, by simp, ?_⟩
    rintro _ ⟨⟩
    exact hlt
  | case3 least left op b rest hlt right behind _ hclimb out _ hclimb' ihright ihout =>
    rw [hclimb] at ihright
    rw [hclimb'] at ihout
    obtain ⟨taken, hrest, hranked, htaken, hstop⟩ := ihright (.operand b) (by simp)
    rw [List.nil_append] at hranked
    have hbefore : ∀ x ∈ before, op.level ≤ x.1.level := hnext (op, b) rfl
    -- behind the right operand stands an operator that is at most as tight as this one
    obtain ⟨more, hmore, hranked', htaken', hstop'⟩ := ihout
      (.node hleft hranked hbefore fun x hx => htaken x hx) (by
        intro y hy x hx
        have hle : y.1.level ≤ op.level := Nat.le_of_lt_succ (hstop y hy)
        rcases List.mem_append.1 hx with hx | hx
        · exact hle.trans (hbefore x hx)
        · rcases List.mem_cons.1 hx with rfl | hx
          · exact hle
          · exact hle.trans (Nat.le_of_lt (htaken x hx)))
    refine ⟨(op, b) :: (taken ++ more), ?_, ?_, ?_, hstop'⟩
    · rw [List.cons_append, List.append_assoc, ← hmore, ← hrest]
    · simpa using hranked'
    · intro x hx
      rcases List.mem_cons.1 hx with rfl | hx
      · exact Nat.le_of_not_lt hlt
      · rcases List.mem_append.1 hx with hx | hx
        · have := htaken x hx
          omega
        · exact htaken' x hx

theorem climbed_ranked (first : α) (rest : List (BinaryOp × α)) :
    Ranked (climbed first rest) first rest := by
  obtain ⟨taken, hrest, hranked, -, hstop⟩ := climb_ranked 0 (.operand first) rest (.operand first) (by simp)
  have hdone : (climb 0 (.operand first) rest).1.2 = [] := by
    cases hleft : (climb 0 (.operand first) rest).1.2 with
    | nil => rfl
    | cons y ys =>
      rw [hleft] at hstop
      exact absurd (hstop y rfl) (Nat.not_lt_zero _)
  rw [hdone, List.append_nil] at hrest
  rw [List.nil_append, ← hrest] at hranked
  exact hranked

end OpTree
end PlayerScript
