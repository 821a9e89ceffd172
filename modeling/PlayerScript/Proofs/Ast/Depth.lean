/-
How deep parsed trees are. Every level that the parser spends makes at most two nodes of the tree, one
below the other; only suffixes are taken in a loop, so that members and calls can follow each other any
number of times. Not counting what a member is taken of and what is called, a path down a tree that is
parsed within some levels has at most twice as many nodes.
-/
import PlayerScript.Proofs.Ast.Nodes
import PlayerScript.Proofs.Ast.Survey.Counts

namespace PlayerScript.Ast

/-! ## Paths -/

/-- No path down from a node has more than `n` nodes, not counting bases. -/
def Within (n : Nat) (a : Node) : Prop := ∀ m, Path 0 a m → m ≤ n

theorem within_node {n : Nat} {a : Node} (hparts : ∀ b ∈ a.parts, Within n b)
    (hbase : ∀ b ∈ a.base, Within (n + 1) b) : Within (n + 1) a := by
  intro m hpath
  cases hpath with
  | here => omega
  | part h p => exact Nat.succ_le_succ (hparts _ h _ p)
  | base h p => exact hbase _ h _ p

theorem Within.mono {n n' : Nat} {a : Node} (h : Within n a) (hle : n ≤ n') : Within n' a :=
  fun m hpath => (h m hpath).trans hle

/-! ## Parsed trees -/

/-- Trees within which no path is longer than two nodes for each level. -/
def shallow (depth : Nat) : Trees Nat :=
  ⟨fun _ e => Within (2 * depth) (.expr (e 0)), fun _ s => Within (2 * depth) (.stmt (s 0))⟩

section Lists

variable {α : Type} {R : Account Nat α} {P : α → Prop}

theorem forall_of_each (hR : ∀ {names a}, R names a → P (a 0)) {names : List (Nat → String)}
    {as : Nat → List α} (h : Each R names as) : ∀ a ∈ as 0, P a := by
  induction h with
  | nil => simp
  | cons h _ ih => exact List.forall_mem_cons.2 ⟨hR h, ih⟩

theorem forall_of_maybe (hR : ∀ {names a}, R names a → P (a 0)) {names : List (Nat → String)}
    {a : Nat → Option α} (h : Maybe R names a) : ∀ b ∈ a 0, P b := by
  cases h with
  | none => simp
  | some h => rintro _ ⟨⟩; exact hR h

end Lists

variable {depth : Nat} {names : List (Nat → String)}

theorem within_expr {e : Nat → Expr} (h : (shallow depth).expr names e) :
    Within (2 * depth + 1) (.expr (e 0)) := Within.mono h (Nat.le_succ _)

theorem within_stmt {s : Nat → Stmt} (h : (shallow depth).stmt names s) :
    Within (2 * depth + 1) (.stmt (s 0)) := Within.mono h (Nat.le_succ _)

theorem within_leaf (n : Nat) {a : Node} (hparts : a.parts = []) (hbase : a.base = none) :
    Within (n + 1) a :=
  within_node (by simp [hparts]) (by simp [hbase])

theorem within_element {e : Nat → Expr} (h : (shallow depth).Element names e) :
    Within (2 * depth + 1) (.expr (e 0)) := by
  cases h with
  | hole => exact within_leaf _ rfl rfl
  | expr h => exact within_expr h

theorem within_member {m : Nat → String × Expr} (h : (shallow depth).Member names m) :
    Within (2 * depth + 1) (.expr (m 0).2) := by
  cases h with
  | mk key h => exact within_expr h

/-- The value of a declared variable, if it has one. -/
theorem within_declared {d : Nat → String × Option Expr} (h : (shallow depth).Declared names d) :
    ∀ e ∈ (d 0).2, Within (2 * depth) (.expr e) := by
  cases h with
  | mk name h => exact forall_of_maybe (fun h => h) h

theorem within_declarations {ds : Nat → List (String × Option Expr)}
    (h : Each (shallow depth).Declared names ds) : Within (2 * depth + 1) (.stmt (.var (ds 0))) := by
  have hvalues := forall_of_each (P := fun d => ∀ e ∈ d.2, Within (2 * depth) (.expr e)) within_declared h
  refine within_node (fun b hb => ?_) nofun
  obtain ⟨d, hd, hb⟩ := List.mem_flatMap.1 hb
  obtain ⟨e, he, rfl⟩ := List.mem_map.1 hb
  exact hvalues d hd e (Option.mem_toList.1 he)

theorem within_init {init : Nat → Option Stmt} (h : (shallow depth).Init names init) :
    ∀ s ∈ init 0, Within (2 * depth + 1) (.stmt s) := by
  cases h with
  | none => simp
  | var h => rintro _ ⟨⟩; exact within_declarations h
  | expr h =>
    rintro _ ⟨⟩
    exact within_node (by rintro _ (_ | ⟨_, ⟨⟩⟩); exact h) nofun

theorem within_labelled {c : Nat → Clause} (h : (shallow depth).Labelled names c) :
    ∀ b ∈ Node.ofClause (c 0), Within (2 * depth + 1) b := by
  cases h with
  | mk hl hb =>
    intro b hmem
    have hlabel := forall_of_maybe (P := fun e => Within (2 * depth + 1) (.expr e)) within_expr hl
    have hbody := forall_of_each (P := fun s => Within (2 * depth + 1) (.stmt s)) within_stmt hb
    rcases List.mem_append.1 hmem with hmem | hmem
    · obtain ⟨e, he, rfl⟩ := List.mem_map.1 hmem
      exact hlabel e (Option.mem_toList.1 he)
    · obtain ⟨s, hs, rfl⟩ := List.mem_map.1 hmem
      exact hbody s hs

theorem within_exprs {es : Nat → List Expr} (h : Each (shallow depth).expr names es) :
    ∀ b ∈ (es 0).map Node.expr, Within (2 * depth + 1) b := by
  have hall := forall_of_each (P := fun e => Within (2 * depth + 1) (.expr e)) within_expr h
  intro b hb
  obtain ⟨e, he, rfl⟩ := List.mem_map.1 hb
  exact hall e he

theorem within_body {b : Nat → List Stmt} (h : Each (shallow depth).stmt names b) :
    ∀ s ∈ (b 0).map Node.stmt, Within (2 * depth) s := by
  have hall := forall_of_each (P := fun s => Within (2 * depth) (.stmt s)) (fun h => h) h
  intro b hb
  obtain ⟨s, hs, rfl⟩ := List.mem_map.1 hb
  exact hall s hs

theorem within_optional {e : Nat → Option Expr} (h : Maybe (shallow depth).expr names e) :
    ∀ b ∈ (e 0).toList.map Node.expr, Within (2 * depth + 1) b := by
  have hall := forall_of_maybe (P := fun e => Within (2 * depth + 1) (.expr e)) within_expr h
  intro b hb
  obtain ⟨e, he, rfl⟩ := List.mem_map.1 hb
  exact hall e (Option.mem_toList.1 he)

theorem builds_shallow {w : TokenKind → Nat} (s : Survey Nat w) (depth : Nat) :
    Builds s (shallow depth) (shallow (depth + 1)) where
  literal _ := within_leaf _ rfl rfl
  ident _ _ := within_leaf _ rfl rfl
  update _ _ _ := within_leaf _ rfl rfl
  wrapped h := Within.mono h (by omega)
  array h := by
    have hall := forall_of_each (P := fun e => Within (2 * depth + 1) (.expr e)) within_element h
    refine within_node (fun b hb => ?_) nofun
    obtain ⟨e, he, rfl⟩ := List.mem_map.1 hb
    exact hall e he
  object h := by
    have hall := forall_of_each (P := fun m => Within (2 * depth + 1) (.expr m.2)) within_member h
    refine within_node (fun b hb => ?_) nofun
    obtain ⟨m, hm, rfl⟩ := List.mem_map.1 hb
    exact hall m hm
  function _ params h := within_node (fun b hb => (within_body h b hb).mono (Nat.le_succ _)) nofun
  unary op h := within_node (by simpa [Node.parts] using within_expr h) nofun
  binary op ha hb := within_node (by simpa [Node.parts] using ⟨within_expr ha, within_expr hb⟩) nofun
  conditional ha hb hc :=
    within_node (by simpa [Node.parts] using ⟨within_expr ha, within_expr hb, within_expr hc⟩) nofun
  assign name op hi hv := by
    refine within_node (fun b hb => ?_) nofun
    rcases List.mem_append.1 hb with hb | hb
    · exact within_optional hi b hb
    · rw [List.mem_singleton.1 hb]
      exact within_expr hv
  sequence h := within_node (within_exprs h) nofun
  member name optional h := within_node nofun (by rintro _ ⟨⟩; exact h)
  computed optional he hk :=
    within_node (by simpa [Node.parts, Node.ofProperty] using within_expr hk) (by rintro _ ⟨⟩; exact he)
  call he ha := within_node (within_exprs ha) (by rintro _ ⟨⟩; exact he)
  empty := within_leaf _ rfl rfl
  breaks := within_leaf _ rfl rfl
  continues := within_leaf _ rfl rfl
  expr h := within_node (by simpa [Node.parts] using within_expr h) nofun
  var h := Within.mono (within_declarations h) (by omega)
  declared name params h := by
    have hfunction : Within (2 * depth + 1) (.expr (.function name params _)) :=
      within_node (within_body h) nofun
    exact within_node (by simpa [Node.parts] using hfunction) nofun
  returns h := within_node (within_optional h) nofun
  throws h := within_node (by simpa [Node.parts] using within_expr h) nofun
  block h := within_node (fun b hb => (within_body h b hb).mono (Nat.le_succ _)) nofun
  ifElse hc hb ho := by
    have hother := forall_of_maybe (P := fun s => Within (2 * depth + 1) (.stmt s)) within_stmt ho
    refine within_node (List.forall_mem_cons.2 ⟨within_expr hc, List.forall_mem_cons.2
      ⟨within_stmt hb, fun b hb => ?_⟩⟩) nofun
    obtain ⟨s, hs, rfl⟩ := List.mem_map.1 hb
    exact hother s (Option.mem_toList.1 hs)
  forLoop hi hc hu hb := by
    refine within_node (fun b hmem => ?_) nofun
    rcases List.mem_append.1 hmem with hmem | hmem
    · rcases List.mem_append.1 hmem with hmem | hmem
      · obtain ⟨s, hs, rfl⟩ := List.mem_map.1 hmem
        exact within_init hi s (Option.mem_toList.1 hs)
      · rw [List.map_append] at hmem
        rcases List.mem_append.1 hmem with hmem | hmem
        · exact within_optional hc b hmem
        · exact within_optional hu b hmem
    · rw [List.mem_singleton.1 hmem]
      exact within_stmt hb
  switch he hc := by
    have hall := forall_of_each (P := fun c => ∀ b ∈ Node.ofClause c, Within (2 * depth + 1) b)
      within_labelled hc
    refine within_node (List.forall_mem_cons.2 ⟨within_expr he, fun b hb => ?_⟩) nofun
    obtain ⟨c, hc, hb⟩ := List.mem_flatMap.1 hb
    exact hall c hc b hb
  tryBlock handler hb hf := by
    have hfinal := forall_of_maybe (P := fun b : List Stmt => ∀ s ∈ b, Within (2 * depth) (.stmt s))
      (fun h => forall_of_each (P := fun s => Within (2 * depth) (.stmt s)) (fun h => h) h) hf
    refine within_node (fun b hmem => ?_) nofun
    obtain ⟨s, hs, rfl⟩ := List.mem_map.1 hmem
    rcases List.mem_append.1 hs with hs | hs
    · exact (within_body hb _ (List.mem_map_of_mem hs)).mono (Nat.le_succ _)
    · cases hf with
      | none => cases hs
      | some h => exact (hfinal _ rfl s hs).mono (Nat.le_succ _)

/-- In a tree that is parsed within some levels, every path down from a statement has at most twice as
many nodes, not counting what a member is taken of and what is called. -/
theorem paths_within_levels {source : List Char} {maxDepth minted minted' : Nat} {stmts : List Stmt}
    (h : parseStatements source maxDepth minted = (.ok stmts, minted')) {s : Stmt} (hs : s ∈ stmts)
    {n : Nat} (hpath : Path 0 (.stmt s) n) : n ≤ 2 * maxDepth := by
  unfold parseStatements at h
  split at h
  · cases h
  · rename_i items _
    split at h
    · rename_i hrun
      cases h
      obtain ⟨_, _, _, -, rfl, hbody, -⟩ := (statements_counted (fun _ => builds_shallow _)
        (unburdened_all items) maxDepth minted).of_ok (i := 0) (m := .still none)
        (by rw [Move.still_range, Nat.zero_add]; exact hrun)
      exact within_body hbody _ (List.mem_map_of_mem hs) n hpath
    · cases h

/-- A function declared in another is a path of four nodes within two levels. -/
theorem paths_within_levels_nested :
    ∃ s, parseStatements "function f()\x7bfunction g()\x7b\x7d\x7d".toList 2 0 = (.ok [s], 0) ∧
      Path 0 (.stmt s) 4 ∧ 4 ≤ 2 * 2 := by
  let g : Expr := .function "g" [] []
  let f : Expr := .function "f" [] [.var [("g", some g)]]
  have hparse : parseStatements "function f()\x7bfunction g()\x7b\x7d\x7d".toList 2 0 = (.ok [.var [("f", some f)]], 0) :=
    rfl
  have hpath : Path 0 (.stmt (.var [("f", some f)])) 4 :=
    .part (b := .expr f) (.head _) <| .part (b := .stmt (.var [("g", some g)])) (.head _) <|
      .part (b := .expr g) (.head _) <| .here _
  exact ⟨_, hparse, hpath, paths_within_levels hparse (List.mem_singleton_self _) hpath⟩

/-- With bases counted, paths are not bounded by the levels: members of members are taken within two
levels, one for the statement and one for the expression. -/
theorem members_nest_without_levels :
    ¬ ∀ (source : List Char) (maxDepth minted minted' : Nat) (stmts : List Stmt),
      parseStatements source maxDepth minted = (.ok stmts, minted') →
        ∀ s ∈ stmts, ∀ n, Path 1 (.stmt s) n → n ≤ 2 * maxDepth := by
  intro h
  let a : Expr := .ident "a"
  let b : Expr := .member a (.name "b") false
  let c : Expr := .member b (.name "c") false
  let d : Expr := .member c (.name "d") false
  have hparse : parseStatements "a.b.c.d".toList 2 0 = (.ok [.expr d], 0) := rfl
  have hpath : Path 1 (.stmt (.expr d)) 5 :=
    .part (b := .expr d) (.head _) <| .base (b := .expr c) rfl <| .base (b := .expr b) rfl <|
      .base (b := .expr a) rfl <| .here _
  exact absurd (h _ 2 0 0 _ hparse _ (List.mem_singleton_self _) 5 hpath) (by decide)

end PlayerScript.Ast
