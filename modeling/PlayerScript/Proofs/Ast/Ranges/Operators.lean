/-
Reading operators by positions follows parsing them from items: operands with an operator in front or
behind, assignments, conditionals, binary operators and sequences.
-/
import PlayerScript.Proofs.Ast.Ranges.Expressions

namespace PlayerScript.Ast.Ranges

open Reading

variable {before : Option Token} {r : Range}
variable {l : Layout} {parts : Readers} {parsers : Parsers} {lo hi : Nat}

section Operands

variable (hw : WellPlaced l)
include hw

/-! ## Operands -/

/-- A step before its variable: the variable is all that follows. -/
theorem follows_stepBefore {t : Token} {rest : List Item}
    (h : Holds l lo hi (.leaf t :: rest)) (op : UpdateOp) :
    Follows l Eq
      (match if lo + 1 < hi then l.identAt? (lo + 1) else none with
        | some name => if hi = lo + 2 then done (.update op true name) else l.unsupported lo hi
        | none => l.unsupported lo hi)
      (stepBefore ⟨before, .leaf t :: rest⟩ op rest) := by
  have hrefuse : Follows l Eq (l.unsupported lo hi)
      (Parse.unsupported (α := Expr) (Range.span ⟨before, .leaf t :: rest⟩)) :=
    follows_unsupported hw h
  have hrest := h.after_leaf
  match rest, hrest with
  | [], hrest =>
    have heq := hrest.eq_iff.2 rfl
    rw [if_neg (by omega)]
    exact hrefuse
  | item :: more, hrest =>
    rw [if_pos (hrest.lt (List.cons_ne_nil _ _)), hrest.identAt]
    cases hname : item.ident? with
    | none =>
      cases more with
      | nil =>
        rw [stepBefore, hname]
        exact hrefuse
      | cons => exact hrefuse
    | some name =>
      have hmore := hrest.after_ident hname
      cases more with
      | nil =>
        have heq := hmore.eq_iff.2 rfl
        dsimp only
        rw [if_pos heq.symm, stepBefore, hname]
        exact follows_done rfl
      | cons next more =>
        have hlt := hmore.lt (List.cons_ne_nil _ _)
        dsimp only
        rw [if_neg (by omega)]
        exact hrefuse

/-- A step after its variable. -/
theorem follows_stepAfter (h : Holds l lo hi r.items) (t : Token) (op : UpdateOp) : Follows l Eq
      (match t.ident? with
        | some name =>
          if statementWords.contains name then l.unsupported lo hi else done (.update op false name)
        | none => l.unsupported lo hi)
      (stepAfter r op t) := by
  rw [stepAfter]
  cases t.ident? with
  | none => exact follows_unsupported hw h
  | some name =>
    dsimp only
    split
    · exact follows_unsupported hw h
    · exact follows_done rfl

variable (hp : PartsFollow l parts parsers)
include hp

omit hw hp in
/-- A range that begins with a bracket does not end with a step as its second token. -/
theorem updateOp?_behind_group {b : Bracket} {o c : Token} {inner rest : List Item}
    (h : Holds l lo hi (.group b o c inner :: rest)) :
    (if hi = lo + 2 then l.tokens[lo + 1]?.bind updateOp? else none) = none := by
  obtain ⟨close, -, hopen⟩ := h.openAt
  by_cases htwo : hi = lo + 2
  · -- the range is a pair of brackets, so its second token is the closing one
    have hclose : close = lo + 1 := by
      have := hopen.lt
      have := hopen.rest.le
      omega
    rw [if_pos htwo, ← hclose, hopen.closing, Option.bind_some, updateOp?, h.group_kinds.2]
  · rw [if_neg htwo]

theorem follows_operand (h : Covers l (lo, hi) r) (hne : r.items ≠ []) :
    Follows l Eq (operand l parts lo hi) (Ast.operand parsers r) := by
  have hchain := follows_chain hp hw h hne
  obtain ⟨before, items⟩ := r
  obtain ⟨holds, -, ends⟩ := h
  dsimp only at holds ends hne
  match items, holds with
  | .group b o c inner :: rest, holds =>
    rw [operand, tokenAt_eq holds.first, done_bind, updateOp?_behind_group holds]
    dsimp only [Item.first]
    rw [unaryOp?, updateOp?, holds.group_kinds.1]
    exact hchain
  | .leaf t :: rest, holds =>
    have hrest := holds.after_leaf
    rw [operand, tokenAt_eq holds.first, done_bind, Ast.operand]
    dsimp only [Item.first]
    cases unaryOp? t with
    | some op =>
      have hcovers : Covers l (lo + 1, hi) ⟨some t, rest⟩ := ⟨hrest, before_eq holds.first, ends⟩
      exact follows_map (hp.expression hcovers) fun a b hab => by rw [hab]
    | none =>
      cases updateOp? t with
      | some op => exact follows_stepBefore hw holds op
      | none =>
        dsimp only
        match rest, hrest with
        | [], hrest =>
          have heq := hrest.eq_iff.2 rfl
          rw [if_neg (by omega)]
          exact hchain
        | [.leaf u], hrest =>
          have heq := hrest.after_leaf.eq_iff.2 rfl
          rw [if_pos heq.symm, hrest.first]
          dsimp only [Option.bind_some, Item.first]
          cases updateOp? u with
          | some op => exact follows_stepAfter hw holds t op
          | none => exact hchain
        | [.group b o c inner], hrest =>
          obtain ⟨close, -, hopen⟩ := hrest.openAt
          have hlt := hopen.lt
          have hle := hopen.rest.le
          rw [if_neg (by omega)]
          exact hchain
        | item :: next :: more, hrest =>
          have hlt := hrest.tail.lt (List.cons_ne_nil _ _)
          have hpos := width_pos item
          rw [if_neg (by omega)]
          cases item <;> exact hchain

end Operands

/-! ## Assignments -/

theorem plain_assignOp : Plain fun t => (assignOp? t).isSome := by
  intro t ht
  show (assignOp? t).isSome = false
  rw [assignOp?]
  cases hk : t.kind with
  | punct p =>
    rw [hk] at ht
    cases p with
    | assign op => cases ht
    | _ => rfl
  | _ => rfl

theorem assignTarget_of_ident {item : Item} {left : List Item} (h : item.ident? = none) :
    assignTarget? (item :: left) = none := by
  unfold assignTarget?
  split
  · rename_i t heq
    cases heq
    rw [show t.ident? = none from h]
    rfl
  · rename_i t opening closing first items heq
    cases heq
    rw [show t.ident? = none from h]
    rfl
  · rfl

/-- Only square brackets that end at the operator and hold something are an index. -/
theorem indexBefore_group (parts : Readers) (hi : Nat) {mark close : Nat} {b : Bracket}
    {o c : Token} {inner left : List Item} (h : Holds l (lo + 1) mark (.group b o c inner :: left))
    (hopen : OpenAt l (lo + 1) mark close ⟨o, c, inner, left⟩) :
    indexBefore l parts lo mark hi =
      if b = .square ∧ close + 1 = mark ∧ lo + 3 < mark then
        (parts.expression (lo + 2) (mark - 1) >>= fun key => done (some key))
      else l.refuse .invalidTarget lo hi := by
  have hlt := hopen.lt
  have hle := hopen.rest.le
  have hcond : (l.punctAt (lo + 1) (.opening .square) ∧ some close = some (mark - 1) ∧
      lo + 3 < mark) ↔ b = .square ∧ close + 1 = mark ∧ lo + 3 < mark := by
    rw [h.punctAt_group, Option.some.injEq, decide_eq_true_eq]
    constructor
    · rintro ⟨h₁, h₂, h₃⟩
      exact ⟨h₁, by omega, h₃⟩
    · rintro ⟨h₁, h₂, h₃⟩
      exact ⟨h₁, by omega, h₃⟩
  rw [indexBefore, if_neg (by omega), partnerAt_eq hopen.partner, done_bind]
  simp only [hcond]
  rfl

/-- What stands between the variable and the operator of an assignment: nothing, an index, or
something that makes the target invalid. -/
theorem indexBefore_cases (parts : Readers) (hi : Nat) {mark : Nat} {left : List Item} (h : Holds l (lo + 1) mark left) :
    (left = [] ∧ indexBefore l parts lo mark hi = done none) ∨
    (∃ opening closing first inner, left = [.group .square opening closing (first :: inner)] ∧
      Covers l (lo + 2, mark - 1) ⟨some opening, first :: inner⟩ ∧
      indexBefore l parts lo mark hi =
        (parts.expression (lo + 2) (mark - 1) >>= fun key => done (some key))) ∨
    ((∀ t, assignTarget? (.leaf t :: left) = none) ∧
      indexBefore l parts lo mark hi = l.refuse .invalidTarget lo hi) := by
  match left, h with
  | [], h =>
    refine .inl ⟨rfl, ?_⟩
    rw [indexBefore, if_pos (h.eq_iff.2 rfl).symm]
  | .leaf u :: left, h =>
    have hlt := h.lt (List.cons_ne_nil _ _)
    have hpartner : l.partners[lo + 1]? = some none := by
      cases h with
      | leaf _ _ hp => exact hp
    refine .inr (.inr ⟨fun t => rfl, ?_⟩)
    rw [indexBefore, if_neg (by omega), partnerAt_eq hpartner, done_bind, h.punctAt_leaf,
      if_neg (by simp)]
  | .group b o c inner :: left, h =>
    obtain ⟨close, -, hopen⟩ := h.openAt
    rw [indexBefore_group parts hi h hopen]
    by_cases hindex : b = .square ∧ close + 1 = mark ∧ lo + 3 < mark
    · obtain ⟨rfl, rfl, hlong⟩ := hindex
      have hnil := hopen.rest.eq_iff.1 rfl
      subst hnil
      cases inner with
      | nil =>
        have heq := hopen.inside.eq_iff.2 rfl
        omega
      | cons first inner =>
        exact .inr (.inl ⟨o, c, first, inner, rfl, hopen.covers, if_pos ⟨rfl, rfl, hlong⟩⟩)
    · refine .inr (.inr ⟨fun t => ?_, if_neg hindex⟩)
      unfold assignTarget?
      split
      · rename_i heq
        cases heq
      · rename_i heq
        cases heq
        have hlong := hopen.inside.lt (List.cons_ne_nil _ _)
        have heq := hopen.rest.eq_iff.2 rfl
        exact absurd ⟨rfl, heq, by omega⟩ hindex
      · rfl

section Operators

variable (hw : WellPlaced l) (hp : PartsFollow l parts parsers)
include hw hp

theorem follows_assignment {items : List Item} {mark : Nat} {cut : Cut}
    (h : Covers l (lo, hi) ⟨before, items⟩) (hcut : CutAt l lo mark hi cut)
    (hop : (assignOp? cut.token).isSome = true) :
    Follows l Eq (assignment l parts lo mark hi) (Ast.assignment parsers ⟨before, items⟩ cut) := by
  obtain ⟨op, hop⟩ := Option.isSome_iff_exists.1 hop
  have hrefuse : Follows l Eq (l.refuse .invalidTarget lo hi)
      (Parse.fault (α := Expr) .invalidTarget (Range.span ⟨before, items⟩)) :=
    follows_refuse hw h.holds rfl
  have hvalue := hp.expression (hcut.covers_right h.ends)
  have hleft := hcut.left
  rw [assignment, tokenAt_eq hcut.token, done_bind, Ast.assignment, hop]
  cases hitems : cut.left with
  | nil =>
    rw [hitems] at hleft
    have heq := hleft.eq_iff.2 rfl
    rw [if_neg (by omega)]
    exact hrefuse
  | cons item left =>
    rw [hitems] at hleft
    rw [if_pos (hleft.lt (List.cons_ne_nil _ _)), hleft.identAt]
    cases hname : item.ident? with
    | none =>
      rw [assignTarget_of_ident hname]
      exact hrefuse
    | some name =>
      have hrest := hleft.after_ident hname
      cases item with
      | group => cases hname
      | leaf t =>
        rcases indexBefore_cases parts hi hrest with
          ⟨rfl, hread⟩ | ⟨opening, closing, first, inner, rfl, hcovers, hread⟩ | ⟨hnone, hread⟩
        · rw [hread, assignTarget?, show t.ident? = some name from hname]
          dsimp only [Option.map_some]
          split
          · exact hrefuse
          · exact follows_map hvalue fun a b hab => by rw [hab]; rfl
        · rw [hread, assignTarget?, show t.ident? = some name from hname]
          dsimp only [Option.map_some]
          split
          · exact hrefuse
          · rw [andThen_assoc]
            refine follows_bind (hp.expression hcovers) ?_
            rintro key _ rfl
            exact follows_map hvalue fun a b hab => by rw [hab]; rfl
        · rw [hread, hnone]
          dsimp only
          split
          · exact hrefuse
          · exact follows_refuse_bind hw h.holds rfl

/-! ## Conditionals -/

theorem follows_conditional {items : List Item} {question : Nat} {cut : Cut}
    (h : Covers l (lo, hi) ⟨before, items⟩) (hcut : CutAt l lo question hi cut) :
    Follows l Eq (conditional l parts lo question hi)
      (Ast.conditional parsers ⟨before, items⟩ cut) := by
  have hplain : Plain fun t => t.isPunct .question || t.isPunct .colon :=
    plain_or (plain_isPunct rfl) (plain_isPunct rfl)
  rw [conditional, findAll_eq hplain hcut.right, done_bind, Ast.conditional]
  rcases colonAmong_eq hcut.right 0 with ⟨hnone, hread⟩ | ⟨colon, branches, hsome, hread, hat⟩
  · rw [hnone, hread]
    exact follows_refuse hw h.holds rfl
  · rw [hsome, hread]
    refine follows_bind (hp.expression (hcut.covers_left h.before)) ?_
    rintro test _ rfl
    refine follows_bind (hp.expression (hat.covers_left (before_eq hcut.token))) ?_
    rintro consequent _ rfl
    exact follows_map (hp.expression (hat.covers_right h.ends)) fun a b hab => by rw [hab]

/-! ## Expressions -/

theorem follows_singleExpression (h : Covers l (lo, hi) r) (hne : r.items ≠ []) :
    Follows l Eq (singleExpression l parts lo hi) (Ast.singleExpression parsers r) := by
  obtain ⟨before, items⟩ := r
  rw [singleExpression, Ast.singleExpression]
  rcases find_eq plain_assignOp h.holds with
    ⟨hread, hnone⟩ | ⟨mark, cut, hread, hsome, hop, hcut⟩
  · rw [hread, hnone, done_bind]
    rcases find_eq (plain_isPunct (q := .question) rfl) h.holds with
      ⟨hread, hnone⟩ | ⟨question, cut, hread, hsome, -, hcut⟩
    · dsimp only
      rw [hread, hnone, done_bind]
      rcases operatorIn_eq h.holds BinaryOp.scanOrder with
        ⟨hread, hnone⟩ | ⟨op, i, cut, hread, hsome, hcut⟩
      · dsimp only
        rw [hread, done_bind, Cut.binary?, hnone]
        exact follows_operand hw hp h hne
      · dsimp only
        rw [hread, done_bind, Cut.binary?, hsome]
        refine follows_bind (hp.expression (hcut.covers_left h.before)) ?_
        rintro left _ rfl
        exact follows_map (hp.expression (hcut.covers_right h.ends)) fun a b hab => by rw [hab]
    · dsimp only
      rw [hread, hsome, done_bind]
      exact follows_conditional hw hp h hcut
  · rw [hread, hsome, done_bind]
    exact follows_assignment hw hp h hcut hop

theorem follows_expressionStep (h : Covers l (lo, hi) r) (hne : r.items ≠ []) :
    Follows l Eq (expressionStep l parts lo hi) (Ast.expressionStep parsers r) := by
  obtain ⟨ranges, hranges, hcovers⟩ := split_eq (p := .comma) rfl h
  rw [expressionStep, hranges, done_bind, Ast.expressionStep, hcovers.length_eq]
  split
  · refine follows_map (follows_each (fun range r hr => hp.expression hr.1) hcovers) ?_
    rintro es _ rfl
    rfl
  · exact follows_singleExpression hw hp h hne

end Operators

end PlayerScript.Ast.Ranges
