/-
Splitting in the scan order is precedence climbing. The parser knows no precedence: it cuts a flat
expression at the last occurrence of the first operator in the scan order that follows an operand. The
operators that stand in front of an operand are passed over, so that the cuts are those of the tree that
precedence climbing builds, when every operator has a level of its own in the scan order.
-/
import PlayerScript.Proofs.Ast.Precedence
import PlayerScript.Proofs.Ast.RoundTrip
import PlayerScript.Proofs.Ast.Levels

namespace PlayerScript.Ast

variable {t : Token} {op : BinaryOp} {name : String} {item previous : Item}

/-! ## Flat expressions -/

/-- An item is an atom, and is read as an expression when some names are minted already: a name, a
word that stands for a literal, a number, a string, or an expression in parentheses. -/
inductive AtomReads : Item → Nat → Expr → Nat → Prop
  | name {t : Token} {name : String} {k : Nat} (ht : t.kind = .ident name) (hname : name ∉ reservedWords) :
      AtomReads (.leaf t) k (.ident name) k
  | word {t : Token} {name : String} {value : Literal} {k : Nat} (ht : t.kind = .ident name)
      (hvalue : wordLiteral? name = some value) : AtomReads (.leaf t) k (.literal value) k
  | number {t : Token} {x : Float} {k : Nat} (ht : t.kind = .number x) :
      AtomReads (.leaf t) k (.literal (.number x)) k
  | string {t : Token} {s : String} {k : Nat} (ht : t.kind = .string s) :
      AtomReads (.leaf t) k (.literal (.string s)) k
  | parens {o c : Token} {inner : List Item} {e : Expr} {depth k k' : Nat}
      (h : expressionWithin depth ⟨some o, inner⟩ k = (.ok e, k')) :
      AtomReads (.group .round o c inner) k e k'

/-- Items are an operand: an atom behind any number of operators. -/
inductive OperandReads : List Item → Nat → Expr → Nat → Prop
  | atom {item : Item} {e : Expr} {k k' : Nat} (h : AtomReads item k e k') : OperandReads [item] k e k'
  | prefixed {t : Token} {op : UnaryOp} {items : List Item} {e : Expr} {k k' : Nat}
      (ht : unaryOp? t = some op) (h : OperandReads items k e k') :
      OperandReads (.leaf t :: items) k (.unary op e) k'

/-- Items are a flat expression: operands with operators between them, which are read from left to
right. -/
inductive FlatReads : List Item → Nat → Expr → List (BinaryOp × Expr) → Nat → Prop
  | operand {items : List Item} {e : Expr} {k k' : Nat} (h : OperandReads items k e k') :
      FlatReads items k e [] k'
  | more {items rest : List Item} {t : Token} {op : BinaryOp} {e e' : Expr}
      {tail : List (BinaryOp × Expr)} {k k₁ k' : Nat} (h : OperandReads items k e k₁)
      (ht : t.kind = .punct (.binary op)) (hrest : FlatReads rest k₁ e' tail k') :
      FlatReads (items ++ .leaf t :: rest) k e ((op, e') :: tail) k'

/-! ## The tokens of a flat expression -/

/-- Whether a token may stand in a flat expression outside parentheses. -/
def isFlat : TokenKind → Bool
  | .ident _ | .number _ | .string _ | .punct (.binary _) | .punct .not => true
  | _ => false

variable {items : List Item} {k k' : Nat} {e : Expr} {rest : List (BinaryOp × Expr)}

theorem isFlat_of_unary {op : UnaryOp} (h : unaryOp? t = some op) : isFlat t.kind = true := by
  unfold unaryOp? at h
  split at h <;> simp_all [isFlat]

theorem AtomReads.isFlat (h : AtomReads (.leaf t) k e k') : isFlat t.kind = true := by
  cases h <;> simp_all [Ast.isFlat]

theorem OperandReads.isFlat (h : OperandReads items k e k') :
    ∀ u, Item.leaf u ∈ items → isFlat u.kind = true := by
  induction h with
  | atom h =>
    intro u hu
    rw [List.mem_singleton] at hu
    subst hu
    exact h.isFlat
  | prefixed ht _ ih =>
    intro u hu
    rcases List.mem_cons.1 hu with hu | hu
    · cases hu
      exact isFlat_of_unary ht
    · exact ih u hu

theorem FlatReads.isFlat (h : FlatReads items k e rest k') :
    ∀ u, Item.leaf u ∈ items → isFlat u.kind = true := by
  induction h with
  | operand h => exact h.isFlat
  | more h ht _ ih =>
    intro u hu
    rcases List.mem_append.1 hu with hu | hu
    · exact h.isFlat u hu
    · rcases List.mem_cons.1 hu with hu | hu
      · cases hu
        rw [ht]
        rfl
      · exact ih u hu

theorem isPunct_of_isFlat (h : isFlat t.kind = true) {p : Punct}
    (hp : isFlat (.punct p) = false) : t.isPunct p = false := by
  rw [Token.isPunct, Token.punct?]
  cases hk : t.kind with
  | punct q =>
    rw [hk] at h
    have hne : q ≠ p := by
      rintro rfl
      rw [hp] at h
      cases h
    simpa using hne
  | _ => rfl

theorem item_isPunct_of_isFlat (h : ∀ u, Item.leaf u ∈ items → isFlat u.kind = true) {p : Punct}
    (hp : isFlat (.punct p) = false) : ∀ item ∈ items, item.isPunct p = false := by
  intro item hitem
  cases item with
  | leaf u => exact isPunct_of_isFlat (h u hitem) hp
  | group => rfl

theorem OperandReads.ne_nil (h : OperandReads items k e k') : items ≠ [] := by
  cases h <;> simp

theorem FlatReads.ne_nil (h : FlatReads items k e rest k') : items ≠ [] := by
  cases h with
  | operand h => exact h.ne_nil
  | more => simp

/-! ## Where operands end -/

theorem endsOperand_of_unary {op : UnaryOp} (h : unaryOp? t = some op) :
    endsOperand (.leaf t) = false := by
  unfold unaryOp? at h
  unfold endsOperand
  split at h <;> simp_all [operandOpeners]

theorem endsOperand_of_binary (h : t.kind = .punct (.binary op)) :
    endsOperand (.leaf t) = false := by
  rw [endsOperand, h]

theorem operandOpeners_reserved (h : name ∈ operandOpeners) : name ∈ reservedWords := by
  revert name
  decide

theorem AtomReads.endsOperand (h : AtomReads item k e k') : endsOperand item = true := by
  cases h with
  | name ht hname =>
    have hopener := mt operandOpeners_reserved hname
    simp [Ast.endsOperand, ht, hopener]
  | word ht hvalue =>
    have hliteral : ∀ name ∈ ["true", "false", "null", "undefined", "NaN", "Infinity"],
        name ∉ operandOpeners := by decide
    have hopener := hliteral _ (wordLiteral?_mem hvalue)
    simp [Ast.endsOperand, ht, hopener]
  | number ht => simp [Ast.endsOperand, ht]
  | string ht => simp [Ast.endsOperand, ht]
  | parens => rfl

theorem OperandReads.last (h : OperandReads items k e k') :
    ∃ front last, items = front ++ [last] ∧ Ast.endsOperand last = true := by
  induction h with
  | atom h => exact ⟨[], _, rfl, h.endsOperand⟩
  | @prefixed t _ _ _ _ _ _ _ ih =>
    obtain ⟨front, last, rfl, hlast⟩ := ih
    exact ⟨.leaf t :: front, last, rfl, hlast⟩

theorem FlatReads.last (h : FlatReads items k e rest k') :
    ∃ front last, items = front ++ [last] ∧ Ast.endsOperand last = true := by
  induction h with
  | operand h => exact h.last
  | @more items _ t _ _ _ _ _ _ _ _ _ _ ih =>
    obtain ⟨front, last, rfl, hlast⟩ := ih
    exact ⟨items ++ .leaf t :: front, last, by simp, hlast⟩

/-! ## Searches for operators -/

/-- An operator is not a binary one behind an item that ends no operand. -/
def Quiet (op : BinaryOp) (x y : Item) : Prop := y.isPunct (.binary op) = true → endsOperand x = false

theorem operatorAfter_eq_none_iff :
    Cut.operatorAfter? op previous items = none ↔ (previous :: items).IsChain (Quiet op) := by
  induction items generalizing previous with
  | nil => simp [Cut.operatorAfter?]
  | cons item items ih =>
    rw [Cut.operatorAfter?, List.isChain_cons_cons, ← ih, Quiet]
    cases hcut : Cut.operatorAfter? op item items with
    | some cut => simp
    | none => cases hends : endsOperand previous <;> simp

theorem OperandReads.quiet (h : OperandReads items k e k') (op : BinaryOp)
    (hprevious : Ast.endsOperand previous = false) : (previous :: items).IsChain (Quiet op) := by
  induction h generalizing previous with
  | atom => exact .cons_cons (fun _ => hprevious) (.singleton _)
  | prefixed ht _ ih => exact .cons_cons (fun _ => hprevious) (ih (endsOperand_of_unary ht))

theorem FlatReads.quiet (h : FlatReads items k e rest k') (hop : ∀ x ∈ rest, x.1 ≠ op)
    (hprevious : Ast.endsOperand previous = false) :
    (previous :: items).IsChain (Quiet op) := by
  induction h generalizing previous with
  | operand h => exact h.quiet op hprevious
  | more h ht _ ih =>
    rw [List.forall_mem_cons] at hop
    rw [← List.cons_append, List.isChain_append]
    refine ⟨h.quiet op hprevious, ih hop.2 (endsOperand_of_binary ht), ?_⟩
    rintro x - _ ⟨⟩ hpunct
    -- another operator stands here
    rw [Item.isPunct, isPunct_leaf ht, decide_eq_true_eq] at hpunct
    injection hpunct with hpunct
    exact absurd hpunct hop.1

theorem FlatReads.operator_none (h : FlatReads items k e rest k')
    (hop : ∀ x ∈ rest, x.1 ≠ op) : Cut.operator? op items = none := by
  cases items with
  | nil => rfl
  | cons item items =>
    have hchain : (Item.leaf ⟨.punct .not, 0, 0⟩ :: item :: items).IsChain (Quiet op) := h.quiet hop rfl
    rw [Cut.operator?, operatorAfter_eq_none_iff.2 hchain.of_cons]
    rfl

theorem operatorAfter_found (ht : t.kind = .punct (.binary op))
    {right : List Item} (hright : Cut.operatorAfter? op (.leaf t) right = none) {last : Item}
    (hlast : endsOperand last = true) : ∀ {left : List Item} {previous : Item} {front : List Item},
    previous :: left = front ++ [last] →
      Cut.operatorAfter? op previous (left ++ .leaf t :: right) = some ⟨left, t, right⟩
  | [], previous, front, h => by
    have hprevious : previous = last := by
      cases front with
      | nil => simpa using h
      | cons x front => simp at h
    rw [List.nil_append, Cut.operatorAfter?, hright]
    simp [Item.isPunct, isPunct_leaf ht, hprevious, hlast, Item.last]
  | item :: left, previous, front, h => by
    have h' : ∃ front', item :: left = front' ++ [last] := by
      cases front with
      | nil => simp at h
      | cons x front => exact ⟨front, (List.cons.inj h).2⟩
    obtain ⟨front', h'⟩ := h'
    rw [List.cons_append, Cut.operatorAfter?, operatorAfter_found ht hright hlast h']
    rfl

/-- The loosest operator is found, at its last occurrence. -/
theorem binary_found {left right : List Item} {a b : Expr}
    {ls rs : List (BinaryOp × Expr)} {k₁ : Nat} (hleft : FlatReads left k a ls k₁)
    (ht : t.kind = .punct (.binary op)) (hright : FlatReads right k₁ b rs k')
    (hflat : FlatReads (left ++ .leaf t :: right) k a (ls ++ (op, b) :: rs) k')
    (hls : ∀ x ∈ ls, op.level ≤ x.1.level) (hrs : ∀ x ∈ rs, op.level < x.1.level) :
    Cut.binary? (left ++ .leaf t :: right) = some (op, ⟨left, t, right⟩) := by
  obtain ⟨looser, tighter, hscan, hlooser⟩ := op.scanOrder_split
  rw [Cut.binary?, hscan, List.findSome?_eq_some_iff]
  refine ⟨looser, op, tighter, rfl, ?_, ?_⟩
  · have hafter : Cut.operatorAfter? op (.leaf t) right = none :=
      operatorAfter_eq_none_iff.2 (hright.quiet (fun x hx heq => by
        have := hrs x hx
        rw [heq] at this
        omega) (endsOperand_of_binary ht))
    obtain ⟨front, last, hitems, hlast⟩ := hleft.last
    cases left with
    | nil => exact absurd rfl hleft.ne_nil
    | cons item left =>
      rw [List.cons_append, Cut.operator?, operatorAfter_found ht hafter hlast hitems]
      rfl
  · intro x hx
    have hlt := hlooser x hx
    have hnone : Cut.operator? x (left ++ .leaf t :: right) = none := by
      refine hflat.operator_none fun y hy heq => ?_
      subst heq
      rcases List.mem_append.1 hy with hy | hy
      · have := hls y hy
        omega
      · rcases List.mem_cons.1 hy with rfl | hy
        · exact absurd hlt (Nat.lt_irrefl _)
        · have := hrs y hy
          omega
    rw [hnone]
    rfl

/-! ## Steps of the parser -/

theorem bind_run {α β : Type} {x : Parse α} {f : α → Parse β} {a : α} {k k₁ : Nat}
    (h : x k = (.ok a, k₁)) : (x >>= f) k = f a k₁ := by
  show Parse.andThen x f k = f a k₁
  rw [Parse.andThen, h]

section Steps

variable {parts : Parsers} {before : Option Token}

/-- In a flat expression, commas, assignments and question marks are looked for in vain. -/
theorem expressionStep_flat (hflat : ∀ u, Item.leaf u ∈ items → isFlat u.kind = true) :
    (∀ op cut, Cut.binary? items = some (op, cut) → expressionStep parts ⟨before, items⟩ = do
        let left ← parts.expression ⟨before, cut.left⟩
        let right ← parts.expression ⟨some cut.token, cut.right⟩
        return .binary op left right) ∧
      (Cut.binary? items = none →
        expressionStep parts ⟨before, items⟩ = operand parts ⟨before, items⟩) := by
  have hassign : ∀ u, Item.leaf u ∈ items → (assignOp? u).isSome = false := by
    intro u hu
    have hu := hflat u hu
    unfold assignOp?
    split <;> simp_all [isFlat]
  have hquestion : ∀ u, Item.leaf u ∈ items → u.isPunct .question = false :=
    fun u hu => isPunct_of_isFlat (hflat u hu) rfl
  have hstep : expressionStep parts ⟨before, items⟩ = singleExpression parts ⟨before, items⟩ := by
    rw [expressionStep, Range.splitAt, splitItems_none before (item_isPunct_of_isFlat hflat rfl)]
    simp
  rw [hstep, singleExpression, first_none hassign, first_none hquestion]
  constructor
  · intro op cut hcut
    rw [hcut]
  · intro hcut
    rw [hcut]

theorem OperandReads.binary_none (h : OperandReads items k e k') : Cut.binary? items = none := by
  rw [Cut.binary?, List.findSome?_eq_none_iff]
  intro op _
  rw [(FlatReads.operand h).operator_none (by simp)]
  rfl

theorem expressionStep_atom (h : AtomReads item k e k')
    (hinner : ∀ o c inner, item = .group .round o c inner →
      parts.expression ⟨some o, inner⟩ k = (.ok e, k')) :
    expressionStep parts ⟨before, [item]⟩ k = (.ok e, k') := by
  have hoperand := OperandReads.atom h
  cases h with
  | name ht hname => exact congrFun (expressionStep_name parts before ht hname) k
  | word ht hvalue => exact congrFun (expressionStep_wordLiteral parts before ht hvalue) k
  | number ht => exact congrFun (expressionStep_number parts before ht) k
  | string ht => exact congrFun (expressionStep_string parts before ht) k
  | @parens o c inner =>
    have hprimary : primary parts ⟨before, [.group .round o c inner]⟩ k = (.ok (e, []), k') := by
      rw [primary]
      dsimp only
      rw [bind_run (hinner o c inner rfl)]
      rfl
    rw [(expressionStep_flat hoperand.isFlat).2 hoperand.binary_none]
    show chain parts _ k = _
    rw [chain, bind_run hprimary]
    rfl

end Steps

/-! ## Parsing within levels -/

theorem OperandReads.parse (h : OperandReads items k e k') :
    ∃ enough, ∀ depth, enough ≤ depth → ∀ before,
      expressionWithin depth ⟨before, items⟩ k = (.ok e, k') := by
  induction h with
  | @atom item e k k' h =>
    -- what is in parentheses is parsed within the levels that it takes, and in more
    have hinner : ∃ enough, ∀ depth, enough ≤ depth → ∀ o c inner, item = .group .round o c inner →
        (parsersWithin depth).expression ⟨some o, inner⟩ k = (.ok e, k') := by
      cases h with
      | @parens _ _ _ _ enough _ _ h =>
        refine ⟨enough, fun depth hdepth o c inner heq => ?_⟩
        cases heq
        exact expressionWithin_mono hdepth h
      | _ => exact ⟨0, fun _ _ _ _ _ heq => by cases heq⟩
    obtain ⟨enough, hinner⟩ := hinner
    refine ⟨enough + 1, fun depth hdepth before => ?_⟩
    obtain ⟨depth, rfl⟩ : ∃ n, depth = n + 1 := ⟨depth - 1, by omega⟩
    rw [expressionWithin_succ (by simp)]
    exact expressionStep_atom h (hinner depth (by omega))
  | @prefixed t op items e k k' ht h ih =>
    obtain ⟨enough, ih⟩ := ih
    refine ⟨enough + 1, fun depth hdepth before => ?_⟩
    obtain ⟨depth, rfl⟩ : ∃ n, depth = n + 1 := ⟨depth - 1, by omega⟩
    have hoperand := OperandReads.prefixed ht h
    have hrun : (parsersWithin depth).expression ⟨some t, items⟩ k = (.ok e, k') :=
      ih depth (by omega) (some t)
    rw [expressionWithin_succ (by simp), (expressionStep_flat hoperand.isFlat).2 hoperand.binary_none,
      operand]
    dsimp only
    rw [ht]
    dsimp only
    rw [bind_run hrun]
    rfl

/-- A flat expression is one up to any of its operators, and one behind it. -/
theorem FlatReads.split {b : Expr} {rs : List (BinaryOp × Expr)} :
    ∀ {ls : List (BinaryOp × Expr)} {items : List Item} {e : Expr} {k : Nat},
      FlatReads items k e (ls ++ (op, b) :: rs) k' →
      ∃ left t right k₁, items = left ++ .leaf t :: right ∧ t.kind = .punct (.binary op) ∧
        FlatReads left k e ls k₁ ∧ FlatReads right k₁ b rs k'
  | [], _, _, _, h => by
    cases h with
    | more h ht hrest => exact ⟨_, _, _, _, rfl, ht, .operand h, hrest⟩
  | x :: ls, _, _, _, h => by
    cases h with
    | more h ht hrest =>
      obtain ⟨left, t, right, k₁, rfl, ht', hleft, hright⟩ := hrest.split
      exact ⟨_, t, right, k₁, by simp, ht', .more h ht hleft, hright⟩

/-- A flat expression is parsed into its ranked tree. -/
theorem FlatReads.parse {tree : OpTree Expr} (htree : tree.Ranked e rest) {items : List Item} {k k' : Nat}
    (h : FlatReads items k e rest k') :
    ∃ enough, ∀ depth, enough ≤ depth → ∀ before,
      expressionWithin depth ⟨before, items⟩ k = (.ok tree.expr, k') := by
  induction htree generalizing items k k' with
  | operand a =>
    cases h with
    | operand h => exact h.parse
  | @node op left right a b ls rs _ _ hls hrs ihleft ihright =>
    obtain ⟨front, t, back, k₁, rfl, ht, hfront, hback⟩ := h.split
    obtain ⟨enough, hfront'⟩ := ihleft hfront
    obtain ⟨enough', hback'⟩ := ihright hback
    refine ⟨max enough enough' + 1, fun depth hdepth before => ?_⟩
    obtain ⟨depth, rfl⟩ : ∃ n, depth = n + 1 := ⟨depth - 1, by omega⟩
    have hleft : (parsersWithin depth).expression ⟨before, front⟩ k = (.ok left.expr, k₁) :=
      hfront' depth (by omega) before
    have hright : (parsersWithin depth).expression ⟨some t, back⟩ k₁ = (.ok right.expr, k') :=
      hback' depth (by omega) (some t)
    rw [expressionWithin_succ (by simp),
      (expressionStep_flat h.isFlat).1 _ _ (binary_found hfront ht hback h hls hrs)]
    dsimp only
    rw [bind_run hleft, bind_run hright]
    rfl

/-! ## Statements -/

theorem wordStatement_expression {parts : Parsers} {r : Range} {word : Token}
    {rest : List Item} (hname : name ∉ statementWords) (hfun : name ≠ "function")
    (hunsupported : name ∉ unsupportedWords) (clauseNext : Bool) :
    wordStatement parts clauseNext r word name rest = expressionStatement parts r (.leaf word) := by
  have hne : ∀ word ∈ statementWords, name ≠ word := by
    rintro word hword rfl
    exact hname hword
  have hdeclaring : name ∉ declaringWords := by
    have hsubset : declaringWords ⊆ statementWords := by decide
    exact fun h => hname (hsubset h)
  simp [wordStatement, hdeclaring, hfun, hunsupported, hne "return" (by decide), hne "throw" (by decide),
    hne "break" (by decide), hne "continue" (by decide), hne "if" (by decide), hne "for" (by decide),
    hne "switch" (by decide), hne "try" (by decide)]

/-- What may begin an expression at the front of a statement: a token that is no word of a statement,
or parentheses. -/
inductive OpensExpression : Item → Prop
  | leaf {t : Token} (hsemicolon : t.isPunct .semicolon = false)
      (hname : ∀ name, t.ident? = some name → name ∉ statementWords ∧ name ≠ "function") :
      OpensExpression (.leaf t)
  | parens {o c : Token} {inner : List Item} : OpensExpression (.group .round o c inner)

theorem AtomReads.opens (h : AtomReads item k e k') : OpensExpression item := by
  have hsemicolon : ∀ t, item = .leaf t → t.isPunct .semicolon = false := by
    rintro t rfl
    exact isPunct_of_isFlat h.isFlat rfl
  cases h with
  | name ht hname =>
    refine .leaf (hsemicolon _ rfl) fun name hident => ?_
    rw [ident_leaf ht, Option.some.injEq] at hident
    subst hident
    refine ⟨fun hword => hname ?_, ?_⟩
    · rw [reservedWords, List.append_assoc]
      exact List.mem_append_left _ hword
    · rintro rfl
      exact hname (by decide)
  | word ht hvalue =>
    refine .leaf (hsemicolon _ rfl) fun name hident => ?_
    rw [ident_leaf ht, Option.some.injEq] at hident
    subst hident
    have hliteral : ∀ name ∈ ["true", "false", "null", "undefined", "NaN", "Infinity"],
        name ∉ statementWords ∧ name ≠ "function" := by decide
    exact hliteral _ (wordLiteral?_mem hvalue)
  | number ht => exact .leaf (hsemicolon _ rfl) fun name hident => by simp [Token.ident?, ht] at hident
  | string ht => exact .leaf (hsemicolon _ rfl) fun name hident => by simp [Token.ident?, ht] at hident
  | parens => exact .parens

theorem OperandReads.opens (h : OperandReads items k e k') :
    ∃ item more, items = item :: more ∧ OpensExpression item := by
  cases h with
  | atom h => exact ⟨_, [], rfl, h.opens⟩
  | @prefixed t op items _ _ _ ht =>
    refine ⟨.leaf t, items, rfl, .leaf (isPunct_of_isFlat (isFlat_of_unary ht) rfl) fun name hident => ?_⟩
    -- the only operator that is a word
    have hvoid : name = "void" := by
      rw [unaryOp?, kind_of_ident? hident] at ht
      split at ht <;> simp_all
    rw [hvoid]
    decide

theorem FlatReads.opens (h : FlatReads items k e rest k') :
    ∃ item more, items = item :: more ∧ OpensExpression item := by
  cases h with
  | operand h => exact h.opens
  | more h ht hrest =>
    obtain ⟨item, more, rfl, hitem⟩ := h.opens
    exact ⟨item, _, rfl, hitem⟩

theorem statementStep_opens {parts : Parsers} (h : OpensExpression item)
    (hword : ∀ name ∈ item.ident?, name ∉ unsupportedWords) (clauseNext : Bool) (before : Option Token)
    (more : List Item) :
    statementStep parts clauseNext ⟨before, item :: more⟩ =
      expressionStatement parts ⟨before, item :: more⟩ item := by
  cases h with
  | @leaf t hsemicolon hname =>
    rw [statementStep]
    dsimp only
    rw [hsemicolon]
    cases hident : t.ident? with
    | none => rfl
    | some name =>
      obtain ⟨hstatement, hfun⟩ := hname name hident
      exact wordStatement_expression hstatement hfun (hword name hident) clauseNext
  | parens => rfl

/-- A flat expression alone is an expression statement. -/
theorem FlatReads.statements {tree : OpTree Expr} {depth : Nat} (h : FlatReads items k e rest k')
    (hparse : ∀ before, expressionWithin depth ⟨before, items⟩ k = (.ok tree.expr, k'))
    (hword : ∀ name ∈ items.head?.bind Item.ident?, name ∉ unsupportedWords) :
    Ast.statements (parsersWithin (depth + 1)) false ⟨none, items⟩ k = (.ok [.expr tree.expr], k') := by
  obtain ⟨item, more, rfl, hopens⟩ := h.opens
  have hsemicolon := item_isPunct_of_isFlat h.isFlat (p := .semicolon) rfl
  have hup : upToSemicolon (item :: more) = (item :: more, []) := by
    have hnone : ∀ u, Item.leaf u ∈ item :: more → u.isPunct .semicolon = false :=
      fun u hu => isPunct_of_isFlat (h.isFlat u hu) rfl
    rw [upToSemicolon, first_none hnone]
  have hexpression : (parsersWithin depth).expression ⟨none, item :: more⟩ k = (.ok tree.expr, k') :=
    hparse none
  have hstatement : (parsersWithin (depth + 1)).statement false ⟨none, item :: more⟩ k =
      (.ok ⟨.expr tree.expr, lastToken item.last (item :: more), []⟩, k') := by
    show statementWithin (depth + 1) false ⟨none, item :: more⟩ k = _
    rw [statementWithin_succ (by simp), statementStep_opens hopens hword, expressionStatement, hup]
    dsimp only
    rw [bind_run hexpression]
    rfl
  rw [Ast.statements, List.length_cons, statementsFrom, if_neg (by simp [hsemicolon]),
    bind_run hstatement]
  dsimp only
  cases more <;> rfl

/-- Splitting in the scan order is precedence climbing. A flat expression is parsed into the tree that
precedence climbing builds from its operands, wherever it stands and as the whole of a source, at every
depth that is large enough; the tree has the operands and operators in their order. Two of the words
outside the language name a value in an expression, but begin no statement. -/
theorem expression_climbs {first : Expr} (h : FlatReads items k first rest k') :
    (OpTree.climbed first rest).inorder = (first, rest) ∧
      ∃ enough, ∀ maxDepth, enough ≤ maxDepth →
        (∀ before, expressionWithin maxDepth ⟨before, items⟩ k =
          (.ok (OpTree.climbed first rest).expr, k')) ∧
        ∀ source, itemsOf source = .ok items →
          (∀ name ∈ items.head?.bind Item.ident?, name ∉ unsupportedWords) →
            parseStatements source maxDepth k = (.ok [.expr (OpTree.climbed first rest).expr], k') := by
  have hranked := OpTree.climbed_ranked first rest
  obtain ⟨enough, hparse⟩ := h.parse hranked
  refine ⟨hranked.inorder_eq, enough + 1, fun maxDepth hdepth => ⟨hparse maxDepth (by omega), ?_⟩⟩
  intro source hsource hword
  obtain ⟨depth, rfl⟩ : ∃ n, maxDepth = n + 1 := ⟨maxDepth - 1, by omega⟩
  rw [parseStatements, hsource]
  dsimp only
  rw [h.statements (hparse depth (by omega)) hword]

/-- A flat expression whose operators are not in the order of their levels. -/
def mixedText : List Char := "a-b+-(c-d)*void e".toList

/-- The items of the text. -/
def mixedItems : List Item :=
  [.leaf ⟨.ident "a", 0, 1⟩, .leaf ⟨.punct (.binary .sub), 1, 2⟩, .leaf ⟨.ident "b", 2, 3⟩,
    .leaf ⟨.punct (.binary .add), 3, 4⟩, .leaf ⟨.punct (.binary .sub), 4, 5⟩,
    .group .round ⟨.punct (.opening .round), 5, 6⟩ ⟨.punct (.closing .round), 9, 10⟩
      [.leaf ⟨.ident "c", 6, 7⟩, .leaf ⟨.punct (.binary .sub), 7, 8⟩, .leaf ⟨.ident "d", 8, 9⟩],
    .leaf ⟨.punct (.binary .mul), 10, 11⟩, .leaf ⟨.ident "void", 11, 15⟩, .leaf ⟨.ident "e", 16, 17⟩]

theorem expression_climbs_mixed : ∃ enough, ∀ maxDepth, enough ≤ maxDepth →
    parseStatements mixedText maxDepth 0 =
      (.ok [.expr (.binary .sub (.ident "a") (.binary .add (.ident "b")
        (.binary .mul (.unary .neg (.binary .sub (.ident "c") (.ident "d")))
          (.unary .void (.ident "e")))))], 0) := by
  have hitems : itemsOf mixedText = .ok mixedItems := by cbv
  have hinner : expressionWithin 2 ⟨some ⟨.punct (.opening .round), 5, 6⟩,
      [.leaf ⟨.ident "c", 6, 7⟩, .leaf ⟨.punct (.binary .sub), 7, 8⟩, .leaf ⟨.ident "d", 8, 9⟩]⟩ 0 =
      (.ok (.binary .sub (.ident "c") (.ident "d")), 0) := by cbv
  have hreads : FlatReads mixedItems 0 (.ident "a")
      [(.sub, .ident "b"), (.add, .unary .neg (.binary .sub (.ident "c") (.ident "d"))),
        (.mul, .unary .void (.ident "e"))] 0 := by
    refine .more (.atom (.name rfl (by decide))) rfl ?_
    refine .more (.atom (.name rfl (by decide))) rfl ?_
    refine .more (.prefixed rfl (.atom (.parens hinner))) rfl ?_
    exact .operand (.prefixed rfl (.atom (.name rfl (by decide))))
  have htree : (OpTree.climbed (.ident "a")
      [(.sub, .ident "b"), (.add, .unary .neg (.binary .sub (.ident "c") (.ident "d"))),
        (.mul, .unary .void (.ident "e"))]).expr =
      .binary .sub (.ident "a") (.binary .add (.ident "b")
        (.binary .mul (.unary .neg (.binary .sub (.ident "c") (.ident "d"))) (.unary .void (.ident "e")))) := by
    cbv
  obtain ⟨-, enough, hparse⟩ := expression_climbs hreads
  refine ⟨enough, fun maxDepth hdepth => ?_⟩
  rw [← htree]
  exact (hparse maxDepth hdepth).2 mixedText hitems (by rintro _ ⟨⟩; decide)

end PlayerScript.Ast
