/-
Reading printed expressions, one construct at a time. Each lemma is about one step of the parser:
if the parts of an expression are read back from their parentheses, the expression is read back from
what it is printed as. How deep the parts are nested plays no role here.
-/
import PlayerScript.Proofs.Ast.Parser.Basic

namespace PlayerScript.Ast

open Shape Item

variable {parts : Parsers} {before : Option Token} {e : Expr} {t : Token} {name : String} {params : List String}

/-- The parser for parts gives an expression back, in parentheses or not. -/
structure Reads (parts : Parsers) (e : Expr) : Prop where
  bare : ∀ before, parts.expression ⟨before, ofShapes (inside e)⟩ = Parse.done e
  wrapped : ∀ before, parts.expression ⟨before, ofShapes [.group .round (inside e)]⟩ = Parse.done e

/-- The parser for parts gives a list of statements back, after a semicolon or not. -/
def ReadsBody (parts : Parsers) (stmts : List Stmt) : Prop :=
  ∀ clauseNext before, statements parts clauseNext ⟨before, ofShapes (bodyShapes stmts)⟩ = Parse.done stmts ∧
    statements parts clauseNext ⟨before, ofShapes (mark .semicolon :: bodyShapes stmts)⟩ = Parse.done stmts

theorem Reads.group (h : Reads parts e) (before : Option Token) :
    parts.expression ⟨before, [.group .round ⟨.punct (.opening .round), 0, 0⟩ ⟨.punct (.closing .round), 0, 0⟩
      (ofShapes (inside e))]⟩ = Parse.done e := by
  simpa using h.wrapped before

theorem ReadsBody.block {stmts : List Stmt} (h : ReadsBody parts stmts) (before : Option Token) :
    statements parts false ⟨before, .leaf ⟨.punct .semicolon, 0, 0⟩ :: ofShapes (bodyShapes stmts)⟩ =
      Parse.done stmts :=
  (h false before).2

theorem elementShapes_eq_map (items : List Expr) :
    elementShapes items = items.map fun e => [.group .round (inside e)] := by
  induction items with
  | nil => rw [elementShapes, List.map_nil]
  | cons e rest ih => rw [elementShapes, ih, List.map_cons]

theorem memberShapes_eq_map (members : List (String × Expr)) :
    memberShapes members =
      members.map fun m => [.leaf (.string m.1), mark .colon, .group .round (inside m.2)] := by
  induction members with
  | nil => rw [memberShapes, List.map_nil]
  | cons m rest ih => rw [memberShapes, ih, List.map_cons]

theorem statementWithin_succ {depth : Nat} {clauseNext : Bool} {r : Range} (h : r.items ≠ []) :
    statementWithin (depth + 1) clauseNext r = statementStep (parsersWithin depth) clauseNext r := by
  rw [statementWithin, if_neg (by simpa using h)]
  rfl

theorem expressionWithin_succ {depth : Nat} {r : Range} (h : r.items ≠ []) :
    expressionWithin (depth + 1) r = expressionStep (parsersWithin depth) r := by
  rw [expressionWithin, if_neg (by simpa using h)]
  rfl

/-! ## Operands -/

/-- Whether an expression is taken apart at a token of the kind. -/
def isSplitter : TokenKind → Bool
  | .punct .comma | .punct .question | .punct (.assign _) | .punct (.binary _) => true
  | _ => false

/-- An expression with nothing to split at, except an operator in front, is an operand. -/
theorem expressionStep_operand {first : Item} {rest : List Item}
    (hfirst : ∀ k, first.shape = .leaf k → isSplitter k = false ∨ ∃ op, k = .punct (.binary op))
    (hrest : ∀ k, Shape.leaf k ∈ rest.map shape → isSplitter k = false) :
    expressionStep parts ⟨before, first :: rest⟩ = operand parts ⟨before, first :: rest⟩ := by
  -- Commas, assignments, question marks and operators are looked for one after another: none is found.
  have hkind : ∀ u, Item.leaf u ∈ first :: rest →
      isSplitter u.kind = false ∨ ∃ op, u.kind = .punct (.binary op) := by
    intro u hu
    rcases List.mem_cons.1 hu with rfl | hu
    · exact hfirst _ (shape_leaf u)
    · exact .inl (hrest _ (shape_leaf u ▸ List.mem_map_of_mem hu))
  have hpunct : ∀ p, isSplitter (.punct p) = true → (∀ op, p ≠ .binary op) →
      ∀ u, Item.leaf u ∈ first :: rest → u.isPunct p = false := by
    intro p hp hop u hu
    rw [Token.isPunct, Token.punct?]
    rcases hkind u hu with hk | ⟨op, hk⟩
    · cases hu' : u.kind with
      | punct q => rw [hu'] at hk; simpa using fun hq : q = p => by rw [hq, hp] at hk; cases hk
      | _ => rfl
    · rw [hk]; simpa using (hop op).symm
  have hcomma : ∀ item ∈ first :: rest, item.isPunct .comma = false := by
    intro item hitem
    cases item with
    | leaf u => exact hpunct .comma rfl (by simp) u hitem
    | group => rfl
  have hassign : ∀ u, Item.leaf u ∈ first :: rest → (assignOp? u).isSome = false := by
    intro u hu
    rw [assignOp?]
    split
    · rename_i op hk
      rcases hkind u hu with h | ⟨op', h⟩ <;> rw [hk] at h <;> cases h
    · rfl
  have hbinary : ∀ item ∈ rest, ∀ op, item.isPunct (.binary op) = false := by
    intro item hitem op
    have hmark : mark (.binary op) ∉ rest.map shape := fun hm =>
      absurd (hrest _ hm) (by simp [isSplitter])
    exact isPunct_eq_false hmark item hitem
  rw [expressionStep, Range.splitAt, splitItems_none before hcomma]
  simp only [List.length_singleton, Nat.lt_irrefl, if_false]
  rw [singleExpression, first_none hassign, first_none (hpunct .question rfl (by simp)),
    binary_none hbinary]

theorem operand_leaf {rest : List Item} (hu : unaryOp? t = none)
    (hs : updateOp? t = none) (hrest : ∀ u, rest = [.leaf u] → updateOp? u = none) :
    operand parts ⟨before, .leaf t :: rest⟩ = chain parts ⟨before, .leaf t :: rest⟩ := by
  simp only [operand, hu, hs]
  split
  · rename_i u
    rw [hrest u rfl]
  · rfl

theorem not_reserved (h : isIdentifier name = true) : name ∉ reservedWords := by
  rw [isIdentifier, Bool.and_eq_true, Bool.not_eq_true'] at h
  simpa using h.2

theorem unaryOp_ident (ht : t.kind = .ident name) (h : name ≠ "void") : unaryOp? t = none := by
  rw [unaryOp?, ht]
  split <;> simp_all

theorem updateOp_ident (ht : t.kind = .ident name) : updateOp? t = none := by
  rw [updateOp?, ht]

theorem wordLiteral?_mem {value : Literal} (h : wordLiteral? name = some value) :
    name ∈ ["true", "false", "null", "undefined", "NaN", "Infinity"] := by
  unfold wordLiteral? at h
  split at h <;> simp_all

theorem wordLiteral?_eq_none (h : name ∉ reservedWords) : wordLiteral? name = none := by
  rw [Option.eq_none_iff_forall_ne_some]
  intro value hvalue
  have hliteral : ∀ name ∈ ["true", "false", "null", "undefined", "NaN", "Infinity"],
      name ∈ reservedWords := by decide
  exact h (hliteral name (wordLiteral?_mem hvalue))

section Leaves

variable (parts before)

theorem expressionStep_word (hvoid : name ≠ "void") (ht : t.kind = .ident name) :
    expressionStep parts ⟨before, [.leaf t]⟩ =
      (namePrimary parts ⟨before, [.leaf t]⟩ name [] >>= fun out =>
        suffixes parts ⟨before, [.leaf t]⟩ out.1 out.2) := by
  rw [expressionStep_operand (by simp [ht, isSplitter]) (by simp),
    operand_leaf (unaryOp_ident ht hvoid) (updateOp_ident ht) (by simp)]
  simp only [chain, primary, ht]

theorem expressionStep_name (ht : t.kind = .ident name) (hname : name ∉ reservedWords) :
    expressionStep parts ⟨before, [.leaf t]⟩ = Parse.done (.ident name) := by
  have hn := hname
  simp only [reservedWords, List.mem_append, not_or] at hn
  have hfun : name ≠ "function" := by rintro rfl; exact hname (by decide)
  have hvoid : name ≠ "void" := by rintro rfl; exact hname (by decide)
  rw [expressionStep_word parts before hvoid ht, namePrimary, if_neg hfun, wordLiteral?_eq_none hname]
  simp only [List.contains_eq_mem, hn, decide_false, Bool.or_self, Bool.false_eq_true, if_false]
  rfl

theorem expressionStep_wordLiteral {value : Literal} (ht : t.kind = .ident name)
    (hvalue : wordLiteral? name = some value) :
    expressionStep parts ⟨before, [.leaf t]⟩ = Parse.done (.literal value) := by
  have hfun : name ≠ "function" := by rintro rfl; cases hvalue
  have hvoid : name ≠ "void" := by rintro rfl; cases hvalue
  rw [expressionStep_word parts before hvoid ht, namePrimary, if_neg hfun, hvalue]
  rfl

theorem expressionStep_number {x : Float} (ht : t.kind = .number x) :
    expressionStep parts ⟨before, [.leaf t]⟩ = Parse.done (.literal (.number x)) := by
  rw [expressionStep_operand (by simp [ht, isSplitter]) (by simp),
    operand_leaf (by simp [unaryOp?, ht]) (by simp [updateOp?, ht]) (by simp)]
  simp only [chain, primary, ht, done_bind, suffixes]

theorem expressionStep_string {s : String} (ht : t.kind = .string s) :
    expressionStep parts ⟨before, [.leaf t]⟩ = Parse.done (.literal (.string s)) := by
  rw [expressionStep_operand (by simp [ht, isSplitter]) (by simp),
    operand_leaf (by simp [unaryOp?, ht]) (by simp [updateOp?, ht]) (by simp)]
  simp only [chain, primary, ht, done_bind, suffixes]

theorem expressionStep_literal (value : Literal) :
    expressionStep parts ⟨before, ofShapes [literalShape value]⟩ = Parse.done (.literal value) := by
  cases value with
  | undefined => exact expressionStep_wordLiteral parts before rfl rfl
  | null => exact expressionStep_wordLiteral parts before rfl rfl
  | bool b => cases b <;> exact expressionStep_wordLiteral parts before rfl rfl
  | number x => exact expressionStep_number parts before rfl
  | string s => exact expressionStep_string parts before rfl

end Leaves

/-! ## Lists -/

theorem expressionStep_square {ss : List Shape} {es : List Expr} (h : ∀ before,
      Parse.each (arrayElement parts) (Range.listed ⟨before, ofShapes ss⟩) = Parse.done es) :
    expressionStep parts ⟨before, ofShapes [.group .square ss]⟩ = Parse.done (.array es) := by
  rw [ofShapes, ofShape, ofShapes, expressionStep_operand (by simp) (by simp)]
  simp only [operand, chain, primary, h, done_bind]
  rfl

theorem expressionStep_array {es : List Expr} (hes : ∀ e ∈ es, Reads parts e) :
    expressionStep parts ⟨before, ofShapes (inside (.array es))⟩ = Parse.done (.array es) := by
  rw [inside, elementShapes_eq_map]
  refine expressionStep_square (each_listed (fun e => by simp [mark]) (fun e he before => ?_) es.map_id')
  rw [arrayElement, if_neg (by simp), (hes e he).wrapped]

theorem expressionStep_curly {ss : List Shape} {members : List (String × Expr)} (h : ∀ before,
      Parse.each (objectMember parts) (Range.listed ⟨before, ofShapes ss⟩) = Parse.done members) :
    expressionStep parts ⟨before, ofShapes [.group .curly ss]⟩ = Parse.done (.object members) := by
  rw [ofShapes, ofShape, ofShapes, expressionStep_operand (by simp) (by simp)]
  simp only [operand, chain, primary, h, done_bind]
  rfl

theorem expressionStep_object {members : List (String × Expr)} (hm : ∀ m ∈ members, Reads parts m.2) :
    expressionStep parts ⟨before, ofShapes (inside (.object members))⟩ = Parse.done (.object members) := by
  rw [inside, memberShapes_eq_map]
  refine expressionStep_curly (each_listed (fun m => by simp [mark]) (fun m hmem before => ?_) members.map_id')
  simp [mark, objectMember, memberKey?, Item.isPunct, (hm m hmem).group, done_bind]
  rfl

theorem length_rangesOf (ss : List (List Shape)) : ∀ before, (rangesOf before ss).length = ss.length := by
  induction ss with
  | nil => exact fun _ => rfl
  | cons part ss ih => exact fun _ => congrArg Nat.succ (ih _)

theorem expressionStep_sequence {es : List Expr} (hlen : 2 ≤ es.length) (hes : ∀ e ∈ es, Reads parts e) :
    expressionStep parts ⟨before, ofShapes (inside (.sequence es))⟩ = Parse.done (.sequence es) := by
  have hne : es ≠ [] := by rintro rfl; simp at hlen
  rw [inside, elementShapes_eq_map, expressionStep, splitAt_commas hne (by simp [mark]),
    if_pos (by rw [length_rangesOf, List.length_map]; omega),
    each_rangesOf (fun e he before => (hes e he).wrapped before), List.map_id']
  rfl

/-! ## Functions -/

variable (parts name params) in
/-- The name and the parameters of a function are read, and its body is left to parse. -/
theorem functionAfterWord_header (body : List Shape) (rest : List Item) :
    functionAfterWord parts (ofShapes [word name, .group .round (commas (params.map fun p => [word p])),
      .group .curly body] ++ rest) = do
      let stmts ← statements parts false ⟨some ⟨.punct (.opening .curly), 0, 0⟩, ofShapes body⟩
      return ⟨name, params, stmts, ⟨.punct (.closing .curly), 0, 0⟩, rest⟩ := by
  have hparams : ∀ before, Parse.each parameter (Range.listed ⟨before,
      ofShapes (commas (params.map fun p => [.leaf (.ident p)]))⟩) = Parse.done params :=
    each_listed (fun p => by simp [mark]) (fun p _ before => rfl) params.map_id'
  simp [functionAfterWord, functionName, Item.ident?, word, Token.ident?, done_bind, expectGroup_group,
    Opened.range, hparams]

theorem expressionStep_function {body : List Stmt} (hbody : ReadsBody parts body) :
    expressionStep parts ⟨before, ofShapes (inside (.function name params body))⟩ =
      Parse.done (.function name params body) := by
  have hf := functionAfterWord_header parts name params (mark .semicolon :: bodyShapes body) []
  rw [List.append_nil, (hbody false _).2, done_bind] at hf
  rw [inside, ofShapes, word, ofShape, expressionStep_operand (by simp [isSplitter]) (by simp [word, isSplitter]),
    operand_leaf (unaryOp_ident rfl (by decide)) rfl (by simp)]
  simp only [chain, primary, namePrimary, if_true, hf]
  rfl

/-! ## Operators -/

theorem expressionStep_unary {op : UnaryOp} (he : Reads parts e) :
    expressionStep parts ⟨before, ofShapes (inside (.unary op e))⟩ = Parse.done (.unary op e) := by
  have hop : ∃ k, unaryShape op = .leaf k ∧ unaryOp? ⟨k, 0, 0⟩ = some op ∧
      (isSplitter k = false ∨ ∃ op, k = .punct (.binary op)) := by
    cases op
    · exact ⟨_, rfl, rfl, .inr ⟨_, rfl⟩⟩
    · exact ⟨_, rfl, rfl, .inr ⟨_, rfl⟩⟩
    · exact ⟨_, rfl, rfl, .inl rfl⟩
    · exact ⟨_, rfl, rfl, .inl rfl⟩
  obtain ⟨k, hshape, hunary, hsplit⟩ := hop
  rw [inside, hshape, ofShapes, ofShape, expressionStep_operand (by simpa using hsplit) (by simp)]
  simp only [operand, hunary, he.wrapped, done_bind]
  rfl

theorem expressionStep_update {op : UpdateOp} {isBefore : Bool} (hname : isIdentifier name = true) :
    expressionStep parts ⟨before, ofShapes (inside (.update op isBefore name))⟩ =
      Parse.done (.update op isBefore name) := by
  have hn := not_reserved hname
  have hvoid : name ≠ "void" := by rintro rfl; exact hn (by decide)
  simp only [reservedWords, List.mem_append, not_or] at hn
  have hunary : unaryOp? ⟨.ident name, 0, 0⟩ = none := unaryOp_ident rfl hvoid
  cases isBefore <;> simp only [inside, mark, word, ofShapes, ofShape] <;>
    rw [expressionStep_operand (by simp [isSplitter]) (by simp [isSplitter])]
  · simp [operand, hunary, updateOp?, stepAfter, Token.ident?, hn.1.1]
  · simp [operand, unaryOp?, updateOp?, stepBefore, Item.ident?, Token.ident?]

theorem expressionStep_binary {op : BinaryOp} {left right : Expr} (hl : Reads parts left)
    (hr : Reads parts right) : expressionStep parts ⟨before, ofShapes (inside (.binary op left right))⟩ =
      Parse.done (.binary op left right) := by
  simp [inside, mark, expressionStep, Range.splitAt, Range.splitItems, Range.consFirst, Item.isPunct,
    singleExpression, Cut.first?, assignOp?, binary_between, hl.group, hr.group, done_bind]
  rfl

theorem expressionStep_conditional {test consequent alternate : Expr} (ht : Reads parts test)
    (hc : Reads parts consequent) (ha : Reads parts alternate) :
    expressionStep parts ⟨before, ofShapes (inside (.conditional test consequent alternate))⟩ =
      Parse.done (.conditional test consequent alternate) := by
  simp [inside, mark, expressionStep, Range.splitAt, Range.splitItems, Range.consFirst, Item.isPunct,
    singleExpression, Cut.first?, Cut.cons, assignOp?, conditional, Cut.colon?, Item.last, ht.group, hc.group,
    ha.group, done_bind]
  rfl

theorem expressionStep_assign (hname : isIdentifier name = true) {op : AssignOp} {index : Option Expr}
    {value : Expr} (hi : ∀ e ∈ index, Reads parts e) (hv : Reads parts value) :
    expressionStep parts ⟨before, ofShapes (inside (.assign name index op value))⟩ =
      Parse.done (.assign name index op value) := by
  have hn := not_reserved hname
  simp only [reservedWords, List.mem_append, not_or] at hn
  cases index with
  | none =>
    simp [inside, word, mark, expressionStep, Range.splitAt, Range.splitItems, Range.consFirst, Item.isPunct,
      Token.isPunct, Token.punct?, singleExpression, Cut.first?, Cut.cons, assignOp?, assignment,
      assignTarget?, Token.ident?, hn.1.1, hv.group, done_bind]
    rfl
  | some index =>
    simp [inside, word, mark, expressionStep, Range.splitAt, Range.splitItems, Range.consFirst, Item.isPunct,
      Token.isPunct, Token.punct?, singleExpression, Cut.first?, Cut.cons, assignOp?, assignment,
      assignTarget?, Token.ident?, hn.1.1, (hi index rfl).group, hv.group, done_bind]
    rfl

/-! ## Members and calls -/

theorem expressionStep_named {object : Expr} (ho : Reads parts object) {optional : Bool} :
    expressionStep parts ⟨before, ofShapes (inside (.member object (.name name) optional))⟩ =
      Parse.done (.member object (.name name) optional) := by
  cases optional <;> simp only [inside, mark, word, ofShapes, ofShape] <;>
    rw [expressionStep_operand (by simp) (by simp [isSplitter])] <;>
    simp [operand, chain, primary, ho.bare, done_bind, pure, suffixes, Token.ident?]

theorem expressionStep_computed {object key : Expr} (ho : Reads parts object) (hk : Reads parts key)
    {optional : Bool} : expressionStep parts ⟨before, ofShapes (inside (.member object (.computed key) optional))⟩ =
      Parse.done (.member object (.computed key) optional) := by
  cases optional <;> simp only [inside, mark, ofShapes, ofShape] <;>
    rw [expressionStep_operand (by simp) (by simp [isSplitter])] <;>
    simp [operand, chain, primary, ho.bare, done_bind, pure, suffixes, hk.group]

theorem expressionStep_call {callee : Expr} {args : List Expr} (hc : Reads parts callee)
    (ha : ∀ e ∈ args, Reads parts e) :
    expressionStep parts ⟨before, ofShapes (inside (.call callee args))⟩ = Parse.done (.call callee args) := by
  have hargs : ∀ before, Parse.each parts.expression
      (Range.listed ⟨before, ofShapes (commas (elementShapes args))⟩) = Parse.done args := by
    rw [elementShapes_eq_map]
    exact each_listed (fun e => by simp [mark]) (fun e he => (ha e he).wrapped) args.map_id'
  simp only [inside, ofShapes, ofShape]
  rw [expressionStep_operand (by simp) (by simp)]
  simp [operand, chain, primary, hc.bare, done_bind, pure, suffixes, hargs]

/-- An expression in parentheses is the expression. -/
theorem expressionStep_wrapped (he : ∀ before, parts.expression ⟨before, ofShapes (inside e)⟩ = Parse.done e) :
    expressionStep parts ⟨before, ofShapes [.group .round (inside e)]⟩ = Parse.done e := by
  simp only [ofShapes, ofShape]
  rw [expressionStep_operand (by simp) (by simp)]
  simp [operand, chain, primary, he, done_bind, pure, suffixes]

end PlayerScript.Ast
