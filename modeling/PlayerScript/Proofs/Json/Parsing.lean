/-
JSON documents as expressions. The items of a document are parsed as one expression statement that
follows the document: arrays and objects as they are written, a minus sign as an operator before a
number. A document at the beginning of a statement is never taken for a block.
-/
import PlayerScript.Proofs.Ast.Parser.Expression
import PlayerScript.Proofs.Ast.Relocation
import PlayerScript.Proofs.Json.Tokens

namespace PlayerScript.Json

open PlayerScript.Ast Shape Item

variable {w : Written} {ms : List (List StringPart × Written)} {r : Range}

/-! ## The expression of a document -/

mutual

/-- The expression that a written document is parsed as. -/
def Written.expr : Written → Expr
  | .null => .literal .null
  | .bool b => .literal (.bool b)
  | .number n =>
    if n.negative then .unary .neg (.literal (.number n.size)) else .literal (.number n.size)
  | .string parts => .literal (.string (decoded parts))
  | .array items => .array (itemExprs items)
  | .object members => .object (memberExprs members)

/-- The expressions that written elements are parsed as. -/
def itemExprs : List Written → List Expr
  | [] => []
  | w :: rest => w.expr :: itemExprs rest

/-- The members that written members are parsed as. -/
def memberExprs : List (List StringPart × Written) → List (String × Expr)
  | [] => []
  | (key, w) :: rest => (decoded key, w.expr) :: memberExprs rest

end

mutual

theorem allOf_shapes : ∀ w : Written, allOf (fun _ => true) w.shapes = true
  | .null => rfl
  | .bool true => rfl
  | .bool false => rfl
  | .string _ => rfl
  | .number n => by rw [Written.shapes]; split <;> rfl
  | .array ws => by
    rw [Written.shapes, allOf, all, allOf_commas rfl (allOf_itemShapes ws), allOf]
    rfl
  | .object ms => by
    rw [Written.shapes, allOf, all, allOf_commas rfl (allOf_memberShapes ms), allOf]
    rfl

theorem allOf_itemShapes : ∀ ws : List Written,
    ∀ part ∈ itemShapes ws, allOf (fun _ => true) part = true
  | [], part, h => by cases h
  | w :: ws, part, h => by
    rw [itemShapes, List.mem_cons] at h
    rcases h with rfl | h
    · exact allOf_shapes w
    · exact allOf_itemShapes ws part h

theorem allOf_memberShapes : ∀ ms : List (List StringPart × Written),
    ∀ part ∈ memberShapes ms, allOf (fun _ => true) part = true
  | [], part, h => by cases h
  | (key, w) :: ms, part, h => by
    rw [memberShapes, List.mem_cons] at h
    rcases h with rfl | h
    · rw [allOf, allOf, allOf_shapes w]
      rfl
    · exact allOf_memberShapes ms part h

end

theorem Written.shapes_ne_nil (w : Written) : w.shapes ≠ [] := by
  cases w with
  | bool b => cases b <;> simp [Written.shapes]
  | number n => rw [Written.shapes]; split <;> simp
  | _ => simp [Written.shapes]

/-- What a document is taken apart at never stands at its top level. -/
theorem Written.mark_notMem {p : Punct} (hp : p ≠ .binary .sub) (w : Written) :
    mark p ∉ w.shapes := by
  cases w with
  | bool b => cases b <;> simp [Written.shapes, mark, word]
  | number n => rw [Written.shapes]; split <;> simp [mark, hp]
  | _ => simp [Written.shapes, mark, word]

theorem depth_le_of_mem {ws : List Written} (h : w ∈ ws) : w.depth ≤ depthOfItems ws := by
  induction ws with
  | nil => cases h
  | cons v ws ih =>
    rw [depthOfItems]
    rcases List.mem_cons.1 h with rfl | h
    · exact Nat.le_max_left _ _
    · exact Nat.le_trans (ih h) (Nat.le_max_right _ _)

theorem depth_le_of_mem_members {m : List StringPart × Written}
    (h : m ∈ ms) : m.2.depth ≤ depthOfMembers ms := by
  induction ms with
  | nil => cases h
  | cons v ms ih =>
    obtain ⟨key, w⟩ := v
    rw [depthOfMembers]
    rcases List.mem_cons.1 h with rfl | h
    · exact Nat.le_max_left _ _
    · exact Nat.le_trans (ih h) (Nat.le_max_right _ _)

theorem itemShapes_eq_map (ws : List Written) : itemShapes ws = ws.map Written.shapes := by
  induction ws with
  | nil => rw [itemShapes, List.map_nil]
  | cons w ws ih => rw [itemShapes, ih, List.map_cons]

theorem itemExprs_eq_map (ws : List Written) : itemExprs ws = ws.map Written.expr := by
  induction ws with
  | nil => rw [itemExprs, List.map_nil]
  | cons w ws ih => rw [itemExprs, ih, List.map_cons]

theorem memberShapes_eq_map (ms : List (List StringPart × Written)) :
    memberShapes ms =
      ms.map fun m => .leaf (.string (decoded m.1)) :: mark .colon :: m.2.shapes := by
  induction ms with
  | nil => rw [memberShapes, List.map_nil]
  | cons m ms ih => rw [memberShapes, ih, List.map_cons]

theorem memberExprs_eq_map (ms : List (List StringPart × Written)) :
    memberExprs ms = ms.map fun m => (decoded m.1, m.2.expr) := by
  induction ms with
  | nil => rw [memberExprs, List.map_nil]
  | cons m ms ih => rw [memberExprs, ih, List.map_cons]

/-! ## Parsing of expressions -/

section

variable {parts : Parsers} {before : Option Token}

/-- The parser for parts reads a document as its expression. -/
def ReadsDocument (parts : Parsers) (w : Written) : Prop :=
  ∀ before, parts.expression ⟨before, ofShapes w.shapes⟩ = Parse.done w.expr

theorem Written.exists_cons (w : Written) : ∃ first rest, ofShapes w.shapes = first :: rest :=
  List.exists_cons_of_ne_nil (mt ofShapes_eq_nil.1 w.shapes_ne_nil)

theorem expressionStep_negative {x : Float} (hx : ∀ before,
      parts.expression ⟨before, ofShapes [.leaf (.number x)]⟩ = Parse.done (.literal (.number x))) :
    expressionStep parts ⟨before, ofShapes [mark (.binary .sub), .leaf (.number x)]⟩ =
      Parse.done (.unary .neg (.literal (.number x))) := by
  have hminus : unaryOp? ⟨.punct (.binary .sub), 0, 0⟩ = some .neg := rfl
  rw [ofShapes, mark, ofShape, expressionStep_operand (by simp) (by simp [isSplitter])]
  simp only [operand, hminus, hx, done_bind]
  rfl

theorem expressionStep_items {ws : List Written} (hws : ∀ w ∈ ws, ReadsDocument parts w) :
    expressionStep parts ⟨before, ofShapes [.group .square (commas (itemShapes ws))]⟩ =
      Parse.done (.array (itemExprs ws)) := by
  rw [itemShapes_eq_map, itemExprs_eq_map]
  refine expressionStep_square (each_listed (fun w => ⟨w.shapes_ne_nil, w.mark_notMem (by simp)⟩)
    (fun w hw before => ?_) rfl)
  rw [arrayElement, if_neg (by simpa [ofShapes_eq_nil] using w.shapes_ne_nil), hws w hw]

theorem objectMember_document (key : List StringPart) (hw : ReadsDocument parts w) :
    objectMember parts ⟨before, ofShapes (.leaf (.string (decoded key)) :: mark .colon :: w.shapes)⟩ =
      Parse.done (decoded key, w.expr) := by
  obtain ⟨first, rest, hitems⟩ := w.exists_cons
  have hvalue := hw (some ⟨.punct .colon, 0, 0⟩)
  rw [hitems] at hvalue
  simp [mark, objectMember, hitems, memberKey?, Item.isPunct, Item.last, hvalue, done_bind]
  rfl

theorem expressionStep_members (hms : ∀ m ∈ ms, ReadsDocument parts m.2) :
    expressionStep parts ⟨before, ofShapes [.group .curly (commas (memberShapes ms))]⟩ =
      Parse.done (.object (memberExprs ms)) := by
  rw [memberShapes_eq_map, memberExprs_eq_map]
  refine expressionStep_curly (each_listed (fun m => ⟨by simp, ?_⟩)
    (fun m hm before => objectMember_document m.1 (hms m hm)) rfl)
  simpa [mark] using m.2.mark_notMem (p := .comma) (by simp)

end

/-- Each container takes one level of nesting, and a number at most two. -/
theorem expressionWithin_document (depth : Nat) : ∀ w : Written, w.depth + 2 ≤ depth →
    ReadsDocument (parsersWithin depth) w := by
  induction depth with
  | zero =>
    intro w h
    omega
  | succ depth ih =>
    intro w h before
    refine (expressionWithin_succ (mt ofShapes_eq_nil.1 w.shapes_ne_nil)).trans ?_
    rw [Written.shapes.eq_def, Written.expr.eq_def]
    cases w with
    | null => exact expressionStep_literal _ _ .null
    | bool b =>
      cases b with
      | false => exact expressionStep_literal _ _ (.bool false)
      | true => exact expressionStep_literal _ _ (.bool true)
    | string s => exact expressionStep_literal _ _ (.string _)
    | number n =>
      dsimp only
      split_ifs
      · obtain ⟨depth, rfl⟩ : ∃ d, depth = d + 1 := ⟨depth - 1, by omega⟩
        exact expressionStep_negative fun before =>
          (expressionWithin_succ (by simp)).trans (expressionStep_literal _ _ (.number _))
      · exact expressionStep_literal _ _ (.number _)
    | array ws =>
      rw [Written.depth] at h
      refine expressionStep_items fun w hw => ih w ?_
      have := depth_le_of_mem hw
      omega
    | object ms =>
      rw [Written.depth] at h
      refine expressionStep_members fun m hm => ih m.2 ?_
      have := depth_le_of_mem_members hm
      omega

/-! ## Parsing of statements -/

section

variable {parts : Parsers}

theorem expressionStatement_document (hw : ReadsDocument parts w) (before : Option Token) (first : Item) :
    ∃ last, expressionStatement parts ⟨before, ofShapes w.shapes⟩ first =
      Parse.done ⟨.expr w.expr, last, []⟩ := by
  have hnone : upToSemicolon (ofShapes w.shapes) = (ofShapes w.shapes, []) := by
    have hleaf : ∀ u, Item.leaf u ∈ ofShapes w.shapes → u.isPunct .semicolon = false :=
      fun u hu => isPunct_ofShapes (w.mark_notMem (by simp)) _ hu
    rw [upToSemicolon, first_none hleaf]
  refine ⟨lastToken first.last (ofShapes w.shapes), ?_⟩
  simp only [expressionStatement, hnone, hw before, done_bind]
  rfl

/-- The braces of an object are known by its first key and the colon behind it. -/
theorem isObject_document : isObject (ofShapes (commas (memberShapes ms))) [] = true := by
  rw [memberShapes_eq_map]
  cases ms with
  | nil => rfl
  | cons m ms =>
    cases ms <;> simp [commas, List.intercalate_cons_cons, mark, isObject, memberKey?, Item.isPunct]

theorem statementStep_document (hw : ReadsDocument parts w) (clauseNext : Bool) (before : Option Token) :
    ∃ last, statementStep parts clauseNext ⟨before, ofShapes w.shapes⟩ =
      Parse.done ⟨.expr w.expr, last, []⟩ := by
  have hexpression := expressionStatement_document hw before
  rw [Written.shapes.eq_def] at hexpression ⊢
  cases w with
  | bool b => cases b <;> exact hexpression _
  | number n =>
    dsimp only at hexpression ⊢
    split_ifs at hexpression ⊢ <;> exact hexpression _
  | object ms =>
    dsimp only [ofShapes, ofShape] at hexpression ⊢
    simp only [statementStep, isObject_document, if_true]
    exact hexpression _
  | _ => exact hexpression _

end

/-- A document is parsed as one statement, with three levels of nesting more than it has. -/
theorem parseStatements_document {cs : List Char} (h : Written.read? cs = some w)
    {j : Json} (hj : w.toJson? = some j) {depth : Nat} (hdepth : w.depth + 3 ≤ depth) (minted : Nat) :
    parseStatements cs depth minted = (.ok [.expr w.expr], minted) := by
  obtain ⟨ts, htokens, hkinds⟩ := tokenize_of_read h hj
  obtain ⟨depth, rfl⟩ : ∃ d, depth = d + 1 := ⟨depth - 1, by omega⟩
  refine (parseStatements_of_shapes htokens hkinds (allOf_shapes w) (depth + 1) minted).ok_iff.1 ?_
  obtain ⟨last, hstep⟩ := statementStep_document (expressionWithin_document depth w (by omega)) false none
  obtain ⟨first, rest, hitems⟩ := w.exists_cons
  have hsemicolon : first.isPunct .semicolon = false :=
    isPunct_ofShapes (w.mark_notMem (by simp)) first (hitems ▸ List.mem_cons_self)
  rw [hitems] at hstep ⊢
  have hstatement : (parsersWithin (depth + 1)).statement false ⟨none, first :: rest⟩ =
      Parse.done ⟨.expr w.expr, last, []⟩ := (statementWithin_succ (by simp)).trans hstep
  simp only [statements, List.length_cons, statementsFrom, hsemicolon, Bool.false_eq_true, if_false,
    hstatement, done_bind]
  rfl

end PlayerScript.Json
