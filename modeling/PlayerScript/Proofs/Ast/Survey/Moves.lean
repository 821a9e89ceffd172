/-
Items elsewhere. A move gives each token another place, and puts another token before everything. The
parser's searches look at nothing but the kinds of tokens, so they take moved items apart where they take
the items themselves apart.
-/
import Mathlib
import PlayerScript.Ast.Parser

namespace PlayerScript.Ast

theorem kind_of_ident? {t : Token} {name : String} (h : t.ident? = some name) :
    t.kind = .ident name := by
  unfold Token.ident? at h
  split at h
  · rename_i name' hkind
    cases h
    exact hkind
  · cases h

/-- Other places for tokens, and the token before everything. -/
structure Move where
  token : Token → Token
  start : Option Token
  kind_token : ∀ t, (token t).kind = t.kind

namespace Move

/-- Everything stays in its place, behind the given token. -/
def still (start : Option Token) : Move := ⟨id, start, fun _ => rfl⟩

/-- No place is known. -/
def blank : Move := ⟨fun t => ⟨t.kind, 0, 0⟩, none, fun _ => rfl⟩

variable (m : Move)

mutual

/-- An item elsewhere. -/
def item : Item → Item
  | .leaf t => .leaf (m.token t)
  | .group b o c xs => .group b (m.token o) (m.token c) (items xs)

/-- Items elsewhere. -/
def items : List Item → List Item
  | [] => []
  | x :: xs => item x :: items xs

end

/-- The token before a range that is elsewhere. -/
def before : Option Token → Option Token
  | none => m.start
  | some t => some (m.token t)

/-- A range elsewhere. -/
def range (r : Range) : Range := ⟨m.before r.before, m.items r.items⟩

/-- A cut elsewhere. -/
def cut (c : Cut) : Cut := ⟨m.items c.left, m.token c.token, m.items c.right⟩

/-- A group elsewhere, with what follows it. -/
def opened (o : Opened) : Opened := ⟨m.token o.opening, m.token o.closing, m.items o.items, m.items o.rest⟩

/-- A result elsewhere, with its last token and what follows it. -/
def behind {α : Type} (x : α × Token × List Item) : α × Token × List Item :=
  (x.1, m.token x.2.1, m.items x.2.2)

mutual

theorem still_item (b : Option Token) : ∀ x : Item, (still b).item x = x
  | .leaf _ => rfl
  | .group _ _ _ xs => by rw [item, still_items b xs]; rfl

theorem still_items (b : Option Token) : ∀ xs : List Item, (still b).items xs = xs
  | [] => rfl
  | x :: xs => by rw [items, still_item b x, still_items b xs]

end

theorem still_range (b : Option Token) (xs : List Item) : (still b).range ⟨none, xs⟩ = ⟨b, xs⟩ :=
  congrArg (Range.mk b) (still_items b xs)

/-! ## Tokens and items -/

section

variable (t : Token) (x : Item)

@[simp] theorem ident?_token : (m.token t).ident? = t.ident? := by
  rw [Token.ident?, m.kind_token, Token.ident?]

@[simp] theorem isPunct_token : (m.token t).isPunct = t.isPunct := by
  funext p
  rw [Token.isPunct, Token.punct?, m.kind_token, Token.isPunct, Token.punct?]

@[simp] theorem isWord_token (word : String) : (m.token t).isWord word = t.isWord word := by
  rw [Token.isWord, ident?_token, Token.isWord]

@[simp] theorem unaryOp?_token : unaryOp? (m.token t) = unaryOp? t := by
  rw [unaryOp?, m.kind_token, unaryOp?]

@[simp] theorem updateOp?_token : updateOp? (m.token t) = updateOp? t := by
  rw [updateOp?, m.kind_token, updateOp?]

@[simp] theorem assignOp?_token : assignOp? (m.token t) = assignOp? t := by
  rw [assignOp?, m.kind_token, assignOp?]

@[simp] theorem ident?_item : (m.item x).ident? = x.ident? := by
  cases x with
  | leaf t => exact m.ident?_token t
  | group => rfl

@[simp] theorem isPunct_item : (m.item x).isPunct = x.isPunct := by
  cases x with
  | leaf t => exact m.isPunct_token t
  | group => rfl

@[simp] theorem isWord_item : (m.item x).isWord = x.isWord := by
  funext word
  rw [Item.isWord, ident?_item, Item.isWord]

@[simp] theorem memberKey?_item : memberKey? (m.item x) = memberKey? x := by
  cases x with
  | leaf t => rw [item, memberKey?, m.kind_token, memberKey?]
  | group => rfl

@[simp] theorem endsOperand_item : endsOperand (m.item x) = endsOperand x := by
  cases x with
  | leaf t => rw [item, endsOperand, m.kind_token, endsOperand]
  | group => rfl

@[simp] theorem last_item : (m.item x).last = m.token x.last := by
  cases x <;> rfl

end

variable (xs : List Item)

theorem items_eq_map : m.items xs = xs.map m.item := by
  induction xs with
  | nil => rfl
  | cons x xs ih => rw [items, ih, List.map_cons]

@[simp] theorem isEmpty_items : (m.items xs).isEmpty = xs.isEmpty := by
  cases xs <;> rfl

@[simp] theorem length_items : (m.items xs).length = xs.length := by
  rw [items_eq_map, List.length_map]

theorem lastToken_items (t : Token) : lastToken (m.token t) (m.items xs) = m.token (lastToken t xs) := by
  rw [lastToken, items_eq_map, List.getLast?_map, lastToken]
  cases xs.getLast? <;> simp

/-! ## Searches -/

theorem splitItems_items (p : Punct) : ∀ b,
    Range.splitItems p (m.before b) (m.items xs) = (Range.splitItems p b xs).map m.range := by
  induction xs with
  | nil => exact fun b => rfl
  | cons x xs ih =>
    intro b
    have hnext : Range.splitItems p (some (m.token x.last)) (m.items xs) = _ := ih (some x.last)
    rw [items, Range.splitItems, Range.splitItems, isPunct_item, last_item, hnext, ih b]
    split
    · rfl
    · cases Range.splitItems p b xs <;> rfl

theorem splitAt_range (p : Punct) (r : Range) : (m.range r).splitAt p = (r.splitAt p).map m.range :=
  m.splitItems_items r.items p r.before

theorem listed_range (r : Range) : (m.range r).listed = r.listed.map m.range := by
  have hempty : (m.range r).items.isEmpty = r.items.isEmpty := m.isEmpty_items r.items
  unfold Range.listed
  dsimp only
  rw [splitAt_range, List.getLast?_map, List.length_map, ← List.map_dropLast, hempty]
  split
  · rfl
  · cases (r.splitAt .comma).getLast? with
    | none => rfl
    | some last =>
      dsimp only [Option.map_some]
      have hlast : (m.range last).items.isEmpty = last.items.isEmpty := m.isEmpty_items last.items
      rw [hlast]
      split <;> rfl

theorem map_cut_cons (x : Item) (c : Option Cut) :
    (c.map m.cut).map (Cut.cons (m.item x)) = (c.map (Cut.cons x)).map m.cut := by
  cases c <;> rfl

theorem first?_items {p : Token → Bool} (hp : ∀ t, p (m.token t) = p t) :
    Cut.first? p (m.items xs) = (Cut.first? p xs).map m.cut := by
  induction xs with
  | nil => rfl
  | cons x xs ih =>
    cases x with
    | leaf t =>
      rw [items, item, Cut.first?, Cut.first?, hp, ih]
      split
      · rfl
      · exact m.map_cut_cons (.leaf t) _
    | group b o c inner =>
      rw [items, item, Cut.first?, Cut.first?, ih]
      exact m.map_cut_cons (.group b o c inner) _

theorem first?_isPunct (p : Punct) :
    Cut.first? (fun t => t.isPunct p) (m.items xs) = (Cut.first? (fun t => t.isPunct p) xs).map m.cut :=
  m.first?_items xs fun t => by rw [isPunct_token]

theorem colon?_items : ∀ opened, Cut.colon? opened (m.items xs) = (Cut.colon? opened xs).map m.cut := by
  induction xs with
  | nil => exact fun _ => rfl
  | cons x xs ih =>
    intro opened
    unfold items Cut.colon?
    rw [isPunct_item, ih, last_item]
    split
    · exact m.map_cut_cons x _
    · split
      · cases opened with
        | zero => rfl
        | succ opened =>
          dsimp only
          rw [ih]
          exact m.map_cut_cons x _
      · rw [ih]
        exact m.map_cut_cons x _

theorem operatorAfter?_items (op : BinaryOp) : ∀ x,
    Cut.operatorAfter? op (m.item x) (m.items xs) = (Cut.operatorAfter? op x xs).map m.cut := by
  induction xs with
  | nil => exact fun _ => rfl
  | cons y ys ih =>
    intro x
    rw [items, Cut.operatorAfter?, Cut.operatorAfter?, ih, isPunct_item, endsOperand_item, last_item]
    cases Cut.operatorAfter? op y ys with
    | some c => rfl
    | none =>
      dsimp only [Option.map_none]
      split <;> rfl

theorem binary?_items :
    Cut.binary? (m.items xs) = (Cut.binary? xs).map fun found => (found.1, m.cut found.2) := by
  have hoperator : ∀ op, Cut.operator? op (m.items xs) = (Cut.operator? op xs).map m.cut := by
    intro op
    cases xs with
    | nil => rfl
    | cons x xs =>
      rw [items, Cut.operator?, Cut.operator?, operatorAfter?_items]
      exact m.map_cut_cons x _
  unfold Cut.binary?
  induction BinaryOp.scanOrder with
  | nil => rfl
  | cons op ops ih =>
    rw [List.findSome?_cons, List.findSome?_cons, hoperator]
    cases Cut.operator? op xs with
    | none => exact ih
    | some c => rfl

theorem upToSemicolon_items :
    upToSemicolon (m.items xs) = (m.items (upToSemicolon xs).1, m.items (upToSemicolon xs).2) := by
  unfold upToSemicolon
  rw [first?_isPunct]
  cases Cut.first? (fun t => t.isPunct .semicolon) xs <;> rfl

theorem assignTarget?_items :
    assignTarget? (m.items xs) = (assignTarget? xs).map fun target => (target.1, target.2.map m.range) := by
  unfold assignTarget?
  rcases xs with _ | ⟨_ | ⟨b, o, c, inner⟩, _ | ⟨_ | ⟨b', o', c', inner'⟩, _ | ⟨z, xs⟩⟩⟩ <;> try rfl
  · simp only [items, item, ident?_token, Option.map_map]
    rfl
  · cases b' <;> cases inner' <;> simp only [items, item, ident?_token, Option.map_map] <;> rfl
  · cases b' <;> cases inner' <;> rfl

theorem elseBranch?_items :
    elseBranch? (m.items xs) = (elseBranch? xs).map fun branch => (m.token branch.1, m.items branch.2) := by
  unfold elseBranch?
  rcases xs with _ | ⟨x, _ | ⟨y, xs⟩⟩
  · rfl
  · simp only [items, isWord_item, isPunct_item, last_item]
    split_ifs <;> rfl
  · simp only [items, isWord_item, isPunct_item, last_item]
    split_ifs <;> rfl

theorem splitClauses_items : ∀ previous : Option Item,
    splitClauses (previous.map m.item) (m.items xs) = (m.items (splitClauses previous xs).1,
      (splitClauses previous xs).2.map fun clause => (m.token clause.1, m.items clause.2)) := by
  induction xs with
  | nil => exact fun _ => rfl
  | cons x xs ih =>
    intro previous
    have hword : isClauseWord (previous.map m.item) (m.item x) = isClauseWord previous x := by
      cases previous <;> simp [isClauseWord]
    have hnext := ih (some x)
    rw [Option.map_some] at hnext
    rw [items, splitClauses, splitClauses, hword, hnext]
    dsimp only
    rw [last_item]
    split <;> rfl

theorem handlerHeader_items :
    handlerHeader (m.items xs) = ((handlerHeader xs).1, m.items (handlerHeader xs).2) := by
  rcases xs with _ | ⟨_ | ⟨b, o, c, inner⟩, xs⟩
  · rfl
  · rfl
  · cases b with
    | round =>
      rcases inner with _ | ⟨y, _ | ⟨z, more⟩⟩
      · rfl
      · simp [handlerHeader, handlerParam, items, item]
      · rfl
    | _ => rfl

theorem isObject_items (ys : List Item) : isObject (m.items xs) (m.items ys) = isObject xs ys := by
  unfold isObject
  dsimp only
  rw [isEmpty_items, isEmpty_items]
  congr 2
  · rcases ys with _ | ⟨_ | ⟨b, o, c, inner⟩, ys⟩
    · rfl
    · simp [items, item, Item.isPunct]
    · cases b <;> rfl
  · rcases xs with _ | ⟨x, _ | ⟨y, xs⟩⟩ <;> simp [items]

@[simp] theorem declaresFunction_items (clauseNext : Bool) :
    declaresFunction clauseNext (m.items xs) = declaresFunction clauseNext xs := by
  cases xs <;> simp [items, declaresFunction]

end Move

end PlayerScript.Ast
