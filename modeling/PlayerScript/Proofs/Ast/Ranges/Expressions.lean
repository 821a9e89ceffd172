/-
Reading functions and expressions by positions follows parsing them from items, provided that the
parts do.
-/
import PlayerScript.Proofs.Ast.Ranges.Follows

namespace PlayerScript.Ast.Ranges

open Reading

variable {range : Nat × Nat} {r : Range} {α : Type} {rest : List Item} {t : Token} {pos : Nat} {e : Expr}
  {f : Expr × Nat → Reading Expr}

/-- A statement that was read from a range, and the statement that was parsed from its items: the
same one, with at least one token, and the same rest. -/
structure StmtAt (l : Layout) (lo hi : Nat) (x : Stmt × Nat) (y : Parsed) : Prop where
  stmt : x.1 = y.stmt
  lt : lo < x.2
  last : l.tokens[x.2 - 1]? = some y.last
  rest : Holds l x.2 hi y.rest

/-- Parts that are read by positions as they are parsed from items. A statement in front of the next
clause of a switch sees the word of that clause behind its range. -/
structure PartsFollow (l : Layout) (parts : Readers) (parsers : Parsers) : Prop where
  expression : ∀ {lo hi : Nat} {r : Range}, Covers l (lo, hi) r →
    Follows l Eq (parts.expression lo hi) (parsers.expression r)
  statement : ∀ {lo hi : Nat} {r : Range}, Covers l (lo, hi) r →
    Follows l (StmtAt l lo hi) (parts.statement lo hi)
      (parsers.statement (l.identAt? hi).isSome r)

variable {l : Layout} {parts : Readers} {parsers : Parsers} {lo hi : Nat}

/-! ## Parameters -/

theorem follows_parameter (hw : WellPlaced l)
    (h : Covers l range r) (hlt : range.2 < l.tokens.size) :
    Follows l Eq (parameter l range) (Ast.parameter r) := by
  have hle := h.holds.le
  have htoken : l.tokens[range.1]? = some l.tokens[range.1] := Array.getElem?_eq_getElem (by omega)
  have hrefuse : Follows l Eq (l.unsupported (α := String) range.1 range.2) (.unsupported r.span) :=
    follows_unsupported hw h.holds
  rw [parameter, tokenAt_eq htoken, done_bind, Ast.parameter]
  obtain ⟨before, items⟩ := r
  obtain ⟨holds, -, -⟩ := h
  dsimp only at holds ⊢
  match items, holds with
  | [], holds =>
    have heq := holds.eq_iff.2 rfl
    split
    · rw [if_neg (by omega)]
      exact hrefuse
    · exact hrefuse
  | [.leaf t], holds =>
    have hnext := holds.after_leaf.eq_iff.2 rfl
    have hfirst := holds.first
    rw [htoken, Option.some.injEq] at hfirst
    rw [hfirst]
    dsimp only [Item.first]
    cases t.ident? with
    | none => exact hrefuse
    | some name =>
      dsimp only
      rw [if_pos hnext.symm]
      exact follows_done rfl
  | .leaf t :: item :: rest, holds =>
    have hnext := holds.after_leaf.lt (List.cons_ne_nil _ _)
    split
    · rw [if_neg (by omega)]
      exact hrefuse
    · exact hrefuse
  | .group b o c inner :: rest, holds =>
    have hident := holds.identAt
    rw [identAt_eq htoken] at hident
    rw [hident]
    exact hrefuse

/-- The name of a function is read in front of its parameters. -/
theorem follows_functionName {items : List Item} (h : Holds l lo hi items) :
    Follows l (fun x y => x.1 = y.1 ∧ lo ≤ x.2 ∧ Holds l x.2 hi y.2) (functionName l lo hi)
      (Ast.functionName items) := by
  have hmint : Follows l (fun x y => x.1 = y.1 ∧ lo ≤ x.2 ∧ Holds l x.2 hi y.2)
      (mint >>= fun name => done (name, lo)) (Parse.mint >>= fun name => Parse.done (name, items)) :=
    follows_map follows_mint fun a b hab => ⟨hab, Nat.le_refl _, h⟩
  rw [functionName]
  cases items with
  | nil =>
    have heq := h.eq_iff.2 rfl
    rw [if_neg (by omega)]
    exact hmint
  | cons item rest =>
    rw [if_pos (h.lt (List.cons_ne_nil _ _)), h.identAt, Ast.functionName]
    cases hname : item.ident? with
    | none => exact hmint
    | some name => exact follows_done ⟨rfl, Nat.le_succ _, h.after_ident hname⟩

/-! ## Brackets -/

/-- What was read from the front of a range, and what was parsed from the front of its items: the
same, with the same rest. -/
def FrontAt (l : Layout) (lo hi : Nat) (x : Expr × Nat) (y : Expr × List Item) : Prop :=
  x.1 = y.1 ∧ lo < x.2 ∧ Holds l x.2 hi y.2

/-- A bracketed primary: its brackets are read first, and what they hold after that. -/
theorem follows_group {b : Bracket} {o c : Token} {inner : List Item}
    {f : Nat → Reading α} {y : Parse α} {e : α → Expr} (h : Holds l lo hi (.group b o c inner :: rest))
    (hf : ∀ close, OpenAt l lo hi close ⟨o, c, inner, rest⟩ → Follows l Eq (f close) y) :
    Follows l (FrontAt l lo hi)
      (l.closeOf lo hi >>= fun close => f close >>= fun a => done (e a, close + 1))
      (y >>= fun a => Parse.done (e a, rest)) := by
  obtain ⟨close, hclose, hopen⟩ := h.openAt
  have hlt := hopen.lt
  rw [hclose, done_bind]
  refine follows_map (hf close hopen) ?_
  rintro a _ rfl
  exact ⟨rfl, by dsimp only; omega, hopen.rest⟩

/-- The parts of a bracketed list are read one after another. -/
theorem follows_listed {i close : Nat} {o : Opened} {f : Nat × Nat → Reading α}
    {g : Range → Parse α} (h : OpenAt l i hi close o)
    (hf : ∀ range r, Covers l range r → Follows l Eq (f range) (g r)) :
    Follows l Eq (l.listed (i + 1) close >>= fun ranges => each f ranges)
      (Parse.each g o.range.listed) := by
  obtain ⟨ranges, hranges, hcovers⟩ := listed_eq h.covers
  rw [hranges, done_bind]
  exact follows_each (fun range r hr => hf range r hr.1) hcovers

theorem follows_bracketed_list {b : Bracket} {o c : Token} {inner : List Item}
    {f : Nat × Nat → Reading α} {g : Range → Parse α} {e : List α → Expr}
    (h : Holds l lo hi (.group b o c inner :: rest))
    (hf : ∀ range r, Covers l range r → Follows l Eq (f range) (g r)) :
    Follows l (FrontAt l lo hi)
      (l.closeOf lo hi >>= fun close => l.listed (lo + 1) close >>= fun ranges =>
        each f ranges >>= fun as => done (e as, close + 1))
      (Parse.each g (Range.listed ⟨some o, inner⟩) >>= fun as => Parse.done (e as, rest)) := by
  have hgroup := follows_group (e := e) h fun close hopen => follows_listed hopen hf
  simp only [andThen_assoc] at hgroup
  exact hgroup

variable (hp : PartsFollow l parts parsers)
include hp

/-! ## Lists of statements -/

theorem follows_statementsFrom (hends : NoOpening l hi) {fuel : Nat} : ∀ {lo fuel' : Nat}
    {before : Option Token} {items : List Item}, Covers l (lo, hi) ⟨before, items⟩ →
    hi - lo ≤ fuel → items.length ≤ fuel' →
      Follows l Eq (statementsFrom l parts hi fuel lo)
        (Ast.statementsFrom parsers (l.identAt? hi).isSome fuel' before items) := by
  induction fuel with
  | zero =>
    intro lo fuel' before items h hfuel _
    have hle := h.holds.le
    have hnil : items = [] := h.holds.eq_iff.1 (by dsimp only at hle ⊢; omega)
    subst hnil
    dsimp only at hle
    rw [statementsFrom, if_neg (by omega), Ast.statementsFrom]
    exact follows_done rfl
  | succ fuel ih =>
    intro lo fuel' before items h hfuel hfuel'
    cases items with
    | nil =>
      have heq := h.holds.eq_iff.2 rfl
      dsimp only at heq
      rw [statementsFrom, if_neg (by omega), Ast.statementsFrom]
      exact follows_done rfl
    | cons item rest =>
      obtain ⟨fuel', rfl⟩ : ∃ n, fuel' = n + 1 := ⟨fuel' - 1, by simp at hfuel'; omega⟩
      have hholds := h.holds
      dsimp only at hholds
      have hlt := hholds.lt (List.cons_ne_nil _ _)
      rw [statementsFrom, if_pos hlt, Ast.statementsFrom, hholds.punctAt rfl]
      by_cases hsemi : item.isPunct .semicolon = true
      · rw [if_pos hsemi, if_pos hsemi]
        have hcut := hholds.cutAt_punct hsemi
        have hrest := hcut.covers_right hends
        exact ih hrest (by omega) (by simpa using hfuel')
      · rw [if_neg hsemi, if_neg hsemi]
        refine follows_bind (hp.statement h) ?_
        rintro ⟨stmt, next⟩ parsed ⟨hstmt, hless, hlast, hrest⟩
        dsimp only at hstmt hless hlast hrest
        have hnext : Covers l (next, hi) ⟨some parsed.last, parsed.rest⟩ := by
          refine ⟨hrest, ?_, hends⟩
          dsimp only
          rw [if_neg (by omega), hlast]
        have hcount := hholds.length_lt hrest hless
        refine follows_note ⟨hless, hrest.le, hholds.closed⟩ ?_
        refine follows_bind (ih hnext (by omega) (by simp at hcount hfuel'; omega)) ?_
        rintro more _ rfl
        rw [hstmt]
        exact follows_done rfl

theorem follows_statements (h : Covers l (lo, hi) r) : Follows l Eq (statements l parts lo hi)
      (Ast.statements parsers (l.identAt? hi).isSome r) :=
  follows_note h.holds.closed
    (follows_statementsFrom hp h.ends h (Nat.le_refl _) (Nat.le_refl _))

/-! ## Functions -/

/-- A function that was read from a range, and one that was parsed from its items. -/
structure FunctionAt (l : Layout) (lo hi : Nat) (x : Function) (y : ParsedFunction) : Prop where
  name : x.name = y.name
  params : x.params = y.params
  body : x.body = y.body
  lt : lo < x.next
  last : l.tokens[x.next - 1]? = some y.last
  rest : Holds l x.next hi y.rest

variable (hw : WellPlaced l)
include hw

theorem follows_functionAt (h : Holds l (lo + 1) hi rest) :
    Follows l (FunctionAt l lo hi) (functionAt l parts lo hi) (functionAfterWord parsers rest) := by
  rw [functionAt, functionAfterWord]
  refine follows_bind (follows_functionName h) ?_
  rintro ⟨name, cursor⟩ ⟨_, afterName⟩ ⟨rfl, hle, hname⟩
  dsimp only at hle hname ⊢
  refine follows_bind (follows_expectOpen hw hname .round) ?_
  intro close header hheader
  obtain ⟨ranges, hranges, hcovers⟩ := listed_eq hheader.covers
  have hsize := hheader.lt_size
  rw [hranges, done_bind]
  refine follows_bind (follows_each (fun range r hr =>
    follows_parameter hw hr.1 (Nat.lt_of_le_of_lt hr.2 hsize)) hcovers) ?_
  rintro params _ rfl
  refine follows_bind (follows_expectOpen hw hheader.rest .curly) ?_
  intro bodyClose braces hbraces
  have hbody := follows_statements hp hbraces.covers
  rw [hbraces.unnamed] at hbody
  refine follows_map hbody ?_
  rintro body _ rfl
  have hlt := hheader.lt
  have hlt' := hbraces.lt
  exact ⟨rfl, rfl, rfl, by dsimp only; omega, hbraces.closing, hbraces.rest⟩

/-! ## Primaries -/

theorem follows_objectMember (h : Covers l range r) :
    Follows l Eq (objectMember l parts range) (Ast.objectMember parsers r) := by
  obtain ⟨lo, hi⟩ := range
  obtain ⟨before, items⟩ := r
  obtain ⟨holds, -, ends⟩ := h
  dsimp only at holds ends
  have hrefuse : Follows l Eq (l.unsupported lo hi)
      (Parse.unsupported (α := String × Expr) (Range.span ⟨before, items⟩)) :=
    follows_unsupported hw holds
  rw [objectMember]
  dsimp only
  match items, holds with
  | [], holds =>
    have heq := holds.eq_iff.2 rfl
    rw [if_neg (by omega)]
    exact hrefuse
  | key :: rest, holds =>
    rw [if_pos (holds.lt (List.cons_ne_nil _ _)), holds.keyAt]
    cases hkey : memberKey? key with
    | none =>
      have hparse : Ast.objectMember parsers ⟨before, key :: rest⟩ =
          .unsupported (Range.span ⟨before, key :: rest⟩) := by
        unfold Ast.objectMember
        split
        · rename_i heq
          cases heq
          rw [hkey]
        · rfl
      rw [hparse]
      exact hrefuse
    | some name =>
      have hrest := holds.after_key hkey
      match rest, hrest with
      | [], hrest =>
        have heq := hrest.eq_iff.2 rfl
        dsimp only
        rw [if_pos (.inr (by omega))]
        exact hrefuse
      | colon :: [], hrest =>
        have hone : colon.isPunct .colon = true → hi ≤ lo + 2 := by
          intro hcolon
          have hcut := hrest.cutAt_punct hcolon
          exact Nat.le_of_eq (hcut.right.eq_iff.2 rfl).symm
        dsimp only
        rw [hrest.punctAt rfl, if_pos]
        · exact hrefuse
        · cases hcolon : colon.isPunct .colon with
          | false => exact .inl rfl
          | true => exact .inr (hone hcolon)
      | colon :: first :: value, hrest =>
        dsimp only
        rw [hrest.punctAt rfl]
        unfold Ast.objectMember
        simp only [hkey]
        cases hcolon : colon.isPunct .colon with
        | false => exact hrefuse
        | true =>
          have hcut := hrest.cutAt_punct hcolon
          have hlt := hcut.right.lt (List.cons_ne_nil first value)
          rw [if_neg (by simp; omega), if_pos rfl]
          exact follows_map (hp.expression (hcut.covers_right ends)) fun a b hab => by rw [hab]

omit hw in
theorem follows_arrayElement (h : Covers l range r) :
    Follows l Eq (arrayElement parts range) (Ast.arrayElement parsers r) := by
  rw [arrayElement, Ast.arrayElement]
  have hempty : range.1 = range.2 ↔ r.items.isEmpty = true := by
    rw [List.isEmpty_iff]
    exact h.holds.eq_iff
  by_cases heq : range.1 = range.2
  · rw [if_pos heq, if_pos (hempty.1 heq)]
    exact follows_done rfl
  · rw [if_neg heq, if_neg (mt hempty.2 heq)]
    exact hp.expression h

theorem follows_namePrimary {before : Option Token}
    (h : Holds l lo hi (.leaf t :: rest)) (name : String) :
    Follows l (FrontAt l lo hi) (namePrimary l parts lo hi name)
      (Ast.namePrimary parsers ⟨before, .leaf t :: rest⟩ name rest) := by
  rw [namePrimary, Ast.namePrimary]
  by_cases hfunction : name = "function"
  · rw [if_pos hfunction, if_pos hfunction]
    refine follows_map (follows_functionAt hp hw h.after_leaf) ?_
    intro f f' hf
    refine ⟨?_, hf.lt, hf.rest⟩
    rw [hf.name, hf.params, hf.body]
  · rw [if_neg hfunction, if_neg hfunction]
    cases wordLiteral? name with
    | some value => exact follows_done ⟨rfl, Nat.lt_succ_self lo, h.after_leaf⟩
    | none =>
      dsimp only
      split
      · exact follows_unsupported hw h
      · exact follows_done ⟨rfl, Nat.lt_succ_self lo, h.after_leaf⟩

theorem follows_primary (h : Covers l (lo, hi) r) (hne : r.items ≠ []) :
    Follows l (FrontAt l lo hi) (primary l parts lo hi) (Ast.primary parsers r) := by
  obtain ⟨before, items⟩ := r
  obtain ⟨holds, -, ends⟩ := h
  dsimp only at holds ends hne
  match items, holds with
  | .leaf t :: rest, holds =>
    have hplain := holds.leaf_plain
    rw [primary, tokenAt_eq holds.first, done_bind, Ast.primary]
    dsimp only [Item.first]
    cases hkind : t.kind with
    | number x => exact follows_done ⟨rfl, Nat.lt_succ_self lo, holds.after_leaf⟩
    | string s => exact follows_done ⟨rfl, Nat.lt_succ_self lo, holds.after_leaf⟩
    | ident name => exact follows_namePrimary hp hw holds name
    | punct p =>
      rw [hkind] at hplain
      cases p with
      | opening b => cases hplain
      | _ => exact follows_unsupported hw holds
  | .group b o c inner :: rest, holds =>
    have hkind := holds.group_kinds.1
    rw [primary, tokenAt_eq holds.first, done_bind]
    dsimp only [Item.first]
    rw [hkind]
    cases b with
    | round => exact follows_group holds fun close hopen => hp.expression hopen.covers
    | square => exact follows_bracketed_list holds fun range r hr => follows_arrayElement hp hr
    | curly => exact follows_bracketed_list holds fun range r hr => follows_objectMember hp hw hr

/-! ## Suffixes -/

omit hp in
/-- A token that is no dot begins no suffix. -/
theorem follows_suffix_other (hr : Holds l lo hi r.items)
    (h : Holds l pos hi (.leaf t :: rest)) (hdot : t.isPunct .dot = false)
    (hoptional : t.isPunct .optionalDot = false) :
    Follows l Eq (suffix l parts lo hi e pos >>= f) (Ast.suffixes parsers r e (.leaf t :: rest)) := by
  have hplain := h.leaf_plain
  have hread : suffix l parts lo hi e pos = l.unsupported lo hi := by
    rw [suffix, tokenAt_eq h.first, done_bind]
    dsimp only [Item.first]
    cases hkind : t.kind with
    | punct p =>
      rw [isPunct_leaf hkind] at hdot hoptional
      rw [hkind] at hplain
      cases p with
      | opening b => cases hplain
      | dot => simp at hdot
      | optionalDot => simp at hoptional
      | _ => simp
    | _ => rfl
  have hparse : Ast.suffixes parsers r e (.leaf t :: rest) = .unsupported r.span := by
    match rest with
    | [] => rw [Ast.suffixes] <;> simp
    | .leaf u :: rest => rw [Ast.suffixes, hdot, hoptional]; rfl
    | .group .square o c inner :: rest => rw [Ast.suffixes, hoptional]; rfl
    | .group .round o c inner :: rest => rw [Ast.suffixes] <;> simp
    | .group .curly o c inner :: rest => rw [Ast.suffixes] <;> simp
  rw [hread, hparse]
  exact follows_unsupported_bind hw hr

/-- A dot is followed by a name; an optional one, also by an index. -/
theorem follows_suffix_dot {p : Punct} (hr : Holds l lo hi r.items)
    (hends : NoOpening l hi) (h : Holds l pos hi (.leaf t :: rest)) (hkind : t.kind = .punct p)
    (hp' : p = .dot ∨ p = .optionalDot) (hf : ∀ e' pos' rest, pos < pos' → Holds l pos' hi rest →
      Follows l Eq (f (e', pos')) (Ast.suffixes parsers r e' rest)) :
    Follows l Eq (suffix l parts lo hi e pos >>= f) (Ast.suffixes parsers r e (.leaf t :: rest)) := by
  have hrest := h.after_leaf
  have hdot : t.isPunct .dot = decide (p = .dot) := isPunct_leaf hkind _
  have hoptional : t.isPunct .optionalDot = decide (p = .optionalDot) := isPunct_leaf hkind _
  have hread : suffix l parts lo hi e pos =
      if p = .optionalDot ∧ l.punctAt (pos + 1) (.opening .square) then do
        let close ← l.closeOf (pos + 1) hi
        let key ← parts.expression (pos + 2) close
        return (.member e (.computed key) true, close + 1)
      else
        (if pos + 1 < hi then l.identAt? (pos + 1) else none).elim (l.unsupported lo hi) fun name =>
          done (.member e (.name name) (p = .optionalDot), pos + 2) := by
    rw [suffix, tokenAt_eq h.first, done_bind]
    dsimp only [Item.first]
    rw [hkind]
    generalize (if pos + 1 < hi then l.identAt? (pos + 1) else none) = name?
    rcases hp' with rfl | rfl <;> cases name? <;> rfl
  rw [hread]
  match rest, hrest with
  | [], hrest =>
    have heq := hrest.eq_iff.2 rfl
    rw [heq, hends .square, if_neg (by simp), if_neg (Nat.lt_irrefl _), Ast.suffixes]
    · exact follows_unsupported_bind hw hr
    · simp
    · simp
  | .leaf u :: rest, hrest =>
    have hlt := hrest.lt (List.cons_ne_nil _ _)
    rw [hrest.punctAt_leaf, if_neg (by simp), if_pos hlt, hrest.identAt, Ast.suffixes, hdot,
      hoptional, if_pos (by simpa using hp')]
    dsimp only [Item.ident?]
    cases u.ident? with
    | none => exact follows_unsupported_bind hw hr
    | some name => exact hf _ _ _ (by omega) hrest.after_leaf
  | .group b o c inner :: rest, hrest =>
    have hlt := hrest.lt (List.cons_ne_nil _ _)
    obtain ⟨close, hclose, hopen⟩ := hrest.openAt
    have hlt' := hopen.lt
    rw [hrest.punctAt_group, hrest.identAt, if_pos hlt]
    dsimp only [Item.ident?]
    by_cases hb : b = .square
    · subst hb
      rw [Ast.suffixes, hoptional]
      by_cases hopt : p = .optionalDot
      · rw [if_pos (by simp [hopt]), if_pos (by simp [hopt]), hclose, done_bind, andThen_assoc]
        refine follows_bind (hp.expression hopen.covers) ?_
        rintro key _ rfl
        exact hf _ _ _ (by omega) hopen.rest
      · rw [if_neg (by simp [hopt]), if_neg (by simp [hopt])]
        exact follows_unsupported_bind hw hr
    · rw [if_neg (by simp [hb]), Ast.suffixes]
      · exact follows_unsupported_bind hw hr
      · simp
      · rintro opening closing items rest' heq
        cases heq
        exact hb rfl

/-- A suffix is read as it is parsed, if what comes after it is. -/
theorem follows_suffix {items : List Item} (hr : Holds l lo hi r.items) (hends : NoOpening l hi)
    (h : Holds l pos hi items) (hne : items ≠ [])
    (hf : ∀ e' pos' rest, pos < pos' → Holds l pos' hi rest →
      Follows l Eq (f (e', pos')) (Ast.suffixes parsers r e' rest)) :
    Follows l Eq (suffix l parts lo hi e pos >>= f) (Ast.suffixes parsers r e items) := by
  match items, h with
  | .group b o c inner :: rest, h =>
    have hkind := h.group_kinds.1
    obtain ⟨close, hclose, hopen⟩ := h.openAt
    have hlt := hopen.lt
    rw [suffix, tokenAt_eq h.first, done_bind]
    dsimp only [Item.first]
    rw [hkind, hclose]
    cases b with
    | square =>
      dsimp only
      rw [done_bind, andThen_assoc]
      refine follows_bind (hp.expression hopen.covers) ?_
      rintro key _ rfl
      exact hf _ _ _ (by omega) hopen.rest
    | round =>
      obtain ⟨ranges, hranges, hcovers⟩ := listed_eq hopen.covers
      dsimp only
      rw [done_bind, hranges, done_bind, andThen_assoc]
      refine follows_bind (follows_each (fun range r hr => hp.expression hr.1) hcovers) ?_
      rintro args _ rfl
      exact hf _ _ _ (by omega) hopen.rest
    | curly =>
      dsimp only
      rw [if_neg (by simp)]
      exact follows_unsupported_bind hw hr
  | .leaf t :: rest, h =>
    cases hdot : t.isPunct .dot with
    | true =>
      exact follows_suffix_dot hp hw hr hends h (kind_of_isPunct hdot) (.inl rfl) hf
    | false =>
      cases hoptional : t.isPunct .optionalDot with
      | true =>
        exact follows_suffix_dot hp hw hr hends h (kind_of_isPunct hoptional) (.inr rfl) hf
      | false => exact follows_suffix_other hw hr h hdot hoptional

theorem follows_suffixes (hr : Holds l lo hi r.items) (hends : NoOpening l hi)
    {fuel : Nat} : ∀ {pos : Nat} {e : Expr} {items : List Item}, Holds l pos hi items →
      hi - pos ≤ fuel →
      Follows l Eq (suffixes l parts lo hi fuel e pos) (Ast.suffixes parsers r e items) := by
  induction fuel with
  | zero =>
    intro pos e items h hfuel
    have hle := h.le
    have hnil : items = [] := h.eq_iff.1 (by omega)
    subst hnil
    rw [suffixes, if_neg (by omega), Ast.suffixes]
    exact follows_done rfl
  | succ fuel ih =>
    intro pos e items h hfuel
    rw [suffixes]
    by_cases hne : items = []
    · subst hne
      have heq := h.eq_iff.2 rfl
      rw [if_neg (by omega), Ast.suffixes]
      exact follows_done rfl
    · rw [if_pos (h.lt hne)]
      exact follows_suffix hp hw hr hends h hne fun e' pos' rest hlt hrest =>
        ih hrest (by omega)

theorem follows_chain (h : Covers l (lo, hi) r) (hne : r.items ≠ []) :
    Follows l Eq (chain l parts lo hi) (Ast.chain parsers r) := by
  refine follows_bind (follows_primary hp hw h hne) ?_
  rintro ⟨e, pos⟩ ⟨_, rest⟩ ⟨rfl, -, hrest⟩
  exact follows_suffixes hp hw h.holds h.ends hrest (Nat.le_refl _)

end PlayerScript.Ast.Ranges
