/-
The parser walked through once for all surveys: each of its functions ends as a survey says if the
parsers for the parts do, on ranges that are small enough.
-/
import PlayerScript.Proofs.Ast.Survey.Basic

namespace PlayerScript.Ast

/-! ## Parsers that mint nothing -/

theorem settled_expectGroup (w : TokenKind → Nat) (b : Bracket) (items : List Item) :
    Settled (fun o m => m.opened o) (fun o => extent w o.items + extent w o.rest + 2 ≤ extent w items)
      fun m => expectGroup b (m.items items) := by
  rcases items with _ | ⟨_ | ⟨b', o, c, inner⟩, rest⟩
  · exact .stop fun _ => rfl
  · exact .stop fun _ => rfl
  · unfold expectGroup
    dsimp only [Move.items, Move.item]
    split
    · refine .done (b := Opened.mk o c inner rest) ?_
      rw [extent_group]
    · exact .stop fun _ => rfl

theorem settled_parameter (r : Range) : Fixed (fun _ => True) fun m => parameter (m.range r) := by
  obtain ⟨before, items⟩ := r
  unfold parameter
  rcases items with _ | ⟨t | ⟨b, o, c, inner⟩, _ | ⟨y, ys⟩⟩
  · exact .stop fun _ => rfl
  · dsimp only [Move.range, Move.items, Move.item]
    simp only [Move.ident?_token]
    cases t.ident? with
    | none => exact .stop fun _ => rfl
    | some name => exact .done trivial
  all_goals exact .stop fun _ => rfl

/-- A step of a variable by one. -/
def IsUpdate (e : Expr) : Prop := ∃ op before name, e = .update op before name

theorem fixed_stepBefore (r : Range) (op : UpdateOp) (rest : List Item) :
    Fixed IsUpdate fun m => stepBefore (m.range r) op (m.items rest) := by
  unfold stepBefore
  rcases rest with _ | ⟨x, _ | ⟨y, ys⟩⟩
  · exact .stop fun _ => rfl
  · dsimp only [Move.items]
    simp only [Move.ident?_item]
    cases x.ident? with
    | none => exact .stop fun _ => rfl
    | some name => exact .done ⟨_, _, _, rfl⟩
  · exact .stop fun _ => rfl

theorem fixed_stepAfter (r : Range) (op : UpdateOp) (t : Token) :
    Fixed IsUpdate fun m => stepAfter (m.range r) op (m.token t) := by
  unfold stepAfter
  simp only [Move.ident?_token]
  cases t.ident? with
  | none => exact .stop fun _ => rfl
  | some name =>
    dsimp only
    split
    · exact .stop fun _ => rfl
    · exact .done ⟨_, _, _, rfl⟩

theorem settled_handler (w : TokenKind → Nat) (last : Token) (items : List Item) :
    Settled (fun x m => m.behind x) (fun x => extent w x.2.2 ≤ extent w items)
      fun m => handler (m.token last) (m.items items) := by
  unfold handler
  cases items with
  | nil => exact .done (b := (none, last, [])) (Nat.le_refl _)
  | cons word rest =>
    dsimp only [Move.items]
    simp only [Move.isWord_item, Move.handlerHeader_items]
    split
    · refine (settled_expectGroup w .curly _).bind fun o ho =>
        .done (b := (some (handlerHeader rest).1, o.closing, o.rest)) ?_
      have hheader : extent w (handlerHeader rest).2 ≤ extent w rest := extent_handlerHeader w rest
      have hcons := extent_cons w word rest
      show extent w o.rest ≤ _
      omega
    · exact .done (b := (none, last, word :: rest)) (Nat.le_refl _)

section Walk

variable {ι : Type} {w : TokenKind → Nat} {s : Survey ι w} {inner outer : Trees ι} {size : Nat}
  {parts : ι → Parsers} {items : List Item} (hp : Surveyed s inner size parts)

/-! ## Lists of statements and functions -/

include hp

theorem ends_statementsFrom (clauseNext : Bool) : ∀ (fuel : Nat) (before : Option Token)
    {items : List Item}, 2 * extent w items + 1 < size → s.Ends (Each inner.stmt) fun i m =>
      statementsFrom (parts i) clauseNext fuel (m.before before) (m.items items)
  | _, _, [], _ => by
    simp only [Move.items, statementsFrom]
    exact s.done ⟨_, rfl, .nil⟩
  | 0, _, _ :: _, _ => s.done ⟨_, rfl, .nil⟩
  | fuel + 1, before, item :: rest, hsize => by
    have hcons := extent_cons w item rest
    simp only [Move.items, statementsFrom, Move.isPunct_item, Move.last_item]
    refine s.ite (fun _ => ends_statementsFrom clauseNext fuel (some item.last) (by omega)) fun _ => ?_
    refine s.bind (hp.statement clauseNext (r := ⟨before, item :: rest⟩) hsize) ?_
    rintro names _ ⟨stmt, last, left, rfl, hstmt, hleft⟩
    dsimp only at hleft ⊢
    refine s.mapAt (ends_statementsFrom clauseNext fuel (some last) (by omega)) fun more body hbody => ?_
    exact ⟨_, rfl, .cons hstmt hbody⟩

theorem ends_statements (clauseNext : Bool) {r : Range} (hsize : 2 * extent w r.items + 1 < size) :
    s.Ends (Each inner.stmt) fun i m => statements (parts i) clauseNext (m.range r) := by
  unfold statements
  dsimp only [Move.range]
  simp only [Move.length_items]
  exact ends_statementsFrom hp clauseNext _ _ hsize

omit hp

/-- The name of a function, and what follows it. -/
def Headed (s : Survey ι w) (items : List Item) : Account ι (Move → String × List Item) := fun names x =>
  ∃ name rest, x = (fun i m => (name i, m.items rest)) ∧ names = [name] ∧ s.Name name ∧
    extent w rest ≤ extent w items

theorem ends_functionName (hlight : s.Light (.ident "function")) (items : List Item) :
    s.Runs (Headed s items) fun _ m => functionName (m.items items) := by
  have hmint : s.Runs (Headed s items) fun _ m => Parse.mint >>= fun name => Parse.done (name, m.items items) := by
    refine s.mapAt (s.mint hlight) ?_
    rintro _ name ⟨rfl, hname⟩
    exact ⟨name, items, rfl, rfl, hname, Nat.le_refl _⟩
  unfold functionName
  cases items with
  | nil => exact hmint
  | cons item rest =>
    dsimp only [Move.items]
    simp only [Move.ident?_item]
    cases item.ident? with
    | none => exact hmint
    | some name => exact s.own name ⟨_, rest, rfl, rfl, s.name_own name, (extent_cons w item rest).le⟩

/-- A parsed function: the same parameters and the same rest in all runs. -/
def FunctionTaken (s : Survey ι w) (t : Trees ι) (items : List Item) : Account ι (Move → ParsedFunction) :=
  fun names f => ∃ name params body last rest more,
    f = (fun i m => ⟨name i, params, body i, m.token last, m.items rest⟩) ∧ names = name :: more ∧
      s.Name name ∧ Each t.stmt more body ∧ extent w rest ≤ extent w items

include hp in
/-- A function whose name is already known. -/
theorem ends_functionAfterName {items after : List Item} (hafter : extent w after ≤ extent w items)
    (hsize : 2 * extent w items < size) {name : ι → String} (hname : s.Name name) :
    s.Runs (fun more => FunctionTaken s inner items (name :: more)) fun i m => do
      let header ← expectGroup .round (m.items after)
      let params ← Parse.each parameter header.range.listed
      let braces ← expectGroup .curly header.rest
      let body ← statements (parts i) false braces.range
      return ⟨name i, params, body, braces.closing, braces.rest⟩ := by
  refine s.after (settled_expectGroup w _ _) fun header hheader => ?_
  have hlisted : ∀ m : Move, (m.opened header).range.listed = header.range.listed.map m.range :=
    fun m => m.listed_range header.range
  simp only [hlisted]
  refine s.after (Settled.each settled_parameter _) fun params _ => ?_
  refine s.after (settled_expectGroup w _ _) fun braces hbraces => ?_
  have hinner : extent w braces.range.items = extent w braces.items := rfl
  refine s.mapAt (ends_statements hp false (r := braces.range) (by omega)) fun more body hbody => ?_
  exact ⟨name, params, body, braces.closing, braces.rest, more, rfl, rfl, hname, hbody, by omega⟩

include hp in
theorem ends_functionAfterWord (hlight : s.Light (.ident "function")) (hsize : 2 * extent w items < size) :
    s.Runs (FunctionTaken s inner items) fun i m => functionAfterWord (parts i) (m.items items) := by
  unfold functionAfterWord
  refine s.bind (ends_functionName hlight items) ?_
  rintro _ _ ⟨name, after, rfl, rfl, hname, hafter⟩
  exact ends_functionAfterName hp hafter hsize hname

include hp in
/-- A declared function has a name of its own: where the next clause is taken for a declaration, there
are no parameters, and parsing stops. -/
theorem ends_declaredFunction {clauseNext : Bool} (hlight : s.Light (.ident "function"))
    (hsize : 2 * extent w items < size) (h : declaresFunction clauseNext items = true) :
    s.Runs (fun names f => ∃ name : String, FunctionTaken s inner items names f ∧ ∀ i m, (f i m).name = name)
      fun i m => functionAfterWord (parts i) (m.items items) := by
  cases items with
  | nil =>
    unfold functionAfterWord
    refine s.bind (ends_functionName hlight []) ?_
    rintro _ _ ⟨name, after, rfl, rfl, -, hafter⟩
    cases after with
    | nil => exact s.stop fun _ => rfl
    | cons item rest =>
      have := extent_cons w item rest
      rw [extent_nil] at hafter
      omega
  | cons item rest =>
    obtain ⟨name, hname⟩ := Option.isSome_iff_exists.1 h
    have hrun : ∀ i (m : Move), functionAfterWord (parts i) (m.items (item :: rest)) =
        (Parse.done name >>= fun _ => do
          let header ← expectGroup .round (m.items rest)
          let params ← Parse.each parameter header.range.listed
          let braces ← expectGroup .curly header.rest
          let body ← statements (parts i) false braces.range
          return ⟨name, params, body, braces.closing, braces.rest⟩) := by
      intro i m
      unfold functionAfterWord functionName
      dsimp only [Move.items]
      rw [Move.ident?_item, hname]
      rfl
    simp only [hrun]
    refine s.bind (R := fun names _ => names = [fun _ => name]) (s.own name rfl) ?_
    rintro _ a rfl
    refine s.imp (ends_functionAfterName hp (extent_cons w item rest).le hsize (s.name_own name)) ?_
    rintro more _ ⟨_, params, body, last, left, _, rfl, heq, hn, hbody, hleft⟩
    cases heq
    exact ⟨name, ⟨_, params, body, last, left, more, rfl, rfl, hn, hbody, hleft⟩, fun _ _ => rfl⟩

/-! ## Primaries and suffixes -/

include hp

theorem ends_objectMember {r : Range} (hsize : 2 * extent w r.items < size) :
    s.Ends inner.Member fun i m => objectMember (parts i) (m.range r) := by
  obtain ⟨before, items⟩ := r
  unfold objectMember
  rcases items with _ | ⟨key, _ | ⟨colon, _ | ⟨first, rest⟩⟩⟩
  · exact s.stop fun _ => rfl
  · exact s.stop fun _ => rfl
  · exact s.stop fun _ => rfl
  · have hkey := extent_cons w key (colon :: first :: rest)
    have hcolon := extent_cons w colon (first :: rest)
    dsimp only [Move.range, Move.items] at hsize ⊢
    simp only [Move.memberKey?_item, Move.isPunct_item, Move.last_item]
    cases memberKey? key with
    | none => exact s.stop fun _ => rfl
    | some name =>
      refine s.ite (fun _ => ?_) fun _ => s.stop fun _ => rfl
      exact s.map (hp.expression (r := ⟨some colon.last, first :: rest⟩) (by dsimp only; omega))
        fun names e he => .mk name he

theorem ends_arrayElement {r : Range} (hsize : 2 * extent w r.items < size) :
    s.Ends inner.Element fun i m => arrayElement (parts i) (m.range r) := by
  unfold arrayElement
  have hempty : ∀ m : Move, (m.range r).items.isEmpty = r.items.isEmpty := fun m => m.isEmpty_items r.items
  simp only [hempty]
  refine s.ite (fun _ => s.done ⟨_, rfl, .hole⟩) fun _ => ?_
  refine s.imp (hp.expression hsize) ?_
  rintro _ _ ⟨e, rfl, he⟩
  exact ⟨e, rfl, .expr he⟩

omit hp

/-- An expression with the same rest in all runs, which weighs less than what there was. -/
def Trees.Front (t : Trees ι) (w : TokenKind → Nat) (items : List Item) : Account ι (Move → Expr × List Item) :=
  fun names x => ∃ e rest, x = (fun i m => (e i, m.items rest)) ∧ t.expr names e ∧
    extent w rest < extent w items

variable (hb : Builds s inner outer)
include hp hb

theorem ends_namePrimary {r : Range} {t : Token} {name : String} {rest : List Item}
    (hitems : r.items = .leaf t :: rest) (hkind : t.kind = .ident name) (hsize : 2 * extent w r.items ≤ size) :
    s.Runs (outer.Front w r.items) fun i m => namePrimary (parts i) (m.range r) name (m.items rest) := by
  have hcons := extent_cons w (.leaf t) rest
  have hleaf := extent_leaf (w := w) t rest
  have hlight : s.Light (.ident name) := hkind ▸ hp.light (by rw [hitems] at hsize; omega)
  rw [hitems] at hsize
  unfold namePrimary
  refine s.ite (fun hname => ?_) fun _ => ?_
  · refine s.bindAt (ends_functionAfterWord hp (hname ▸ hlight) (by omega)) ?_
    rintro _ _ ⟨n, params, body, last, left, more, rfl, rfl, hn, hbody, hleft⟩
    exact ⟨_, left, rfl, hb.function hn params hbody, by rw [hitems]; omega⟩
  · rw [hitems]
    cases wordLiteral? name with
    | some value => exact s.done ⟨_, rest, rfl, hb.literal value, hcons⟩
    | none =>
      exact s.ite (fun _ => s.stop fun _ => rfl) fun _ => s.done ⟨_, rest, rfl, hb.ident name hlight, hcons⟩

theorem ends_primary {r : Range} (hsize : 2 * extent w r.items ≤ size) :
    s.Runs (outer.Front w r.items) fun i m => primary (parts i) (m.range r) := by
  have hname := @ends_namePrimary ι w s inner outer size parts hp hb r
  obtain ⟨before, items⟩ := r
  unfold primary
  dsimp only at hsize hname ⊢
  cases items with
  | nil => exact s.stop fun _ => rfl
  | cons item rest =>
    cases item with
    | leaf t =>
      dsimp only [Move.range, Move.items, Move.item]
      simp only [Move.kind_token]
      cases hkind : t.kind with
      | number x => exact s.done ⟨_, rest, rfl, hb.literal _, extent_cons w _ _⟩
      | string x => exact s.done ⟨_, rest, rfl, hb.literal _, extent_cons w _ _⟩
      | ident name => exact hname rfl hkind hsize
      | punct p => exact s.stop fun _ => rfl
    | group b o c items =>
      rw [extent_group] at hsize
      have hrest : extent w rest < extent w (.group b o c items :: rest) := extent_cons w _ _
      have hlisted : ∀ m : Move, Range.listed ⟨some (m.token o), m.items items⟩ =
          (Range.listed ⟨some o, items⟩).map m.range := fun m => m.listed_range ⟨some o, items⟩
      have hpart : ∀ part ∈ Range.listed ⟨some o, items⟩, 2 * extent w part.items < size := by
        intro part hpart
        have := extent_listed w hpart
        dsimp only at this
        omega
      cases b with
      | round =>
        refine s.mapAt (hp.expression (r := ⟨some o, items⟩) (by dsimp only; omega)) fun names e he => ?_
        exact ⟨_, rest, rfl, hb.wrapped he, hrest⟩
      | square =>
        dsimp only [Move.range, Move.items, Move.item]
        simp only [hlisted]
        refine s.mapAt (s.each fun part h => ends_arrayElement hp (hpart part h)) fun names es hes => ?_
        exact ⟨_, rest, rfl, hb.array hes, hrest⟩
      | curly =>
        dsimp only [Move.range, Move.items, Move.item]
        simp only [hlisted]
        refine s.mapAt (s.each fun part h => ends_objectMember hp (hpart part h)) fun names ms hms => ?_
        exact ⟨_, rest, rfl, hb.object hms, hrest⟩

/-- Suffixes are taken one after another, and each makes the expression before it a part of a larger
one. -/
theorem ends_suffixes (r : Range) : ∀ (items : List Item) {names : List (ι → String)} {e : ι → Expr},
    outer.expr names e → 2 * extent w items < size → s.Ends (fun more => outer.expr (names ++ more))
      fun i m => suffixes (parts i) (m.range r) (e i) (m.items items)
  | [], names, e, he, _ => by
    simp only [Move.items, suffixes]
    exact s.done ⟨e, rfl, by simpa only [List.append_nil] using he⟩
  | .group .square o c items :: rest, names, e, he, hsize => by
    rw [extent_group] at hsize
    simp only [Move.items, Move.item, suffixes]
    refine s.next (hp.expression (r := ⟨some o, items⟩) (by dsimp only; omega)) fun names' key hkey => ?_
    have hnext := ends_suffixes r rest (hb.computed false he hkey) (by omega)
    simp only [List.append_assoc] at hnext
    exact hnext
  | .group .round o c items :: rest, names, e, he, hsize => by
    have hlisted : ∀ m : Move, Range.listed ⟨some (m.token o), m.items items⟩ =
        (Range.listed ⟨some o, items⟩).map m.range := fun m => m.listed_range ⟨some o, items⟩
    rw [extent_group] at hsize
    simp only [Move.items, Move.item, suffixes, hlisted]
    refine s.next (s.each fun part hpart => hp.expression ?_) fun names' args hargs => ?_
    · have := extent_listed w hpart
      dsimp only at this
      omega
    · have hnext := ends_suffixes r rest (hb.call he hargs) (by omega)
      simp only [List.append_assoc] at hnext
      exact hnext
  | .group .curly _ _ _ :: _, _, _, _, _ => s.stop fun _ => rfl
  | .leaf dot :: .leaf t :: rest, names, e, he, hsize => by
    rw [extent_leaf, extent_leaf] at hsize
    simp only [Move.items, Move.item, suffixes, Move.isPunct_token, Move.ident?_token]
    refine s.ite (fun _ => ?_) fun _ => s.stop fun _ => rfl
    cases t.ident? with
    | none => exact s.stop fun _ => rfl
    | some name => exact ends_suffixes r rest (hb.member name _ he) (by omega)
  | .leaf dot :: .group .square o c items :: rest, names, e, he, hsize => by
    rw [extent_leaf, extent_group] at hsize
    simp only [Move.items, Move.item, suffixes, Move.isPunct_token]
    refine s.ite (fun _ => ?_) fun _ => s.stop fun _ => rfl
    refine s.next (hp.expression (r := ⟨some o, items⟩) (by dsimp only; omega)) fun names' key hkey => ?_
    have hnext := ends_suffixes r rest (hb.computed true he hkey) (by omega)
    simp only [List.append_assoc] at hnext
    exact hnext
  | [.leaf _], _, _, _, _ => s.stop fun _ => rfl
  | .leaf _ :: .group .round _ _ _ :: _, _, _, _, _ => s.stop fun _ => rfl
  | .leaf _ :: .group .curly _ _ _ :: _, _, _, _, _ => s.stop fun _ => rfl

theorem ends_chain {r : Range} (hsize : 2 * extent w r.items ≤ size) :
    s.Ends outer.expr fun i m => chain (parts i) (m.range r) := by
  unfold chain
  refine s.bind (ends_primary hp hb hsize) ?_
  rintro names _ ⟨e, rest, rfl, he, hrest⟩
  exact ends_suffixes hp hb r rest he (by omega)

/-! ## Operators -/

omit hp in
theorem ends_update {x : Move → Parse Expr} (h : Fixed IsUpdate x) : s.Ends outer.expr fun _ m => x m := by
  cases h with
  | done h =>
    obtain ⟨op, before, name, rfl⟩ := h
    exact s.done ⟨_, rfl, hb.update op before name⟩
  | stop h => exact s.stop h

theorem ends_operand {r : Range} (hsize : 2 * extent w r.items ≤ size) :
    s.Ends outer.expr fun i m => operand (parts i) (m.range r) := by
  have hchain := ends_chain hp hb hsize
  obtain ⟨before, items⟩ := r
  unfold operand
  dsimp only at hsize ⊢
  cases items with
  | nil => exact hchain
  | cons item rest =>
    cases item with
    | group b o c inner => exact hchain
    | leaf t =>
      rw [extent_leaf] at hsize
      dsimp only [Move.range, Move.items, Move.item]
      simp only [Move.unaryOp?_token, Move.updateOp?_token]
      cases unaryOp? t with
      | some op =>
        exact s.map (hp.expression (r := ⟨some t, rest⟩) (by dsimp only; omega)) fun names e he => hb.unary op he
      | none =>
        dsimp only
        cases updateOp? t with
        | some op => exact ends_update hb (fixed_stepBefore ⟨before, .leaf t :: rest⟩ op rest)
        | none =>
          dsimp only
          rcases rest with _ | ⟨next, _ | ⟨third, more⟩⟩
          · exact hchain
          · cases next with
            | group b o c inner => exact hchain
            | leaf u =>
              dsimp only [Move.items, Move.item]
              simp only [Move.updateOp?_token]
              cases updateOp? u with
              | some op => exact ends_update hb (fixed_stepAfter ⟨before, [.leaf t, .leaf u]⟩ op t)
              | none => exact hchain
          · cases next <;> exact hchain

theorem ends_assignment {r : Range} {cut : Cut} (hcut : cut.Fits w r.items)
    (hsize : 2 * extent w r.items ≤ size) :
    s.Ends outer.expr fun i m => assignment (parts i) (m.range r) (m.cut cut) := by
  unfold Cut.Fits at hcut
  have hvalue : ∀ (name : String) (op : AssignOp) {names : List (ι → String)} {index : ι → Option Expr},
      Maybe inner.expr names index → s.Ends (fun more => outer.expr (names ++ more)) fun i m => do
        let value ← (parts i).expression ⟨some (m.token cut.token), m.items cut.right⟩
        return .assign name (index i) op value := by
    intro name op names index hindex
    exact s.map (hp.expression (r := ⟨some cut.token, cut.right⟩) (by dsimp only; omega))
      fun more value hv => hb.assign name op hindex hv
  unfold assignment
  dsimp only [Move.cut]
  simp only [Move.assignTarget?_items, Move.assignOp?_token]
  cases htarget : assignTarget? cut.left with
  | none => exact s.stop fun _ => rfl
  | some target =>
    obtain ⟨name, index⟩ := target
    cases assignOp? cut.token with
    | none => exact s.stop fun _ => rfl
    | some op =>
      refine s.ite (fun _ => s.stop fun _ => rfl) fun _ => ?_
      cases index with
      | none => exact hvalue name op .none
      | some range =>
        have hindex := extent_assignTarget? w htarget
        exact s.next (hp.expression (r := range) (by omega)) fun names key hkey => hvalue name op (.some hkey)

theorem ends_conditional {r : Range} {cut : Cut} (hcut : cut.Fits w r.items)
    (hsize : 2 * extent w r.items ≤ size) :
    s.Ends outer.expr fun i m => conditional (parts i) (m.range r) (m.cut cut) := by
  unfold Cut.Fits at hcut
  unfold conditional
  dsimp only [Move.cut]
  simp only [Move.colon?_items]
  cases hcolon : Cut.colon? 0 cut.right with
  | none => exact s.stop fun _ => rfl
  | some branches =>
    have hfits := fits_colon? w hcolon
    unfold Cut.Fits at hfits
    refine s.next (hp.expression (r := ⟨r.before, cut.left⟩) (by dsimp only; omega)) fun n a ha => ?_
    refine s.next (hp.expression (r := ⟨some cut.token, branches.left⟩) (by dsimp only; omega)) fun n' b hb' => ?_
    exact s.map (hp.expression (r := ⟨some branches.token, branches.right⟩) (by dsimp only; omega))
      fun n'' c hc => hb.conditional ha hb' hc

theorem ends_singleExpression {r : Range} (hsize : 2 * extent w r.items ≤ size) :
    s.Ends outer.expr fun i m => singleExpression (parts i) (m.range r) := by
  have hassign : ∀ m : Move, Cut.first? (fun t => (assignOp? t).isSome) (m.range r).items =
      (Cut.first? (fun t => (assignOp? t).isSome) r.items).map m.cut :=
    fun m => m.first?_items r.items fun t => by rw [m.assignOp?_token]
  have hquestion : ∀ m : Move, Cut.first? (fun t => t.isPunct .question) (m.range r).items =
      (Cut.first? (fun t => t.isPunct .question) r.items).map m.cut := fun m => m.first?_isPunct r.items .question
  have hbinary := fun m : Move => m.binary?_items r.items
  unfold singleExpression
  simp only [hassign, hquestion]
  cases hassign : Cut.first? (fun t => (assignOp? t).isSome) r.items with
  | some cut => exact ends_assignment hp hb (fits_first? w hassign) hsize
  | none =>
    dsimp only [Option.map_none]
    cases hquestion : Cut.first? (fun t => t.isPunct .question) r.items with
    | some cut => exact ends_conditional hp hb (fits_first? w hquestion) hsize
    | none =>
      dsimp only [Option.map_none, Move.range]
      simp only [hbinary]
      cases hbinary : Cut.binary? r.items with
      | none => exact ends_operand hp hb hsize
      | some found =>
        obtain ⟨op, cut⟩ := found
        have hfits := fits_binary? w hbinary
        unfold Cut.Fits at hfits
        refine s.next (hp.expression (r := ⟨r.before, cut.left⟩) (by dsimp only; omega)) fun n a ha => ?_
        exact s.map (hp.expression (r := ⟨some cut.token, cut.right⟩) (by dsimp only; omega))
          fun n' b hb' => hb.binary op ha hb'

theorem ends_expressionStep {r : Range} (hsize : 2 * extent w r.items ≤ size) :
    s.Ends outer.expr fun i m => expressionStep (parts i) (m.range r) := by
  unfold expressionStep
  simp only [Move.splitAt_range, List.length_map]
  refine s.ite (fun hmany => ?_) fun _ => ends_singleExpression hp hb hsize
  refine s.map (s.each fun part hpart => hp.expression ?_) fun names es hes => hb.sequence hes
  have := extent_splitAt_lt w hpart hmany
  omega

/-! ## Statements -/

omit hb

theorem ends_declaration {r : Range} (hsize : 2 * extent w r.items < size) :
    s.Ends inner.Declared fun i m => declaration (parts i) (m.range r) := by
  obtain ⟨before, items⟩ := r
  unfold declaration
  dsimp only at hsize ⊢
  cases items with
  | nil => exact s.stop fun _ => rfl
  | cons first rest =>
    have hfirst := extent_cons w first rest
    dsimp only [Move.range, Move.items]
    simp only [Move.ident?_item]
    cases first.ident? with
    | none => exact s.stop fun _ => rfl
    | some name =>
      rcases rest with _ | ⟨equals, _ | ⟨value, more⟩⟩
      · exact s.done ⟨_, rfl, .mk name .none⟩
      · exact s.stop fun _ => rfl
      · have hequals := extent_cons w equals (value :: more)
        dsimp only [Move.items]
        simp only [Move.isPunct_item, Move.last_item]
        refine s.ite (fun _ => ?_) fun _ => s.stop fun _ => rfl
        exact s.map (hp.expression (r := ⟨some equals.last, value :: more⟩) (by dsimp only; omega))
          fun names e he => .mk name (.some he)

theorem ends_declarations (word : Token) (hsize : 2 * extent w items < size) :
    s.Ends (Each inner.Declared) fun i m => declarations (parts i) (m.token word) (m.items items) := by
  have hsplit : ∀ m : Move, Range.splitAt .comma ⟨some (m.token word), m.items items⟩ =
      (Range.splitAt .comma ⟨some word, items⟩).map m.range := fun m => m.splitAt_range .comma ⟨some word, items⟩
  unfold declarations
  simp only [Move.isEmpty_items, hsplit]
  refine s.ite (fun _ => s.stop fun _ => rfl) fun _ => s.each fun part hpart => ends_declaration hp ?_
  have := extent_splitAt w hpart
  dsimp only at this
  omega

theorem ends_optionalExpression {r : Range} (hsize : 2 * extent w r.items < size) :
    s.Ends (Maybe inner.expr) fun i m => optionalExpression (parts i) (m.range r) := by
  have hempty : ∀ m : Move, (m.range r).items.isEmpty = r.items.isEmpty := fun m => m.isEmpty_items r.items
  unfold optionalExpression
  simp only [hempty]
  refine s.ite (fun _ => s.done ⟨_, rfl, .none⟩) fun _ => ?_
  exact s.map (hp.expression hsize) fun names e he => .some he

theorem ends_loopInit {r : Range} (hsize : 2 * extent w r.items < size) :
    s.Ends inner.Init fun i m => loopInit (parts i) (m.range r) := by
  have hexpression := hp.expression hsize
  obtain ⟨before, items⟩ := r
  unfold loopInit
  cases items with
  | nil => exact s.done ⟨_, rfl, .none⟩
  | cons first rest =>
    have hfirst := extent_cons w first rest
    dsimp only [Move.range, Move.items] at hsize ⊢
    simp only [Move.isWord_item, Move.last_item]
    refine s.ite (fun _ => ?_) fun _ => ?_
    · exact s.map (ends_declarations hp _ (by omega)) fun names decls h => .var h
    · exact s.map hexpression fun names e he => .expr he

theorem ends_clauseLabel (word : Token) (items : List Item) {cut : Cut}
    (hsize : 2 * extent w cut.left < size) : s.Ends (Maybe inner.expr) fun i m =>
      clauseLabel (parts i) (m.token word) (m.items items) (m.cut cut) := by
  unfold clauseLabel
  dsimp only [Move.cut]
  simp only [Move.isWord_token, Move.isEmpty_items]
  refine s.ite (fun _ => s.ite (fun _ => s.done ⟨_, rfl, .none⟩) fun _ => s.stop fun _ => rfl) fun _ => ?_
  exact s.map (hp.expression (r := ⟨some word, cut.left⟩) hsize) fun names e he => .some he

theorem ends_clause (clauseNext : Bool) (word : Token) (hsize : 2 * extent w items < size) :
    s.Ends inner.Labelled fun i m => clause (parts i) clauseNext (m.token word) (m.items items) := by
  unfold clause
  simp only [Move.first?_isPunct]
  cases hcolon : Cut.first? (fun t => t.isPunct .colon) items with
  | none => exact s.stop fun _ => rfl
  | some cut =>
    have hfits := fits_first? w hcolon
    unfold Cut.Fits at hfits
    refine s.next (ends_clauseLabel hp word items (by omega)) fun names label hlabel => ?_
    exact s.map (ends_statements hp clauseNext (r := ⟨some cut.token, cut.right⟩) (by dsimp only; omega))
      fun more body hbody => .mk hlabel hbody

theorem ends_clausesOf : ∀ {clauses : List (Token × List Item)},
    (∀ c ∈ clauses, 2 * extent w c.2 < size) → s.Ends (Each inner.Labelled) fun i m =>
      clausesOf (parts i) (clauses.map fun c => (m.token c.1, m.items c.2))
  | [], _ => s.done ⟨_, rfl, .nil⟩
  | (word, items) :: rest, hsize => by
    simp only [List.map_cons, clausesOf, List.isEmpty_map]
    refine s.next (ends_clause hp _ word (hsize _ List.mem_cons_self)) fun names c hc => ?_
    refine s.mapAt (ends_clausesOf fun c hc => hsize c (List.mem_cons_of_mem _ hc)) fun more cs hcs => ?_
    exact ⟨_, rfl, .cons hc hcs⟩

omit hp

/-- A clean-up block, with the same last token and the same rest in all runs. -/
def Trees.Cleaned (t : Trees ι) (w : TokenKind → Nat) (items : List Item) :
    Account ι (Move → Option (List Stmt) × Token × List Item) :=
  fun names x => ∃ final last rest, x = (fun i m => m.behind (final i, last, rest)) ∧ t.Final names final ∧
    extent w rest ≤ extent w items

include hp

theorem ends_cleanup (last : Token) (hsize : 2 * extent w items < size) :
    s.Runs (inner.Cleaned w items) fun i m => cleanup (parts i) (m.token last) (m.items items) := by
  unfold cleanup
  cases items with
  | nil => exact s.done ⟨_, last, [], rfl, .none, Nat.le_refl _⟩
  | cons word rest =>
    have hword := extent_cons w word rest
    dsimp only [Move.items]
    simp only [Move.isWord_item]
    refine s.ite (fun _ => ?_) fun _ => s.done ⟨_, last, word :: rest, rfl, .none, Nat.le_refl _⟩
    refine s.after (settled_expectGroup w _ _) fun braces hbraces => ?_
    have hinner : extent w braces.range.items = extent w braces.items := rfl
    refine s.mapAt (ends_statements hp false (r := braces.range) (by omega)) fun names body hbody => ?_
    exact ⟨_, braces.closing, braces.rest, rfl, .some hbody, by omega⟩

include hb

theorem ends_ifStatement (clauseNext : Bool) {total : Nat} (htotal : extent w items ≤ total)
    (hsize : 2 * extent w items < size) :
    s.Runs (outer.Taken w total) fun i m => ifStatement (parts i) clauseNext (m.items items) := by
  unfold ifStatement
  refine s.after (settled_expectGroup w _ _) fun header hheader => ?_
  have hinner : extent w header.range.items = extent w header.items := rfl
  refine s.next (hp.expression (r := header.range) (by omega)) fun n cond hcond => ?_
  refine s.bind (hp.statement clauseNext (r := ⟨some header.closing, header.rest⟩) (by dsimp only; omega)) ?_
  rintro n' _ ⟨body, last, rest, rfl, hbody, hrest⟩
  dsimp only at hrest ⊢
  simp only [Move.elseBranch?_items]
  cases helse : elseBranch? rest with
  | none =>
    refine s.done ⟨_, last, rest, rfl, ?_, by omega⟩
    exact hb.ifElse hcond hbody .none
  | some branch =>
    obtain ⟨word, after⟩ := branch
    have hafter := extent_elseBranch? w helse
    refine s.bindAt (hp.statement clauseNext (r := ⟨some word, after⟩) (by dsimp only; omega)) ?_
    rintro n'' _ ⟨otherwise, last', rest', rfl, hotherwise, hrest'⟩
    dsimp only at hrest'
    exact ⟨_, last', rest', rfl, hb.ifElse hcond hbody (.some hotherwise), by omega⟩

theorem ends_forStatement (clauseNext : Bool) (word : Token) {total : Nat} (htotal : extent w items ≤ total)
    (hsize : 2 * extent w items < size) : s.Runs (outer.Taken w total) fun i m =>
      forStatement (parts i) clauseNext (m.token word) (m.items items) := by
  unfold forStatement
  refine s.after (settled_expectGroup w _ _) fun header hheader => ?_
  have hsplit : ∀ m : Move, (m.opened header).range.splitAt .semicolon =
      (header.range.splitAt .semicolon).map m.range := fun m => m.splitAt_range .semicolon header.range
  have hparts : ∀ part ∈ header.range.splitAt .semicolon, 2 * extent w part.items < size := by
    intro part hpart
    have := extent_splitAt w hpart
    have hinner : extent w header.range.items = extent w header.items := rfl
    omega
  simp only [hsplit]
  generalize header.range.splitAt .semicolon = ranges at hparts
  rcases ranges with _ | ⟨first, _ | ⟨second, _ | ⟨third, _ | ⟨fourth, more⟩⟩⟩⟩
  · exact s.stop fun _ => rfl
  · exact s.stop fun _ => rfl
  · exact s.stop fun _ => rfl
  · refine s.next (ends_loopInit hp (hparts first (by simp))) fun n init hinit => ?_
    refine s.next (ends_optionalExpression hp (hparts second (by simp))) fun n₁ cond hcond => ?_
    refine s.next (ends_optionalExpression hp (hparts third (by simp))) fun n₂ update hupdate => ?_
    refine s.bindAt (hp.statement clauseNext (r := ⟨some header.closing, header.rest⟩) (by dsimp only; omega)) ?_
    rintro n₃ _ ⟨body, last, rest, rfl, hbody, hrest⟩
    dsimp only at hrest
    exact ⟨_, last, rest, rfl, hb.forLoop hinit hcond hupdate hbody, by omega⟩
  · exact s.stop fun _ => rfl

theorem ends_switchStatement {total : Nat} (htotal : extent w items ≤ total) (hsize : 2 * extent w items < size) :
    s.Runs (outer.Taken w total) fun i m => switchStatement (parts i) (m.items items) := by
  unfold switchStatement
  refine s.after (settled_expectGroup w _ _) fun header hheader => ?_
  have hinner : extent w header.range.items = extent w header.items := rfl
  refine s.next (hp.expression (r := header.range) (by omega)) fun n selector hselector => ?_
  refine s.after (settled_expectGroup w _ _) fun braces hbraces => ?_
  have hclauses := (extent_splitClauses w none braces.items).2
  have hsplit : ∀ m : Move, splitClauses none (m.opened braces).items = _ := fun m =>
    m.splitClauses_items braces.items none
  simp only [hsplit]
  generalize splitClauses none braces.items = split at hclauses
  obtain ⟨lead, parted⟩ := split
  simp only [Move.isEmpty_items]
  refine s.ite (fun _ => ?_) fun _ => s.stop fun _ => rfl
  refine s.mapAt (ends_clausesOf hp fun c hc => ?_) fun n' clauses hcs => ?_
  · have := hclauses c hc
    omega
  · exact ⟨_, braces.closing, braces.rest, rfl, hb.switch hselector hcs, by omega⟩

theorem ends_tryStatement {total : Nat} (htotal : extent w items ≤ total) (hsize : 2 * extent w items < size) :
    s.Runs (outer.Taken w total) fun i m => tryStatement (parts i) (m.items items) := by
  unfold tryStatement
  refine s.after (settled_expectGroup w _ _) fun braces hbraces => ?_
  have hinner : extent w braces.range.items = extent w braces.items := rfl
  refine s.next (ends_statements hp false (r := braces.range) (by omega)) fun n body hbody => ?_
  refine s.after (settled_handler w _ _) ?_
  rintro ⟨caught, last, rest⟩ (hrest : extent w rest ≤ extent w braces.rest)
  have hcleanup := ends_cleanup hp last (show 2 * extent w rest < size by omega)
  refine s.bindAt hcleanup ?_
  rintro n' _ ⟨final, last', rest', rfl, hfinal, hrest'⟩
  exact ⟨_, last', rest', rfl, hb.tryBlock caught hbody hfinal, by omega⟩

theorem ends_expressionStatement {r : Range} (first : Item) (hsize : 2 * extent w r.items < size) :
    s.Runs (outer.Taken w (extent w r.items)) fun i m =>
      expressionStatement (parts i) (m.range r) (m.item first) := by
  obtain ⟨hitems, hrest⟩ := extent_upToSemicolon w r.items
  have hcut : ∀ m : Move, upToSemicolon (m.range r).items = _ := fun m => m.upToSemicolon_items r.items
  unfold expressionStatement
  simp only [hcut, Move.last_item, Move.lastToken_items]
  generalize upToSemicolon r.items = cut at hitems hrest
  obtain ⟨items, rest⟩ := cut
  refine s.mapAt (hp.expression (r := ⟨r.before, items⟩) (by dsimp only at hitems ⊢; omega)) fun names e he => ?_
  exact ⟨_, _, rest, rfl, hb.expr he, hrest⟩

theorem ends_wordStatement (clauseNext : Bool) {r : Range} {word : Token} {name : String} {rest : List Item}
    (hrest : r.items = .leaf word :: rest) (hkind : word.kind = .ident name)
    (hsize : 2 * extent w r.items < size) : s.Runs (outer.Taken w (extent w r.items)) fun i m =>
      wordStatement (parts i) clauseNext (m.range r) (m.token word) name (m.items rest) := by
  have hexpression := ends_expressionStatement hp hb (.leaf word) hsize
  have hword : extent w r.items = extent w rest + w word.kind + 1 := by rw [hrest, extent_leaf]
  have hlight : s.Light (.ident name) := hkind ▸ hp.light (by omega)
  obtain ⟨hitems, hfollowing⟩ := extent_upToSemicolon w rest
  unfold wordStatement
  simp only [Move.upToSemicolon_items, Move.isEmpty_items, Move.lastToken_items, Move.declaresFunction_items]
  generalize upToSemicolon rest = cut at hitems hfollowing
  obtain ⟨items, following⟩ := cut
  dsimp only at hitems hfollowing ⊢
  refine s.ite (fun _ => ?_) fun _ => ?_
  · refine s.mapAt (ends_declarations hp word (by omega)) fun names decls h => ?_
    exact ⟨_, _, following, rfl, hb.var h, by omega⟩
  refine s.ite (fun _ => ?_) fun _ => ?_
  · refine s.mapAt (ends_optionalExpression hp (r := ⟨some word, items⟩) (by dsimp only; omega))
      fun names e he => ?_
    exact ⟨_, _, following, rfl, hb.returns he, by omega⟩
  refine s.ite (fun _ => ?_) fun _ => ?_
  · refine s.mapAt (hp.expression (r := ⟨some word, items⟩) (by dsimp only; omega)) fun names e he => ?_
    exact ⟨_, _, following, rfl, hb.throws he, by omega⟩
  refine s.ite (fun _ => s.ite (fun _ => ?_) fun _ => s.stop fun _ => rfl) fun _ => ?_
  · refine s.done ⟨_, _, following, rfl, ?_, by omega⟩
    split
    · exact hb.breaks
    · exact hb.continues
  refine s.ite (fun _ => ends_ifStatement hp hb clauseNext (by omega) (by omega)) fun _ => ?_
  refine s.ite (fun _ => ends_forStatement hp hb clauseNext word (by omega) (by omega)) fun _ => ?_
  refine s.ite (fun _ => ends_switchStatement hp hb (by omega) (by omega)) fun _ => ?_
  refine s.ite (fun _ => ends_tryStatement hp hb (by omega) (by omega)) fun _ => ?_
  refine s.ite (fun hfunction => ?_) fun _ => s.ite (fun _ => s.stop fun _ => rfl) fun _ => hexpression
  refine s.bindAt (ends_declaredFunction hp (hfunction.1 ▸ hlight) (by omega) hfunction.2) ?_
  rintro _ _ ⟨own, ⟨n, params, body, last, left, more, rfl, rfl, -, hbody, hleft⟩, hown⟩
  obtain rfl : n = fun _ => own := funext fun i => hown i .blank
  exact ⟨_, last, left, rfl, hb.declared own params hbody, by omega⟩

theorem ends_statementStep (clauseNext : Bool) {r : Range} (hsize : 2 * extent w r.items < size) :
    s.Runs (outer.Taken w (extent w r.items)) fun i m => statementStep (parts i) clauseNext (m.range r) := by
  have hexpression := fun first => ends_expressionStatement hp hb (r := r) first hsize
  have hwords := @ends_wordStatement ι w s inner outer size parts hp hb clauseNext r
  obtain ⟨before, items⟩ := r
  unfold statementStep
  dsimp only at hsize hexpression hwords ⊢
  cases items with
  | nil => exact s.stop fun _ => rfl
  | cons item rest =>
    have hcons := extent_cons w item rest
    cases item with
    | leaf t =>
      dsimp only [Move.range, Move.items, Move.item]
      simp only [Move.isPunct_token, Move.ident?_token]
      refine s.ite (fun _ => ?_) fun _ => ?_
      · exact s.done ⟨_, t, rest, rfl, hb.empty, hcons.le⟩
      · cases hname : t.ident? with
        | some name => exact hwords rfl (kind_of_ident? hname) hsize
        | none => exact hexpression (.leaf t)
    | group b o c items =>
      rw [extent_group] at hsize
      cases b with
      | round => exact hexpression (.group .round o c items)
      | square => exact hexpression (.group .square o c items)
      | curly =>
        dsimp only [Move.range, Move.items, Move.item]
        simp only [Move.isObject_items]
        refine s.ite (fun _ => hexpression (.group .curly o c items)) fun _ => ?_
        refine s.mapAt (ends_statements hp false (r := ⟨some o, items⟩) (by dsimp only; omega))
          fun names body hbody => ?_
        exact ⟨_, c, rest, rfl, hb.block hbody, hcons.le⟩

end Walk

/-! ## Levels -/

/-- What is known of parsers with some levels left is known of parsers with more levels left, on ranges
that are larger by as much. -/
theorem surveyed_within {ι : Type} {w : TokenKind → Nat} {s : Survey ι w} {trees : Nat → Trees ι} {size top : Nat}
    {levels : ι → Nat} (hbuilds : ∀ depth, Builds s (trees depth) (trees (depth + 1)))
    (hbase : Surveyed s (trees 0) size fun i => parsersWithin (levels i))
    (hlight : ∀ {k}, 2 * w k < size + top → s.Light k) :
    ∀ depth ≤ top, Surveyed s (trees depth) (size + depth) fun i => parsersWithin (levels i + depth)
  | 0, _ => hbase
  | depth + 1, htop => by
    have hp := surveyed_within hbuilds hbase hlight depth (by omega)
    have hlevels : ∀ i, parsersWithin (levels i + (depth + 1)) =
        ⟨expressionWithin (levels i + depth + 1), statementWithin (levels i + depth + 1)⟩ := fun _ => rfl
    have hempty : ∀ (m : Move) (r : Range), (m.range r).items.isEmpty = r.items.isEmpty :=
      fun m r => m.isEmpty_items r.items
    refine ⟨fun h => hlight (by omega), fun {r} hsize => ?_, fun clauseNext r hsize => ?_⟩
    · simp only [hlevels, expressionWithin, hempty]
      exact s.ite (fun _ => s.stop fun _ => rfl) fun _ => ends_expressionStep hp (hbuilds depth) (by omega)
    · simp only [hlevels, statementWithin, hempty]
      exact s.ite (fun _ => s.stop fun _ => rfl) fun _ => ends_statementStep hp (hbuilds depth) clauseNext (by omega)

/-- Parsers without a level left stop. -/
theorem surveyed_ended {ι : Type} {w : TokenKind → Nat} {s : Survey ι w} (t : Trees ι) (size : Nat)
    (hlight : ∀ {k}, 2 * w k < size → s.Light k)
    (hstop : ∀ {α : Type} {R : Account ι (Move → α)} {d : Move → Diagnostic},
      (∀ m, (d m).objection.isPlain = true) → s.Runs R fun _ m => Parse.stop (d m)) :
    Surveyed s t size fun _ => parsersWithin 0 := by
  have hlevels : parsersWithin 0 = ⟨expressionWithin 0, statementWithin 0⟩ := rfl
  have hempty : ∀ (m : Move) (r : Range), (m.range r).items.isEmpty = r.items.isEmpty :=
    fun m r => m.isEmpty_items r.items
  refine ⟨hlight, fun {r} _ => ?_, fun clauseNext r _ => ?_⟩
  · simp only [hlevels, expressionWithin, hempty]
    exact s.ite (fun _ => hstop fun _ => rfl) fun _ => hstop fun _ => rfl
  · simp only [hlevels, statementWithin, hempty]
    exact s.ite (fun _ => hstop fun _ => rfl) fun _ => hstop fun _ => rfl

end PlayerScript.Ast
