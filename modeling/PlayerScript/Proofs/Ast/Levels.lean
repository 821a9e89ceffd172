/-
The levels that are allowed only decide whether a text is refused. Where a text is not refused for
being nested too deeply, more levels change nothing: the trees, the error, and the number of minted
names stay the same. Twice as many levels as the text has tokens are always enough.
-/
import PlayerScript.Proofs.Ast.Survey.Counts

namespace PlayerScript.Ast

variable {r : Range} {k depth k' : Nat} {items : List Item} {d : Diagnostic} {source : List Char}

/-! ## More levels -/

/-- Two runs that end in the same way, with related results, unless the first one is refused for being
nested too deeply. The first one is the one for `false`. -/
inductive EndsAlike {α : Type} (R : Account Bool (Move → α)) (m : Move)
    (run : Bool → Except Diagnostic α × Nat) : Prop
  | refused {d : Diagnostic} {k : Nat} (h : run false = (.error d, k))
      (hd : d.objection = .malformed .nestingTooDeep)
  | error {d : Diagnostic} {k : Nat} (h : ∀ i, run i = (.error d, k))
  | ok {names : List (Bool → String)} {a : Bool → Move → α} {k : Nat} (h : ∀ i, run i = (.ok (a i m), k))
      (ha : R names a)

/-- A run with some levels, and one with more. -/
def moreLevels : Survey Bool fun _ => 0 where
  Runs R x := ∀ m k, EndsAlike R m fun i => x i m k
  Name := Same
  Light _ := True
  name_own name := ⟨name, rfl⟩
  done h _ _ := .ok (fun _ => rfl) h
  own _ h _ _ := .ok (fun _ => rfl) h
  mint _ _ _ := .ok (fun _ => rfl) ⟨_, rfl, rfl, _, rfl⟩
  stop _ _ _ := .error fun _ => rfl
  bind := by
    intro α β R S x f hx hf m k
    have hbind : ∀ i, (x i m >>= f i m) k = Parse.andThen (x i m) (f i m) k := fun _ => rfl
    simp only [hbind, Parse.andThen]
    cases hx m k with
    | @refused d k' h hd =>
      refine .refused (d := d) (k := k') ?_ hd
      rw [h]
    | error h =>
      simp only [h]
      exact .error fun _ => rfl
    | @ok names a k' h ha =>
      simp only [h]
      cases hf names a ha m k' with
      | refused h hd => exact .refused h hd
      | error h => exact .error h
      | ok h ha => exact .ok h ha

/-- What is known makes the results the same in all runs. -/
def Agrees {ι α : Type} (R : Account ι α) : Prop := ∀ {names a}, R names a → Same a

section Agrees

variable {ι α : Type} {R : Account ι α}

theorem agrees_each (hR : Agrees R) : Agrees (Each R) := by
  intro names as h
  induction h with
  | nil => exact ⟨_, rfl⟩
  | cons h _ ih =>
    obtain ⟨a, rfl⟩ := hR h
    obtain ⟨as, rfl⟩ := ih
    exact ⟨a :: as, rfl⟩

theorem agrees_maybe (hR : Agrees R) : Agrees (Maybe R) := by
  rintro names _ (_ | h)
  · exact ⟨none, rfl⟩
  · obtain ⟨a, rfl⟩ := hR h
    exact ⟨some a, rfl⟩

variable (ι) in
/-- Trees that are the same in all runs. -/
def sameTrees : Trees ι := ⟨fun _ e => Same e, fun _ s => Same s⟩

theorem agrees_expr : Agrees (sameTrees ι).expr := fun h => h

theorem agrees_body : Agrees (Each (sameTrees ι).stmt) := agrees_each fun h => h

theorem agrees_element : Agrees (sameTrees ι).Element := by
  rintro names _ (_ | h)
  · exact ⟨_, rfl⟩
  · exact h

theorem agrees_member : Agrees (sameTrees ι).Member := by
  rintro names _ ⟨key, ⟨e, rfl⟩⟩
  exact ⟨(key, e), rfl⟩

theorem agrees_declared : Agrees (sameTrees ι).Declared := by
  rintro names _ ⟨name, h⟩
  obtain ⟨e, rfl⟩ := agrees_maybe agrees_expr h
  exact ⟨(name, e), rfl⟩

theorem agrees_init : Agrees (sameTrees ι).Init := by
  rintro names _ (_ | h | ⟨e, rfl⟩)
  · exact ⟨none, rfl⟩
  · obtain ⟨decls, rfl⟩ := agrees_each agrees_declared h
    exact ⟨some (.var decls), rfl⟩
  · exact ⟨some (.expr e), rfl⟩

theorem agrees_labelled : Agrees (sameTrees ι).Labelled := by
  rintro names _ ⟨hl, hb⟩
  obtain ⟨label, rfl⟩ := agrees_maybe agrees_expr hl
  obtain ⟨body, rfl⟩ := agrees_body hb
  exact ⟨.mk label body, rfl⟩

/-- What is made of parts that are the same is the same, if functions have the same names. -/
theorem builds_same {w : TokenKind → Nat} {s : Survey ι w} (hname : ∀ {name}, s.Name name → Same name) :
    Builds s (sameTrees ι) (sameTrees ι) where
  literal _ := ⟨_, rfl⟩
  ident _ _ := ⟨_, rfl⟩
  update _ _ _ := ⟨_, rfl⟩
  wrapped h := h
  array h := by obtain ⟨_, rfl⟩ := agrees_each agrees_element h; exact ⟨_, rfl⟩
  object h := by obtain ⟨_, rfl⟩ := agrees_each agrees_member h; exact ⟨_, rfl⟩
  function := by
    intro _ _ _ h params hb
    obtain ⟨_, rfl⟩ := hname h
    obtain ⟨_, rfl⟩ := agrees_body hb
    exact ⟨_, rfl⟩
  unary := by rintro _ _ op ⟨_, rfl⟩; exact ⟨_, rfl⟩
  binary := by rintro _ _ _ _ op ⟨_, rfl⟩ ⟨_, rfl⟩; exact ⟨_, rfl⟩
  conditional := by rintro _ _ _ _ _ _ ⟨_, rfl⟩ ⟨_, rfl⟩ ⟨_, rfl⟩; exact ⟨_, rfl⟩
  assign := by
    rintro _ _ _ _ name op hi ⟨_, rfl⟩
    obtain ⟨_, rfl⟩ := agrees_maybe agrees_expr hi
    exact ⟨_, rfl⟩
  sequence h := by obtain ⟨_, rfl⟩ := agrees_each agrees_expr h; exact ⟨_, rfl⟩
  member := by rintro _ _ name optional ⟨_, rfl⟩; exact ⟨_, rfl⟩
  computed := by rintro _ _ _ _ optional ⟨_, rfl⟩ ⟨_, rfl⟩; exact ⟨_, rfl⟩
  call := by
    rintro _ _ _ _ ⟨_, rfl⟩ h
    obtain ⟨_, rfl⟩ := agrees_each agrees_expr h
    exact ⟨_, rfl⟩
  empty := ⟨_, rfl⟩
  breaks := ⟨_, rfl⟩
  continues := ⟨_, rfl⟩
  expr := by rintro _ _ ⟨_, rfl⟩; exact ⟨_, rfl⟩
  var h := by obtain ⟨_, rfl⟩ := agrees_each agrees_declared h; exact ⟨_, rfl⟩
  declared name params h := by obtain ⟨_, rfl⟩ := agrees_body h; exact ⟨_, rfl⟩
  returns h := by obtain ⟨_, rfl⟩ := agrees_maybe agrees_expr h; exact ⟨_, rfl⟩
  throws := by rintro _ _ ⟨_, rfl⟩; exact ⟨_, rfl⟩
  block h := by obtain ⟨_, rfl⟩ := agrees_body h; exact ⟨_, rfl⟩
  ifElse := by
    rintro _ _ _ _ _ _ ⟨_, rfl⟩ ⟨_, rfl⟩ ho
    obtain ⟨_, rfl⟩ := agrees_maybe (R := (sameTrees ι).stmt) (fun h => h) ho
    exact ⟨_, rfl⟩
  forLoop := by
    rintro _ _ _ _ _ _ _ _ hi hc hu ⟨_, rfl⟩
    obtain ⟨_, rfl⟩ := agrees_init hi
    obtain ⟨_, rfl⟩ := agrees_maybe agrees_expr hc
    obtain ⟨_, rfl⟩ := agrees_maybe agrees_expr hu
    exact ⟨_, rfl⟩
  switch := by
    rintro _ _ _ _ ⟨_, rfl⟩ hc
    obtain ⟨_, rfl⟩ := agrees_each agrees_labelled hc
    exact ⟨_, rfl⟩
  tryBlock handler hb hf := by
    obtain ⟨_, rfl⟩ := agrees_body hb
    obtain ⟨_, rfl⟩ := agrees_maybe agrees_body hf
    exact ⟨_, rfl⟩

end Agrees

theorem expressionWithin_empty (h : r.items.isEmpty = true) (depth : Nat) :
    expressionWithin depth r = r.missing "expression" := by
  cases depth <;> rw [expressionWithin, if_pos h]

theorem statementWithin_empty (h : r.items.isEmpty = true) (depth : Nat) (clauseNext : Bool) :
    statementWithin depth clauseNext r = r.missing "statement" := by
  cases depth <;> rw [statementWithin, if_pos h]

/-- Parsers without a level left refuse what is not empty, and on what is empty all parsers stop
alike. -/
theorem surveyed_moreLevels (more size depth : Nat) : Surveyed moreLevels (sameTrees Bool) (size + depth)
    fun i => parsersWithin ((bif i then more else 0) + depth) := by
  refine surveyed_within (fun _ => builds_same id) ⟨fun _ => trivial, fun {r} _ m k => ?_,
    fun clauseNext r _ m k => ?_⟩ (fun _ => trivial) depth (Nat.le_refl _)
  · by_cases hempty : (m.range r).items.isEmpty = true
    · exact .error fun i => congrFun (expressionWithin_empty hempty _) k
    · exact .refused (congrFun (if_neg hempty) k) rfl
  · by_cases hempty : (m.range r).items.isEmpty = true
    · exact .error fun i => congrFun (statementWithin_empty hempty _ clauseNext) k
    · exact .refused (congrFun (if_neg hempty) k) rfl

theorem statements_moreLevels (depth more : Nat) (r : Range) (k : Nat) :
    EndsAlike (Unmoved (Each (sameTrees Bool).stmt)) (.still r.before) fun i =>
      statements (parsersWithin ((bif i then more else 0) + depth)) false r k := by
  have hends := ends_statements (surveyed_moreLevels more (2 * extent (fun _ => 0) r.items + 2) depth) false
    (r := ⟨none, r.items⟩) (by dsimp only; omega) (.still r.before) k
  simp only [Move.still_range] at hends
  exact hends

theorem EndsAlike.of_ok {α : Type} {R : Account Bool α} (hR : Agrees R) {m : Move}
    {run : Bool → Except Diagnostic α × Nat} (h : EndsAlike (Unmoved R) m run) {a : α}
    (hrun : run false = (.ok a, k)) : run true = (.ok a, k) := by
  cases h with
  | refused h => rw [h] at hrun; cases hrun
  | error h => rw [h] at hrun; cases hrun
  | ok h ha =>
    obtain ⟨b, rfl, hb⟩ := ha
    obtain ⟨b, rfl⟩ := hR hb
    rw [h] at hrun ⊢
    exact hrun

/-- Statements that are parsed within some levels are parsed into the same trees within more. -/
theorem statements_mono {depth' : Nat} (hdepth : depth ≤ depth')
    {body : List Stmt} (h : statements (parsersWithin depth) false r k = (.ok body, k')) :
    statements (parsersWithin depth') false r k = (.ok body, k') := by
  obtain ⟨more, rfl⟩ := Nat.exists_eq_add_of_le' hdepth
  refine (statements_moreLevels depth more r k).of_ok agrees_body ?_
  rwa [cond_false, Nat.zero_add]

/-- An expression that is parsed within some levels is parsed into the same tree within more. -/
theorem expressionWithin_mono {depth' : Nat} (hdepth : depth ≤ depth')
    {e : Expr} (h : expressionWithin depth r k = (.ok e, k')) :
    expressionWithin depth' r k = (.ok e, k') := by
  obtain ⟨more, rfl⟩ := Nat.exists_eq_add_of_le' hdepth
  have hends := (surveyed_moreLevels more (2 * extent (fun _ => 0) r.items + 1) depth).expression
    (r := ⟨none, r.items⟩) (by dsimp only; omega) (.still r.before) k
  simp only [Move.still_range] at hends
  refine hends.of_ok agrees_expr ?_
  rwa [cond_false, Nat.zero_add]

/-! ## Enough levels -/

/-- Nothing is said of the trees. -/
def anyTrees : Trees Nat := ⟨fun _ _ => True, fun _ _ => True⟩

theorem builds_any {w : TokenKind → Nat} (s : Survey Nat w) : Builds s anyTrees anyTrees := by
  constructor <;> intros <;> trivial

theorem statements_enoughLevels (h : 2 * extent (fun _ => 0) items + 1 < depth)
    (hrun : statements (parsersWithin depth) false ⟨none, items⟩ k = (.error d, k')) :
    d.objection ≠ .malformed .nestingTooDeep := by
  -- without a level no range is small enough, so there is nothing to show of the parsers
  have hbase : Surveyed (everyCount (fun _ => true) 0 id) anyTrees 0 fun _ => parsersWithin 0 :=
    ⟨fun _ _ _ => rfl, fun h => absurd h (Nat.not_lt_zero _), fun _ _ h => absurd h (Nat.not_lt_zero _)⟩
  have hparts := surveyed_within (fun _ => builds_any _) hbase (fun _ _ _ => rfl) depth (Nat.le_refl _)
  simp only [Nat.zero_add] at hparts
  rw [← unburdened_all items 0] at h
  have hcommon := (ends_statements hparts false (r := ⟨none, items⟩) h k).of_error (i := 0) (m := .still none)
    (by simp only [Move.still_range, Nat.zero_add]; exact hrun)
  rintro hdeep
  rw [hdeep] at hcommon
  cases hcommon

/-- What the parser objects to is a fault of the text. -/
theorem plainly_parseStatements (source : List Char) (maxDepth minted : Nat) :
    Plainly (parseStatements source maxDepth minted).1 := by
  have hitems := plainly_itemsOf source
  unfold parseStatements
  split
  · rename_i he
    exact hitems.error he
  · rename_i items _
    split
    · exact failsWith_ok _
    · rename_i hstop
      have hplain := (statements_counted (fun _ _ => builds_any _) (unburdened_all items) maxDepth minted).of_error
        (i := 0) (m := .still none) (by rw [Move.still_range, Nat.zero_add]; exact hstop)
      refine failsWith_error ?_
      unfold Diagnostic.toError
      split
      · rename_i hfault
        rw [hfault] at hplain
        exact hplain
      · rfl

/-! ## Texts -/

/-- A text was refused for being nested too deeply. -/
def TooDeep {α : Type} (outcome : Except Error α × Nat) : Prop :=
  ∃ code, outcome.1 = .error (.malformed .nestingTooDeep code)

theorem tooDeep_of_diagnostic (h : d.objection = .malformed .nestingTooDeep)
    (source : List Char) (k : Nat) : TooDeep ((.error (d.toError source), k) : Except Error (List Stmt) × Nat) := by
  refine ⟨d.span.text source, ?_⟩
  rw [Diagnostic.toError, h]

theorem objection_of_tooDeep
    (h : TooDeep ((.error (d.toError source), k) : Except Error (List Stmt) × Nat)) :
    d.objection = .malformed .nestingTooDeep := by
  obtain ⟨code, hcode⟩ := h
  unfold Diagnostic.toError at hcode
  split at hcode
  · rename_i fault hfault
    cases hcode
    exact hfault
  · cases hcode

/-- Text without items is refused for its tokens or its brackets, whatever levels are allowed. -/
theorem parseStatements_of_error {e : Error} (hitems : itemsOf source = .error e)
    (maxDepth minted : Nat) : parseStatements source maxDepth minted = (.error e, minted) := by
  rw [parseStatements, hitems]

theorem not_tooDeep_of_error {e : Error} (hitems : itemsOf source = .error e)
    (maxDepth minted : Nat) : ¬ TooDeep (parseStatements source maxDepth minted) := by
  rintro ⟨code, hcode⟩
  rw [parseStatements_of_error hitems] at hcode
  cases hcode
  exact absurd (lexically_itemsOf source _ hitems) nofun

/-- Items that are not refused for being nested too deeply are parsed alike within more levels. -/
theorem parseStatements_moreLevels (hitems : itemsOf source = .ok items) {maxDepth minted : Nat}
    (hdeep : ¬ TooDeep (parseStatements source maxDepth minted)) (more : Nat) :
    parseStatements source (more + maxDepth) minted = parseStatements source maxDepth minted := by
  rw [parseStatements, hitems] at hdeep ⊢
  rw [parseStatements, hitems]
  dsimp only at hdeep ⊢
  cases statements_moreLevels maxDepth more ⟨none, items⟩ minted with
  | @refused d k h hd =>
    simp only [cond_false, Nat.zero_add] at h
    rw [h] at hdeep
    exact absurd (tooDeep_of_diagnostic hd source k) hdeep
  | error h =>
    have hmore := h true
    have hless := h false
    simp only [cond_true, cond_false, Nat.zero_add] at hmore hless
    rw [hmore, hless]
  | ok h ha =>
    have hmore := h true
    have hless := h false
    simp only [cond_true, cond_false, Nat.zero_add] at hmore hless
    obtain ⟨body, rfl, hbody⟩ := ha
    obtain ⟨stmts, rfl⟩ := agrees_body hbody
    rw [hmore, hless]

/-- Two levels for each token, and two more, are enough. -/
theorem not_tooDeep_of_extent (hitems : itemsOf source = .ok items) {maxDepth : Nat}
    (hle : 2 * extent (fun _ => 0) items + 2 ≤ maxDepth) (minted : Nat) : ¬ TooDeep (parseStatements source maxDepth minted) := by
  rw [parseStatements, hitems]
  dsimp only
  split
  · rintro ⟨code, hcode⟩
    cases hcode
  · rename_i d k hrun
    intro hdeep
    exact statements_enoughLevels hle hrun (objection_of_tooDeep hdeep)

/-- The levels that are allowed only decide whether a text is refused: one that is not refused for
being nested too deeply is parsed alike within more levels, with the same trees or the same error and as
many names minted; and within enough levels no text is refused so. -/
theorem levels_decide_refusal (source : List Char) :
    (∀ minted maxDepth maxDepth', maxDepth ≤ maxDepth' →
      ¬ TooDeep (parseStatements source maxDepth minted) →
        parseStatements source maxDepth' minted = parseStatements source maxDepth minted) ∧
    ∃ enough, ∀ minted maxDepth, enough ≤ maxDepth → ¬ TooDeep (parseStatements source maxDepth minted) := by
  cases hitems : itemsOf source with
  | error e =>
    refine ⟨fun minted maxDepth maxDepth' _ _ => ?_, 0, fun minted maxDepth _ => ?_⟩
    · rw [parseStatements_of_error hitems, parseStatements_of_error hitems]
    · exact not_tooDeep_of_error hitems maxDepth minted
  | ok items =>
    refine ⟨fun minted maxDepth maxDepth' hle hdeep => ?_, 2 * extent (fun _ => 0) items + 2,
      fun minted maxDepth hle => ?_⟩
    · obtain ⟨more, rfl⟩ := Nat.exists_eq_add_of_le' hle
      exact parseStatements_moreLevels hitems hdeep more
    · exact not_tooDeep_of_extent hitems hle minted

/-- A call with a function that returns an array, seven levels deep. -/
def nestedText : List Char := "f(function()\x7breturn[(a)]\x7d)".toList

/-- The theorem at a text that is refused within six levels and not within seven. -/
theorem levels_decide_refusal_sample :
    TooDeep (parseStatements nestedText 6 0) ∧ ¬ TooDeep (parseStatements nestedText 7 0) ∧
      parseStatements nestedText 9 0 = parseStatements nestedText 7 0 ∧
      ∃ enough, ∀ minted maxDepth, enough ≤ maxDepth →
        ¬ TooDeep (parseStatements nestedText maxDepth minted) := by
  have hrun : ∃ stmts, parseStatements nestedText 7 0 = (.ok stmts, 1) := ⟨_, rfl⟩
  have hfits : ¬ TooDeep (parseStatements nestedText 7 0) := by
    obtain ⟨stmts, hrun⟩ := hrun
    rintro ⟨code, hcode⟩
    rw [hrun] at hcode
    cases hcode
  obtain ⟨hmore, henough⟩ := levels_decide_refusal nestedText
  exact ⟨⟨_, rfl⟩, hfits, hmore 0 7 9 (by decide) hfits, henough⟩

end PlayerScript.Ast
