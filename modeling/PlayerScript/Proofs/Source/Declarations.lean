/-
Texts of function declarations. In a text of declarations with different names, the one with a given
name is found where it stands: no other declaration, and no body, has a place where it could be taken
for it. Its parameters are read, and its body is cut at its own closing brace.
-/
import PlayerScript.Proofs.Source.Nesting
import PlayerScript.Source.Declaration

namespace PlayerScript.Source

open PlayerScript.Text PlayerScript.Token

variable {cs rest after more : List Char} {c x : Char} {d : FunctionText}

/-- The word that begins a function. -/
def functionWord : List Char := "function".toList

/-! ## What a pattern can match -/

namespace Pattern

theorem mem_andThen {p q : Pattern} :
    rest ∈ andThen p q cs ↔ ∃ middle ∈ p cs, rest ∈ q middle := List.mem_flatMap

theorem mem_inOrder_three {p q r : Pattern} :
    rest ∈ inOrder [p, q, r] cs ↔ ∃ cs₁ ∈ p cs, ∃ cs₂ ∈ q cs₁, rest ∈ r cs₂ := by
  simp [inOrder, mem_andThen, nothing]

theorem mem_text {lead : List Char} (h : rest ∈ text lead cs) : cs = lead ++ rest := by
  rw [text, Option.mem_toList] at h
  exact after?_eq_some h

theorem mem_one {p : Char → Bool} (h : rest ∈ one p cs) : ∃ c, p c = true ∧ cs = c :: rest := by
  cases cs with
  | nil => cases h
  | cons c cs =>
    rw [one] at h
    split_ifs at h with hc
    · rw [List.mem_singleton] at h
      exact ⟨c, hc, by rw [h]⟩
    · cases h

theorem mem_blanks (h : rest ∈ blanks cs) :
    ∃ front, (∀ c ∈ front, isBlank c = true) ∧ cs = front ++ rest := by
  induction cs with
  | nil =>
    rw [blanks, List.mem_singleton] at h
    exact ⟨[], by simp, by rw [h]; rfl⟩
  | cons c cs ih =>
    rw [blanks] at h
    split_ifs at h with hc
    · rw [List.mem_append, List.mem_singleton] at h
      rcases h with h | h
      · obtain ⟨front, hfront, rfl⟩ := ih h
        exact ⟨c :: front, List.forall_mem_cons.2 ⟨hc, hfront⟩, rfl⟩
      · exact ⟨[], by simp, by rw [h]; rfl⟩
    · rw [List.mem_singleton] at h
      exact ⟨[], by simp, by rw [h]; rfl⟩

theorem mem_someBlanks (h : rest ∈ someBlanks cs) :
    ∃ b front, isBlank b = true ∧ (∀ c ∈ front, isBlank c = true) ∧ cs = b :: (front ++ rest) := by
  obtain ⟨middle, hone, hblanks⟩ := List.mem_flatMap.1 h
  obtain ⟨b, hb, rfl⟩ := mem_one hone
  obtain ⟨front, hfront, rfl⟩ := mem_blanks hblanks
  exact ⟨b, front, hb, hfront, rfl⟩

theorem blanks_visible (h : isBlank c = false) (cs : List Char) : blanks (c :: cs) = [c :: cs] := by
  rw [blanks, h]
  rfl

end Pattern

/-- How a text can begin with what stands before the parameters of a function. -/
inductive Heads (name : List Char) : List Char → List Char → Prop
  | declared {b : Char} {front rest : List Char} (hb : isBlank b = true)
      (hfront : ∀ c ∈ front, isBlank c = true) :
      Heads name (functionWord ++ b :: (front ++ (name ++ rest))) rest
  /-- An assignment: behind its first character come blanks, words and an equals sign. -/
  | assigned {c : Char} {front middle rest : List Char} (hc : c ∈ ['\x7b', ';', ',', 'v', 'l', 'c'])
      (hfront : ∀ d ∈ front, isBlank d = true ∨ isNamePart d = true)
      (hmiddle : ∀ d ∈ middle, isBlank d = true) :
      Heads name (c :: (front ++ '=' :: (middle ++ (functionWord ++ rest)))) rest

theorem exists_of_mem_assigned {name : List Char} (hname : ∀ c ∈ name, isNamePart c = true)
    (h : rest ∈ Pattern.inOrder [Pattern.text name, Pattern.blanks, Pattern.word "=", Pattern.blanks,
      Pattern.word "function"] cs) :
    ∃ front middle, (∀ d ∈ front, isBlank d = true ∨ isNamePart d = true) ∧
      (∀ d ∈ middle, isBlank d = true) ∧ cs = front ++ '=' :: (middle ++ (functionWord ++ rest)) := by
  simp only [Pattern.inOrder, List.foldr_cons, List.foldr_nil, Pattern.mem_andThen, Pattern.nothing,
    List.mem_singleton] at h
  obtain ⟨cs₁, h₁, cs₂, h₂, cs₃, h₃, cs₄, h₄, cs₅, h₅, rfl⟩ := h
  obtain ⟨front, hfront, rfl⟩ := Pattern.mem_blanks h₂
  obtain ⟨middle, hmiddle, rfl⟩ := Pattern.mem_blanks h₄
  rw [Pattern.mem_text h₁, Pattern.mem_text h₃, Pattern.mem_text h₅]
  refine ⟨name ++ front, middle, ?_, hmiddle, by rw [List.append_assoc]; rfl⟩
  rw [List.forall_mem_append]
  exact ⟨fun d hd => .inr (hname d hd), fun d hd => .inl (hfront d hd)⟩

theorem exists_of_mem_keyword
    (h : rest ∈ Pattern.anyOf [Pattern.word "var", Pattern.word "let", Pattern.word "const"] cs) :
    ∃ c word, c ∈ ['\x7b', ';', ',', 'v', 'l', 'c'] ∧ (∀ d ∈ word, isNamePart d = true) ∧
      cs = c :: (word ++ rest) := by
  have hletters : ∀ {word : List Char}, word.all isNamePart = true → ∀ d ∈ word, isNamePart d = true :=
    fun h => List.all_eq_true.1 h
  simp only [Pattern.anyOf, List.foldr_cons, List.foldr_nil, Pattern.orElse, List.mem_append,
    List.append_nil] at h
  rcases h with h | h | h
  · exact ⟨'v', ['a', 'r'], by decide, hletters rfl, Pattern.mem_text h⟩
  · exact ⟨'l', ['e', 't'], by decide, hletters rfl, Pattern.mem_text h⟩
  · exact ⟨'c', ['o', 'n', 's', 't'], by decide, hletters rfl, Pattern.mem_text h⟩

theorem heads_of_mem {name : List Char} (hname : ∀ c ∈ name, isNamePart c = true)
    (h : rest ∈ functionHead name cs) : Heads name cs rest := by
  dsimp only [functionHead] at h
  rw [Pattern.anyOf, List.foldr_cons, Pattern.orElse, List.mem_append, List.foldr_cons, Pattern.orElse,
    List.mem_append, List.foldr_cons, Pattern.orElse, List.foldr_nil, List.append_nil] at h
  rcases h with h | h | h
  · obtain ⟨cs₁, h₁, cs₂, h₂, h₃⟩ := Pattern.mem_inOrder_three.1 h
    obtain ⟨b, front, hb, hfront, rfl⟩ := Pattern.mem_someBlanks h₂
    rw [Pattern.mem_text h₁, Pattern.mem_text h₃]
    exact .declared hb hfront
  · obtain ⟨cs₁, h₁, cs₂, h₂, h₃⟩ := Pattern.mem_inOrder_three.1 h
    obtain ⟨c, hc, rfl⟩ := Pattern.mem_one h₁
    obtain ⟨blanks, hblanks, rfl⟩ := Pattern.mem_blanks h₂
    obtain ⟨front, middle, hfront, hmiddle, rfl⟩ := exists_of_mem_assigned hname h₃
    rw [← List.append_assoc]
    refine .assigned ?_ ?_ hmiddle
    · simp only [Bool.or_eq_true, beq_iff_eq] at hc
      rcases hc with (rfl | rfl) | rfl <;> decide
    · rw [List.forall_mem_append]
      exact ⟨fun d hd => .inl (hblanks d hd), hfront⟩
  · obtain ⟨cs₁, h₁, cs₂, h₂, h₃⟩ := Pattern.mem_inOrder_three.1 h
    obtain ⟨b, blanks, hb, hblanks, rfl⟩ := Pattern.mem_someBlanks h₂
    obtain ⟨front, middle, hfront, hmiddle, rfl⟩ := exists_of_mem_assigned hname h₃
    obtain ⟨c, word, hc, hword, rfl⟩ := exists_of_mem_keyword h₁
    have htext : ∀ more, word ++ b :: (blanks ++ (front ++ more)) =
        (word ++ b :: (blanks ++ front)) ++ more := by simp
    rw [htext]
    refine .assigned hc ?_ hmiddle
    rw [List.forall_mem_append, List.forall_mem_cons, List.forall_mem_append]
    exact ⟨fun d hd => .inr (hword d hd), .inl hb, fun d hd => .inl (hblanks d hd), hfront⟩

/-! ## Places where nothing is found -/

/-- The parameters and the body behind the head of a function at the beginning of a text. -/
def headerAt? (name cs : List Char) : Option (List Char × List Char) :=
  firstHeader? (functionHead name cs)

theorem headerAt?_eq_none {name : List Char} (hname : ∀ c ∈ name, isNamePart c = true)
    (h : ∀ rest, Heads name cs rest → header? rest = none) : headerAt? name cs = none :=
  List.findSome?_eq_none_iff.2 fun rest hrest => h rest (heads_of_mem hname hrest)

/-- A text is quiet before another one if the head of the function with a name begins nowhere in
it. -/
def Quiet (name : List Char) : List Char → List Char → Prop
  | [], _ => True
  | c :: cs, after => headerAt? name (c :: (cs ++ after)) = none ∧ Quiet name cs after

theorem quiet_cons {name : List Char} :
    Quiet name (c :: cs) after ↔ headerAt? name (c :: (cs ++ after)) = none ∧ Quiet name cs after :=
  Iff.rfl

theorem Quiet.append {name : List Char} (h : Quiet name cs (more ++ after))
    (h' : Quiet name more after) : Quiet name (cs ++ more) after := by
  induction cs with
  | nil => exact h'
  | cons c cs ih =>
    rw [List.cons_append, quiet_cons, List.append_assoc]
    exact ⟨h.1, ih h.2⟩

theorem leftmost?_quiet {name : List Char} (h : Quiet name cs after) :
    leftmost? (headerAt? name) (cs ++ after) = leftmost? (headerAt? name) after := by
  induction cs with
  | nil => rfl
  | cons c cs ih =>
    rw [List.cons_append, leftmost?, h.1]
    exact ih h.2

/-- Where a run of characters of one class ends in a text is known from the text. -/
theorem run_unique {p : Char → Prop} {a b s t : List Char} {y : Char} (ha : ∀ c ∈ a, p c)
    (hb : ∀ c ∈ b, p c) (hx : ¬p x) (hy : ¬p y) (h : a ++ x :: s = b ++ y :: t) : a = b ∧ x = y := by
  induction a generalizing b with
  | nil =>
    cases b with
    | nil => exact ⟨rfl, (List.cons.inj h).1⟩
    | cons d b =>
      have hd : x = d := (List.cons.inj h).1
      exact absurd (hb d List.mem_cons_self) (hd ▸ hx)
  | cons c a ih =>
    rw [List.forall_mem_cons] at ha
    cases b with
    | nil =>
      have hc : c = y := (List.cons.inj h).1
      exact absurd ha.1 (hc ▸ hy)
    | cons d b =>
      rw [List.forall_mem_cons] at hb
      obtain ⟨rfl, htail⟩ := List.cons.inj h
      obtain ⟨rfl, rfl⟩ := ih ha.2 hb.2 htail
      exact ⟨rfl, rfl⟩

theorem functionWord_isNamePart : ∀ c ∈ functionWord, isNamePart c = true :=
  List.all_eq_true.1 rfl

/-- Whether a character may stand in the front of an assignment. -/
def InFront (c : Char) : Prop := isBlank c = true ∨ isNamePart c = true

/-- A character that ends the front of an assignment, other than the equals sign. -/
structure EndsFront (c : Char) : Prop where
  blank : isBlank c = false
  part : isNamePart c = false
  equals : c ≠ '='

theorem EndsFront.not_inFront (h : EndsFront c) : ¬InFront c := by
  rintro (hc | hc)
  · rw [h.blank] at hc
    cases hc
  · rw [h.part] at hc
    cases hc

theorem equals_not_inFront : ¬InFront '=' := by
  rintro (h | h)
  · rw [isBlank_of_visible (by decide)] at h
    cases h
  · exact absurd h (by decide)

section

variable {name : List Char} (hname : ∀ c ∈ name, isNamePart c = true)
include hname

/-- No assignment begins where its front would reach a character that ends it. -/
theorem headerAt?_run (hcs : ∀ d ∈ cs, InFront d) (hx : EndsFront x)
    (h : ∀ {b front rest}, isBlank b = true →
      c :: (cs ++ x :: after) ≠ functionWord ++ b :: (front ++ (name ++ rest))) :
    headerAt? name (c :: (cs ++ x :: after)) = none := by
  refine headerAt?_eq_none hname fun rest hheads => ?_
  generalize htext : c :: (cs ++ x :: after) = text at hheads
  cases hheads with
  | declared hb _ => exact absurd htext (h hb)
  | assigned hc hfront _ =>
    have hrun := (List.cons.inj htext).2
    obtain ⟨-, heq⟩ := run_unique hcs hfront hx.not_inFront equals_not_inFront hrun
    exact absurd heq hx.equals

omit hname in
theorem ne_declared (hc : c ≠ 'f') : c :: cs ≠ functionWord ++ more :=
  fun heq => hc (List.cons.inj heq).1

/-- A word is quiet before a character that ends the front of an assignment. -/
theorem quiet_word {word : List Char} (hword : ∀ c ∈ word, isNamePart c = true)
    (hx : EndsFront x) (after : List Char) : Quiet name word (x :: after) := by
  induction word with
  | nil => trivial
  | cons c cs ih =>
    have hcs := (List.forall_mem_cons.1 hword).2
    refine ⟨headerAt?_run hname (fun d hd => .inr (hcs d hd)) hx ?_, ih hcs⟩
    intro b front rest hb heq
    have hparts : ¬isNamePart b = true := fun hpart => by
      rw [isBlank_of_isWordPart (isWordPart_of_isNamePart hpart)] at hb
      cases hb
    rw [← List.cons_append] at heq
    obtain ⟨-, rfl⟩ := run_unique hword functionWord_isNamePart (by simp [hx.part]) hparts heq
    rw [hx.blank] at hb
    cases hb

/-- Words and blanks without the first letter of a function are quiet before more words and blanks
and a character that ends them. -/
theorem quiet_front (hcs : ∀ c ∈ cs, c ≠ 'f' ∧ InFront c)
    (hmore : ∀ c ∈ more, InFront c) (hx : EndsFront x) (after : List Char) :
    Quiet name cs (more ++ x :: after) := by
  induction cs with
  | nil => trivial
  | cons c cs ih =>
    rw [List.forall_mem_cons] at hcs
    refine ⟨?_, ih hcs.2⟩
    have hrun : ∀ d ∈ cs ++ more, InFront d := by
      intro d hd
      rcases List.mem_append.1 hd with hd | hd
      · exact (hcs.2 d hd).2
      · exact hmore d hd
    rw [← List.append_assoc]
    exact headerAt?_run hname hrun hx fun _ => ne_declared hcs.1.1

theorem headerAt?_char (hc : c ∉ ['f', '\x7b', ';', ',', 'v', 'l', 'c']) (cs : List Char) :
    headerAt? name (c :: cs) = none := by
  rw [List.mem_cons, not_or] at hc
  refine headerAt?_eq_none hname fun rest hheads => ?_
  generalize htext : c :: cs = text at hheads
  cases hheads with
  | declared => exact absurd htext (ne_declared hc.1)
  | assigned hc' _ _ => exact absurd ((List.cons.inj htext).1 ▸ hc') hc.2

/-- Blanks are quiet. -/
theorem quiet_blanks (hcs : ∀ c ∈ cs, isBlank c = true) (after : List Char) :
    Quiet name cs after := by
  induction cs with
  | nil => trivial
  | cons c cs ih =>
    rw [List.forall_mem_cons] at hcs
    refine ⟨headerAt?_char hname (fun hmem => ?_) _, ih hcs.2⟩
    have hcode : 33 ≤ c.toNat ∧ c.toNat ≤ 126 := by fin_cases hmem <;> decide
    rw [isBlank_of_visible hcode] at hcs
    cases hcs.1

omit hname in
/-- What is matched holds the word that begins a function, and no closing brace. -/
theorem Heads.region (h : Heads name cs rest) :
    ∃ region more, cs = region ++ more ∧ '\x7d' ∉ region ∧ functionWord <:+: region := by
  have hword : '\x7d' ∉ functionWord := by decide
  have hblank : isBlank '\x7d' = false := isBlank_of_visible (by decide)
  cases h with
  | declared => exact ⟨functionWord, _, rfl, hword, List.infix_rfl⟩
  | @assigned c front middle rest hc hfront hmiddle =>
    refine ⟨c :: (front ++ '=' :: (middle ++ functionWord)), rest, by simp, ?_, ?_⟩
    · have hc : '\x7d' ≠ c := by
        rintro rfl
        exact absurd hc (by decide)
      have hfront : '\x7d' ∉ front := by
        intro hmem
        rcases hfront _ hmem with h | h
        · rw [hblank] at h
          cases h
        · exact absurd h (by decide)
      have hmiddle : '\x7d' ∉ middle := by
        intro hmem
        rw [hmiddle _ hmem] at hblank
        cases hblank
      simp [hc, hfront, hmiddle, hword]
    · exact ⟨c :: (front ++ '=' :: middle), [], by simp⟩

/-- A body and its closing brace are quiet, if the word that begins a function does not stand in
it. -/
theorem quiet_body {body : List Char} (hbody : ¬functionWord <:+: body) (after : List Char) :
    Quiet name (body ++ ['\x7d']) after := by
  -- what is matched would end before the brace
  have hnone : ∀ {text : List Char}, ¬functionWord <:+: text →
      headerAt? name (text ++ '\x7d' :: after) = none := by
    intro text htext
    refine headerAt?_eq_none hname fun rest hheads => ?_
    obtain ⟨region, more, hcs, hbrace, hpart⟩ := hheads.region
    refine absurd (hpart.trans ?_) htext
    rcases List.append_eq_append_iff.1 hcs with ⟨tail, hregion, hmore⟩ | ⟨tail, hbefore, -⟩
    · cases tail with
      | nil => rw [hregion, List.append_nil]
      | cons c tail =>
        have hc : '\x7d' = c := (List.cons.inj hmore).1
        exact absurd (by rw [hregion, hc]; simp) hbrace
    · exact ⟨[], tail, by rw [hbefore]; rfl⟩
  induction body with
  | nil =>
    have hnil : ¬functionWord <:+: [] := by decide
    exact ⟨hnone hnil, trivial⟩
  | cons c body ih =>
    rw [List.cons_append, quiet_cons, List.append_assoc]
    exact ⟨hnone hbody, ih fun hpart => hbody (hpart.trans (List.suffix_cons c body).isInfix)⟩

end

/-! ## The text of a declaration -/

/-- A function as it is declared in a text: what stands before it, its name, its parameters with what
follows the commas between them, and its body. -/
structure FunctionText where
  lead : List Char
  name : String
  params : List String
  spacing : List Char
  body : List Char

namespace FunctionText

/-- The parameters of a function as they are written. -/
def paramText (d : FunctionText) : List Char :=
  List.intercalate (',' :: d.spacing) (d.params.map String.toList)

/-- A declaration as it is written. -/
def text (d : FunctionText) : List Char :=
  d.lead ++ (functionWord ++ ' ' :: (d.name.toList ++ '(' ::
    (d.paramText ++ ')' :: '\x7b' :: (d.body ++ ['\x7d']))))

/-- Declarations one after another. -/
def textOf (ds : List FunctionText) : List Char := ds.flatMap text

/-- A body that is closed in itself: it is split into lexemes, none of them a comment, and its
brackets match. -/
def Closed (body : List Char) : Prop :=
  ∃ ls items, Splits body ls [] ∧ CommentFree ls ∧ Item.group? body (tokensAt 0 ls) = .ok items

/-- A declaration with blanks where blanks belong, names where names belong, and a body that is
closed in itself and in which the word that begins a function does not stand. -/
structure Valid (d : FunctionText) : Prop where
  lead : ∀ c ∈ d.lead, isBlank c = true
  spacing : ∀ c ∈ d.spacing, isBlank c = true
  name : isName d.name.toList = true
  params : ∀ p ∈ d.params, isName p.toList = true
  body : ¬functionWord <:+: d.body
  closed : Closed d.body

theorem isNamePart_of_isName (h : isName cs = true) : cs ≠ [] ∧ ∀ c ∈ cs, isNamePart c = true := by
  cases cs with
  | nil => cases h
  | cons c cs =>
    rw [isName, Bool.and_eq_true, List.all_eq_true] at h
    exact ⟨List.cons_ne_nil c cs, List.forall_mem_cons.2 ⟨by rw [isNamePart, h.1]; rfl, h.2⟩⟩

theorem endsFront_visible (hc : c ∈ ['(', ')', ',']) : EndsFront c := by
  have hcode : 33 ≤ c.toNat ∧ c.toNat ≤ 126 := by fin_cases hc <;> decide
  exact ⟨isBlank_of_visible hcode, by fin_cases hc <;> rfl, by fin_cases hc <;> decide⟩

/-- The parameters begin with the first one, up to a comma or the parenthesis behind them. -/
theorem params_first (spacing word after : List Char) (ws : List (List Char)) :
    ∃ x more, EndsFront x ∧
      List.intercalate (',' :: spacing) (word :: ws) ++ ')' :: after = word ++ x :: more := by
  cases ws with
  | nil => exact ⟨')', after, endsFront_visible (by decide), by simp [List.intercalate]⟩
  | cons w ws => exact ⟨',', _, endsFront_visible (by decide), by simp [List.intercalate]; rfl⟩

section

variable {name : List Char} (hname : ∀ c ∈ name, isNamePart c = true)
include hname

theorem quiet_params {spacing : List Char} (hspacing : ∀ c ∈ spacing, isBlank c = true)
    (after : List Char) : ∀ words : List (List Char), (∀ w ∈ words, ∀ c ∈ w, isNamePart c = true) →
      Quiet name (List.intercalate (',' :: spacing) words) (')' :: after)
  | [], _ => trivial
  | [w], hwords => by
    rw [List.intercalate_singleton]
    exact quiet_word hname (hwords w List.mem_cons_self) (endsFront_visible (.tail _ (.head _))) after
  | w :: w' :: ws, hwords => by
    rw [List.forall_mem_cons] at hwords
    have hcomma : EndsFront ',' := endsFront_visible (by decide)
    have hrest := quiet_params hspacing after (w' :: ws) hwords.2
    rw [List.intercalate_cons_cons, List.append_assoc]
    refine .append (quiet_word hname hwords.1 hcomma _) ?_
    rw [List.cons_append, quiet_cons, List.append_assoc]
    refine ⟨?_, ?_⟩
    · obtain ⟨x, more, hx, hmore⟩ := params_first spacing w' after ws
      have hchar : ',' ≠ 'f' := by decide
      rw [hmore, ← List.append_assoc]
      refine headerAt?_run hname ?_ hx fun _ => ne_declared hchar
      intro d hd
      rcases List.mem_append.1 hd with hd | hd
      · exact .inl (hspacing d hd)
      · exact .inr (hwords.2 w' List.mem_cons_self d hd)
    · exact .append (quiet_blanks hname hspacing _) hrest

omit hname in
theorem header?_visible (hblank : isBlank c = false) (hc : c ≠ '(') (cs : List Char) :
    header? (c :: cs) = none := by
  have htrim : trimStart (c :: cs) = c :: cs := by
    rw [trimStart, List.dropWhile_cons_of_neg (by simp [hblank])]
  unfold header?
  rw [htrim]
  split
  · rename_i heq
    exact absurd (List.cons.inj heq).1 hc
  · rfl

/-- The head of a declaration with another name is not taken for it. -/
theorem headerAt?_other {other : List Char} (hother : other ≠ [])
    (hparts : ∀ c ∈ other, isNamePart c = true) (hne : other ≠ name) (after : List Char) :
    headerAt? name (functionWord ++ ' ' :: (other ++ '(' :: after)) = none := by
  have hvisible : ∀ c ∈ other, isBlank c = false :=
    fun c hc => isBlank_of_isWordPart (isWordPart_of_isNamePart (hparts c hc))
  refine headerAt?_eq_none hname fun rest hheads => ?_
  generalize htext : functionWord ++ ' ' :: (other ++ '(' :: after) = text at hheads
  cases hheads with
  | assigned hc _ _ => exact absurd ((List.cons.inj htext).1 ▸ hc) (by decide)
  | @declared b front rest hb hfront =>
    have htext := (List.cons.inj (List.append_cancel_left htext)).2
    -- the blanks end before the name
    obtain rfl : front = [] := by
      cases front with
      | nil => rfl
      | cons d front =>
        obtain ⟨c, cs, rfl⟩ := List.exists_cons_of_ne_nil hother
        have hc : c = d := (List.cons.inj htext).1
        have hd := hfront d List.mem_cons_self
        rw [← hc, hvisible c List.mem_cons_self] at hd
        cases hd
    rw [List.nil_append] at htext
    rcases List.append_eq_append_iff.1 htext with ⟨more, hlonger, hmore⟩ | ⟨more, hlonger, hmore⟩
    · cases more with
      | nil => exact absurd (by rw [hlonger, List.append_nil]) hne
      | cons c more =>
        have hc : '(' = c := (List.cons.inj hmore).1
        have hpart := hname c (by rw [hlonger]; simp)
        rw [← hc] at hpart
        exact absurd hpart (by decide)
    · cases more with
      | nil => exact absurd (by rw [hlonger, List.append_nil]) hne
      | cons c more =>
        have hmem : c ∈ other := by rw [hlonger]; simp
        have hc : c ≠ '(' := by
          rintro rfl
          exact absurd (hparts _ hmem) (by decide)
        rw [hmore]
        exact header?_visible (hvisible c hmem) hc _

/-- A declaration with another name is quiet. -/
theorem quiet_text (hd : d.Valid) (hne : d.name.toList ≠ name) (after : List Char) :
    Quiet name d.text after := by
  obtain ⟨hnil, hparts⟩ := isNamePart_of_isName hd.name
  have hround : EndsFront '(' := endsFront_visible (by decide)
  have hbody : ¬functionWord <:+: '\x7b' :: d.body := by
    rw [List.infix_cons_iff]
    rintro (hfirst | hpart)
    · obtain ⟨more, hmore⟩ := hfirst
      exact absurd (List.cons.inj hmore).1 (by decide)
    · exact hd.body hpart
  have hwords : ∀ w ∈ d.params.map String.toList, ∀ c ∈ w, isNamePart c = true := by
    intro w hw
    obtain ⟨p, hp, rfl⟩ := List.mem_map.1 hw
    exact (isNamePart_of_isName (hd.params p hp)).2
  -- from the closing brace back to the first letter
  have hbraces : Quiet name ('\x7b' :: (d.body ++ ['\x7d'])) after := by
    rw [← List.cons_append]
    exact quiet_body hname hbody after
  have hheader : Quiet name ('(' :: (d.paramText ++ ')' :: '\x7b' :: (d.body ++ ['\x7d']))) after := by
    refine ⟨headerAt?_char hname (by decide) _, .append (quiet_params hname hd.spacing _ _ hwords) ?_⟩
    exact ⟨headerAt?_char hname (by decide) _, hbraces⟩
  have hafter : Quiet name (d.name.toList ++ '(' ::
      (d.paramText ++ ')' :: '\x7b' :: (d.body ++ ['\x7d']))) after :=
    .append (quiet_word hname hparts hround _) hheader
  have hletters : ∀ c ∈ ['u', 'n', 'c', 't', 'i', 'o', 'n'] ++ [' '], c ≠ 'f' ∧ InFront c := by
    have hparts : ∀ c ∈ ['u', 'n', 'c', 't', 'i', 'o', 'n'], c ≠ 'f' ∧ isNamePart c = true := by
      simp [isNamePart, isNameStart]
    intro c hc
    rcases List.mem_append.1 hc with hc | hc
    · exact ⟨(hparts c hc).1, .inr (hparts c hc).2⟩
    · rw [List.mem_singleton] at hc
      rw [hc]
      exact ⟨by decide, .inl rfl⟩
  have hword : ∀ more, functionWord ++ ' ' :: more =
      'f' :: (['u', 'n', 'c', 't', 'i', 'o', 'n', ' '] ++ more) := fun _ => rfl
  rw [text]
  refine .append (quiet_blanks hname hd.lead _) ?_
  rw [hword, quiet_cons]
  refine ⟨?_, .append ?_ hafter⟩
  · have hother := headerAt?_other hname hnil hparts hne
      (d.paramText ++ ')' :: '\x7b' :: (d.body ++ ['\x7d']) ++ after)
    rw [hword] at hother
    simpa using hother
  · rw [List.append_assoc]
    exact quiet_front hname hletters (fun c hc => .inr (hparts c hc)) hround _

end

/-! ## Finding a declaration -/

theorem quiet_textOf {name : List Char} (hname : ∀ c ∈ name, isNamePart c = true)
    {ds : List FunctionText} (hds : ∀ d ∈ ds, d.Valid ∧ d.name.toList ≠ name) (after : List Char) :
    Quiet name (textOf ds) after := by
  induction ds with
  | nil => trivial
  | cons d ds ih =>
    rw [List.forall_mem_cons] at hds
    rw [textOf, List.flatMap_cons]
    exact .append (quiet_text hname hds.1.1 hds.1.2 _) (ih hds.2)

theorem header?_eq {params : List Char} (hparams : ')' ∉ params) (body : List Char) :
    header? ('(' :: (params ++ ')' :: '\x7b' :: body)) = some (params, '\x7b' :: body) := by
  have hin : ∀ c ∈ params, decide (c ≠ ')') = true :=
    fun c hc => decide_eq_true fun heq => hparams (heq ▸ hc)
  have hstop : ∀ c ∈ (')' :: '\x7b' :: body).head?, decide (c ≠ ')') = false := by simp
  obtain ⟨htake, hdrop⟩ := takeWhile_of_stop hin hstop
  have hround : trimStart ('(' :: (params ++ ')' :: '\x7b' :: body)) =
      '(' :: (params ++ ')' :: '\x7b' :: body) := rfl
  have hcurly : trimStart ('\x7b' :: body) = '\x7b' :: body := rfl
  unfold header?
  simp only [hround, hdrop, htake, hcurly]

/-- A declaration is found where it begins. -/
theorem headerAt?_self {name : List Char} (hnil : name ≠ []) (hparts : ∀ c ∈ name, isNamePart c = true)
    {params : List Char} (hparams : ')' ∉ params) (body : List Char) :
    headerAt? name (functionWord ++ ' ' :: (name ++ '(' :: (params ++ ')' :: '\x7b' :: body))) =
      some (params, '\x7b' :: body) := by
  obtain ⟨c, cs, rfl⟩ := List.exists_cons_of_ne_nil hnil
  have hvisible : isBlank c = false :=
    isBlank_of_isWordPart (isWordPart_of_isNamePart (hparts c List.mem_cons_self))
  have hword : ∀ more, Pattern.word "function" (functionWord ++ more) = [more] :=
    fun more => congrArg Option.toList (after?_append functionWord more)
  have hblanks : ∀ more, Pattern.someBlanks (' ' :: c :: more) = [c :: more] := by
    intro more
    have hone : Pattern.one isBlank (' ' :: c :: more) = [c :: more] := rfl
    rw [Pattern.someBlanks, hone, List.flatMap_singleton, Pattern.blanks_visible hvisible]
  have hname : ∀ more, Pattern.text (c :: cs) (c :: (cs ++ more)) = [more] :=
    fun more => congrArg Option.toList (after?_append (c :: cs) _)
  have hfirst : ∀ more, Pattern.inOrder
      [Pattern.word "function", Pattern.someBlanks, Pattern.text (c :: cs)]
      (functionWord ++ ' ' :: (c :: cs ++ more)) = [more] := by
    intro more
    simp only [Pattern.inOrder, List.foldr_cons, List.foldr_nil, Pattern.andThen, Pattern.nothing, hword,
      List.flatMap_singleton, List.cons_append, hblanks, hname]
  simp only [headerAt?, firstHeader?, functionHead, Pattern.anyOf, List.foldr_cons, List.foldr_nil,
    Pattern.orElse, hfirst, List.singleton_append, List.findSome?_cons, header?_eq hparams]

/-! ## Parameters -/

theorem mem_intercalate {sep : List Char} : ∀ {words : List (List Char)},
    c ∈ List.intercalate sep words → c ∈ sep ∨ ∃ w ∈ words, c ∈ w
  | [], h => by cases h
  | [w], h => by
    rw [List.intercalate_singleton] at h
    exact .inr ⟨w, List.mem_cons_self, h⟩
  | w :: w' :: ws, h => by
    rw [List.intercalate_cons_cons, List.mem_append, List.mem_append] at h
    rcases h with (h | h) | h
    · exact .inr ⟨w, List.mem_cons_self, h⟩
    · exact .inl h
    · refine (mem_intercalate h).imp_right ?_
      rintro ⟨v, hv, hc⟩
      exact ⟨v, List.mem_cons_of_mem w hv, hc⟩

theorem not_mem_paramText (hd : d.Valid) : ')' ∉ d.paramText := by
  intro h
  rcases mem_intercalate h with h | ⟨w, hw, h⟩
  · rcases List.mem_cons.1 h with h | h
    · exact absurd h (by decide)
    · have hblank := hd.spacing _ h
      rw [isBlank_of_visible (by decide)] at hblank
      cases hblank
  · obtain ⟨p, hp, rfl⟩ := List.mem_map.1 hw
    exact absurd ((isNamePart_of_isName (hd.params p hp)).2 _ h) (by decide)

theorem piecesFrom_comma {w : List Char} (hw : ',' ∉ w) :
    piecesFrom [','] w 0 = [w] ∧
      ∀ more, piecesFrom [','] (w ++ ',' :: more) 0 = w :: piecesFrom [','] more 0 := by
  induction w with
  | nil => exact ⟨rfl, fun more => rfl⟩
  | cons c w ih =>
    rw [List.mem_cons, not_or] at hw
    obtain ⟨h₁, h₂⟩ := ih hw.2
    have hbegins : ∀ more, beginsWith [','] (c :: more) = false := by
      intro more
      rw [beginsWith, after?, if_neg hw.1]
      rfl
    refine ⟨?_, fun more => ?_⟩
    · rw [piecesFrom, hbegins, h₁]
      rfl
    · rw [List.cons_append, piecesFrom, hbegins, h₂]
      rfl

/-- Trimming leaves a name of what stands between commas. -/
theorem trim_name {blanks w : List Char} (hblanks : ∀ c ∈ blanks, isBlank c = true) (hnil : w ≠ [])
    (hw : ∀ c ∈ w, isBlank c = false) : trim (blanks ++ w) = w := by
  obtain ⟨c, cs, rfl⟩ := List.exists_cons_of_ne_nil hnil
  have hstart : trimStart (blanks ++ c :: cs) = c :: cs := by
    rw [trimStart, List.dropWhile_append_of_pos hblanks,
      List.dropWhile_cons_of_neg (by simp [hw c List.mem_cons_self])]
  rw [trim, hstart]
  refine List.rdropWhile_eq_self_iff.2 fun hne => ?_
  simp [hw _ (List.getLast_mem hne)]

theorem trim_pieces {spacing : List Char} (hspacing : ∀ c ∈ spacing, isBlank c = true) :
    ∀ (words : List (List Char)) (w : List Char) (blanks : List Char),
      (∀ c ∈ blanks, isBlank c = true) → (∀ v ∈ w :: words, v ≠ [] ∧ ∀ c ∈ v, isNamePart c = true) →
      (piecesFrom [','] (blanks ++ List.intercalate (',' :: spacing) (w :: words)) 0).map trim =
        w :: words := by
  have hcomma : ∀ {blanks w : List Char}, (∀ c ∈ blanks, isBlank c = true) →
      (∀ c ∈ w, isNamePart c = true) → ',' ∉ blanks ++ w := by
    intro blanks w hblanks hw hmem
    rcases List.mem_append.1 hmem with h | h
    · have := hblanks _ h
      rw [isBlank_of_visible (by decide)] at this
      cases this
    · exact absurd (hw _ h) (by decide)
  have hvisible : ∀ {w : List Char}, (∀ c ∈ w, isNamePart c = true) → ∀ c ∈ w, isBlank c = false :=
    fun hw c hc => isBlank_of_isWordPart (isWordPart_of_isNamePart (hw c hc))
  intro words
  induction words with
  | nil =>
    intro w blanks hblanks hwords
    obtain ⟨hnil, hw⟩ := hwords w List.mem_cons_self
    rw [List.intercalate_singleton, (piecesFrom_comma (hcomma hblanks hw)).1, List.map_singleton,
      trim_name hblanks hnil (hvisible hw)]
  | cons v words ih =>
    intro w blanks hblanks hwords
    rw [List.forall_mem_cons] at hwords
    obtain ⟨hnil, hw⟩ := hwords.1
    rw [List.intercalate_cons_cons, List.append_assoc, List.cons_append, ← List.append_assoc,
      (piecesFrom_comma (hcomma hblanks hw)).2, List.map_cons, trim_name hblanks hnil (hvisible hw),
      ih v spacing hspacing hwords.2]

theorem splitParams_paramText (hd : d.Valid) : splitParams d.paramText = d.params := by
  have hwords : ∀ w ∈ d.params.map String.toList, w ≠ [] ∧ ∀ c ∈ w, isNamePart c = true := by
    intro w hw
    obtain ⟨p, hp, rfl⟩ := List.mem_map.1 hw
    exact isNamePart_of_isName (hd.params p hp)
  have hback : (d.params.map String.toList).map String.ofList = d.params := by simp
  have hfilter : (d.params.map String.toList).filter (fun p => !p.isEmpty) = d.params.map String.toList :=
    List.filter_eq_self.2 fun w hw => by simpa using (hwords w hw).1
  cases hparams : d.params.map String.toList with
  | nil =>
    have hnil : d.params = [] := List.map_eq_nil_iff.1 hparams
    rw [paramText, hnil]
    rfl
  | cons w words =>
    have hpieces : (pieces [','] d.paramText).map trim = d.params.map String.toList := by
      rw [hparams] at hwords ⊢
      rw [paramText, hparams]
      exact trim_pieces hd.spacing words w [] (by simp) hwords
    rw [splitParams, hpieces, hfilter, hback]

/-- The text of a closed body leaves what is open around it as it was. -/
theorem Closed.through {body : List Char} (h : Closed body) :
    (Nesting.inside .curly).through body = some (.inside .curly) := by
  obtain ⟨ls, items, hsplits, hfree, hgroup⟩ := h
  obtain ⟨hkinds, hall⟩ := Item.kinds_of_group (p := fun _ => true) hgroup (by simp)
  rw [kind_tokensAt] at hkinds
  have hbody := hsplits.eq_append
  rw [List.append_nil] at hbody
  rw [hbody]
  have hcounts := Nesting.counts_of_splits hsplits (Nesting.harmless_of_commentFree hfree)
  exact Nesting.through_shapes _ hall ls hcounts hkinds _ (Nesting.inside_deep .curly)

/-- In a text of declarations with different names, the one with a name is found, with its
parameters and its body. -/
theorem functionCode_textOf {ds : List FunctionText} (hds : ∀ d ∈ ds, d.Valid)
    (hdistinct : (ds.map FunctionText.name).Nodup) (hd : d ∈ ds) :
    functionCode (textOf ds) d.name = .ok ⟨d.params, trim d.body⟩ := by
  obtain ⟨before, later, rfl⟩ := List.append_of_mem hd
  have hvalid : d.Valid := hds d (by simp)
  obtain ⟨hnil, hparts⟩ := isNamePart_of_isName hvalid.name
  have hbefore : ∀ d' ∈ before, d'.Valid ∧ d'.name.toList ≠ d.name.toList := by
    intro d' hd'
    refine ⟨hds d' (by simp [hd']), fun heq => ?_⟩
    rw [List.map_append, List.map_cons, List.nodup_append] at hdistinct
    exact hdistinct.2.2 d'.name (List.mem_map_of_mem hd') d.name (by simp) (String.toList_inj.1 heq)
  -- the text from the parameters on
  have hheader := headerAt?_self hnil hparts (not_mem_paramText hvalid)
    (d.body ++ '\x7d' :: textOf later)
  have htext : textOf (before ++ d :: later) = textOf before ++ (d.lead ++ (functionWord ++ ' ' ::
      (d.name.toList ++ '(' :: (d.paramText ++ ')' :: '\x7b' :: (d.body ++ '\x7d' :: textOf later))))) := by
    simp [textOf, text]
  have hfound : leftmost? (headerAt? d.name.toList) (textOf (before ++ d :: later)) =
      some (d.paramText, '\x7b' :: (d.body ++ '\x7d' :: textOf later)) := by
    rw [htext, leftmost?_quiet (quiet_textOf hparts hbefore _),
      leftmost?_quiet (quiet_blanks hparts hvalid.lead _)]
    have hword : ∀ more, functionWord ++ more = 'f' :: (['u', 'n', 'c', 't', 'i', 'o', 'n'] ++ more) :=
      fun _ => rfl
    rw [hword] at hheader ⊢
    rw [leftmost?, hheader]
  have hcut : separateAtBracket ('\x7b' :: (d.body ++ '\x7d' :: textOf later)) none =
      .ok (trim d.body, trim (textOf later)) :=
    separateAtBracket_enclosed hvalid.closed.through (textOf later)
  simp only [functionCode]
  rw [show (fun cs => firstHeader? (functionHead d.name.toList cs)) = headerAt? d.name.toList from rfl,
    hfound]
  dsimp only
  rw [hcut, splitParams_paramText hvalid]
  rfl

end FunctionText
end PlayerScript.Source
