/-
Brackets counted in a text and brackets grouped in its tokens. A text whose tokens are grouped, and
that has no brackets or quotation marks in comments, leaves what is open around it as it was, so that
the bracket that closes it is found at its end.
-/
import PlayerScript.Proofs.Token.Shape
import PlayerScript.Proofs.Token.Tails
import PlayerScript.Source.Splitter

namespace PlayerScript.Source

open PlayerScript.Text PlayerScript.Token

variable {n : Nesting} {c q : Char} {cs : List Char} {p : TokenKind → Bool} {ls : List Lexeme}

namespace Nesting

/-- What is open after a text, if something stays open after each of its characters. -/
def through : Nesting → List Char → Option Nesting
  | n, [] => some n
  | n, c :: cs => if (n.step c).isTopLevel then .none else through (n.step c) cs

theorem through_append (n : Nesting) (cs more : List Char) :
    n.through (cs ++ more) = (n.through cs).bind fun m => m.through more := by
  induction cs generalizing n with
  | nil => rfl
  | cons c cs ih =>
    rw [List.cons_append, through, through]
    split_ifs
    · rfl
    · exact ih _

/-- Some bracket is open, and no quotation. -/
structure Deep (n : Nesting) : Prop where
  quote : n.quote = .none
  escaping : n.escaping = false
  depth : 0 < n.round + n.square + n.curly

theorem Deep.isTopLevel (h : n.Deep) : n.isTopLevel = false := by
  have hdepth := h.depth
  rw [Nesting.isTopLevel, h.quote, ← Bool.not_eq_true]
  simp only [Option.isNone_none, Bool.true_and, Bool.and_eq_true, beq_iff_eq]
  omega

theorem through_step {m : Nesting} (h : n.step c = m) (hm : m.isTopLevel = false)
    (cs : List Char) : n.through (c :: cs) = m.through cs := by
  rw [through, h, hm]
  rfl

/-! ## Single characters -/

/-- Whether a character is neither a bracket nor a quotation mark. -/
def isNeutral (c : Char) : Bool :=
  !isQuote c && (Bracket.ofOpener? c).isNone && (Bracket.ofCloser? c).isNone

theorem step_neutral (hn : n.Deep) (hc : isNeutral c = true) : n.step c = n := by
  obtain ⟨round, square, curly, quote, escaping⟩ := n
  obtain ⟨rfl, rfl, -⟩ := hn
  simp only [isNeutral, Bool.and_eq_true, Bool.not_eq_true', Option.isNone_iff_eq_none] at hc
  obtain ⟨⟨hquote, hopener⟩, hcloser⟩ := hc
  simp [step, shift, hquote, hopener, hcloser]

theorem through_neutral (hn : n.Deep)
    (hcs : ∀ c ∈ cs, isNeutral c = true) : n.through cs = some n := by
  induction cs with
  | nil => rfl
  | cons c cs ih =>
    rw [List.forall_mem_cons] at hcs
    rw [through_step (step_neutral hn hcs.1) hn.isTopLevel, ih hcs.2]

theorem step_opener (hn : n.Deep) (b : Bracket) :
    n.step b.opener = n.count (· + 1) b ∧ (n.count (· + 1) b).Deep := by
  obtain ⟨round, square, curly, quote, escaping⟩ := n
  obtain ⟨rfl, rfl, hdepth⟩ := hn
  dsimp only at hdepth
  cases b <;> exact ⟨rfl, rfl, rfl, by dsimp only [count]; omega⟩

theorem step_closer (hn : n.Deep) (b : Bracket) : (n.count (· + 1) b).step b.closer = n := by
  obtain ⟨round, square, curly, quote, escaping⟩ := n
  obtain ⟨rfl, rfl, -⟩ := hn
  cases b <;> rfl

theorem isNeutral_of_toNat (h : c.toNat ∉ [34, 39, 40, 41, 91, 93, 123, 125]) :
    isNeutral c = true := by
  have hne : ∀ d : Char, d.toNat ∈ [34, 39, 40, 41, 91, 93, 123, 125] → (d == c) = false := by
    intro d hd
    rw [beq_eq_false_iff_ne]
    rintro rfl
    exact h hd
  have hquote : isQuote c = false := by
    simp only [List.mem_cons, List.not_mem_nil, or_false, not_or] at h
    simp [isQuote, h]
  simp [isNeutral, hquote, Bracket.ofOpener?, Bracket.ofCloser?, Bracket.all, Bracket.opener,
    Bracket.closer, hne]

theorem isNeutral_of_isWordPart (h : isWordPart c = true) : isNeutral c = true := by
  have hcode := toNat_of_isWordPart h
  refine isNeutral_of_toNat ?_
  simp only [List.mem_cons, List.not_mem_nil, or_false]
  omega

theorem isNeutral_of_isBlank (h : isBlank c = true) : isNeutral c = true := by
  refine isNeutral_of_toNat fun hcode => ?_
  have hvisible : 33 ≤ c.toNat ∧ c.toNat ≤ 126 := by
    simp only [List.mem_cons, List.not_mem_nil, or_false] at hcode
    omega
  rw [isBlank_of_visible hvisible] at h
  cases h

/-! ## Quotations -/

/-- Inside a quotation, with the next character not escaped. -/
def quoting (n : Nesting) (q : Char) : Nesting := { n with quote := some q, escaping := false }

theorem isTopLevel_quoting (n : Nesting) (q : Char) : (n.quoting q).isTopLevel = false := rfl

theorem shift_quoting (n : Nesting) (q c : Char) :
    (n.quoting q).shift c = if isQuote c then (n.quoting q).toggle c else n.quoting q := by
  simp [shift, quoting]

theorem step_plain (n : Nesting) (hquote : c ≠ q) (hescape : c ≠ '\\') :
    (n.quoting q).step c = n.quoting q := by
  have hshift : (n.quoting q).shift c = n.quoting q := by
    rw [shift_quoting]
    split_ifs
    · simp [toggle, quoting, hquote.symm]
    · rfl
  rw [step, hshift]
  simp [hescape, quoting]

theorem through_plain (n : Nesting)
    (hcs : ∀ c ∈ cs, c ≠ q ∧ c ≠ '\\') : (n.quoting q).through cs = some (n.quoting q) := by
  induction cs with
  | nil => rfl
  | cons c cs ih =>
    rw [List.forall_mem_cons] at hcs
    rw [through_step (step_plain n hcs.1.1 hcs.1.2) (isTopLevel_quoting n q), ih hcs.2]

theorem through_escaped (n : Nesting) (q e : Char) (cs : List Char) :
    (n.quoting q).through ('\\' :: e :: cs) = (n.quoting q).through cs := by
  have hslash : (n.quoting q).step '\\' = { n.quoting q with escaping := true } := by
    have hshift : (n.quoting q).shift '\\' = n.quoting q := by
      rw [shift_quoting]
      rfl
    rw [step, hshift]
    rfl
  have he : ({ n.quoting q with escaping := true } : Nesting).step e = n.quoting q := by
    simp [step, shift, quoting]
  rw [through_step hslash rfl, through_step he (isTopLevel_quoting n q)]

theorem step_close (hn : n.Deep) (hq : isQuote q = true) : (n.quoting q).step q = n := by
  obtain ⟨round, square, curly, quote, escaping⟩ := n
  obtain ⟨rfl, rfl, -⟩ := hn
  have hshift : (quoting ⟨round, square, curly, .none, false⟩ q).shift q =
      ⟨round, square, curly, .none, false⟩ := by
    rw [shift_quoting, if_pos hq]
    simp [toggle, quoting]
  rw [step, hshift]
  simp

theorem step_quote (hn : n.Deep) (hq : isQuote q = true) : n.step q = n.quoting q := by
  obtain ⟨round, square, curly, quote, escaping⟩ := n
  obtain ⟨rfl, rfl, -⟩ := hn
  have hcode : q.toNat = 34 ∨ q.toNat = 39 := by simpa [isQuote] using hq
  obtain rfl | rfl : q = Char.ofNat 34 ∨ q = Char.ofNat 39 :=
    hcode.imp (fun h => Char.toNat_inj.1 h) (fun h => Char.toNat_inj.1 h)
  · rfl
  · rfl

/-! ## Strings -/

/-- The digits of an escape are neither quotation marks nor backslashes. -/
theorem digits_plain (hq : isQuote q = true) {bound code : Nat}
    (h : unsigned? 16 bound cs = some code) : ∀ c ∈ cs, c ≠ q ∧ c ≠ '\\' := by
  have hword : ∀ c ∈ cs, isWordPart c = true := by
    unfold unsigned? at h
    dsimp only at h
    split_ifs at h with hempty
    simp only [Bool.or_eq_true, Bool.not_eq_true', not_or, Bool.not_eq_false, List.all_eq_true] at hempty
    have hdigits : ∀ c ∈ dropPlus cs, isWordPart c = true :=
      fun c hc => isWordPart_of_isDigitOf (by decide) (hempty.2 c hc)
    unfold dropPlus at hdigits
    split at hdigits
    · exact List.forall_mem_cons.2 ⟨by decide, hdigits⟩
    · exact hdigits
  intro c hc
  have hneutral := isNeutral_of_isWordPart (hword c hc)
  constructor
  · rintro rfl
    rw [isNeutral, hq] at hneutral
    cases hneutral
  · rintro rfl
    exact absurd (hword _ hc) (by decide)

theorem through_codeUnit (n : Nesting) (hq : isQuote q = true) {width : Nat}
    {unit : Scan Nat} (h : Scan.codeUnit width cs = .ok unit) :
    (n.quoting q).through unit.raw = some (n.quoting q) := by
  obtain ⟨code, hex, rest⟩ := unit
  have hcovers : cs = hex ++ rest := Scan.codeUnit_covers h
  rw [hcovers] at h
  exact through_plain n (digits_plain hq (Scan.codeUnit_local h).2.1)

theorem through_lowHalf (n : Nesting) (hq : isQuote q = true)
    {low : Scan Nat} (h : Scan.lowHalf? cs = some low) :
    (n.quoting q).through low.raw = some (n.quoting q) := by
  unfold Scan.lowHalf? at h
  split at h
  · split at h
    · cases h
    · split at h
      · cases h
      · rename_i code hread
        split_ifs at h
        cases h
        rw [through_escaped]
        exact through_plain n (digits_plain hq hread)
  · cases h

theorem through_escape (n : Nesting) {e : Char} (hq : isQuote q = true)
    {part : Scan (List Char)} (h : Scan.EscapeReads e cs part) :
    (n.quoting q).through part.raw = some (n.quoting q) := by
  cases h with
  | other => rfl
  | byte h => exact through_codeUnit n hq h
  | @braced digits rest c hdigits hc =>
    obtain ⟨code, hread, -⟩ := Option.bind_eq_some_iff.1 hc
    refine through_plain n ?_
    have hbrace : ∀ b : Char, b = '\x7b' ∨ b = '\x7d' → b ≠ q ∧ b ≠ '\\' := by
      rintro b (rfl | rfl)
      · exact ⟨fun heq => absurd (heq ▸ hq) (by decide), by decide⟩
      · exact ⟨fun heq => absurd (heq ▸ hq) (by decide), by decide⟩
    intro c hc
    rw [List.mem_cons, List.mem_append, List.mem_singleton] at hc
    rcases hc with hc | hc | hc
    · exact hbrace c (.inl hc)
    · exact digits_plain hq hread c hc
    · exact hbrace c (.inr hc)
  | paired hbrace h =>
    unfold Scan.pairedEscape at h
    split at h
    · cases h
    · rename_i high hhigh
      have hfirst := through_codeUnit n hq hhigh
      dsimp only at h
      split_ifs at h
      · split at h
        · rename_i low hlow
          cases h
          rw [through_append, hfirst, Option.bind_some]
          exact through_lowHalf n hq hlow
        · cases h
          exact hfirst
      · cases h
        exact hfirst

theorem through_body (hn : n.Deep) (hq : isQuote q = true)
    {s : Scan (List Char)} (h : Scan.BodyReads q cs s) : (n.quoting q).through s.raw = some n := by
  induction h with
  | close =>
    rw [through_step (step_close hn hq) hn.isTopLevel]
    rfl
  | escaped hquote hpart _ ih =>
    rw [through_escaped, through_append, through_escape n hq hpart, Option.bind_some, ih]
  | plain hquote hescape _ ih =>
    rw [through_step (step_plain n hquote hescape) (isTopLevel_quoting n q), ih]

theorem through_string (hn : n.Deep) (hq : isQuote q = true)
    {s : Scan (List Char)} (h : Scan.string q cs = .ok s) : n.through s.raw = some n := by
  unfold Scan.string at h
  split at h
  · cases h
  · rename_i body hbody
    cases h
    rw [through_step (step_quote hn hq) (isTopLevel_quoting n q)]
    exact through_body hn hq (Scan.bodyReads_of_stringBody hbody)

/-! ## Lexemes -/

/-- What a lexeme does to what is open: a bracket is counted, and anything else changes nothing. -/
inductive Counts : Lexeme → Prop
  | opening (b : Bracket) : Counts ⟨some (.punct (.opening b)), [b.opener]⟩
  | closing (b : Bracket) : Counts ⟨some (.punct (.closing b)), [b.closer]⟩
  | other {value : Option TokenKind} {raw : List Char} (hvalue : ∀ k ∈ value, k.isBracket = false)
      (h : ∀ n : Nesting, n.Deep → n.through raw = some n) : Counts ⟨value, raw⟩

theorem symbol_neutral {p : Punct} (hp : p ∈ Punct.longestFirst)
    (hbracket : (TokenKind.punct p).isBracket = false) : ∀ c ∈ p.symbol.toList, isNeutral c = true := by
  have hcodes : ∀ c ∈ p.symbol.toList, c.toNat ∉ [34, 39, 40, 41, 91, 93, 123, 125] := by
    revert hbracket
    fin_cases hp <;> simp [TokenKind.isBracket, Punct.symbol, BinaryOp.symbol, AssignOp.symbol]
  exact fun c hc => isNeutral_of_toNat (hcodes c hc)

theorem isBracket_cases (p : Punct) :
    (TokenKind.punct p).isBracket = false ∨ (∃ b, p = .opening b) ∨ ∃ b, p = .closing b := by
  cases p with
  | opening b => exact .inr (.inl ⟨b, rfl⟩)
  | closing b => exact .inr (.inr ⟨b, rfl⟩)
  | _ => exact .inl rfl

theorem counts_of_lexeme {s : Scan (Option TokenKind)}
    (h : lexeme c cs = .ok s) (hcomment : (⟨s.value, s.raw⟩ : Lexeme).isComment = false) :
    Counts ⟨s.value, s.raw⟩ := by
  have hword : ∀ {kind : TokenKind} {raw : List Char}, kind.isBracket = false →
      (∀ d ∈ raw, isWordPart d = true) → Counts ⟨some kind, raw⟩ := by
    intro kind raw hkind hraw
    refine .other (fun k hk => Option.some.inj hk ▸ hkind) fun n hn => ?_
    exact through_neutral hn fun d hd => isNeutral_of_isWordPart (hraw d hd)
  cases reads_of_lexeme h with
  | blank hblank =>
    refine .other (by simp) fun n hn => through_neutral hn ?_
    intro d hd
    rw [List.mem_singleton] at hd
    rw [hd]
    exact isNeutral_of_isBlank hblank
  | line hblank hline =>
    obtain rfl := head_of_beginsWith hline
    cases hcomment
  | block => cases hcomment
  | string hquote hstring =>
    have hq : isQuote c = true := by simpa [isQuote] using hquote
    exact .other (by rintro k ⟨⟩; rfl) fun n hn => through_string hn hq hstring
  | @number found hdigit hnumber =>
    obtain ⟨x, -, rfl⟩ := number_eq_ok hnumber
    exact hword rfl fun d hd => Scan.isWordPart_of_mem_numberPart hd
  | name hname =>
    exact hword rfl fun d hd => isWordPart_of_isNamePart (List.mem_takeWhile_imp hd)
  | @punct found _ _ _ _ _ _ _ hpunct =>
    obtain ⟨p, raw, rest⟩ := found
    obtain ⟨hp, rfl : raw = p.symbol.toList⟩ := punctuator?_symbol hpunct
    rcases isBracket_cases p with hb | ⟨b, rfl⟩ | ⟨b, rfl⟩
    · exact .other (by rintro k ⟨⟩; exact hb) fun n hn => through_neutral hn (symbol_neutral hp hb)
    · cases b <;> exact .opening _
    · cases b <;> exact .closing _

/-- No comment of a text has a bracket or a quotation mark. -/
def Harmless (ls : List Lexeme) : Prop :=
  ∀ l ∈ ls, l.isComment = true → ∀ c ∈ l.raw, isNeutral c = true

theorem harmless_iff :
    Harmless ls ↔ (ls.all fun l => !l.isComment || l.raw.all isNeutral) = true := by
  rw [Harmless, List.all_eq_true]
  refine forall₂_congr fun l _ => ?_
  rw [Bool.or_eq_true, Bool.not_eq_true', List.all_eq_true]
  cases l.isComment <;> simp

theorem harmless_of_commentFree (h : CommentFree ls) : Harmless ls := by
  intro l hl hcomment
  rw [h l hl] at hcomment
  cases hcomment

theorem counts_of_splits {text rest : List Char} (h : Splits text ls rest)
    (hharmless : Harmless ls) : ∀ l ∈ ls, Counts l := by
  induction h with
  | nil => simp
  | @cons c cs s ls rest hlex _ ih =>
    rw [Harmless, List.forall_mem_cons] at hharmless
    refine List.forall_mem_cons.2 ⟨?_, ih hharmless.2⟩
    cases hcomment : (⟨s.value, s.raw⟩ : Lexeme).isComment with
    | false => exact counts_of_lexeme hlex hcomment
    | true =>
      refine .other ?_ fun n hn => through_neutral hn (hharmless.1 hcomment)
      rw [Lexeme.isComment, Bool.and_eq_true, Option.isNone_iff_eq_none] at hcomment
      have hvalue : s.value = .none := hcomment.1
      rw [hvalue]
      simp

/-! ## Groups -/

theorem through_blanks (hn : n.Deep) (hls : ∀ l ∈ ls, Counts l)
    (h : ∀ l ∈ ls, l.value = .none) : n.through (rawOf ls) = some n := by
  induction ls with
  | nil => rfl
  | cons l ls ih =>
    rw [List.forall_mem_cons] at hls h
    have hraw : n.through l.raw = some n := by
      cases hls.1 with
      | opening b => cases h.1
      | closing b => cases h.1
      | other _ hthrough => exact hthrough n hn
    rw [rawOf, List.flatMap_cons, through_append, hraw, Option.bind_some]
    exact ih hls.2 h.2

/-- The lexemes up to the first token and this token. -/
theorem filterMap_value_cons {kind : TokenKind} {kinds : List TokenKind}
    (hls : ∀ l ∈ ls, Counts l) (h : ls.filterMap Lexeme.value = kind :: kinds) :
    ∃ raw more, Counts ⟨some kind, raw⟩ ∧ (∀ l ∈ more, Counts l) ∧
      more.filterMap Lexeme.value = kinds ∧
      ∀ n : Nesting, n.Deep → n.through (rawOf ls) = n.through (raw ++ rawOf more) := by
  obtain ⟨blanks, ⟨value, raw⟩, more, rfl, hblanks, hvalue, hmore⟩ := List.filterMap_eq_cons_iff.1 h
  rw [List.forall_mem_append, List.forall_mem_cons] at hls
  have hvalue : value = some kind := hvalue
  subst hvalue
  refine ⟨raw, more, hls.2.1, hls.2.2, hmore, fun n hn => ?_⟩
  rw [rawOf, List.flatMap_append, through_append]
  have := through_blanks hn hls.1 hblanks
  rw [rawOf] at this
  rw [this, Option.bind_some, List.flatMap_cons]
  rfl

mutual

theorem through_shape : ∀ (s : Shape), s.all p = true →
    ∀ (ls : List Lexeme), (∀ l ∈ ls, Counts l) → ls.filterMap Lexeme.value = s.kinds →
      ∀ n : Nesting, n.Deep → n.through (rawOf ls) = some n
  | .leaf k, hs, ls, hls, hkinds, n, hn => by
    rw [Shape.kinds] at hkinds
    rw [Shape.all, Bool.and_eq_true, Bool.not_eq_true'] at hs
    obtain ⟨raw, more, hraw, hmore, hnil, hthrough⟩ := filterMap_value_cons hls hkinds
    rw [hthrough n hn, through_append]
    generalize hl : (⟨some k, raw⟩ : Lexeme) = l at hraw
    cases hraw with
    | opening b => cases hl; cases hs.2
    | closing b => cases hl; cases hs.2
    | other _ hother =>
      cases hl
      rw [hother n hn, Option.bind_some]
      exact through_blanks hn hmore (List.filterMap_eq_nil_iff.1 hnil)
  | .group b ss, hs, ls, hls, hkinds, n, hn => by
    rw [Shape.kinds] at hkinds
    rw [Shape.all] at hs
    obtain ⟨raw, more, hraw, hmore, hinside, hthrough⟩ := filterMap_value_cons hls hkinds
    obtain ⟨inside, after, rfl, hinside, hafter⟩ := List.filterMap_eq_append_iff.1 hinside
    rw [List.forall_mem_append] at hmore
    obtain ⟨raw', more', hraw', hmore', hnil, hthrough'⟩ := filterMap_value_cons hmore.2 hafter
    obtain ⟨hopener, hdeep⟩ := step_opener hn b
    have hclosed := step_closer hn b
    generalize hl : (⟨some (.punct (.opening b)), raw⟩ : Lexeme) = l at hraw
    cases hraw with
    | closing b' => cases hl
    | other hvalue _ => cases hl; cases hvalue _ rfl
    | opening b' =>
      cases hl
      generalize hl' : (⟨some (.punct (.closing b)), raw'⟩ : Lexeme) = l' at hraw'
      cases hraw' with
      | opening b' => cases hl'
      | other hvalue _ => cases hl'; cases hvalue _ rfl
      | closing b' =>
        cases hl'
        have hmiddle := through_shapes ss hs inside hmore.1 hinside _ hdeep
        rw [hthrough n hn, List.singleton_append, through_step hopener hdeep.isTopLevel, rawOf,
          List.flatMap_append, through_append]
        rw [rawOf] at hmiddle
        rw [hmiddle, Option.bind_some]
        have hend := hthrough' _ hdeep
        rw [rawOf] at hend
        rw [hend, List.singleton_append, through_step hclosed hn.isTopLevel]
        exact through_blanks hn hmore' (List.filterMap_eq_nil_iff.1 hnil)

/-- A text whose tokens are those of shapes leaves what is open as it was. -/
theorem through_shapes : ∀ (ss : List Shape), Shape.allOf p ss = true →
    ∀ (ls : List Lexeme), (∀ l ∈ ls, Counts l) → ls.filterMap Lexeme.value = Shape.kindsOf ss →
      ∀ n : Nesting, n.Deep → n.through (rawOf ls) = some n
  | [], _, ls, hls, hkinds, n, hn => by
    rw [Shape.kindsOf] at hkinds
    exact through_blanks hn hls (List.filterMap_eq_nil_iff.1 hkinds)
  | s :: ss, hs, ls, hls, hkinds, n, hn => by
    rw [Shape.allOf, Bool.and_eq_true] at hs
    rw [Shape.kindsOf] at hkinds
    obtain ⟨first, more, rfl, hfirst, hmore⟩ := List.filterMap_eq_append_iff.1 hkinds
    rw [List.forall_mem_append] at hls
    have h₁ := through_shape s hs.1 first hls.1 hfirst n hn
    have h₂ := through_shapes ss hs.2 more hls.2 hmore n hn
    rw [rawOf] at h₁ h₂ ⊢
    rw [List.flatMap_append, through_append, h₁, Option.bind_some, h₂]

end

end Nesting

/-! ## Cutting -/

/-- Puts characters in front of the first piece. -/
def prepend (cs : List Char) (pieces : List (List Char)) : List (List Char) :=
  cs.foldr Text.consFirst pieces

theorem prepend_cons (cs piece : List Char) (pieces : List (List Char)) :
    prepend cs (piece :: pieces) = (cs ++ piece) :: pieces := by
  induction cs with
  | nil => rfl
  | cons c cs ih => exact congrArg (Text.consFirst c) ih

/-- No delimiter is honoured in a text while something is open. -/
theorem separateFrom_through (delim : List Char) {limit : Option Nat} (hlimit : limit ≠ some 0)
    {m : Nesting} (h : n.through cs = some m) (rest : List Char) :
    separateFrom delim limit n 0 (cs ++ rest) = prepend cs (separateFrom delim limit m 0 rest) := by
  induction cs generalizing n with
  | nil =>
    cases h
    rfl
  | cons c cs ih =>
    rw [Nesting.through] at h
    split_ifs at h with htop
    rw [List.cons_append, separateFrom, if_neg hlimit]
    simp only [htop, Bool.false_and, Bool.false_eq_true, if_false]
    rw [ih h]
    rfl

/-- Inside one bracket. -/
def Nesting.inside (b : Bracket) : Nesting := Nesting.none.count (· + 1) b

theorem Nesting.inside_deep (b : Bracket) : (Nesting.inside b).Deep := by
  cases b <;> exact ⟨rfl, rfl, Nat.one_pos⟩

/-- Brackets are cut at the closing one if the text between them leaves what is open as it was. -/
theorem separateAtBracket_enclosed {b : Bracket} {body : List Char}
    (h : (Nesting.inside b).through body = some (.inside b)) (rest : List Char) :
    separateAtBracket (b.opener :: (body ++ b.closer :: rest)) none = .ok (trim body, trim rest) := by
  have hopen : Nesting.none.through (b.opener :: body) = some (.inside b) := by
    rw [← h]
    cases b <;> rfl
  have hrest : separateFrom [b.closer] (some 1) (.inside b) 0 (b.closer :: rest) = [[], rest] := by
    cases b <;> cases rest <;> rfl
  have hpieces : separate (b.opener :: (body ++ b.closer :: rest)) [b.closer] (some 1) =
      [b.opener :: body, rest] := by
    rw [separate]
    simp only [List.isEmpty_cons, Bool.or_self, Bool.false_eq_true, if_false]
    rw [← List.cons_append, separateFrom_through _ (by simp) hopen, hrest, prepend_cons,
      List.append_nil]
  have hmatching : Bracket.matching? b.opener = some b.closer := by cases b <;> rfl
  simp only [separateAtBracket, hmatching, Option.map_some, hpieces, List.drop_succ_cons, List.drop_zero]

/-- Brackets are cut at the closing one if the tokens between them are those of shapes. -/
theorem separateAtBracket_lexemes {b : Bracket}
    {ss : List Shape} (hls : ∀ l ∈ ls, Nesting.Counts l) (hall : Shape.allOf p ss = true)
    (hkinds : ls.filterMap Lexeme.value = Shape.kindsOf ss) (rest : List Char) :
    separateAtBracket (b.opener :: (rawOf ls ++ b.closer :: rest)) none =
      .ok (trim (rawOf ls), trim rest) :=
  separateAtBracket_enclosed (Nesting.through_shapes ss hall ls hls hkinds _ (Nesting.inside_deep b)) rest

end PlayerScript.Source
