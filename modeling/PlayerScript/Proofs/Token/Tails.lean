/-
What follows a lexeme. A lexeme that is no comment is read from its own characters: another text
behind it changes nothing, as long as it cannot lengthen the lexeme. So a part of a text between
lexemes is split alike on its own, and with the blanks before it cut off.
-/
import PlayerScript.Proofs.Token.Literals

namespace PlayerScript

open PlayerScript.Text

variable {tail' cs : List Char} {c : Char} {ls : List Lexeme}

namespace Scan

/-- What was read, with more text behind it. -/
def extend {α : Type} (tail : List Char) (s : Scan α) : Scan α := { s with rest := s.rest ++ tail }

end Scan

/-! ## Lexemes -/

namespace Text

theorem after?_tail {tail : List Char} : ∀ {lead : List Char}, (∀ c ∈ tail.head?, c ∉ lead) →
    ∀ cs : List Char, after? lead (cs ++ tail) = (after? lead cs).map (· ++ tail)
  | [], _, _ => rfl
  | l :: lead, h, [] => by
    cases tail with
    | nil => rfl
    | cons c tail =>
      have hc : ¬l = c := fun heq => h c rfl (heq ▸ List.mem_cons_self)
      rw [List.nil_append]
      exact if_neg hc
  | l :: lead, h, c :: cs => by
    rw [List.cons_append, after?, after?]
    split_ifs
    · exact after?_tail (fun c hc hmem => h c hc (List.mem_cons_of_mem l hmem)) cs
    · rfl

theorem after?_tail_cons {tail : List Char} {l : Char} {lead : List Char}
    (h : ∀ c ∈ tail.head?, c ∉ lead) (c : Char) (cs : List Char) :
    after? (l :: lead) (c :: cs ++ tail) = (after? (l :: lead) (c :: cs)).map (· ++ tail) := by
  rw [List.cons_append, after?, after?]
  split_ifs
  · exact after?_tail h cs
  · rfl

end Text

namespace Token

variable {tail : List Char}

/-- Before a text that begins with a slash only where another does, a comment begins only where it begins
before the other. -/
theorem beginsWith_tail (h : Bounds tail)
    (hslash : '/' ∈ tail.head? → '/' ∈ tail'.head?) {d : Char} (hd : d = '/' ∨ d = '*')
    (hbegins : beginsWith ['/', d] (c :: (cs ++ tail)) = true) :
    beginsWith ['/', d] (c :: (cs ++ tail')) = true := by
  obtain ⟨more, hmore⟩ := Option.isSome_iff_exists.1 hbegins
  obtain ⟨rfl, hcs⟩ := List.cons.inj (after?_eq_some hmore)
  have hfirst : d ∈ (cs ++ tail').head? := by
    cases cs with
    | cons e cs => exact congrArg some (List.cons.inj hcs).1
    | nil =>
      rw [List.nil_append] at hcs ⊢
      rcases hd with rfl | rfl
      · exact hslash (hcs ▸ rfl)
      · rcases h '*' (hcs ▸ rfl) with hstar | hstar | hstar <;> exact absurd hstar (by decide)
  obtain ⟨rest, hrest⟩ := List.head?_eq_some_iff.1 hfirst
  rw [hrest]
  exact Option.isSome_iff_exists.2 ⟨rest, after?_append ['/', d] rest⟩

theorem startsWithDigit_tail (h : Bounds tail) (cs : List Char) :
    startsWithDigit (cs ++ tail) = startsWithDigit cs := by
  cases cs with
  | cons c cs => rfl
  | nil =>
    cases tail with
    | nil => rfl
    | cons c tail => exact h.stops (p := isDecimal) (fun c => isWordPart_of_isDigitOf (by decide)) c rfl

/-- A closing brace, a slash and a blank stand in no punctuator behind its first character. -/
theorem symbol_goes_on {p : Punct} (hp : p ∈ Punct.longestFirst) :
    ∀ d ∈ p.symbol.toList.tail, isBlank d = false ∧ d ≠ '\x7d' ∧ d ≠ '/' := by
  have hvisible : ∀ d ∈ p.symbol.toList.tail, (33 ≤ d.toNat ∧ d.toNat ≤ 126) ∧ d ≠ '\x7d' ∧ d ≠ '/' := by
    fin_cases hp <;> simp [Punct.symbol, BinaryOp.symbol, AssignOp.symbol]
  exact fun d hd => ⟨isBlank_of_visible (hvisible d hd).1, (hvisible d hd).2⟩

theorem findSome?_congr {α β : Type} {f g : α → Option β} : ∀ {as : List α},
    (∀ a ∈ as, f a = g a) → as.findSome? f = as.findSome? g
  | [], _ => rfl
  | a :: as, h => by
    rw [List.findSome?_cons, List.findSome?_cons, h a List.mem_cons_self,
      findSome?_congr fun b hb => h b (List.mem_cons_of_mem a hb)]

theorem punctuator?_tail (h : Bounds tail) (c : Char) (cs : List Char) :
    punctuator? (c :: cs ++ tail) = (punctuator? (c :: cs)).map (Scan.extend tail) := by
  unfold punctuator?
  rw [List.map_findSome?]
  refine findSome?_congr fun p hp => ?_
  obtain ⟨l, lead, hsymbol⟩ := List.exists_cons_of_ne_nil (symbol_ne_nil hp)
  have hlead : ∀ c ∈ tail.head?, c ∉ lead := h.not_mem (by
    have := symbol_goes_on hp
    rwa [hsymbol] at this)
  rw [Function.comp_apply, hsymbol, after?_tail_cons hlead, Option.map_map, Option.map_map]
  congr 1
  funext rest
  rw [Function.comp_apply, Function.comp_apply, startsWithDigit_tail h]
  split_ifs <;> rfl

/-- A number is read from its own characters. -/
theorem number_tail (h : Bounds tail) {s : Scan TokenKind} :
    number (c :: cs ++ tail) = .ok (s.extend tail) ↔ number (c :: cs) = .ok s := by
  obtain ⟨value, raw, rest⟩ := s
  unfold number
  rw [Scan.numberPart_tail h]
  dsimp only [Scan.extend]
  cases Number.ofNumeral? (Scan.numberPart (c :: cs)).1 with
  | none => simp
  | some x => simp

theorem lexeme_of_reads {s : Scan (Option TokenKind)} (h : Reads c cs s) : lexeme c cs = .ok s := by
  cases h with
  | blank hblank => rw [lexeme, if_pos hblank]
  | line hblank hline => rw [lexeme, if_neg (by simp [hblank]), if_pos hline]
  | block hblank hline hblock hclose =>
    rw [lexeme, if_neg (by simp [hblank]), if_neg (by simp [hline]), if_pos hblock, hclose]
  | string hquote hstring =>
    have hblank : isBlank c = false := isBlank_of_visible (by omega)
    have hslash : ∀ d, beginsWith ['/', d] (c :: cs) = false := by
      intro d
      have hc : ¬ '/' = c := by
        rintro rfl
        exact absurd hquote (by decide)
      rw [beginsWith, after?, if_neg hc]
      rfl
    rw [lexeme, if_neg (by simp [hblank]), if_neg (by simp [hslash]), if_neg (by simp [hslash]),
      if_pos hquote, hstring]
  | number hdigit hnumber =>
    have hcode : 48 ≤ c.toNat ∧ c.toNat ≤ 57 ∨ c.toNat = 46 := by
      rw [Bool.or_eq_true, Bool.and_eq_true, beq_iff_eq, isDecimal_iff] at hdigit
      rcases hdigit with hdigit | ⟨rfl, -⟩
      · exact .inl hdigit
      · exact .inr rfl
    rw [lexeme_visible (by omega) (by simp; omega), if_pos hdigit, hnumber]
  | name hname =>
    have hcode := toNat_of_isNameStart hname
    have hdigit : ¬(isDecimal c || (c == '.' && startsWithDigit cs)) = true := by
      rw [Bool.or_eq_true, Bool.and_eq_true, beq_iff_eq, isDecimal_iff]
      rintro (hdigit | ⟨rfl, -⟩)
      · omega
      · exact absurd hname (by decide)
    rw [lexeme_visible (by omega) (by simp; omega), if_neg hdigit, if_pos hname]
  | punct hblank hline hblock hquote htemplate hdigit hname hpunct =>
    rw [lexeme, if_neg (by simp [hblank]), if_neg (by simp [hline]), if_neg (by simp [hblock]),
      if_neg hquote, if_neg htemplate, if_neg (by simp [hdigit]), if_neg (by simp [hname]), hpunct]

/-- A comment that reaches to the end of its line has two slashes and what follows them on the line. -/
theorem line_parts (h : beginsWith ['/', '/'] (c :: cs) = true) :
    ∃ more, (c :: cs).takeWhile (· ≠ '\n') = '/' :: '/' :: more ∧ '\n' ∉ more ∧
      ∀ d ∈ ((c :: cs).dropWhile (· ≠ '\n')).head?, d = '\n' := by
  obtain ⟨more, hmore⟩ := Option.isSome_iff_exists.1 h
  rw [show c :: cs = '/' :: '/' :: more from after?_eq_some hmore]
  refine ⟨more.takeWhile (· ≠ '\n'), rfl, fun hmem => ?_, fun d hd => ?_⟩
  · simpa using List.mem_takeWhile_imp hmem
  · have hhead := List.head?_dropWhile_not (fun c => decide (c ≠ '\n')) ('/' :: '/' :: more)
    rw [Option.mem_def.1 hd] at hhead
    simpa using hhead

theorem reads_line {more rest : List Char} (hmore : '\n' ∉ more) (hrest : ∀ d ∈ rest.head?, d = '\n') :
    Reads '/' ('/' :: (more ++ rest)) ⟨none, '/' :: '/' :: more, rest⟩ := by
  have hinside : ∀ d ∈ '/' :: '/' :: more, decide (d ≠ '\n') = true := by
    rw [List.forall_mem_cons, List.forall_mem_cons]
    refine ⟨rfl, rfl, fun d hd => decide_eq_true ?_⟩
    rintro rfl
    exact hmore hd
  obtain ⟨htake, hdrop⟩ := takeWhile_of_stop hinside (by simpa using hrest)
  have hreads : Reads '/' ('/' :: (more ++ rest)) _ := .line (by decide) rfl
  rw [List.cons_append, List.cons_append] at htake hdrop
  rwa [htake, hdrop] at hreads

/-- Whether a lexeme is a comment. -/
def Lexeme.isComment (l : Lexeme) : Bool := l.value.isNone && l.raw.head? == some '/'

/-- A lexeme that is no comment is read from its own characters and from what follows it in the text,
whatever stands behind the text. -/
theorem lexeme_tail (h : Bounds tail) (h' : Bounds tail')
    (hslash : '/' ∈ tail'.head? → '/' ∈ tail.head?) {rest : List Char} {value : Option TokenKind} {raw : List Char}
    (hcomment : (⟨value, raw⟩ : Lexeme).isComment = false)
    (hlex : lexeme c (cs ++ tail) = .ok ⟨value, raw, rest ++ tail⟩) :
    lexeme c (cs ++ tail') = .ok ⟨value, raw, rest ++ tail'⟩ := by
  refine lexeme_of_reads ?_
  have hreads := reads_of_lexeme hlex
  generalize hs : (⟨value, raw, rest ++ tail⟩ : Scan (Option TokenKind)) = s at hreads
  have hname := h.stops (p := isNamePart) fun c => isWordPart_of_isNamePart
  have hname' := h'.stops (p := isNamePart) fun c => isWordPart_of_isNamePart
  cases hreads with
  | blank hblank =>
    injection hs with hvalue hraw hrest
    rw [hvalue, hraw, List.append_cancel_right hrest]
    exact .blank hblank
  | line hblank hline =>
    injection hs with hvalue hraw hrest
    obtain rfl := head_of_beginsWith hline
    rw [hvalue, hraw] at hcomment
    cases hcomment
  | block hblank hline hblock hclose =>
    injection hs with hvalue hraw hrest
    rw [hvalue, hraw] at hcomment
    cases hcomment
  | @string found hquote hstring =>
    injection hs with hvalue hraw hrest
    have hslash : c ≠ '\\' := by
      rintro rfl
      exact absurd hquote (by decide)
    obtain ⟨body, hbody, hcs, hlocal⟩ := Scan.string_local hslash hstring
    rw [← hrest, ← List.append_assoc] at hcs
    rw [hvalue, hraw, hbody, List.append_cancel_right hcs, List.append_assoc]
    exact .string hquote (hlocal (rest ++ tail'))
  | @number found hdigit hnumber =>
    obtain ⟨kind, raw', rest'⟩ := found
    injection hs with hvalue hraw hrest
    subst hvalue hraw hrest
    rw [← List.cons_append] at hnumber
    have hnumber' := (number_tail h').2 ((number_tail (s := ⟨kind, raw, rest⟩) h).1 hnumber)
    rw [startsWithDigit_tail h, ← startsWithDigit_tail h'] at hdigit
    exact .number hdigit hnumber'
  | name hstart =>
    injection hs with hvalue hraw hrest
    obtain ⟨htake, hdrop⟩ := takeWhile_append_stop hname (c :: cs)
    obtain ⟨htake', hdrop'⟩ := takeWhile_append_stop hname' (c :: cs)
    rw [List.cons_append] at htake hdrop htake' hdrop'
    rw [hdrop] at hrest
    rw [hvalue, hraw, List.append_cancel_right hrest, htake, ← htake', ← hdrop']
    exact .name hstart
  | @punct found hblank hline hblock hquote htemplate hdigit hstart hpunct =>
    obtain ⟨p, raw', rest'⟩ := found
    injection hs with hvalue hraw hrest
    subst hvalue hraw hrest
    rw [← List.cons_append, punctuator?_tail h, Option.map_eq_some_iff] at hpunct
    obtain ⟨⟨p', raw', rest'⟩, hfound, heq⟩ := hpunct
    injection heq with hp hr hrest
    subst hp hr
    have hpunct' := punctuator?_tail h' c cs
    rw [hfound] at hpunct'
    rw [← List.append_cancel_right hrest]
    have hnone : ∀ d, d = '/' ∨ d = '*' → beginsWith ['/', d] (c :: (cs ++ tail)) = false →
        beginsWith ['/', d] (c :: (cs ++ tail')) = false := by
      intro d hd hnone
      rw [← Bool.not_eq_true] at hnone ⊢
      exact fun hbegins => hnone (beginsWith_tail h' hslash hd hbegins)
    replace hline := hnone '/' (.inl rfl) hline
    replace hblock := hnone '*' (.inr rfl) hblock
    rw [startsWithDigit_tail h, ← startsWithDigit_tail h'] at hdigit
    exact .punct hblank hline hblock hquote htemplate hdigit hstart hpunct'

/-! ## Texts -/

/-- Whether no comment stands in a text that is split. -/
def CommentFree (ls : List Lexeme) : Prop := ∀ l ∈ ls, l.isComment = false

/-- No comment stands in a text. -/
def Uncommented (text : List Char) : Prop := ∃ ls, Splits text ls [] ∧ CommentFree ls

/-- A comment begins with a slash. -/
theorem uncommented_of_no_slash {text : List Char} {tokens : List Token}
    (htokens : tokenize text = .ok tokens) (h : '/' ∉ text) : Uncommented text := by
  obtain ⟨ls, hsplits, -⟩ := tokenize_iff.1 htokens
  refine ⟨ls, hsplits, fun l hl => Bool.eq_false_iff.2 fun hcomment => h ?_⟩
  rw [hsplits.eq_append, List.append_nil, rawOf, List.mem_flatMap]
  rw [Lexeme.isComment, Bool.and_eq_true, beq_iff_eq] at hcomment
  exact ⟨l, hl, List.mem_of_mem_head? hcomment.2⟩

/-- The first lexeme of a text that is split, and the rest of the text. -/
theorem Splits.uncons {l : Lexeme} (h : Splits (rawOf (l :: ls) ++ tail) (l :: ls) tail) :
    ∃ value c raw, l = ⟨value, c :: raw⟩ ∧
      lexeme c (raw ++ (rawOf ls ++ tail)) = .ok ⟨value, c :: raw, rawOf ls ++ tail⟩ ∧
      Splits (rawOf ls ++ tail) ls tail := by
  generalize htext : rawOf (l :: ls) ++ tail = text at h
  cases h with
  | @cons c cs s _ _ hlex hrest =>
    obtain ⟨value, raw, rest⟩ := s
    obtain ⟨hcovers, hne⟩ := lexeme_covers hlex
    obtain ⟨d, raw, rfl⟩ := List.exists_cons_of_ne_nil hne
    obtain rfl : rest = rawOf ls ++ tail := hrest.eq_append
    rw [Scan.Covers] at hcovers
    cases hcovers
    exact ⟨value, c, raw, rfl, hlex, hrest⟩

/-- A text that is split up to what follows it is split alike before another text if each lexeme is
read alike before it. -/
theorem Splits.before_of
    (hread : ∀ l ∈ ls, ∀ c cs rest, lexeme c (cs ++ tail) = .ok ⟨l.value, l.raw, rest ++ tail⟩ →
      lexeme c (cs ++ tail') = .ok ⟨l.value, l.raw, rest ++ tail'⟩)
    (hsplits : Splits (rawOf ls ++ tail) ls tail) : Splits (rawOf ls ++ tail') ls tail' := by
  induction ls with
  | nil => exact .nil
  | cons l ls ih =>
    obtain ⟨value, c, raw, rfl, hlex, hrest⟩ := hsplits.uncons
    rw [← List.append_assoc] at hlex
    have hlex' := hread _ List.mem_cons_self c _ _ hlex
    rw [List.append_assoc] at hlex'
    have hsplits' : Splits (c :: (raw ++ (rawOf ls ++ tail'))) (⟨value, c :: raw⟩ :: ls) tail' :=
      .cons hlex' (ih (fun l hl => hread l (List.mem_cons_of_mem _ hl)) hrest)
    have htext' : rawOf (⟨value, c :: raw⟩ :: ls) ++ tail' = c :: (raw ++ (rawOf ls ++ tail')) := by
      simp [rawOf]
    rwa [← htext'] at hsplits'

/-- A text without comments that is split up to what follows it is split alike before another text. -/
theorem Splits.before (h : Ends tail) (h' : Ends tail')
    (hfree : CommentFree ls) (hsplits : Splits (rawOf ls ++ tail) ls tail) :
    Splits (rawOf ls ++ tail') ls tail' :=
  hsplits.before_of fun l hl _ _ _ hlex =>
    lexeme_tail h.bounds h'.bounds (fun hslash => (h'.no_slash hslash).elim) (hfree l hl) hlex

/-- The lexemes in front are split up to the others. -/
theorem Splits.take {ls' : List Lexeme} {rest : List Char}
    (h : Splits (rawOf ls ++ (rawOf ls' ++ rest)) (ls ++ ls') rest) :
    Splits (rawOf ls ++ (rawOf ls' ++ rest)) ls (rawOf ls' ++ rest) := by
  induction ls with
  | nil => exact .nil
  | cons l ls ih =>
    generalize htext : rawOf (l :: ls) ++ (rawOf ls' ++ rest) = text at h ⊢
    cases h with
    | @cons c cs s _ _ hlex hrest =>
      have hcut : s.rest = rawOf ls ++ (rawOf ls' ++ rest) := by
        rw [hrest.eq_append]
        simp [rawOf]
      have hrest' := ih (hcut ▸ hrest)
      rw [← hcut] at hrest'
      exact .cons hlex hrest'

/-! ## Blanks at the ends -/

theorem symbol_visible {p : Punct} (hp : p ∈ Punct.longestFirst) :
    ∀ d ∈ p.symbol.toList, isBlank d = false := by
  have hvisible : ∀ d ∈ p.symbol.toList, 33 ≤ d.toNat ∧ d.toNat ≤ 126 := by
    fin_cases hp <;> simp [Punct.symbol, BinaryOp.symbol, AssignOp.symbol, Bracket.opener, Bracket.closer]
  exact fun d hd => isBlank_of_visible (hvisible d hd)

/-- A lexeme as it stands in a text without comments: a blank, or a token that does not end with
one. -/
inductive Lexeme.Sound : Lexeme → Prop
  | blank {c : Char} (h : isBlank c = true) : Sound ⟨none, [c]⟩
  | token {kind : TokenKind} {front : List Char} {last : Char} (h : isBlank last = false) :
      Sound ⟨some kind, front ++ [last]⟩

theorem sound_of_visible {kind : TokenKind} {raw : List Char} (hne : raw ≠ [])
    (h : ∀ d ∈ raw, isBlank d = false) : Lexeme.Sound ⟨some kind, raw⟩ := by
  rw [← List.dropLast_append_getLast hne]
  exact .token (h _ (List.getLast_mem hne))

theorem sound_of_lexeme {s : Scan (Option TokenKind)}
    (h : lexeme c cs = .ok s) (hcomment : (⟨s.value, s.raw⟩ : Lexeme).isComment = false) :
    Lexeme.Sound ⟨s.value, s.raw⟩ := by
  have hne := (lexeme_covers h).2
  cases reads_of_lexeme h with
  | blank hblank => exact .blank hblank
  | line hblank hline =>
    obtain rfl := head_of_beginsWith hline
    cases hcomment
  | block => cases hcomment
  | @string found hquote hstring =>
    unfold Scan.string at hstring
    split at hstring
    · cases hstring
    · rename_i body hbody
      cases hstring
      obtain ⟨front, hfront⟩ := (Scan.bodyReads_of_stringBody hbody).last
      dsimp only
      rw [hfront, ← List.cons_append]
      exact .token (isBlank_of_visible (by omega))
  | @number found hdigit hnumber =>
    obtain ⟨x, -, rfl⟩ := number_eq_ok hnumber
    exact sound_of_visible hne fun d hd => isBlank_of_isWordPart (Scan.isWordPart_of_mem_numberPart hd)
  | name hname =>
    refine sound_of_visible hne fun d hd => isBlank_of_isWordPart ?_
    exact isWordPart_of_isNamePart (List.mem_takeWhile_imp hd)
  | @punct found _ _ _ _ _ _ _ hpunct =>
    obtain ⟨hp, hraw⟩ := punctuator?_symbol hpunct
    exact sound_of_visible hne (hraw ▸ symbol_visible hp)

/-- The blanks before a text are lexemes of their own. -/
theorem Splits.trimStart {text : List Char} (h : Splits text ls []) :
    ∃ ls', Splits (Text.trimStart text) ls' [] ∧
      ls'.filterMap Lexeme.value = ls.filterMap Lexeme.value := by
  generalize hnil : ([] : List Char) = rest at h
  induction h with
  | nil =>
    subst hnil
    exact ⟨[], .nil, rfl⟩
  | @cons c cs s ls rest hlex hsplits ih =>
    cases hblank : isBlank c with
    | true =>
      rw [lexeme, if_pos hblank] at hlex
      cases hlex
      obtain ⟨ls', hsplits', hvalues⟩ := ih hnil
      refine ⟨ls', ?_, hvalues⟩
      rw [Text.trimStart, List.dropWhile_cons_of_pos hblank]
      exact hsplits'
    | false =>
      subst hnil
      refine ⟨_, ?_, rfl⟩
      rw [Text.trimStart, List.dropWhile_cons_of_neg (by simp [hblank])]
      exact .cons hlex hsplits

end Token
end PlayerScript
