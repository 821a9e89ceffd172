/-
Splitting loses nothing but spacing. The tokens of a text stand in it one behind the other, with only
blanks and whole comments between them; each of them is read back alone from its own characters; and
when they are written apart, with a space between any two, they are read back in order.
-/
import PlayerScript.Proofs.Token.Tails

namespace PlayerScript

open PlayerScript.Text

variable {rest cs raw : List Char} {c : Char} {ls : List Lexeme}

theorem SetApart.bounds (h : SetApart rest) : Bounds rest := by
  intro c hc
  rcases h with rfl | ⟨more, rfl⟩
  · cases hc
  · cases hc
    exact .inl (by decide)

/-! ## Numbers read again -/

namespace Scan

theorem exponentSign_again (cs : List Char) {digits : List Char}
    (h : ∀ c ∈ digits, isDecimal c = true) :
    exponentSign (exponentSign cs ++ digits) = exponentSign cs := by
  have hnone : exponentSign digits = [] := by
    unfold exponentSign
    split
    · exact absurd (h '+' List.mem_cons_self) (by decide)
    · exact absurd (h '-' List.mem_cons_self) (by decide)
    · rfl
  have hsign : exponentSign cs = ['+'] ∨ exponentSign cs = ['-'] ∨ exponentSign cs = [] := by
    unfold exponentSign
    split <;> simp
  rcases hsign with hs | hs | hs
  · rw [hs]
    rfl
  · rw [hs]
    rfl
  · rw [hs, List.nil_append, hnone]

theorem exponentPart_again (cs : List Char) :
    exponentPart (exponentPart cs).1 = ((exponentPart cs).1, []) := by
  cases cs with
  | nil => rfl
  | cons mark cs =>
    by_cases hmark : mark = 'e' ∨ mark = 'E'
    · rw [exponentPart_mark hmark]
      split_ifs with hempty
      · rfl
      · generalize hdigits : (cs.drop (exponentSign cs).length).takeWhile isDecimal = digits at hempty ⊢
        have hdecimal : ∀ c ∈ digits, isDecimal c = true := by
          intro c hc
          rw [← hdigits] at hc
          exact List.mem_takeWhile_imp hc
        dsimp only
        rw [exponentPart_mark hmark, exponentSign_again cs hdecimal, List.drop_left,
          List.takeWhile_eq_self_iff.2 hdecimal, List.dropWhile_eq_nil_iff.2 hdecimal, if_neg hempty]
    · rw [exponentPart_of_ne hmark]
      rfl

theorem exponentPart_head (cs : List Char) :
    ∀ c ∈ (exponentPart cs).1.head?, (isDecimal c || c == '.') = false := by
  cases cs with
  | nil => simp [exponentPart]
  | cons mark cs =>
    by_cases hmark : mark = 'e' ∨ mark = 'E'
    · rw [exponentPart_mark hmark]
      split_ifs
      · simp
      · intro c hc
        cases hc
        rcases hmark with rfl | rfl <;> decide
    · rw [exponentPart_of_ne hmark]
      simp

theorem isHexMark_of_append (h : isHexMark cs = true) (rest : List Char) :
    isHexMark (cs ++ rest) = true := by
  obtain ⟨mark, hex, rfl, hx⟩ := isHexMark_iff h
  exact hx

/-- The characters of a number are those of the number that they are read as. -/
theorem numberPart_again (cs : List Char) : numberPart (numberPart cs).1 = ((numberPart cs).1, []) := by
  cases hmark : isHexMark cs with
  | true =>
    obtain ⟨mark, hex, rfl, hx⟩ := isHexMark_iff hmark
    have hdigits : ∀ c ∈ hex.takeWhile (isDigitOf 16), isDigitOf 16 c = true :=
      fun c hc => List.mem_takeWhile_imp hc
    rw [numberPart_hex hx, numberPart_hex hx, List.takeWhile_eq_self_iff.2 hdigits,
      List.dropWhile_eq_nil_iff.2 hdigits]
  | false =>
    have hmark' : isHexMark (numberPart cs).1 = false := by
      rw [← Bool.not_eq_true]
      intro hagain
      have := isHexMark_of_append hagain (numberPart cs).2
      rw [numberPart_append, hmark] at this
      cases this
    rw [numberPart_decimal hmark', numberPart_decimal hmark]
    dsimp only
    generalize hrest : cs.dropWhile (fun c => isDecimal c || c == '.') = rest
    have hrun : ∀ c ∈ cs.takeWhile (fun c => isDecimal c || c == '.'), (isDecimal c || c == '.') = true :=
      fun c hc => List.mem_takeWhile_imp (p := fun c => isDecimal c || c == '.') hc
    obtain ⟨htake, hdrop⟩ := takeWhile_of_stop hrun (exponentPart_head rest)
    rw [htake, hdrop, exponentPart_again]

end Scan

namespace Token

/-! ## Tokens read again -/

theorem startsWithDigit_numberPart (hdigit : startsWithDigit cs = true)
    (hraw : (Scan.numberPart ('.' :: cs)).1 = '.' :: raw) (rest : List Char) :
    startsWithDigit (raw ++ rest) = true := by
  cases cs with
  | nil => cases hdigit
  | cons d cs =>
    have hd : isDecimal d = true := hdigit
    have hmark : Scan.isHexMark ('.' :: d :: cs) = false := rfl
    have hdot : (isDecimal '.' || '.' == '.') = true := by decide
    have hdrun : (isDecimal d || d == '.') = true := by rw [hd, Bool.true_or]
    rw [Scan.numberPart_decimal hmark, List.takeWhile_cons, if_pos hdot, List.takeWhile_cons,
      if_pos hdrun, List.cons_append, List.cons_append] at hraw
    rw [← (List.cons.inj hraw).2]
    exact hd

theorem lexes_numberPart {kind : TokenKind}
    (hdigit : (isDecimal c || (c == '.' && startsWithDigit cs)) = true)
    (hnumber : number (c :: cs) = .ok ⟨kind, raw, rest⟩) {rest' : List Char} (h : SetApart rest') :
    Lexes kind raw rest' := by
  obtain ⟨x, hx, hs⟩ := number_eq_ok hnumber
  injection hs with hkind hraw hrest
  obtain ⟨d, more, hmore⟩ := List.exists_cons_of_ne_nil (numberPart_ne_nil hdigit)
  have hc : c = d := by
    have := Scan.numberPart_append (c :: cs)
    rw [hmore] at this
    exact (List.cons.inj this).1.symm
  subst hc
  have hagain := Scan.numberPart_tail h.bounds c more
  rw [← hmore, Scan.numberPart_again, hmore, List.cons_append, List.nil_append] at hagain
  have hnumber' : number (c :: (more ++ rest')) = .ok ⟨kind, raw, rest'⟩ := by
    unfold number
    rw [hagain]
    dsimp only
    rw [← hmore, hx, hkind, hraw]
  have hdigit' : (isDecimal c || (c == '.' && startsWithDigit (more ++ rest'))) = true := by
    rw [Bool.or_eq_true, Bool.and_eq_true, beq_iff_eq] at hdigit ⊢
    rcases hdigit with hdec | ⟨rfl, hdec⟩
    · exact .inl hdec
    · exact .inr ⟨rfl, startsWithDigit_numberPart hdec hmore rest'⟩
  exact ⟨c, more, by rw [hraw, hmore], lexeme_of_reads (.number hdigit' hnumber')⟩

/-- A token is read again from its own characters, if they are written apart. -/
theorem lexes_of_lexeme {kind : TokenKind}
    (h : lexeme c cs = .ok ⟨some kind, raw, rest⟩) {rest' : List Char} (hrest : SetApart rest') :
    Lexes kind raw rest' := by
  have hreads := reads_of_lexeme h
  generalize hs : (⟨some kind, raw, rest⟩ : Scan (Option TokenKind)) = s at hreads
  cases hreads with
  | blank => cases hs
  | line => cases hs
  | block => cases hs
  | @string found hquote hstring =>
    injection hs with hvalue hraw _
    cases hvalue
    have hslash : c ≠ '\\' := by
      rintro rfl
      exact absurd hquote (by decide)
    obtain ⟨body, hbody, -, hlocal⟩ := Scan.string_local hslash hstring
    refine ⟨c, body, hraw.trans hbody, ?_⟩
    rw [hraw, hbody]
    exact lexeme_of_reads (.string hquote (hlocal rest'))
  | @number found hdigit hnumber =>
    injection hs with hvalue hraw hrest'
    cases hvalue
    subst hraw hrest'
    exact lexes_numberPart hdigit hnumber hrest
  | name hname =>
    injection hs with hvalue hraw _
    cases hvalue
    rw [← hraw]
    have hisName : isName (String.ofList raw).toList = true := by
      rw [String.toList_ofList, hraw, List.takeWhile_cons_of_pos (by rw [isNamePart, hname]; rfl), isName,
        hname, Bool.true_and, List.all_eq_true]
      exact fun d hd => List.mem_takeWhile_imp hd
    have hlexes := lexes_name hisName hrest
    rwa [String.toList_ofList] at hlexes
  | @punct found _ _ _ _ _ _ _ hpunct =>
    injection hs with hvalue hraw _
    cases hvalue
    obtain ⟨hmem, hsymbol⟩ := punctuator?_symbol hpunct
    rw [hraw, hsymbol]
    exact lexes_punct hmem hrest

/-! ## Spacing -/

theorem closeComment?_body (h : closeComment? cs = some (raw, rest)) :
    ∃ body, raw = body ++ ['*', '/'] ∧ ¬ ['*', '/'] <:+: body := by
  fun_induction closeComment? cs generalizing raw rest with
  | case1 cs =>
    cases h
    exact ⟨[], rfl, by simp⟩
  | case2 c cs hne ih =>
    obtain ⟨⟨raw', rest'⟩, hcut, heq⟩ := Option.map_eq_some_iff.1 h
    cases heq
    obtain ⟨body, rfl, hbody⟩ := ih hcut
    refine ⟨c :: body, rfl, ?_⟩
    rw [List.infix_cons_iff]
    rintro (⟨more, hmore⟩ | hinside)
    · -- the comment would have ended here
      obtain ⟨rfl, rfl⟩ := List.cons.inj hmore
      refine hne (more ++ ['*', '/'] ++ rest') rfl ?_
      rw [closeComment?_append hcut]
      rfl
    · exact hbody hinside
  | case3 => cases h

/-- Blanks and whole comments, before a given text. A comment of one line reaches to the end of its
line; one between marks ends with the first mark that ends it. -/
inductive Spacing : List Char → List Char → Prop
  | nil {after : List Char} : Spacing [] after
  | blank {c : Char} {gap after : List Char} (hc : isBlank c = true) (h : Spacing gap after) :
      Spacing (c :: gap) after
  | line {body gap after : List Char} (hbody : '\n' ∉ body)
      (hend : ∀ c ∈ (gap ++ after).head?, c = '\n') (h : Spacing gap after) :
      Spacing ('/' :: '/' :: (body ++ gap)) after
  | block {body gap after : List Char} (hbody : ¬ ['*', '/'] <:+: body) (h : Spacing gap after) :
      Spacing ('/' :: '*' :: (body ++ '*' :: '/' :: gap)) after

/-- A lexeme that is no token is spacing. -/
theorem Spacing.lexeme {gap after : List Char}
    (hlex : lexeme c cs = .ok ⟨none, raw, gap ++ after⟩) (h : Spacing gap after) :
    Spacing (raw ++ gap) after := by
  have hreads := reads_of_lexeme hlex
  generalize hs : (⟨none, raw, gap ++ after⟩ : Scan (Option TokenKind)) = s at hreads
  cases hreads with
  | string => cases hs
  | number => cases hs
  | name => cases hs
  | punct => cases hs
  | blank hblank =>
    injection hs with _ hraw _
    rw [hraw]
    exact .blank hblank h
  | line hblank hline =>
    injection hs with _ hraw hrest
    obtain ⟨more, hmore, hinside, hends⟩ := line_parts hline
    rw [← hrest] at hends
    rw [hraw, hmore]
    exact .line hinside hends h
  | @block close rest hblank hline hblock hclose =>
    injection hs with _ hraw _
    obtain ⟨body, rfl, hbody⟩ := closeComment?_body hclose
    rw [hraw]
    simpa using Spacing.block hbody h

/-! ## The tokens of a text -/

/-- Byte `n` of a text is the border of a character. -/
def IsBoundary (text : List Char) (n : Nat) : Prop := ∃ u v, text = u ++ v ∧ byteLength u = n

/-- From byte `pos` on, only blanks and whole comments stand before, between and behind tokens. -/
def Spaced (text : List Char) : Nat → List Token → Prop
  | pos, [] => Spacing (dropBytes text pos) []
  | pos, t :: ts => Spacing (slice text pos t.start) (dropBytes text t.start) ∧ Spaced text t.stop ts

theorem mem_tokensAt {pos : Nat} {t : Token} (h : t ∈ tokensAt pos ls) :
    ∃ front raw back, ls = front ++ ⟨some t.kind, raw⟩ :: back ∧
      t.start = pos + byteLength (rawOf front) ∧ t.stop = t.start + byteLength raw := by
  induction ls generalizing pos with
  | nil => cases h
  | cons l ls ih =>
    have hbehind : t ∈ tokensAt (pos + byteLength l.raw) ls →
        ∃ front raw back, l :: ls = front ++ ⟨some t.kind, raw⟩ :: back ∧
          t.start = pos + byteLength (rawOf front) ∧ t.stop = t.start + byteLength raw := by
      intro ht
      obtain ⟨front, raw, back, rfl, hstart, hstop⟩ := ih ht
      refine ⟨l :: front, raw, back, rfl, ?_, hstop⟩
      rw [hstart, rawOf_cons, byteLength_append, Nat.add_assoc]
    obtain ⟨value, raw⟩ := l
    cases value with
    | none => exact hbehind h
    | some kind =>
      rcases List.mem_cons.1 h with rfl | ht
      · exact ⟨[], raw, ls, rfl, rfl, rfl⟩
      · exact hbehind ht

theorem pairwise_tokensAt (pos : Nat) (ls : List Lexeme) :
    (tokensAt pos ls).Pairwise fun a b => a.stop ≤ b.start := by
  induction ls generalizing pos with
  | nil => exact .nil
  | cons l ls ih =>
    obtain ⟨value, raw⟩ := l
    cases value with
    | none => exact ih _
    | some kind =>
      refine .cons (fun t ht => ?_) (ih _)
      obtain ⟨front, _, _, _, hstart, _⟩ := mem_tokensAt ht
      rw [hstart]
      exact Nat.le_add_right _ _

theorem Splits.mem (h : Splits cs ls rest) {l : Lexeme}
    (hl : l ∈ ls) : ∃ c cs' rest', PlayerScript.Token.lexeme c cs' = .ok ⟨l.value, l.raw, rest'⟩ := by
  induction h with
  | nil => cases hl
  | cons hlex _ ih =>
    rcases List.mem_cons.1 hl with rfl | hl
    · exact ⟨_, _, _, hlex⟩
    · exact ih hl

/-- The lexemes behind a gap of blanks and comments: the gap grows up to the next token. -/
theorem spaced_tokensAt {text front gap : List Char} (h : Splits rest ls [])
    (htext : text = front ++ (gap ++ rest))
    (hgap : ∀ more after, rest = more ++ after → Spacing more after → Spacing (gap ++ more) after) :
    Spaced text (byteLength front) (tokensAt (byteLength (front ++ gap)) ls) := by
  generalize hnil : ([] : List Char) = last at h
  induction h generalizing front gap with
  | nil =>
    subst hnil
    have hspacing := hgap [] [] rfl .nil
    rw [List.append_nil] at hspacing htext
    rw [tokensAt, Spaced, htext, dropBytes_append]
    exact hspacing
  | @cons c cs s ls last hlex hrest ih =>
    have hcovers : c :: cs = s.raw ++ s.rest := (lexeme_covers hlex).1
    obtain ⟨value, raw, rest⟩ := s
    dsimp only at hcovers hrest ih
    cases value with
    | none =>
      have hgap' : ∀ more after, rest = more ++ after → Spacing more after →
          Spacing (gap ++ raw ++ more) after := by
        intro more after hmore hspacing
        subst hmore
        rw [List.append_assoc]
        refine hgap (raw ++ more) after ?_ (.lexeme hlex hspacing)
        rw [hcovers, List.append_assoc]
      have hspaced : Spaced text (byteLength front) (tokensAt (byteLength (front ++ (gap ++ raw))) ls) :=
        ih (by rw [htext, hcovers]; simp) hgap' hnil
      rw [tokensAt, ← byteLength_append, List.append_assoc]
      exact hspaced
    | some kind =>
      have hstart : byteLength (front ++ gap) = byteLength front + byteLength gap :=
        byteLength_append front gap
      rw [tokensAt, Spaced]
      refine ⟨?_, ?_⟩
      · dsimp only
        rw [hstart, htext, slice_append, ← hstart, ← List.append_assoc, dropBytes_append]
        have hspacing := hgap [] (c :: cs) rfl .nil
        rwa [List.append_nil] at hspacing
      · dsimp only
        have hspaced : Spaced text (byteLength (front ++ gap ++ raw))
            (tokensAt (byteLength (front ++ gap ++ raw ++ [])) ls) :=
          ih (by rw [htext, hcovers]; simp) (fun _ _ _ h => h) hnil
        rw [List.append_nil, byteLength_append (front ++ gap)] at hspaced
        exact hspaced

/-- Tokens that are written apart are read in order. -/
theorem splitsInto_apart {raw : Token → List Char} : ∀ {ts : List Token},
    (∀ t ∈ ts, ∀ rest, SetApart rest → Lexes t.kind (raw t) rest) →
      SplitsInto (List.intercalate [' '] (ts.map raw)) (ts.map Token.kind) []
  | [], _ => .refl []
  | [t], h => by
    obtain ⟨c, cs, hraw, hlex⟩ := h t List.mem_cons_self [] (.inl rfl)
    have htext : List.intercalate [' '] ([t].map raw) = c :: (cs ++ []) := by
      simp [hraw]
    rw [htext]
    exact .token hlex
  | t :: t' :: ts, h => by
    have hrest : SplitsInto (List.intercalate [' '] ((t' :: ts).map raw)) ((t' :: ts).map Token.kind) [] :=
      splitsInto_apart fun t ht => h t (List.mem_cons_of_mem _ ht)
    generalize hmore : List.intercalate [' '] ((t' :: ts).map raw) = more at hrest
    obtain ⟨c, cs, hraw, hlex⟩ := h t List.mem_cons_self (' ' :: more) (.inr ⟨more, rfl⟩)
    have htext : List.intercalate [' '] ((t :: t' :: ts).map raw) = c :: (cs ++ ' ' :: more) := by
      rw [← hmore]
      simp [List.intercalate, hraw]
    have hspace : SplitsInto (' ' :: more) [] more := .blank (by decide) more
    rw [htext]
    exact (SplitsInto.token hlex).trans (hspace.trans hrest)

/-- Splitting into tokens loses nothing but spacing. The tokens stand in the text in order, each over
at least one whole character and apart from the others. What stands before, between and behind them is
blank or a comment. The characters of a token give this token alone, and the tokens of the text are
those of their characters with a space between any two. -/
theorem tokenize_lossless {source : List Char} {ts : List Token} (h : tokenize source = .ok ts) :
    (∀ t ∈ ts, t.start < t.stop ∧ IsBoundary source t.start ∧ IsBoundary source t.stop) ∧
      (ts.Pairwise fun a b => a.stop ≤ b.start) ∧
      Spaced source 0 ts ∧
      (∀ t ∈ ts, tokenize (slice source t.start t.stop) = .ok [⟨t.kind, 0, t.stop - t.start⟩]) ∧
      ∃ ts', tokenize (List.intercalate [' '] (ts.map fun t => slice source t.start t.stop)) = .ok ts' ∧
        ts'.map Token.kind = ts.map Token.kind := by
  obtain ⟨ls, hsplits, rfl⟩ := tokenize_iff.1 h
  have hsource := hsplits.eq_append
  rw [List.append_nil] at hsource
  -- where a token stands, and that it is read from its own characters
  have hplace : ∀ t ∈ tokensAt 0 ls, ∃ u raw v, source = u ++ (raw ++ v) ∧
      t.start = byteLength u ∧ t.stop = byteLength u + byteLength raw ∧
      ∀ rest, SetApart rest → Lexes t.kind raw rest := by
    intro t ht
    obtain ⟨front, raw, back, hls, hstart, hstop⟩ := mem_tokensAt ht
    rw [Nat.zero_add] at hstart
    obtain ⟨c, cs, rest, hlex⟩ := hsplits.mem (l := ⟨some t.kind, raw⟩) (by simp [hls])
    refine ⟨rawOf front, raw, rawOf back, ?_, hstart, hstart ▸ hstop, fun _ => lexes_of_lexeme hlex⟩
    rw [hsource, hls, rawOf_append, rawOf_cons]
  have hslice : ∀ t ∈ tokensAt 0 ls, ∀ rest, SetApart rest →
      Lexes t.kind (slice source t.start t.stop) rest := by
    intro t ht
    obtain ⟨u, raw, v, htext, hstart, hstop, hlexes⟩ := hplace t ht
    rw [htext, hstart, hstop, slice_append]
    exact hlexes
  refine ⟨fun t ht => ?_, pairwise_tokensAt 0 ls, ?_, fun t ht => ?_, ?_⟩
  · obtain ⟨u, raw, v, htext, hstart, hstop, hlexes⟩ := hplace t ht
    obtain ⟨c, cs, rfl, -⟩ := hlexes [] (.inl rfl)
    have hpos := c.utf8Size_pos
    refine ⟨?_, ⟨u, _, htext, hstart.symm⟩, ⟨u ++ c :: cs, v, by rw [htext, List.append_assoc], ?_⟩⟩
    · rw [hstart, hstop, byteLength_cons]
      omega
    · rw [byteLength_append, hstop]
  · have hspaced : Spaced source (byteLength []) (tokensAt (byteLength ([] ++ [])) ls) :=
      spaced_tokensAt hsplits rfl fun _ _ _ hspacing => hspacing
    exact hspaced
  · obtain ⟨u, raw, v, htext, hstart, hstop, hlexes⟩ := hplace t ht
    obtain ⟨c, cs, rfl, hlex⟩ := hlexes [] (.inl rfl)
    rw [htext, hstart, hstop, slice_append, Nat.add_sub_cancel_left]
    rw [List.append_nil] at hlex
    refine tokenize_iff.2 ⟨[⟨some t.kind, c :: cs⟩], .cons hlex .nil, ?_⟩
    rw [tokensAt, tokensAt, Nat.zero_add]
  · exact (splitsInto_apart hslice).tokenize_eq

/-- A question mark before a number that begins with a point, two comments and an escape. -/
def spacedText : List Char := "a?.5:b // one\n+ 'x\\u0041' /* \x7d */ >>>= 0x1F".toList

theorem tokenize_lossless_spacedText : ∃ ts, tokenize spacedText = .ok ts ∧ ts.length = 9 ∧
    Spaced spacedText 0 ts ∧
    ∃ ts', tokenize (List.intercalate [' '] (ts.map fun t => slice spacedText t.start t.stop)) = .ok ts' ∧
      ts'.map Token.kind = ts.map Token.kind := by
  have hcount : (tokenize spacedText).toOption.map List.length = some 9 := by decide +kernel
  cases hts : tokenize spacedText with
  | error e =>
    rw [hts] at hcount
    cases hcount
  | ok ts =>
    rw [hts] at hcount
    obtain ⟨-, -, hspaced, -, hjoined⟩ := tokenize_lossless hts
    exact ⟨ts, rfl, Option.some.inj hcount, hspaced, hjoined⟩

end Token
end PlayerScript
