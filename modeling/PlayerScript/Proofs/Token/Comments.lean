/-
Comments and tokens. A space in place of each comment leaves the tokens of a text as they are. So does
cutting a part of the text out before a closing brace, and dropping the blanks at the ends of the part.
-/
import PlayerScript.Proofs.Token.Tails

namespace PlayerScript.Token

open PlayerScript.Text

variable {cs rest text : List Char} {l : Lexeme} {ls : List Lexeme}

/-! ## Reading comments -/

theorem closeComment?_last {body : List Char} (h : closeComment? cs = some (body, rest)) :
    ∃ front, body = front ++ ['/'] := by
  fun_induction closeComment? cs generalizing body rest with
  | case1 cs =>
    cases h
    exact ⟨['*'], rfl⟩
  | case2 c cs hne ih =>
    obtain ⟨⟨body', rest'⟩, hcut, heq⟩ := Option.map_eq_some_iff.1 h
    cases heq
    obtain ⟨front, rfl⟩ := ih hcut
    exact ⟨c :: front, rfl⟩
  | case3 => cases h

/-- The end of a comment is found in the comment. -/
theorem closeComment?_local {body : List Char} (h : closeComment? cs = some (body, rest))
    (more : List Char) : closeComment? (body ++ more) = some (body, more) := by
  fun_induction closeComment? cs generalizing body rest with
  | case1 cs =>
    cases h
    rfl
  | case2 c cs hne ih =>
    obtain ⟨⟨body', rest'⟩, hcut, heq⟩ := Option.map_eq_some_iff.1 h
    cases heq
    rw [List.cons_append, closeComment?, ih hcut]
    · rfl
    · -- the comment would have ended here
      rintro after rfl hafter
      obtain ⟨front, hfront⟩ := closeComment?_last hcut
      obtain ⟨d, body', rfl⟩ := List.exists_cons_of_ne_nil (l := body') (by simp [hfront])
      obtain ⟨rfl, -⟩ := List.cons.inj hafter
      exact hne _ rfl (closeComment?_append hcut)
  | case3 => cases h

variable {tail tail' : List Char}

/-- A lexeme is read from its own characters and from what follows it in the text, whatever stands
behind the text. A comment that reaches to the end of its line has to end there. -/
theorem lexeme_tail_of_line (h : Bounds tail) (h' : Bounds tail')
    (hslash : '/' ∈ tail'.head? → '/' ∈ tail.head?)
    (hline : (∀ d ∈ tail.head?, d = '\n') → ∀ d ∈ tail'.head?, d = '\n') {c : Char}
    {value : Option TokenKind} {raw : List Char}
    (hlex : lexeme c (cs ++ tail) = .ok ⟨value, raw, rest ++ tail⟩) :
    lexeme c (cs ++ tail') = .ok ⟨value, raw, rest ++ tail'⟩ := by
  by_cases hcomment : (⟨value, raw⟩ : Lexeme).isComment = false
  · exact lexeme_tail h h' hslash hcomment hlex
  have htext : c :: cs = raw ++ rest := by
    have hcovers := (lexeme_covers hlex).1
    rw [Scan.Covers, ← List.append_assoc] at hcovers
    exact List.append_cancel_right hcovers
  refine lexeme_of_reads ?_
  have hreads := reads_of_lexeme hlex
  generalize hs : (⟨value, raw, rest ++ tail⟩ : Scan (Option TokenKind)) = s at hreads
  cases hreads with
  | blank hblank =>
    injection hs with hvalue hraw hrest
    rw [hvalue, hraw, List.append_cancel_right hrest]
    exact .blank hblank
  | line hblank hbegins =>
    injection hs with hvalue hraw hrest
    obtain ⟨more, hmore, hinside, hends⟩ := line_parts hbegins
    rw [← hrest] at hends
    rw [hraw, hmore, List.cons_append, List.cons_append] at htext
    obtain ⟨rfl, rfl⟩ := List.cons.inj htext
    rw [hvalue, hraw, hmore, List.cons_append, List.append_assoc]
    refine reads_line hinside fun d hd => ?_
    -- what follows the comment is empty or begins with the end of the line
    cases rest with
    | nil => exact hline hends d hd
    | cons e rest => exact hends d hd
  | @block body rest' hblank hline hblock hclose =>
    injection hs with hvalue hraw hrest
    rw [hraw, List.cons_append, List.cons_append] at htext
    obtain ⟨rfl, rfl⟩ := List.cons.inj htext
    rw [hvalue, hraw]
    refine .block hblank rfl rfl ?_
    rw [List.cons_append, List.drop_succ_cons, List.drop_zero, List.append_assoc]
    exact closeComment?_local hclose _
  | string | number | name | punct =>
    injection hs with hvalue
    rw [hvalue] at hcomment
    exact absurd rfl hcomment

/-! ## Parts of a text -/

/-- The lexemes behind others are split from their own text. -/
theorem Splits.drop {ls' : List Lexeme} : ∀ {ls : List Lexeme} {text : List Char},
    Splits text (ls ++ ls') rest → Splits (rawOf ls' ++ rest) ls' rest
  | [], _, h => h.eq_append ▸ h
  | _ :: _, _, .cons _ hrest => hrest.drop

/-- The lexemes before a closing brace are split alike when their text is cut out. -/
theorem Splits.cut {before part after : List Lexeme} {brace : Lexeme}
    (hbrace : brace.raw = ['\x7d']) (h : Splits text (before ++ (part ++ brace :: after)) []) :
    Splits (rawOf part) part [] := by
  have hpart : Splits (rawOf part ++ (rawOf (brace :: after) ++ [])) part (rawOf (brace :: after) ++ []) := by
    refine Splits.take ?_
    have hdrop := h.drop
    rwa [rawOf_append, List.append_assoc] at hdrop
  have htail : rawOf (brace :: after) ++ [] = '\x7d' :: rawOf after := by
    rw [rawOf_cons, hbrace, List.append_nil, List.singleton_append]
  rw [htail] at hpart
  rw [← List.append_nil (rawOf part)]
  refine hpart.before_of fun l _ c cs rest hlex => ?_
  exact lexeme_tail_of_line (ends_brace _).bounds ends_nil.bounds (by simp) (by simp) hlex

/-! ## Spaces in place of comments -/

/-- The lexeme with a space in place of a comment. -/
def Lexeme.bare (l : Lexeme) : Lexeme := if l.isComment then ⟨none, [' ']⟩ else l

theorem Lexeme.bare_of_not_comment (h : l.isComment = false) : l.bare = l := by
  rw [bare, h]
  rfl

theorem Lexeme.bare_of_comment (h : l.isComment = true) : l.bare = ⟨none, [' ']⟩ := by
  rw [bare, h]
  rfl

theorem Lexeme.bare_value (l : Lexeme) : l.bare.value = l.value := by
  cases h : l.isComment with
  | false => rw [bare_of_not_comment h]
  | true =>
    rw [bare_of_comment h]
    rw [isComment, Bool.and_eq_true, Option.isNone_iff_eq_none] at h
    exact h.1.symm

theorem filterMap_value_bare (ls : List Lexeme) :
    (ls.map Lexeme.bare).filterMap Lexeme.value = ls.filterMap Lexeme.value := by
  rw [List.filterMap_map]
  congr 1
  funext l
  exact l.bare_value

theorem commentFree_bare (ls : List Lexeme) : CommentFree (ls.map Lexeme.bare) := by
  intro l hl
  obtain ⟨l, -, rfl⟩ := List.mem_map.1 hl
  cases h : l.isComment with
  | false => rw [Lexeme.bare_of_not_comment h, h]
  | true =>
    rw [Lexeme.bare_of_comment h]
    rfl

/-- The text of lexemes with a space in place of each comment. -/
def bareOf (ls : List Lexeme) : List Char := rawOf (ls.map Lexeme.bare)

/-- With and without comments, a text goes on alike up to the first comment. -/
theorem bareOf_common (h : Bounds tail) (h' : Ends tail') (ls : List Lexeme) :
    ∃ same rest rest', rawOf ls ++ tail = same ++ rest ∧ bareOf ls ++ tail' = same ++ rest' ∧
      Bounds rest ∧ Ends rest' := by
  induction ls with
  | nil => exact ⟨[], tail, tail', rfl, rfl, h, h'⟩
  | cons l ls ih =>
    rw [bareOf, List.map_cons, rawOf_cons, rawOf_cons]
    cases hcomment : l.isComment with
    | true =>
      rw [Lexeme.bare_of_comment hcomment]
      rw [Lexeme.isComment, Bool.and_eq_true, beq_iff_eq] at hcomment
      obtain ⟨more, hraw⟩ := List.head?_eq_some_iff.1 hcomment.2
      refine ⟨[], _, _, rfl, rfl, ?_, ?_⟩
      · rw [hraw]
        exact bounds_slash _
      · rintro c ⟨⟩
        exact .inl rfl
    | false =>
      rw [Lexeme.bare_of_not_comment hcomment]
      obtain ⟨same, rest, rest', hsame, hsame', hbounds, hends⟩ := ih
      refine ⟨l.raw ++ same, rest, rest', ?_, ?_, hbounds, hends⟩
      · rw [List.append_assoc, hsame, List.append_assoc]
      · rw [List.append_assoc, ← bareOf, hsame', List.append_assoc]

/-- A text is split alike with a space in place of each comment. -/
theorem Splits.bare (h : Bounds tail) (h' : Ends tail')
    (hsplits : Splits (rawOf ls ++ tail) ls tail) :
    Splits (bareOf ls ++ tail') (ls.map Lexeme.bare) tail' := by
  induction ls with
  | nil => exact .nil
  | cons l ls ih =>
    obtain ⟨value, c, raw, rfl, hlex, hrest⟩ := hsplits.uncons
    have hbare := ih hrest
    cases hcomment : (⟨value, c :: raw⟩ : Lexeme).isComment with
    | true =>
      rw [bareOf, List.map_cons, Lexeme.bare_of_comment hcomment]
      exact .cons (s := ⟨none, [' '], bareOf ls ++ tail'⟩) rfl hbare
    | false =>
      obtain ⟨same, rest, rest', hsame, hsame', hbounds, hends⟩ := bareOf_common h h' ls
      rw [hsame, ← List.append_assoc] at hlex
      have hlex' := lexeme_tail hbounds hends.bounds (fun hslash => (hends.no_slash hslash).elim) hcomment hlex
      rw [List.append_assoc, ← hsame'] at hlex'
      have hsplits' := Splits.cons hlex' hbare
      rw [bareOf, List.map_cons, Lexeme.bare_of_not_comment hcomment]
      simpa [rawOf, bareOf] using hsplits'

/-! ## Blanks at the ends -/

/-- The last lexeme of a text that ends with a blank is this blank, or a comment that reaches to the
end of its line. -/
theorem lexeme_ends_blank {c b : Char} {raw front : List Char} {value : Option TokenKind}
    (hlex : lexeme c cs = .ok ⟨value, raw, []⟩) (hraw : raw = front ++ [b]) (hb : isBlank b = true) :
    front = [] ∧ value = none ∨
      ∃ more, front = '/' :: '/' :: more ∧ '\n' ∉ more ∧ value = none := by
  have hfront : ∀ {d}, front ++ [b] = [d] → front = [] := by
    intro d h
    simpa using congrArg List.length h
  by_cases hcomment : (⟨value, raw⟩ : Lexeme).isComment = false
  · have hsound := sound_of_lexeme hlex hcomment
    subst hraw
    generalize hl : (⟨value, front ++ [b]⟩ : Lexeme) = l at hsound
    cases hsound with
    | blank =>
      injection hl with hvalue hraw
      exact .inl ⟨hfront hraw, hvalue⟩
    | token hlast =>
      injection hl with hvalue hraw
      obtain ⟨-, hlast'⟩ := List.append_inj' hraw rfl
      cases hlast'
      rw [hb] at hlast
      cases hlast
  · have hreads := reads_of_lexeme hlex
    generalize hs : (⟨value, raw, []⟩ : Scan (Option TokenKind)) = s at hreads
    cases hreads with
    | blank hblank =>
      injection hs with hvalue hraw'
      rw [hraw] at hraw'
      exact .inl ⟨hfront hraw', hvalue⟩
    | line hblank hbegins =>
      injection hs with hvalue hraw'
      obtain ⟨more, hmore, hinside, -⟩ := line_parts hbegins
      rw [hmore, hraw] at hraw'
      rcases List.eq_nil_or_concat more with rfl | ⟨more, b', rfl⟩
      · have hslash : front ++ [b] = ['/'] ++ ['/'] := hraw'
        cases (List.append_inj' hslash rfl).2
        exact absurd hb (by decide)
      · rw [List.concat_eq_append, List.mem_append, not_or] at hinside
        have hfront : front ++ [b] = ('/' :: '/' :: more) ++ [b'] := by rw [hraw', List.concat_eq_append]; rfl
        exact .inr ⟨more, (List.append_inj' hfront rfl).1, hinside.1, hvalue⟩
    | @block body rest hblank hline hblock hclose =>
      injection hs with hvalue hraw'
      obtain ⟨before, rfl⟩ := closeComment?_last hclose
      rw [hraw, ← List.cons_append, ← List.cons_append] at hraw'
      obtain ⟨-, hlast⟩ := List.append_inj' hraw' rfl
      cases hlast
      exact absurd hb (by decide)
    | string | number | name | punct =>
      injection hs with hvalue
      rw [hvalue] at hcomment
      exact absurd rfl hcomment

theorem Splits.lexeme_of_one (h : Splits text [l] []) :
    ∃ c cs, lexeme c cs = .ok ⟨l.value, l.raw, []⟩ := by
  cases h with
  | @cons c cs s _ _ hlex hnil =>
    obtain ⟨value, raw, rest⟩ := s
    cases hnil
    exact ⟨c, cs, hlex⟩

/-- A text that ends with a blank has the same tokens without it. -/
theorem Splits.dropBlank {b : Char} (hb : isBlank b = true) (h : Splits (text ++ [b]) ls []) :
    ∃ ls', Splits text ls' [] ∧ ls'.filterMap Lexeme.value = ls.filterMap Lexeme.value := by
  have htext := h.eq_append
  rw [List.append_nil] at htext
  rcases List.eq_nil_or_concat ls with rfl | ⟨front, l, rfl⟩
  · simp [rawOf] at htext
  rw [List.concat_eq_append] at h htext ⊢
  have hraw : rawOf (front ++ [l]) = rawOf front ++ l.raw := by simp [rawOf]
  have hfront : Splits (rawOf front ++ l.raw) front l.raw := by
    have htake : Splits (rawOf front ++ (rawOf [l] ++ [])) front (rawOf [l] ++ []) :=
      Splits.take (by simpa [rawOf, htext] using h)
    simpa [rawOf] using htake
  have hlast : Splits l.raw [l] [] := by simpa [rawOf] using h.drop
  obtain ⟨c, cs, hlex⟩ := hlast.lexeme_of_one
  obtain ⟨raw, hends, rfl⟩ : ∃ raw, l.raw = raw ++ [b] ∧ text = rawOf front ++ raw := by
    obtain ⟨raw, b', hends⟩ := List.eq_nil_or_concat l.raw |>.resolve_left (lexeme_covers hlex).2
    rw [List.concat_eq_append] at hends
    rw [hraw, hends, ← List.append_assoc] at htext
    obtain ⟨hfirst, hlast⟩ := List.append_inj' htext rfl
    cases hlast
    exact ⟨raw, hends, hfirst⟩
  rw [hends] at hfront
  rcases lexeme_ends_blank hlex hends hb with ⟨rfl, hvalue⟩ | ⟨more, rfl, hmore, hvalue⟩
  · refine ⟨front, hfront.before_of fun l _ _ _ _ hlex' => ?_, by simp [hvalue]⟩
    exact lexeme_tail_of_line (ends_blanks (by simpa using hb)).bounds ends_nil.bounds (by simp) (by simp) hlex'
  · have hfront' : Splits (rawOf front ++ '/' :: '/' :: more) front ('/' :: '/' :: more) := by
      refine hfront.before_of fun l _ _ _ _ hlex' => ?_
      exact lexeme_tail_of_line (bounds_slash _) (bounds_slash _) (fun _ => rfl) (by simp) hlex'
    refine ⟨front ++ [⟨none, '/' :: '/' :: more⟩], hfront'.append ?_, by simp [hvalue]⟩
    have hreads : Reads '/' ('/' :: (more ++ [])) _ := reads_line hmore (by simp)
    rw [List.append_nil] at hreads
    exact .cons (lexeme_of_reads hreads) .nil

/-- A text has the same tokens when the blanks at its ends are cut off. -/
theorem Splits.trim (h : Splits text ls []) :
    SplitsInto (Text.trim text) (ls.filterMap Lexeme.value) [] := by
  obtain ⟨ls', hsplits, hvalues⟩ := h.trimStart
  rw [← hvalues, Text.trim]
  clear hvalues
  generalize Text.trimStart text = text at hsplits
  induction text using List.reverseRecOn generalizing ls' with
  | nil => exact ⟨ls', hsplits, rfl⟩
  | append_singleton text b ih =>
    cases hb : isBlank b with
    | true =>
      have htrim : trimEnd (text ++ [b]) = trimEnd text := List.rdropWhile_concat_pos _ _ _ hb
      rw [htrim]
      obtain ⟨ls'', hsplits'', hvalues''⟩ := hsplits.dropBlank hb
      rw [← hvalues'']
      exact ih ls'' hsplits''
    | false =>
      have htrim : trimEnd (text ++ [b]) = text ++ [b] :=
        List.rdropWhile_concat_neg _ _ _ (by simp [hb])
      rw [htrim]
      exact ⟨ls', hsplits, rfl⟩

end PlayerScript.Token
