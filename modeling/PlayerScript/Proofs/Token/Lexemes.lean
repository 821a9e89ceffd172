/-
Splitting a text into lexemes, as a relation. Every lexeme is a part of the text with at least one
character, and the tokens of a text are the lexemes that are tokens, each in its place.
-/
import Mathlib
import PlayerScript.Token.Lexer

namespace PlayerScript

open PlayerScript.Text

/-! ## Bytes -/

namespace Text

theorem byteLength_append (u v : List Char) : byteLength (u ++ v) = byteLength u + byteLength v := by
  induction u with
  | nil => simp [byteLength]
  | cons c u ih =>
    simp only [byteLength, List.cons_append, List.foldr_cons] at ih ⊢
    omega

theorem byteLength_cons (c : Char) (u : List Char) : byteLength (c :: u) = c.utf8Size + byteLength u :=
  rfl

theorem dropBytes_append (u v : List Char) : dropBytes (u ++ v) (byteLength u) = v := by
  induction u with
  | nil => cases v <;> rfl
  | cons c u ih =>
    have hpos := c.utf8Size_pos
    rw [List.cons_append, dropBytes, byteLength_cons, if_neg (by omega), Nat.add_sub_cancel_left, ih]

theorem takeBytes_append (u v : List Char) : takeBytes (u ++ v) (byteLength u) = u := by
  induction u with
  | nil => cases v <;> rfl
  | cons c u ih =>
    have hpos := c.utf8Size_pos
    rw [List.cons_append, takeBytes, byteLength_cons, if_neg (by omega), Nat.add_sub_cancel_left, ih]

theorem slice_append (u v w : List Char) :
    slice (u ++ (v ++ w)) (byteLength u) (byteLength u + byteLength v) = v := by
  rw [slice, dropBytes_append, Nat.add_sub_cancel_left, takeBytes_append]

theorem cutBytes?_append (u v : List Char) : cutBytes? (u ++ v) (byteLength u) = some (u, v) := by
  induction u with
  | nil => cases v <;> rfl
  | cons c u ih =>
    obtain ⟨n, hn⟩ := Nat.exists_eq_add_one.2 c.utf8Size_pos
    have hlen : byteLength (c :: u) = (n + byteLength u) + 1 := by
      rw [byteLength_cons]
      omega
    rw [List.cons_append, hlen, cutBytes?, if_pos (by omega),
      show n + byteLength u + 1 - c.utf8Size = byteLength u by omega, ih]
    rfl

theorem cutBytes?_eq_some {cs u v : List Char} {n : Nat} (h : cutBytes? cs n = some (u, v)) :
    cs = u ++ v ∧ byteLength u = n := by
  induction cs generalizing n u v with
  | nil =>
    cases n with
    | zero => cases h; exact ⟨rfl, rfl⟩
    | succ n => cases h
  | cons c cs ih =>
    cases n with
    | zero => cases h; exact ⟨rfl, rfl⟩
    | succ n =>
      rw [cutBytes?] at h
      split_ifs at h with hle
      obtain ⟨⟨u', v'⟩, hcut, heq⟩ := Option.map_eq_some_iff.1 h
      obtain ⟨rfl, hlen⟩ := ih hcut
      cases heq
      refine ⟨rfl, ?_⟩
      rw [byteLength_cons, hlen]
      omega

theorem after?_eq_some {lead cs rest : List Char} (h : after? lead cs = some rest) :
    cs = lead ++ rest := by
  induction lead generalizing cs with
  | nil => cases h; rfl
  | cons l lead ih =>
    cases cs with
    | nil => cases h
    | cons c cs =>
      rw [after?] at h
      split_ifs at h with hc
      rw [hc, ih h]
      rfl

theorem head_of_beginsWith {c d : Char} {ds cs : List Char} (h : beginsWith (d :: ds) (c :: cs) = true) :
    c = d := by
  obtain ⟨more, hmore⟩ := Option.isSome_iff_exists.1 h
  exact (List.cons.inj (after?_eq_some hmore)).1

theorem after?_append (lead rest : List Char) : after? lead (lead ++ rest) = some rest := by
  induction lead with
  | nil => rfl
  | cons l lead ih => rw [List.cons_append, after?, if_pos rfl, ih]

end Text

/-! ## The characters that a scan goes over -/

namespace Scan

/-- What was scanned and what is left make up the text. -/
def Covers {α : Type} (s : Scan α) (cs : List Char) : Prop := cs = s.raw ++ s.rest

theorem codeUnit_covers {width : Nat} {cs : List Char} {s : Scan Nat}
    (h : codeUnit width cs = .ok s) : s.Covers cs := by
  unfold codeUnit at h
  split at h
  · cases h
  · rename_i hex rest hcut
    split at h
    · cases h
    · cases h
      exact (cutBytes?_eq_some hcut).1

theorem lowHalf?_covers {cs : List Char} {s : Scan Nat} (h : lowHalf? cs = some s) : s.Covers cs := by
  unfold lowHalf? at h
  split at h
  · split at h
    · cases h
    · rename_i hex rest hcut
      split at h
      · cases h
      · split_ifs at h
        cases h
        rw [Covers, (cutBytes?_eq_some hcut).1]
        rfl
  · cases h

theorem pairedEscape_covers {cs : List Char} {s : Scan (List Char)} (h : pairedEscape cs = .ok s) :
    s.Covers cs := by
  unfold pairedEscape at h
  split at h
  · cases h
  · rename_i high hhigh
    have hcovers := codeUnit_covers hhigh
    dsimp only at h
    split_ifs at h
    · split at h
      · rename_i low hlow
        cases h
        have hlow := lowHalf?_covers hlow
        rw [Covers] at hcovers hlow ⊢
        rw [hcovers, hlow, List.append_assoc]
      · cases h
        exact hcovers
    · cases h
      exact hcovers

theorem bracedEscape_covers {literal cs : List Char} {s : Scan (List Char)}
    (h : bracedEscape literal cs = .ok s) : s.Covers ('\x7b' :: cs) := by
  unfold bracedEscape at h
  dsimp only at h
  split at h
  · cases h
  · rename_i close rest hdrop
    split at h
    · rename_i c hc
      cases h
      have hsplit : cs.takeWhile (· ≠ '\x7d') ++ cs.dropWhile (· ≠ '\x7d') = cs :=
        List.takeWhile_append_dropWhile
      rw [hdrop] at hsplit
      rw [Covers]
      dsimp only
      rw [List.cons_append, List.append_assoc, List.singleton_append, hsplit]
    · cases h

theorem escape_covers {literal cs : List Char} {e : Char} {s : Scan (List Char)}
    (h : escape literal e cs = .ok s) : s.Covers cs := by
  unfold escape at h
  repeat' split at h
  all_goals try cases h
  all_goals try rfl
  · rename_i unit hunit
    have := codeUnit_covers hunit
    exact this
  · exact bracedEscape_covers h
  · exact pairedEscape_covers h

theorem stringBody_covers {quote : Char} {literal : List Char} {fuel : Nat} {cs : List Char}
    {s : Scan (List Char)} (h : stringBody quote literal fuel cs = .ok s) : s.Covers cs := by
  fun_induction stringBody quote literal fuel cs generalizing s with
  | case3 =>
    cases h
    rfl
  | case7 fuel e more part hpart tail htail hquote ih =>
    cases h
    have hcovers := escape_covers hpart
    have hrest := ih htail
    rw [Covers] at hcovers hrest ⊢
    rw [hcovers, hrest]
    simp
  | case9 fuel c cs hquote hescape tail htail ih =>
    cases h
    exact congrArg (c :: ·) (ih htail)
  | _ => cases h

theorem string_covers {quote : Char} {cs : List Char} {s : Scan (List Char)}
    (h : string quote cs = .ok s) : s.Covers (quote :: cs) ∧ s.raw ≠ [] := by
  unfold string at h
  split at h
  · cases h
  · rename_i body hbody
    cases h
    exact ⟨congrArg (quote :: ·) (stringBody_covers hbody), List.cons_ne_nil _ _⟩

theorem exponentPart_append (cs : List Char) : (exponentPart cs).1 ++ (exponentPart cs).2 = cs := by
  unfold exponentPart
  split
  · rfl
  · rename_i mark cs
    have hsign : ∀ sign : List Char, sign <+: cs →
        sign ++ ((cs.drop sign.length).takeWhile isDecimal ++
          (cs.drop sign.length).dropWhile isDecimal) = cs := by
      rintro sign ⟨tail, rfl⟩
      rw [List.takeWhile_append_dropWhile, List.drop_left]
    dsimp only
    split_ifs
    · rfl
    · rw [List.cons_append, List.append_assoc, hsign]
      split
      · exact ⟨_, rfl⟩
      · exact ⟨_, rfl⟩
      · exact List.nil_prefix
    · rfl

theorem numberPart_append (cs : List Char) : (numberPart cs).1 ++ (numberPart cs).2 = cs := by
  unfold numberPart
  split
  · simp
  · simp
  · dsimp only
    rw [List.append_assoc, exponentPart_append, List.takeWhile_append_dropWhile]

theorem numberPart_ne_nil {c : Char} {cs : List Char} (h : (isDecimal c || c == '.') = true) :
    (numberPart (c :: cs)).1 ≠ [] := by
  unfold numberPart
  split
  · exact List.cons_ne_nil _ _
  · exact List.cons_ne_nil _ _
  · dsimp only
    rw [List.takeWhile_cons, if_pos h]
    exact List.cons_ne_nil _ _

end Scan

namespace Token

theorem closeComment?_append {cs body rest : List Char} (h : closeComment? cs = some (body, rest)) :
    cs = body ++ rest := by
  fun_induction closeComment? cs generalizing body rest with
  | case1 cs => cases h; rfl
  | case2 c cs hne ih =>
    obtain ⟨⟨body', rest'⟩, hcut, heq⟩ := Option.map_eq_some_iff.1 h
    cases heq
    rw [ih hcut]
    rfl
  | case3 => cases h

theorem symbol_ne_nil {p : Punct} (hp : p ∈ Punct.longestFirst) : p.symbol.toList ≠ [] := by
  fin_cases hp <;> decide

theorem punctuator?_covers {cs : List Char} {s : Scan Punct} (h : punctuator? cs = some s) :
    s.Covers cs ∧ s.raw ≠ [] := by
  obtain ⟨p, hp, hs⟩ := List.exists_of_findSome?_eq_some h
  obtain ⟨rest, hafter, heq⟩ := Option.map_eq_some_iff.1 hs
  have hcs := after?_eq_some hafter
  split_ifs at heq with hdot
  · obtain ⟨rfl, -⟩ := hdot
    subst heq hcs
    exact ⟨rfl, List.cons_ne_nil _ _⟩
  · subst heq
    exact ⟨hcs, symbol_ne_nil hp⟩

theorem punctuator?_symbol {cs : List Char} {s : Scan Punct} (h : punctuator? cs = some s) :
    s.value ∈ Punct.longestFirst ∧ s.raw = s.value.symbol.toList := by
  obtain ⟨p, hp, hs⟩ := List.exists_of_findSome?_eq_some h
  obtain ⟨rest, hafter, heq⟩ := Option.map_eq_some_iff.1 hs
  split_ifs at heq
  · subst heq
    have hmem : Punct.question ∈ Punct.longestFirst := by decide
    have hsymbol : ['?'] = Punct.question.symbol.toList := by decide
    exact ⟨hmem, hsymbol⟩
  · subst heq
    exact ⟨hp, rfl⟩

theorem number_eq_ok {cs : List Char} {s : Scan TokenKind} (h : number cs = .ok s) :
    ∃ x, Number.ofNumeral? (Scan.numberPart cs).1 = some x ∧
      s = ⟨.number x, (Scan.numberPart cs).1, (Scan.numberPart cs).2⟩ := by
  unfold number at h
  dsimp only at h
  split at h
  · rename_i x hx
    exact ⟨x, hx, (Except.ok.inj h).symm⟩
  · cases h

/-- What the first lexeme of a text can be, with what is known of the text in each case. -/
inductive Reads (c : Char) (cs : List Char) : Scan (Option TokenKind) → Prop
  | blank (hblank : isBlank c = true) : Reads c cs ⟨none, [c], cs⟩
  | line (hblank : isBlank c = false) (hline : beginsWith ['/', '/'] (c :: cs) = true) :
      Reads c cs ⟨none, (c :: cs).takeWhile (· ≠ '\n'), (c :: cs).dropWhile (· ≠ '\n')⟩
  | block {body rest : List Char} (hblank : isBlank c = false)
      (hline : beginsWith ['/', '/'] (c :: cs) = false)
      (hblock : beginsWith ['/', '*'] (c :: cs) = true)
      (hclose : closeComment? (cs.drop 1) = some (body, rest)) :
      Reads c cs ⟨none, '/' :: '*' :: body, rest⟩
  | string {s : Scan (List Char)} (hquote : c.toNat = 34 ∨ c.toNat = 39)
      (hstring : Scan.string c cs = .ok s) :
      Reads c cs ⟨some (.string (String.ofList s.value)), s.raw, s.rest⟩
  | number {s : Scan TokenKind} (hdigit : (isDecimal c || (c == '.' && startsWithDigit cs)) = true)
      (hnumber : number (c :: cs) = .ok s) : Reads c cs ⟨some s.value, s.raw, s.rest⟩
  | name (hname : isNameStart c = true) :
      Reads c cs ⟨some (.ident (String.ofList ((c :: cs).takeWhile isNamePart))),
        (c :: cs).takeWhile isNamePart, (c :: cs).dropWhile isNamePart⟩
  | punct {s : Scan Punct} (hblank : isBlank c = false)
      (hline : beginsWith ['/', '/'] (c :: cs) = false)
      (hblock : beginsWith ['/', '*'] (c :: cs) = false) (hquote : ¬(c.toNat = 34 ∨ c.toNat = 39))
      (htemplate : c.toNat ≠ 96)
      (hdigit : (isDecimal c || (c == '.' && startsWithDigit cs)) = false)
      (hname : isNameStart c = false) (hpunct : punctuator? (c :: cs) = some s) :
      Reads c cs ⟨some (.punct s.value), s.raw, s.rest⟩

variable {c : Char} {cs : List Char} {s : Scan (Option TokenKind)}

theorem reads_of_lexeme (h : lexeme c cs = .ok s) : Reads c cs s := by
  unfold lexeme at h
  dsimp only at h
  split_ifs at h with hblank hline hblock hquote htemplate hdigit hname
  · cases h
    exact .blank hblank
  · cases h
    exact .line (Bool.eq_false_iff.2 hblank) hline
  · split at h
    · rename_i body rest hclose
      cases h
      exact .block (Bool.eq_false_iff.2 hblank) (Bool.eq_false_iff.2 hline) hblock hclose
    · cases h
  · split at h
    · rename_i found hstring
      cases h
      exact .string hquote hstring
    · cases h
  · split at h
    · rename_i found hnumber
      cases h
      exact .number hdigit hnumber
    · cases h
  · cases h
    exact .name hname
  · split at h
    · rename_i found hpunct
      cases h
      exact .punct (Bool.eq_false_iff.2 hblank) (Bool.eq_false_iff.2 hline)
        (Bool.eq_false_iff.2 hblock) hquote htemplate (Bool.eq_false_iff.2 hdigit)
        (Bool.eq_false_iff.2 hname) hpunct
    · cases h

/-! ## Lexemes -/

theorem numberPart_ne_nil (h : (isDecimal c || (c == '.' && startsWithDigit cs)) = true) :
    (Scan.numberPart (c :: cs)).1 ≠ [] := by
  rw [Bool.or_eq_true, Bool.and_eq_true] at h
  exact Scan.numberPart_ne_nil (Bool.or_eq_true _ _ ▸ h.imp_right And.left)

/-- What a lexeme stands for is a part of the text with at least one character. -/
theorem lexeme_covers (h : lexeme c cs = .ok s) : s.Covers (c :: cs) ∧ s.raw ≠ [] := by
  have hwhile : ∀ p : Char → Bool, p c = true →
      c :: cs = (c :: cs).takeWhile p ++ (c :: cs).dropWhile p ∧ (c :: cs).takeWhile p ≠ [] := by
    intro p hp
    refine ⟨List.takeWhile_append_dropWhile.symm, ?_⟩
    rw [List.takeWhile_cons, if_pos hp]
    exact List.cons_ne_nil _ _
  cases reads_of_lexeme h with
  | blank => exact ⟨rfl, List.cons_ne_nil _ _⟩
  | line hblank hline =>
    have hc : c ≠ '\n' := by
      rintro rfl
      exact absurd hblank (by decide)
    exact hwhile (fun x => decide (x ≠ '\n')) (decide_eq_true hc)
  | @block body rest hblank hline hblock hclose =>
    refine ⟨?_, List.cons_ne_nil _ _⟩
    obtain ⟨tail, htail⟩ := Option.isSome_iff_exists.1 hblock
    have hcs := after?_eq_some htail
    have hdrop : cs.drop 1 = tail := by
      cases hcs
      rfl
    rw [hdrop] at hclose
    rw [Scan.Covers, hcs, closeComment?_append hclose]
    rfl
  | string hquote hstring => exact Scan.string_covers hstring
  | @number found hdigit hnumber =>
    obtain ⟨x, -, rfl⟩ := number_eq_ok hnumber
    exact ⟨(Scan.numberPart_append _).symm, numberPart_ne_nil hdigit⟩
  | name hname => exact hwhile _ (by rw [isNamePart, hname]; rfl)
  | punct _ _ _ _ _ _ _ hpunct => exact punctuator?_covers hpunct

theorem lexeme_rest_lt (h : lexeme c cs = .ok s) : s.rest.length < (c :: cs).length := by
  obtain ⟨hcovers, hne⟩ := lexeme_covers h
  have hpos := List.length_pos_iff.2 hne
  rw [hcovers, List.length_append]
  omega

/-- A lexeme: what it stands for, if it is a token, and its characters. -/
structure Lexeme where
  value : Option TokenKind
  raw : List Char

/-- A text is split into lexemes up to a rest. Each of them is read with all that follows it, so that
a longer one is never cut short. -/
inductive Splits : List Char → List Lexeme → List Char → Prop
  | nil {rest : List Char} : Splits rest [] rest
  | cons {c : Char} {cs : List Char} {s : Scan (Option TokenKind)} {ls : List Lexeme}
      {rest : List Char} (h : lexeme c cs = .ok s) (hrest : Splits s.rest ls rest) :
      Splits (c :: cs) (⟨s.value, s.raw⟩ :: ls) rest

/-- The characters of lexemes. -/
def rawOf (ls : List Lexeme) : List Char := ls.flatMap Lexeme.raw

theorem rawOf_append (ls ls' : List Lexeme) : rawOf (ls ++ ls') = rawOf ls ++ rawOf ls' :=
  List.flatMap_append

theorem rawOf_cons (l : Lexeme) (ls : List Lexeme) : rawOf (l :: ls) = l.raw ++ rawOf ls :=
  List.flatMap_cons

/-- The tokens among lexemes that stand from byte `pos` on. -/
def tokensAt : Nat → List Lexeme → List Token
  | _, [] => []
  | pos, ⟨some kind, raw⟩ :: ls => ⟨kind, pos, pos + byteLength raw⟩ :: tokensAt (pos + byteLength raw) ls
  | pos, ⟨none, raw⟩ :: ls => tokensAt (pos + byteLength raw) ls

theorem tokensAt_append (pos : Nat) (ls ls' : List Lexeme) :
    tokensAt pos (ls ++ ls') = tokensAt pos ls ++ tokensAt (pos + byteLength (rawOf ls)) ls' := by
  induction ls generalizing pos with
  | nil => rfl
  | cons l ls ih =>
    obtain ⟨value, raw⟩ := l
    have hplace : pos + byteLength raw + byteLength (rawOf ls) =
        pos + byteLength (rawOf (⟨value, raw⟩ :: ls)) := by
      rw [rawOf_cons, byteLength_append, Nat.add_assoc]
    cases value with
    | none => rw [List.cons_append, tokensAt, ih, hplace, tokensAt]
    | some kind => rw [List.cons_append, tokensAt, ih, hplace, tokensAt, List.cons_append]

namespace Splits

variable {ls : List Lexeme} {rest : List Char}

theorem eq_append (h : Splits cs ls rest) : cs = rawOf ls ++ rest := by
  induction h with
  | nil => rfl
  | @cons c cs s ls rest hlex _ ih =>
    rw [(lexeme_covers hlex).1, ih]
    exact (List.append_assoc _ _ _).symm

theorem tokensFrom_eq (h : Splits cs ls []) {fuel pos : Nat} (hfuel : cs.length ≤ fuel) :
    tokensFrom fuel pos cs = .ok (tokensAt pos ls) := by
  generalize hnil : ([] : List Char) = rest at h
  induction h generalizing fuel pos with
  | nil => subst hnil; cases fuel <;> rfl
  | @cons c cs s ls rest hlex hrest ih =>
    have hlen := lexeme_rest_lt hlex
    obtain ⟨fuel, rfl⟩ : ∃ n, fuel = n + 1 := ⟨fuel - 1, by simp at hfuel; omega⟩
    rw [tokensFrom, hlex]
    dsimp only
    rw [ih (by omega) hnil]
    obtain ⟨value, raw, rest⟩ := s
    cases value <;> rfl

end Splits

/-- A text that is split into tokens is split into lexemes. -/
theorem splits_of_tokensFrom {fuel pos : Nat} {ts : List Token} (h : tokensFrom fuel pos cs = .ok ts)
    (hfuel : cs.length ≤ fuel) : ∃ ls, Splits cs ls [] ∧ ts = tokensAt pos ls := by
  induction fuel generalizing pos cs ts with
  | zero =>
    have hnil : cs = [] := List.length_eq_zero_iff.1 (by omega)
    subst hnil
    cases h
    exact ⟨[], .nil, rfl⟩
  | succ fuel ih =>
    cases cs with
    | nil =>
      cases h
      exact ⟨[], .nil, rfl⟩
    | cons c cs =>
      rw [tokensFrom] at h
      split at h
      · cases h
      · rename_i s hlex
        have hlen := lexeme_rest_lt hlex
        dsimp only at h
        split at h
        · cases h
        · rename_i tokens htokens
          obtain ⟨ls, hsplits, rfl⟩ := ih htokens (by omega)
          refine ⟨_, .cons hlex hsplits, ?_⟩
          obtain ⟨value, raw, rest⟩ := s
          cases value <;> cases h <;> rfl

theorem tokenize_iff {source : List Char} {ts : List Token} :
    tokenize source = .ok ts ↔ ∃ ls, Splits source ls [] ∧ ts = tokensAt 0 ls := by
  constructor
  · intro h
    exact splits_of_tokensFrom h (Nat.le_refl _)
  · rintro ⟨ls, hsplits, rfl⟩
    exact hsplits.tokensFrom_eq (Nat.le_refl _)

/-! ## Kinds -/

/-- A text is split into tokens of the given kinds up to a rest, whatever stands between them. -/
def SplitsInto (text : List Char) (kinds : List TokenKind) (rest : List Char) : Prop :=
  ∃ ls, Splits text ls rest ∧ ls.filterMap Lexeme.value = kinds

theorem Splits.append {text middle rest : List Char} {ls ls' : List Lexeme}
    (h : Splits text ls middle) (h' : Splits middle ls' rest) : Splits text (ls ++ ls') rest := by
  induction h with
  | nil => exact h'
  | cons hlex _ ih => exact .cons hlex (ih h')

theorem kind_tokensAt (pos : Nat) (ls : List Lexeme) :
    (tokensAt pos ls).map Token.kind = ls.filterMap Lexeme.value := by
  induction ls generalizing pos with
  | nil => rfl
  | cons l ls ih =>
    obtain ⟨value, raw⟩ := l
    cases value with
    | none => exact ih _
    | some kind => exact congrArg (kind :: ·) (ih _)

namespace SplitsInto

variable {text middle rest : List Char} {kinds kinds' : List TokenKind}

theorem refl (text : List Char) : SplitsInto text [] text := ⟨[], .nil, rfl⟩

theorem trans (h : SplitsInto text kinds middle) (h' : SplitsInto middle kinds' rest) :
    SplitsInto text (kinds ++ kinds') rest := by
  obtain ⟨ls, hsplits, rfl⟩ := h
  obtain ⟨ls', hsplits', rfl⟩ := h'
  exact ⟨ls ++ ls', hsplits.append hsplits', List.filterMap_append⟩

theorem token {c : Char} {cs raw : List Char} {kind : TokenKind}
    (h : lexeme c cs = .ok ⟨some kind, raw, rest⟩) : SplitsInto (c :: cs) [kind] rest :=
  ⟨[⟨some kind, raw⟩], .cons h .nil, rfl⟩

theorem blank {c : Char} (h : isBlank c = true) (cs : List Char) : SplitsInto (c :: cs) [] cs := by
  refine ⟨[⟨none, [c]⟩], .cons (s := ⟨none, [c], cs⟩) ?_ .nil, rfl⟩
  rw [lexeme, if_pos h]

/-- A text that is split to its end has tokens of these kinds. -/
theorem tokenize_eq (h : SplitsInto text kinds []) :
    ∃ ts, tokenize text = .ok ts ∧ ts.map Token.kind = kinds := by
  obtain ⟨ls, hsplits, rfl⟩ := h
  exact ⟨tokensAt 0 ls, tokenize_iff.2 ⟨ls, hsplits, rfl⟩, kind_tokensAt 0 ls⟩

end SplitsInto

/-! ## Places -/

/-- The text from the start of a token to the end of a later one is a part of the text of the
lexemes. -/
theorem tokensAt_places {pos i j : Nat} {a b : Token} {ls : List Lexeme} (hij : i ≤ j)
    (ha : (tokensAt pos ls)[i]? = some a) (hb : (tokensAt pos ls)[j]? = some b) :
    ∃ u v w, rawOf ls = u ++ v ++ w ∧ a.start = pos + byteLength u ∧
      b.stop = pos + byteLength (u ++ v) := by
  induction ls generalizing pos i j a with
  | nil => cases ha
  | cons l ls ih =>
    obtain ⟨value, raw⟩ := l
    -- what holds behind the first lexeme
    have hbehind : ∀ {i j : Nat}, i ≤ j → (tokensAt (pos + byteLength raw) ls)[i]? = some a →
        (tokensAt (pos + byteLength raw) ls)[j]? = some b →
        ∃ u v w, raw ++ rawOf ls = u ++ v ++ w ∧ a.start = pos + byteLength u ∧
          b.stop = pos + byteLength (u ++ v) := by
      intro i j hij ha hb
      obtain ⟨u, v, w, htext, hstart, hstop⟩ := ih hij ha hb
      refine ⟨raw ++ u, v, w, ?_, ?_, ?_⟩
      · rw [htext]
        simp
      · rw [hstart, byteLength_append, Nat.add_assoc]
      · rw [hstop, List.append_assoc, byteLength_append raw, Nat.add_assoc]
    cases value with
    | none => exact hbehind hij ha hb
    | some kind =>
      rw [tokensAt] at ha hb
      cases i with
      | succ i =>
        obtain ⟨j, rfl⟩ : ∃ n, j = n + 1 := ⟨j - 1, by omega⟩
        exact hbehind (Nat.le_of_succ_le_succ hij) ha hb
      | zero =>
        cases ha
        cases j with
        | zero =>
          cases hb
          exact ⟨[], raw, rawOf ls, rfl, rfl, rfl⟩
        | succ j =>
          obtain ⟨u, v, w, htext, -, hstop⟩ := ih (Nat.le_refl j) hb hb
          refine ⟨[], raw ++ (u ++ v), w, ?_, rfl, ?_⟩
          · show raw ++ rawOf ls = _
            rw [htext]
            simp
          · rw [hstop, List.nil_append, byteLength_append raw, Nat.add_assoc]

end Token
end PlayerScript
