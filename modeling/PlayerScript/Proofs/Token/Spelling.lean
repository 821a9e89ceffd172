/-
Writing tokens out. Every kind of token has a spelling, and a text of spellings with a space between
any two is split back into tokens of these kinds: a name and a number end at the space, a string at
its closing quote, and no longer punctuator reaches over a space.
-/
import PlayerScript.Proofs.Number.Expansion
import PlayerScript.Token.Lexer

namespace PlayerScript

open PlayerScript.Text PlayerScript.Number

variable {cs rest : List Char} {c : Char}

/-- What stands after a token that is written apart from the next one: a space, or nothing. -/
def SetApart (rest : List Char) : Prop := rest = [] ∨ ∃ more, rest = ' ' :: more

/-- Characters of one class end where the rest begins with a character of another. -/
theorem takeWhile_of_stop {p : Char → Bool} (hcs : ∀ c ∈ cs, p c = true)
    (h : ∀ c ∈ rest.head?, p c = false) :
    (cs ++ rest).takeWhile p = cs ∧ (cs ++ rest).dropWhile p = rest := by
  rw [List.takeWhile_append_of_pos hcs, List.dropWhile_append_of_pos hcs]
  cases rest with
  | nil => exact ⟨List.append_nil cs, rfl⟩
  | cons c more =>
    have hc : p c = false := h c rfl
    simp [hc]

theorem takeWhile_setApart {p : Char → Bool} (hp : p ' ' = false)
    (hcs : ∀ c ∈ cs, p c = true) (h : SetApart rest) :
    (cs ++ rest).takeWhile p = cs ∧ (cs ++ rest).dropWhile p = rest := by
  refine takeWhile_of_stop hcs ?_
  rcases h with rfl | ⟨more, rfl⟩
  · simp
  · simp [hp]

/-! ## Numbers -/

/-- A way to write the numbers without a sign: the scanner takes the numeral whole, and reads the
number back. -/
structure Numerals where
  write : Float → List Char
  starts : ∀ {x : Float}, isUnsigned x = true → Token.startsWithDigit (write x) = true
  scanned : ∀ {x : Float}, isUnsigned x = true → ∀ {rest : List Char}, SetApart rest →
    Scan.numberPart (write x ++ rest) = (write x, rest)
  read : ∀ {x : Float}, isUnsigned x = true → ofNumeral? (write x) = some x

theorem numberPart_withExponent {d : Char} {ds es : List Char} (hd : isDecimal d = true)
    (hds : ∀ c ∈ ds, isDecimal c = true) (hes : ∀ c ∈ es, isDecimal c = true) (hne : es ≠ [])
    (h : SetApart rest) :
    Scan.numberPart (withExponent (d :: ds) es ++ rest) = (withExponent (d :: ds) es, rest) := by
  obtain ⟨htake, hdrop⟩ := takeWhile_setApart (by decide) hes h
  have hrun : ∀ c ∈ d :: ds, (fun c => isDecimal c || c == '.') c = true := by
    intro c hc
    rcases List.mem_cons.1 hc with rfl | hc
    · simp [hd]
    · simp [hds c hc]
  have hexp : Scan.exponentPart ('e' :: '-' :: (es ++ rest)) = ('e' :: '-' :: es, rest) := by
    simp [Scan.exponentPart, htake, hdrop, hne]
  have hmark : ∀ m : Char, isDecimal m = false → ∀ more,
      withExponent (d :: ds) es ++ rest = '0' :: m :: more → m = 'e' := by
    intro m hm more heq
    cases ds with
    | nil => simp [withExponent] at heq; exact heq.2.1.symm
    | cons c ds =>
      simp [withExponent] at heq
      have := hds c List.mem_cons_self
      rw [heq.2.1, hm] at this
      cases this
  unfold Scan.numberPart
  split
  · rename_i heq; exact absurd (hmark 'x' (by decide) _ heq) (by decide)
  · rename_i heq; exact absurd (hmark 'X' (by decide) _ heq) (by decide)
  · dsimp only
    rw [withExponent, List.append_assoc, List.takeWhile_append_of_pos hrun,
      List.dropWhile_append_of_pos hrun]
    simp [hexp, show isDecimal 'e' = false by decide]

/-- Numbers written as all their digits and an exponent. -/
def Numerals.expanded : Numerals where
  write := numeral
  starts {x} _ := by
    have hne : Nat.toDigits 10 (expansion x) ≠ [] := Nat.toDigits_ne_nil
    obtain ⟨d, ds, hds⟩ := List.exists_cons_of_ne_nil hne
    rw [numeral, hds, withExponent, List.cons_append, Token.startsWithDigit]
    exact isDecimal_toDigits (n := expansion x) (hds ▸ List.mem_cons_self)
  scanned {x} _ rest h := by
    have hne : Nat.toDigits 10 (expansion x) ≠ [] := Nat.toDigits_ne_nil
    obtain ⟨d, ds, hds⟩ := List.exists_cons_of_ne_nil hne
    have hdec : ∀ c ∈ d :: ds, isDecimal c = true := fun c hc => isDecimal_toDigits (hds ▸ hc)
    rw [numeral, hds]
    exact numberPart_withExponent (hdec d List.mem_cons_self)
      (fun c hc => hdec c (List.mem_cons_of_mem d hc)) (fun c hc => isDecimal_toDigits hc)
      Nat.toDigits_ne_nil h
  read h := ofNumeral_numeral h

/-! ## Strings -/

/-- The quote that strings are written with. -/
def quote : Char := Char.ofNat 34

/-- A character as it is written between quotes. -/
def escaped (c : Char) : List Char :=
  if c = '\n' then ['\\', 'n']
  else if c = '\\' ∨ c = quote then ['\\', c]
  else [c]

/-- A string between quotes. -/
def quoted (cs : List Char) : List Char := quote :: (cs.flatMap escaped ++ [quote])

theorem stringBody_escaped (literal rest : List Char) : ∀ (cs : List Char) (fuel : Nat),
    cs.length < fuel →
    Scan.stringBody quote literal fuel (cs.flatMap escaped ++ quote :: rest) =
      .ok ⟨cs, cs.flatMap escaped ++ [quote], rest⟩
  | [], fuel + 1, _ => by simp [Scan.stringBody]
  | c :: cs, fuel + 1, h => by
    have ih := stringBody_escaped literal rest cs fuel (by simpa using h)
    rw [List.flatMap_cons, escaped]
    split_ifs with hn hq
    · subst hn
      rw [List.append_assoc, List.cons_append, List.cons_append, List.nil_append,
        Scan.stringBody, if_neg (by decide), if_pos rfl]
      simp [Scan.escape, ih]
    · rw [List.append_assoc, List.cons_append, List.cons_append, List.nil_append,
        Scan.stringBody, if_neg (by decide), if_pos rfl]
      have hescape : Scan.escape literal c (cs.flatMap escaped ++ quote :: rest) =
          .ok ⟨[c], [], cs.flatMap escaped ++ quote :: rest⟩ := by
        rcases hq with rfl | rfl <;> rfl
      simp [hescape, ih]
    · rw [not_or] at hq
      rw [List.append_assoc, List.cons_append, List.nil_append]
      simp [Scan.stringBody.eq_def quote literal (fuel + 1), hq, ih]

theorem length_le_escaped (cs : List Char) : cs.length ≤ (cs.flatMap escaped).length := by
  rw [List.length_flatMap]
  calc cs.length = (cs.map fun _ => 1).sum := by simp
    _ ≤ (cs.map fun c => (escaped c).length).sum := by
      refine List.sum_le_sum fun c _ => ?_
      unfold escaped
      split_ifs <;> simp

theorem string_quoted (cs rest : List Char) :
    Scan.string quote (cs.flatMap escaped ++ quote :: rest) = .ok ⟨cs, quoted cs, rest⟩ := by
  have hfuel : cs.length < (cs.flatMap escaped ++ quote :: rest).length := by
    have := length_le_escaped cs
    rw [List.length_append, List.length_cons]
    omega
  rw [Scan.string, stringBody_escaped _ rest cs _ hfuel, quoted]

/-! ## Tokens -/

/-- Whether a text is a name. -/
def isName : List Char → Bool
  | [] => false
  | c :: cs => Token.isNameStart c && cs.all Token.isNamePart

namespace TokenKind

/-- Whether a token of the kind can be written. -/
def isWritable : TokenKind → Bool
  | .ident name => isName name.toList
  | .number x => isUnsigned x
  | .string _ => true
  | .punct p => Punct.longestFirst.contains p

/-- How a token of the kind is written. -/
def written (numerals : Numerals) : TokenKind → List Char
  | .ident name => name.toList
  | .number x => numerals.write x
  | .string s => quoted s.toList
  | .punct p => p.symbol.toList

end TokenKind

namespace Token

theorem toNat_of_isNameStart (h : isNameStart c = true) :
    (65 ≤ c.toNat ∧ c.toNat ≤ 90) ∨ (97 ≤ c.toNat ∧ c.toNat ≤ 122) ∨ c.toNat = 95 ∨ c.toNat = 36 := by
  simp only [isNameStart, Char.isAlpha, Char.isUpper, Char.isLower, Bool.or_eq_true, decide_eq_true_eq,
    Bool.and_eq_true, beq_iff_eq, UInt32.le_iff_toNat_le, ge_iff_le] at h
  rcases h with ((h | h) | rfl) | rfl
  · exact .inl h
  · exact .inr (.inl h)
  · exact .inr (.inr (.inl rfl))
  · exact .inr (.inr (.inr rfl))

theorem isDecimal_iff : isDecimal c = true ↔ 48 ≤ c.toNat ∧ c.toNat ≤ 57 := by
  have hle : ∀ a b : Char, a ≤ b ↔ a.toNat ≤ b.toNat := fun a b => UInt32.le_iff_toNat_le
  have h0 : '0'.toNat = 48 := rfl
  have h9 : '9'.toNat = 57 := rfl
  simp only [isDecimal, isDigitOf, digitValue, decide_eq_true_eq, hle, h0, h9]
  split_ifs <;> omega

theorem isBlank_of_visible (h : 33 ≤ c.toNat ∧ c.toNat ≤ 126) : isBlank c = false := by
  simp only [isBlank, inRanges, blankRanges, List.any_cons, List.any_nil, Bool.or_eq_false_iff,
    Bool.and_eq_false_iff, decide_eq_false_iff_not, and_true]
  omega

/-- A visible character that begins no comment, string or template begins a number, a name or a
punctuator. -/
theorem lexeme_visible (h : 33 ≤ c.toNat ∧ c.toNat ≤ 126)
    (hne : c.toNat ∉ [34, 39, 47, 96]) (cs : List Char) :
    lexeme c cs =
      if isDecimal c || (c == '.' && startsWithDigit cs) then
        match number (c :: cs) with
        | .ok s => .ok ⟨some s.value, s.raw, s.rest⟩
        | .error e => .error e
      else if isNameStart c then
        .ok ⟨some (.ident (String.ofList ((c :: cs).takeWhile isNamePart))),
          (c :: cs).takeWhile isNamePart, (c :: cs).dropWhile isNamePart⟩
      else
        match punctuator? (c :: cs) with
        | some s => .ok ⟨some (.punct s.value), s.raw, s.rest⟩
        | none => .error (.malformed (.unexpectedCharacter c) (String.ofList (c :: cs))) := by
  have hslash : ('/' = c) = False := by
    rw [eq_iff_iff, iff_false]
    rintro rfl
    exact hne (by decide)
  simp only [List.mem_cons, List.not_mem_nil, or_false, not_or] at hne
  -- The tests are decided on one side only: the other has compiled matches of its own.
  have hlexeme : lexeme c cs = lexeme c cs := rfl
  conv_rhs at hlexeme =>
    unfold lexeme
    simp only [isBlank_of_visible h, beginsWith, after?, hslash, hne, if_false,
      Option.isSome_none, Bool.false_eq_true, or_self]
  exact hlexeme

/-- The first lexeme of a text is `raw`, a token of the kind, and `rest` is left. -/
def Lexes (kind : TokenKind) (raw rest : List Char) : Prop :=
  ∃ c cs, raw = c :: cs ∧ lexeme c (cs ++ rest) = .ok ⟨some kind, raw, rest⟩

theorem lexes_word {name : String} (h : isName name.toList = true)
    (hrest : ∀ c ∈ rest.head?, isNamePart c = false) : Lexes (.ident name) name.toList rest := by
  cases hname : name.toList with
  | nil => rw [hname] at h; cases h
  | cons c cs =>
    rw [hname, isName, Bool.and_eq_true, List.all_eq_true] at h
    obtain ⟨hc, hcs⟩ := h
    have hall : ∀ d ∈ c :: cs, isNamePart d = true := by
      intro d hd
      rcases List.mem_cons.1 hd with rfl | hd
      · rw [isNamePart, hc, Bool.true_or]
      · exact hcs d hd
    obtain ⟨htake, hdrop⟩ := takeWhile_of_stop hall hrest
    rw [List.cons_append] at htake hdrop
    -- A name begins with no digit and no point, so that it is not read as a number.
    have hcode := toNat_of_isNameStart hc
    have hdec : isDecimal c = false := by
      rw [← Bool.not_eq_true, isDecimal_iff]
      omega
    have hdot : (c == '.') = false := by
      rw [beq_eq_false_iff_ne]
      rintro rfl
      exact absurd hc (by decide)
    have hback : String.ofList (c :: cs) = name := by rw [← hname, String.ofList_toList]
    refine ⟨c, cs, rfl, ?_⟩
    rw [lexeme_visible (by omega) (by simp; omega), hdec, hdot, htake, hdrop, hc, hback]
    rfl

theorem lexes_name {name : String} (h : isName name.toList = true)
    (hrest : SetApart rest) : Lexes (.ident name) name.toList rest := by
  refine lexes_word h ?_
  rcases hrest with rfl | ⟨more, rfl⟩
  · simp
  · simp [show isNamePart ' ' = false by decide]

theorem lexes_number {numerals : Numerals} {x : Float} (h : isUnsigned x = true)
    (hrest : SetApart rest) : Lexes (.number x) (numerals.write x) rest := by
  have hread : number (numerals.write x ++ rest) = .ok ⟨.number x, numerals.write x, rest⟩ := by
    simp only [number, numerals.scanned h hrest, numerals.read h]
  have hstart := numerals.starts h
  generalize numerals.write x = raw at hread hstart
  cases raw with
  | nil => cases hstart
  | cons c cs =>
    rw [startsWithDigit] at hstart
    have hcode := isDecimal_iff.1 hstart
    refine ⟨c, cs, rfl, ?_⟩
    rw [List.cons_append] at hread
    rw [lexeme_visible (by omega) (by simp; omega), hstart, hread]
    rfl

theorem lexes_string (s : String) (rest : List Char) :
    Lexes (.string s) (quoted s.toList) rest := by
  refine ⟨quote, s.toList.flatMap escaped ++ [quote], rfl, ?_⟩
  rw [List.append_assoc, List.singleton_append]
  have hcomment : ∀ d cs, beginsWith ['/', d] (quote :: cs) = false := fun _ _ => rfl
  unfold lexeme
  simp only [hcomment, string_quoted, String.ofList_toList]
  rfl

theorem lexes_punct {p : Punct} (hp : p ∈ Punct.longestFirst)
    (hrest : SetApart rest) : Lexes (.punct p) p.symbol.toList rest := by
  -- with the next character known to be a space, reading evaluates for each punctuator
  rcases hrest with rfl | ⟨more, rfl⟩
  · fin_cases hp <;> exact ⟨_, _, rfl, rfl⟩
  · fin_cases hp <;> exact ⟨_, _, rfl, rfl⟩

theorem lexes_written (numerals : Numerals) {kind : TokenKind} (h : kind.isWritable = true)
    (hrest : SetApart rest) : Lexes kind (kind.written numerals) rest := by
  cases kind with
  | ident name => exact lexes_name h hrest
  | number x => exact lexes_number h hrest
  | string s => exact lexes_string s rest
  | punct p => exact lexes_punct (by simpa [TokenKind.isWritable] using h) hrest

/-! ## Token lists -/

theorem tokensFrom_lexes {kind : TokenKind} {raw : List Char} (h : Lexes kind raw rest)
    {fuel pos : Nat} {ts : List Token}
    (hts : tokensFrom fuel (pos + byteLength raw) rest = .ok ts) :
    tokensFrom (fuel + 1) pos (raw ++ rest) = .ok (⟨kind, pos, pos + byteLength raw⟩ :: ts) := by
  obtain ⟨c, cs, rfl, hlex⟩ := h
  rw [List.cons_append, tokensFrom, hlex]
  simp only [hts]

theorem tokensFrom_space {fuel pos : Nat} :
    tokensFrom (fuel + 1) pos (' ' :: cs) = tokensFrom fuel (pos + 1) cs := by
  have hlex : lexeme ' ' cs = .ok ⟨none, [' '], cs⟩ := rfl
  have hlen : byteLength [' '] = 1 := rfl
  rw [tokensFrom, hlex]
  simp only [hlen]
  cases tokensFrom fuel (pos + 1) cs <;> rfl

/-- Tokens of given kinds written out, with a space between any two. -/
def textOf (numerals : Numerals) (kinds : List TokenKind) : List Char :=
  List.intercalate [' '] (kinds.map (TokenKind.written numerals))

theorem textOf_cons (numerals : Numerals) (kind next : TokenKind) (kinds : List TokenKind) :
    textOf numerals (kind :: next :: kinds) =
      kind.written numerals ++ ' ' :: textOf numerals (next :: kinds) := by
  simp [textOf, List.intercalate]

theorem tokensFrom_textOf (numerals : Numerals) : ∀ (kinds : List TokenKind),
    (∀ k ∈ kinds, k.isWritable = true) → ∀ fuel pos, (textOf numerals kinds).length ≤ fuel →
      ∃ ts, tokensFrom fuel pos (textOf numerals kinds) = .ok ts ∧ ts.map kind = kinds
  | [], _, fuel, pos, _ => by cases fuel <;> exact ⟨[], rfl, rfl⟩
  | [k], h, fuel, pos, hfuel => by
    have htext : textOf numerals [k] = k.written numerals ++ [] := by simp [textOf]
    have hlex := lexes_written numerals (h k List.mem_cons_self) (.inl rfl)
    rw [htext] at hfuel ⊢
    obtain ⟨fuel, rfl⟩ : ∃ n, fuel = n + 1 := by
      obtain ⟨c, cs, hraw, -⟩ := hlex
      rw [hraw] at hfuel
      exact ⟨fuel - 1, by simp at hfuel; omega⟩
    exact ⟨_, tokensFrom_lexes hlex (by rw [tokensFrom]), rfl⟩
  | k :: next :: kinds, h, fuel, pos, hfuel => by
    have hlex := lexes_written numerals (h k List.mem_cons_self)
      (.inr ⟨textOf numerals (next :: kinds), rfl⟩)
    rw [textOf_cons] at hfuel ⊢
    -- One unit of fuel goes to the token and one to the space behind it.
    obtain ⟨fuel, rfl, hless⟩ : ∃ n, fuel = n + 2 ∧ (textOf numerals (next :: kinds)).length ≤ n := by
      obtain ⟨c, cs, hraw, -⟩ := hlex
      rw [hraw] at hfuel
      exact ⟨fuel - 2, by simp at hfuel; omega, by simp at hfuel; omega⟩
    obtain ⟨ts, hts, hkinds⟩ := tokensFrom_textOf numerals (next :: kinds)
      (fun k' hk' => h k' (List.mem_cons_of_mem k hk')) fuel
      (pos + byteLength (k.written numerals) + 1) hless
    exact ⟨_, tokensFrom_lexes hlex (by rw [tokensFrom_space, hts]), by rw [List.map_cons, hkinds]⟩

/-- A text of written tokens is split into tokens of these kinds. -/
theorem tokenize_textOf (numerals : Numerals) {kinds : List TokenKind}
    (h : ∀ k ∈ kinds, k.isWritable = true) :
    ∃ ts, tokenize (textOf numerals kinds) = .ok ts ∧ ts.map kind = kinds :=
  tokensFrom_textOf numerals kinds h _ 0 (Nat.le_refl _)

end Token
end PlayerScript
