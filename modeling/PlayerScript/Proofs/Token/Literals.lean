/-
Literals and what follows them. A string is read from its own characters, whatever stands behind
its closing quote, and a number whatever stands behind it that cannot lengthen it.
-/
import PlayerScript.Proofs.Token.Lexemes
import PlayerScript.Proofs.Token.Spelling

namespace PlayerScript

open PlayerScript.Text

variable {base : Nat} {c mark e : Char} {rest raw literal : List Char}

/-- What may follow a text without lengthening its last lexeme: nothing, a blank or a closing
brace. -/
def Ends (tail : List Char) : Prop := ∀ c ∈ tail.head?, isBlank c = true ∨ c = '\x7d'

/-- What may follow a token without lengthening it: a comment too, which begins with a slash. -/
def Bounds (tail : List Char) : Prop := ∀ c ∈ tail.head?, isBlank c = true ∨ c = '\x7d' ∨ c = '/'

theorem Ends.bounds {tail : List Char} (h : Ends tail) : Bounds tail :=
  fun c hc => (h c hc).imp_right .inl

theorem bounds_slash (rest : List Char) : Bounds ('/' :: rest) := by
  intro c hc
  cases hc
  exact .inr (.inr rfl)

theorem ends_nil : Ends [] := by
  intro c hc
  cases hc

theorem ends_blanks {cs : List Char} (h : ∀ c ∈ cs, isBlank c = true) : Ends cs :=
  fun c hc => .inl (h c (List.mem_of_mem_head? hc))

theorem ends_brace (rest : List Char) : Ends ('\x7d' :: rest) := by
  intro c hc
  cases hc
  exact .inr rfl

/-! ## Characters of words -/

/-- Whether a character may stand in a name or a number. -/
def isWordPart (c : Char) : Bool := isDigitOf 36 c || ['.', '+', '-', '_', '$'].contains c

theorem toNat_of_isDigitOf (hbase : base ≤ 36) (h : isDigitOf base c = true) :
    (48 ≤ c.toNat ∧ c.toNat ≤ 57) ∨ (97 ≤ c.toNat ∧ c.toNat ≤ 122) ∨
      (65 ≤ c.toNat ∧ c.toNat ≤ 90) := by
  have hle : ∀ a b : Char, a ≤ b ↔ a.toNat ≤ b.toNat := fun a b => UInt32.le_iff_toNat_le
  simp only [isDigitOf, digitValue, decide_eq_true_eq, hle, Char.reduceToNat] at h
  split_ifs at h with h₁ h₂ h₃
  · exact .inl h₁
  · exact .inr (.inl h₂)
  · exact .inr (.inr h₃)
  · omega

theorem isDigitOf_mono {base' : Nat} (hbase : base ≤ base')
    (h : isDigitOf base c = true) : isDigitOf base' c = true := by
  rw [isDigitOf, decide_eq_true_eq] at h ⊢
  omega

theorem isWordPart_of_isDigitOf (hbase : base ≤ 36)
    (h : isDigitOf base c = true) : isWordPart c = true := by
  rw [isWordPart, isDigitOf_mono hbase h, Bool.true_or]

theorem isWordPart_of_isNamePart (h : Token.isNamePart c = true) : isWordPart c = true := by
  rw [Token.isNamePart, Bool.or_eq_true] at h
  rcases h with h | h
  · have hcode := Token.toNat_of_isNameStart h
    have hle : ∀ a b : Char, a ≤ b ↔ a.toNat ≤ b.toNat := fun a b => UInt32.le_iff_toNat_le
    have heq : ∀ a : Char, c = a ↔ c.toNat = a.toNat := fun a => Char.toNat_inj.symm
    simp only [isWordPart, isDigitOf, digitValue, hle, Char.reduceToNat, Bool.or_eq_true,
      decide_eq_true_eq, List.contains_eq_mem, List.mem_cons, List.not_mem_nil, or_false, heq]
    split_ifs <;> omega
  · exact isWordPart_of_isDigitOf (by decide) h

theorem toNat_of_isWordPart (h : isWordPart c = true) :
    (48 ≤ c.toNat ∧ c.toNat ≤ 57) ∨ (97 ≤ c.toNat ∧ c.toNat ≤ 122) ∨
      (65 ≤ c.toNat ∧ c.toNat ≤ 90) ∨ c.toNat = 46 ∨ c.toNat = 43 ∨ c.toNat = 45 ∨ c.toNat = 95 ∨
      c.toNat = 36 := by
  rw [isWordPart, Bool.or_eq_true] at h
  rcases h with h | h
  · have := toNat_of_isDigitOf (Nat.le_refl 36) h
    omega
  · have hmem : c ∈ ['.', '+', '-', '_', '$'] := by simpa using h
    fin_cases hmem <;> decide

theorem isBlank_of_isWordPart (h : isWordPart c = true) : isBlank c = false := by
  have := toNat_of_isWordPart h
  exact Token.isBlank_of_visible (by omega)

/-- A text that may follow begins with no character of a word. -/
theorem Bounds.stops {tail : List Char} (h : Bounds tail) {p : Char → Bool}
    (hp : ∀ c, p c = true → isWordPart c = true) : ∀ c ∈ tail.head?, p c = false := by
  intro c hc
  rw [← Bool.not_eq_true]
  intro hpc
  rcases h c hc with hblank | rfl | rfl
  · rw [isBlank_of_isWordPart (hp c hpc)] at hblank
    cases hblank
  · exact absurd (hp _ hpc) (by decide)
  · exact absurd (hp _ hpc) (by decide)

theorem Ends.no_slash {tail : List Char} (h : Ends tail) : '/' ∉ tail.head? := by
  intro hslash
  rcases h _ hslash with h | h <;> exact absurd h (by decide)

theorem Bounds.not_mem {tail : List Char} (h : Bounds tail) {cs : List Char}
    (hcs : ∀ d ∈ cs, isBlank d = false ∧ d ≠ '\x7d' ∧ d ≠ '/') : ∀ c ∈ tail.head?, c ∉ cs := by
  intro c hc hmem
  obtain ⟨hblank, hbrace, hslash⟩ := hcs c hmem
  rcases h c hc with h | h | h
  · rw [hblank] at h
    cases h
  · exact hbrace h
  · exact hslash h

/-! ## Numbers -/

theorem takeWhile_append_stop {p : Char → Bool} {tail : List Char}
    (h : ∀ c ∈ tail.head?, p c = false) (cs : List Char) :
    (cs ++ tail).takeWhile p = cs.takeWhile p ∧ (cs ++ tail).dropWhile p = cs.dropWhile p ++ tail := by
  induction cs with
  | nil => exact takeWhile_of_stop (by simp) h
  | cons c cs ih =>
    rw [List.cons_append, List.takeWhile_cons, List.takeWhile_cons, List.dropWhile_cons,
      List.dropWhile_cons]
    split_ifs
    · exact ⟨by rw [ih.1], ih.2⟩
    · exact ⟨rfl, rfl⟩

namespace Scan

theorem exponentPart_of_ne (h : ¬(mark = 'e' ∨ mark = 'E')) (cs : List Char) :
    exponentPart (mark :: cs) = ([], mark :: cs) := by
  unfold exponentPart
  exact if_neg h

/-- The sign at the front of an exponent. -/
def exponentSign : List Char → List Char
  | '+' :: _ => ['+']
  | '-' :: _ => ['-']
  | _ => []

theorem exponentPart_mark (h : mark = 'e' ∨ mark = 'E') (cs : List Char) :
    exponentPart (mark :: cs) =
      if ((cs.drop (exponentSign cs).length).takeWhile isDecimal).isEmpty then ([], mark :: cs)
      else (mark :: (exponentSign cs ++ (cs.drop (exponentSign cs).length).takeWhile isDecimal),
        (cs.drop (exponentSign cs).length).dropWhile isDecimal) := by
  unfold exponentPart
  exact if_pos h

variable {tail : List Char}

theorem exponentSign_append (h : Bounds tail) (cs : List Char) :
    exponentSign (cs ++ tail) = exponentSign cs ∧ (exponentSign cs).length ≤ cs.length := by
  cases cs with
  | nil =>
    refine ⟨?_, Nat.le_refl 0⟩
    have hstops := h.stops (p := fun c => c == '+' || c == '-') (by
      intro c hc
      rw [Bool.or_eq_true, beq_iff_eq, beq_iff_eq] at hc
      rcases hc with rfl | rfl <;> decide)
    cases tail with
    | nil => rfl
    | cons c tail =>
      have hc := hstops c rfl
      rw [Bool.or_eq_false_iff, beq_eq_false_iff_ne, beq_eq_false_iff_ne] at hc
      rw [List.nil_append]
      unfold exponentSign
      split
      · rename_i heq
        cases heq
        exact absurd rfl hc.1
      · rename_i heq
        cases heq
        exact absurd rfl hc.2
      · rfl
  | cons c cs =>
    rw [List.cons_append]
    unfold exponentSign
    constructor
    · split <;> split <;> simp_all
    · split <;> simp

theorem exponentPart_tail (h : Bounds tail) (cs : List Char) :
    exponentPart (cs ++ tail) = ((exponentPart cs).1, (exponentPart cs).2 ++ tail) := by
  have hdecimal := h.stops (p := isDecimal) fun c => isWordPart_of_isDigitOf (by decide)
  cases cs with
  | nil =>
    cases tail with
    | nil => rfl
    | cons c tail =>
      have hmark : ¬(c = 'e' ∨ c = 'E') := by
        have hc := h.stops (p := isDigitOf 36) (fun c => isWordPart_of_isDigitOf (Nat.le_refl 36)) c rfl
        rintro (rfl | rfl) <;> exact absurd hc (by decide)
      rw [List.nil_append, exponentPart_of_ne hmark]
      rfl
  | cons mark cs =>
    rw [List.cons_append]
    by_cases hmark : mark = 'e' ∨ mark = 'E'
    · obtain ⟨hsign, hle⟩ := exponentSign_append h cs
      obtain ⟨htake, hdrop⟩ := takeWhile_append_stop hdecimal (cs.drop (exponentSign cs).length)
      rw [exponentPart_mark hmark, exponentPart_mark hmark, hsign, List.drop_append_of_le_length hle,
        htake, hdrop]
      split_ifs <;> rfl
    · rw [exponentPart_of_ne hmark, exponentPart_of_ne hmark]
      rfl

/-- Whether a number begins with the mark of a hexadecimal one. -/
def isHexMark : List Char → Bool
  | '0' :: c :: _ => c == 'x' || c == 'X'
  | _ => false

theorem numberPart_decimal {cs : List Char} (h : isHexMark cs = false) :
    numberPart cs =
      (cs.takeWhile (fun c => isDecimal c || c == '.') ++
        (exponentPart (cs.dropWhile fun c => isDecimal c || c == '.')).1,
        (exponentPart (cs.dropWhile fun c => isDecimal c || c == '.')).2) := by
  unfold numberPart
  split
  · exact absurd h (by simp [isHexMark])
  · exact absurd h (by simp [isHexMark])
  · rfl

theorem numberPart_hex (h : (mark == 'x' || mark == 'X') = true) (hex : List Char) :
    numberPart ('0' :: mark :: hex) =
      ('0' :: mark :: hex.takeWhile (isDigitOf 16), hex.dropWhile (isDigitOf 16)) := by
  rw [Bool.or_eq_true, beq_iff_eq, beq_iff_eq] at h
  rcases h with rfl | rfl <;> rfl

theorem isHexMark_append (h : Bounds tail) (c : Char) (cs : List Char) :
    isHexMark (c :: cs ++ tail) = isHexMark (c :: cs) := by
  cases cs with
  | cons d cs =>
    rw [List.cons_append, List.cons_append]
    unfold isHexMark
    split <;> split <;> simp_all
  | nil =>
    cases tail with
    | nil => rfl
    | cons d tail =>
      have hd : (d == 'x' || d == 'X') = false := by
        have hd := h.stops (p := isDigitOf 36) (fun c => isWordPart_of_isDigitOf (Nat.le_refl 36)) d rfl
        rw [Bool.or_eq_false_iff, beq_eq_false_iff_ne, beq_eq_false_iff_ne]
        constructor <;> (rintro rfl; exact absurd hd (by decide))
      have hnone : isHexMark [c] = false := by
        unfold isHexMark
        split <;> simp_all
      rw [hnone]
      show isHexMark (c :: d :: tail) = false
      unfold isHexMark
      split
      · rename_i heq
        cases heq
        exact hd
      · rfl

theorem isHexMark_iff {cs : List Char} (h : isHexMark cs = true) :
    ∃ mark hex, cs = '0' :: mark :: hex ∧ (mark == 'x' || mark == 'X') = true := by
  unfold isHexMark at h
  split at h
  · exact ⟨_, _, rfl, h⟩
  · cases h

theorem numberPart_tail (h : Bounds tail) (c : Char) (cs : List Char) :
    numberPart (c :: cs ++ tail) = ((numberPart (c :: cs)).1, (numberPart (c :: cs)).2 ++ tail) := by
  cases hmark : isHexMark (c :: cs) with
  | true =>
    obtain ⟨mark, hex, heq, hx⟩ := isHexMark_iff hmark
    have hhex := h.stops (p := isDigitOf 16) fun c => isWordPart_of_isDigitOf (by decide)
    obtain ⟨htake, hdrop⟩ := takeWhile_append_stop hhex hex
    rw [heq, List.cons_append, List.cons_append, numberPart_hex hx, numberPart_hex hx, htake, hdrop]
  | false =>
    have hrun := h.stops (p := fun c => isDecimal c || c == '.') (by
      intro c hc
      rw [Bool.or_eq_true, beq_iff_eq] at hc
      rcases hc with hc | rfl
      · exact isWordPart_of_isDigitOf (by decide) hc
      · decide)
    obtain ⟨htake, hdrop⟩ := takeWhile_append_stop hrun (c :: cs)
    rw [numberPart_decimal hmark, numberPart_decimal (by rw [isHexMark_append h, hmark]), htake, hdrop,
      exponentPart_tail h]

/-- A number is made of characters of words. -/
theorem isWordPart_of_mem_numberPart {cs : List Char} (hc : c ∈ (numberPart cs).1) :
    isWordPart c = true := by
  have htaken : ∀ {p : Char → Bool} {cs : List Char}, (∀ c, p c = true → isWordPart c = true) →
      c ∈ cs.takeWhile p → isWordPart c = true := fun hp hc => hp c (List.mem_takeWhile_imp hc)
  have hdecimal : ∀ c, isDecimal c = true → isWordPart c = true :=
    fun c => isWordPart_of_isDigitOf (by decide)
  cases hmark : isHexMark cs with
  | true =>
    obtain ⟨mark, hex, rfl, hx⟩ := isHexMark_iff hmark
    rw [numberPart_hex hx, List.mem_cons, List.mem_cons] at hc
    rw [Bool.or_eq_true, beq_iff_eq, beq_iff_eq] at hx
    rcases hc with rfl | rfl | hc
    · decide
    · rcases hx with rfl | rfl <;> decide
    · exact htaken (fun c => isWordPart_of_isDigitOf (by decide)) hc
  | false =>
    rw [numberPart_decimal hmark, List.mem_append] at hc
    rcases hc with hc | hc
    · refine htaken (fun c hc => ?_) hc
      rw [Bool.or_eq_true, beq_iff_eq] at hc
      rcases hc with hc | rfl
      · exact hdecimal c hc
      · decide
    · generalize cs.dropWhile (fun c => isDecimal c || c == '.') = more at hc
      cases more with
      | nil => cases hc
      | cons mark more =>
        by_cases hm : mark = 'e' ∨ mark = 'E'
        · rw [exponentPart_mark hm] at hc
          split_ifs at hc
          · cases hc
          · rw [List.mem_cons, List.mem_append] at hc
            rcases hc with rfl | hc | hc
            · rcases hm with rfl | rfl <;> decide
            · unfold exponentSign at hc
              split at hc
              · rw [List.mem_singleton] at hc; rw [hc]; decide
              · rw [List.mem_singleton] at hc; rw [hc]; decide
              · cases hc
            · exact htaken hdecimal hc
        · rw [exponentPart_of_ne hm] at hc
          cases hc

/-! ## Strings -/

theorem codeUnit_local {width : Nat} {hex : List Char} {code : Nat}
    (h : codeUnit width (hex ++ rest) = .ok ⟨code, hex, rest⟩) :
    byteLength hex = width ∧ unsigned? 16 0x100000000 hex = some code ∧
      ∀ rest', codeUnit width (hex ++ rest') = .ok ⟨code, hex, rest'⟩ := by
  unfold codeUnit at h
  split at h
  · cases h
  · rename_i hcut
    split at h
    · cases h
    · rename_i hread
      cases h
      obtain ⟨-, hlen⟩ := cutBytes?_eq_some hcut
      refine ⟨hlen, hread, fun rest' => ?_⟩
      rw [codeUnit, ← hlen, cutBytes?_append]
      dsimp only
      rw [hread]

/-- The second half of a pair is looked for in the digits behind the mark. -/
theorem lowHalf?_digits {hex : List Char} (hlen : byteLength hex = 4) (rest : List Char) :
    lowHalf? ('\\' :: 'u' :: (hex ++ rest)) =
      (unsigned? 16 0x100000000 hex).bind fun low =>
        if isLowHalf low then some ⟨low, '\\' :: 'u' :: hex, rest⟩ else none := by
  rw [lowHalf?, ← hlen, cutBytes?_append]
  dsimp only
  cases unsigned? 16 0x100000000 hex <;> rfl

theorem lowHalf?_local {low : Nat}
    (h : lowHalf? (raw ++ rest) = some ⟨low, raw, rest⟩) (rest' : List Char) :
    lowHalf? (raw ++ rest') = some ⟨low, raw, rest'⟩ := by
  unfold lowHalf? at h
  split at h
  · split at h
    · cases h
    · rename_i hex more hcut
      obtain ⟨-, hlen⟩ := cutBytes?_eq_some hcut
      split at h
      · cases h
      · rename_i code hread
        split_ifs at h with hlow
        cases h
        rw [List.cons_append, List.cons_append, lowHalf?_digits hlen, hread]
        exact if_pos hlow
  · cases h

/-- An escape of four digits is read from its own characters, if what follows has no second half of
a pair that was not there before. -/
theorem pairedEscape_local {value rest' : List Char}
    (h : pairedEscape (raw ++ rest) = .ok ⟨value, raw, rest⟩)
    (hlow : lowHalf? rest = none → lowHalf? rest' = none) :
    pairedEscape (raw ++ rest') = .ok ⟨value, raw, rest'⟩ := by
  unfold pairedEscape at h
  split at h
  · cases h
  · rename_i high hhigh
    obtain ⟨code, hex, more⟩ := high
    have hcovers : raw ++ rest = hex ++ more := codeUnit_covers hhigh
    rw [hcovers] at hhigh
    obtain ⟨-, -, hunit⟩ := codeUnit_local hhigh
    dsimp only at h
    split_ifs at h with hpair
    · split at h
      · rename_i low hfound
        obtain ⟨code', hex', more'⟩ := low
        cases h
        have hcovers' : more = hex' ++ _ := lowHalf?_covers hfound
        rw [hcovers'] at hfound
        rw [pairedEscape, List.append_assoc, hunit]
        dsimp only
        rw [if_pos hpair, lowHalf?_local hfound]
      · rename_i hnone
        cases h
        rw [pairedEscape, hunit]
        dsimp only
        rw [if_pos hpair, hlow hnone]
    · cases h
      rw [pairedEscape, hunit]
      dsimp only
      rw [if_neg hpair]

theorem pairedEscape_raw_ne_nil {cs : List Char} {s : Scan (List Char)} (h : pairedEscape cs = .ok s) :
    s.raw ≠ [] := by
  unfold pairedEscape at h
  split at h
  · cases h
  · rename_i high hhigh
    obtain ⟨code, hex, more⟩ := high
    have hcovers : cs = hex ++ more := codeUnit_covers hhigh
    subst hcovers
    have hhex : hex ≠ [] := by
      rintro rfl
      exact absurd (codeUnit_local hhigh).1 (by decide)
    dsimp only at h
    split_ifs at h
    · split at h
      · cases h
        exact List.append_ne_nil_of_left_ne_nil hhex _
      · cases h
        exact hhex
    · cases h
      exact hhex

/-- An escape in braces: digits up to the first closing brace. -/
theorem bracedEscape_ok {cs : List Char} {s : Scan (List Char)}
    (h : bracedEscape literal cs = .ok s) :
    ∃ digits c, '\x7d' ∉ digits ∧ (unsigned? 16 0x100000000 digits).bind charOfCode? = some c ∧
      cs = digits ++ '\x7d' :: s.rest ∧ s = ⟨[c], '\x7b' :: (digits ++ ['\x7d']), s.rest⟩ := by
  unfold bracedEscape at h
  dsimp only at h
  split at h
  · cases h
  · rename_i close more hdrop
    split at h
    · rename_i c hc
      have hclose : close = '\x7d' := by
        have hhead := List.head?_dropWhile_not (fun c => decide (c ≠ '\x7d')) cs
        rw [hdrop] at hhead
        simpa using hhead
      have hsplit : cs.takeWhile (· ≠ '\x7d') ++ cs.dropWhile (· ≠ '\x7d') = cs :=
        List.takeWhile_append_dropWhile
      rw [hdrop, hclose] at hsplit
      cases h
      refine ⟨_, c, ?_, hc, hsplit.symm, by rw [hclose]⟩
      intro hmem
      simpa using List.mem_takeWhile_imp hmem
    · cases h

theorem bracedEscape_digits {digits : List Char} (hdigits : '\x7d' ∉ digits)
    (hc : (unsigned? 16 0x100000000 digits).bind charOfCode? = some c) (literal rest : List Char) :
    bracedEscape literal (digits ++ '\x7d' :: rest) =
      .ok ⟨[c], '\x7b' :: (digits ++ ['\x7d']), rest⟩ := by
  have hin : ∀ d ∈ digits, decide (d ≠ '\x7d') = true :=
    fun d hd => decide_eq_true fun heq => hdigits (heq ▸ hd)
  have hstop : ∀ c ∈ ('\x7d' :: rest).head?, decide (c ≠ '\x7d') = false := by simp
  obtain ⟨htake, hdrop⟩ := takeWhile_of_stop hin hstop
  rw [bracedEscape, htake, hdrop, hc]

theorem escape_other (hx : e ≠ 'x') (hu : e ≠ 'u') :
    ∃ value, ∀ literal cs, escape literal e cs = .ok ⟨value, [], cs⟩ := by
  unfold escape
  simp only [if_neg hx, if_neg hu]
  split_ifs <;> exact ⟨_, fun _ _ => rfl⟩

theorem escape_paired {cs : List Char} (h : cs.head? ≠ some '\x7b') (literal : List Char) :
    escape literal 'u' cs = pairedEscape cs := by
  cases cs with
  | nil => rfl
  | cons c cs =>
    have hc : c ≠ '\x7b' := fun heq => h (by rw [heq]; rfl)
    simp [escape, hc]

/-- How an escape is read, by the character behind the backslash. -/
inductive EscapeReads : Char → List Char → Scan (List Char) → Prop
  | other {e : Char} {cs value : List Char} (hx : e ≠ 'x') (hu : e ≠ 'u')
      (h : ∀ literal cs, escape literal e cs = .ok ⟨value, [], cs⟩) : EscapeReads e cs ⟨value, [], cs⟩
  | byte {cs : List Char} {unit : Scan Nat} (h : codeUnit 2 cs = .ok unit) :
      EscapeReads 'x' cs ⟨[(charOfCode? unit.value).getD replacement], unit.raw, unit.rest⟩
  | braced {digits rest : List Char} {c : Char} (hdigits : '\x7d' ∉ digits)
      (hc : (unsigned? 16 0x100000000 digits).bind charOfCode? = some c) :
      EscapeReads 'u' ('\x7b' :: (digits ++ '\x7d' :: rest)) ⟨[c], '\x7b' :: (digits ++ ['\x7d']), rest⟩
  | paired {cs : List Char} {s : Scan (List Char)} (hbrace : cs.head? ≠ some '\x7b')
      (h : pairedEscape cs = .ok s) : EscapeReads 'u' cs s

theorem escapeReads_iff {cs : List Char} {s : Scan (List Char)} :
    escape literal e cs = .ok s ↔ EscapeReads e cs s := by
  constructor
  · intro h
    by_cases hx : e = 'x'
    · subst hx
      unfold escape at h
      simp only [Char.reduceEq, if_false, if_true] at h
      split at h
      · cases h
      · rename_i unit hunit
        cases h
        exact .byte hunit
    by_cases hu : e = 'u'
    · subst hu
      by_cases hbrace : cs.head? = some '\x7b'
      · obtain ⟨cs, rfl⟩ := List.head?_eq_some_iff.1 hbrace
        obtain ⟨digits, c, hdigits, hc, rfl, hs⟩ := bracedEscape_ok h
        rw [hs]
        exact .braced hdigits hc
      · rw [escape_paired hbrace] at h
        exact .paired hbrace h
    · obtain ⟨value, hvalue⟩ := escape_other hx hu
      rw [hvalue] at h
      cases h
      exact .other hx hu hvalue
  · rintro (⟨-, -, h⟩ | h | ⟨hdigits, hc⟩ | ⟨hbrace, h⟩)
    · exact h literal cs
    · simp only [escape, h]
      rfl
    · exact bracedEscape_digits hdigits hc literal _
    · rw [escape_paired hbrace, h]

/-- An escape is read from its own characters, if what follows has no second half of a pair that was
not there before. -/
theorem escape_local {literal' : List Char} {value rest' : List Char}
    (h : escape literal e (raw ++ rest) = .ok ⟨value, raw, rest⟩)
    (hlow : lowHalf? rest = none → lowHalf? rest' = none) :
    escape literal' e (raw ++ rest') = .ok ⟨value, raw, rest'⟩ := by
  rw [escapeReads_iff] at h ⊢
  generalize hcs : raw ++ rest = cs at h
  generalize hs : (⟨value, raw, rest⟩ : Scan (List Char)) = s at h
  cases h with
  | other hx hu h =>
    cases hs
    exact .other hx hu h
  | @byte _ unit hunit =>
    obtain ⟨code, hex, more⟩ := unit
    cases hs
    rw [← hcs] at hunit
    exact .byte ((codeUnit_local hunit).2.2 rest')
  | braced hdigits hc =>
    cases hs
    rw [List.cons_append, List.append_assoc]
    exact .braced hdigits hc
  | paired hbrace h =>
    subst hs hcs
    have hne := pairedEscape_raw_ne_nil h
    refine .paired ?_ (pairedEscape_local h hlow)
    rwa [List.head?_append_of_ne_nil _ hne] at hbrace ⊢

/-- How the rest of a string is read, part by part. -/
inductive BodyReads (quote : Char) : List Char → Scan (List Char) → Prop
  | close {rest : List Char} : BodyReads quote (quote :: rest) ⟨[], [quote], rest⟩
  | escaped {e : Char} {more : List Char} {part tail : Scan (List Char)} (hquote : '\\' ≠ quote)
      (hpart : EscapeReads e more part) (htail : BodyReads quote part.rest tail) :
      BodyReads quote ('\\' :: e :: more)
        ⟨part.value ++ tail.value, '\\' :: e :: (part.raw ++ tail.raw), tail.rest⟩
  | plain {c : Char} {cs : List Char} {tail : Scan (List Char)} (hquote : c ≠ quote)
      (hescape : c ≠ '\\') (htail : BodyReads quote cs tail) :
      BodyReads quote (c :: cs) ⟨c :: tail.value, c :: tail.raw, tail.rest⟩

variable {quote : Char} {cs : List Char} {s : Scan (List Char)}

theorem bodyReads_of_stringBody {cs : List Char} {fuel : Nat}
    (h : stringBody quote literal fuel cs = .ok s) : BodyReads quote cs s := by
  fun_induction stringBody quote literal fuel cs generalizing s with
  | case3 =>
    cases h
    exact .close
  | case7 fuel e more part hpart tail htail hquote ih =>
    cases h
    exact .escaped hquote (escapeReads_iff.1 hpart) (ih htail)
  | case9 fuel c cs hquote hescape tail htail ih =>
    cases h
    exact .plain hquote hescape (ih htail)
  | _ => cases h

theorem BodyReads.stringBody_eq (h : BodyReads quote cs s) (literal : List Char) {fuel : Nat}
    (hfuel : s.raw.length ≤ fuel) : stringBody quote literal fuel cs = .ok s := by
  induction h generalizing fuel with
  | close =>
    obtain ⟨fuel, rfl⟩ : ∃ n, fuel = n + 1 := ⟨fuel - 1, by simp at hfuel; omega⟩
    rw [stringBody.eq_def]
    exact if_pos rfl
  | escaped hquote hpart _ ih =>
    obtain ⟨fuel, rfl⟩ : ∃ n, fuel = n + 1 := ⟨fuel - 1, by simp at hfuel; omega⟩
    rw [stringBody.eq_def]
    dsimp only
    rw [if_neg hquote, if_pos rfl, escapeReads_iff.2 hpart]
    dsimp only
    rw [ih (by simp at hfuel; omega)]
  | plain hquote hescape _ ih =>
    obtain ⟨fuel, rfl⟩ : ∃ n, fuel = n + 1 := ⟨fuel - 1, by simp at hfuel; omega⟩
    rw [stringBody.eq_def]
    dsimp only
    rw [if_neg hquote, if_neg hescape, ih (by simpa using hfuel)]

theorem BodyReads.covers (h : BodyReads quote cs s) : s.Covers cs :=
  stringBody_covers (h.stringBody_eq [] (Nat.le_refl _))

theorem lowHalf?_unmarked (h : ∀ more, cs ≠ '\\' :: 'u' :: more) :
    lowHalf? cs = none := by
  unfold lowHalf?
  split
  · exact absurd rfl (h _)
  · rfl

theorem lowHalf?_brace (cs : List Char) : lowHalf? ('\\' :: 'u' :: '\x7b' :: cs) = none := by
  rw [lowHalf?]
  split
  · rfl
  · rename_i hex rest hcut
    obtain ⟨htext, hlen⟩ := cutBytes?_eq_some hcut
    cases hex with
    | nil => cases hlen
    | cons c hex =>
      cases htext
      have hread : unsigned? 16 0x100000000 ('\x7b' :: hex) = none := by
        have hdigit : isDigitOf 16 '\x7b' = false := by decide
        simp [unsigned?, dropPlus, hdigit]
      rw [hread]

/-- Whether the second half of a pair follows is known from a string that ends behind it. -/
theorem BodyReads.lowHalf?_eq_none (hslash : quote ≠ '\\') (h : BodyReads quote cs s)
    (hlow : lowHalf? cs = none) (rest' : List Char) : lowHalf? (s.raw ++ rest') = none := by
  cases h with
  | close => exact lowHalf?_unmarked fun more heq => hslash (List.cons.inj heq).1
  | plain hquote hescape _ => exact lowHalf?_unmarked fun more heq => hescape (List.cons.inj heq).1
  | @escaped e more part tail hquote hpart htail =>
    by_cases hu : e = 'u'
    · subst hu
      cases hpart with
      | other hx hu => exact absurd rfl hu
      | braced hdigits hc =>
        simp only [List.cons_append]
        exact lowHalf?_brace _
      | @paired _ part hbrace hpaired =>
        -- the first code is there whole, so that it is none of a second half
        unfold pairedEscape at hpaired
        split at hpaired
        · cases hpaired
        · rename_i high hhigh
          obtain ⟨code, hex, more'⟩ := high
          have hcovers : more = hex ++ more' := codeUnit_covers hhigh
          rw [hcovers] at hhigh
          obtain ⟨hlen, hread, -⟩ := codeUnit_local hhigh
          have hraw : ∃ tail', part.raw = hex ++ tail' := by
            dsimp only at hpaired
            split_ifs at hpaired
            · split at hpaired
              · cases hpaired
                exact ⟨_, rfl⟩
              · cases hpaired
                exact ⟨[], (List.append_nil hex).symm⟩
            · cases hpaired
              exact ⟨[], (List.append_nil hex).symm⟩
          obtain ⟨tail', hraw⟩ := hraw
          rw [hcovers, lowHalf?_digits hlen, hread] at hlow
          dsimp only
          rw [hraw, List.cons_append, List.cons_append, List.append_assoc, List.append_assoc,
            lowHalf?_digits hlen, hread]
          rw [Option.bind_some] at hlow ⊢
          split_ifs at hlow ⊢ with hcode
          rfl
    · refine lowHalf?_unmarked fun more heq => hu ?_
      cases heq
      rfl

/-- A string is read from its own characters. -/
theorem BodyReads.local (hslash : quote ≠ '\\') (h : BodyReads quote cs s) (rest' : List Char) :
    BodyReads quote (s.raw ++ rest') ⟨s.value, s.raw, rest'⟩ := by
  induction h with
  | close => exact .close
  | plain hquote hescape _ ih => exact .plain hquote hescape ih
  | @escaped e more part tail hquote hpart htail ih =>
    have hlow := htail.lowHalf?_eq_none hslash
    have hread : escape [] e more = .ok part := escapeReads_iff.2 hpart
    have hcovers : more = part.raw ++ part.rest := escape_covers hread
    rw [hcovers] at hread
    have hread' : escape [] e (part.raw ++ (tail.raw ++ rest')) =
        .ok ⟨part.value, part.raw, tail.raw ++ rest'⟩ :=
      escape_local hread fun hnone => hlow hnone rest'
    rw [List.cons_append, List.cons_append, List.append_assoc]
    exact .escaped hquote (escapeReads_iff.1 hread') ih

theorem string_local (hslash : quote ≠ '\\') (h : string quote cs = .ok s) :
    ∃ raw, s.raw = quote :: raw ∧ cs = raw ++ s.rest ∧
      ∀ rest', string quote (raw ++ rest') = .ok ⟨s.value, quote :: raw, rest'⟩ := by
  unfold string at h
  split at h
  · cases h
  · rename_i body hbody
    cases h
    have hreads := bodyReads_of_stringBody hbody
    refine ⟨body.raw, rfl, hreads.covers, fun rest' => ?_⟩
    rw [string, (hreads.local hslash rest').stringBody_eq _ (by simp)]

theorem BodyReads.last (h : BodyReads quote cs s) : ∃ front, s.raw = front ++ [quote] := by
  induction h with
  | close => exact ⟨[], rfl⟩
  | @escaped e more part _ _ _ _ ih =>
    obtain ⟨front, hfront⟩ := ih
    exact ⟨'\\' :: e :: (part.raw ++ front), by simp [hfront]⟩
  | @plain c _ _ _ _ _ ih =>
    obtain ⟨front, hfront⟩ := ih
    exact ⟨c :: front, by simp [hfront]⟩

end Scan
end PlayerScript
