/-
Strings of JSON documents as source text. A string that the JSON reader takes to its closing quote
is one token, and escapes are decoded alike: a code of four digits, two codes that are the halves of
a pair, and the letters after a backslash.
-/
import PlayerScript.Json.Reader
import PlayerScript.Proofs.Token.Lexemes

namespace PlayerScript.Json

open PlayerScript.Text PlayerScript.Token

variable {cs rest : List Char} {parts : List StringPart} {c a b d : Char} {n : Nat}

/-- The string that the parts of a written string stand for. -/
def decoded (parts : List StringPart) : String := (string? parts).getD ""

/-! ## Parts of a string -/

/-- How a string goes on: it ends, or with an escaped code, an escaped character or a plain one. -/
inductive StringReads : List Char → List StringPart → List Char → Prop
  | close {rest : List Char} : StringReads ('"' :: rest) [] rest
  | code {a b c d : Char} {cs rest : List Char} {n : Nat} {parts : List StringPart}
      (hcode : hexCode? [a, b, c, d] = some n) (h : readString cs = some (parts, rest)) :
      StringReads ('\\' :: 'u' :: a :: b :: c :: d :: cs) (.code n :: parts) rest
  | escaped {c e : Char} {cs rest : List Char} {parts : List StringPart}
      (hescape : simpleEscape? c = some e) (h : readString cs = some (parts, rest)) :
      StringReads ('\\' :: c :: cs) (.char e :: parts) rest
  | plain {c : Char} {cs rest : List Char} {parts : List StringPart} (hquote : c ≠ '"')
      (hslash : c ≠ '\\') (h : readString cs = some (parts, rest)) :
      StringReads (c :: cs) (.char c :: parts) rest

theorem stringReads_of_readString (h : readString cs = some (parts, rest)) :
    StringReads cs parts rest := by
  unfold readString at h
  split at h
  · cases h
  · split at h
    · rename_i n hn
      obtain ⟨⟨ps, r⟩, hread, heq⟩ := Option.map_eq_some_iff.1 h
      cases heq
      exact .code hn hread
    · cases h
  · split at h
    · rename_i e he
      obtain ⟨⟨ps, r⟩, hread, heq⟩ := Option.map_eq_some_iff.1 h
      cases heq
      exact .escaped he hread
    · cases h
  · split_ifs at h with hquote hslash
    · cases h
      subst hquote
      exact .close
    · obtain ⟨⟨ps, r⟩, hread, heq⟩ := Option.map_eq_some_iff.1 h
      cases heq
      rw [not_or] at hslash
      exact .plain hquote hslash.1 hread

theorem utf8Size_of_hex (h : isDigitOf 16 c = true) : c.utf8Size = 1 := by
  have hcode : c.toNat ≤ 127 := by
    rw [isDigitOf, decide_eq_true_eq, digitValue] at h
    have hle : ∀ a b : Char, a ≤ b ↔ a.toNat ≤ b.toNat := fun a b => UInt32.le_iff_toNat_le
    have h9 : '9'.toNat = 57 := rfl
    have hz : 'z'.toNat = 122 := rfl
    have hZ : 'Z'.toNat = 90 := rfl
    simp only [hle, h9, hz, hZ] at h
    split_ifs at h <;> omega
  exact Char.utf8Size_eq_one_iff.2 (UInt32.le_iff_toNat_le.2 hcode)

theorem natOfDigits_lt {base : Nat} (h : ∀ c ∈ cs, isDigitOf base c = true) :
    natOfDigits base cs < base ^ cs.length := by
  have hfold : ∀ (cs : List Char) (n : Nat), (∀ c ∈ cs, isDigitOf base c = true) →
      cs.foldl (fun n c => n * base + digitValue c) n < (n + 1) * base ^ cs.length := by
    intro cs
    induction cs with
    | nil => intro n _; simp
    | cons c cs ih =>
      intro n hcs
      rw [List.forall_mem_cons] at hcs
      have hc : digitValue c < base := by simpa [isDigitOf] using hcs.1
      calc cs.foldl (fun n c => n * base + digitValue c) (n * base + digitValue c)
          < (n * base + digitValue c + 1) * base ^ cs.length := ih _ hcs.2
        _ ≤ ((n + 1) * base) * base ^ cs.length := by
          refine Nat.mul_le_mul_right _ ?_
          rw [Nat.add_mul]
          omega
        _ = (n + 1) * base ^ (cs.length + 1) := by rw [pow_succ]; ring
  simpa [natOfDigits] using hfold cs 0 h

/-- Four hexadecimal digits are read as their code. -/
theorem unsigned?_of_hexCode (h : hexCode? [a, b, c, d] = some n) :
    unsigned? 16 0x100000000 [a, b, c, d] = some n ∧ n < 0x10000 ∧ byteLength [a, b, c, d] = 4 ∧
      isDigitOf 16 a = true := by
  unfold hexCode? at h
  split_ifs at h with hall
  cases h
  have hdigits := List.all_eq_true.1 hall
  have hlt := natOfDigits_lt hdigits
  simp only [List.length_cons, List.length_nil] at hlt
  have ha : isDigitOf 16 a = true := hdigits a (by simp)
  have hplus : dropPlus [a, b, c, d] = [a, b, c, d] := by
    unfold dropPlus
    split
    · rename_i heq
      cases heq
      exact absurd ha (by decide)
    · rfl
  have hbytes : byteLength [a, b, c, d] = 4 := by
    simp only [List.forall_mem_cons] at hdigits
    obtain ⟨h1, h2, h3, h4, -⟩ := hdigits
    simp [byteLength, utf8Size_of_hex h1, utf8Size_of_hex h2, utf8Size_of_hex h3, utf8Size_of_hex h4]
  refine ⟨?_, by omega, hbytes, ha⟩
  unfold unsigned?
  simp only [hplus]
  rw [if_neg (by simpa using hdigits), if_pos (by omega)]

theorem pairedEscape_single (h : hexCode? [a, b, c, d] = some n)
    (hhigh : isHighSurrogate n = false) (hlow : isLowSurrogate n = false) (cs : List Char) :
    Scan.pairedEscape (a :: b :: c :: d :: cs) = .ok ⟨[Char.ofNat n], [a, b, c, d], cs⟩ := by
  obtain ⟨hread, hlt, hbytes, -⟩ := unsigned?_of_hexCode h
  have hcut : cutBytes? (a :: b :: c :: d :: cs) 4 = some ([a, b, c, d], cs) := by
    rw [← hbytes]
    exact cutBytes?_append [a, b, c, d] cs
  have hhalf : Scan.isHighHalf n = false := by
    simp [isHighSurrogate, Scan.isHighHalf] at hhigh ⊢
    omega
  have hvalid : n.isValidChar := by
    simp [isHighSurrogate, isLowSurrogate] at hhigh hlow
    rw [Nat.isValidChar]
    omega
  simp [Scan.pairedEscape, Scan.codeUnit, hcut, hread, hhalf, Scan.charOfCode?, hvalid]

theorem pairedEscape_pair {a' b' c' d' : Char} {high low : Nat}
    (h : hexCode? [a, b, c, d] = some high) (h' : hexCode? [a', b', c', d'] = some low)
    (hhigh : isHighSurrogate high = true) (hlow : isLowSurrogate low = true) (cs : List Char) :
    Scan.pairedEscape (a :: b :: c :: d :: '\\' :: 'u' :: a' :: b' :: c' :: d' :: cs) =
      .ok ⟨[Char.ofNat (0x10000 + (high - 0xD800) * 0x400 + (low - 0xDC00))],
        [a, b, c, d, '\\', 'u', a', b', c', d'], cs⟩ := by
  obtain ⟨hread, -, hbytes, -⟩ := unsigned?_of_hexCode h
  obtain ⟨hread', -, hbytes', -⟩ := unsigned?_of_hexCode h'
  have hcut : ∀ cs, cutBytes? (a :: b :: c :: d :: cs) 4 = some ([a, b, c, d], cs) := by
    intro cs
    rw [← hbytes]
    exact cutBytes?_append [a, b, c, d] cs
  have hcut' : cutBytes? (a' :: b' :: c' :: d' :: cs) 4 = some ([a', b', c', d'], cs) := by
    rw [← hbytes']
    exact cutBytes?_append [a', b', c', d'] cs
  simp only [isHighSurrogate, isLowSurrogate, Bool.and_eq_true, decide_eq_true_eq] at hhigh hlow
  have hhalf : Scan.isHighHalf high = true := by
    simp [Scan.isHighHalf]
    omega
  have hhalf' : Scan.isLowHalf low = true := by
    simp [Scan.isLowHalf]
    omega
  have hvalid : (0x10000 + (high - 0xD800) * 0x400 + (low - 0xDC00)).isValidChar := by
    rw [Nat.isValidChar]
    omega
  have hjoin : Scan.joinHalves high low =
      Char.ofNat (0x10000 + (high - 0xD800) * 0x400 + (low - 0xDC00)) := by
    rw [Scan.joinHalves, Scan.charOfCode?, if_pos hvalid, Option.getD_some]
  rw [← hjoin]
  simp [Scan.pairedEscape, Scan.codeUnit, hcut, hread, hhalf, Scan.lowHalf?, hcut', hread', hhalf']

theorem escape_simple {e : Char} (h : simpleEscape? c = some e) (literal cs : List Char) :
    Scan.escape literal c cs = .ok ⟨[e], [], cs⟩ := by
  have hc : c = Char.ofNat c.toNat := (Char.ofNat_toNat c).symm
  unfold simpleEscape? at h
  split at h
  all_goals
    cases h
  all_goals
    rename_i hcode
    rw [hcode] at hc
    subst hc
    rfl

/-- An escaped code stands for its character, or with the code behind it for one. -/
theorem characters?_code {chars : List Char} (h : characters? (.code n :: parts) = some chars) :
    (isHighSurrogate n = false ∧ isLowSurrogate n = false ∧
      ∃ chars', characters? parts = some chars' ∧ chars = Char.ofNat n :: chars') ∨
    ∃ low more chars', parts = .code low :: more ∧ isHighSurrogate n = true ∧
      isLowSurrogate low = true ∧ characters? more = some chars' ∧
      chars = Char.ofNat (0x10000 + (n - 0xD800) * 0x400 + (low - 0xDC00)) :: chars' := by
  have hsingle : (if isHighSurrogate n || isLowSurrogate n then none
      else (characters? parts).map fun cs => Char.ofNat n :: cs) = some chars →
      isHighSurrogate n = false ∧ isLowSurrogate n = false ∧
        ∃ chars', characters? parts = some chars' ∧ chars = Char.ofNat n :: chars' := by
    intro h
    split_ifs at h with hhalf
    rw [Bool.or_eq_true, not_or, Bool.not_eq_true, Bool.not_eq_true] at hhalf
    obtain ⟨chars', hchars, heq⟩ := Option.map_eq_some_iff.1 h
    exact ⟨hhalf.1, hhalf.2, chars', hchars, heq.symm⟩
  cases parts with
  | nil => exact .inl (hsingle h)
  | cons part more =>
    cases part with
    | char c => exact .inl (hsingle h)
    | code low =>
      rw [characters?] at h
      split_ifs at h with hpair hhalf
      · rw [Bool.and_eq_true] at hpair
        obtain ⟨chars', hchars, heq⟩ := Option.map_eq_some_iff.1 h
        exact .inr ⟨low, more, chars', rfl, hpair.1, hpair.2, hchars, heq.symm⟩
      · exact .inl (hsingle (by rw [if_neg hhalf]; exact h))

theorem escape_code (literal : List Char) (h : hexCode? [a, b, c, d] = some n) (cs : List Char) :
    Scan.escape literal 'u' (a :: b :: c :: d :: cs) =
      Scan.pairedEscape (a :: b :: c :: d :: cs) := by
  have ha : a ≠ '\x7b' := by
    rintro rfl
    exact absurd (unsigned?_of_hexCode h).2.2.2 (by decide)
  simp [Scan.escape, ha]

/-- A string that the JSON reader takes to the end is decoded to its characters. -/
theorem stringBody_of_readString (literal : List Char) {fuel : Nat} {chars : List Char}
    (h : readString cs = some (parts, rest))
    (hchars : characters? parts = some chars) (hfuel : cs.length ≤ fuel) :
    ∃ raw, Scan.stringBody '"' literal fuel cs = .ok ⟨chars, raw, rest⟩ := by
  induction fuel generalizing cs parts chars with
  | zero =>
    obtain rfl := List.length_eq_zero_iff.1 (Nat.le_zero.1 hfuel)
    cases h
  | succ fuel ih =>
    -- what holds for the rest of the string behind a first part
    have hnext : ∀ {e : Char} {more after first chars' : List Char} {parts' : List StringPart},
        (∃ raw, Scan.escape literal e more = .ok ⟨first, raw, after⟩) → after.length ≤ fuel →
        readString after = some (parts', rest) → characters? parts' = some chars' →
        ∃ raw, Scan.stringBody '"' literal (fuel + 1) ('\\' :: e :: more) =
          .ok ⟨first ++ chars', raw, rest⟩ := by
      rintro e more after first chars' parts' ⟨raw, hescape⟩ hlen hread hchars'
      obtain ⟨raw', hbody⟩ := ih hread hchars' hlen
      refine ⟨'\\' :: e :: (raw ++ raw'), ?_⟩
      simp [Scan.stringBody, hescape, hbody]
    cases stringReads_of_readString h with
    | close =>
      cases hchars
      exact ⟨['"'], by simp [Scan.stringBody]⟩
    | @code a b c d cs' _ n parts' hcode hread =>
      simp only [List.length_cons] at hfuel
      have hescape := escape_code literal hcode cs'
      rcases characters?_code hchars with ⟨hhigh, hlow, chars', hchars', rfl⟩ |
        ⟨low, more, chars', rfl, hhigh, hlow, hchars', rfl⟩
      · rw [pairedEscape_single hcode hhigh hlow] at hescape
        exact hnext ⟨_, hescape⟩ (by omega) hread hchars'
      · -- the second half of a pair is the next part of the string
        cases stringReads_of_readString hread with
        | code hcode' hread' =>
          rw [pairedEscape_pair hcode hcode' hhigh hlow] at hescape
          simp only [List.length_cons] at hfuel
          exact hnext ⟨_, hescape⟩ (by omega) hread' hchars'
    | @escaped c e cs' _ parts' hescape hread =>
      rw [characters?, Option.map_eq_some_iff] at hchars
      obtain ⟨chars', hchars, rfl⟩ := hchars
      simp only [List.length_cons] at hfuel
      exact hnext ⟨[], escape_simple hescape literal cs'⟩ (by omega) hread hchars
    | @plain c cs' _ parts' hquote hslash hread =>
      rw [characters?, Option.map_eq_some_iff] at hchars
      obtain ⟨chars', hchars, rfl⟩ := hchars
      obtain ⟨raw, hbody⟩ := ih hread hchars (by simpa using hfuel)
      refine ⟨c :: raw, ?_⟩
      rw [Scan.stringBody.eq_def]
      simp [hquote, hslash, hbody]

theorem splitsInto_string (h : readString cs = some (parts, rest)) {s : String}
    (hs : string? parts = some s) :
    SplitsInto ('"' :: cs) [.string (decoded parts)] rest := by
  rw [string?, Option.map_eq_some_iff] at hs
  obtain ⟨chars, hchars, rfl⟩ := hs
  obtain ⟨raw, hbody⟩ := stringBody_of_readString ('"' :: cs) h hchars (Nat.le_refl _)
  have hdecoded : decoded parts = String.ofList chars := by
    rw [decoded, string?, hchars, Option.map_some, Option.getD_some]
  have hcomment : ∀ d, beginsWith ['/', d] ('"' :: cs) = false := fun _ => rfl
  have hlex : lexeme '"' cs = .ok ⟨some (.string (decoded parts)), '"' :: raw, rest⟩ := by
    unfold lexeme
    simp only [hcomment, Scan.string, hbody, hdecoded]
    rfl
  exact .token hlex

end PlayerScript.Json
