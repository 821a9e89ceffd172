/-
Every finite double without a minus sign has a numeral that reads back as it: a double is an
integer times a power of two not below `2 ^ -1074`, so it is a decimal with 1074 places, and that
decimal is read without rounding.
-/
import PlayerScript.Proofs.Number.Unpacked

namespace PlayerScript.Number

open Float.Model Float.Model.UnpackedFloat

variable {m : Nat} {e : Int} {x : Float} {c : Char}

/-! ## Rounding of values that need none -/

/-- A mantissa and an exponent as a double has them: the exponent is the one that rounding would
choose. -/
structure Canonical (m : Nat) (e : Int) : Prop where
  pos : 0 < m
  target : Format.binary64.targetExponent (totalExponent m e) = e

theorem targetExponent_eq (t : Int) : Format.binary64.targetExponent t = max (t - 53) (-1074) := by
  unfold Format.targetExponent Format.minExponent Format.mantissaBits
  norm_num

theorem log2_mul_two_pow (hm : m ≠ 0) (k : Nat) : (m * 2 ^ k).log2 = m.log2 + k := by
  have hne : m * 2 ^ k ≠ 0 := Nat.mul_ne_zero hm (Nat.two_pow_pos k).ne'
  rw [Nat.log2_eq_iff hne]
  constructor
  · rw [pow_add]
    exact Nat.mul_le_mul_right _ (Nat.log2_self_le hm)
  · rw [show m.log2 + k + 1 = m.log2 + 1 + k by omega, pow_add]
    exact Nat.mul_lt_mul_of_pos_right Nat.lt_log2_self (Nat.two_pow_pos k)

theorem log2_mul_le {a b : Nat} (ha : a ≠ 0) (hb : b ≠ 0) : (a * b).log2 ≤ a.log2 + b.log2 + 1 := by
  have h : a * b < 2 ^ (a.log2 + b.log2 + 2) := by
    have ha' : a < 2 ^ (a.log2 + 1) := Nat.lt_log2_self
    have hb' : b < 2 ^ (b.log2 + 1) := Nat.lt_log2_self
    calc a * b < 2 ^ (a.log2 + 1) * 2 ^ (b.log2 + 1) := Nat.mul_lt_mul'' ha' hb'
      _ = 2 ^ (a.log2 + b.log2 + 2) := by rw [← pow_add]; congr 1; omega
  have := (Nat.log2_lt (Nat.mul_ne_zero ha hb)).2 h
  omega

theorem shiftRight_exact (m : Nat) : ∀ k : Nat,
    ExtendedMantissa.ofMantissaAndAccuracy (m * 2 ^ k) .exact >>> k = ⟨m, false, false⟩
  | 0 => by simp [ExtendedMantissa.ofMantissaAndAccuracy, HShiftRight.hShiftRight, Nat.repeat]
  | k + 1 => by
    -- the last place of an even mantissa is dropped first, the others by the induction
    have hcomm : ∀ (n : Nat) (em : ExtendedMantissa),
        Nat.repeat ExtendedMantissa.shiftRightOne (n + 1) em =
          Nat.repeat ExtendedMantissa.shiftRightOne n em.shiftRightOne := by
      intro n
      induction n with
      | zero => intro em; rfl
      | succ n ih => intro em; rw [Nat.repeat, ih]; rfl
    have hstep : (ExtendedMantissa.ofMantissaAndAccuracy (m * 2 ^ (k + 1)) .exact).shiftRightOne =
        ExtendedMantissa.ofMantissaAndAccuracy (m * 2 ^ k) .exact := by
      have h2 : m * 2 ^ (k + 1) = m * 2 ^ k * 2 := by rw [pow_succ]; ring
      simp [ExtendedMantissa.ofMantissaAndAccuracy, ExtendedMantissa.shiftRightOne, h2]
    show Nat.repeat ExtendedMantissa.shiftRightOne (k + 1) _ = _
    rw [hcomm, hstep]
    exact shiftRight_exact m k

theorem shiftToTarget_exact (h : Canonical m e) (k : Nat) :
    shiftToTargetExponent Format.binary64 (m * 2 ^ k) (e - k) .exact = (⟨m, false, false⟩, e) := by
  have ht : totalExponent (m * 2 ^ k) (e - k) = totalExponent m e := by
    unfold totalExponent
    rw [log2_mul_two_pow (Nat.pos_iff_ne_zero.1 h.pos)]
    omega
  unfold shiftToTargetExponent shiftToExponent
  rw [ht, h.target]
  have hk : (e - (e - k)).toNat = k := by omega
  simp only [hk, shiftRight_exact]
  simp

/-- A value that is a double already is rounded to itself. -/
theorem round_exact (h : Canonical m e) (s : Sign) (k : Nat) :
    roundWithAccuracy Format.binary64 s (m * 2 ^ k) (e - k) .exact = .finite s m e h.pos := by
  have h0 := shiftToTarget_exact h 0
  simp only [pow_zero, mul_one, Nat.cast_zero, sub_zero] at h0
  unfold roundWithAccuracy
  rw [shiftToTarget_exact h k]
  simp only [ExtendedMantissa.roundedMantissa, ExtendedMantissa.accuracy,
    Accuracy.roundToNearestEven, h0]
  rw [dif_neg (Nat.pos_iff_ne_zero.1 h.pos)]

/-- A quotient of integers that is a double is computed without rounding. -/
theorem div_exact (h : Canonical m e) {n d i j : Nat} (hn : 0 < n) (hd : 0 < d)
    (he : e = (i : Int) - j) (hv : n * 2 ^ j = d * m * 2 ^ i) :
    div Format.binary64 (.finite .positive n 0 hn) (.finite .positive d 0 hd) =
      .finite .positive m e h.pos := by
  have hm0 : m ≠ 0 := Nat.pos_iff_ne_zero.1 h.pos
  have hn0 : n ≠ 0 := Nat.pos_iff_ne_zero.1 hn
  have hd0 : d ≠ 0 := Nat.pos_iff_ne_zero.1 hd
  have hlog : (n.log2 : Int) - d.log2 ≤ m.log2 + 1 + e := by
    have h1 : n.log2 + j = (d * m).log2 + i := by
      rw [← log2_mul_two_pow hn0, hv, log2_mul_two_pow (Nat.mul_ne_zero hd0 hm0)]
    have h2 := log2_mul_le hd0 hm0
    omega
  have htarget := h.target
  rw [targetExponent_eq] at htarget
  unfold totalExponent at htarget
  -- the quotient is taken at the exponent `-s`, which is not above the one of the result
  obtain ⟨s, hs⟩ : ∃ s : Nat, min (0 : Int) (max ((n.log2 : Int) - d.log2 - 53) (-1074)) = -s :=
    ⟨(-min (0 : Int) (max ((n.log2 : Int) - d.log2 - 53) (-1074))).toNat, by omega⟩
  have hse : 0 ≤ e + s := by omega
  obtain ⟨k, hk⟩ : ∃ k : Nat, e + s = k := ⟨(e + s).toNat, by omega⟩
  have hq : n * 2 ^ s = d * (m * 2 ^ k) := by
    have hpow : 2 ^ k * 2 ^ j = 2 ^ i * 2 ^ s := by rw [← pow_add, ← pow_add]; congr 1; omega
    apply Nat.eq_of_mul_eq_mul_right (Nat.two_pow_pos j)
    calc n * 2 ^ s * 2 ^ j = n * 2 ^ j * 2 ^ s := by ring
      _ = d * m * (2 ^ i * 2 ^ s) := by rw [hv]; ring
      _ = d * (m * 2 ^ k) * 2 ^ j := by rw [← hpow]; ring
  have hcore : divCore Format.binary64 n 0 d 0 = (m * 2 ^ k, e - k, .exact) := by
    unfold divCore
    simp only [targetExponent_eq, totalExponent, sub_zero, add_zero]
    have harg : min (0 : Int) (max ((n.log2 : Int) + 1 - (d.log2 + 1) - 53) (-1074)) = -s := by omega
    have hshift : ((0 : Int) - -(s : Int)).toNat = s := by omega
    rw [harg, hshift, Nat.shiftLeft_eq, hq, Nat.mul_div_cancel_left _ hd, Nat.mul_mod_right]
    unfold accuracyOfFraction
    rw [if_pos rfl]
    congr 2
    omega
  show roundWithAccuracy Format.binary64 _ (divCore Format.binary64 n 0 d 0).1
    (divCore Format.binary64 n 0 d 0).2.1 (divCore Format.binary64 n 0 d 0).2.2 = _
  rw [hcore]
  exact round_exact h .positive k

/-! ## The bits of a double -/

/-- The exact value of a double without a minus sign is canonical, and packing it gives the double
back. -/
theorem ofFloat_canonical {v : Exact} (h : Exact.ofFloat? x = some v)
    (hs : v.negative = false) (h0 : 0 < v.mantissa) :
    Canonical v.mantissa v.exponent ∧
      Float.ofModel (Float.Model.pack (.finite .positive v.mantissa v.exponent h0)) = x := by
  obtain ⟨hlt, hlow, hfull⟩ := Exact.shape h
  refine ⟨⟨h0, ?_⟩, ?_⟩
  · have hlog : v.mantissa.log2 < 53 := (Nat.log2_lt h0.ne').2 hlt
    rw [targetExponent_eq, totalExponent]
    rcases hfull with hfull | hleast
    · have hfull : 52 ≤ v.mantissa.log2 := (Nat.le_log2 h0.ne').2 hfull
      omega
    · omega
  · have hunpack : x.toModel.unpack = _ := unpack_of_ofBits? h
    rw [dif_pos h0, Exact.sign, hs] at hunpack
    exact (congrArg (fun u => Float.ofModel (Float.Model.pack u)) hunpack.symm).trans (ofModel_pack_unpack x)

theorem ofFloat_zero {v : Exact} (h : Exact.ofFloat? x = some v)
    (hs : v.negative = false) (h0 : v.mantissa = 0) :
    Float.ofModel (Float.Model.pack (.zero .positive)) = x := by
  have hunpack : x.toModel.unpack = _ := unpack_of_ofBits? h
  rw [dif_neg (h0 ▸ Nat.lt_irrefl 0), Exact.sign, hs] at hunpack
  exact (congrArg (fun u => Float.ofModel (Float.Model.pack u)) hunpack.symm).trans (ofModel_pack_unpack x)

/-! ## Reading the expansion -/

/-- Whether a double is finite and has no minus sign. -/
def isUnsigned (x : Float) : Bool :=
  match Exact.ofFloat? x with
  | some v => !v.negative
  | none => false

/-- The number of places that the decimal expansion of every double fits in. -/
def places : Nat := 1074

/-- The decimal expansion of the absolute value of a finite double, as an integer that counts units
of the last place. -/
def expansion (x : Float) : Nat :=
  match Exact.ofFloat? x with
  | some v => v.mantissa * 2 ^ (v.exponent + places).toNat * 5 ^ places
  | none => 0

theorem model_expansion (h : isUnsigned x = true) :
    Float.ofModel (Float.Model.ofScientific (expansion x) (-places)) = x := by
  unfold isUnsigned at h
  unfold expansion
  cases hv : Exact.ofFloat? x with
  | none => rw [hv] at h; cases h
  | some v =>
    rw [hv] at h
    have hs : v.negative = false := by simpa using h
    simp only
    rcases Nat.eq_zero_or_pos v.mantissa with h0 | h0
    · rw [← ofFloat_zero hv hs h0, h0]
      simp [Float.Model.ofScientific, UnpackedFloat.ofScientific]
    · obtain ⟨hc, hx⟩ := ofFloat_canonical hv hs h0
      have hlo : -1074 ≤ v.exponent := by
        have := hc.target
        rw [targetExponent_eq] at this
        omega
      -- The expansion is divided by a power of ten, and the quotient is a double again.
      have hn : 0 < v.mantissa * 2 ^ (v.exponent + places).toNat * 5 ^ places := by positivity
      have hd : 0 < 10 ^ places := by positivity
      have hdiv := div_exact hc hn hd (i := (v.exponent + places).toNat) (j := places)
        (by unfold places at *; omega)
        (by rw [show (10 : Nat) = 2 * 5 from rfl, mul_pow]; ring)
      unfold Float.Model.ofScientific UnpackedFloat.ofScientific
      generalize v.mantissa * 2 ^ (v.exponent + places).toNat * 5 ^ places = n at hn hdiv ⊢
      rw [dif_neg hn.ne', if_neg (by unfold places; norm_num), if_neg (by unfold places; norm_num),
        if_neg (by unfold places; norm_num)]
      have hneg : (-(-(places : Int))).toNat = places := by omega
      simp only [hneg]
      rw [hdiv, hx]

/-! ## Digits -/

open PlayerScript.Text

theorem digitValue_of_isDigit (h : c.isDigit = true) : digitValue c = c.toNat - '0'.toNat := by
  unfold Char.isDigit at h
  simp only [Bool.and_eq_true, decide_eq_true_eq] at h
  have hc : '0' ≤ c ∧ c ≤ '9' := h
  unfold digitValue
  rw [if_pos hc]

theorem isDecimal_of_isDigit (h : c.isDigit = true) : isDecimal c = true := by
  unfold isDecimal isDigitOf
  rw [digitValue_of_isDigit h]
  have h9 : c.toNat ≤ '9'.toNat := by
    unfold Char.isDigit at h
    simp only [Bool.and_eq_true, decide_eq_true_eq] at h
    exact h.2
  have : '9'.toNat = 57 := rfl
  have : '0'.toNat = 48 := rfl
  simp only [decide_eq_true_eq]
  omega

theorem isDecimal_toDigits {n : Nat} (h : c ∈ Nat.toDigits 10 n) : isDecimal c = true :=
  isDecimal_of_isDigit (Nat.isDigit_of_mem_toDigits (by norm_num) (by norm_num) h)

theorem foldl_digits (cs : List Char) (h : ∀ c ∈ cs, c.isDigit = true) : ∀ n : Nat,
    cs.foldl (fun n c => n * 10 + digitValue c) n = Nat.ofDigitChars 10 cs n := by
  induction cs with
  | nil => intro n; simp
  | cons c cs ih =>
    intro n
    rw [List.foldl_cons, ih (fun d hd => h d (List.mem_cons_of_mem _ hd)), Nat.ofDigitChars_cons,
      digitValue_of_isDigit (h c List.mem_cons_self)]
    congr 1
    ring

theorem natOfDigits_toDigits (n : Nat) : natOfDigits 10 (Nat.toDigits 10 n) = n := by
  unfold natOfDigits
  rw [foldl_digits _ fun c hc => Nat.isDigit_of_mem_toDigits (by norm_num) (by norm_num) hc]
  exact Nat.ofDigitChars_ten_toDigits

/-! ## Numerals with an exponent -/

/-- Digits, the mark of a negative exponent, and its digits. -/
def withExponent (digits exponent : List Char) : List Char := digits ++ 'e' :: '-' :: exponent

theorem decimal_withExponent {ds es : List Char} (hds : ds ≠ []) (hd : ∀ c ∈ ds, isDecimal c = true)
    (hes : es ≠ []) (he : ∀ c ∈ es, isDecimal c = true) :
    decimal? false (withExponent ds es) = some ⟨false, natOfDigits 10 ds, -(natOfDigits 10 es)⟩ := by
  have htake : (withExponent ds es).takeWhile isDecimal = ds := by
    unfold withExponent
    rw [List.takeWhile_append_of_pos hd, List.takeWhile_cons_of_neg (by decide), List.append_nil]
  have hdrop : (withExponent ds es).dropWhile isDecimal = 'e' :: '-' :: es := by
    unfold withExponent
    rw [List.dropWhile_append_of_pos hd, List.dropWhile_cons_of_neg (by decide)]
  have hall : es.all isDecimal = true := List.all_eq_true.2 he
  have hexp : exponent? ('e' :: '-' :: es) = some (-(natOfDigits 10 es : Int)) := by
    simp [exponent?, takeSign, hall, hes]
  unfold decimal?
  simp only [htake, hdrop, List.head?_cons]
  simp [hds, hexp]

theorem magnitude_withExponent {ds es : List Char} (hds : ds ≠ []) (hd : ∀ c ∈ ds, isDecimal c = true)
    (hes : es ≠ []) (he : ∀ c ∈ es, isDecimal c = true) :
    ofNumeral? (withExponent ds es) =
      some (Scientific.toFloat ⟨false, natOfDigits 10 ds, -(natOfDigits 10 es)⟩) := by
  obtain ⟨c, cs, rfl⟩ := List.exists_cons_of_ne_nil hds
  have hc : isDecimal c = true := hd c List.mem_cons_self
  have hsign : takeSign (withExponent (c :: cs) es) = (false, withExponent (c :: cs) es) := by
    unfold withExponent takeSign
    split
    · rename_i h; cases h; exact absurd hc (by decide)
    · rename_i h; cases h; exact absurd hc (by decide)
    · rfl
  have hhex : afterHexMark? (withExponent (c :: cs) es) = none := by
    unfold withExponent afterHexMark?
    split
    · rename_i h
      cases cs with
      | nil => cases h
      | cons d ds =>
        cases h
        exact absurd (hd 'x' (by simp)) (by decide)
    · rename_i h
      cases cs with
      | nil => cases h
      | cons d ds =>
        cases h
        exact absurd (hd 'X' (by simp)) (by decide)
    · rfl
  have hinf : withExponent (c :: cs) es ≠ "Infinity".toList := by
    intro h
    have hI : c = 'I' := by
      have := congrArg List.head? h
      simpa [withExponent] using this
    rw [hI] at hc
    exact absurd hc (by decide)
  have hne : (withExponent (c :: cs) es).isEmpty = false := rfl
  unfold ofNumeral? magnitude?
  simp only [hne, hsign, hhex, if_neg hinf, decimal_withExponent hds hd hes he]
  rfl

/-- A numeral for a finite double without a minus sign. -/
def numeral (x : Float) : List Char :=
  withExponent (Nat.toDigits 10 (expansion x)) (Nat.toDigits 10 places)

/-- The expansion of a double reads back as the double. -/
theorem ofNumeral_numeral (h : isUnsigned x = true) : ofNumeral? (numeral x) = some x := by
  unfold numeral
  rw [magnitude_withExponent Nat.toDigits_ne_nil (fun _ => isDecimal_toDigits) Nat.toDigits_ne_nil
    (fun _ => isDecimal_toDigits), natOfDigits_toDigits, natOfDigits_toDigits]
  unfold Scientific.toFloat
  -- the many places rule out the short cut for small numerals
  have hslow : ¬ (expansion x < 2 ^ 53 ∧ places ≤ 22) := by unfold places; omega
  have hneg : decide (-(places : Int) < 0) = true := by decide
  have habs : (-(places : Int)).natAbs = places := by omega
  simp only [hneg, habs, Bool.false_eq_true, if_false]
  unfold Float.ofScientific
  rw [dif_neg hslow]
  simp only [if_true]
  exact congrArg some (model_expansion h)

end PlayerScript.Number
