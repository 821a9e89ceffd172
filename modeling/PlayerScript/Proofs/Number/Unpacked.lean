/-
Doubles as rational numbers. A double that is finite is an integer times a power of two, and its exact
value stands for this rational number; its integer part is the rational number cut toward zero.
Negation changes the sign and nothing else.
-/
import Mathlib
import PlayerScript.Number.Numeral

namespace PlayerScript.Number

open Float.Model Float.Model.UnpackedFloat

/-! ## The fields of a double -/

theorem toNat_unpackExponent (b : BitVec 64) :
    (@unpackExponent Format.binary64 b).toNat = b.toNat / 2 ^ 52 % 2 ^ 11 := by
  show (b.extractLsb 62 52).toNat = _
  rw [BitVec.extractLsb_toNat, Nat.shiftRight_eq_div_pow]

theorem toNat_unpackMantissa (b : BitVec 64) :
    (@unpackMantissa Format.binary64 b).toNat = b.toNat % 2 ^ 52 := by
  show (b.extractLsb 51 0).toNat = _
  rw [BitVec.extractLsb_toNat, Nat.shiftRight_zero]

theorem toNat_unpackSign (b : BitVec 64) :
    (@unpackSign Format.binary64 b).toNat = b.toNat / 2 ^ 63 % 2 := by
  show (b.extractLsb 63 63).toNat = _
  rw [BitVec.extractLsb_toNat, Nat.shiftRight_eq_div_pow]

/-! ## Packing and negation -/

/-- Packing changes the bits of NaN only. -/
theorem unpack_pack_unpack (b : BitVec 64) :
    UnpackedFloat.unpack Format.binary64 (UnpackedFloat.pack Format.binary64
      (UnpackedFloat.unpack Format.binary64 b)) = UnpackedFloat.unpack Format.binary64 b := by
  have hpack := @pack_unpack Format.binary64 b (by decide)
  rw [hpack]
  split_ifs with hnan
  · rw [isNaNBits, decide_eq_true_eq] at hnan
    rw [unpack_packedNaN]
    unfold UnpackedFloat.unpack
    dsimp only
    rw [if_pos hnan.1, if_neg hnan.2]
  · rfl

theorem ofModel_pack_unpack (x : Float) : Float.ofModel (Float.Model.pack x.toModel.unpack) = x := by
  obtain ⟨⟨bits, valid⟩⟩ := x
  have hpack : UnpackedFloat.pack Format.binary64 (UnpackedFloat.unpack Format.binary64 bits.toBitVec) =
      bits.toBitVec := by
    rw [@pack_unpack Format.binary64 bits.toBitVec (by decide)]
    split_ifs with hnan
    · rw [isNaNBits, decide_eq_true_eq] at hnan
      exact (valid.eq_packedNaN hnan.1 hnan.2).symm
    · rfl
  have hbits : UInt64.ofBitVec (UnpackedFloat.pack Format.binary64
      (UnpackedFloat.unpack Format.binary64 bits.toBitVec)) = bits := congrArg UInt64.ofBitVec hpack
  simp only [Float.Model.pack, Float.Model.unpack, hbits]

theorem unpack_ofBits (w : UInt64) :
    (Float.ofBits w).toModel.unpack = UnpackedFloat.unpack Format.binary64 w.toBitVec :=
  unpack_pack_unpack w.toBitVec

theorem unpack_components_neg (s : Sign) (e : BitVec 11) (m : BitVec 52) :
    UnpackedFloat.unpack Format.binary64 (packComponents Format.binary64 (-s) e m) =
      (UnpackedFloat.unpack Format.binary64 (packComponents Format.binary64 s e m)).neg := by
  unfold UnpackedFloat.unpack
  simp only [unpackExponent_packComponents, unpackMantissa_packComponents, unpackSign_packComponents,
    Sign.ofBitVec_toBitVec]
  split_ifs <;> rfl

/-- Negation changes the sign of a double. -/
theorem unpack_neg (x : Float) : (-x).toModel.unpack = x.toModel.unpack.neg := by
  have hflip := unpack_components_neg (Sign.ofBitVec (@unpackSign Format.binary64 x.toModel.toBits.toBitVec))
    (@unpackExponent Format.binary64 x.toModel.toBits.toBitVec)
    (@unpackMantissa Format.binary64 x.toModel.toBits.toBitVec)
  rw [@packComponents_unpackSign_unpackExponent_unpackMantissa Format.binary64 x.toModel.toBits.toBitVec]
    at hflip
  show UnpackedFloat.unpack Format.binary64 (UnpackedFloat.pack Format.binary64
    (UnpackedFloat.unpack Format.binary64 x.toModel.toBits.toBitVec).neg) =
      (UnpackedFloat.unpack Format.binary64 x.toModel.toBits.toBitVec).neg
  rw [← hflip]
  exact unpack_pack_unpack _

/-! ## The exact value -/

/-- The sign of an exact value. -/
def Exact.sign (v : Exact) : Sign := if v.negative then .negative else .positive

/-- The exact value of an unpacked double, if it is finite. -/
def Exact.ofUnpacked? : UnpackedFloat → Option Exact
  | .zero s => some ⟨s == .negative, 0, -1074⟩
  | .finite s m e _ => some ⟨s == .negative, m, e⟩
  | _ => none

theorem ofBits?_eq (bits : Nat) : Exact.ofBits? bits =
    if bits / 2 ^ 52 % 2 ^ 11 = 2047 then none
    else if bits / 2 ^ 52 % 2 ^ 11 = 0 then
      some ⟨decide (bits / 2 ^ 63 % 2 = 1), bits % 2 ^ 52, -1074⟩
    else some ⟨decide (bits / 2 ^ 63 % 2 = 1), 2 ^ 52 + bits % 2 ^ 52,
      (bits / 2 ^ 52 % 2 ^ 11 : Nat) - 1075⟩ := rfl

theorem ofBits?_toNat (b : BitVec 64) :
    Exact.ofBits? b.toNat = Exact.ofUnpacked? (UnpackedFloat.unpack Format.binary64 b) := by
  have hexponent : ∀ e : BitVec 11, @unpackExponent Format.binary64 b = e ↔
      b.toNat / 2 ^ 52 % 2 ^ 11 = e.toNat := by
    intro e
    rw [← toNat_unpackExponent]
    exact BitVec.toNat_inj.symm
  have hmantissa : @unpackMantissa Format.binary64 b = 0#52 ↔ b.toNat % 2 ^ 52 = 0 := by
    rw [← toNat_unpackMantissa]
    exact BitVec.toNat_inj.symm
  have hsign : decide (b.toNat / 2 ^ 63 % 2 = 1) =
      (Sign.ofBitVec (@unpackSign Format.binary64 b) == .negative) := by
    rw [← toNat_unpackSign]
    generalize (@unpackSign Format.binary64 b : BitVec 1) = v
    revert v
    decide
  have hlead : (1#1 ++ @unpackMantissa Format.binary64 b).toNat = 2 ^ 52 + b.toNat % 2 ^ 52 := by
    rw [BitVec.toNat_append, ← Nat.shiftLeft_add_eq_or_of_lt (BitVec.isLt _), Nat.shiftLeft_eq,
      toNat_unpackMantissa]
    rfl
  rw [ofBits?_eq]
  unfold UnpackedFloat.unpack
  dsimp only
  by_cases hinf : b.toNat / 2 ^ 52 % 2 ^ 11 = 2047
  · rw [if_pos hinf, if_pos ((hexponent (-1#11)).2 hinf)]
    split_ifs <;> rfl
  · rw [if_neg hinf, if_neg (fun h => hinf ((hexponent (-1#11)).1 h)), hsign]
    by_cases hzero : b.toNat / 2 ^ 52 % 2 ^ 11 = 0
    · rw [if_pos hzero, if_pos ((hexponent 0#11).2 hzero)]
      by_cases hm : b.toNat % 2 ^ 52 = 0
      · rw [dif_pos (hmantissa.2 hm), hm]
        rfl
      · rw [dif_neg (fun h => hm (hmantissa.1 h))]
        simp only [Exact.ofUnpacked?, toNat_unpackMantissa, toNat_unpackExponent, hzero]
        rfl
    · rw [if_neg hzero, if_neg (fun h => hzero ((hexponent 0#11).1 h))]
      simp only [Exact.ofUnpacked?, hlead, toNat_unpackExponent]
      rfl

theorem ofFloat?_eq_unpack (x : Float) : Exact.ofFloat? x = Exact.ofUnpacked? x.toModel.unpack :=
  ofBits?_toNat x.toModel.toBits.toBitVec

/-- What the bits of a finite double are unpacked to. -/
theorem unpack_of_ofBits? {b : BitVec 64} {v : Exact} (h : Exact.ofBits? b.toNat = some v) :
    UnpackedFloat.unpack Format.binary64 b =
      if h0 : 0 < v.mantissa then .finite v.sign v.mantissa v.exponent h0 else .zero v.sign := by
  rw [ofBits?_toNat] at h
  cases hunpack : UnpackedFloat.unpack Format.binary64 b with
  | zero s =>
    rw [hunpack] at h
    cases h
    cases s <;> rfl
  | finite s m e hm =>
    rw [hunpack] at h
    cases h
    cases s <;> exact (dif_pos hm).symm
  | _ =>
    rw [hunpack] at h
    cases h

theorem isFinite_iff (x : Float) : x.isFinite = true ↔ ∃ v, Exact.ofFloat? x = some v := by
  have hfinite : x.isFinite = x.toModel.unpack.isFinite := rfl
  rw [hfinite, ofFloat?_eq_unpack]
  cases x.toModel.unpack <;> simp [UnpackedFloat.isFinite, Exact.ofUnpacked?]

/-- The mantissa of a finite double fills 53 bits, or the exponent is the least one. -/
theorem Exact.shape {x : Float} {v : Exact} (h : Exact.ofFloat? x = some v) :
    v.mantissa < 2 ^ 53 ∧ -1074 ≤ v.exponent ∧ (2 ^ 52 ≤ v.mantissa ∨ v.exponent = -1074) := by
  have hlt : x.toBits.toNat % 2 ^ 52 < 2 ^ 52 := Nat.mod_lt _ (by norm_num)
  rw [Exact.ofFloat?, ofBits?_eq] at h
  split_ifs at h with hinf hzero
  · cases h
    exact ⟨by simp only; omega, le_refl _, .inr rfl⟩
  · cases h
    exact ⟨by simp only; omega, by simp only; omega, .inl (by simp only; omega)⟩

/-! ## Rational numbers -/

/-- The rational number that a finite double is. -/
def rational? (x : Float) : Option ℚ :=
  match x.toModel.unpack with
  | .zero _ => some 0
  | .finite s m e _ => some (s.apply m * 2 ^ e)
  | _ => none

/-- A rational number cut toward zero. -/
def towardZero (q : ℚ) : ℤ := if q < 0 then ⌈q⌉ else ⌊q⌋

namespace Exact

/-- The rational number that an exact value stands for. -/
def toRat (v : Exact) : ℚ := (if v.negative then -(v.mantissa : ℚ) else v.mantissa) * 2 ^ v.exponent

theorem floor_magnitude (v : Exact) : ⌊(v.mantissa : ℚ) * 2 ^ v.exponent⌋ = v.floor := by
  unfold floor
  split_ifs with hexp
  · obtain ⟨k, hk⟩ := Int.eq_ofNat_of_zero_le hexp
    rw [hk, zpow_natCast, Int.toNat_natCast]
    have hcast : ((v.mantissa * 2 ^ k : ℕ) : ℚ) = (v.mantissa : ℚ) * 2 ^ k := by push_cast; rfl
    rw [← hcast, Int.floor_natCast]
    rfl
  · obtain ⟨k, hk⟩ : ∃ k : ℕ, v.exponent = -k := ⟨(-v.exponent).toNat, by omega⟩
    rw [hk, neg_neg, Int.toNat_natCast, zpow_neg, zpow_natCast, ← div_eq_mul_inv]
    have hcast : ((2 ^ k : ℕ) : ℚ) = 2 ^ k := by push_cast; rfl
    rw [← hcast, Rat.floor_natCast_div_natCast]
    rfl

/-- The integer part of an exact value is its rational number cut toward zero. -/
theorem towardZero_toRat (v : Exact) : towardZero v.toRat = v.truncate := by
  have hfloor := v.floor_magnitude
  have hpow : (0 : ℚ) < 2 ^ v.exponent := zpow_pos (by norm_num) _
  have hnonneg : 0 ≤ (v.mantissa : ℚ) * 2 ^ v.exponent := by positivity
  unfold towardZero toRat truncate
  cases v.negative with
  | false =>
    simp only [Bool.false_eq_true, if_false]
    rw [if_neg (not_lt.2 hnonneg), hfloor]
  | true =>
    simp only [if_true, neg_mul]
    split_ifs with hneg
    · rw [Int.ceil_neg, hfloor]
    · have hzero : (v.mantissa : ℚ) * 2 ^ v.exponent = 0 := by linarith
      rw [hzero, Int.floor_zero] at hfloor
      rw [hzero, neg_zero, Int.floor_zero, ← hfloor, neg_zero]

/-- A value that stands for an integer is integral. -/
theorem isIntegral_of_toRat {v : Exact} {n : ℤ} (h : v.toRat = n) : v.isIntegral = true := by
  unfold isIntegral
  split_ifs with hexp
  · rfl
  · obtain ⟨k, hk⟩ : ∃ k : ℕ, v.exponent = -k := ⟨(-v.exponent).toNat, by omega⟩
    have hcancel : (2 : ℚ) ^ (-(k : ℤ)) * 2 ^ k = 1 := by
      rw [zpow_neg, zpow_natCast]
      exact inv_mul_cancel₀ (by positivity)
    have hmantissa : ((if v.negative then -(v.mantissa : ℤ) else v.mantissa : ℤ) : ℚ) = ((n * 2 ^ k : ℤ) : ℚ) := by
      push_cast
      rw [← h, toRat, hk, mul_assoc, hcancel, mul_one]
    have hdvd : (2 ^ k : ℤ) ∣ v.mantissa := by
      have hinteger := Int.cast_injective hmantissa
      split_ifs at hinteger
      · exact ⟨-n, by linarith⟩
      · exact ⟨n, by linarith⟩
    rw [decide_eq_true_eq, hk, neg_neg, Int.toNat_natCast]
    exact Nat.mod_eq_zero_of_dvd (by exact_mod_cast hdvd)

end Exact

theorem rational?_eq (x : Float) : rational? x = (Exact.ofFloat? x).map Exact.toRat := by
  rw [rational?, ofFloat?_eq_unpack]
  cases x.toModel.unpack with
  | zero s => simp [Exact.ofUnpacked?, Exact.toRat]
  | finite s m e hm => cases s <;> simp [Exact.ofUnpacked?, Exact.toRat, Sign.apply]
  | _ => rfl

/-- The integer part of a double is the double cut toward zero. -/
theorem truncate?_of_rational? {x : Float} {q : ℚ} (h : rational? x = some q) :
    truncate? x = some (towardZero q) := by
  rw [rational?_eq] at h
  obtain ⟨v, hv, rfl⟩ := Option.map_eq_some_iff.1 h
  rw [truncate?, hv, Option.map_some, v.towardZero_toRat]

theorem towardZero_intCast (n : ℤ) : towardZero (n : ℚ) = n := by
  unfold towardZero
  split_ifs
  · exact Int.ceil_intCast n
  · exact Int.floor_intCast n

/-- A double that is an integer as a rational number is integral. -/
theorem integer?_of_rational? {x : Float} {n : ℤ} (h : rational? x = some (n : ℚ)) : integer? x = some n := by
  have htruncate := truncate?_of_rational? h
  rw [rational?_eq] at h
  obtain ⟨v, hv, hn⟩ := Option.map_eq_some_iff.1 h
  rw [truncate?, hv, Option.map_some, towardZero_intCast] at htruncate
  rw [integer?, hv]
  simp only [Exact.isIntegral_of_toRat hn, if_true]
  exact htruncate

end PlayerScript.Number
