/-
Whole numbers as doubles. A natural number below `2 ^ 53` is a double exactly, a larger one is
rounded to a double that is not smaller than `2 ^ 53`; so the remainder of a small whole number is
the whole remainder, whatever it is divided by.
-/
import PlayerScript.Proofs.Number.Comparable
import PlayerScript.Proofs.Number.Expansion

namespace PlayerScript.Number

open Float.Model Float.Model.UnpackedFloat

/-! ## Normal doubles -/

theorem unpack_normal (s : Sign) {m : Nat} {e : Int} (hm : 0 < m) (hlog : m.log2 = 52) (hlo : -1074 ≤ e)
    (hhi : e ≤ 971) : (Float.Model.pack (.finite s m e hm)).unpack = .finite s m e hm := by
  obtain ⟨hmlo, hmhi⟩ := (Nat.log2_eq_iff hm.ne').1 hlog
  show UnpackedFloat.unpack Format.binary64 (UnpackedFloat.pack Format.binary64 _) = _
  have hpack : UnpackedFloat.pack Format.binary64 (.finite s m e hm) =
      packComponents Format.binary64 s (BitVec.ofNat 11 (e + 1075).toNat) (BitVec.ofNat 52 m) := by
    unfold UnpackedFloat.pack
    have hbias : Format.binary64.exponentBias = 1023 := rfl
    have hbits : Format.binary64.mantissaBits = 53 := rfl
    simp only [hbias, hbits, hlog]
    rw [if_neg (by omega), if_pos trivial]
    congr 2
    omega
  have hexp : (BitVec.ofNat 11 (e + 1075).toNat).toNat = (e + 1075).toNat := by
    rw [BitVec.toNat_ofNat]
    omega
  rw [hpack, UnpackedFloat.unpack]
  simp only [unpackExponent_packComponents, unpackMantissa_packComponents,
    unpackSign_packComponents, Sign.ofBitVec_toBitVec]
  rw [if_neg, if_neg]
  · have hmantissa : (1#1 ++ BitVec.ofNat 52 m).toNat = m := by
      rw [BitVec.toNat_append, BitVec.toNat_ofNat, ← Nat.shiftLeft_add_eq_or_of_lt (by omega),
        Nat.shiftLeft_eq]
      show 1 * 2 ^ 52 + m % 2 ^ 52 = m
      omega
    have hvalue : ((BitVec.ofNat 11 (e + 1075).toNat).toNat : Int) -
        ((Format.binary64.exponentBias : Int) + (Format.binary64.mantissaBitsWithoutImplicit : Int)) =
          e := by
      rw [hexp]
      show ((e + 1075).toNat : Int) - (1023 + 52) = e
      omega
    congr 1
  · intro h
    have hnat := congrArg BitVec.toNat h
    have hzero : (0#11).toNat = 0 := rfl
    rw [hexp, hzero] at hnat
    omega
  · intro h
    have hnat := congrArg BitVec.toNat h
    have hones : (-1#11).toNat = 2047 := rfl
    rw [hexp, hones] at hnat
    omega

/-- The exact value of a packed normal double, which is infinite if its exponent is too large. -/
theorem ofFloat?_pack {m : Nat} {e : Int} (hm : 0 < m) (hlog : m.log2 = 52) (hlo : -1074 ≤ e) :
    Exact.ofFloat? (Float.ofModel (Float.Model.pack (.finite .positive m e hm))) =
      if e ≤ 971 then some ⟨false, m, e⟩ else none := by
  split_ifs with hhi
  · rw [ofFloat?_eq_unpack]
    exact congrArg Exact.ofUnpacked? (unpack_normal .positive hm hlog hlo hhi)
  · have hpack : UnpackedFloat.pack Format.binary64 (.finite .positive m e hm) =
        packedInfinity Format.binary64 .positive := by
      unfold UnpackedFloat.pack
      have hbias : Format.binary64.exponentBias = 1023 := rfl
      simp only [hbias]
      rw [if_pos (by omega)]
    show Exact.ofBits? (UnpackedFloat.pack Format.binary64 (.finite .positive m e hm)).toNat = _
    rw [hpack]
    rfl

/-! ## Small whole numbers -/

/-- How far a whole number is moved up to fill the mantissa of a double. Zero fills none and has the
least exponent. -/
def lift (n : Nat) : Nat := if n = 0 then 1074 else 52 - n.log2

theorem lift_pos {n : Nat} (hpos : 0 < n) : lift n = 52 - n.log2 := if_neg hpos.ne'

/-- The exact value of the double that a whole number is. -/
def Exact.ofNat (n : Nat) : Exact := ⟨false, n * 2 ^ lift n, -lift n⟩

section
variable {n : Nat} (hpos : 0 < n) (hn : n < 2 ^ 53)
include hpos hn

theorem log2_lift : (n * 2 ^ lift n).log2 = 52 := by
  have hlog : n.log2 < 53 := (Nat.log2_lt hpos.ne').2 hn
  rw [log2_mul_two_pow hpos.ne', lift_pos hpos]
  omega

theorem canonical_lift : Canonical (n * 2 ^ lift n) (-lift n) := by
  refine ⟨Nat.mul_pos hpos (Nat.two_pow_pos _), ?_⟩
  rw [targetExponent_eq, totalExponent, log2_lift hpos hn, lift_pos hpos]
  omega

theorem ofUInt64_small : UnpackedFloat.ofUInt64 Format.binary64 n.toUInt64 =
    .finite .positive (n * 2 ^ lift n) (-lift n) (canonical_lift hpos hn).pos := by
  have hlog : n.log2 < 53 := (Nat.log2_lt hpos.ne').2 hn
  have hnat : n.toUInt64.toNat = n := by
    rw [Nat.toUInt64, UInt64.toNat_ofNat']
    omega
  have htarget : Format.binary64.targetExponent (totalExponent n 0) = -lift n := by
    rw [targetExponent_eq, totalExponent, lift_pos hpos]
    omega
  unfold UnpackedFloat.ofUInt64 UnpackedFloat.ofNat UnpackedFloat.ofInt UnpackedFloat.normalize
  rw [hnat, Int.compare_eq_gt.2 (by omega)]
  simp only [Int.toNat_natCast, UnpackedFloat.round, decreaseExponent, htarget,
    Nat.shiftLeft_eq, zero_sub]
  simpa using round_exact (canonical_lift hpos hn) .positive 0

theorem ofNat_eq_pack : Float.ofNat n = Float.ofModel (Float.Model.pack
    (.finite .positive (n * 2 ^ lift n) (-lift n) (canonical_lift hpos hn).pos)) := by
  have hone : (Float.exactlyRepresentablePowersOfTen[0]).toModel.unpack =
      .finite .positive (2 ^ 52) (-52) (by decide) := rfl
  have hunpack := unpack_normal .positive (canonical_lift hpos hn).pos (log2_lift hpos hn)
    (show -1074 ≤ -(lift n : Int) by rw [lift_pos hpos]; omega) (by omega)
  show Float.ofScientific n false 0 = _
  unfold Float.ofScientific
  rw [dif_pos ⟨hn, by omega⟩]
  show Float.ofModel (Float.Model.pack (UnpackedFloat.mul Format.binary64
    (Float.Model.pack (UnpackedFloat.ofUInt64 Format.binary64 n.toUInt64)).unpack
    (Float.exactlyRepresentablePowersOfTen[0]).toModel.unpack)) = _
  rw [ofUInt64_small hpos hn, hunpack, hone]
  have hround := round_exact (canonical_lift hpos hn) .positive 52
  show Float.ofModel (Float.Model.pack (roundWithAccuracy Format.binary64 .positive
    (n * 2 ^ lift n * 2 ^ 52) (-(lift n : Int) + -52) .exact)) = _
  rw [← hround]
  rfl

end

/-- The unpacked double of a natural number below `2 ^ 53`, with a sign. -/
def signedUnpacked (s : Sign) (n : Nat) : UnpackedFloat :=
  if h : n = 0 then .zero s
  else .finite s (n * 2 ^ lift n) (-lift n) (Nat.mul_pos (Nat.pos_of_ne_zero h) (Nat.two_pow_pos _))

theorem signedUnpacked_zero (s : Sign) : signedUnpacked s 0 = .zero s := rfl

theorem signedUnpacked_pos (s : Sign) {n : Nat} (hpos : 0 < n) : signedUnpacked s n =
    .finite s (n * 2 ^ lift n) (-lift n) (Nat.mul_pos hpos (Nat.two_pow_pos _)) := dif_neg hpos.ne'

/-- A natural number below `2 ^ 53` is kept by packing. -/
theorem unpack_pack_signedUnpacked (s : Sign) {n : Nat} (hn : n < 2 ^ 53) :
    (Float.Model.pack (signedUnpacked s n)).unpack = signedUnpacked s n := by
  rcases Nat.eq_zero_or_pos n with rfl | hpos
  · exact unpack_packedZero
  · rw [signedUnpacked_pos s hpos]
    exact unpack_normal s _ (log2_lift hpos hn) (by rw [lift_pos hpos]; omega) (by omega)

theorem unpack_ofNat {n : Nat} (hn : n < 2 ^ 53) :
    (Float.ofNat n).toModel.unpack = signedUnpacked .positive n := by
  rcases Nat.eq_zero_or_pos n with rfl | hpos
  · rfl
  · rw [ofNat_eq_pack hpos hn, ← signedUnpacked_pos .positive hpos]
    exact unpack_pack_signedUnpacked .positive hn

/-- A natural number below `2 ^ 53` is a double exactly. -/
theorem ofFloat?_ofNat {n : Nat} (hn : n < 2 ^ 53) :
    Exact.ofFloat? (Float.ofNat n) = some (Exact.ofNat n) := by
  rcases Nat.eq_zero_or_pos n with rfl | hpos
  · rw [Exact.ofNat, Nat.zero_mul]
    rfl
  · rw [ofNat_eq_pack hpos hn, ofFloat?_pack _ (log2_lift hpos hn) (by rw [lift_pos hpos]; omega),
      if_pos (by omega), Exact.ofNat]

theorem Exact.isIntegral_ofNat (n : Nat) : (Exact.ofNat n).isIntegral = true := by
  unfold Exact.ofNat Exact.isIntegral
  split_ifs
  · rfl
  · dsimp only
    rw [neg_neg, Int.toNat_natCast]
    exact decide_eq_true (Nat.mul_mod_left _ _)

theorem Exact.floor_ofNat (n : Nat) : (Exact.ofNat n).floor = n := by
  unfold Exact.ofNat Exact.floor
  dsimp only
  split_ifs with hexp
  · have hl : lift n = 0 := by omega
    simp [hl]
  · rw [neg_neg, Int.toNat_natCast]
    exact Nat.mul_div_cancel _ (Nat.two_pow_pos _)

theorem Exact.truncate_ofNat (n : Nat) : (Exact.ofNat n).truncate = n := by
  rw [Exact.truncate, Exact.floor_ofNat]
  rfl

theorem integer?_ofNat {n : Nat} (hn : n < 2 ^ 53) : integer? (Float.ofNat n) = some (n : Int) := by
  rw [integer?, ofFloat?_ofNat hn]
  simp only [Exact.isIntegral_ofNat, Exact.truncate_ofNat, if_true]

theorem truncate?_ofNat {n : Nat} (hn : n < 2 ^ 53) :
    truncate? (Float.ofNat n) = some (n : Int) := by
  rw [truncate?, ofFloat?_ofNat hn, Option.map_some, Exact.truncate_ofNat]

/-! ## Large whole numbers -/

theorem mantissa_shiftRight (em : ExtendedMantissa) (k : Nat) :
    (em >>> k).mantissa = em.mantissa / 2 ^ k := by
  show (Nat.repeat ExtendedMantissa.shiftRightOne k em).mantissa = _
  induction k with
  | zero => simp [Nat.repeat]
  | succ k ih =>
    rw [Nat.repeat, pow_succ, ← Nat.div_div_eq_div_mul, ← ih]
    rfl

theorem roundedMantissa_bounds (em : ExtendedMantissa) :
    em.mantissa ≤ em.roundedMantissa ∧ em.roundedMantissa ≤ em.mantissa + 1 := by
  obtain ⟨m, r, s⟩ := em
  have hmod : m % 2 < 2 := Nat.mod_lt _ (by norm_num)
  cases r <;> cases s <;>
    simp only [ExtendedMantissa.roundedMantissa, ExtendedMantissa.accuracy,
      Accuracy.roundToNearestEven] <;> omega

/-- A mantissa of 53 or 54 bits is shifted to one of 53. -/
theorem shiftToTarget_rounded {r : Nat} {e : Int} (hlo : 2 ^ 52 ≤ r) (hhi : r ≤ 2 ^ 53)
    (he : 1 ≤ e) : ∃ m e', (shiftToTargetExponent Format.binary64 r e .exact).1.mantissa = m ∧
      (shiftToTargetExponent Format.binary64 r e .exact).2 = e' ∧ m.log2 = 52 ∧ 0 < m ∧ 1 ≤ e' := by
  have hr : r ≠ 0 := by omega
  have hlog : r.log2 = 52 ∨ r = 2 ^ 53 := by
    rcases Nat.lt_or_eq_of_le hhi with h | h
    · exact .inl ((Nat.log2_eq_iff hr).2 ⟨hlo, h⟩)
    · exact .inr h
  refine ⟨_, _, rfl, rfl, ?_⟩
  unfold shiftToTargetExponent shiftToExponent
  simp only [mantissa_shiftRight, targetExponent_eq, totalExponent,
    ExtendedMantissa.ofMantissaAndAccuracy]
  rcases hlog with hlog | rfl
  · have hshift : (max (((r.log2 : Int) + 1 + e) - 53) (-1074) - e).toNat = 0 := by omega
    simp only [hshift, pow_zero, Nat.div_one, Nat.cast_zero, add_zero]
    exact ⟨hlog, by omega, he⟩
  · have hlog : (2 ^ 53 : Nat).log2 = 53 := Nat.log2_two_pow
    have hshift : (max ((((2 ^ 53 : Nat).log2 : Int) + 1 + e) - 53) (-1074) - e).toNat = 1 := by omega
    simp only [hshift]
    exact ⟨by decide, by norm_num, by omega⟩

theorem round_large {n : Nat} (hn : 2 ^ 53 ≤ n) : ∃ m e, ∃ hm : 0 < m,
    roundWithAccuracy Format.binary64 .positive (n * 2 ^ 53) (-53) .exact =
      .finite .positive m e hm ∧ m.log2 = 52 ∧ 1 ≤ e := by
  have hn0 : n ≠ 0 := by omega
  have hlog : 53 ≤ n.log2 := (Nat.le_log2 hn0).2 hn
  have htarget : Format.binary64.targetExponent (totalExponent (n * 2 ^ 53) (-53)) =
      (n.log2 : Int) - 52 := by
    rw [targetExponent_eq, totalExponent, log2_mul_two_pow hn0]
    omega
  -- the first 53 bits of the number
  have hfirst : 2 ^ 52 ≤ n * 2 ^ 53 / 2 ^ (n.log2 + 1) ∧ n * 2 ^ 53 / 2 ^ (n.log2 + 1) < 2 ^ 53 := by
    constructor
    · rw [Nat.le_div_iff_mul_le (Nat.two_pow_pos _)]
      calc 2 ^ 52 * 2 ^ (n.log2 + 1) = 2 ^ n.log2 * 2 ^ 53 := by rw [← pow_add, ← pow_add]; congr 1; omega
        _ ≤ n * 2 ^ 53 := Nat.mul_le_mul_right _ (Nat.log2_self_le hn0)
    · rw [Nat.div_lt_iff_lt_mul (Nat.two_pow_pos _), mul_comm (2 ^ 53)]
      exact Nat.mul_lt_mul_of_pos_right Nat.lt_log2_self (Nat.two_pow_pos _)
  have hshift : ((n.log2 : Int) - 52 - -53).toNat = n.log2 + 1 := by omega
  unfold roundWithAccuracy
  rw [show shiftToTargetExponent Format.binary64 (n * 2 ^ 53) (-53) .exact =
    (ExtendedMantissa.ofMantissaAndAccuracy (n * 2 ^ 53) .exact >>> (n.log2 + 1),
      (n.log2 : Int) - 52) by
    rw [shiftToTargetExponent, shiftToExponent, htarget]
    simp only [hshift]
    congr 1
    omega]
  simp only
  generalize hem : ExtendedMantissa.ofMantissaAndAccuracy (n * 2 ^ 53) .exact >>> (n.log2 + 1) = em
  have hmantissa : em.mantissa = n * 2 ^ 53 / 2 ^ (n.log2 + 1) := by
    rw [← hem, mantissa_shiftRight]
    rfl
  obtain ⟨hrlo, hrhi⟩ := roundedMantissa_bounds em
  obtain ⟨m, e, hm, he, hmlog, hmpos, he1⟩ := shiftToTarget_rounded (r := em.roundedMantissa)
    (e := (n.log2 : Int) - 52) (by omega) (by omega) (by omega)
  refine ⟨m, e, hmpos, ?_, hmlog, he1⟩
  subst hm he
  rw [dif_neg hmpos.ne']

theorem ofNat_large {n : Nat} (hn : 2 ^ 53 ≤ n) : ∃ m e, ∃ hm : 0 < m,
    Float.ofNat n = Float.ofModel (Float.Model.pack (.finite .positive m e hm)) ∧
      m.log2 = 52 ∧ 1 ≤ e := by
  obtain ⟨m, e, hm, hround, hlog, he⟩ := round_large hn
  refine ⟨m, e, hm, ?_, hlog, he⟩
  rw [← hround]
  show Float.ofScientific n false 0 = _
  unfold Float.ofScientific
  rw [dif_neg (by omega)]
  show Float.ofModel (Float.Model.pack (UnpackedFloat.ofScientific Format.binary64 n 0)) = _
  unfold UnpackedFloat.ofScientific
  have hlow : ¬ (0 : Int) < -(2 ^ Format.binary64.exponentBits + (n.log2 : Int)) := by
    have hpow : (0 : Int) ≤ 2 ^ Format.binary64.exponentBits := by positivity
    omega
  rw [dif_neg (by omega), if_neg (by norm_num), if_neg hlow, if_pos le_rfl]
  show Float.ofModel (Float.Model.pack (roundWithAccuracy Format.binary64 .positive
    (n <<< 53 * 1) (-53 + 0) .exact)) = _
  rw [Nat.shiftLeft_eq, mul_one, add_zero]

/-! ## Remainders -/

/-- A whole number with a sign and a mantissa of at most 53 bits, however it is scaled, is that number as a
double. -/
theorem unpack_scaled (negative : Bool) {n j : Nat} (hn : n * 2 ^ j < 2 ^ 53) :
    (⟨negative, n * 2 ^ j, -j⟩ : Exact).toFloat.toModel.unpack =
      signedUnpacked (if negative then .negative else .positive) n := by
  rcases Nat.eq_zero_or_pos n with rfl | hpos
  · have hbits : Exact.toBits ⟨negative, 0, -j⟩ = if negative then 2 ^ 63 else 0 := by
      cases negative <;> simp [Exact.toBits]
    rw [Nat.zero_mul, Exact.toFloat, hbits]
    cases negative <;> rfl
  · have hsmall : n < 2 ^ 53 := lt_of_le_of_lt (Nat.le_mul_of_pos_right _ (Nat.two_pow_pos j)) hn
    have hlog : n.log2 + j < 53 := by
      rw [← log2_mul_two_pow hpos.ne']
      exact (Nat.log2_lt (Nat.mul_pos hpos (Nat.two_pow_pos j)).ne').2 hn
    have hcanonical := canonical_lift hpos hsmall
    have hlift := lift_pos hpos
    obtain ⟨hlo, hhi⟩ := (Nat.log2_eq_iff hcanonical.pos.ne').1 (log2_lift hpos hsmall)
    have hbits : (UInt64.ofNat (Exact.toBits ⟨negative, n * 2 ^ j, -j⟩)).toBitVec.toNat =
        (if negative then 2 ^ 63 else 0) + ((1075 - lift n) * 2 ^ 52 + n * 2 ^ lift n % 2 ^ 52) := by
      have hshift : min (52 - (n * 2 ^ j).log2) (-(j : Int) + 1074).toNat = lift n - j := by
        rw [log2_mul_two_pow hpos.ne']
        omega
      have hmantissa : n * 2 ^ j * Nat.pow 2 (lift n - j) = n * 2 ^ lift n := by
        show n * 2 ^ j * 2 ^ (lift n - j) = _
        rw [mul_assoc, ← pow_add]
        congr 2
        omega
      have hexp : (-(j : Int) - ((lift n - j : Nat) : Int) + 1075).toNat = 1075 - lift n := by omega
      have h52 : Nat.pow 2 52 = 2 ^ 52 := rfl
      have h63 : Nat.pow 2 63 = 2 ^ 63 := rfl
      rw [UInt64.toNat_toBitVec, UInt64.toNat_ofNat']
      unfold Exact.toBits
      simp only [hshift, hmantissa, hexp, h52, h63]
      rw [if_neg (Nat.mul_pos hpos (Nat.two_pow_pos j)).ne', if_neg (not_lt.2 hlo)]
      split_ifs <;> omega
    have hread : Exact.ofBits? (UInt64.ofNat (Exact.toBits ⟨negative, n * 2 ^ j, -j⟩)).toBitVec.toNat =
        some ⟨negative, n * 2 ^ lift n, -lift n⟩ := by
      rw [hbits, ofBits?_eq]
      cases negative
      all_goals
        simp only [Bool.false_eq_true, if_false, if_true]
        rw [if_neg (by omega), if_neg (by omega)]
        congr 2
        · simp only [decide_eq_false_iff_not, decide_eq_true_eq]
          omega
        · omega
        · omega
    rw [Exact.toFloat, unpack_ofBits, unpack_of_ofBits? hread, signedUnpacked_pos _ hpos]
    exact dif_pos hcanonical.pos

theorem toFloat_scaled {n j : Nat} (hn : n * 2 ^ j < 2 ^ 53) :
    (⟨false, n * 2 ^ j, -j⟩ : Exact).toFloat = Float.ofNat n := by
  have hsmall : n < 2 ^ 53 := lt_of_le_of_lt (Nat.le_mul_of_pos_right _ (Nat.two_pow_pos j)) hn
  have hunpack := (unpack_scaled false hn).trans (unpack_ofNat hsmall).symm
  rw [← ofModel_pack_unpack (Exact.toFloat _), hunpack, ofModel_pack_unpack]

theorem mantissa_ofNat {n : Nat} (hn : n < 2 ^ 53) : n * 2 ^ lift n < 2 ^ 53 := by
  rcases Nat.eq_zero_or_pos n with rfl | hpos
  · rw [Nat.zero_mul]
    norm_num
  · exact (Nat.log2_lt (canonical_lift hpos hn).pos.ne').1 (by rw [log2_lift hpos hn]; omega)

theorem IsNumber.isNaN {x : Float} (h : IsNumber x) : x.isNaN = false := by
  show x.toModel.unpack.isNaN = false
  unfold IsNumber at h
  cases hx : x.toModel.unpack with
  | notANumber => exact absurd hx h
  | _ => rfl

/-- The mantissa of an integral value at an exponent that is not above its own and not above zero. -/
theorem Exact.mantissaAt_of_isIntegral {v : Exact} (h : v.isIntegral = true) {k : Nat}
    (hk : -(k : Int) ≤ v.exponent) : v.mantissaAt (-k) = v.floor * 2 ^ k := by
  unfold Exact.isIntegral at h
  unfold Exact.mantissaAt Exact.floor
  show v.mantissa * 2 ^ (v.exponent - -(k : Int)).toNat = _
  split_ifs at h ⊢ with hexp
  · show _ = v.mantissa * 2 ^ v.exponent.toNat * 2 ^ k
    rw [mul_assoc, ← pow_add]
    congr 2
    omega
  · rw [decide_eq_true_eq] at h
    have hdiv := Nat.div_mul_cancel (Nat.dvd_of_mod_eq_zero h)
    have hpow : 2 ^ k = Nat.pow 2 (-v.exponent).toNat * 2 ^ (v.exponent - -(k : Int)).toNat := by
      show 2 ^ k = 2 ^ _ * _
      rw [← pow_add]
      congr 1
      omega
    rw [hpow, ← mul_assoc, hdiv]

/-- An integral value and a whole number are scaled to one exponent, at which they divide as integers do. The
remainder has no more bits than the one of the two whose exponent that is. -/
theorem Exact.remainder_of_isIntegral {u : Exact} (hintegral : u.isIntegral = true) (hu : u.mantissa < 2 ^ 53)
    {d : Nat} (hd : 0 < d) (hsmall : d < 2 ^ 53) : ∃ k : Nat,
      Exact.remainder u (Exact.ofNat d) = ⟨u.negative, u.floor % d * 2 ^ k, -k⟩ ∧
        u.floor % d * 2 ^ k < 2 ^ 53 := by
  obtain ⟨k, hk⟩ : ∃ k : Nat, min u.exponent (-(lift d : Int)) = -k :=
    ⟨(-min u.exponent (-(lift d : Int))).toNat, by omega⟩
  have hdividend : u.mantissaAt (-k) = u.floor * 2 ^ k := Exact.mantissaAt_of_isIntegral hintegral (by omega)
  have hdivisor : (Exact.ofNat d).mantissaAt (-k) = d * 2 ^ k := by
    have hexp : -(k : Int) ≤ (Exact.ofNat d).exponent := by
      show -(k : Int) ≤ -(lift d : Int)
      omega
    rw [Exact.mantissaAt_of_isIntegral (Exact.isIntegral_ofNat d) hexp, Exact.floor_ofNat]
  refine ⟨k, ?_, ?_⟩
  · show (⟨u.negative, u.mantissaAt (min u.exponent (-(lift d : Int))) %
      (Exact.ofNat d).mantissaAt (min u.exponent (-(lift d : Int))), min u.exponent (-(lift d : Int))⟩ : Exact) = _
    rw [hk, hdividend, hdivisor, Nat.mul_mod_mul_right]
  · rcases le_total u.exponent (-(lift d : Int)) with h | h
    · have hself : u.mantissaAt (-k) = u.mantissa := by
        rw [← hk, min_eq_left h, Exact.mantissaAt, sub_self]
        exact mul_one _
      calc u.floor % d * 2 ^ k ≤ u.floor * 2 ^ k := Nat.mul_le_mul_right _ (Nat.mod_le _ _)
        _ = u.mantissa := hdividend.symm.trans hself
        _ < 2 ^ 53 := hu
    · have hlift : k = lift d := by omega
      rw [hlift]
      exact lt_of_le_of_lt (Nat.mul_le_mul_right _ (Nat.mod_lt _ hd).le) (mantissa_ofNat hsmall)

theorem remainder_small {n d : Nat} (hn : n < 2 ^ 53) (hd : 0 < d) (hsmall : d < 2 ^ 53) :
    remainder (Float.ofNat n) (Float.ofNat d) = Float.ofNat (n % d) := by
  obtain ⟨k, hrem, hbound⟩ :=
    Exact.remainder_of_isIntegral (Exact.isIntegral_ofNat n) (mantissa_ofNat hn) hd hsmall
  have hzero : (Exact.ofNat d).mantissa ≠ 0 := (Nat.mul_pos hd (Nat.two_pow_pos _)).ne'
  rw [Exact.floor_ofNat] at hrem hbound
  rw [remainder, ofFloat?_ofNat hn, ofFloat?_ofNat hsmall]
  simp only [hzero, if_false, hrem]
  exact toFloat_scaled hbound

theorem remainder_large {n d : Nat} (hn : n < 2 ^ 53) (hlarge : 2 ^ 53 ≤ d) :
    remainder (Float.ofNat n) (Float.ofNat d) = Float.ofNat n := by
  obtain ⟨m, e, hm, hfloat, hlog, he⟩ := ofNat_large hlarge
  have hlo : 2 ^ 52 ≤ m := ((Nat.log2_eq_iff hm.ne').1 hlog).1
  have hvalue := ofFloat?_pack hm hlog (show -1074 ≤ e by omega)
  have hnan : (Float.ofNat d).isNaN = false := by
    rw [hfloat]
    exact (isNumber_pack (by simp)).isNaN
  rw [← hfloat] at hvalue
  rw [remainder, ofFloat?_ofNat hn, hvalue]
  by_cases hhi : e ≤ 971
  · -- the divisor is larger at the exponent of the dividend, so that all of it is left
    have hexp : min (-(lift n : Int)) e = -lift n := by omega
    have hbelow : n * 2 ^ lift n < m * 2 ^ (e - -(lift n : Int)).toNat := by
      calc n * 2 ^ lift n < 2 ^ 53 := mantissa_ofNat hn
        _ = 2 ^ 52 * 2 ^ 1 := by norm_num
        _ ≤ m * 2 ^ (e - -(lift n : Int)).toNat :=
          Nat.mul_le_mul hlo (Nat.pow_le_pow_right (by norm_num) (by omega))
    have hrem : Exact.remainder (Exact.ofNat n) ⟨false, m, e⟩ = Exact.ofNat n := by
      unfold Exact.remainder
      show (⟨false, n * 2 ^ lift n * 2 ^ (-(lift n : Int) - min (-(lift n : Int)) e).toNat %
        (m * 2 ^ (e - min (-(lift n : Int)) e).toNat), min (-(lift n : Int)) e⟩ : Exact) = _
      rw [hexp, sub_self, Int.toNat_zero, pow_zero, mul_one, Nat.mod_eq_of_lt hbelow]
      rfl
    rw [if_pos hhi]
    simp only [hm.ne', if_false, hrem]
    exact toFloat_scaled (mantissa_ofNat hn)
  · rw [if_neg hhi]
    simp only [hnan, Bool.false_eq_true, if_false]

theorem remainder_ofNat {n d : Nat} (hn : n < 2 ^ 53) (hd : 0 < d) :
    remainder (Float.ofNat n) (Float.ofNat d) = Float.ofNat (n % d) := by
  rcases Nat.lt_or_ge d (2 ^ 53) with h | h
  · exact remainder_small hn hd h
  · rw [remainder_large hn h, Nat.mod_eq_of_lt (lt_of_lt_of_le hn h)]

end PlayerScript.Number
