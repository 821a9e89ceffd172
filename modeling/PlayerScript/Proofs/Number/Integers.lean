/-
Integers as doubles. An integer below `2 ^ 53` in size is a double exactly, zero with either sign. Such
doubles are ordered as the integers are, and their sums and differences are not rounded as long as
they are below that bound too.
-/
import PlayerScript.Proofs.Number.Signs
import PlayerScript.Proofs.Number.Whole

namespace PlayerScript.Number

open Float.Model Float.Model.UnpackedFloat

/-! ## Doubles that are integers -/

/-- A double is an integer, where zero may have either sign. -/
def IsInteger (x : Float) (i : Int) : Prop :=
  ∃ s : Sign, s.apply i.natAbs = i ∧ x.toModel.unpack = signedUnpacked s i.natAbs

theorem neg_signedUnpacked (s : Sign) (n : Nat) : (signedUnpacked s n).neg = signedUnpacked (-s) n := by
  unfold signedUnpacked
  split_ifs <;> rfl

theorem isInteger_ofNat {n : Nat} (hn : n < 2 ^ 53) : IsInteger (Float.ofNat n) n :=
  ⟨.positive, rfl, unpack_ofNat hn⟩

theorem apply_neg (s : Sign) (i : Int) : (-s).apply i = -s.apply i := by
  cases s with
  | negative => exact (neg_neg i).symm
  | positive => rfl

theorem IsInteger.neg {x : Float} {i : Int} (h : IsInteger x i) : IsInteger (-x) (-i) := by
  obtain ⟨s, hs, hx⟩ := h
  refine ⟨-s, ?_, ?_⟩
  · rw [Int.natAbs_neg, apply_neg, hs]
  · rw [unpack_neg, hx, neg_signedUnpacked, Int.natAbs_neg]

theorem isInteger_ofInt {i : Int} (hi : i.natAbs < 2 ^ 53) : IsInteger (Float.ofInt i) i := by
  cases i with
  | ofNat n => exact isInteger_ofNat hi
  | negSucc n => exact (isInteger_ofNat hi).neg

/-! ## Exact values -/

variable {x y : Float} {i j : Int}

theorem ofUnpacked?_signedUnpacked (s : Sign) (n : Nat) :
    Exact.ofUnpacked? (signedUnpacked s n) = some ⟨s == .negative, n * 2 ^ lift n, -lift n⟩ := by
  rcases Nat.eq_zero_or_pos n with rfl | hpos
  · rw [Nat.zero_mul]
    rfl
  · rw [signedUnpacked_pos s hpos]
    rfl

theorem IsInteger.exact (h : IsInteger x i) : ∃ v, Exact.ofFloat? x = some v ∧ v.isIntegral = true ∧
    v.truncate = i := by
  obtain ⟨s, hs, hx⟩ := h
  refine ⟨_, (ofFloat?_eq_unpack x).trans ((congrArg _ hx).trans (ofUnpacked?_signedUnpacked _ _)),
    Exact.isIntegral_ofNat i.natAbs, ?_⟩
  have hfloor := Exact.floor_ofNat i.natAbs
  cases s with
  | negative => exact (congrArg (fun n : Nat => -(n : Int)) hfloor).trans hs
  | positive => exact (congrArg (fun n : Nat => (n : Int)) hfloor).trans hs

theorem IsInteger.truncate? (h : IsInteger x i) : truncate? x = some i := by
  obtain ⟨v, hv, -, htrunc⟩ := h.exact
  rw [Number.truncate?, hv, Option.map_some, htrunc]

/-- An integral value other than zero has the mantissa and the exponent of its integer. -/
theorem Exact.eq_lift {v : Exact} (h : Exact.ofFloat? x = some v) (hintegral : v.isIntegral = true)
    (hm : 0 < v.mantissa) (hsmall : v.floor < 2 ^ 53) :
    0 < v.floor ∧ v.mantissa = v.floor * 2 ^ lift v.floor ∧ v.exponent = -lift v.floor := by
  obtain ⟨hlt, hlow, hshape⟩ := Exact.shape h
  have hat : v.mantissa * 2 ^ (v.exponent - -(1074 : Nat)).toNat = v.floor * 2 ^ 1074 :=
    Exact.mantissaAt_of_isIntegral hintegral hlow
  have hpos : 0 < v.floor := by
    refine Nat.pos_of_ne_zero fun hzero => ?_
    rw [hzero, Nat.zero_mul] at hat
    exact (Nat.mul_pos hm (Nat.two_pow_pos _)).ne' hat
  have hlog := congrArg Nat.log2 hat
  rw [log2_mul_two_pow hm.ne', log2_mul_two_pow hpos.ne'] at hlog
  have hexp : v.exponent = -lift v.floor := by
    have hfloor : v.floor.log2 < 53 := (Nat.log2_lt hpos.ne').2 hsmall
    rcases hshape with hfull | hleast
    · have hfull : v.mantissa.log2 = 52 := (Nat.log2_eq_iff hm.ne').2 ⟨hfull, hlt⟩
      rw [lift_pos hpos]
      omega
    · -- with the least exponent, an integer would need more bits than there are
      have hmantissa : v.mantissa.log2 < 53 := (Nat.log2_lt hm.ne').2 hlt
      omega
  refine ⟨hpos, ?_, hexp⟩
  have hsplit : lift v.floor + (v.exponent - -(1074 : Nat)).toNat = 1074 := by
    have hlift := lift_pos hpos
    omega
  refine Nat.eq_of_mul_eq_mul_right (Nat.two_pow_pos (v.exponent - -(1074 : Nat)).toNat) ?_
  rw [hat, mul_assoc, ← pow_add, hsplit]

/-- A double whose value is an integer below `2 ^ 53` in size is the double of that integer. -/
theorem isInteger_of_integer? (h : Number.integer? x = some i) (hi : i.natAbs < 2 ^ 53) : IsInteger x i := by
  unfold Number.integer? at h
  split at h
  · rename_i v hv
    split_ifs at h with hintegral
    cases h
    have habs : v.truncate.natAbs = v.floor := by
      unfold Exact.truncate
      split_ifs <;> omega
    have hlift := Exact.eq_lift hv hintegral
    rw [ofFloat?_eq_unpack] at hv
    unfold IsInteger
    rw [habs] at hi ⊢
    cases hx : x.toModel.unpack with
    | zero s =>
      rw [hx] at hv
      cases hv
      have hfloor : (⟨s == .negative, 0, -1074⟩ : Exact).floor = 0 := Nat.zero_div _
      exact ⟨s, by cases s <;> rfl, by rw [hfloor, signedUnpacked_zero]⟩
    | finite s m e hm =>
      rw [hx] at hv
      cases hv
      obtain ⟨hpos, hmantissa, hexp⟩ := hlift hm hi
      refine ⟨s, by cases s <;> rfl, ?_⟩
      rw [signedUnpacked_pos s hpos]
      congr 1
    | infinity s => rw [hx] at hv; cases hv
    | notANumber => rw [hx] at hv; cases hv
  · cases h

theorem IsInteger.rational? (h : IsInteger x i) : rational? x = some (i : ℚ) := by
  obtain ⟨s, hs, hx⟩ := h
  rw [Number.rational?, hx]
  rcases Nat.eq_zero_or_pos i.natAbs with hzero | hpos
  · rw [hzero, signedUnpacked_zero, Int.natAbs_eq_zero.1 hzero]
    rfl
  · have hcancel : (2 : ℚ) ^ lift i.natAbs * 2 ^ (-(lift i.natAbs : Int)) = 1 := by
      rw [zpow_neg, zpow_natCast]
      exact mul_inv_cancel₀ (by positivity)
    have happly : (s.apply ((i.natAbs * 2 ^ lift i.natAbs : Nat) : Int) : ℚ) =
        (s.apply i.natAbs : Int) * 2 ^ lift i.natAbs := by
      cases s <;> simp [Sign.apply]
    rw [signedUnpacked_pos s hpos]
    show some ((s.apply ((i.natAbs * 2 ^ lift i.natAbs : Nat) : Int) : ℚ) * 2 ^ (-(lift i.natAbs : Int))) = _
    rw [happly, hs, mul_assoc, hcancel, mul_one]

/-! ## Order -/

/-- Doubles of natural numbers compare by their exponents and then by their mantissas. -/
theorem compare_lift {n k : Nat} (hn : 0 < n) (hk : 0 < k) (hnlt : n < 2 ^ 53) (hklt : k < 2 ^ 53) :
    (compare (-(lift n : Int)) (-(lift k : Int))).then (compare (n * 2 ^ lift n) (k * 2 ^ lift k)) =
      compare (n : Int) (k : Int) := by
  have hnlog : n.log2 < 53 := (Nat.log2_lt hn.ne').2 hnlt
  have hklog : k.log2 < 53 := (Nat.log2_lt hk.ne').2 hklt
  have hless : ∀ {a b : Nat}, b ≠ 0 → a.log2 < b.log2 → a < b := fun {a b} hb hlog =>
    lt_of_lt_of_le Nat.lt_log2_self ((Nat.pow_le_pow_right (by norm_num) hlog).trans (Nat.log2_self_le hb))
  rw [lift_pos hn, lift_pos hk]
  rcases Nat.lt_trichotomy n.log2 k.log2 with hlog | hlog | hlog
  · rw [Int.compare_eq_lt.2 (by omega), Int.compare_eq_lt.2 (Int.ofNat_lt.2 (hless hk.ne' hlog))]
    rfl
  · rw [hlog, Int.compare_eq_eq.2 rfl, Ordering.eq_then]
    have hpow := Nat.two_pow_pos (52 - k.log2)
    rcases Nat.lt_trichotomy n k with h | rfl | h
    · rw [Nat.compare_eq_lt.2 (Nat.mul_lt_mul_of_pos_right h hpow), Int.compare_eq_lt.2 (by omega)]
    · rw [Nat.compare_eq_eq.2 rfl, Int.compare_eq_eq.2 rfl]
    · rw [Nat.compare_eq_gt.2 (Nat.mul_lt_mul_of_pos_right h hpow), Int.compare_eq_gt.2 (by omega)]
  · rw [Int.compare_eq_gt.2 (by omega), Int.compare_eq_gt.2 (Int.ofNat_lt.2 (hless hn.ne' hlog))]
    rfl

/-- Doubles of integers compare as the integers do. -/
theorem compare_signedUnpacked (s t : Sign) {n k : Nat} (hn : n < 2 ^ 53) (hk : k < 2 ^ 53) :
    (signedUnpacked s n).compare (signedUnpacked t k) = some (compare (s.apply n) (t.apply k)) := by
  rcases Nat.eq_zero_or_pos n with rfl | hnpos <;> rcases Nat.eq_zero_or_pos k with rfl | hkpos
  · cases s <;> cases t <;> rfl
  · have hlt : compare (0 : Int) k = .lt := Int.compare_eq_lt.2 (by omega)
    have hgt : compare (0 : Int) (-k) = .gt := Int.compare_eq_gt.2 (by omega)
    rw [signedUnpacked_zero, signedUnpacked_pos t hkpos]
    cases s <;> cases t <;> simp [UnpackedFloat.compare, Sign.apply, hlt, hgt]
  · have hlt : compare (-(n : Int)) 0 = .lt := Int.compare_eq_lt.2 (by omega)
    have hgt : compare (n : Int) 0 = .gt := Int.compare_eq_gt.2 (by omega)
    rw [signedUnpacked_pos s hnpos, signedUnpacked_zero]
    cases s <;> cases t <;> simp [UnpackedFloat.compare, Sign.apply, hlt, hgt]
  · have hlt : compare (-(n : Int)) k = .lt := Int.compare_eq_lt.2 (by omega)
    have hgt : compare (n : Int) (-k) = .gt := Int.compare_eq_gt.2 (by omega)
    have hswap : compare (-(n : Int)) (-k) = (compare (n : Int) k).swap := by
      rw [← Std.OrientedCmp.eq_swap]
      simp [compare, compareOfLessAndEq, eq_comm]
    have hcompare := compare_lift hnpos hkpos hn hk
    rw [signedUnpacked_pos s hnpos, signedUnpacked_pos t hkpos]
    cases s <;> cases t <;> simp only [UnpackedFloat.compare, Sign.apply, hlt, hgt, hswap, hcompare]

section

variable (hx : IsInteger x i) (hy : IsInteger y j) (hi : i.natAbs < 2 ^ 53) (hj : j.natAbs < 2 ^ 53)
include hx hy hi hj

theorem IsInteger.compare : x.toModel.unpack.compare y.toModel.unpack = some (compare i j) := by
  obtain ⟨s, hs, hxs⟩ := hx
  obtain ⟨t, ht, hyt⟩ := hy
  rw [hxs, hyt, compare_signedUnpacked s t hi hj, hs, ht]

theorem IsInteger.beq_iff : (x == y) = true ↔ i = j := by
  show UnpackedFloat.beq x.toModel.unpack y.toModel.unpack = true ↔ i = j
  rw [UnpackedFloat.beq, hx.compare hy hi hj, ← Int.compare_eq_eq]
  cases Ord.compare i j <;> simp

end

/-! ## Sums and differences -/

/-- A natural number below `2 ^ 53` is rounded to itself, however it is scaled. -/
theorem round_scaled (s : Sign) {n : Nat} (hn : n < 2 ^ 53) (hpos : 0 < n) (k : Nat) :
    UnpackedFloat.round Format.binary64 s (n * 2 ^ k) (-k) = signedUnpacked s n := by
  have hlog : n.log2 < 53 := (Nat.log2_lt hpos.ne').2 hn
  have hcanonical := canonical_lift hpos hn
  have htarget : Format.binary64.targetExponent (totalExponent (n * 2 ^ k) (-k)) = -lift n := by
    rw [targetExponent_eq, totalExponent, log2_mul_two_pow hpos.ne', lift_pos hpos]
    omega
  have hround := round_exact hcanonical s (k - lift n)
  rw [signedUnpacked_pos s hpos, ← hround]
  unfold UnpackedFloat.round decreaseExponent
  simp only [htarget, Nat.shiftLeft_eq]
  congr 1
  · rw [mul_assoc, mul_assoc, ← pow_add, ← pow_add]
    congr 2
    omega
  · omega

theorem normalize_apply (s zero : Sign) {n : Nat} (hn : 0 < n) (e : Int) :
    UnpackedFloat.normalize Format.binary64 (s.apply n) e zero =
      UnpackedFloat.round Format.binary64 s n e := by
  unfold UnpackedFloat.normalize
  cases s with
  | negative => simp [Sign.apply, Int.compare_eq_lt.2 (show -(n : Int) < 0 by omega)]
  | positive => simp [Sign.apply, Int.compare_eq_gt.2 (show 0 < (n : Int) by omega)]

theorem apply_mul (s : Sign) (a b : Int) : s.apply (a * b) = s.apply a * b := by
  cases s with
  | negative => exact (neg_mul a b).symm
  | positive => rfl

theorem normalize_scaled (hi : i.natAbs < 2 ^ 53) (k : Nat) : ∃ s : Sign, s.apply i.natAbs = i ∧
    UnpackedFloat.normalize Format.binary64 (i * 2 ^ k) (-k) .positive = signedUnpacked s i.natAbs := by
  rcases Nat.eq_zero_or_pos i.natAbs with hzero | hpos
  · rw [hzero, Int.natAbs_eq_zero.1 hzero, zero_mul]
    exact ⟨.positive, rfl, rfl⟩
  · obtain ⟨s, hs⟩ : ∃ s : Sign, s.apply i.natAbs = i := by
      rcases Int.natAbs_eq i with h | h
      · exact ⟨.positive, h.symm⟩
      · exact ⟨.negative, h.symm⟩
    have hscaled : i * 2 ^ k = s.apply ((i.natAbs * 2 ^ k : Nat) : Int) := by
      push_cast
      rw [apply_mul, ← Int.natCast_natAbs, hs]
    refine ⟨s, hs, ?_⟩
    rw [hscaled, normalize_apply s .positive (Nat.mul_pos hpos (Nat.two_pow_pos k))]
    exact round_scaled s hi hpos k

theorem natAbs_apply (s : Sign) (n : Nat) : (s.apply n).natAbs = n := by
  cases s <;> simp [Sign.apply]

/-- Two natural numbers with signs are brought to one exponent, added, and the sum is not rounded. -/
theorem add_signedUnpacked (s t : Sign) {n k : Nat} (hsum : (s.apply n + t.apply k).natAbs < 2 ^ 53) :
    ∃ u : Sign, u.apply (s.apply n + t.apply k).natAbs = s.apply n + t.apply k ∧
      UnpackedFloat.add Format.binary64 (signedUnpacked s n) (signedUnpacked t k) =
        signedUnpacked u (s.apply n + t.apply k).natAbs := by
  have hzero : ∀ u : Sign, u.apply ((0 : Nat) : Int) = 0 := fun u => by cases u <;> rfl
  rcases Nat.eq_zero_or_pos n with rfl | hn <;> rcases Nat.eq_zero_or_pos k with rfl | hk
  · rw [hzero, hzero]
    exact ⟨if (s == t) = true then s else .positive, hzero _, by cases s <;> cases t <;> rfl⟩
  · rw [hzero, zero_add, natAbs_apply]
    exact ⟨t, rfl, by rw [signedUnpacked_pos t hk]; rfl⟩
  · rw [hzero, add_zero, natAbs_apply]
    exact ⟨s, rfl, by rw [signedUnpacked_pos s hn]; rfl⟩
  · obtain ⟨j, hj⟩ : ∃ j, j = max (lift n) (lift k) := ⟨_, rfl⟩
    have hmin : min (-(lift n : Int)) (-(lift k : Int)) = -j := by omega
    have hscaled : ∀ a, lift a ≤ j → (decreaseExponent (a * 2 ^ lift a) (-lift a) (-j)).1 = a * 2 ^ j := by
      intro a ha
      unfold decreaseExponent
      simp only [Nat.shiftLeft_eq]
      rw [mul_assoc, ← pow_add]
      congr 2
      omega
    obtain ⟨u, hu, hnormal⟩ := normalize_scaled hsum j
    refine ⟨u, hu, ?_⟩
    rw [← hnormal, signedUnpacked_pos s hn, signedUnpacked_pos t hk]
    show UnpackedFloat.normalize Format.binary64
      (s.apply (decreaseExponent (n * 2 ^ lift n) (-lift n) (min (-(lift n : Int)) (-(lift k : Int)))).1 +
        t.apply (decreaseExponent (k * 2 ^ lift k) (-lift k) (min (-(lift n : Int)) (-(lift k : Int)))).1)
      (min (-(lift n : Int)) (-(lift k : Int))) .positive = _
    rw [hmin, hscaled n (by omega), hscaled k (by omega)]
    push_cast
    rw [apply_mul, apply_mul, ← add_mul]

/-- A difference is the sum with the negated number. -/
theorem sub_eq_add_neg_unpacked (a b : UnpackedFloat) :
    UnpackedFloat.sub Format.binary64 a b = UnpackedFloat.add Format.binary64 a b.neg := by
  cases a with
  | notANumber => rfl
  | infinity s => cases b <;> rfl
  | zero s => cases b <;> rfl
  | finite s m e hm =>
    cases b with
    | finite t k f hk =>
      show UnpackedFloat.normalize _ (s.apply _ - t.apply _) _ _ =
        UnpackedFloat.normalize _ (s.apply _ + (-t).apply _) _ _
      rw [apply_neg, ← sub_eq_add_neg]
    | _ => rfl

theorem IsInteger.add (hx : IsInteger x i) (hy : IsInteger y j) (hsum : (i + j).natAbs < 2 ^ 53) : IsInteger (x + y) (i + j) := by
  obtain ⟨s, hs, hxs⟩ := hx
  obtain ⟨t, ht, hyt⟩ := hy
  rw [← hs, ← ht] at hsum ⊢
  obtain ⟨u, hu, hadd⟩ := add_signedUnpacked s t hsum
  refine ⟨u, hu, ?_⟩
  show (Float.Model.pack (UnpackedFloat.add Format.binary64 x.toModel.unpack y.toModel.unpack)).unpack = _
  rw [hxs, hyt, hadd]
  exact unpack_pack_signedUnpacked u hsum

theorem IsInteger.sub (hx : IsInteger x i) (hy : IsInteger y j) (hsum : (i - j).natAbs < 2 ^ 53) :
    IsInteger (x - y) (i - j) := by
  have hsub : (x - y).toModel = (x + -y).toModel := by
    show Float.Model.pack (UnpackedFloat.sub Format.binary64 x.toModel.unpack y.toModel.unpack) =
      Float.Model.pack (UnpackedFloat.add Format.binary64 x.toModel.unpack (-y).toModel.unpack)
    rw [sub_eq_add_neg_unpacked, unpack_neg]
  rw [sub_eq_add_neg] at hsum ⊢
  unfold IsInteger
  rw [hsub]
  exact hx.add hy.neg hsum

end PlayerScript.Number
