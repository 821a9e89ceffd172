/-
Numbers that equal themselves: every double but NaN. What is read from a decimal numeral is never
NaN, and neither is its negation.
-/
import Mathlib
import PlayerScript.Number.Numeral

namespace PlayerScript.Number

open Float.Model Float.Model.UnpackedFloat

/-- A double is a number. -/
def IsNumber (x : Float) : Prop := x.toModel.unpack ≠ .notANumber

theorem IsNumber.beq_self {x : Float} (h : IsNumber x) : (x == x) = true :=
  (beq_iff_ne_notANumber_and_eq x.toModel.unpack x.toModel.unpack).2 ⟨h, h, .inl rfl⟩

/-! ## Packing -/

theorem unpack_components_ne {s : Sign} {e : BitVec 11} {m : BitVec 52} (h : e ≠ -1#11 ∨ m = 0#52) :
    UnpackedFloat.unpack Format.binary64 (packComponents Format.binary64 s e m) ≠ .notANumber := by
  unfold UnpackedFloat.unpack
  simp only [unpackExponent_packComponents, unpackMantissa_packComponents]
  split_ifs with he hm hz hm'
  · simp
  · rcases h with h | h
    · exact absurd he h
    · exact absurd h hm
  · simp
  · simp
  · simp

/-- A number is still one when it is packed. -/
theorem unpack_pack_ne {u : UnpackedFloat} (h : u ≠ .notANumber) :
    (Float.Model.pack u).unpack ≠ .notANumber := by
  show UnpackedFloat.unpack Format.binary64 (UnpackedFloat.pack Format.binary64 u) ≠ .notANumber
  cases u with
  | notANumber => exact absurd rfl h
  | infinity s => exact unpack_components_ne (.inr rfl)
  | zero s => exact unpack_components_ne (.inr rfl)
  | finite s m e hm =>
    unfold UnpackedFloat.pack
    dsimp only
    split_ifs with hlarge hnormal
    · exact unpack_components_ne (.inr rfl)
    · refine unpack_components_ne (.inl ?_)
      intro heq
      have hnat := congrArg BitVec.toNat heq
      rw [BitVec.toNat_ofNat] at hnat
      have hones : (-1#11).toNat = 2047 := rfl
      rw [hones] at hnat
      omega
    · exact unpack_components_ne (.inl (by decide))

theorem isNumber_pack {u : UnpackedFloat} (h : u ≠ .notANumber) :
    IsNumber (Float.ofModel (Float.Model.pack u)) := unpack_pack_ne h

/-! ## Arithmetic -/

theorem round_ne (s : Sign) (m : Nat) (e : Int) (a : Accuracy) :
    roundWithAccuracy Format.binary64 s m e a ≠ .notANumber := by
  unfold roundWithAccuracy
  dsimp only
  split_ifs <;> simp

theorem mul_finite_ne {u : UnpackedFloat} (hu : u ≠ .notANumber) (s : Sign) {m : Nat} (e : Int)
    (hm : 0 < m) : UnpackedFloat.mul Format.binary64 u (.finite s m e hm) ≠ .notANumber := by
  cases u with
  | notANumber => exact absurd rfl hu
  | infinity _ => simp [UnpackedFloat.mul]
  | zero _ => simp [UnpackedFloat.mul]
  | finite _ _ _ _ => exact round_ne _ _ _ _

theorem div_finite_ne {u : UnpackedFloat} (hu : u ≠ .notANumber) (s : Sign) {m : Nat} (e : Int)
    (hm : 0 < m) : UnpackedFloat.div Format.binary64 u (.finite s m e hm) ≠ .notANumber := by
  cases u with
  | notANumber => exact absurd rfl hu
  | infinity _ => simp [UnpackedFloat.div]
  | zero _ => simp [UnpackedFloat.div]
  | finite _ _ _ _ => exact round_ne _ _ _ _

theorem IsNumber.neg {x : Float} (h : IsNumber x) : IsNumber (-x) := by
  refine isNumber_pack ?_
  unfold IsNumber at h
  cases hx : x.toModel.unpack with
  | notANumber => exact absurd hx h
  | _ => simp [UnpackedFloat.neg]

/-! ## Numerals -/

/-- Whether an unpacked double is finite and not zero. -/
def isRegular : UnpackedFloat → Bool
  | .finite .. => true
  | _ => false

theorem powersOfTen_regular : ∀ x ∈ Float.exactlyRepresentablePowersOfTen,
    ∃ s m e hm, x.toModel.unpack = .finite s m e hm := by
  have hall : ∀ x ∈ Float.exactlyRepresentablePowersOfTen.toList, isRegular x.toModel.unpack = true := by
    decide
  intro x hx
  have hregular := hall x (Array.mem_toList_iff.2 hx)
  cases hu : x.toModel.unpack with
  | finite s m e hm => exact ⟨s, m, e, hm, rfl⟩
  | _ => rw [hu] at hregular; cases hregular

theorem ofUInt64_ne (n : UInt64) : UnpackedFloat.ofUInt64 Format.binary64 n ≠ .notANumber := by
  unfold UnpackedFloat.ofUInt64 UnpackedFloat.ofNat UnpackedFloat.ofInt UnpackedFloat.normalize UnpackedFloat.round
  split
  · exact round_ne _ _ _ _
  · simp
  · exact round_ne _ _ _ _

theorem ofScientific_ne (m : Nat) (e : Int) :
    UnpackedFloat.ofScientific Format.binary64 m e ≠ .notANumber := by
  unfold UnpackedFloat.ofScientific
  split_ifs
  · simp
  · simp
  · simp
  · exact round_ne _ _ _ _
  · exact round_ne _ _ _ _

theorem isNumber_ofScientific (m : Nat) (s : Bool) (e : Nat) : IsNumber (Float.ofScientific m s e) := by
  unfold Float.ofScientific
  split_ifs with hsmall hs
  · obtain ⟨_, _, _, _, hpower⟩ := powersOfTen_regular _ (Array.getElem_mem (i := e) _)
    refine isNumber_pack ?_
    rw [hpower]
    exact div_finite_ne (unpack_pack_ne (ofUInt64_ne _)) _ _ _
  · obtain ⟨_, _, _, _, hpower⟩ := powersOfTen_regular _ (Array.getElem_mem (i := e) _)
    refine isNumber_pack ?_
    rw [hpower]
    exact mul_finite_ne (unpack_pack_ne (ofUInt64_ne _)) _ _ _
  · exact isNumber_pack (ofScientific_ne _ _)
  · exact isNumber_pack (ofScientific_ne _ _)

theorem isNumber_toFloat (s : Scientific) : IsNumber s.toFloat := by
  unfold Scientific.toFloat
  have h := isNumber_ofScientific s.mantissa (decide (s.exponent < 0)) s.exponent.natAbs
  split
  · exact h.neg
  · exact h

end PlayerScript.Number
