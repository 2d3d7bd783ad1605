import Mathlib

namespace PullScript.Binary64

open Float.Model Float.Model.UnpackedFloat

theorem shiftRight_exact (m k : Nat) :
    (⟨m * 2 ^ k, false, false⟩ : ExtendedMantissa) >>> k = ⟨m, false, false⟩ := by
  induction k generalizing m with
  | zero =>
    rw [Nat.pow_zero, Nat.mul_one]
    rfl
  | succ k ih =>
    have hsucc (em : ExtendedMantissa) : em >>> (k + 1) = (em >>> k).shiftRightOne := rfl
    have hpow : m * 2 ^ (k + 1) = m * 2 * 2 ^ k := by
      rw [Nat.pow_succ]
      ring
    rw [hsucc, hpow, ih]
    simp [ExtendedMantissa.shiftRightOne]

theorem log2_mul_two_pow {m : Nat} (hm : 0 < m) (k : Nat) : (m * 2 ^ k).log2 = m.log2 + k := by
  induction k with
  | zero => simp
  | succ k ih =>
    have hne : m * 2 ^ k ≠ 0 := by positivity
    rw [Nat.pow_succ, ← Nat.mul_assoc, Nat.mul_comm _ 2, Nat.log2_two_mul hne, ih]
    omega

theorem targetExponent_eq (m : Nat) (e : Int) :
    Format.binary64.targetExponent (totalExponent m e) = max (m.log2 + e - 52) (-1074) := by
  simp only [Format.targetExponent, totalExponent, Format.mantissaBits, Format.minExponent]
  norm_num
  congr 1
  ring

/-- A mantissa and an exponent in the form that the format asks for, within its range. -/
structure Canonical (m : Nat) (e : Int) : Prop where
  pos : 0 < m
  target : Format.binary64.targetExponent (totalExponent m e) = e
  le : e ≤ 971

namespace Canonical

variable {m : Nat} {e : Int}

theorem roundWithAccuracy_eq (h : Canonical m e) (sign : Sign) (k : Nat) :
    roundWithAccuracy .binary64 sign (m * 2 ^ k) (e - k) .exact = .finite sign m e h.pos := by
  have hshift (j : Nat) : shiftToTargetExponent .binary64 (m * 2 ^ j) (e - j) .exact =
      (⟨m, false, false⟩, e) := by
    have htotal : totalExponent (m * 2 ^ j) (e - j) = totalExponent m e := by
      simp only [totalExponent, log2_mul_two_pow h.pos]
      push_cast
      ring
    have hamount : (e - (e - (j : Int))).toNat = j := by omega
    simp only [shiftToTargetExponent, shiftToExponent, htotal, h.target, hamount,
      ExtendedMantissa.ofMantissaAndAccuracy, shiftRight_exact, Int.sub_add_cancel]
  have hzero := hshift 0
  simp only [Nat.pow_zero, Nat.mul_one, Nat.cast_zero, Int.sub_zero] at hzero
  simp [roundWithAccuracy, hshift k, ExtendedMantissa.roundedMantissa, ExtendedMantissa.accuracy,
    Accuracy.roundToNearestEven, hzero, h.pos.ne']

end Canonical

theorem unpackSign_packComponents {spec : Format} {sign : Sign} {exponent : BitVec spec.exponentBits}
    {mantissa : BitVec spec.mantissaBitsWithoutImplicit} :
    unpackSign (packComponents spec sign exponent mantissa) = sign.toBitVec := by
  ext i hi
  obtain rfl : i = 0 := by omega
  simp [unpackSign, packComponents, BitVec.getLsbD_append, BitVec.getElem_append]

theorem ofBitVec_toBitVec (sign : Sign) : Sign.ofBitVec sign.toBitVec = sign := by
  cases sign <;> rfl

theorem Canonical.unpack_pack {m : Nat} {e : Int} (h : Canonical m e) (sign : Sign) :
    Float.Model.unpack (Float.Model.pack (.finite sign m e h.pos)) = .finite sign m e h.pos := by
  have htarget := h.target
  rw [targetExponent_eq] at htarget
  have hle := h.le
  have hbits : m < 2 ^ 53 := (Nat.log2_lt h.pos.ne').1 (by omega)
  have hpacked : (Float.Model.pack (.finite sign m e h.pos)).toBits.toBitVec =
      UnpackedFloat.pack .binary64 (.finite sign m e h.pos) := rfl
  have hbias : (e + Format.binary64.exponentBias +
      Format.binary64.mantissaBitsWithoutImplicit).toNat = (e + 1075).toNat := by
    simp [Format.exponentBias]
    ring_nf
  have hexp : (BitVec.ofNat 11 (e + 1075).toNat).toNat = (e + 1075).toNat := by
    rw [BitVec.toNat_ofNat, Nat.mod_eq_of_lt (by omega)]
  have hsize : Format.binary64.mantissaBits = 53 := rfl
  rw [Float.Model.unpack, hpacked, UnpackedFloat.pack]
  simp only [hbias, hsize]
  rw [if_neg (by norm_num; omega)]
  by_cases hnormal : m.log2 + 1 = 53
  · have hlow : 2 ^ 52 ≤ m := (Nat.le_log2 h.pos.ne').1 (by omega)
    have hnotTop : BitVec.ofNat 11 (e + 1075).toNat ≠ -1#11 := by
      rw [Ne, ← BitVec.toNat_inj, hexp]
      simp
      omega
    have hnotZero : BitVec.ofNat 11 (e + 1075).toNat ≠ 0#11 := by
      rw [Ne, ← BitVec.toNat_inj, hexp]
      simp
      omega
    have hmant : (1#1 ++ BitVec.ofNat 52 m).toNat = m := by
      rw [BitVec.toNat_append, ← Nat.shiftLeft_add_eq_or_of_lt (BitVec.isLt _), Nat.shiftLeft_eq,
        BitVec.toNat_ofNat, BitVec.toNat_ofNat]
      omega
    rw [if_pos hnormal]
    simp only [UnpackedFloat.unpack, unpackMantissa_packComponents, unpackExponent_packComponents,
      unpackSign_packComponents, ofBitVec_toBitVec, hnotTop, hnotZero, if_false, hmant, hexp]
    congr 1
    simp [Format.exponentBias]
    omega
  · have hsub : e = -1074 := by omega
    have hlow : m < 2 ^ 52 := (Nat.log2_lt h.pos.ne').1 (by omega)
    have hmant : (BitVec.ofNat 52 m).toNat = m := by
      rw [BitVec.toNat_ofNat, Nat.mod_eq_of_lt hlow]
    have hnotZero : BitVec.ofNat 52 m ≠ 0#52 := by
      rw [Ne, ← BitVec.toNat_inj, hmant]
      exact h.pos.ne'
    have hnotTop : (0#11 : BitVec 11) ≠ -1#11 := by decide
    rw [if_neg hnormal]
    simp only [UnpackedFloat.unpack, unpackMantissa_packComponents, unpackExponent_packComponents,
      unpackSign_packComponents, ofBitVec_toBitVec, hnotTop, hnotZero, if_false, if_true, dif_neg,
      not_false_eq_true, hmant]
    congr 1
    simp [Format.exponentBias, hsub]

section Whole

variable {n : Nat}

theorem log2_le_of_lt (hpos : 0 < n) (hlt : n < 2 ^ 53) : n.log2 ≤ 52 :=
  Nat.lt_succ_iff.1 ((Nat.log2_lt hpos.ne').2 hlt)

theorem canonical_whole (hpos : 0 < n) (hlt : n < 2 ^ 53) :
    Canonical (n * 2 ^ (52 - n.log2)) (n.log2 - 52) := by
  have hlog := log2_le_of_lt hpos hlt
  refine ⟨by positivity, ?_, by omega⟩
  rw [targetExponent_eq, log2_mul_two_pow hpos]
  push_cast [hlog]
  omega

theorem ofNat_eq_finite (hpos : 0 < n) (hlt : n < 2 ^ 53) :
    UnpackedFloat.ofNat .binary64 n =
      .finite .positive (n * 2 ^ (52 - n.log2)) (n.log2 - 52) (canonical_whole hpos hlt).pos := by
  have hlog := log2_le_of_lt hpos hlt
  have hround : UnpackedFloat.round .binary64 .positive n 0 = roundWithAccuracy .binary64 .positive
      (n * 2 ^ (52 - n.log2)) (n.log2 - 52) .exact := by
    have hamount : (0 - max ((n.log2 : Int) + 0 - 52) (-1074)).toNat = 52 - n.log2 := by omega
    simp only [UnpackedFloat.round, targetExponent_eq, decreaseExponent, hamount, Nat.shiftLeft_eq]
    congr 1
    omega
  have hexact := (canonical_whole hpos hlt).roundWithAccuracy_eq .positive 0
  rw [Nat.pow_zero, Nat.mul_one, Nat.cast_zero, Int.sub_zero] at hexact
  have hcompare : compare (n : Int) 0 = .gt := by
    rw [compare_gt_iff_gt]
    omega
  rw [UnpackedFloat.ofNat, UnpackedFloat.ofInt, UnpackedFloat.normalize, hcompare]
  simp only [Int.toNat_natCast, hround, hexact]

theorem unpack_one : (Float.ofBits 0x3FF0000000000000).toModel.unpack =
    .finite .positive (2 ^ 52) (-52) (by positivity) := by
  rfl

theorem ofNat_eq_mul (hlt : n < 2 ^ 53) :
    Float.ofNat n = n.toUInt64.toFloat * Float.ofBits 0x3FF0000000000000 := by
  unfold Float.ofNat
  simp only [OfScientific.ofScientific, Float.ofScientific]
  rw [dif_pos ⟨hlt, by omega⟩]
  rfl

theorem unpack_ofNat (hpos : 0 < n) (hlt : n < 2 ^ 53) : (Float.ofNat n).toModel.unpack =
    .finite .positive (n * 2 ^ (52 - n.log2)) (n.log2 - 52) (canonical_whole hpos hlt).pos := by
  have hcanonical := canonical_whole hpos hlt
  have hsize : n.toUInt64.toNat = n := by
    rw [Nat.toUInt64, UInt64.toNat_ofNat', Nat.mod_eq_of_lt (by omega)]
  have hfirst : n.toUInt64.toFloat.toModel.unpack =
      .finite .positive (n * 2 ^ (52 - n.log2)) (n.log2 - 52) hcanonical.pos := by
    change (Float.Model.ofUInt64 n.toUInt64).unpack = _
    rw [Float.Model.ofUInt64, UnpackedFloat.ofUInt64, hsize, ofNat_eq_finite hpos hlt,
      hcanonical.unpack_pack]
  have hmul : Sign.positive * Sign.positive = Sign.positive := rfl
  have hexact := hcanonical.roundWithAccuracy_eq .positive 52
  rw [Nat.cast_ofNat] at hexact
  rw [ofNat_eq_mul hlt]
  change (Float.Model.mul _ _).unpack = _
  rw [Float.Model.mul, hfirst, unpack_one, UnpackedFloat.mul, hmul, ← Int.sub_eq_add_neg, hexact,
    hcanonical.unpack_pack]

theorem toInt_ofNat (hlt : n < 2 ^ 53) (low high : Int) :
    (Float.ofNat n).toModel.unpack.toInt low high = n := by
  by_cases hpos : 0 < n
  · have hlog := log2_le_of_lt hpos hlt
    have hdown : decreaseExponent (n * 2 ^ (52 - n.log2)) ((n.log2 : Int) - 52) 0 =
        (n * 2 ^ (52 - n.log2), (n.log2 : Int) - 52) := by
      have hamount : ((n.log2 : Int) - 52 - 0).toNat = 0 := by omega
      simp only [decreaseExponent, hamount]
      simp
    have hup : (shiftToExponent (n * 2 ^ (52 - n.log2)) ((n.log2 : Int) - 52) .exact 0).1 =
        ⟨n, false, false⟩ := by
      have hamount : (0 - ((n.log2 : Int) - 52)).toNat = 52 - n.log2 := by omega
      simp only [shiftToExponent, hamount, ExtendedMantissa.ofMantissaAndAccuracy, shiftRight_exact]
    rw [unpack_ofNat hpos hlt, UnpackedFloat.toInt, roundToInt, hdown]
    simp only [hup, Sign.apply]
  · obtain rfl : n = 0 := by omega
    rfl

end Whole

theorem toUInt8_ofNat (b : UInt8) : (Float.ofNat b.toNat).toUInt8 = b := by
  have hlt := b.toNat_lt
  change UInt8.ofNatClamp ((Float.ofNat b.toNat).toModel.unpack.toInt 0 (UInt8.size - 1)).toNat = b
  rw [toInt_ofNat (by omega), Int.toNat_natCast, UInt8.ofNatClamp, dif_pos (by omega)]
  simp

theorem toNat_toUInt32_ofNat {n : Nat} (h : n < 2 ^ 32) : (Float.ofNat n).toUInt32.toNat = n := by
  change (UInt32.ofNatClamp
    ((Float.ofNat n).toModel.unpack.toInt 0 (UInt32.size - 1)).toNat).toNat = n
  rw [toInt_ofNat (by omega), Int.toNat_natCast, UInt32.ofNatClamp, dif_pos (by omega)]
  simp

end PullScript.Binary64
