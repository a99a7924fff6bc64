import CallExpr.Proofs.Rounding
import CallExpr.Value.Basic
import Mathlib

/-!
# Integers as doubles

* `Double.Denotes`: the number that a double stands for, if it is zero or not too small.
* `Double.Denotes.beq_iff`: doubles are equal just if they stand for the same number.
* `Double.Denotes.unpack_pack`: such a double fits into 64 bits.
* `Double.denotes_round`: long mantissas are rounded as `Rounding.dropBits` does it.
* `Double.denotes_ofInt`: an integer becomes the double for `Rounding.nearest`.
-/

namespace CallExpr

open Float.Model (Format UnpackedFloat)
open Float.Model.UnpackedFloat (Sign ExtendedMantissa packComponents unpackSign)
open Rounding

namespace Double

/-! ## Numbers of doubles -/

/-- A number with a sign. -/
def signed : Sign → ℚ → ℚ
  | .negative, q => -q
  | .positive, q => q

/-- The double stands for this number: it is a zero, or its mantissa is full and it is at least one. -/
inductive Denotes : UnpackedFloat → ℚ → Prop
  | zero (s : Sign) : Denotes (.zero s) 0
  | normal (s : Sign) {m : Nat} {e : Int} (hm : 0 < m) (hlow : 2 ^ 52 ≤ m) (hhigh : m < 2 ^ 53) (hmin : -52 ≤ e)
    (hmax : e ≤ 971) : Denotes (.finite s m e hm) (signed s (m * 2 ^ e))

variable {u v : UnpackedFloat} {p q : ℚ} {s : Sign} {m m' n k : Nat} {e e' : Int}

theorem mul_two_zpow_lt (hhigh : m < 2 ^ 53) (hlow : 2 ^ 52 ≤ m') (h : e < e') : (m : ℚ) * 2 ^ e < m' * 2 ^ e' := by
  have hm : (m : ℚ) < 2 ^ 53 := by exact_mod_cast hhigh
  have hm' : (2 ^ 52 : ℚ) ≤ m' := by exact_mod_cast hlow
  calc (m : ℚ) * 2 ^ e < 2 ^ 53 * 2 ^ e := mul_lt_mul_of_pos_right hm (zpow_pos two_pos e)
    _ = 2 ^ 52 * 2 ^ (e + 1) := by rw [zpow_add_one₀ two_ne_zero]; ring
    _ ≤ 2 ^ 52 * 2 ^ e' := mul_le_mul_of_nonneg_left (zpow_le_zpow_right₀ one_le_two h) (by norm_num)
    _ ≤ m' * 2 ^ e' := mul_le_mul_of_nonneg_right hm' (zpow_pos two_pos e').le

/-- A number has one full mantissa. -/
theorem mul_two_zpow_inj (hlow : 2 ^ 52 ≤ m) (hhigh : m < 2 ^ 53) (hlow' : 2 ^ 52 ≤ m') (hhigh' : m' < 2 ^ 53) :
    (m : ℚ) * 2 ^ e = m' * 2 ^ e' ↔ e = e' ∧ m = m' := by
  constructor
  · intro h
    rcases lt_trichotomy e e' with hlt | rfl | hlt
    · exact absurd h (mul_two_zpow_lt hhigh hlow' hlt).ne
    · exact ⟨rfl, by exact_mod_cast mul_right_cancel₀ (zpow_ne_zero e two_ne_zero) h⟩
    · exact absurd h (mul_two_zpow_lt hhigh' hlow hlt).ne'
  · rintro ⟨rfl, rfl⟩
    rfl

theorem mul_two_zpow_pos (hm : 0 < m) (e : Int) : (0 : ℚ) < m * 2 ^ e :=
  mul_pos (Nat.cast_pos.mpr hm) (zpow_pos two_pos e)

/-- **Doubles are equal** just if they stand for the same number. -/
theorem Denotes.beq_iff (h : Denotes u p) (h' : Denotes v q) : u.beq v = true ↔ p = q := by
  cases h with
  | zero s =>
    cases h' with
    | zero s' => exact iff_of_true rfl rfl
    | @normal s' m e hm =>
      have hpos := mul_two_zpow_pos hm e
      cases s' with
      | negative => exact iff_of_false Bool.false_ne_true (neg_neg_of_pos hpos).ne'
      | positive => exact iff_of_false Bool.false_ne_true hpos.ne
  | @normal s m e hm hlow hhigh =>
    have hpos := mul_two_zpow_pos hm e
    cases h' with
    | zero s' =>
      cases s with
      | negative => exact iff_of_false Bool.false_ne_true (neg_neg_of_pos hpos).ne
      | positive => exact iff_of_false Bool.false_ne_true hpos.ne'
    | @normal s' m' e' hm' hlow' hhigh' =>
      have hpos' := mul_two_zpow_pos hm' e'
      have hsame : (compare e e').then (compare m m') = .eq ↔ (m : ℚ) * 2 ^ e = m' * 2 ^ e' := by
        rw [Ordering.then_eq_eq, Int.compare_eq_eq, Nat.compare_eq_eq, mul_two_zpow_inj hlow hhigh hlow' hhigh']
      cases s <;> cases s'
      · simp [UnpackedFloat.beq, UnpackedFloat.compare, signed, ← hsame]
      · exact iff_of_false Bool.false_ne_true ((neg_neg_of_pos hpos).trans hpos').ne
      · exact iff_of_false Bool.false_ne_true ((neg_neg_of_pos hpos').trans hpos).ne'
      · simp [UnpackedFloat.beq, UnpackedFloat.compare, signed, ← hsame]

theorem Denotes.neg (h : Denotes u q) : Denotes u.neg (-q) := by
  cases h with
  | zero s =>
    rw [neg_zero]
    exact .zero (-s)
  | normal s hm hlow hhigh hmin hmax =>
    cases s with
    | negative =>
      rw [signed, neg_neg]
      exact .normal .positive hm hlow hhigh hmin hmax
    | positive => exact .normal .negative hm hlow hhigh hmin hmax

/-! ## Storing a double -/

theorem unpackSign_packComponents (format : Format) (s : Sign) (exponent : BitVec format.exponentBits)
    (mantissa : BitVec format.mantissaBitsWithoutImplicit) :
    unpackSign (packComponents format s exponent mantissa) = s.toBitVec := by
  ext i hi
  obtain rfl : i = 0 := by omega
  simp [unpackSign, packComponents, BitVec.getLsbD_append, BitVec.getElem_append]

theorem ofBitVec_toBitVec (s : Sign) : Sign.ofBitVec s.toBitVec = s := by
  cases s <;> rfl

/-- The first bit of a full mantissa is not stored. -/
theorem toNat_one_append (hlow : 2 ^ 52 ≤ m) (hhigh : m < 2 ^ 53) : (1#1 ++ BitVec.ofNat 52 m).toNat = m := by
  have hrest : (BitVec.ofNat 52 m).toNat = m - 2 ^ 52 := by
    rw [BitVec.toNat_ofNat]
    omega
  rw [BitVec.toNat_append, ← Nat.shiftLeft_add_eq_or_of_lt (BitVec.isLt _), hrest, Nat.shiftLeft_eq]
  change 1 * 2 ^ 52 + (m - 2 ^ 52) = m
  omega

/-- **A double with a full mantissa fits into 64 bits.** -/
theorem Denotes.unpack_pack (h : Denotes u q) : (Float.Model.pack u).unpack = u := by
  cases h with
  | zero s => cases s <;> rfl
  | @normal s m e hm hlow hhigh hmin hmax =>
    have hlog : m.log2 = 52 := (Nat.log2_eq_iff (Nat.ne_of_gt hm)).mpr ⟨hlow, hhigh⟩
    obtain ⟨b, rfl⟩ : ∃ b : Nat, e = b - 1075 := ⟨(e + 1075).toNat, by omega⟩
    have hbiased : ((b : Int) - 1075 + Format.binary64.exponentBias + (52 : Nat)).toNat = b := by
      change ((b : Int) - 1075 + (1023 : Nat) + (52 : Nat)).toNat = b
      omega
    have hexponent : (BitVec.ofNat 11 b).toNat = b := by
      rw [BitVec.toNat_ofNat]
      omega
    have hpack : UnpackedFloat.pack .binary64 (.finite s m (b - 1075) hm) =
        packComponents .binary64 s (.ofNat 11 b) (.ofNat 52 m) := by
      rw [UnpackedFloat.pack]
      simp only [hlog, hbiased]
      rw [if_neg (by omega), if_pos (show 52 + 1 = Format.binary64.mantissaBits from rfl)]
    have hfinite : BitVec.ofNat 11 b ≠ -1#11 := by
      intro heq
      have hb : b = 2047 := hexponent.symm.trans (congrArg BitVec.toNat heq)
      omega
    have hnormal : BitVec.ofNat 11 b ≠ 0#11 := by
      intro heq
      have hb : b = 0 := hexponent.symm.trans (congrArg BitVec.toNat heq)
      omega
    change UnpackedFloat.unpack .binary64 (UnpackedFloat.pack .binary64 _) = _
    rw [hpack, UnpackedFloat.unpack]
    simp only [UnpackedFloat.unpackMantissa_packComponents,
      UnpackedFloat.unpackExponent_packComponents, unpackSign_packComponents, ofBitVec_toBitVec]
    rw [if_neg hfinite, if_neg hnormal]
    simp only [hexponent, toNat_one_append hlow hhigh]
    rfl

/-! ## Rounding a mantissa -/

/-- `n` without its last `k` bits. Two more bits compare those with one half of a place, and with none and a half. -/
structure Shifted (n k : Nat) (em : ExtendedMantissa) : Prop where
  mantissa : em.mantissa = n / 2 ^ k
  roundBit : em.roundBit = true ↔ 2 ^ k ≤ 2 * (n % 2 ^ k)
  stickyBit : em.stickyBit = true ↔ 2 * (n % 2 ^ k) ≠ 0 ∧ 2 * (n % 2 ^ k) ≠ 2 ^ k

theorem shifted_zero (n : Nat) : Shifted n 0 ⟨n, false, false⟩ where
  mantissa := by simp
  roundBit := by simp [Nat.mod_one]
  stickyBit := by simp [Nat.mod_one]

/-- One more bit is dropped. -/
theorem Shifted.shiftRightOne {em : ExtendedMantissa} (h : Shifted n k em) : Shifted n (k + 1) em.shiftRightOne := by
  obtain ⟨hmantissa, hround, hsticky⟩ := h
  have hdiv : n / 2 ^ (k + 1) = n / 2 ^ k / 2 := by rw [Nat.pow_succ, Nat.div_div_eq_div_mul]
  have hmod : n % 2 ^ (k + 1) = n % 2 ^ k + 2 ^ k * (n / 2 ^ k % 2) := by rw [Nat.pow_succ, Nat.mod_mul]
  have hlt : n % 2 ^ k < 2 ^ k := Nat.mod_lt n (Nat.two_pow_pos k)
  have hpow : 2 ^ (k + 1) = 2 * 2 ^ k := Nat.pow_succ'
  refine ⟨?_, ?_, ?_⟩
  · rw [hdiv, ← hmantissa]
    rfl
  · rw [hmod, hpow]
    simp only [ExtendedMantissa.shiftRightOne, hmantissa, bne_iff_ne]
    rcases Nat.mod_two_eq_zero_or_one (n / 2 ^ k) with hbit | hbit <;> rw [hbit] <;> omega
  · rw [hmod, hpow]
    simp only [ExtendedMantissa.shiftRightOne, Bool.or_eq_true, hround, hsticky]
    rcases Nat.mod_two_eq_zero_or_one (n / 2 ^ k) with hbit | hbit <;> rw [hbit] <;> omega

theorem shifted_repeat (n k : Nat) : Shifted n k (k.repeat ExtendedMantissa.shiftRightOne ⟨n, false, false⟩) := by
  induction k with
  | zero => exact shifted_zero n
  | succ k ih => exact ih.shiftRightOne

/-- The two bits are enough to round. -/
theorem Shifted.roundedMantissa {em : ExtendedMantissa} (h : Shifted n k em) : em.roundedMantissa = dropBits n k := by
  obtain ⟨mantissa, roundBit, stickyBit⟩ := em
  obtain ⟨rfl, hround, hsticky⟩ := h
  have hlt : n % 2 ^ k < 2 ^ k := Nat.mod_lt n (Nat.two_pow_pos k)
  unfold dropBits
  cases roundBit <;> cases stickyBit <;> simp only [Bool.false_eq_true, false_iff, true_iff] at hround hsticky <;>
    simp only [ExtendedMantissa.roundedMantissa, ExtendedMantissa.accuracy,
      Float.Model.UnpackedFloat.Accuracy.roundToNearestEven] <;> split <;> omega

/-- A mantissa is shifted until 53 bits are left. -/
theorem shiftToTargetExponent_eq (m : Nat) (he : -1074 ≤ e) :
    UnpackedFloat.shiftToTargetExponent .binary64 m e .exact =
      ((surplus m).repeat ExtendedMantissa.shiftRightOne ⟨m, false, false⟩, e + surplus m) := by
  have hshift : (Format.binary64.targetExponent (Float.Model.totalExponent m e) - e).toNat = surplus m := by
    change (max ((m.log2 : Int) + 1 + e - (53 : Nat)) (-1074) - e).toNat = m.log2 - 52
    omega
  rw [UnpackedFloat.shiftToTargetExponent, UnpackedFloat.shiftToExponent, hshift]
  rfl

/-- A mantissa is shifted again after it was rounded, since it may be too long then. -/
theorem roundWithAccuracy_eq {em em' : ExtendedMantissa} {r : Nat} {e₁ e₂ : Int}
    (hfirst : UnpackedFloat.shiftToTargetExponent .binary64 m e .exact = (em, e₁)) (hround : em.roundedMantissa = r)
    (hagain : UnpackedFloat.shiftToTargetExponent .binary64 r e₁ .exact = (em', e₂)) (hpos : 0 < em'.mantissa) :
    UnpackedFloat.roundWithAccuracy .binary64 s m e .exact = .finite s em'.mantissa e₂ hpos := by
  simp only [UnpackedFloat.roundWithAccuracy, hfirst, hround, hagain]
  exact dif_neg (Nat.ne_of_gt hpos)

/-- **A long mantissa is rounded to the nearest.** -/
theorem denotes_round (s : Sign) (hm : 52 ≤ m.log2) (he : -1074 ≤ e) (hmin : 0 ≤ m.log2 + e)
    (hmax : m.log2 + e < 1000) : Denotes (UnpackedFloat.roundWithAccuracy .binary64 s m e .exact)
      (signed s (nearestNat m * 2 ^ e)) := by
  have hfirst := shiftToTargetExponent_eq m he
  have hround := (shifted_repeat m (surplus m)).roundedMantissa
  have hagain := shiftToTargetExponent_eq (dropBits m (surplus m)) (show -1074 ≤ e + surplus m by omega)
  obtain ⟨hlow, hhigh⟩ := dropBits_surplus hm
  have hq : (nearestNat m : ℚ) * 2 ^ e = dropBits m (surplus m) * 2 ^ (e + surplus m) := by
    rw [nearestNat, zpow_add₀ two_ne_zero, zpow_natCast]
    push_cast
    ring
  rw [hq]
  generalize dropBits m (surplus m) = r at *
  obtain ⟨hsurplus, hlow', hhigh', hvalue⟩ := div_two_pow_surplus hlow hhigh
  have hdropped := (shifted_repeat r (surplus r)).mantissa
  generalize (surplus r).repeat ExtendedMantissa.shiftRightOne ⟨r, false, false⟩ = em at *
  rw [← hdropped] at hlow' hhigh' hvalue
  have hpos : 0 < em.mantissa := by omega
  have hq' : (r : ℚ) * 2 ^ (e + surplus m) = em.mantissa * 2 ^ (e + surplus m + surplus r) := by
    rw [zpow_add₀ two_ne_zero (e + surplus m), zpow_natCast]
    nth_rewrite 1 [← hvalue]
    push_cast
    ring
  have hexponent : e + surplus m = e + m.log2 - 52 := by
    unfold surplus
    omega
  rw [roundWithAccuracy_eq hfirst hround hagain hpos, hq']
  exact .normal s hpos hlow' hhigh' (by omega) (by omega)

/-- A full mantissa stays as it is. -/
theorem roundWithAccuracy_full (s : Sign) (hpos : 0 < m) (hhigh : m < 2 ^ 53) (he : -1074 ≤ e) :
    UnpackedFloat.roundWithAccuracy .binary64 s m e .exact = .finite s m e hpos := by
  have hfirst := shiftToTargetExponent_eq m he
  rw [surplus_of_lt hhigh, Int.natCast_zero, Int.add_zero] at hfirst
  exact roundWithAccuracy_eq hfirst rfl hfirst hpos

/-! ## Integers -/

/-- A number is rounded, however many zeros are at the end of its mantissa. -/
theorem denotes_round_mul (s : Sign) {j : Nat} (hn : n ≠ 0) (hlow : 52 ≤ n.log2 + j) (hhigh : n.log2 < 1000)
    (hj : j ≤ 1074) : Denotes (UnpackedFloat.roundWithAccuracy .binary64 s (n * 2 ^ j) (-j) .exact)
      (signed s (nearestNat n)) := by
  have hlog := log2_mul_two_pow hn j
  have hround := denotes_round (e := -j) s (hlog ▸ hlow) (by omega) (by omega) (by omega)
  have hq : (nearestNat (n * 2 ^ j) : ℚ) * 2 ^ (-j : Int) = nearestNat n := by
    rw [nearestNat_mul_two_pow, zpow_neg, zpow_natCast]
    push_cast
    exact mul_inv_cancel_right₀ (pow_ne_zero j two_ne_zero) _
  rwa [hq] at hround

/-- The double for one. -/
def one : UnpackedFloat :=
  .finite .positive (2 ^ 52) (-52) (Nat.two_pow_pos 52)

/-- A number of 53 bits becomes a double with a full mantissa. -/
theorem ofNat_eq (hzero : n ≠ 0) (hn : n < 2 ^ 53) (hpos : 0 < n * 2 ^ (52 - n.log2)) :
    UnpackedFloat.ofNat .binary64 n = .finite .positive (n * 2 ^ (52 - n.log2)) (-(52 - n.log2 : Nat)) hpos := by
  have hgt : compare (n : Int) 0 = .gt := Int.compare_eq_gt.mpr (by omega)
  have hshift : (0 - Format.binary64.targetExponent (Float.Model.totalExponent n 0)).toNat = 52 - n.log2 := by
    change (0 - max ((n.log2 : Int) + 1 + 0 - (53 : Nat)) (-1074)).toNat = 52 - n.log2
    have hlog := (Nat.log2_lt hzero).mpr hn
    omega
  rw [UnpackedFloat.ofNat, UnpackedFloat.ofInt, UnpackedFloat.normalize, hgt]
  simp only [UnpackedFloat.round, UnpackedFloat.decreaseExponent, Int.toNat_natCast, hshift, Nat.shiftLeft_eq]
  rw [Int.zero_sub]
  exact roundWithAccuracy_full .positive hpos (full_mul_two_pow hzero hn).2 (by omega)

/-- A number of 53 bits keeps its value. -/
theorem denotes_ofNat_mul_one (hn : n < 2 ^ 53) :
    Denotes (UnpackedFloat.mul .binary64 (Float.Model.pack (UnpackedFloat.ofNat .binary64 n)).unpack one) n := by
  by_cases hzero : n = 0
  · rw [hzero, Nat.cast_zero]
    exact .zero .positive
  · have hlog := (Nat.log2_lt hzero).mpr hn
    obtain ⟨hlow, hhigh⟩ := full_mul_two_pow hzero hn
    have hpos : 0 < n * 2 ^ (52 - n.log2) := by omega
    have hden := Denotes.normal .positive (e := -(52 - n.log2 : Nat)) hpos hlow hhigh (by omega) (by omega)
    have hround := denotes_round_mul (j := 52 - n.log2 + 52) .positive hzero (by omega) (by omega) (by omega)
    rw [nearestNat_of_le (Nat.le_of_lt hn), Nat.pow_add, ← Nat.mul_assoc, Int.natCast_add, Int.neg_add] at hround
    rw [ofNat_eq hzero hn hpos, hden.unpack_pack]
    exact hround

/-- The numbers of more bits. They are given with zeros at the end. -/
theorem denotes_ofScientific (hlow : 2 ^ 53 ≤ n) (hhigh : n < 2 ^ 64) :
    Denotes (UnpackedFloat.ofScientific .binary64 n 0) (nearestNat n) := by
  have hzero : n ≠ 0 := by omega
  have hlog : n.log2 < 64 := (Nat.log2_lt hzero).mpr hhigh
  have hmantissa : n <<< 53 * 10 ^ (0 : Int).toNat = n * 2 ^ 53 := by
    rw [Nat.shiftLeft_eq]
    exact Nat.mul_one _
  have hround := denotes_round_mul (j := 53) .positive hzero (by omega) (by omega) (by decide)
  rw [← hmantissa] at hround
  rw [UnpackedFloat.ofScientific, dif_neg hzero, if_neg (by decide), if_neg (not_lt.mpr ?_), if_pos le_rfl]
  · exact hround
  · change -((2 ^ 11 : Int) + n.log2) ≤ 0
    omega

theorem denotes_ofNat (hn : n < 2 ^ 64) : Denotes (Float.ofNat n).toModel.unpack (nearestNat n) := by
  change Denotes (Float.ofScientific n false 0).toModel.unpack (nearestNat n)
  by_cases hsmall : n < 2 ^ 53
  · have hden := denotes_ofNat_mul_one hsmall
    have hmod : n.toUInt64.toNat = n := UInt64.toNat_ofNat_of_lt hn
    have hone : (getElem Float.exactlyRepresentablePowersOfTen 0 (by decide)).toModel.unpack = one := rfl
    rw [Float.ofScientific, dif_pos ⟨hsmall, by decide⟩]
    change Denotes (Float.Model.pack (UnpackedFloat.mul .binary64 (Float.Model.pack
      (UnpackedFloat.ofNat .binary64 n.toUInt64.toNat)).unpack
      (getElem Float.exactlyRepresentablePowersOfTen 0 (by decide)).toModel.unpack)).unpack (nearestNat n)
    rw [hone]
    rwa [hmod, hden.unpack_pack, nearestNat_of_le (Nat.le_of_lt hsmall)]
  · have hden := denotes_ofScientific (Nat.le_of_not_lt hsmall) hn
    rw [Float.ofScientific, dif_neg fun h => hsmall h.1]
    change Denotes (Float.Model.pack (UnpackedFloat.ofScientific .binary64 n 0)).unpack (nearestNat n)
    rwa [hden.unpack_pack]

/-- **An integer becomes the nearest double.** -/
theorem denotes_ofInt {n : Int} (hn : n.natAbs < 2 ^ 64) : Denotes (Float.ofInt n).toModel.unpack (nearest n) := by
  cases n with
  | ofNat n => exact denotes_ofNat hn
  | negSucc n =>
    have hneg := (denotes_ofNat (n := n + 1) hn).neg
    have hcast : ((nearest (.negSucc n) : Int) : ℚ) = -(nearestNat (n + 1) : ℚ) := by
      rw [nearest, Int.cast_neg, Int.cast_natCast]
    change Denotes (Float.Model.pack (Float.ofNat (n + 1)).toModel.unpack.neg).unpack _
    rwa [hneg.unpack_pack, hcast]

/-- **Integers become equal doubles** just if the nearest integers with 53 significant bits are equal. -/
theorem floatOfInt64_beq_iff (a b : Int64) :
    (floatOfInt64 a == floatOfInt64 b) = true ↔ nearest a.toInt = nearest b.toInt := by
  have hbound : ∀ n : Int64, n.toInt.natAbs < 2 ^ 64 := fun n => by
    have hlow := n.le_toInt
    have hhigh := n.toInt_lt
    omega
  rw [← Int.cast_inj (α := ℚ)]
  exact (denotes_ofInt (hbound a)).beq_iff (denotes_ofInt (hbound b))

end Double

end CallExpr
