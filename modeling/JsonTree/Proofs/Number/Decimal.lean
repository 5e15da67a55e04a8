import JsonTree.Number.Decimal
import JsonTree.Proofs.Number.Rounding

/-!
# Decimal numbers as doubles

A double is a sign and a magnitude. A decimal number has the magnitude nearest to its value: the cases in which no
power is computed are no exceptions.
-/

namespace JsonTree

open BinaryFormat

/-! ## Signs and magnitudes -/

namespace Double

theorem infinity_lt_signBit : BinaryFormat.double.infinity < BinaryFormat.double.signBit := by decide

theorem magnitude_lt_signBit (d : Double) : d.magnitude < BinaryFormat.double.signBit := Nat.mod_lt _ (by decide)

theorem toNat_ofParts (negative : Bool) {m : Nat} (hm : m < BinaryFormat.double.signBit) :
    (ofParts negative m).bits.toNat = (if negative then BinaryFormat.double.signBit else 0) + m := by
  have hs : BinaryFormat.double.signBit + BinaryFormat.double.signBit = UInt64.size := rfl
  refine UInt64.toNat_ofNat_of_lt' ?_
  split <;> omega

theorem magnitude_ofParts (negative : Bool) {m : Nat} (hm : m < BinaryFormat.double.signBit) :
    (ofParts negative m).magnitude = m := by
  rw [magnitude, toNat_ofParts negative hm]
  cases negative with
  | true => rw [if_pos rfl, Nat.add_mod_left, Nat.mod_eq_of_lt hm]
  | false => rw [if_neg Bool.false_ne_true, Nat.zero_add, Nat.mod_eq_of_lt hm]

theorem isNegative_ofParts (negative : Bool) {m : Nat} (hm : m < BinaryFormat.double.signBit) :
    (ofParts negative m).isNegative = negative := by
  rw [isNegative, toNat_ofParts negative hm]
  cases negative with
  | true => simp
  | false => simpa using hm

@[simp] theorem ofParts_parts (d : Double) : ofParts d.isNegative d.magnitude = d := by
  have hd : d.bits.toNat < BinaryFormat.double.signBit * 2 := d.bits.toNat_lt
  have h := Nat.div_add_mod' d.bits.toNat BinaryFormat.double.signBit
  have hs : (if d.isNegative then BinaryFormat.double.signBit else 0) + d.magnitude = d.bits.toNat := by
    rw [magnitude]
    by_cases hn : BinaryFormat.double.signBit ≤ d.bits.toNat
    · rw [isNegative, if_pos (decide_eq_true hn), Nat.mod_eq_sub_mod hn, Nat.mod_eq_of_lt (by omega)]
      omega
    · rw [isNegative, if_neg (by simpa using hn), Nat.mod_eq_of_lt (by omega), Nat.zero_add]
  rw [ofParts, hs, UInt64.ofNat_toNat]

theorem nearestTo_lt_signBit (x : ℚ) : BinaryFormat.double.nearestTo x < BinaryFormat.double.signBit :=
  Nat.lt_of_le_of_lt (nearestTo_le_infinity x) infinity_lt_signBit

theorem isFinite_ofParts (negative : Bool) {m : Nat} (hm : m < BinaryFormat.double.infinity) :
    (ofParts negative m).isFinite = true := by
  rw [isFinite, magnitude_ofParts negative (Nat.lt_trans hm infinity_lt_signBit), decide_eq_true hm]

theorem isNaN_ofParts_nearestTo (negative : Bool) (x : ℚ) :
    (ofParts negative (BinaryFormat.double.nearestTo x)).isNaN = false := by
  rw [isNaN, magnitude_ofParts negative (nearestTo_lt_signBit x)]
  exact decide_eq_false (Nat.not_lt.2 (nearestTo_le_infinity x))

theorem ofInt_eq (n : Int) : ofInt n = ofParts (n < 0) (BinaryFormat.double.nearestTo n.natAbs) := by
  rw [ofInt, round_eq_nearestTo _ one_pos, Nat.cast_one, div_one]

theorem nearestTo_natAbs_lt {n : Int} (hn : n.natAbs ≤ 2 ^ 64) :
    BinaryFormat.double.nearestTo n.natAbs < BinaryFormat.double.infinity := by
  have hle : (n.natAbs : ℚ) ≤ (2 ^ 64 : Nat) := by exact_mod_cast hn
  exact (nearestTo_mono (Nat.cast_nonneg _) hle).trans_lt (by decide +kernel)

theorem isFinite_ofInt {n : Int} (hn : n.natAbs ≤ 2 ^ 64) : (ofInt n).isFinite = true := by
  rw [ofInt_eq]
  exact isFinite_ofParts _ (nearestTo_natAbs_lt hn)

/-! ## Bounds of finite numbers -/

theorem value_infinity : BinaryFormat.double.value BinaryFormat.double.infinity = 2 ^ (1024 : Int) := by
  have hs : BinaryFormat.double.significand BinaryFormat.double.infinity = 2 ^ 52 := by decide
  have he : BinaryFormat.double.exponent BinaryFormat.double.infinity = 972 := by decide
  rw [value, hs, he, Nat.cast_pow, Nat.cast_two, ← zpow_natCast, ← zpow_add₀ two_ne_zero]
  rfl

theorem lt_of_nearestTo_lt {x : ℚ} (h : BinaryFormat.double.nearestTo x < BinaryFormat.double.infinity) :
    x < 2 ^ (1024 : Int) := by
  rw [← value_infinity]
  refine lt_of_not_ge fun hle => ?_
  rw [nearestTo_eq_infinity hle] at h
  exact Nat.lt_irrefl _ h

theorem nearestTo_eq_zero_of_le {x : ℚ} (hx : 0 ≤ x) (h : x ≤ 2 ^ (-1075 : Int)) :
    BinaryFormat.double.nearestTo x = 0 := by
  have he : BinaryFormat.double.leastExponent - 1 = -1075 := by decide
  refine nearestTo_eq_zero hx ?_
  rwa [he]

theorem lt_of_nearestTo_pos {x : ℚ} (hx : 0 ≤ x) (h : 0 < BinaryFormat.double.nearestTo x) :
    2 ^ (-1075 : Int) < x := by
  refine lt_of_not_ge fun hle => ?_
  rw [nearestTo_eq_zero_of_le hx hle] at h
  exact Nat.lt_irrefl _ h

end Double

/-! ## Decimal numbers -/

namespace Decimal

/-- The absolute value. -/
def value (d : Decimal) : ℚ := d.coefficient * 10 ^ d.exponent

theorem ratio_snd_pos (d : Decimal) : 0 < d.ratio.2 := Rounding.rescale_snd_pos (by decide) _ _ one_pos

theorem ratio_div (d : Decimal) : (d.ratio.1 : ℚ) / d.ratio.2 = d.value := by
  rw [ratio, Rounding.rescale_div (by decide), Nat.cast_one, div_one, zpow_neg, div_inv_eq_mul, value, Nat.cast_ofNat]

theorem value_nonneg (d : Decimal) : 0 ≤ d.value := mul_nonneg (Nat.cast_nonneg _) (zpow_pos (by norm_num) _).le

theorem two_pow_le_ten_pow : (2 : ℚ) ^ (1024 : Int) ≤ 10 ^ (309 : Int) := by
  have : 2 ^ 1024 ≤ 10 ^ 309 := by decide +kernel
  exact_mod_cast this

theorem ten_pow_le_two_pow : (10 : ℚ) ^ (-324 : Int) ≤ 2 ^ (-1075 : Int) := by
  have : 2 ^ 1075 ≤ 10 ^ 324 := by decide +kernel
  rw [zpow_neg, zpow_neg]
  refine inv_anti₀ (zpow_pos two_pos _) ?_
  exact_mod_cast this

theorem two_pow_le_value {d : Decimal} (hc : 0 < d.coefficient) (he : 309 ≤ d.exponent) :
    2 ^ (1024 : Int) ≤ d.value := by
  have h1 : (1 : ℚ) ≤ d.coefficient := by exact_mod_cast hc
  calc (2 : ℚ) ^ (1024 : Int) ≤ 10 ^ (309 : Int) := two_pow_le_ten_pow
    _ ≤ 10 ^ d.exponent := zpow_le_zpow_right₀ (by norm_num) he
    _ ≤ d.value := le_mul_of_one_le_left (zpow_pos (by norm_num) _).le h1

theorem value_le_two_pow {d : Decimal} (he : d.exponent + Nat.log2 d.coefficient + 1 ≤ -324) :
    d.value ≤ 2 ^ (-1075 : Int) := by
  have hc : (d.coefficient : ℚ) ≤ 10 ^ (d.coefficient.log2 + 1 : Int) := by
    have h := Nat.lt_log2_self (n := d.coefficient)
    have h' := Nat.pow_le_pow_left (show 2 ≤ 10 by decide) (d.coefficient.log2 + 1)
    exact_mod_cast h.le.trans h'
  calc d.value ≤ 10 ^ (d.coefficient.log2 + 1 : Int) * 10 ^ d.exponent :=
        mul_le_mul_of_nonneg_right hc (zpow_pos (by norm_num) _).le
    _ = 10 ^ (d.coefficient.log2 + 1 + d.exponent : Int) := (zpow_add₀ (by norm_num) _ _).symm
    _ ≤ 10 ^ (-324 : Int) := zpow_le_zpow_right₀ (by norm_num) (by omega)
    _ ≤ 2 ^ (-1075 : Int) := ten_pow_le_two_pow

/-- Reading a decimal number is rounding its value. -/
theorem toDouble_eq (d : Decimal) : d.toDouble = .ofParts d.negative (BinaryFormat.double.nearestTo d.value) := by
  rw [toDouble]
  congr 1
  split
  · rename_i hc
    rw [value, hc, Nat.cast_zero, zero_mul, nearestTo_zero]
  · rename_i hc
    split
    · rename_i he
      refine (nearestTo_eq_infinity ?_).symm
      rw [Double.value_infinity]
      exact two_pow_le_value (Nat.pos_of_ne_zero hc) he
    · split
      · rename_i he
        exact (Double.nearestTo_eq_zero_of_le (value_nonneg d) (value_le_two_pow he)).symm
      · rw [round_eq_nearestTo _ (ratio_snd_pos d), ratio_div]

end Decimal

end JsonTree
