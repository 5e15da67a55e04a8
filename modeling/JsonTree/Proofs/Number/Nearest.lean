import JsonTree.Proofs.Number.Equality

/-!
# Nearest doubles

What is rounded to a magnitude and given its sign back is taken for the finite double that is nearest to it. Doubles of
the other sign are further away.
-/

namespace JsonTree

namespace BinaryFormat

variable {f : BinaryFormat}

/-- The number that a sign and a finite magnitude stand for. -/
def signed (f : BinaryFormat) (negative : Bool) (m : Nat) : ℚ := if negative then -f.value m else f.value m

/-- A number of the same sign is as near as the magnitudes are. -/
theorem abs_sub_signed (negative : Bool) (x : ℚ) (m : Nat) :
    |(if negative then -x else x) - f.signed negative m| = |x - f.value m| := by
  rw [signed]
  cases negative
  · rfl
  · rw [if_pos rfl, if_pos rfl, neg_sub_neg, abs_sub_comm]

/-- A number of the other sign is as far away as both are from zero. -/
theorem abs_sub_signed_of_ne {negative negative' : Bool} (h : negative' ≠ negative) {x : ℚ} (hx : 0 ≤ x) (m : Nat) :
    |(if negative then -x else x) - f.signed negative' m| = x + f.value m := by
  have hsum := add_nonneg hx (value_nonneg (f := f) m)
  rw [signed]
  cases negative <;> cases negative'
  · exact absurd rfl h
  · simpa using abs_of_nonneg hsum
  · rw [if_pos rfl, if_neg Bool.false_ne_true, ← neg_add', abs_neg, abs_of_nonneg hsum]
  · exact absurd rfl h

theorem abs_sub_value_le (negative : Bool) {x : ℚ} (hx : 0 ≤ x) (negative' : Bool) (m : Nat) :
    |x - f.value m| ≤ |(if negative then -x else x) - f.signed negative' m| := by
  by_cases hsign : negative' = negative
  · rw [hsign, abs_sub_signed]
  · have hm := value_nonneg (f := f) m
    rw [abs_sub_signed_of_ne hsign hx, abs_le]
    constructor <;> linarith

theorem ite_natAbs (n : Int) : (if decide (n < 0) = true then -(n.natAbs : ℚ) else n.natAbs) = n := by
  by_cases hneg : n < 0
  · rw [if_pos (decide_eq_true hneg), Nat.cast_natAbs, abs_of_neg hneg, Int.cast_neg, neg_neg]
  · rw [if_neg (by simpa using hneg), Nat.cast_natAbs, abs_of_nonneg (not_lt.1 hneg)]

end BinaryFormat

namespace Double

/-- No finite double is nearer to a number than this one. -/
structure Nearest (d : Double) (x : ℚ) : Prop where
  finite : d.isFinite = true
  le : ∀ e : Double, e.isFinite = true → |x - d.value| ≤ |x - e.value|

theorem value_ofParts (negative : Bool) {m : Nat} (hm : m < BinaryFormat.double.signBit) :
    (ofParts negative m).value = if negative then -BinaryFormat.double.value m else BinaryFormat.double.value m := by
  rw [value, isNegative_ofParts negative hm, magnitude_ofParts negative hm]

theorem nearest_nearestTo (negative : Bool) {x : ℚ} (hx : 0 ≤ x)
    (hfin : BinaryFormat.double.nearestTo x < BinaryFormat.double.infinity) :
    Nearest (ofParts negative (BinaryFormat.double.nearestTo x)) (if negative then -x else x) := by
  refine ⟨isFinite_ofParts negative hfin, fun e _ => ?_⟩
  rw [value_ofParts negative (nearestTo_lt_signBit x), ← BinaryFormat.signed, BinaryFormat.abs_sub_signed]
  exact (BinaryFormat.abs_sub_nearestTo_le hx hfin e.magnitude).trans
    (BinaryFormat.abs_sub_value_le negative hx e.isNegative e.magnitude)

/-- An integer of 64 bits, with or without a sign, is taken for the double nearest to it. -/
theorem nearest_ofInt {n : Int} (hn : n.natAbs ≤ 2 ^ 64) : Nearest (ofInt n) n := by
  have h := nearest_nearestTo (decide (n < 0)) (Nat.cast_nonneg n.natAbs) (nearestTo_natAbs_lt hn)
  rwa [BinaryFormat.ite_natAbs, ← ofInt_eq] at h

/-! ## Numbers that are infinite -/

theorem nearestTo_middle :
    BinaryFormat.double.nearestTo (2 ^ 1024 - 2 ^ 970) = BinaryFormat.double.infinity := by decide +kernel

theorem middle_le_of_nearestTo_eq {x : ℚ} (hx : 0 < x)
    (h : BinaryFormat.double.nearestTo x = BinaryFormat.double.infinity) : 2 ^ 1024 - 2 ^ 970 ≤ x := by
  refine le_of_not_gt fun hlt => ?_
  have htop : (2 : ℚ) ^ 1024 = 2 ^ 54 * 2 ^ 970 := by rw [← pow_add]
  have hpow : (0 : ℚ) < 2 ^ 970 := pow_pos two_pos _
  obtain ⟨q, hq, hm⟩ := BinaryFormat.rounds_nearestTo (f := BinaryFormat.double) hx
  have hlast : BinaryFormat.double.lastPlace x ≤ 971 := by
    have hlog := (Int.lt_zpow_iff_log_lt one_lt_two hx).1 (show x < (2 : Nat) ^ (1024 : Int) from
      hlt.trans (sub_lt_self _ hpow))
    have hbits : (BinaryFormat.double.fractionBits : Int) = 52 := rfl
    exact max_le (by decide) (by omega)
  have hcount := hq.mono (Rounding.isNearest_natCast _) (BinaryFormat.div_lastPlace_lt x).le
  have hleast : BinaryFormat.double.leastExponent = -1074 := by decide
  have hfractions : BinaryFormat.double.fractions = 2 ^ 52 := rfl
  have hinfinity : BinaryFormat.double.infinity = 2047 * 2 ^ 52 := by decide
  rw [h, hleast, hfractions, hinfinity] at hm
  rw [hfractions] at hcount
  -- Only a full last binade counts up to infinity.
  obtain ⟨hplace, rfl⟩ : BinaryFormat.double.lastPlace x = 971 ∧ q = 2 ^ 53 := by omega
  have hnear := (abs_le.1 hq.near).1
  have hunit : (2 : ℚ) ^ (971 : Int) = 2 * 2 ^ 970 := by
    rw [← pow_succ', ← zpow_natCast]
    rfl
  rw [hplace, neg_le_sub_iff_le_add, ← sub_le_iff_le_add, le_div_iff₀ (zpow_pos two_pos _), hunit] at hnear
  rw [htop] at hlt
  generalize (2 : ℚ) ^ 970 = t at hlt hnear
  push_cast at hnear
  linarith

/-- A number is infinite from the middle between the greatest finite number and the next power of two on. -/
theorem nearestTo_lt_infinity_iff {x : ℚ} (hx : 0 ≤ x) :
    BinaryFormat.double.nearestTo x < BinaryFormat.double.infinity ↔ x < 2 ^ 1024 - 2 ^ 970 := by
  constructor
  · refine fun h => lt_of_not_ge fun hle => ?_
    have hmiddle : (0 : ℚ) ≤ 2 ^ 1024 - 2 ^ 970 := sub_nonneg.2 (pow_le_pow_right₀ one_le_two (by decide))
    have := BinaryFormat.nearestTo_mono (f := BinaryFormat.double) hmiddle hle
    rw [nearestTo_middle] at this
    exact Nat.not_lt.2 this h
  · refine fun h => Nat.lt_of_le_of_ne (BinaryFormat.nearestTo_le_infinity x) fun heq => ?_
    rcases hx.eq_or_lt with rfl | hpos
    · exact absurd heq (by decide)
    · exact h.not_ge (middle_le_of_nearestTo_eq hpos heq)

end Double

end JsonTree
