import Mathlib.Algebra.Order.Floor.Semifield
import JsonTree.Proofs.Number.Nearest

/-!
# Arithmetic of doubles

The operations on doubles that a test of one needs: comparing, cutting off what is behind the point, subtracting, and
conversion to an integer of 64 bits. Each works on the parts of doubles, NaNs and infinities among them. On finite
doubles, comparing is comparing of values, cutting off is exact, and a difference is zero just for doubles of one value.
-/

namespace JsonTree

namespace BinaryFormat

variable {f : BinaryFormat}

/-! ## Small numbers -/

theorem value_one : f.value 1 = 2 ^ f.leastExponent := by
  have hle : 1 ≤ 2 * f.fractions := Nat.mul_pos two_pos fractions_pos
  have h := value_place (f := f) le_rfl hle fun h => absurd h (lt_irrefl _)
  rwa [Int.sub_self, Int.toNat_zero, Nat.zero_mul, Nat.zero_add, Nat.cast_one, one_mul] at h

/-- A number that is at least the least positive one is not rounded to zero. -/
theorem nearestTo_pos {x : ℚ} (h : 0 < f.infinity) (hx : 2 ^ f.leastExponent ≤ x) : 0 < f.nearestTo x := by
  rw [← value_one] at hx
  have hle := nearestTo_mono (f := f) (value_nonneg 1) hx
  rwa [nearestTo_value h] at hle

/-! ## Magnitudes of integers -/

/-- The magnitude with the places behind the point cleared. -/
def truncate (f : BinaryFormat) (m : Nat) : Nat :=
  let k := (-f.exponent m).toNat
  if f.fractionBits < k then 0 else m / 2 ^ k * 2 ^ k

theorem ratio_div_eq_floor (m : Nat) : (f.ratio m).1 / (f.ratio m).2 = ⌊f.value m⌋₊ := by
  rw [← ratio_div, Nat.floor_div_eq_div]

/-- Clearing places that a binade has leaves the binade as it is. -/
theorem div_two_pow_mul (m : Nat) {k : Nat} (hk : k ≤ f.fractionBits) :
    m / 2 ^ k * 2 ^ k =
      (f.exponent m - f.leastExponent).toNat * f.fractions + f.significand m / 2 ^ k * 2 ^ k := by
  obtain ⟨c, hc⟩ : 2 ^ k ∣ f.fractions := pow_dvd_pow 2 hk
  conv_lhs => rw [← f.place_add_significand m, hc, Nat.mul_left_comm, Nat.mul_add_div (Nat.two_pow_pos k)]
  rw [hc]
  ring

theorem value_div_two_pow_mul (m : Nat) {k : Nat} (hk : k ≤ f.fractionBits) :
    f.value (m / 2 ^ k * 2 ^ k) = (f.significand m / 2 ^ k * 2 ^ k : Nat) * 2 ^ f.exponent m := by
  have hupper := (Nat.div_mul_le_self (f.significand m) (2 ^ k)).trans (significand_lt m).le
  have hlower (h : f.leastExponent < f.exponent m) : f.fractions ≤ f.significand m / 2 ^ k * 2 ^ k := by
    rw [← Nat.div_mul_cancel (show 2 ^ k ∣ f.fractions from pow_dvd_pow 2 hk)]
    exact Nat.mul_le_mul_right _ (Nat.div_le_div_right (fractions_le_significand h))
  rw [div_two_pow_mul m hk, value_place (leastExponent_le_exponent m) hupper hlower]

theorem value_truncate (m : Nat) : f.value (f.truncate m) = ⌊f.value m⌋₊ := by
  rcases le_or_gt 0 (f.exponent m) with hint | hneg
  · -- There is nothing behind the point.
    obtain ⟨k, hk⟩ := Int.eq_ofNat_of_zero_le hint
    have hvalue : f.value m = (f.significand m * 2 ^ k : Nat) := by
      rw [value, hk, zpow_natCast, Nat.cast_mul, Nat.cast_pow, Nat.cast_two]
    have hzero : (-f.exponent m).toNat = 0 := by omega
    rw [truncate, hzero, if_neg (Nat.not_lt_zero _), pow_zero, Nat.div_one, Nat.mul_one, hvalue, Nat.floor_natCast]
  · obtain ⟨k, hk⟩ := Int.eq_ofNat_of_zero_le (show 0 ≤ -f.exponent m by omega)
    have hexponent : f.exponent m = -k := by omega
    have hfloor : ⌊f.value m⌋₊ = f.significand m / 2 ^ k := by
      rw [value, hexponent, zpow_neg, zpow_natCast, ← div_eq_mul_inv, ← Nat.floor_div_eq_div (K := ℚ), Nat.cast_pow,
        Nat.cast_two]
    rw [hfloor, truncate, hk, Int.toNat_natCast]
    split
    · rename_i hlt
      have hle : 2 * f.fractions ≤ 2 ^ k := by
        rw [fractions, Nat.pow_eq, ← pow_succ']
        exact Nat.pow_le_pow_right two_pos hlt
      rw [Nat.div_eq_of_lt ((significand_lt m).trans_le hle), value_zero, Nat.cast_zero]
    · rename_i hnot
      rw [value_div_two_pow_mul m (Nat.not_lt.1 hnot), hexponent, zpow_neg, zpow_natCast, Nat.cast_mul, Nat.cast_pow,
        Nat.cast_two, mul_inv_cancel_right₀ (pow_ne_zero _ two_ne_zero)]

theorem truncate_le (m : Nat) : f.truncate m ≤ m := by
  rw [truncate]
  split
  · exact Nat.zero_le _
  · exact Nat.div_mul_le_self _ _

end BinaryFormat

namespace Double

variable {d e : Double}

/-! ## Comparing -/

/-- The magnitude with the sign of the double, which puts all but the NaNs in order. -/
def rank (d : Double) : Int := if d.isNegative then -d.magnitude else d.magnitude

/-- A NaN is neither equal to a double nor before or behind one. -/
def eq (d e : Double) : Bool := !d.isNaN && !e.isNaN && d.rank == e.rank

def lt (d e : Double) : Bool := !d.isNaN && !e.isNaN && decide (d.rank < e.rank)

def le (d e : Double) : Bool := !d.isNaN && !e.isNaN && decide (d.rank ≤ e.rank)

/-- The order of ranks is the order of values. -/
theorem rank_lt_rank_iff (hd : d.isFinite = true) (he : e.isFinite = true) : d.rank < e.rank ↔ d.value < e.value := by
  have hm := (magnitude_lt_infinity hd).le
  have hn := (magnitude_lt_infinity he).le
  have hmpos := BinaryFormat.value_nonneg (f := BinaryFormat.double) d.magnitude
  have hnpos := BinaryFormat.value_nonneg (f := BinaryFormat.double) e.magnitude
  rw [rank, rank, value, value]
  cases d.isNegative with
  | false =>
      cases e.isNegative with
      | false => exact Int.ofNat_lt.trans (BinaryFormat.value_lt_value_iff hm hn).symm
      | true =>
          simp only [if_true, Bool.false_eq_true, if_false]
          exact iff_of_false (by omega) (by linarith)
  | true =>
      cases e.isNegative with
      | false =>
          simp only [if_true, Bool.false_eq_true, if_false]
          -- The two are zeros, or one of them is away from zero.
          rcases Nat.eq_zero_or_pos d.magnitude with hd | hd
          · rcases Nat.eq_zero_or_pos e.magnitude with he | he
            · rw [hd, he, BinaryFormat.value_zero]
              exact iff_of_false (by decide) (by simp)
            · have := BinaryFormat.value_pos (f := BinaryFormat.double) he
              exact iff_of_true (by omega) (by linarith)
          · have := BinaryFormat.value_pos (f := BinaryFormat.double) hd
            exact iff_of_true (by omega) (by linarith)
      | true =>
          simp only [if_true, neg_lt_neg_iff]
          exact Int.ofNat_lt.trans (BinaryFormat.value_lt_value_iff hn hm).symm

theorem eq_iff (hd : d.isFinite = true) (he : e.isFinite = true) : d.eq e = true ↔ d.value = e.value := by
  have hlt := rank_lt_rank_iff hd he
  have hgt := rank_lt_rank_iff he hd
  rw [eq, isNaN_of_isFinite hd, isNaN_of_isFinite he, Bool.not_false, Bool.true_and, Bool.true_and, beq_iff_eq]
  constructor
  · intro h
    exact le_antisymm (not_lt.1 (mt hgt.2 h.le.not_gt)) (not_lt.1 (mt hlt.2 h.ge.not_gt))
  · intro h
    exact le_antisymm (not_lt.1 (mt hgt.1 h.le.not_gt)) (not_lt.1 (mt hlt.1 h.ge.not_gt))

theorem lt_iff (hd : d.isFinite = true) (he : e.isFinite = true) : d.lt e = true ↔ d.value < e.value := by
  rw [lt, isNaN_of_isFinite hd, isNaN_of_isFinite he, Bool.not_false, Bool.true_and, Bool.true_and, decide_eq_true_iff,
    rank_lt_rank_iff hd he]

theorem le_iff (hd : d.isFinite = true) (he : e.isFinite = true) : d.le e = true ↔ d.value ≤ e.value := by
  rw [le, isNaN_of_isFinite hd, isNaN_of_isFinite he, Bool.not_false, Bool.true_and, Bool.true_and, decide_eq_true_iff,
    ← not_lt, ← not_lt, rank_lt_rank_iff he hd]

/-! ## Whole numbers -/

/-- The integer in front of the point. -/
def whole (d : Double) : Int :=
  if d.isNegative then -(d.ratio.1 / d.ratio.2 : Nat) else (d.ratio.1 / d.ratio.2 : Nat)

theorem whole_eq (d : Double) :
    d.whole =
      if d.isNegative then -⌊BinaryFormat.double.value d.magnitude⌋ else ⌊BinaryFormat.double.value d.magnitude⌋ := by
  rw [whole, ratio, BinaryFormat.ratio_div_eq_floor, Int.natCast_floor_eq_floor (BinaryFormat.value_nonneg _)]

theorem whole_eq_of_value_eq {z : Int} (h : d.value = z) : d.whole = z := by
  rw [value] at h
  rw [whole_eq]
  split at h
  · rename_i hneg
    rw [neg_eq_iff_eq_neg, ← Int.cast_neg] at h
    rw [if_pos hneg, h, Int.floor_intCast, neg_neg]
  · rename_i hpos
    rw [if_neg hpos, h, Int.floor_intCast]

theorem mod_eq_zero_iff (d : Double) : d.ratio.1 % d.ratio.2 = 0 ↔ d.value = d.whole := by
  have hden : (d.ratio.2 : ℚ) ≠ 0 := by exact_mod_cast d.ratio_snd_pos.ne'
  have hmod : d.ratio.1 % d.ratio.2 = 0 ↔ BinaryFormat.double.value d.magnitude = (d.ratio.1 / d.ratio.2 : Nat) := by
    rw [← BinaryFormat.ratio_div, ← ratio, div_eq_iff hden, ← Nat.cast_mul, Nat.cast_inj, eq_comm (a := d.ratio.1),
      ← Nat.dvd_iff_div_mul_eq, Nat.dvd_iff_mod_eq_zero]
  rw [hmod, value, whole]
  split
  · rw [Int.cast_neg, Int.cast_natCast, neg_inj]
  · rw [Int.cast_natCast]

/-- A finite double is equal to the integer that is its value. -/
theorem toInt?_eq_some_iff {z : Int} : d.toInt? = some z ↔ d.isFinite = true ∧ d.value = z := by
  rw [toInt?]
  dsimp only
  rw [← whole]
  split
  · rename_i h
    obtain ⟨hd, hmod⟩ := Bool.and_eq_true_iff.1 h
    rw [beq_iff_eq, mod_eq_zero_iff] at hmod
    rw [hmod, Option.some_inj, Int.cast_inj, and_iff_right hd]
  · rename_i h
    refine iff_of_false nofun ?_
    rintro ⟨hd, hz⟩
    refine h (Bool.and_eq_true_iff.2 ⟨hd, ?_⟩)
    rw [beq_iff_eq, mod_eq_zero_iff, whole_eq_of_value_eq hz, hz]

/-- The double without what is behind the point. NaNs and infinities are left as they are. -/
def trunc (d : Double) : Double := .ofParts d.isNegative (BinaryFormat.double.truncate d.magnitude)

theorem isFinite_trunc (h : d.isFinite = true) : d.trunc.isFinite = true :=
  isFinite_ofParts _ ((BinaryFormat.truncate_le _).trans_lt (magnitude_lt_infinity h))

theorem value_trunc (d : Double) : d.trunc.value = d.whole := by
  rw [trunc, value_ofParts _ ((BinaryFormat.truncate_le _).trans_lt d.magnitude_lt_signBit),
    BinaryFormat.value_truncate, whole, ratio, BinaryFormat.ratio_div_eq_floor]
  split
  · rw [Int.cast_neg, Int.cast_natCast]
  · rw [Int.cast_natCast]

/-- The integer of 64 bits nearest to the whole number in front of the point. A NaN gives zero. The ratio of an infinity
is larger than all of them. -/
def toInt64 (d : Double) : Int64 :=
  if d.isNaN then 0 else .ofInt (max Int64.minValue.toInt (min Int64.maxValue.toInt d.whole))

/-! ## Subtracting -/

/-- The difference, rounded once. Infinities of one sign have none. -/
def sub (d e : Double) : Double :=
  if d.isNaN || e.isNaN then nan
  else if d.isInfinite then if e.isInfinite && d.isNegative == e.isNegative then nan else d
  else if e.isInfinite then infinity !e.isNegative
  else if d.value = e.value then .ofParts (d.isNegative && !e.isNegative) 0
  else .ofParts (d.value < e.value) (BinaryFormat.double.nearestTo |d.value - e.value|)

/-- What is behind the point. -/
def fract (d : Double) : Double := d.sub d.trunc

theorem exists_value_eq (d : Double) : ∃ z : Int, d.value = z * 2 ^ BinaryFormat.double.leastExponent := by
  rcases BinaryFormat.double.value_cases BinaryFormat.double.leastExponent d.magnitude with ⟨k, hk⟩ | ⟨hlt, -⟩
  · rw [value, hk]
    split
    · exact ⟨-k, by rw [Int.cast_neg, Int.cast_natCast, neg_mul]⟩
    · exact ⟨k, by rw [Int.cast_natCast]⟩
  · exact absurd hlt (lt_irrefl _)

/-- Different values are at least one place apart, so that their difference is not rounded to zero. -/
theorem nearestTo_sub_pos (h : d.value ≠ e.value) : 0 < BinaryFormat.double.nearestTo |d.value - e.value| := by
  obtain ⟨z, hz⟩ := exists_value_eq d
  obtain ⟨w, hw⟩ := exists_value_eq e
  have hne : z - w ≠ 0 := by
    rintro hzero
    rw [sub_eq_zero] at hzero
    exact h (by rw [hz, hw, hzero])
  have hpos : (0 : ℚ) < 2 ^ BinaryFormat.double.leastExponent := zpow_pos two_pos _
  have hone : (1 : ℚ) ≤ |((z - w : Int) : ℚ)| := by exact_mod_cast Int.one_le_abs hne
  refine BinaryFormat.nearestTo_pos (by decide) ?_
  rw [hz, hw, ← sub_mul, ← Int.cast_sub, abs_mul, abs_of_pos hpos]
  exact le_mul_of_one_le_left hpos.le hone

theorem magnitude_sub (hd : d.isFinite = true) (he : e.isFinite = true) :
    (d.sub e).magnitude = BinaryFormat.double.nearestTo |d.value - e.value| := by
  rw [sub, isNaN_of_isFinite hd, isNaN_of_isFinite he, isInfinite_of_isFinite hd, isInfinite_of_isFinite he]
  simp only [Bool.or_self, Bool.false_eq_true, if_false]
  split
  · rename_i h
    rw [magnitude_ofParts _ (by decide), h, sub_self, abs_zero, BinaryFormat.nearestTo_zero]
  · exact magnitude_ofParts _ (nearestTo_lt_signBit _)

theorem eq_zero_iff (d : Double) : d.eq (.ofParts false 0) = true ↔ d.magnitude = 0 := by
  have hrank : d.rank = 0 ↔ d.magnitude = 0 := by
    rw [rank]
    split <;> omega
  have hzero : (ofParts false 0).isNaN = false ∧ (ofParts false 0).rank = 0 := by decide
  rw [eq, hzero.1, hzero.2, Bool.not_false, Bool.and_true, Bool.and_eq_true_iff, beq_iff_eq, hrank, Bool.not_eq_true']
  refine and_iff_right_of_imp fun h => ?_
  exact isNaN_of_isFinite (isFinite_of_magnitude_eq_zero h)

/-- Nothing is behind the point of a double just if its value is an integer. -/
theorem fract_eq_zero_iff (h : d.isFinite = true) :
    d.fract.eq (.ofParts false 0) = true ↔ ∃ z : Int, d.value = z := by
  rw [eq_zero_iff, fract, magnitude_sub h (isFinite_trunc h), value_trunc]
  constructor
  · intro hzero
    by_contra hnot
    have hne : d.value ≠ d.trunc.value := by
      rw [value_trunc]
      exact fun heq => hnot ⟨_, heq⟩
    have hpos := nearestTo_sub_pos hne
    rw [value_trunc] at hpos
    exact hpos.ne' hzero
  · rintro ⟨z, hz⟩
    rw [whole_eq_of_value_eq hz, hz, sub_self, abs_zero, BinaryFormat.nearestTo_zero]

/-! ## Integers of 64 bits -/

/-- An integer that some double is equal to is taken for a double equal to it. -/
theorem value_ofInt_of_value_eq {z : Int} (hd : d.isFinite = true) (hz : d.value = z) (hle : z.natAbs ≤ 2 ^ 64) :
    (ofInt z).value = z := by
  have h := (nearest_ofInt hle).le d hd
  rw [hz, sub_self, abs_zero] at h
  exact (sub_eq_zero.1 (abs_nonpos_iff.1 h)).symm

theorem toInt64_of_value_eq {n : Int64} (hd : d.isFinite = true) (hn : d.value = n.toInt) : d.toInt64 = n := by
  rw [toInt64, isNaN_of_isFinite hd, whole_eq_of_value_eq hn, if_neg Bool.false_ne_true,
    min_eq_right (Int64.toInt_le n), max_eq_right (show Int64.minValue.toInt ≤ n.toInt from Int64.le_toInt n),
    Int64.ofInt_toInt]

end Double

end JsonTree
