import JsonTree.Number.Binary
import JsonTree.Proofs.Number.Quotient

/-!
# Rounding to a format

Rounding depends on the rational number alone and keeps the order of numbers. It gives every finite magnitude back,
so it is decided everywhere by what it does at a few numbers.
-/

namespace JsonTree.BinaryFormat

open Rounding

variable {f : BinaryFormat}

/-! ## Magnitudes and their values -/

/-- The value of a magnitude, which would be one more binade at infinity. -/
def value (f : BinaryFormat) (m : Nat) : ℚ := f.significand m * 2 ^ f.exponent m

theorem fractions_pos : 0 < f.fractions := Nat.pow_pos two_pos

theorem cast_fractions : (f.fractions : ℚ) = 2 ^ (f.fractionBits : Int) := by
  rw [fractions, Nat.pow_eq, zpow_natCast, Nat.cast_pow, Nat.cast_two]

theorem significand_lt (m : Nat) : f.significand m < 2 * f.fractions := by
  simp only [significand]
  split
  · rename_i h
    have := Nat.lt_of_div_eq_zero fractions_pos h
    omega
  · have := Nat.mod_lt m (fractions_pos (f := f))
    omega

theorem significand_pos {m : Nat} (hm : 0 < m) : 0 < f.significand m := by
  simp only [significand]
  split
  · exact hm
  · exact Nat.add_pos_right _ fractions_pos

theorem leastExponent_le_exponent (m : Nat) : f.leastExponent ≤ f.exponent m := by
  simp only [exponent]
  omega

theorem fractions_le_significand {m : Nat} (h : f.leastExponent < f.exponent m) : f.fractions ≤ f.significand m := by
  simp only [exponent] at h
  simp only [significand]
  split
  · rename_i hq
    simp [hq] at h
  · exact Nat.le_add_left _ _

/-- A magnitude counts the places below it. -/
theorem place_add_significand (m : Nat) :
    (f.exponent m - f.leastExponent).toNat * f.fractions + f.significand m = m := by
  have h := Nat.div_add_mod' m f.fractions
  simp only [exponent, significand]
  split
  · rename_i hq
    simp [hq]
  · rename_i hq
    have hpos := Nat.pos_of_ne_zero hq
    have ht : (f.leastExponent + (max 1 (m / f.fractions) - 1 : Nat) - f.leastExponent).toNat + 1 =
        m / f.fractions := by
      omega
    rw [← ht, Nat.succ_mul] at h
    omega

theorem value_zero : f.value 0 = 0 := by simp [value, significand]

theorem value_pos {m : Nat} (hm : 0 < m) : 0 < f.value m := by
  have hs : (0 : ℚ) < f.significand m := by exact_mod_cast significand_pos hm
  exact mul_pos hs (zpow_pos two_pos _)

theorem value_nonneg (m : Nat) : 0 ≤ f.value m :=
  mul_nonneg (Nat.cast_nonneg _) (zpow_pos two_pos _).le

theorem ratio_div (m : Nat) : ((f.ratio m).1 : ℚ) / (f.ratio m).2 = f.value m := by
  rw [ratio, rescale_div two_pos, Nat.cast_one, div_one, Nat.cast_two, zpow_neg, div_inv_eq_mul, value]

/-! ## Places -/

/-- The exponent of the last place to which `x` is rounded. -/
def lastPlace (f : BinaryFormat) (x : ℚ) : Int := max f.leastExponent (Int.log 2 x - f.fractionBits)

theorem leastExponent_le_lastPlace (x : ℚ) : f.leastExponent ≤ f.lastPlace x := le_max_left _ _

theorem lastPlace_mono {x y : ℚ} (hx : 0 < x) (h : x ≤ y) : f.lastPlace x ≤ f.lastPlace y :=
  max_le_max_left _ (Int.sub_le_sub_right (Int.log_mono_right hx h) _)

theorem div_lastPlace_lt (x : ℚ) : x / 2 ^ f.lastPlace x < (2 * f.fractions : Nat) := by
  have h := Int.lt_zpow_succ_log_self one_lt_two x
  rw [Nat.cast_two] at h
  rw [div_lt_iff₀ (zpow_pos two_pos _), Nat.cast_mul, Nat.cast_two, cast_fractions, ← zpow_one_add₀ two_ne_zero,
    ← zpow_add₀ two_ne_zero]
  refine h.trans_le (zpow_le_zpow_right₀ one_le_two ?_)
  have := le_max_right f.leastExponent (Int.log 2 x - f.fractionBits)
  simp only [lastPlace]
  omega

theorem le_div_lastPlace {x : ℚ} (hx : 0 < x) (h : f.leastExponent < f.lastPlace x) :
    (f.fractions : ℚ) ≤ x / 2 ^ f.lastPlace x := by
  have hl := Int.zpow_log_le_self one_lt_two hx
  rw [Nat.cast_two] at hl
  rw [le_div_iff₀ (zpow_pos two_pos _), cast_fractions, ← zpow_add₀ two_ne_zero]
  refine le_trans (zpow_le_zpow_right₀ one_le_two ?_) hl
  simp only [lastPlace] at h ⊢
  omega

theorem lastPlace_eq_leastExponent {x : ℚ} (hx : 0 < x) (h : x < 2 ^ (f.leastExponent + f.fractionBits + 1)) :
    f.lastPlace x = f.leastExponent := by
  have := (Int.lt_zpow_iff_log_lt one_lt_two hx).1 (by exact_mod_cast h)
  simp only [lastPlace]
  omega

theorem lastPlace_value {m : Nat} (hm : 0 < m) : f.lastPlace (f.value m) = f.exponent m := by
  have hp : (0 : ℚ) < 2 ^ f.exponent m := zpow_pos two_pos _
  have hlt : f.value m < 2 ^ (f.exponent m + f.fractionBits + 1) := by
    have hs : (f.significand m : ℚ) < 2 * f.fractions := by exact_mod_cast significand_lt m
    calc f.value m < 2 * f.fractions * 2 ^ f.exponent m := mul_lt_mul_of_pos_right hs hp
      _ = 2 ^ (f.exponent m + f.fractionBits + 1) := by
          rw [cast_fractions, ← zpow_one_add₀ two_ne_zero, ← zpow_add₀ two_ne_zero]
          congr 1
          ring
  rcases (leastExponent_le_exponent m).eq_or_lt with he | he
  · rw [← he] at hlt ⊢
    exact lastPlace_eq_leastExponent (value_pos hm) hlt
  · have hle : 2 ^ (f.exponent m + f.fractionBits) ≤ f.value m := by
      have hs : (f.fractions : ℚ) ≤ f.significand m := by exact_mod_cast fractions_le_significand he
      calc (2 : ℚ) ^ (f.exponent m + f.fractionBits) = f.fractions * 2 ^ f.exponent m := by
            rw [cast_fractions, ← zpow_add₀ two_ne_zero, Int.add_comm]
        _ ≤ f.value m := mul_le_mul_of_nonneg_right hs hp.le
    -- The two bounds give the leading digit, and from there the last place is counted.
    have := log_eq_of_le_of_lt one_lt_two (by exact_mod_cast hle) (by exact_mod_cast hlt)
    simp only [lastPlace]
    omega

/-! ## Rounding -/

/-- The magnitude nearest to a rational number. -/
def nearestTo (f : BinaryFormat) (x : ℚ) : Nat := f.round x.num.natAbs x.den

/-- What it is for `m` to be the magnitude nearest to a positive number `x`. -/
def Rounds (f : BinaryFormat) (x : ℚ) (m : Nat) : Prop :=
  ∃ q, IsNearest (x / 2 ^ f.lastPlace x) q ∧
    m = min f.infinity ((f.lastPlace x - f.leastExponent).toNat * f.fractions + q)

theorem Rounds.mono {x y : ℚ} {m n : Nat} (hm : f.Rounds x m) (hn : f.Rounds y n) (hx : 0 < x) (h : x ≤ y) :
    m ≤ n := by
  obtain ⟨q, hq, rfl⟩ := hm
  obtain ⟨r, hr, rfl⟩ := hn
  refine min_le_min_left _ ?_
  rcases (lastPlace_mono hx h (f := f)).eq_or_lt with he | he
  · rw [← he] at hr ⊢
    exact Nat.add_le_add_left (hq.mono hr (div_le_div_of_nonneg_right h (zpow_pos two_pos _).le)) _
  · -- The numbers of a lower binade are at most the least one of a higher binade.
    have hql := hq.mono (isNearest_natCast _) (div_lastPlace_lt x).le
    have hlt := (leastExponent_le_lastPlace x).trans_lt he
    have hrl := (isNearest_natCast _).mono hr (le_div_lastPlace (hx.trans_le h) hlt)
    have hle := leastExponent_le_lastPlace (f := f) x
    have hs : (f.lastPlace x - f.leastExponent).toNat + 1 ≤ (f.lastPlace y - f.leastExponent).toNat := by omega
    have := Nat.mul_le_mul_right f.fractions hs
    rw [Nat.succ_mul] at this
    omega

theorem Rounds.unique {x : ℚ} {m n : Nat} (hm : f.Rounds x m) (hn : f.Rounds x n) (hx : 0 < x) : m = n :=
  le_antisymm (hm.mono hn hx le_rfl) (hn.mono hm hx le_rfl)

theorem rounds_round {num den : Nat} (hn : 0 < num) (hd : 0 < den) : f.Rounds ((num : ℚ) / den) (f.round num den) := by
  have hp (e : Int) := rescale_snd_pos two_pos e num hd
  have hr (e : Int) := rescale_div two_pos e num den
  simp only [Nat.cast_two] at hr
  refine ⟨_, ?_, by rw [round, if_neg hn.ne', lastPlace, ← binaryPlace_eq hn hd]⟩
  rw [lastPlace, ← binaryPlace_eq hn hd, ← hr]
  exact isNearest_nearest _ (hp _)

theorem rounds_nearestTo {x : ℚ} (hx : 0 < x) : f.Rounds x (f.nearestTo x) := by
  have hn : 0 < x.num.natAbs := Int.natAbs_pos.2 (Rat.num_pos.2 hx).ne'
  have := rounds_round (f := f) hn x.den_pos
  rwa [Nat.cast_natAbs, abs_of_pos (Rat.num_pos.2 hx), Rat.num_div_den] at this

@[simp] theorem nearestTo_zero : f.nearestTo 0 = 0 := rfl

/-- Rounding depends on the quotient alone. -/
theorem round_eq_nearestTo (num : Nat) {den : Nat} (hd : 0 < den) :
    f.round num den = f.nearestTo ((num : ℚ) / den) := by
  rcases Nat.eq_zero_or_pos num with rfl | hn
  · simp [round]
  · have hx : (0 : ℚ) < num / den := by positivity
    exact (rounds_round hn hd).unique (rounds_nearestTo hx) hx

theorem nearestTo_mono {x y : ℚ} (hx : 0 ≤ x) (h : x ≤ y) : f.nearestTo x ≤ f.nearestTo y := by
  rcases hx.eq_or_lt with rfl | hx
  · exact Nat.zero_le _
  · exact (rounds_nearestTo hx).mono (rounds_nearestTo (hx.trans_le h)) hx h

theorem nearestTo_le_infinity (x : ℚ) : f.nearestTo x ≤ f.infinity := by
  rw [nearestTo, round]
  split
  · exact Nat.zero_le _
  · exact min_le_left _ _

/-! ## Exact numbers -/

theorem nearestTo_value {m : Nat} (hm : m ≤ f.infinity) : f.nearestTo (f.value m) = m := by
  rcases Nat.eq_zero_or_pos m with rfl | hpos
  · rw [value_zero, nearestTo_zero]
  · refine (rounds_nearestTo (value_pos hpos)).unique ⟨f.significand m, ?_, ?_⟩ (value_pos hpos)
    · rw [lastPlace_value hpos, value, mul_div_cancel_right₀ _ (zpow_pos two_pos _).ne']
      exact isNearest_natCast _
    · rw [lastPlace_value hpos, place_add_significand, min_eq_right hm]

theorem value_le_value_iff {m n : Nat} (hm : m ≤ f.infinity) (hn : n ≤ f.infinity) : f.value m ≤ f.value n ↔ m ≤ n := by
  have mono {m n : Nat} (hm : m ≤ f.infinity) (hn : n ≤ f.infinity) (h : f.value m ≤ f.value n) : m ≤ n := by
    have := nearestTo_mono (f := f) (value_nonneg m) h
    rwa [nearestTo_value hm, nearestTo_value hn] at this
  constructor
  · exact mono hm hn
  · intro h
    by_contra hlt
    obtain rfl := le_antisymm h (mono hn hm (not_le.1 hlt).le)
    exact hlt le_rfl

theorem value_lt_value_iff {m n : Nat} (hm : m ≤ f.infinity) (hn : n ≤ f.infinity) : f.value m < f.value n ↔ m < n :=
  lt_iff_lt_of_le_iff_le (value_le_value_iff hn hm)

theorem value_nearestTo_mono {x y : ℚ} (hx : 0 ≤ x) (h : x ≤ y) :
    f.value (f.nearestTo x) ≤ f.value (f.nearestTo y) :=
  (value_le_value_iff (nearestTo_le_infinity x) (nearestTo_le_infinity y)).2 (nearestTo_mono hx h)

theorem nearestTo_eq_infinity {x : ℚ} (h : f.value f.infinity ≤ x) : f.nearestTo x = f.infinity := by
  refine le_antisymm (nearestTo_le_infinity x) ?_
  have := nearestTo_mono (f := f) (value_nonneg _) h
  rwa [nearestTo_value le_rfl] at this

/-- Half of the least positive number is as near to zero. -/
theorem nearestTo_half : f.nearestTo (2 ^ (f.leastExponent - 1)) = 0 := by
  have hx : (0 : ℚ) < 2 ^ (f.leastExponent - 1) := zpow_pos two_pos _
  have hl : f.lastPlace (2 ^ (f.leastExponent - 1)) = f.leastExponent := by
    refine lastPlace_eq_leastExponent hx (zpow_lt_zpow_right₀ one_lt_two ?_)
    omega
  refine (rounds_nearestTo hx).unique ⟨0, ?_, ?_⟩ hx
  · rw [hl, ← zpow_sub₀ two_ne_zero, sub_sub_cancel_left, zpow_neg_one]
    constructor <;> norm_num
  · rw [hl, sub_self, Int.toNat_zero, Nat.zero_mul, Nat.zero_add, min_eq_right (Nat.zero_le _)]

theorem nearestTo_eq_zero {x : ℚ} (hx : 0 ≤ x) (h : x ≤ 2 ^ (f.leastExponent - 1)) : f.nearestTo x = 0 := by
  have := nearestTo_mono (f := f) hx h
  rw [nearestTo_half] at this
  exact Nat.le_zero.1 this

/-! ## Nearness -/

theorem div_fractions {k q : Nat} (hl : f.fractions ≤ q) (hu : q < 2 * f.fractions) :
    (k * f.fractions + q) / f.fractions = k + 1 ∧ (k * f.fractions + q) % f.fractions = q - f.fractions := by
  obtain ⟨r, rfl⟩ := Nat.exists_eq_add_of_le hl
  have hr : r < f.fractions := by omega
  rw [← Nat.add_assoc, ← Nat.succ_mul, Nat.add_sub_cancel_left, Nat.add_comm, Nat.add_mul_div_right _ _ fractions_pos,
    Nat.div_eq_of_lt hr, Nat.add_mul_mod_self_right, Nat.mod_eq_of_lt hr, Nat.zero_add]
  exact ⟨rfl, rfl⟩

/-- The magnitude that counts `q` in the place `e`. -/
theorem value_place {e : Int} {q : Nat} (he : f.leastExponent ≤ e) (hq : q ≤ 2 * f.fractions)
    (hl : f.leastExponent < e → f.fractions ≤ q) :
    f.value ((e - f.leastExponent).toNat * f.fractions + q) = q * 2 ^ e := by
  obtain ⟨k, hk⟩ := Int.eq_ofNat_of_zero_le (Int.sub_nonneg.2 he)
  obtain rfl : e = f.leastExponent + k := by omega
  rw [hk, Int.toNat_natCast]
  by_cases hsmall : q < f.fractions
  · obtain rfl : k = 0 := by
      by_contra hne
      have := hl (by omega)
      omega
    simp [value, significand, exponent, Nat.div_eq_of_lt hsmall]
  · rcases hq.lt_or_eq with hlt | rfl
    · obtain ⟨hdiv, hmod⟩ := div_fractions (k := k) (Nat.not_lt.1 hsmall) hlt
      simp [value, significand, exponent, hdiv, hmod, Nat.not_lt.1 hsmall]
    · -- A full binade is the start of the next one.
      have hs : k * f.fractions + 2 * f.fractions = (k + 1) * f.fractions + f.fractions := by ring
      have hlt : f.fractions < 2 * f.fractions := by
        have := fractions_pos (f := f)
        omega
      obtain ⟨hdiv, hmod⟩ := div_fractions (k := k + 1) le_rfl hlt
      have hv : f.value (k * f.fractions + 2 * f.fractions) = f.fractions * 2 ^ (f.leastExponent + k + 1) := by
        rw [hs, value, significand, exponent, hdiv, hmod]
        simp [Int.add_assoc]
      rw [hv, zpow_add_one₀ two_ne_zero]
      push_cast
      ring

theorem value_nearestTo {x : ℚ} (hx : 0 < x) (hfin : f.nearestTo x < f.infinity) :
    ∃ q, IsNearest (x / 2 ^ f.lastPlace x) q ∧ f.value (f.nearestTo x) = q * 2 ^ f.lastPlace x := by
  obtain ⟨q, hq, hm⟩ := rounds_nearestTo (f := f) hx
  have hu := hq.mono (isNearest_natCast _) (div_lastPlace_lt x).le
  have hl : f.leastExponent < f.lastPlace x → f.fractions ≤ q :=
    fun h => (isNearest_natCast _).mono hq (le_div_lastPlace hx h)
  refine ⟨q, hq, ?_⟩
  rw [hm, min_eq_right (by omega)]
  exact value_place (leastExponent_le_lastPlace x) hu hl

/-- A magnitude is a whole number of places or is below all numbers of that binade. -/
theorem value_cases (f : BinaryFormat) (e : Int) (m : Nat) :
    (∃ k : Nat, f.value m = k * 2 ^ e) ∨ (f.leastExponent < e ∧ f.value m < f.fractions * 2 ^ e) := by
  rcases le_or_gt e (f.exponent m) with h | h
  · refine .inl ⟨f.significand m * 2 ^ (f.exponent m - e).toNat, ?_⟩
    have hp : (2 : ℚ) ^ f.exponent m = 2 ^ (f.exponent m - e).toNat * 2 ^ e := by
      rw [← zpow_natCast, Int.toNat_of_nonneg (by omega), ← zpow_add₀ two_ne_zero, sub_add_cancel]
    rw [value, hp]
    push_cast
    ring
  · refine .inr ⟨(leastExponent_le_exponent m).trans_lt h, ?_⟩
    have hs : (f.significand m : ℚ) < 2 * f.fractions := by exact_mod_cast significand_lt m
    have hp : (2 : ℚ) ^ (f.exponent m + 1) ≤ 2 ^ e := zpow_le_zpow_right₀ one_le_two h
    calc f.value m < 2 * f.fractions * 2 ^ f.exponent m := mul_lt_mul_of_pos_right hs (zpow_pos two_pos _)
      _ = f.fractions * 2 ^ (f.exponent m + 1) := by
          rw [zpow_add_one₀ two_ne_zero]
          ring
      _ ≤ f.fractions * 2 ^ e := mul_le_mul_of_nonneg_left hp (Nat.cast_nonneg _)

theorem abs_sub_mul_eq {p : ℚ} (hp : 0 < p) (x : ℚ) (n : Nat) : |x - n * p| = |x / p - n| * p := by
  rw [← abs_of_pos hp, ← abs_mul, sub_mul, abs_of_pos hp, div_mul_cancel₀ _ hp.ne']

/-- No magnitude is nearer to a number than the one it is rounded to. -/
theorem abs_sub_nearestTo_le {x : ℚ} (hx : 0 ≤ x) (hfin : f.nearestTo x < f.infinity) (m : Nat) :
    |x - f.value (f.nearestTo x)| ≤ |x - f.value m| := by
  rcases hx.eq_or_lt with rfl | hpos
  · rw [nearestTo_zero, value_zero, sub_zero, abs_zero]
    exact abs_nonneg _
  · obtain ⟨q, hq, hv⟩ := value_nearestTo hpos hfin
    have hp : (0 : ℚ) < 2 ^ f.lastPlace x := zpow_pos two_pos _
    -- The numbers that the last place divides are no nearer, and only these can be near from above.
    have hgrid (k : Nat) : |x - f.value (f.nearestTo x)| ≤ |x - k * 2 ^ f.lastPlace x| := by
      rw [hv, abs_sub_mul_eq hp, abs_sub_mul_eq hp]
      exact mul_le_mul_of_nonneg_right (hq.abs_sub_le_abs_sub k) hp.le
    rcases f.value_cases (f.lastPlace x) m with ⟨k, hk⟩ | ⟨hlt, hm⟩
    · rw [hk]
      exact hgrid k
    · -- The least number of the binade lies between the magnitude and `x`.
      have hle := le_div_lastPlace hpos hlt
      rw [le_div_iff₀ hp] at hle
      refine (hgrid f.fractions).trans ?_
      rw [abs_of_nonneg (by linarith), abs_of_nonneg (by linarith)]
      linarith

end JsonTree.BinaryFormat
