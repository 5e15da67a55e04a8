import Mathlib.Algebra.Order.Field.Rat
import Mathlib.Algebra.Order.Round
import Mathlib.Data.Int.Log
import Mathlib.Data.Rat.Floor
import Mathlib.Tactic.Linarith
import Mathlib.Tactic.Positivity
import Mathlib.Tactic.Ring
import JsonTree.Number.Rounding

/-!
# Quotients as rational numbers

What is computed of a numerator and a denominator depends on their quotient alone: the nearest integer and the place
of the leading digit.
-/

namespace JsonTree.Rounding

/-! ## Scales -/

theorem rescale_div {base : Nat} (hb : 0 < base) (e : Int) (num den : Nat) :
    ((rescale base e num den).1 : ℚ) / (rescale base e num den).2 = num / den / (base : ℚ) ^ e := by
  have hb' : (base : ℚ) ≠ 0 := by positivity
  unfold rescale
  split
  · rename_i he
    obtain ⟨k, rfl⟩ := Int.eq_ofNat_of_zero_le he
    rw [Int.toNat_natCast, zpow_natCast, Nat.cast_mul, Nat.pow_eq, Nat.cast_pow, div_div]
  · rename_i he
    obtain ⟨k, hk⟩ := Int.eq_ofNat_of_zero_le (show 0 ≤ -e by omega)
    obtain rfl : e = -k := by omega
    rw [neg_neg, Int.toNat_natCast, zpow_neg, zpow_natCast, Nat.cast_mul, Nat.pow_eq, Nat.cast_pow, div_inv_eq_mul]
    ring

theorem rescale_snd_pos {base : Nat} (hb : 0 < base) (e : Int) (num : Nat) {den : Nat} (hd : 0 < den) :
    0 < (rescale base e num den).2 := by
  unfold rescale
  split
  · exact Nat.mul_pos hd (Nat.pow_pos hb)
  · exact hd

/-! ## Nearest integers -/

/-- No integer is nearer to `x` than `q`, and `q` is even if another one is as near. -/
structure IsNearest (x : ℚ) (q : Nat) : Prop where
  near : |x - q| ≤ 1 / 2
  even : |x - q| = 1 / 2 → Even q

theorem isNearest_natCast (n : Nat) : IsNearest n n := by constructor <;> norm_num

theorem IsNearest.mono {x y q r} (hx : IsNearest x q) (hy : IsNearest y r) (h : x ≤ y) : q ≤ r := by
  by_contra hlt
  have hq : (r : ℚ) + 1 ≤ q := by exact_mod_cast Nat.not_le.1 hlt
  have hxl := (abs_le.1 hx.near).1
  have hyr := (abs_le.1 hy.near).2
  -- Both lie in the middle between the neighbours `r` and `q`, which cannot both be even.
  have hxq : x - q = -(1 / 2) := by linarith
  have hyr' : y - r = 1 / 2 := by linarith
  have he := hx.even (by rw [hxq]; norm_num)
  have he' := hy.even (by rw [hyr']; norm_num)
  obtain rfl : q = r + 1 := by
    have : (q : ℚ) = (r + 1 : Nat) := by
      push_cast
      linarith
    exact_mod_cast this
  exact Nat.not_even_iff_odd.2 he'.add_one he

theorem IsNearest.abs_sub_le_abs_sub {x q} (h : IsNearest x q) (k : Nat) : |x - q| ≤ |x - k| := by
  rcases eq_or_ne k q with rfl | hne
  · exact le_rfl
  · -- Another integer is at least one away from `q`, which is at most a half away from `x`.
    have hk : (1 : ℚ) ≤ |(k : ℚ) - q| := by
      have := Int.one_le_abs (sub_ne_zero.2 (Nat.cast_injective.ne hne : (k : Int) ≠ q))
      exact_mod_cast this
    have ht := abs_sub_le (k : ℚ) x q
    rw [abs_sub_comm (k : ℚ) x] at ht
    linarith [h.near]

/-- Of two integers that are as near, the one that is taken is even. -/
theorem IsNearest.even_of_tie {x q} (h : IsNearest x q) {k : Nat} (hne : k ≠ q) (htie : |x - k| = |x - q|) :
    Even q := by
  have hk : (1 : ℚ) ≤ |(k : ℚ) - q| := by
    have := Int.one_le_abs (sub_ne_zero.2 (Nat.cast_injective.ne hne : (k : Int) ≠ q))
    exact_mod_cast this
  have ht := abs_sub_le (k : ℚ) x q
  rw [abs_sub_comm (k : ℚ) x, htie] at ht
  exact h.even (le_antisymm h.near (by linarith))

theorem isNearest_of_lt_half (q : Nat) {f : ℚ} (h0 : 0 ≤ f) (h : f < 1 / 2) : IsNearest (q + f) q := by
  constructor <;> rw [add_sub_cancel_left, abs_of_nonneg h0]
  · exact h.le
  · exact fun he => absurd he h.ne

theorem isNearest_of_half_lt (q : Nat) {f : ℚ} (h : 1 / 2 < f) (h1 : f < 1) : IsNearest (q + f) (q + 1) := by
  have hneg : (q : ℚ) + f - (q + 1 : Nat) = -(1 - f) := by
    push_cast
    ring
  constructor <;> rw [hneg, abs_neg, abs_of_pos (sub_pos.2 h1)]
  · linarith
  · intro he
    linarith

theorem isNearest_half_of_even {q : Nat} (hq : Even q) : IsNearest (q + 1 / 2) q := by
  constructor <;> rw [add_sub_cancel_left, abs_of_pos one_half_pos]
  exact fun _ => hq

theorem isNearest_half_of_odd {q : Nat} (hq : Odd q) : IsNearest (q + 1 / 2) (q + 1) := by
  have hneg : (q : ℚ) + 1 / 2 - (q + 1 : Nat) = -(1 / 2) := by
    push_cast
    ring
  constructor <;> rw [hneg, abs_neg, abs_of_pos one_half_pos]
  exact fun _ => hq.add_one

theorem isNearest_nearest (num : Nat) {den : Nat} (hd : 0 < den) : IsNearest ((num : ℚ) / den) (nearest num den) := by
  have hd' : (0 : ℚ) < den := by exact_mod_cast hd
  have hx : (num : ℚ) / den = (num / den : Nat) + (num % den : Nat) / (den : ℚ) := by
    rw [div_eq_iff hd'.ne', add_mul, div_mul_cancel₀ _ hd'.ne']
    exact_mod_cast (Nat.div_add_mod' num den).symm
  have hr : (num % den : Nat) / (den : ℚ) < 1 := by
    rw [div_lt_one hd']
    exact_mod_cast Nat.mod_lt num hd
  have hr' : 0 ≤ (num % den : Nat) / (den : ℚ) := by positivity
  have hlt : 2 * (num % den) < den ↔ (num % den : Nat) / (den : ℚ) < 1 / 2 := by
    rw [div_lt_iff₀ hd', one_div_mul_eq_div, lt_div_iff₀' two_pos]
    exact_mod_cast Iff.rfl
  have hgt : den < 2 * (num % den) ↔ 1 / 2 < (num % den : Nat) / (den : ℚ) := by
    rw [lt_div_iff₀ hd', one_div_mul_eq_div, div_lt_iff₀' two_pos]
    exact_mod_cast Iff.rfl
  simp only [nearest, hx]
  generalize num / den = q at *
  generalize (num % den : Nat) / (den : ℚ) = f at *
  split
  · rename_i h
    exact isNearest_of_lt_half q hr' (hlt.1 h)
  · rename_i hl
    split
    · rename_i h
      exact isNearest_of_half_lt q (hgt.1 h) hr
    · rename_i hg
      obtain rfl : f = 1 / 2 := le_antisymm (not_lt.1 (mt hgt.2 hg)) (not_lt.1 (mt hlt.2 hl))
      split
      · rename_i he
        exact isNearest_half_of_even (Nat.even_iff.2 he)
      · rename_i he
        exact isNearest_half_of_odd (Nat.odd_iff.2 (Nat.mod_two_ne_zero.1 he))

/-! ## Leading digits -/

theorem log_eq_of_le_of_lt {base : Nat} (hb : 1 < base) {x : ℚ} {e : Int} (hle : (base : ℚ) ^ e ≤ x)
    (hlt : x < (base : ℚ) ^ (e + 1)) : Int.log base x = e := by
  have hx : 0 < x := lt_of_lt_of_le (zpow_pos (by exact_mod_cast Nat.lt_of_succ_lt hb) e) hle
  have h := (Int.zpow_le_iff_le_log hb hx).1 hle
  have h' := (Int.lt_zpow_iff_log_lt hb hx).1 hlt
  omega

theorem log2_bounds {n : Nat} (hn : 0 < n) : (2 : ℚ) ^ (n.log2 : Int) ≤ n ∧ (n : ℚ) < 2 ^ (n.log2 + 1 : Int) := by
  constructor
  · rw [zpow_natCast]
    exact_mod_cast Nat.log2_self_le hn.ne'
  · exact_mod_cast Nat.lt_log2_self (n := n)

theorem rescale_lt_iff {num den : Nat} (hd : 0 < den) (e : Int) :
    (rescale 2 e num den).1 < (rescale 2 e num den).2 ↔ (num : ℚ) / den < 2 ^ e := by
  have hp := rescale_snd_pos two_pos e num hd
  have hr := rescale_div two_pos e num den
  have two : (0 : ℚ) < 2 ^ e := zpow_pos two_pos e
  rw [Nat.cast_two] at hr
  rw [← div_lt_one two, ← hr, div_lt_one (by exact_mod_cast hp)]
  exact_mod_cast Iff.rfl

theorem div_lt_two_pow {num den : Nat} (hn : 0 < num) (hd : 0 < den) :
    (num : ℚ) / den < 2 ^ (num.log2 - den.log2 + 1 : Int) := by
  have hd' : (0 : ℚ) < den := by exact_mod_cast hd
  rw [div_lt_iff₀ hd']
  apply (log2_bounds hn).2.trans_le
  calc (2 : ℚ) ^ (num.log2 + 1 : Int) = 2 ^ (num.log2 - den.log2 + 1 : Int) * 2 ^ (den.log2 : Int) := by
        rw [← zpow_add₀ two_ne_zero]
        congr 1
        ring
    _ ≤ _ := mul_le_mul_of_nonneg_left (log2_bounds hd).1 (zpow_pos two_pos _).le

theorem two_pow_le_div {num den : Nat} (hn : 0 < num) (hd : 0 < den) :
    (2 : ℚ) ^ (num.log2 - den.log2 - 1 : Int) ≤ num / den := by
  have hd' : (0 : ℚ) < den := by exact_mod_cast hd
  rw [le_div_iff₀ hd']
  apply le_trans _ (log2_bounds hn).1
  calc (2 : ℚ) ^ (num.log2 - den.log2 - 1 : Int) * den
      ≤ 2 ^ (num.log2 - den.log2 - 1 : Int) * 2 ^ (den.log2 + 1 : Int) :=
        mul_le_mul_of_nonneg_left (log2_bounds hd).2.le (zpow_pos two_pos _).le
    _ = 2 ^ (num.log2 : Int) := by
        rw [← zpow_add₀ two_ne_zero]
        congr 1
        ring

theorem binaryPlace_eq {num den : Nat} (hn : 0 < num) (hd : 0 < den) :
    binaryPlace num den = Int.log 2 ((num : ℚ) / den) := by
  have hl := two_pow_le_div hn hd
  have hu := div_lt_two_pow hn hd
  simp only [binaryPlace]
  -- The lengths leave two places to choose from, and one comparison decides.
  split
  · rename_i h
    refine (log_eq_of_le_of_lt one_lt_two (by exact_mod_cast hl) ?_).symm
    rw [sub_add_cancel]
    exact_mod_cast (rescale_lt_iff hd _).1 h
  · rename_i h
    rw [rescale_lt_iff hd, not_lt] at h
    exact (log_eq_of_le_of_lt one_lt_two (by exact_mod_cast h) (by exact_mod_cast hu)).symm

end JsonTree.Rounding
