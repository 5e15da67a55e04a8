import JsonTree.Proofs.Number.Nearest

/-!
# Ties

Rounding to a format takes the number that is nearest, and of two that are as near the even one. This says which number
that is. Halfway between two magnitudes that follow each other the even one is taken, and a number before or behind
that middle goes to its own side.
-/

namespace JsonTree.BinaryFormat

open Rounding

variable {f : BinaryFormat}

/-! ## Even numbers -/

/-- No finite number of the format is nearer than the one of these parts, which is even if another one is as near. -/
structure NearestEven (f : BinaryFormat) (x : ℚ) (negative : Bool) (m : Nat) : Prop where
  finite : m < f.infinity
  le : ∀ negative' n, n < f.infinity → |x - f.signed negative m| ≤ |x - f.signed negative' n|
  even : ∀ negative' n, n < f.infinity → f.signed negative' n ≠ f.signed negative m →
    |x - f.signed negative' n| = |x - f.signed negative m| → Even m

theorem even_fractions (hf : 0 < f.fractionBits) : Even f.fractions := (Nat.even_pow' hf.ne').2 even_two

theorem even_nearestTo (hf : 0 < f.fractionBits) {x : ℚ} (hx : 0 ≤ x) (hfin : f.nearestTo x < f.infinity) {n : Nat}
    (hne : f.value n ≠ f.value (f.nearestTo x)) (htie : |x - f.value n| = |x - f.value (f.nearestTo x)|) :
    Even (f.nearestTo x) := by
  rcases hx.eq_or_lt with rfl | hpos
  · exact Even.zero
  · obtain ⟨q, hq, hm⟩ := rounds_nearestTo (f := f) hpos
    obtain ⟨q', hq', hv⟩ := value_nearestTo hpos hfin
    obtain rfl : q = q' := le_antisymm (hq.mono hq' le_rfl) (hq'.mono hq le_rfl)
    have hp : (0 : ℚ) < 2 ^ f.lastPlace x := zpow_pos two_pos _
    have heven : Even q := by
      rcases f.value_cases (f.lastPlace x) n with ⟨k, hk⟩ | ⟨hlt, hn⟩
      · have hkq : k ≠ q := by
          rintro rfl
          exact hne (hk.trans hv.symm)
        rw [hk, hv, abs_sub_mul_eq hp, abs_sub_mul_eq hp] at htie
        exact hq.even_of_tie hkq (mul_right_cancel₀ hp.ne' htie)
      · -- The least number of the binade lies between the other one and `x`, and is nearer.
        have hle := le_div_lastPlace hpos hlt
        have hnear := hq.abs_sub_le_abs_sub f.fractions
        rw [hv, abs_sub_mul_eq hp] at htie
        have hgrid := mul_le_mul_of_nonneg_right hnear hp.le
        rw [← htie, ← abs_sub_mul_eq hp] at hgrid
        rw [le_div_iff₀ hp] at hle
        rw [abs_of_nonneg (by linarith), abs_of_nonneg (by linarith)] at hgrid
        linarith
    have hmin : f.nearestTo x = (f.lastPlace x - f.leastExponent).toNat * f.fractions + q := by omega
    rw [hmin]
    exact ((even_fractions hf).mul_left _).add heven

theorem nearestEven_nearestTo (hf : 0 < f.fractionBits) (negative : Bool) {x : ℚ} (hx : 0 ≤ x)
    (hfin : f.nearestTo x < f.infinity) :
    f.NearestEven (if negative then -x else x) negative (f.nearestTo x) := by
  refine ⟨hfin, fun negative' n _ => ?_, fun negative' n _ hne htie => ?_⟩
  · rw [abs_sub_signed]
    exact (abs_sub_nearestTo_le hx hfin n).trans (abs_sub_value_le negative hx negative' n)
  · by_cases hsign : negative' = negative
    · subst hsign
      rw [abs_sub_signed, abs_sub_signed] at htie
      refine even_nearestTo hf hx hfin (fun heq => hne ?_) htie
      rw [signed, signed, heq]
    · -- Then the other number is zero, and zero has both signs.
      have hnear := abs_sub_nearestTo_le hx hfin 0
      rw [abs_sub_signed_of_ne hsign hx, abs_sub_signed] at htie
      rw [value_zero, sub_zero, abs_of_nonneg hx] at hnear
      have hzero : f.value n = 0 := le_antisymm (by linarith) (value_nonneg n)
      refine even_nearestTo (n := 0) hf hx hfin (fun heq => hne ?_) ?_
      · rw [value_zero] at heq
        rw [signed, signed, hzero, ← heq, neg_zero, ite_self, ite_self]
      · rw [value_zero, sub_zero, abs_of_nonneg hx, ← htie, hzero, add_zero]

theorem nearestEven_natAbs (hf : 0 < f.fractionBits) {n : Int} (hfin : f.nearestTo n.natAbs < f.infinity) :
    f.NearestEven n (decide (n < 0)) (f.nearestTo n.natAbs) := by
  have h := nearestEven_nearestTo hf (decide (n < 0)) (Nat.cast_nonneg n.natAbs) hfin
  rwa [ite_natAbs] at h

/-! ## Middles -/

/-- The middle between a magnitude and the next one. -/
def middle (f : BinaryFormat) (k : Nat) : ℚ := (f.value k + f.value (k + 1)) / 2

variable {x : ℚ} {k : Nat}

theorem nearestTo_le_of_lt_middle (hx : 0 ≤ x) (hfin : f.nearestTo x < f.infinity) (hk : k < f.infinity)
    (h : x < f.middle k) : f.nearestTo x ≤ k := by
  by_contra hlt
  rw [not_le] at hlt
  have hle : f.value (k + 1) ≤ f.value (f.nearestTo x) := (value_le_value_iff hk hfin.le).2 hlt
  have hstep : f.value k < f.value (k + 1) := (value_lt_value_iff hk.le hk).2 (Nat.lt_succ_self k)
  have hnear := (neg_le_abs _).trans (abs_sub_nearestTo_le hx hfin k)
  rw [middle] at h
  rcases abs_cases (x - f.value k) with ⟨habs, -⟩ | ⟨habs, -⟩ <;> rw [habs] at hnear <;> linarith

theorem lt_nearestTo_of_middle_lt (hx : 0 ≤ x) (hfin : f.nearestTo x < f.infinity) (hk : k < f.infinity)
    (h : f.middle k < x) : k < f.nearestTo x := by
  by_contra hle
  rw [not_lt] at hle
  have hle : f.value (f.nearestTo x) ≤ f.value k := (value_le_value_iff hfin.le hk.le).2 hle
  have hstep : f.value k < f.value (k + 1) := (value_lt_value_iff hk.le hk).2 (Nat.lt_succ_self k)
  have hnear := (le_abs_self _).trans (abs_sub_nearestTo_le hx hfin (k + 1))
  rw [middle] at h
  rcases abs_cases (x - f.value (k + 1)) with ⟨habs, -⟩ | ⟨habs, -⟩ <;> rw [habs] at hnear <;> linarith

theorem middle_nonneg (k : Nat) : 0 ≤ f.middle k :=
  div_nonneg (add_nonneg (value_nonneg k) (value_nonneg (k + 1))) two_pos.le

/-- Of the two magnitudes around a middle, rounding takes the even one. -/
theorem nearestTo_middle_cases (hf : 0 < f.fractionBits) (hk : k < f.infinity)
    (hfin : f.nearestTo (f.middle k) < f.infinity) :
    (f.nearestTo (f.middle k) = k ∧ Even k) ∨ (f.nearestTo (f.middle k) = k + 1 ∧ Odd k) := by
  have hstep : f.value k < f.value (k + 1) := (value_lt_value_iff hk.le hk).2 (Nat.lt_succ_self k)
  have hlower : k ≤ f.nearestTo (f.middle k) := by
    have := nearestTo_mono (f := f) (value_nonneg k) (show f.value k ≤ f.middle k by rw [middle]; linarith)
    rwa [nearestTo_value hk.le] at this
  have hupper : f.nearestTo (f.middle k) ≤ k + 1 := by
    have := nearestTo_mono (f := f) (middle_nonneg k) (show f.middle k ≤ f.value (k + 1) by rw [middle]; linarith)
    rwa [nearestTo_value hk] at this
  have heven {n : Nat} := even_nearestTo (n := n) hf (middle_nonneg k) hfin
  have hdist : |f.middle k - f.value (k + 1)| = |f.middle k - f.value k| := by
    rw [abs_sub_comm, middle]
    congr 1
    ring
  obtain h | h : f.nearestTo (f.middle k) = k ∨ f.nearestTo (f.middle k) = k + 1 := by omega
  · rw [h] at heven
    exact .inl ⟨h, heven hstep.ne' hdist⟩
  · rw [h] at heven
    exact .inr ⟨h, by simpa [Nat.even_add_one] using heven hstep.ne hdist.symm⟩

end JsonTree.BinaryFormat
