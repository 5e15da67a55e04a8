import JsonTree.Proofs.Number.Decimal

/-!
# Doubles that count as the same number

All NaNs count as one number, and so do the two zeros. No other two doubles do. The key of a double is a name for the
number that it counts as.
-/

namespace JsonTree

namespace Double

/-- The number that a finite double stands for. -/
def value (d : Double) : ℚ :=
  if d.isNegative then -BinaryFormat.double.value d.magnitude else BinaryFormat.double.value d.magnitude

/-- Two doubles count as the same number. -/
inductive SameNumber (d e : Double) : Prop where
  | nan (hd : d.isNaN = true) (he : e.isNaN = true)
  | infinite (hd : d.isInfinite = true) (he : e.isInfinite = true) (hs : d.isNegative = e.isNegative)
  | finite (hd : d.isFinite = true) (he : e.isFinite = true) (hv : d.value = e.value)

variable {d e : Double}

theorem eq_of_parts (hs : d.isNegative = e.isNegative) (hm : d.magnitude = e.magnitude) : d = e := by
  rw [← ofParts_parts d, ← ofParts_parts e, hs, hm]

theorem class_cases (d : Double) :
    (d.isNaN = true ∧ d.isInfinite = false ∧ d.isFinite = false) ∨
    (d.isNaN = false ∧ d.isInfinite = true ∧ d.isFinite = false) ∨
    (d.isNaN = false ∧ d.isInfinite = false ∧ d.isFinite = true) := by
  simp only [isNaN, isInfinite, isFinite, decide_eq_true_eq, decide_eq_false_iff_not, beq_iff_eq, beq_eq_false_iff_ne]
  omega

theorem magnitude_lt_infinity (h : d.isFinite = true) : d.magnitude < BinaryFormat.double.infinity :=
  of_decide_eq_true h

theorem isNaN_of_isFinite (h : d.isFinite = true) : d.isNaN = false :=
  decide_eq_false (Nat.not_lt.2 (magnitude_lt_infinity h).le)

theorem isInfinite_of_isFinite (h : d.isFinite = true) : d.isInfinite = false :=
  beq_eq_false_iff_ne.2 (magnitude_lt_infinity h).ne

theorem SameNumber.refl (d : Double) : SameNumber d d := by
  rcases class_cases d with ⟨h, -, -⟩ | ⟨-, h, -⟩ | ⟨-, -, h⟩
  · exact .nan h h
  · exact .infinite h h rfl
  · exact .finite h h rfl

/-! ## Values -/

theorem ratio_snd_pos (d : Double) : 0 < d.ratio.2 := Rounding.rescale_snd_pos two_pos _ _ one_pos

theorem value_of_magnitude_eq_zero (h : d.magnitude = 0) : d.value = 0 := by
  rw [value, h, BinaryFormat.value_zero, neg_zero, ite_self]

theorem isFinite_of_magnitude_eq_zero (h : d.magnitude = 0) : d.isFinite = true := by
  rw [isFinite, h]
  decide

theorem abs_value (d : Double) : |d.value| = BinaryFormat.double.value d.magnitude := by
  have hpos := BinaryFormat.value_nonneg (f := BinaryFormat.double) d.magnitude
  rw [value]
  split
  · rw [abs_neg, abs_of_nonneg hpos]
  · exact abs_of_nonneg hpos

/-- The magnitude of a finite double is the one nearest to its value, and its sign is that of its value. -/
theorem magnitude_eq (h : d.isFinite = true) : d.magnitude = BinaryFormat.double.nearestTo |d.value| := by
  rw [abs_value, BinaryFormat.nearestTo_value (magnitude_lt_infinity h).le]

theorem isNegative_iff (h : 0 < d.magnitude) : d.isNegative = true ↔ d.value < 0 := by
  have hpos := BinaryFormat.value_pos (f := BinaryFormat.double) h
  rw [value]
  split
  · rename_i hn
    simp only [hn, Left.neg_neg_iff, hpos]
  · rename_i hn
    simp only [hn, hpos.not_gt]
    decide

/-- Finite doubles of one value are equal, or are zeros. -/
theorem eq_or_zero_of_value_eq (hd : d.isFinite = true) (he : e.isFinite = true) (hv : d.value = e.value) :
    d = e ∨ d.magnitude = 0 ∧ e.magnitude = 0 := by
  have hm : d.magnitude = e.magnitude := by rw [magnitude_eq hd, magnitude_eq he, hv]
  rcases Nat.eq_zero_or_pos d.magnitude with h | h
  · exact .inr ⟨h, hm ▸ h⟩
  · refine .inl (eq_of_parts ?_ hm)
    rw [Bool.eq_iff_iff, isNegative_iff h, isNegative_iff (hm ▸ h), hv]

/-! ## Keys -/

theorem isNaN_nan : nan.isNaN = true := by decide

theorem key_of_isNaN (h : d.isNaN = true) : d.key = nan.bits := if_pos h

theorem key_of_magnitude_eq_zero (h : d.magnitude = 0) : d.key = 0 := by
  have hn : d.isNaN = false := by
    rw [isNaN, h]
    decide
  rw [key, hn, if_neg Bool.false_ne_true, if_pos h]

theorem key_of_pos (hn : d.isNaN = false) (hm : 0 < d.magnitude) : d.key = d.bits := by
  rw [key, hn, if_neg Bool.false_ne_true, if_neg (Nat.pos_iff_ne_zero.1 hm)]

/-- The key of a double is the bits of a double that counts as the same number. -/
theorem sameNumber_key (d : Double) : SameNumber d ⟨d.key⟩ := by
  by_cases hn : d.isNaN = true
  · rw [key_of_isNaN hn]
    exact .nan hn isNaN_nan
  · rw [Bool.not_eq_true] at hn
    rcases Nat.eq_zero_or_pos d.magnitude with hm | hm
    · have hz : magnitude ⟨0⟩ = 0 := rfl
      rw [key_of_magnitude_eq_zero hm]
      refine .finite (isFinite_of_magnitude_eq_zero hm) (isFinite_of_magnitude_eq_zero hz) ?_
      rw [value_of_magnitude_eq_zero hm, value_of_magnitude_eq_zero hz]
    · rw [key_of_pos hn hm]
      exact .refl d

theorem SameNumber.symm (h : SameNumber d e) : SameNumber e d := by
  cases h with
  | nan hd he => exact .nan he hd
  | infinite hd he hs => exact .infinite he hd hs.symm
  | finite hd he hv => exact .finite he hd hv.symm

theorem SameNumber.trans {f : Double} (h : SameNumber d e) (h' : SameNumber e f) : SameNumber d f := by
  have hclass := class_cases e
  cases h with
  | nan hd he =>
      cases h' with
      | nan _ hf => exact .nan hd hf
      | infinite he' _ _ => simp_all
      | finite he' _ _ => simp_all
  | infinite hd he hs =>
      cases h' with
      | nan he' _ => simp_all
      | infinite _ hf hs' => exact .infinite hd hf (hs.trans hs')
      | finite he' _ _ => simp_all
  | finite hd he hv =>
      cases h' with
      | nan he' _ => simp_all
      | infinite he' _ _ => simp_all
      | finite _ hf hv' => exact .finite hd hf (hv.trans hv')

theorem SameNumber.key_eq (h : SameNumber d e) : d.key = e.key := by
  cases h with
  | nan hd he => rw [key_of_isNaN hd, key_of_isNaN he]
  | infinite hd he hs =>
      rw [eq_of_parts hs ((beq_iff_eq.1 hd).trans (beq_iff_eq.1 he).symm)]
  | finite hd he hv =>
      rcases eq_or_zero_of_value_eq hd he hv with rfl | ⟨hd, he⟩
      · rfl
      · rw [key_of_magnitude_eq_zero hd, key_of_magnitude_eq_zero he]

/-- Two doubles have one key just if they count as the same number. -/
theorem key_eq_key_iff : d.key = e.key ↔ SameNumber d e := by
  constructor
  · intro h
    have he := (sameNumber_key e).symm
    rw [← h] at he
    exact (sameNumber_key d).trans he
  · exact SameNumber.key_eq

end Double

end JsonTree
