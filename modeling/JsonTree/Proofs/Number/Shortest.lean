import JsonTree.Number.Shortest
import JsonTree.Proofs.Number.Decimal

/-!
# Shortest decimal numbers read back

Every candidate is tried before it is taken, all digits are the exact value, and dropping zeros changes no value. So
the decimal number that a finite double is written as reads back as that double.
-/

namespace JsonTree.Shortest

open BinaryFormat

variable {d : Double} {tie : Tie}

theorem readsBack_iff {c : Nat} {e : Int} :
    readsBack d c e = true ↔ BinaryFormat.double.nearestTo (Decimal.value ⟨false, c, e⟩) = d.magnitude := by
  rw [readsBack, beq_iff_eq, Decimal.toDouble_eq]
  constructor
  · intro h
    have := congrArg Double.magnitude h
    rwa [Double.magnitude_ofParts _ (Double.nearestTo_lt_signBit _),
      Double.magnitude_ofParts _ d.magnitude_lt_signBit] at this
  · intro h
    rw [h]

theorem readsBack_of_onGrid? {c : Nat} {e : Int} (h : onGrid? tie d e = some c) : readsBack d c e = true := by
  simp only [onGrid?] at h
  split at h
  · rename_i hb ha
    repeat' split at h
    all_goals cases h
    all_goals first | exact hb | exact ha
  · cases h
    assumption
  · cases h
    assumption
  · cases h

/-! ## All digits -/

theorem ratio_snd_eq_pow (m : Nat) : ∃ k, (BinaryFormat.double.ratio m).2 = 2 ^ k := by
  simp only [ratio, Rounding.rescale]
  split
  · exact ⟨_, Nat.one_mul _⟩
  · exact ⟨0, rfl⟩

theorem value_exact (d : Double) (negative : Bool) :
    Decimal.value ⟨negative, (exact d).1, (exact d).2⟩ = BinaryFormat.double.value d.magnitude := by
  obtain ⟨k, hk⟩ := ratio_snd_eq_pow d.magnitude
  have hl : Nat.log2 d.ratio.2 = k := by rw [Double.ratio, hk, Nat.log2_two_pow]
  have h10 : (10 : ℚ) ^ k = 2 ^ k * 5 ^ k := by rw [← mul_pow]; norm_num
  simp only [exact, hl, Decimal.value]
  rw [← ratio_div, hk, zpow_neg, zpow_natCast, h10, Nat.pow_eq, Double.ratio]
  push_cast
  field_simp

/-! ## Zeros at the end -/

theorem value_dropZeros (negative : Bool) (c : Nat) (e : Int) :
    Decimal.value ⟨negative, (dropZeros c e).1, (dropZeros c e).2⟩ = Decimal.value ⟨negative, c, e⟩ := by
  fun_induction dropZeros c e with
  | case1 c e h ih =>
      have hc : (c : ℚ) = (c / 10 : Nat) * 10 := by
        exact_mod_cast (Nat.div_mul_cancel (Nat.dvd_of_mod_eq_zero h.1)).symm
      rw [ih, Decimal.value, Decimal.value, zpow_add_one₀ (by norm_num), hc]
      ring
  | case2 => rfl

/-! ## The shortest number -/

theorem nearestTo_decimal (tie : Tie) (hd : d.isFinite = true) :
    BinaryFormat.double.nearestTo (decimal tie d).value = d.magnitude := by
  simp only [decimal]
  rw [value_dropZeros]
  generalize hf : List.findSome? _ _ = found
  cases found with
  | none =>
      rw [Option.getD_none, value_exact]
      exact nearestTo_value (Nat.le_of_lt (of_decide_eq_true hd))
  | some p =>
      obtain ⟨n, -, hn⟩ := List.exists_of_findSome?_eq_some hf
      obtain ⟨c, hc, rfl⟩ := Option.map_eq_some_iff.1 hn
      exact readsBack_iff.1 (readsBack_of_onGrid? hc)

/-- Decimal numbers that read back as the doubles that they stand for. -/
def Faithful (shortest : Double → Decimal) : Prop :=
  ∀ {d : Double}, d.isFinite = true → BinaryFormat.double.nearestTo (shortest d).value = d.magnitude

theorem faithful_decimal (tie : Tie) : Faithful (decimal tie) := nearestTo_decimal tie

theorem Faithful.coefficient_pos {shortest : Double → Decimal} (h : Faithful shortest) (hd : d.isFinite = true)
    (hm : 0 < d.magnitude) : 0 < (shortest d).coefficient := by
  refine Nat.pos_of_ne_zero fun hc => ?_
  have := h hd
  rw [Decimal.value, hc, Nat.cast_zero, zero_mul, nearestTo_zero] at this
  omega

end JsonTree.Shortest
