import JsonTree.Proofs.Number.Narrowing
import JsonTree.Proofs.Value.RoundTrip

/-!
# Integers as floating-point numbers

An integer casts to the double nearest to it, and to the single nearest to that double. The single is not always the one
nearest to the integer: where the double is halfway between two singles, the integer may lie to one side of it.
-/

namespace JsonTree.Value

/-- Both casts of an integer are rounded to the nearest, ties to even: the double from the integer and the single from
the double. The single is the one that a direct conversion gives, unless the double is halfway between two singles and
the integer is on the side of the odd one. -/
theorem toSingle?_integer (n : Int64) :
    ∃ d s, (integer n).toDouble? = some d ∧ (integer n).toSingle? = some s ∧
      d = .ofInt n.toInt ∧ BinaryFormat.double.NearestEven n.toInt d.isNegative d.magnitude ∧
      BinaryFormat.single.NearestEven d.value s.isNegative s.magnitude ∧
      BinaryFormat.single.NearestEven n.toInt (Single.ofInt n.toInt).isNegative (Single.ofInt n.toInt).magnitude ∧
      d.isNegative = decide (n.toInt < 0) ∧ s.isNegative = decide (n.toInt < 0) ∧
      (Single.ofInt n.toInt).isNegative = decide (n.toInt < 0) ∧
      (s ≠ Single.ofInt n.toInt ↔
        ∃ k < BinaryFormat.single.infinity, |d.value| = BinaryFormat.single.middle k ∧
          (Even k ∧ |d.value| < |(n.toInt : ℚ)| ∨ Odd k ∧ |(n.toInt : ℚ)| < |d.value|)) := by
  have hn := natAbs_toInt_le n
  have hfin := Double.isFinite_ofInt hn
  have hle : BinaryFormat.double.value (Double.ofInt n.toInt).magnitude ≤ 2 ^ 64 := by
    rw [Double.magnitude_ofInt]
    exact BinaryFormat.value_nearestTo_double_le (Nat.cast_nonneg _) (by exact_mod_cast hn)
  refine ⟨.ofInt n.toInt, (Double.ofInt n.toInt).toSingle, rfl, rfl, rfl, Double.nearestEven_ofInt hn,
    Double.nearestEven_toSingle hfin hle, Single.nearestEven_ofInt hn, Double.isNegative_ofInt _, ?sign,
    Single.isNegative_ofInt _, ?stray⟩
  case sign =>
    rw [Double.toSingle_of_isFinite hfin, Single.isNegative_ofParts (Single.nearestTo_lt_signBit _),
      Double.isNegative_ofInt]
  case stray =>
    have habs : (n.toInt.natAbs : ℚ) = |(n.toInt : ℚ)| := by rw [Nat.cast_natAbs, Int.cast_abs]
    rw [Double.toSingle_ofInt_ne_iff hn, BinaryFormat.Strays, ← Double.magnitude_ofInt, ← Double.abs_value, habs]
    exact exists_congr fun k => and_congr_right fun _ => and_congr_right fun h => by rw [h]

/-- Halfway between two singles there is a double that an odd integer just behind it is rounded to. The single is the
one in front, and the next one is nearer to the integer. -/
theorem toSingle?_integer_notNearest :
    ∃ s, (integer 9007199791611905).toSingle? = some s ∧ s ≠ .ofInt 9007199791611905 ∧
      ¬ BinaryFormat.single.NearestEven 9007199791611905 s.isNegative s.magnitude := by
  refine ⟨⟨0x5A000000⟩, by decide +kernel, by decide +kernel, fun h => ?_⟩
  have hnear := h.le false 0x5A000001 (by decide)
  have hfront :
      BinaryFormat.single.signed (Single.isNegative ⟨0x5A000000⟩) (Single.magnitude ⟨0x5A000000⟩) = 2 ^ 53 := by
    decide +kernel
  have hbehind : BinaryFormat.single.signed false 0x5A000001 = 2 ^ 53 + 2 ^ 30 := by decide +kernel
  rw [hfront, hbehind] at hnear
  norm_num at hnear

end JsonTree.Value
