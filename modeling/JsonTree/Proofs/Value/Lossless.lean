import JsonTree.Proofs.Number.Arithmetic
import JsonTree.Proofs.Portable
import JsonTree.Proofs.Value.RoundTrip

/-!
# Integers that numbers are equal to

A number is converted to an integer of 64 bits if it is equal to one. For a double this is found out by tests on the
double itself: it is finite, there is nothing behind its point, and it lies between the least integer and the greatest
one, both taken for doubles. The greatest one is rounded up, out of the range, so that nothing is lost at either end.
-/

namespace JsonTree.Value

/-- The tests on a double that is to be converted. -/
def passesTests (d : Double) : Bool :=
  d.isFinite && d.fract.eq (.ofParts false 0) && (Double.ofInt Int64.minValue.toInt).le d &&
    d.lt (.ofInt Int64.maxValue.toInt)

/-- The conversion with its tests on doubles. -/
def testedInteger? : Value → Option Int64
  | .integer n => some n
  | .double d => if passesTests d then some d.toInt64 else none
  | _ => none

/-! ## The ends of the range -/

theorem value_least : (Double.ofInt Int64.minValue.toInt).value = (-2 ^ 63 : Int) := by decide +kernel

theorem value_greatest : (Double.ofInt Int64.maxValue.toInt).value = (2 ^ 63 : Int) := by decide +kernel

/-- The tests find the doubles whose values are integers in the range. -/
theorem passesTests_iff (d : Double) :
    passesTests d = true ↔ d.isFinite = true ∧ ∃ n : Int64, d.value = n.toInt := by
  have hleast := Double.isFinite_ofInt (natAbs_toInt_le Int64.minValue)
  have hgreatest := Double.isFinite_ofInt (natAbs_toInt_le Int64.maxValue)
  simp only [passesTests, Bool.and_eq_true_iff, and_assoc]
  refine and_congr_right fun hd => ?_
  rw [Double.fract_eq_zero_iff hd, Double.le_iff hleast hd, Double.lt_iff hd hgreatest, value_least, value_greatest]
  constructor
  · rintro ⟨⟨z, hz⟩, hlower, hupper⟩
    rw [hz, Int.cast_le] at hlower
    rw [hz, Int.cast_lt] at hupper
    exact ⟨.ofInt z, by rw [hz, Int64.toInt_ofInt_of_le hlower hupper]⟩
  · rintro ⟨n, hn⟩
    rw [hn, Int.cast_le, Int.cast_lt]
    exact ⟨⟨_, rfl⟩, n.le_toInt, n.toInt_lt⟩

theorem testedInteger?_eq_some_iff {d : Double} {n : Int64} :
    (double d).testedInteger? = some n ↔ d.isFinite = true ∧ d.value = n.toInt := by
  rw [testedInteger?]
  split
  · rename_i h
    obtain ⟨hd, m, hm⟩ := (passesTests_iff d).1 h
    rw [Double.toInt64_of_value_eq hd hm, Option.some_inj, hm, Int.cast_inj, Int64.toInt_inj, and_iff_right hd]
  · rename_i h
    exact iff_of_false nofun fun hn => h ((passesTests_iff d).2 ⟨hn.1, n, hn.2⟩)

theorem toInteger?_eq_some_iff {d : Double} {n : Int64} :
    (double d).toInteger? = some n ↔ d.isFinite = true ∧ d.value = n.toInt := by
  rw [toInteger?, Option.bind_eq_some_iff]
  simp only [Double.toInt?_eq_some_iff, Option.ite_none_right_eq_some, Option.some_inj,
    int64_contains_iff]
  constructor
  · rintro ⟨z, ⟨hd, hz⟩, ⟨hlower, hupper⟩, rfl⟩
    exact ⟨hd, by rw [hz, Int64.toInt_ofInt_of_le hlower hupper]⟩
  · rintro ⟨hd, hn⟩
    exact ⟨n.toInt, ⟨hd, hn⟩, ⟨n.le_toInt, n.toInt_lt⟩, Int64.ofInt_toInt n⟩

theorem testedInteger?_eq (v : Value) : v.testedInteger? = v.toInteger? := by
  cases v with
  | double d => exact Option.ext fun n => testedInteger?_eq_some_iff.trans toInteger?_eq_some_iff.symm
  | _ => rfl

/-! ## Conversion and back -/

theorem isSome_toInteger?_iff {d : Double} :
    (double d).toInteger?.isSome = true ↔
      d.isFinite = true ∧ ∃ z : Int, d.value = z ∧ -2 ^ 63 ≤ z ∧ z ≤ 2 ^ 63 - 1 := by
  simp only [Option.isSome_iff_exists, toInteger?_eq_some_iff]
  constructor
  · rintro ⟨n, hd, hn⟩
    exact ⟨hd, n.toInt, hn, n.le_toInt, Int.le_sub_one_of_lt n.toInt_lt⟩
  · rintro ⟨hd, z, hz, hlower, hupper⟩
    exact ⟨.ofInt z, hd, by rw [hz, Int64.toInt_ofInt_of_le hlower (Int.lt_of_le_sub_one hupper)]⟩

/-- Widening what a double is converted to gives a double equal to it. -/
theorem getDouble_of_toInteger? {d : Double} {n : Int64} (h : (double d).toInteger? = some n) :
    ∃ e, (integer n).getDouble = .ok e ∧ e.eq d = true ∧ e.value = d.value := by
  obtain ⟨hd, hn⟩ := toInteger?_eq_some_iff.1 h
  have hvalue : (Double.ofInt n.toInt).value = d.value := by
    rw [Double.value_ofInt_of_value_eq hd hn (natAbs_toInt_le n), hn]
  exact ⟨.ofInt n.toInt, rfl, (Double.eq_iff (Double.isFinite_ofInt (natAbs_toInt_le n)) hd).2 hvalue, hvalue⟩

/-- A number is converted just if it is an integer in the range, and then nothing is lost. -/
theorem toInteger?_exact (v : Value) :
    v.testedInteger? = v.toInteger? ∧
      (∀ n, v = .integer n → v.toInteger? = some n) ∧
      (∀ d, v = .double d →
        (v.toInteger?.isSome = true ↔
          d.isFinite = true ∧ ∃ z : Int, d.value = z ∧ -2 ^ 63 ≤ z ∧ z ≤ 2 ^ 63 - 1) ∧
        (∀ n, v.toInteger? = some n →
          d.value = n.toInt ∧ ∃ e, (integer n).getDouble = .ok e ∧ e.eq d = true ∧ e.value = d.value) ∧
        (d.magnitude = 0 → v.toInteger? = some 0)) ∧
      (v.kind ≠ .integer → v.kind ≠ .double → v.toInteger? = none) := by
  refine ⟨testedInteger?_eq v, ?_, ?_, ?_⟩
  · rintro n rfl
    rfl
  · rintro d rfl
    refine ⟨isSome_toInteger?_iff, fun n hn => ?_, fun hzero => ?_⟩
    · exact ⟨(toInteger?_eq_some_iff.1 hn).2, getDouble_of_toInteger? hn⟩
    · refine toInteger?_eq_some_iff.2 ⟨Double.isFinite_of_magnitude_eq_zero hzero, ?_⟩
      exact Double.value_of_magnitude_eq_zero hzero
  · intro hinteger hdouble
    cases v with
    | integer n => exact absurd rfl hinteger
    | double d => exact absurd rfl hdouble
    | _ => rfl

/-- The least integer is a double. The greatest one is not, and zeros of both signs are zero. -/
theorem toInteger?_exact_atEnds :
    (integer 7).toInteger? = some 7 ∧
      (∃ e, (integer Int64.minValue).getDouble = .ok e ∧ e.eq (.ofInt Int64.minValue.toInt) = true) ∧
      ¬ (double (.ofInt Int64.maxValue.toInt)).toInteger?.isSome = true ∧
      (double (.ofParts true 0)).toInteger? = some 0 ∧
      (boolean true).toInteger? = none := by
  have hleast : (double (.ofInt Int64.minValue.toInt)).toInteger? = some Int64.minValue := by decide +kernel
  obtain ⟨-, e, he, heq, -⟩ := ((toInteger?_exact (double (.ofInt Int64.minValue.toInt))).2.2.1 _ rfl).2.1 _ hleast
  refine ⟨(toInteger?_exact (integer 7)).2.1 7 rfl, ⟨e, he, heq⟩, fun hsome => ?_, ?_, ?_⟩
  · obtain ⟨-, z, hz, -, hupper⟩ :=
      ((toInteger?_exact (double (.ofInt Int64.maxValue.toInt))).2.2.1 _ rfl).1.1 hsome
    rw [value_greatest, Int.cast_inj] at hz
    omega
  · exact ((toInteger?_exact (double (.ofParts true 0))).2.2.1 _ rfl).2.2 (by decide)
  · exact (toInteger?_exact (boolean true)).2.2.2 (by decide) (by decide)

end JsonTree.Value
