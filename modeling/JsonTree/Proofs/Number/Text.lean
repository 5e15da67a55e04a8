import JsonTree.Proofs.Number.Style
import JsonTree.Value.Text

/-!
# Written numbers are numbers of documents

An integer is written as a plain numeral. Numbers that are not finite are written as words, all NaNs as one.
-/

namespace JsonTree

open Byte Grammar Utf8

/-! ## Integers -/

theorem Value.natAbs_toInt_le (n : Int64) : n.toInt.natAbs ≤ 2 ^ 64 := by
  have hl := n.le_toInt
  have hu := n.toInt_lt
  omega

namespace Numeral

theorem native_contains_iff {n : Int} : native.contains n = true ↔ -2 ^ 31 ≤ n ∧ n < 2 ^ 31 := by
  have hleast : native.least = -2 ^ 31 := rfl
  have hgreatest : native.greatest = 2 ^ 31 - 1 := rfl
  rw [IntType.contains, hleast, hgreatest, Bool.and_eq_true, decide_eq_true_eq, decide_eq_true_eq]
  omega

theorem toInt_ofInt_of_native {n : Int} (h : native.contains n = true) : (Int64.ofInt n).toInt = n := by
  obtain ⟨hl, hu⟩ := native_contains_iff.1 h
  exact Int64.toInt_ofInt_of_le (by omega) (by omega)

/-- The numeral that an integer is written as. -/
def ofInteger (n : Int) : Numeral := ⟨decide (n < 0), digitBytes n.natAbs, none, none⟩

theorem toInt_ofInteger (n : Int) : (ofInteger n).toInt = n := by
  simp only [ofInteger, toInt, ofDigits_digitBytes, decide_eq_true_eq]
  split <;> omega

theorem value_ofInteger (n : Int) :
    (ofInteger n).value = if native.contains n then .integer (.ofInt n) else .double (.ofInt n) := by
  have hv : Decimal.value (ofInteger n).toDecimal = n.natAbs := by
    simp [ofInteger, value_toDecimal, Numeral.power, ofDigits_digitBytes]
  rw [value, toInt_ofInteger, Decimal.toDouble_eq, hv, Double.ofInt, BinaryFormat.round_eq_nearestTo _ one_pos,
    Nat.cast_one, div_one]
  rfl

theorem numeralText_ofInteger (n : Int) : NumeralText (ofChars (Value.integerText n)) (ofInteger n) := by
  have hs : ofChars (if n < 0 then ['-'] else []) = minusText (decide (n < 0)) := by
    by_cases h : n < 0
    · rw [if_pos h, decide_eq_true h]
      rfl
    · rw [if_neg h, decide_eq_false h]
      rfl
  have h := UnsignedText.mk (decide (n < 0)) (wholeText_digitBytes n.natAbs) .none .none
  rw [List.append_nil, List.append_nil] at h
  rw [Value.integerText, ofChars_append, hs, ofChars_toDigits]
  exact ⟨h⟩

end Numeral

/-! ## Doubles -/

/-- The double with the one NaN that is read. -/
def Double.canonical (d : Double) : Double := if d.isNaN then nan else d

theorem Double.eq_infinity_of_isInfinite {d : Double} (h : d.isInfinite = true) : d = infinity d.isNegative := by
  rw [infinity, ← beq_iff_eq.1 h, ofParts_parts]

/-- The name of a double that is not finite is a number, where it may be read at all. -/
theorem DoubleStyle.numberText_name {D : Meaning} {o : Options} {d : Double} (ho : o.contains .nonFinite = true)
    (hd : d.isFinite = false) : NumberTextBy D o (ofChars (document.name d)) (.double d.canonical) := by
  by_cases hnan : d.isNaN = true
  · rw [name, Double.canonical, if_pos hnan, if_pos hnan]
    exact .nan ho
  · have hinf : d.isInfinite = true := by
      simp only [Double.isFinite, Double.isNaN, Double.isInfinite, decide_eq_true_eq, decide_eq_false_iff_not,
        beq_iff_eq] at hd hnan ⊢
      omega
    have ht : ofChars (document.name d) = minusText d.isNegative ++ Document.Word.infinity := by
      rw [name, if_neg hnan]
      cases d.isNegative <;> rfl
    rw [ht, Double.canonical, if_neg hnan]
    have h := NumberTextBy.infinity (D := D) d.isNegative ho (.inl rfl)
    rwa [← Double.eq_infinity_of_isInfinite hinf] at h

end JsonTree
