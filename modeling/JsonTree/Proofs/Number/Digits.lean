import Mathlib.Tactic.Ring
import JsonTree.Proofs.Grammar.Number
import JsonTree.Proofs.Text.Utf8

/-!
# Decimal digits

The digits of a number as bytes, and the numbers of runs of digits put together. An exponent is read exactly while it
stays below the bound of the reader.
-/

namespace JsonTree.Numeral

open Byte Grammar

/-! ## Numbers of digits -/

theorem foldl_digits (n : Nat) (ds : Bytes) :
    ds.foldl (fun n b => 10 * n + digitValue b) n = n * 10 ^ ds.length + ofDigits ds := by
  rw [ofDigits_eq_foldl]
  induction ds generalizing n with
  | nil => simp
  | cons b ds ih =>
      rw [List.foldl_cons, List.foldl_cons, ih, ih (10 * 0 + digitValue b), List.length_cons]
      ring

@[simp] theorem ofDigits_nil : ofDigits [] = 0 := by rw [ofDigits_eq_foldl, List.foldl_nil]

theorem ofDigits_append (ds ds' : Bytes) : ofDigits (ds ++ ds') = ofDigits ds * 10 ^ ds'.length + ofDigits ds' := by
  rw [ofDigits_eq_foldl, List.foldl_append, ← ofDigits_eq_foldl, foldl_digits]

theorem ofDigits_singleton (b : UInt8) : ofDigits [b] = digitValue b := by simp [ofDigits_eq_foldl]

theorem ofDigits_cons (b : UInt8) (ds : Bytes) :
    ofDigits (b :: ds) = digitValue b * 10 ^ ds.length + ofDigits ds := by
  rw [← List.singleton_append, ofDigits_append, ofDigits_singleton]

theorem ofDigits_zeros (n : Nat) : ofDigits (List.replicate n zero) = 0 := by
  induction n with
  | zero => exact ofDigits_nil
  | succ n ih =>
      have hz : digitValue zero = 0 := rfl
      rw [List.replicate_succ, ofDigits_cons, ih, hz]
      simp

/-- An exponent that is still below the bound in front of its last digit is read as it stands. -/
theorem powerOfDigits_eq {ds : Bytes} (h : ofDigits ds < 10 * powerBound) : powerOfDigits ds = ofDigits ds := by
  rw [powerOfDigits]
  rw [ofDigits_eq_foldl] at h ⊢
  have hle (n : Nat) (ds : Bytes) : n ≤ ds.foldl (fun n b => 10 * n + digitValue b) n := by
    rw [foldl_digits]
    exact Nat.le_trans (Nat.le_mul_of_pos_right n (Nat.pow_pos (by decide))) (Nat.le_add_right _ _)
  generalize 0 = n at h ⊢
  induction ds generalizing n with
  | nil => rfl
  | cons b ds ih =>
      rw [List.foldl_cons] at h ⊢
      have hn : n < powerBound := by
        have := hle (10 * n + digitValue b) ds
        omega
      rw [nextPower, if_pos hn, List.foldl_cons]
      exact ih _ h

/-! ## Digits of numbers -/

/-- The decimal digits of a number. -/
def digitBytes (n : Nat) : Bytes := (Nat.toDigits 10 n).map fun c => .ofNat c.toNat

theorem digitBytes_of_lt : ∀ n < 10, digitBytes n = [.ofNat (n + 0x30)] := by decide

theorem digit_of_lt : ∀ n < 10, isDigit (.ofNat (n + 0x30)) = true ∧ digitValue (.ofNat (n + 0x30)) = n := by decide

theorem digitBytes_of_le {n : Nat} (hn : 10 ≤ n) : digitBytes n = digitBytes (n / 10) ++ digitBytes (n % 10) := by
  rw [digitBytes, Nat.toDigits_of_base_le (by decide) hn, List.map_append, digitBytes, digitBytes,
    Nat.toDigits_of_lt_base (Nat.mod_lt n (by decide))]

/-- A property of digits that holds of single ones and of those put behind others. -/
theorem digitBytes_induction {P : Nat → Prop} (single : ∀ n < 10, P n)
    (more : ∀ n, 10 ≤ n → P (n / 10) → P (n % 10) → P n) (n : Nat) : P n := by
  induction n using Nat.strongRecOn with
  | ind n ih =>
      by_cases hn : n < 10
      · exact single n hn
      · exact more n (by omega) (ih _ (by omega)) (single _ (by omega))

theorem isDigit_of_mem_digitBytes (n : Nat) : ∀ b ∈ digitBytes n, isDigit b = true := by
  induction n using digitBytes_induction with
  | single n hn =>
      rw [digitBytes_of_lt n hn, List.forall_mem_singleton]
      exact (digit_of_lt n hn).1
  | more n hn hq hr =>
      rw [digitBytes_of_le hn]
      exact List.forall_mem_append.2 ⟨hq, hr⟩

theorem ofDigits_digitBytes (n : Nat) : ofDigits (digitBytes n) = n := by
  induction n using digitBytes_induction with
  | single n hn => rw [digitBytes_of_lt n hn, ofDigits_singleton, (digit_of_lt n hn).2]
  | more n hn hq hr =>
      rw [digitBytes_of_le hn, ofDigits_append, hq, hr, digitBytes_of_lt _ (Nat.mod_lt n (by decide))]
      exact Nat.div_add_mod' n 10

theorem digitBytes_eq_cons {n : Nat} (hn : 0 < n) : ∃ b t, digitBytes n = b :: t ∧ b ≠ zero := by
  have hne : ∀ n < 10, 0 < n → UInt8.ofNat (n + 0x30) ≠ zero := by decide
  induction n using digitBytes_induction with
  | single n hlt => exact ⟨_, [], digitBytes_of_lt n hlt, hne n hlt hn⟩
  | more n hle hq _ =>
      obtain ⟨b, t, h, hb⟩ := hq (by omega)
      exact ⟨b, t ++ digitBytes (n % 10), by rw [digitBytes_of_le hle, h, List.cons_append], hb⟩

theorem digitsText_digitBytes (n : Nat) : DigitsText (digitBytes n) := by
  refine ⟨?_, isDigit_of_mem_digitBytes n⟩
  by_cases hn : 0 < n
  · obtain ⟨b, t, h, -⟩ := digitBytes_eq_cons hn
    simp [h]
  · rw [Nat.eq_zero_of_not_pos hn]
    decide

theorem wholeText_digitBytes (n : Nat) : WholeText (digitBytes n) := by
  by_cases hn : 0 < n
  · obtain ⟨b, t, h, hb⟩ := digitBytes_eq_cons hn
    have hd := digitsText_digitBytes n
    rw [h] at hd ⊢
    exact .digits hd hb
  · rw [Nat.eq_zero_of_not_pos hn]
    exact .zero

theorem digitsText_append {ds ds' : Bytes} (h : ∀ b ∈ ds, isDigit b = true) (h' : DigitsText ds') :
    DigitsText (ds ++ ds') :=
  ⟨List.append_ne_nil_of_right_ne_nil _ h'.1, List.forall_mem_append.2 ⟨h, h'.2⟩⟩

/-- Digits that start as those of a positive number do. -/
theorem wholeText_of_head {n : Nat} (hn : 0 < n) {ds : Bytes} (h : DigitsText ds)
    (hh : ds.head? = (digitBytes n).head?) : WholeText ds := by
  obtain ⟨b, t, ht, hb⟩ := digitBytes_eq_cons hn
  obtain ⟨c, u, rfl, -⟩ := h.exists_cons
  rw [ht, List.head?_cons, List.head?_cons, Option.some.injEq] at hh
  exact .digits h (hh ▸ hb)

/-! ## Digits as text -/

theorem length_digitBytes (n : Nat) : (digitBytes n).length = (Nat.toDigits 10 n).length := List.length_map _

theorem ofChars_of_subset {n : Nat} {cs : List Char} (h : ∀ c ∈ cs, c ∈ Nat.toDigits 10 n) :
    Utf8.ofChars cs = cs.map fun c => .ofNat c.toNat := by
  refine Utf8.ofChars_of_ascii fun c hc => ?_
  have := Nat.isDigit_of_mem_toDigits (by decide) (by decide) (h c hc)
  simp only [Char.isDigit, Bool.and_eq_true, decide_eq_true_eq, UInt32.le_iff_toNat_le] at this
  exact Nat.lt_of_le_of_lt this.2 (by decide)

theorem ofChars_toDigits (n : Nat) : Utf8.ofChars (Nat.toDigits 10 n) = digitBytes n := ofChars_of_subset fun _ h => h

theorem ofChars_take (n k : Nat) : Utf8.ofChars ((Nat.toDigits 10 n).take k) = (digitBytes n).take k := by
  rw [ofChars_of_subset fun c hc => List.mem_of_mem_take hc, List.map_take, digitBytes]

theorem ofChars_drop (n k : Nat) : Utf8.ofChars ((Nat.toDigits 10 n).drop k) = (digitBytes n).drop k := by
  rw [ofChars_of_subset fun c hc => List.mem_of_mem_drop hc, List.map_drop, digitBytes]

theorem ofChars_zeros (k : Nat) : Utf8.ofChars (List.replicate k '0') = List.replicate k zero := by
  induction k with
  | zero => rfl
  | succ k ih =>
      rw [List.replicate_succ, Utf8.ofChars_cons, ih]
      rfl

end JsonTree.Numeral
