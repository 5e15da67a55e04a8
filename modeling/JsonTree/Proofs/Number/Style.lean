import JsonTree.Number.Style
import JsonTree.Proofs.Number.Digits
import JsonTree.Proofs.Number.Shortest

/-!
# Written doubles are numerals

With and without an exponent, the digits of a decimal number make a numeral of the same value that no integer has. A
finite double therefore reads back from its text, whatever the sign of a positive exponent.
-/

namespace JsonTree

open Byte Grammar Utf8

/-! ## Values of numerals -/

namespace Numeral

/-- The exponent is read as it stands. -/
def Moderate (n : Numeral) : Prop := ∀ e ∈ n.exponent, ofDigits e.2 < 10 * powerBound

theorem value_toDecimal (n : Numeral) :
    n.toDecimal.value =
      ofDigits (n.whole ++ n.fraction.getD []) * 10 ^ (n.power - (n.fraction.getD []).length) := rfl

theorem value_of_not_plain {n : Numeral} (h : n.isPlain = false) :
    n.value = .double (.ofParts n.negative (BinaryFormat.double.nearestTo n.toDecimal.value)) := by
  rw [value, h, Bool.false_and, if_neg Bool.false_ne_true, Decimal.toDouble_eq]
  rfl

end Numeral

namespace DoubleStyle

open Numeral

/-- A numeral with a fraction or a moderate exponent, behind its sign, that stands for `x`. -/
def RealText (negative : Bool) (x : ℚ) (s : Bytes) : Prop :=
  ∃ n : Numeral, UnsignedText s n ∧ n.negative = negative ∧ n.isPlain = false ∧ n.Moderate ∧ n.toDecimal.value = x

/-! ## Without an exponent -/

theorem realText_fraction (negative : Bool) {x : ℚ} {s whole ds : Bytes} (hw : WholeText whole) (hd : DigitsText ds)
    (hs : s = whole ++ dot :: ds) (hx : x = ofDigits (whole ++ ds) * 10 ^ (-ds.length : Int)) :
    RealText negative x s := by
  have h := UnsignedText.mk negative hw (.some hd) .none
  rw [List.append_nil, ← hs] at h
  refine ⟨_, h, rfl, rfl, by simp [Numeral.Moderate], ?_⟩
  rw [value_toDecimal, Option.getD_some, Numeral.power, Int.zero_sub, hx]

theorem isDigit_of_mem_zeros (k : Nat) : ∀ b ∈ List.replicate k zero, isDigit b = true := by
  intro b hb
  rw [List.eq_of_mem_replicate hb]
  rfl

theorem realText_leadingZeros (negative : Bool) (c k : Nat) :
    RealText negative (c * 10 ^ (-(k + (Nat.toDigits 10 c).length : Nat) : Int))
      (ofChars (['0', '.'] ++ List.replicate k '0' ++ Nat.toDigits 10 c)) := by
  have hd := digitsText_append (isDigit_of_mem_zeros k) (digitsText_digitBytes c)
  have h0 : ofDigits [zero] = 0 := ofDigits_singleton zero
  apply realText_fraction negative .zero hd
  · rw [List.append_assoc, ofChars_append, ofChars_append, ofChars_zeros, ofChars_toDigits]
    rfl
  · rw [ofDigits_append, ofDigits_append, ofDigits_zeros, ofDigits_digitBytes, List.length_append,
      List.length_replicate, length_digitBytes, h0, Nat.zero_mul, Nat.zero_mul, Nat.zero_add, Nat.zero_add]

theorem realText_trailingZeros (negative : Bool) {c : Nat} (hc : 0 < c) (k : Nat) :
    RealText negative (c * 10 ^ (k : Int)) (ofChars (Nat.toDigits 10 c ++ List.replicate k '0' ++ ['.', '0'])) := by
  have hd := digitsText_digitBytes c
  have h0 : ofDigits [zero] = 0 := ofDigits_singleton zero
  have hw : WholeText (digitBytes c ++ List.replicate k zero) := by
    refine wholeText_of_head hc ?_ (List.head?_append_of_ne_nil _ hd.1)
    exact ⟨List.append_ne_nil_of_left_ne_nil hd.1 _, List.forall_mem_append.2 ⟨hd.2, isDigit_of_mem_zeros k⟩⟩
  have hlast : DigitsText [zero] := ⟨List.cons_ne_nil _ _, isDigit_of_mem_zeros 1⟩
  apply realText_fraction negative hw hlast
  · rw [ofChars_append, ofChars_append, ofChars_zeros, ofChars_toDigits]
    rfl
  · rw [ofDigits_append, ofDigits_append, ofDigits_zeros, ofDigits_digitBytes, h0, List.length_replicate]
    simp only [Nat.add_zero, List.length_singleton, pow_one, Nat.cast_mul, Nat.cast_pow, Nat.cast_ofNat, Nat.cast_one,
      zpow_natCast, zpow_neg_one]
    field_simp

theorem realText_pointed (negative : Bool) {c : Nat} (hc : 0 < c) {k : Nat} (hk : k + 1 < (Nat.toDigits 10 c).length) :
    RealText negative (c * 10 ^ (-((Nat.toDigits 10 c).length - (k + 1) : Nat) : Int))
      (ofChars ((Nat.toDigits 10 c).take (k + 1) ++ '.' :: (Nat.toDigits 10 c).drop (k + 1))) := by
  have hd := digitsText_digitBytes c
  have hl := length_digitBytes c
  have hw : WholeText ((digitBytes c).take (k + 1)) := by
    refine wholeText_of_head hc ?_ (by rw [List.head?_take, if_neg (Nat.succ_ne_zero k)])
    exact ⟨by simp [hd.1], fun b hb => hd.2 b (List.mem_of_mem_take hb)⟩
  have hf : DigitsText ((digitBytes c).drop (k + 1)) :=
    ⟨by simp; omega, fun b hb => hd.2 b (List.mem_of_mem_drop hb)⟩
  apply realText_fraction negative hw hf
  · rw [ofChars_append, ofChars_cons, ofChars_take, ofChars_drop]
    rfl
  · rw [List.take_append_drop, ofDigits_digitBytes, List.length_drop, hl]

theorem realText_positional (negative : Bool) {c : Nat} (hc : 0 < c) (place : Int) :
    RealText negative (c * 10 ^ (place - ((Nat.toDigits 10 c).length - 1 : Nat)))
      (ofChars (positional (Nat.toDigits 10 c) place)) := by
  have hpos : 0 < (Nat.toDigits 10 c).length := Nat.length_toDigits_pos
  simp only [positional]
  split
  · have he : place - ((Nat.toDigits 10 c).length - 1 : Nat) =
        -((-place - 1).toNat + (Nat.toDigits 10 c).length : Nat) := by omega
    rw [he]
    exact realText_leadingZeros negative c _
  · split
    · have he : place - ((Nat.toDigits 10 c).length - 1 : Nat) =
          (place.toNat + 1 - (Nat.toDigits 10 c).length : Nat) := by omega
      rw [he]
      exact realText_trailingZeros negative hc _
    · have he : place - ((Nat.toDigits 10 c).length - 1 : Nat) =
          -((Nat.toDigits 10 c).length - (place.toNat + 1) : Nat) := by omega
      rw [he]
      exact realText_pointed negative hc (by omega)

/-! ## With an exponent -/

/-- A digit, the others behind a dot if there are any, and the exponent. -/
theorem ofChars_scientific (s : DoubleStyle) {c : Nat} (hc : 0 < c) (place : Int) :
    ∃ b f fraction, WholeText [b] ∧ FractionText f fraction ∧ ofDigits (b :: fraction.getD []) = c ∧
      (fraction.getD []).length = (Nat.toDigits 10 c).length - 1 ∧
      ofChars (s.scientific (Nat.toDigits 10 c) place) =
        [b] ++ (f ++ letterE :: (ofChars (if place < 0 then ['-'] else s.positive) ++ digitBytes place.natAbs)) := by
  have hd := digitsText_digitBytes c
  have hn := ofDigits_digitBytes c
  have hl := length_digitBytes c
  have hhead := ofChars_take c 1
  have htail := ofChars_drop c 1
  obtain ⟨b, t, hb, hne⟩ := digitBytes_eq_cons hc
  rw [hb] at hd hn hl hhead htail
  have hw : WholeText [b] := .digits ⟨by simp, by simpa using hd.cons_head⟩ hne
  have he : ofChars ['e'] = [letterE] := rfl
  have hp : ofChars ['.'] = [dot] := rfl
  generalize Nat.toDigits 10 c = cs at *
  match cs with
  | [] => cases hhead
  | [d] =>
      obtain rfl : t = [] := List.length_eq_zero_iff.1 (Nat.succ_inj.1 hl)
      have ht : s.scientific [d] place =
          [d] ++ (['e'] ++ ((if place < 0 then ['-'] else s.positive) ++ Nat.toDigits 10 place.natAbs)) := by
        simp [scientific]
      refine ⟨b, [], none, hw, .none, hn, rfl, ?_⟩
      rw [ht, ofChars_append, ofChars_append, ofChars_append, ofChars_toDigits, he]
      exact congrArg (· ++ _) hhead
  | d :: d' :: ds =>
      have ht : s.scientific (d :: d' :: ds) place = [d] ++ (['.'] ++ (d' :: ds ++ (['e'] ++
          ((if place < 0 then ['-'] else s.positive) ++ Nat.toDigits 10 place.natAbs)))) := by
        simp [scientific]
      have hf : DigitsText t := by
        refine ⟨?_, fun b hb => hd.2 b (List.mem_cons_of_mem _ hb)⟩
        rintro rfl
        simp at hl
      refine ⟨b, dot :: t, some t, hw, .some hf, hn, Nat.succ_inj.1 hl, ?_⟩
      rw [ht, ofChars_append, ofChars_append, ofChars_append, ofChars_append, ofChars_append, ofChars_toDigits, he, hp]
      rw [show ofChars [d] = [b] from hhead, show ofChars (d' :: ds) = t from htail]
      rfl

theorem signText_positive {s : DoubleStyle} (hs : s.positive = [] ∨ s.positive = ['+']) (place : Int) :
    SignText (ofChars (if place < 0 then ['-'] else s.positive)) (decide (place < 0)) := by
  by_cases hp : place < 0
  · rw [if_pos hp, decide_eq_true hp]
    exact .minus
  · rw [if_neg hp, decide_eq_false hp]
    rcases hs with hs | hs
    · rw [hs]
      exact .none
    · rw [hs]
      exact .plus

theorem realText_scientific {s : DoubleStyle} (hs : s.positive = [] ∨ s.positive = ['+']) (negative : Bool) {c : Nat}
    (hc : 0 < c) {place : Int} (hp : place.natAbs < powerBound) :
    RealText negative (c * 10 ^ (place - ((Nat.toDigits 10 c).length - 1 : Nat)))
      (ofChars (s.scientific (Nat.toDigits 10 c) place)) := by
  obtain ⟨b, f, fraction, hw, hf, hn, hl, ht⟩ := ofChars_scientific s hc place
  have he := ExponentText.some (.inl rfl) (signText_positive hs place) (digitsText_digitBytes place.natAbs)
  rw [← ofDigits_digitBytes place.natAbs] at hp
  have hmoderate := hp.trans (show powerBound < 10 * powerBound by decide)
  rw [ht]
  refine ⟨_, .mk negative hw hf he, rfl, Bool.and_false _, by simpa [Numeral.Moderate] using hmoderate, ?_⟩
  have hpow : Numeral.power ⟨negative, [b], fraction, some (decide (place < 0), digitBytes place.natAbs)⟩ = place := by
    simp only [Numeral.power, powerOfDigits_eq hmoderate, ofDigits_digitBytes, decide_eq_true_eq]
    split <;> omega
  rw [value_toDecimal, hpow, hl, List.singleton_append, hn]

/-! ## Places -/

theorem pow_le_of_length_toDigits {c : Nat} (hc : 0 < c) :
    10 ^ ((Nat.toDigits 10 c).length - 1) ≤ c ∧ c < 10 ^ ((Nat.toDigits 10 c).length - 1 + 1) := by
  have hl : 0 < (Nat.toDigits 10 c).length := Nat.length_toDigits_pos
  constructor
  · by_cases h1 : 0 < (Nat.toDigits 10 c).length - 1
    · refine Nat.not_lt.1 fun hlt => ?_
      have := (Nat.length_toDigits_le_iff (by decide) h1).2 hlt
      omega
    · rw [Nat.eq_zero_of_not_pos h1]
      exact hc
  · rw [Nat.sub_add_cancel hl]
    exact (Nat.length_toDigits_le_iff (by decide) hl).1 le_rfl

/-- The leading digit of a finite positive double is not far from the point. -/
theorem natAbs_place_lt {n : Decimal} (hc : 0 < n.coefficient)
    (hpos : 0 < BinaryFormat.double.nearestTo n.value)
    (hlt : BinaryFormat.double.nearestTo n.value < BinaryFormat.double.infinity) :
    (n.exponent + ((Nat.toDigits 10 n.coefficient).length - 1 : Nat)).natAbs < powerBound := by
  have hlow := Double.lt_of_nearestTo_pos n.value_nonneg hpos
  have hhigh := Double.lt_of_nearestTo_lt hlt
  have h10 : (0 : ℚ) < 10 ^ n.exponent := zpow_pos (by norm_num) _
  obtain ⟨hl, hu⟩ := pow_le_of_length_toDigits hc
  generalize (Nat.toDigits 10 n.coefficient).length - 1 = k at *
  -- The place of the leading digit bounds the number from both sides, and the range of doubles bounds the place.
  have hle : (10 : ℚ) ^ (n.exponent + k) ≤ n.value := by
    rw [Int.add_comm, zpow_add₀ (by norm_num), zpow_natCast]
    exact mul_le_mul_of_nonneg_right (by exact_mod_cast hl) h10.le
  have hge : n.value < (10 : ℚ) ^ (n.exponent + k + 1) := by
    rw [Int.add_assoc, Int.add_comm, zpow_add₀ (by norm_num)]
    exact mul_lt_mul_of_pos_right (by exact_mod_cast hu) h10
  have h309 : n.exponent + k < 309 :=
    (zpow_lt_zpow_iff_right₀ (by norm_num)).1 ((hle.trans_lt hhigh).trans_le Decimal.two_pow_le_ten_pow)
  have h324 : -324 < n.exponent + k + 1 :=
    (zpow_lt_zpow_iff_right₀ (by norm_num)).1 ((Decimal.ten_pow_le_two_pow.trans_lt hlow).trans hge)
  simp only [powerBound]
  omega

/-! ## Texts -/

theorem realText_decimal {s : DoubleStyle} (hs : s.positive = [] ∨ s.positive = ['+']) (negative : Bool) {n : Decimal}
    (hc : 0 < n.coefficient)
    (hp : (n.exponent + ((Nat.toDigits 10 n.coefficient).length - 1 : Nat)).natAbs < powerBound) :
    RealText negative n.value (ofChars (s.decimal n.coefficient n.exponent)) := by
  simp only [decimal]
  split
  · simpa [Decimal.value] using realText_positional negative hc
      (n.exponent + ((Nat.toDigits 10 n.coefficient).length - 1 : Nat))
  · simpa [Decimal.value] using realText_scientific hs negative hc hp

/-- What a finite double is written as reads back, and is no numeral of an integer. -/
theorem numeralText_finite {s : DoubleStyle} (hs : s.positive = [] ∨ s.positive = ['+']) {shortest : Double → Decimal}
    (h : Shortest.Faithful shortest) {d : Double} (hd : d.isFinite = true) :
    ∃ n, NumeralText (ofChars (s.finite shortest d)) n ∧ n.isPlain = false ∧ n.Moderate ∧ n.value = .double d := by
  have hlt : d.magnitude < BinaryFormat.double.infinity := of_decide_eq_true hd
  have hsign : ofChars (if d.isNegative then ['-'] else []) = minusText d.isNegative := by
    cases d.isNegative <;> rfl
  -- Behind the sign stands a numeral that rounds to the magnitude.
  have signed {x : ℚ} {p : List Char} (hp : RealText d.isNegative x (ofChars p))
      (hx : BinaryFormat.double.nearestTo x = d.magnitude) :
      ∃ n, NumeralText (ofChars ((if d.isNegative then ['-'] else []) ++ p)) n ∧ n.isPlain = false ∧ n.Moderate ∧
        n.value = .double d := by
    obtain ⟨n, hn, hneg, hplain, hmoderate, rfl⟩ := hp
    refine ⟨n, ?_, hplain, hmoderate, ?_⟩
    · rw [ofChars_append, hsign, ← hneg]
      exact .mk hn
    · rw [value_of_not_plain hplain, hx, hneg, Double.ofParts_parts]
  by_cases hm : d.magnitude = 0
  · have ht : s.finite shortest d = (if d.isNegative then ['-'] else []) ++ ['0', '.', '0'] := by simp [finite, hm]
    rw [ht]
    have h0 : ofDigits ([zero] ++ [zero]) = 0 := ofDigits_zeros 2
    have hz : DigitsText [zero] := ⟨List.cons_ne_nil _ _, isDigit_of_mem_zeros 1⟩
    refine signed (x := 0) (realText_fraction _ .zero hz rfl ?_) ?_
    · rw [h0, Nat.cast_zero, zero_mul]
    · rw [BinaryFormat.nearestTo_zero, hm]
  · have ht : s.finite shortest d = (if d.isNegative then ['-'] else []) ++
        s.decimal (shortest d).coefficient (shortest d).exponent := by simp [finite, hm]
    rw [ht]
    have hpos : 0 < d.magnitude := Nat.pos_of_ne_zero hm
    have hx := h hd
    exact signed (realText_decimal hs _ (h.coefficient_pos hd hpos) (natAbs_place_lt (h.coefficient_pos hd hpos)
      (hx ▸ hpos) (hx ▸ hlt))) hx

end DoubleStyle

end JsonTree
