import JsonTree.Proofs.Checked.Number
import JsonTree.Proofs.Grammar.Document
import JsonTree.Proofs.Locality.Code
import JsonTree.Proofs.Number.Nearest
import JsonTree.Proofs.Number.Text

/-!
# Numbers under any conversion

The double of a numeral is what a conversion makes of its text. Here the conversion is left open. If it rounds the exact
value of each numeral, then numbers of any length have the kind and the value that they should have. The reader's own
conversion does so as long as the exponent stays below the bound of the reader.
-/

namespace JsonTree

open Byte Grammar Document

/-! ## Exact values -/

namespace Numeral

/-- The exponent as it stands in the document; zero if there is none. -/
def exactPower (n : Numeral) : Int :=
  match n.exponent with
  | some (negative, ds) => if negative then -(ofDigits ds : Int) else ofDigits ds
  | none => 0

/-- The absolute value that a numeral stands for. -/
def size (n : Numeral) : ℚ :=
  ofDigits (n.whole ++ n.fraction.getD []) * 10 ^ (n.exactPower - (n.fraction.getD []).length)

/-- The number that a numeral stands for. -/
def exact (n : Numeral) : ℚ := if n.negative then -n.size else n.size

/-- The double nearest to the number that a numeral stands for. -/
def rounded (n : Numeral) : Double := .ofParts n.negative (BinaryFormat.double.nearestTo n.size)

/-- A numeral without fraction and exponent that stands for an integer of 32 bits. -/
def IsNative (n : Numeral) : Prop := n.isPlain = true ∧ -2 ^ 31 ≤ n.exact ∧ n.exact ≤ 2 ^ 31 - 1

/-- The value that a numeral should have. The bound is the middle between the greatest finite number and the next power
of two. -/
inductive Means (n : Numeral) : Value → Prop where
  | integer {m : Int64} (h : n.IsNative) (hm : (m.toInt : ℚ) = n.exact) : Means n (.integer m)
  | finite (h : ¬ n.IsNative) (hlt : |n.exact| < 2 ^ 1024 - 2 ^ 970) (hs : n.rounded.isNegative = n.negative)
      (hn : n.rounded.Nearest n.exact) : Means n (.double n.rounded)
  | infinite (h : ¬ n.IsNative) (hle : 2 ^ 1024 - 2 ^ 970 ≤ |n.exact|) : Means n (.double (.infinity n.negative))

theorem size_nonneg (n : Numeral) : 0 ≤ n.size := mul_nonneg (Nat.cast_nonneg _) (zpow_pos (by norm_num) _).le

theorem abs_exact (n : Numeral) : |n.exact| = n.size := by
  rw [exact]
  split
  · rw [abs_neg, abs_of_nonneg n.size_nonneg]
  · exact abs_of_nonneg n.size_nonneg

theorem exact_of_isPlain {n : Numeral} (h : n.isPlain = true) : n.exact = n.toInt := by
  simp only [isPlain, Bool.and_eq_true, Option.isNone_iff_eq_none] at h
  simp only [exact, size, toInt, exactPower, h.1, h.2, Option.getD_none, List.append_nil, List.length_nil,
    Nat.cast_zero, sub_zero, zpow_zero, mul_one]
  split <;> push_cast <;> rfl

theorem isNative_iff {n : Numeral} : n.IsNative ↔ (n.isPlain && native.contains n.toInt) = true := by
  rw [IsNative, Bool.and_eq_true, native_contains_iff]
  refine and_congr_right fun h => ?_
  rw [exact_of_isPlain h, ← Int.le_sub_one_iff]
  norm_cast

/-- The value of a numeral whose double is the nearest one. -/
def exactValue (n : Numeral) : Value :=
  if n.isPlain && native.contains n.toInt then .integer (.ofInt n.toInt) else .double n.rounded

theorem means_exactValue (n : Numeral) : n.Means n.exactValue := by
  rw [exactValue]
  split
  · rename_i h
    have hn := isNative_iff.2 h
    rw [Bool.and_eq_true] at h
    refine .integer hn ?_
    rw [toInt_ofInt_of_native h.2, exact_of_isPlain h.1]
  · rename_i h
    have hn : ¬ n.IsNative := fun hn => h (isNative_iff.1 hn)
    by_cases hlt : BinaryFormat.double.nearestTo n.size < BinaryFormat.double.infinity
    · have hbound := (Double.nearestTo_lt_infinity_iff n.size_nonneg).1 hlt
      refine .finite hn (n.abs_exact.symm ▸ hbound) ?_ (Double.nearest_nearestTo n.negative n.size_nonneg hlt)
      exact Double.isNegative_ofParts n.negative (Double.nearestTo_lt_signBit _)
    · have hinf := Nat.le_antisymm (BinaryFormat.nearestTo_le_infinity n.size) (Nat.not_lt.1 hlt)
      rw [rounded, hinf]
      refine .infinite hn ?_
      rw [abs_exact]
      exact not_lt.1 fun h => hlt ((Double.nearestTo_lt_infinity_iff n.size_nonneg).2 h)

theorem isNaN_rounded (n : Numeral) : n.rounded.isNaN = false := Double.isNaN_ofParts_nearestTo n.negative n.size

/-- An exponent that is read as it stands makes the double the nearest one. -/
theorem toDouble_toDecimal {n : Numeral} (h : n.Moderate) :
    n.toDecimal.toDouble = n.rounded := by
  have hpower : n.power = n.exactPower := by
    rw [power, exactPower]
    cases he : n.exponent with
    | none => rfl
    | some e =>
        dsimp only
        rw [powerOfDigits_eq (h e he)]
  rw [Decimal.toDouble_eq, value_toDecimal, hpower]
  rfl

theorem value_eq_exactValue {n : Numeral} (h : n.Moderate) : n.value = n.exactValue := by
  rw [value, exactValue, toDouble_toDecimal h]

end Numeral

namespace Document

/-! ## Reading under a conversion -/

/-- The double that a text is converted to, if the text is one of a number. -/
abbrev Conversion := Bytes → Option Double

/-- A conversion that rounds the exact value of each numeral. -/
def Conversion.Correct (convert : Conversion) : Prop := ∀ {s n}, NumeralText s n → convert s = some n.rounded

/-- A conversion that gives each numeral some number, and the nearest one unless the exponent is beyond all bounds. -/
structure Conversion.Sound (convert : Conversion) : Prop where
  total : ∀ {s n}, NumeralText s n → ∃ d, convert s = some d ∧ d.isNaN = false
  rounds : ∀ {s n}, NumeralText s n → n.Moderate → convert s = some n.rounded

/-- The integer of 32 bits that a text stands for, in arithmetic of 64 bits. -/
def nativeInteger? (text : Bytes) : Option Int :=
  match Checked.nativeInteger text {} with
  | .ok (n, _) => n
  | .error _ => none

/-- The value of the text of a numeral. -/
def textValue? (convert : Conversion) (plain : Bool) (text : Bytes) : Option Value :=
  match (if plain then nativeInteger? text else none) with
  | some n => some (.integer (.ofInt n))
  | none => (convert text).map .double

/-- Numerals as their texts are converted: plain ones of 32 bits to integers, all others to doubles. -/
def Conversion.interpret (convert : Conversion) : Interpretation := fun s n => textValue? convert n.isPlain s

/-- Reads a number whose double, if it is one, comes from `convert`. -/
def numberWith (convert : Conversion) (o : Options) (start : Bytes) : Except Fault (Value × Bytes) :=
  numberBy convert.interpret o start

variable {convert : Conversion} {o : Options} {s r : Bytes} {n : Numeral}

theorem textValue?_eq (h : NumeralText s n) :
    textValue? convert n.isPlain s =
      if n.isPlain && Numeral.native.contains n.toInt then some (.integer (.ofInt n.toInt))
      else (convert s).map .double := by
  have hnative : (if n.isPlain then nativeInteger? s else none) =
      if n.isPlain && Numeral.native.contains n.toInt then some n.toInt else none := by
    cases hplain : n.isPlain with
    | false => rfl
    | true =>
        obtain ⟨h⟩ := h
        obtain ⟨rfl, hw⟩ := Checked.eq_whole_of_isPlain h hplain
        rw [nativeInteger?, Checked.nativeInteger_eq (Checked.minusSign_unsignedText h) hw]
        rfl
  rw [textValue?, hnative]
  cases n.isPlain && Numeral.native.contains n.toInt <;> rfl

theorem textValue?_double? (h : NumeralText s n) : textValue? Checked.double? n.isPlain s = some n.value := by
  rw [textValue?_eq h, Numeral.value]
  obtain ⟨h⟩ := h
  rw [Checked.double?_eq h]
  split <;> rfl

theorem textValue?_of_rounds (h : NumeralText s n) (hc : convert s = some n.rounded) :
    textValue? convert n.isPlain s = some n.exactValue := by
  rw [textValue?_eq h, Numeral.exactValue, hc]
  split <;> rfl

/-- The reader is one of these readers. -/
theorem number_eq_numberWith (o : Options) : number o = numberWith Checked.double? o :=
  numberBy_congr (fun h => (textValue?_double? h).symm) o

theorem numberWith_append {v : Value} (h : NumeralText s n) (hr : Delimited r)
    (hv : textValue? convert n.isPlain s = some v) :
    numberWith convert o (s ++ r) = if admits o v then .ok (v, r) else .error ⟨.malformed, s ++ r⟩ := by
  simp only [numberWith, numberBy_numeral h hr, Conversion.interpret, hv]

/-! ## Sound conversions -/

theorem Conversion.Correct.sound (hc : convert.Correct) : convert.Sound :=
  ⟨fun {_ n} h => ⟨n.rounded, hc h, n.isNaN_rounded⟩, fun h _ => hc h⟩

theorem Conversion.sound_double? : Conversion.Sound Checked.double? where
  total := by
    rintro _ n ⟨h⟩
    refine ⟨n.toDecimal.toDouble, Checked.double?_eq h, ?_⟩
    rw [Decimal.toDouble_eq]
    exact Double.isNaN_ofParts_nearestTo _ _
  rounds := by
    rintro _ n ⟨h⟩ hn
    rw [Checked.double?_eq h, Numeral.toDouble_toDecimal hn]

theorem textValue?_of_sound (hc : convert.Sound) (h : NumeralText s n) (hn : n.Moderate) :
    textValue? convert n.isPlain s = some n.value := by
  rw [textValue?_of_rounds h (hc.rounds h hn), Numeral.value_eq_exactValue hn]

/-! ## Longest numerals -/

/-- A numeral in front of bytes with which it does not go on. -/
structure LongestNumeral (s r : Bytes) : Prop where
  numeral : ∃ n, NumeralText s n
  longest : ∀ {q t n}, r = q ++ t → NumeralText (s ++ q) n → q = []

theorem longestNumeral_of_delimited (h : NumeralText s n) (hr : Delimited r) : LongestNumeral s r := by
  refine ⟨⟨n, h⟩, fun {q t n'} hq h' => ?_⟩
  subst hq
  obtain ⟨p, hp, hm⟩ := h.exists_unsigned
  obtain ⟨p', hp', hm'⟩ := h'.exists_unsigned
  have hm' := hm' []
  rw [List.append_nil, List.append_nil, hm, Prod.mk.injEq] at hm'
  obtain ⟨hneg, rfl⟩ := hm'
  have hu := unsigned_append hp' .nil
  rw [List.append_nil, ← hneg, unsigned_append hp hr.of_append] at hu
  cases hu
  rfl

/-- What reading gives where no number stands: a fault, unless a word for the negative infinity stands there. -/
inductive Refused (o : Options) (s : Bytes) : Except Fault (Value × Bytes) → Prop where
  | malformed (rest : Bytes) : Refused o s (.error ⟨.malformed, rest⟩)
  | negativeInfinity {w r : Bytes} (ho : o.contains .nonFinite = true) (hw : w = Word.infinity ∨ w = Word.inf)
      (hs : s = minus :: (w ++ r)) (hr : Delimited r) : Refused o s (.ok (.double (.infinity true), r))

theorem refused_numberWith (convert : Conversion) (o : Options) {b : UInt8} {t : Bytes}
    (hb : b = minus ∨ isDigit b = true) (hl : ∀ s r, b :: t = s ++ r → LongestNumeral s r → ¬ Delimited r) :
    Refused o (b :: t) (numberWith convert o (b :: t)) := by
  have hs := eq_minusText_append (b :: t)
  cases hw : (if o.contains .nonFinite then nonFinite? (minusSign (b :: t)).1 (minusSign (b :: t)).2 else none) with
  | none =>
      cases hu : unsigned (minusSign (b :: t)).1 (minusSign (b :: t)).2 with
      | error f =>
          obtain ⟨code, rest⟩ := f
          obtain rfl : code = .malformed := Locality.fails_unsigned _ _ _ hu
          simp only [numberWith, numberBy, hw, hu]
          exact .malformed rest
      | ok x =>
          obtain ⟨n, r⟩ := x
          obtain ⟨p, hp, htext, hneg, hr⟩ := eq_of_unsigned hu
          rw [hp, ← hneg, ← List.append_assoc] at hs
          exact absurd hr (hl _ r hs (longestNumeral_of_delimited ⟨htext⟩ hr))
  | some x =>
      obtain ⟨d, r⟩ := x
      split at hw
      · rename_i ho
        rcases hb with rfl | hb
        · -- Behind a minus, only an infinity is a word for a number.
          obtain ⟨⟨⟩, -⟩ | ⟨rfl, w, hword, ht⟩ := eq_of_nonFinite? hw
          simp only [numberWith, numberBy, hw, if_pos ho]
          cases hr : tokenEnd r with
          | error f =>
              rw [eq_of_tokenEnd_error hr]
              exact .malformed r
          | ok r' =>
              obtain ⟨rfl, hd⟩ := tokenEnd_eq_ok_iff.1 hr
              exact .negativeInfinity ho hword (congrArg _ ht) hd
        · have hm : minusSign (b :: t) = (false, b :: t) := if_neg (isDigit_ne hb rfl)
          rw [hm, nonFinite?_of_digit false hb] at hw
          cases hw
      · cases hw

/-! ## Numbers -/

/-- Let the conversion round exact values. A numeral of any length that ends as a number should is read as what it
means, unless that is infinite and may not be. The reader agrees if the exponent is below its bound. Where the longest
numeral does not end as a number should, or no numeral stands, there is no number. -/
theorem numberWith_of_correct (hc : Conversion.Correct convert) (o : Options) :
    number o = numberWith Checked.double? o ∧
    (∀ {s n r}, NumeralText s n → Delimited r →
      (∃ v, n.Means v ∧
        numberWith convert o (s ++ r) = if admits o v then .ok (v, r) else .error ⟨.malformed, s ++ r⟩) ∧
      ((∀ e ∈ n.exponent, Numeral.ofDigits e.2 < 10 * Numeral.powerBound) →
        number o (s ++ r) = numberWith convert o (s ++ r))) ∧
    ∀ {b t}, b = minus ∨ isDigit b = true → (∀ s r, b :: t = s ++ r → LongestNumeral s r → ¬ Delimited r) →
      Refused o (b :: t) (number o (b :: t)) ∧ Refused o (b :: t) (numberWith convert o (b :: t)) := by
  refine ⟨number_eq_numberWith o, fun {s n r} h hr => ?numeral, fun {b t} hb hl => ?none⟩
  case numeral =>
    have heq := numberWith_append (o := o) h hr (textValue?_of_rounds h (hc h))
    refine ⟨⟨n.exactValue, n.means_exactValue, heq⟩, fun he => ?_⟩
    rw [heq, number_eq_numberWith, numberWith_append h hr (textValue?_double? h), Numeral.value_eq_exactValue he]
  case none =>
    rw [number_eq_numberWith]
    exact ⟨refused_numberWith _ o hb hl, refused_numberWith convert o hb hl⟩

/-- The conversion that rounds whatever exact value there is. -/
def exactConversion : Conversion := fun s =>
  match unsigned (minusSign s).1 (minusSign s).2 with
  | .ok (n, []) => some n.rounded
  | _ => none

theorem correct_exactConversion : Conversion.Correct exactConversion := by
  intro s n h
  obtain ⟨p, hp, hm⟩ := h.exists_unsigned
  have hm := hm []
  have hu := unsigned_append hp .nil
  rw [List.append_nil, List.append_nil] at hm
  rw [List.append_nil] at hu
  simp only [exactConversion, hm, hu]

/-- The least positive integer with more than 32 bits is a double. -/
theorem numberWith_of_correct_aboveNative :
    let s := Word.spell ['2', '1', '4', '7', '4', '8', '3', '6', '4', '8']
    numberWith exactConversion {} (s ++ [closeBracket]) = .ok (.double ⟨0x41E0000000000000⟩, [closeBracket]) := by
  intro s
  have hwhole : WholeText s := .digits ⟨by decide, List.all_eq_true.1 (by decide)⟩ (by decide)
  have hs : NumeralText s ⟨false, s, none, none⟩ := .mk (.mk false hwhole .none .none)
  have hexact : Numeral.exact ⟨false, s, none, none⟩ = 2147483648 := by
    rw [Numeral.exact_of_isPlain rfl, show Numeral.toInt ⟨false, s, none, none⟩ = 2147483648 by decide +kernel]
    rfl
  have hrounded : Numeral.rounded ⟨false, s, none, none⟩ = ⟨0x41E0000000000000⟩ := by
    rw [← Numeral.toDouble_toDecimal (by simp [Numeral.Moderate])]
    decide +kernel
  obtain ⟨-, hnumeral, -⟩ := numberWith_of_correct correct_exactConversion {}
  obtain ⟨⟨v, hv, heq⟩, -⟩ := hnumeral hs (.cons (b := closeBracket) (s := []) rfl)
  rw [heq]
  cases hv with
  | integer h _ =>
      have := h.2.2
      rw [hexact] at this
      norm_num at this
  | finite _ _ _ _ =>
      rw [hrounded]
      rfl
  | infinite _ hle =>
      rw [hexact] at hle
      exact absurd hle (by decide +kernel)

example : number {} [minus, zero] = .ok (.integer 0, []) := by with_unfolding_all rfl

end Document

/-! ## Documents -/

/-- Reads a document whose doubles come from `convert`. -/
def Value.parseWith (convert : Conversion) : Options → Bytes → Except ParseError Value := parseBy convert.interpret

/-- The parser is one of these parsers. -/
theorem Value.parse_eq_parseWith : parse = parseWith Checked.double? :=
  parseBy_congr fun h => (textValue?_double? h).symm

namespace Grammar

/-- The values of numerals are integers of 32 bits, and doubles that the options accept. -/
def Meaning.Canonical (D : Meaning) (o : Options) : Prop :=
  ∀ {s n v}, NumeralText s n → D s n v →
    (∃ m, v = .integer m ∧ Numeral.native.contains m.toInt = true) ∨
    ∃ d, v = .double d ∧ d.isNaN = false ∧ (o.contains .nonFinite = true ∨ d.isFinite = true)

theorem Meaning.canonical_of_sound {convert : Conversion} (hc : convert.Sound) (o : Options) :
    Meaning.Canonical (.of convert.interpret o) o := by
  rintro s n v h ⟨hv, ha⟩
  rw [Conversion.interpret, textValue?_eq h] at hv
  split at hv
  · rename_i hn
    have hn := (Bool.and_eq_true_iff.1 hn).2
    cases hv
    refine .inl ⟨_, rfl, ?_⟩
    rwa [Numeral.toInt_ofInt_of_native hn]
  · obtain ⟨d, hd, hnan⟩ := hc.total h
    rw [hd] at hv
    cases hv
    exact .inr ⟨d, rfl, hnan, (Bool.or_eq_true_iff.1 ha).symm⟩

theorem Meaning.canonical_own (o : Options) : Meaning.Canonical (.of .own o) o := by
  rintro s n v h ⟨hv, ha⟩
  exact canonical_of_sound Conversion.sound_double? o h ⟨(textValue?_double? h).trans hv, ha⟩

end Grammar

end JsonTree
