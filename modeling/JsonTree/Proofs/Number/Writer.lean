import JsonTree.Proofs.Number.Conversion

/-!
# Writers of numbers

Integers are written in decimal and finite doubles as numerals that no integer has. Which numeral it is, a writer is
free to choose. If it converts to the double that it was written for, then numbers read back, and already if different
doubles have different numerals, then texts of numbers tell them apart.
-/

namespace JsonTree.NumberWriter

open Byte Document Grammar Utf8

variable {integer : Int64 → List Char} {finite : Double → List Char} {convert : Conversion} {o : Options}
  {d : Double}

/-- Different numbers are written as different texts: integers in decimal, and finite doubles as numerals with a
fraction or an exponent. -/
structure Legible (integer : Int64 → List Char) (finite : Double → List Char) : Prop where
  integer_eq : ∀ n, integer n = Value.integerText n.toInt
  numeral : ∀ {d}, d.isFinite = true → ∃ n, NumeralText (ofChars (finite d)) n ∧ n.isPlain = false
  injective : ∀ {d e}, d.isFinite = true → e.isFinite = true → finite d = finite e → d = e

/-- Integers are written in decimal, and finite doubles as numerals with a fraction or an exponent that convert to
them. -/
structure Faithful (integer : Int64 → List Char) (finite : Double → List Char) (convert : Conversion) : Prop where
  integer_eq : ∀ n, integer n = Value.integerText n.toInt
  numeral : ∀ {d}, d.isFinite = true → ∃ n, NumeralText (ofChars (finite d)) n ∧ n.isPlain = false
  convert_finite : ∀ {d}, d.isFinite = true → convert (ofChars (finite d)) = some d

theorem Faithful.legible (h : Faithful integer finite convert) : Legible integer finite where
  integer_eq := h.integer_eq
  numeral := h.numeral
  injective := by
    intro d e hd he ht
    have hde := h.convert_finite hd
    rw [ht, h.convert_finite he] at hde
    exact (Option.some.inj hde).symm

/-- Digits that read back make a numeral that converts to the double, in each style. -/
theorem exists_numeralText_finite (style : DoubleStyle) (hs : style.positive = [] ∨ style.positive = ['+'])
    {shortest : Double → Decimal} (h : Shortest.Faithful shortest) (hc : convert.Sound) (hd : d.isFinite = true) :
    (∃ n, NumeralText (ofChars (style.finite shortest d)) n ∧ n.isPlain = false) ∧
    convert (ofChars (style.finite shortest d)) = some d := by
  obtain ⟨n, hn, hplain, hmoderate, hv⟩ := DoubleStyle.numeralText_finite hs h hd
  rw [Numeral.value_eq_exactValue hmoderate, Numeral.exactValue, hplain, Bool.false_and,
    if_neg Bool.false_ne_true] at hv
  exact ⟨⟨n, hn, hplain⟩, by rw [hc.rounds hn hmoderate, Value.double.inj hv]⟩

/-- Digits that read back are faithful under every sound conversion. -/
theorem faithful_of_shortest {shortest : Double → Decimal} (h : Shortest.Faithful shortest) (hc : convert.Sound) :
    Faithful (fun n => Value.integerText n.toInt) (DoubleStyle.document.finite shortest) convert where
  integer_eq _ := rfl
  numeral hd := (exists_numeralText_finite .document (.inl rfl) h hc hd).1
  convert_finite hd := (exists_numeralText_finite .document (.inl rfl) h hc hd).2

theorem faithful_usual : Faithful (fun n => Value.integerText n.toInt)
    (DoubleStyle.document.finite (Shortest.decimal .even)) Checked.double? :=
  faithful_of_shortest (Shortest.faithful_decimal .even) Conversion.sound_double?

/-! ## Numbers that read back -/

theorem double_words {d : Double} (hd : d.isFinite = true) : (words integer finite).double d = finite d := if_pos hd

theorem double_words_of_not {d : Double} (hd : d.isFinite = false) :
    (words integer finite).double d = DoubleStyle.document.name d := if_neg (Bool.eq_false_iff.1 hd)

/-- An integer is written as a number that reads as it, or as the double nearest to it. -/
theorem numberText_integer (hc : convert.Sound) (n : Int64) :
    NumberTextBy (.of convert.interpret o) o (ofChars (Value.integerText n.toInt))
      (if Numeral.native.contains n.toInt then .integer n else .double (.ofInt n.toInt)) := by
  have hn := Numeral.numeralText_ofInteger n.toInt
  have hv := Numeral.value_ofInteger n.toInt
  rw [Int64.ofInt_toInt] at hv
  rw [← hv]
  refine .numeral hn ⟨textValue?_of_sound hc hn (by simp [Numeral.Moderate, Numeral.ofInteger]), ?_⟩
  rw [hv]
  split
  · rfl
  · rw [admits, Double.isFinite_ofInt (Value.natAbs_toInt_le n), Bool.true_or]

/-- A finite double is written as a number that reads as it. -/
theorem numberText_finite (h : ∃ n, NumeralText (ofChars (finite d)) n ∧ n.isPlain = false)
    (hd : d.isFinite = true) (hc : convert (ofChars (finite d)) = some d) :
    NumberTextBy (.of convert.interpret o) o (ofChars (finite d)) (.double d) := by
  obtain ⟨n, hn, hplain⟩ := h
  refine .numeral hn ⟨?_, by rw [admits, hd, Bool.true_or]⟩
  rw [Conversion.interpret, textValue?_eq hn, hplain, Bool.false_and, if_neg Bool.false_ne_true]
  exact congrArg _ hc

/-- A double is written as a number that reads as it, if its kind of number may be read at all. -/
theorem Faithful.numberText_double (h : Faithful integer finite convert)
    (ho : o.contains .nonFinite = true ∨ d.isFinite = true) :
    NumberTextBy (.of convert.interpret o) o (ofChars ((words integer finite).double d)) (.double d.canonical) := by
  cases hd : d.isFinite with
  | true =>
      rw [double_words hd, Double.canonical, Double.isNaN_of_isFinite hd, if_neg Bool.false_ne_true]
      exact numberText_finite (h.numeral hd) hd (h.convert_finite hd)
  | false =>
      rw [double_words_of_not hd]
      exact DoubleStyle.numberText_name (ho.resolve_right (Bool.eq_false_iff.1 hd)) hd

end JsonTree.NumberWriter
