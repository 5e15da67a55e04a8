import JsonTree.Proofs.Number.Conversion

/-!
# Documents whose numerals mean exact numbers

In the grammar of documents it is left open what numerals stand for. Here they stand for the numbers that they mean,
whatever a parser makes of them: integers of 32 bits, and nearest doubles for all other numbers. A parser whose
conversion rounds exact values reads these documents and no others.
-/

namespace JsonTree

open Byte Document

namespace Grammar

variable {α : Type} {D D' : Meaning} {o : Options} {s : Bytes} {v : Value}

/-! ## Other meanings of numerals -/

theorem ItemsText.imp {P Q : Bytes → α → Prop} {as : List α} (h : ItemsText o P s as)
    (hP : ∀ {p a}, p <:+: s → P p a → Q p a) : ItemsText o Q s as := by
  induction h with
  | last hp hl => exact .last (hP (List.prefix_append _ _).isInfix hp) hl
  | trailing ho hp hl hl' => exact .trailing ho (hP (List.prefix_append _ _).isInfix hp) hl hl'
  | @cons p l l' s a as hp hl hl' hs ih =>
      have hs' : s <:+: p ++ (l ++ comma :: (l' ++ s)) := by
        have h := List.suffix_append (p ++ l ++ comma :: l') s
        simp only [List.append_assoc, List.cons_append] at h
        exact h.isInfix
      exact .cons (hP (List.prefix_append _ _).isInfix hp) hl hl' (ih fun hq => hP (hq.trans hs'))

theorem EnclosedText.imp {P Q : Bytes → α → Prop} {as : List α} (h : EnclosedText o P s as)
    (hP : ∀ {p a}, p <:+: s → P p a → Q p a) : EnclosedText o Q s as := by
  cases h with
  | none hl => exact .none hl
  | items hl hs => exact .items hl (hs.imp fun hp => hP (hp.trans (List.suffix_append _ _).isInfix))

theorem MemberText.imp {V W : Bytes → Value → Prop} {m : String × Value} (h : MemberText V s m)
    (hV : ∀ {p v}, p <:+: s → V p v → W p v) : MemberText W s m := by
  obtain @⟨k, t, l, l', p, v, hk, hl, hl', hv⟩ := h
  have hp : p <:+: k ++ (l ++ colon :: (l' ++ p)) := by
    have h := List.suffix_append (k ++ l ++ colon :: l') p
    simp only [List.append_assoc, List.cons_append] at h
    exact h.isInfix
  exact .mk hk hl hl' (hV hp hv)

/-- What stands between two bytes. -/
theorem isInfix_between (b c : UInt8) (s : Bytes) : s <:+: b :: (s ++ [c]) := ⟨[b], [c], by simp⟩

theorem NumberTextBy.imp (h : NumberTextBy D o s v) (hD : ∀ {n}, NumeralText s n → D s n v → D' s n v) :
    NumberTextBy D' o s v := by
  cases h with
  | numeral h hv => exact .numeral h (hD h hv)
  | nan ho => exact .nan ho
  | infinity negative ho hw => exact .infinity negative ho hw

theorem NodeTextBy.imp {inner? inner?' : Option (Bytes → Value → Prop)} (h : NodeTextBy D o inner? s v)
    (hD : ∀ {n}, NumeralText s n → D s n v → D' s n v)
    (hi : ∀ V ∈ inner?, ∃ W ∈ inner?', ∀ {p v}, p <:+: s → V p v → W p v) : NodeTextBy D' o inner?' s v := by
  cases h with
  | null => exact .null
  | truth => exact .truth
  | falsity => exact .falsity
  | number h => exact .number (h.imp hD)
  | string h => exact .string h
  | array hV h =>
      obtain ⟨W, hW, hVW⟩ := hi _ hV
      exact .array hW (h.imp fun hp => hVW (hp.trans (isInfix_between _ _ _)))
  | object hV h hk =>
      obtain ⟨W, hW, hVW⟩ := hi _ hV
      exact .object hW (h.imp fun hp hm => hm.imp fun hq => hVW (hq.trans (hp.trans (isInfix_between _ _ _)))) hk

/-- A value stays one if the numerals that are written in it keep their values. -/
theorem ValueTextBy.imp {room : Nat} (h : ValueTextBy D o room s v)
    (hD : ∀ {p n v}, p <:+: s → NumeralText p n → D p n v → D' p n v) : ValueTextBy D' o room s v := by
  induction room generalizing s v with
  | zero => exact NodeTextBy.imp h (hD List.infix_rfl) (by rintro _ ⟨⟩)
  | succ room ih =>
      refine NodeTextBy.imp h (hD List.infix_rfl) ?_
      rintro _ ⟨⟩
      exact ⟨_, rfl, fun hp hv => ih hv fun hq => hD (hq.trans hp)⟩

theorem DocumentTextBy.imp (h : DocumentTextBy D o s v)
    (hD : ∀ {p n v}, p <:+: s → NumeralText p n → D p n v → D' p n v) : DocumentTextBy D' o s v := by
  obtain @⟨l, p, v, l', hl, hp, hl'⟩ := h
  have hs : p <:+: l ++ (p ++ l') := ⟨l, l', List.append_assoc _ _ _⟩
  exact .mk hl (hp.imp fun hq => hD (hq.trans hs)) hl'

theorem documentTextBy_congr (hD : ∀ {p n v}, p <:+: s → NumeralText p n → (D p n v ↔ D' p n v)) :
    DocumentTextBy D o s v ↔ DocumentTextBy D' o s v :=
  ⟨fun h => h.imp fun hp hn => (hD hp hn).1, fun h => h.imp fun hp hn => (hD hp hn).2⟩

end Grammar

/-! ## Meanings of numerals -/

namespace Numeral

theorem Means.eq_exactValue {n : Numeral} {v : Value} (h : n.Means v) : v = n.exactValue := by
  cases h with
  | @integer m h hm =>
      have hn := isNative_iff.1 h
      rw [exactValue, if_pos hn]
      rw [exact_of_isPlain h.1] at hm
      rw [← Int.cast_inj.1 hm, Int64.ofInt_toInt]
  | finite h _ _ _ => rw [exactValue, if_neg fun hn => h (isNative_iff.2 hn)]
  | infinite h hle =>
      rw [abs_exact] at hle
      have hlt : ¬ BinaryFormat.double.nearestTo n.size < BinaryFormat.double.infinity :=
        fun hlt => absurd hle (not_le.2 ((Double.nearestTo_lt_infinity_iff n.size_nonneg).1 hlt))
      rw [exactValue, if_neg fun hn => h (isNative_iff.2 hn), rounded,
        Nat.le_antisymm (BinaryFormat.nearestTo_le_infinity n.size) (Nat.not_lt.1 hlt), Double.infinity]

/-- A numeral means one value. -/
theorem existsUnique_means (n : Numeral) : ∃! v, n.Means v :=
  ⟨n.exactValue, n.means_exactValue, fun _ h => h.eq_exactValue⟩

theorem isFinite_rounded_iff {n : Numeral} : n.rounded.isFinite = true ↔ |n.exact| < 2 ^ 1024 - 2 ^ 970 := by
  rw [abs_exact, ← Double.nearestTo_lt_infinity_iff n.size_nonneg, rounded, Double.isFinite,
    Double.magnitude_ofParts _ (Double.nearestTo_lt_signBit _), decide_eq_true_iff]

theorem IsNative.abs_exact_lt {n : Numeral} (h : n.IsNative) : |n.exact| < 2 ^ 1024 - 2 ^ 970 := by
  have hle : |n.exact| ≤ 2 ^ 31 := abs_le.2 ⟨h.2.1, h.2.2.trans (by norm_num)⟩
  exact hle.trans_lt (by decide +kernel)

theorem admits_exactValue_iff {n : Numeral} {o : Options} :
    admits o n.exactValue = true ↔ (2 ^ 1024 - 2 ^ 970 ≤ |n.exact| → o.contains .nonFinite = true) := by
  rw [exactValue]
  split
  · rename_i h
    exact iff_of_true rfl fun hle => absurd (isNative_iff.2 h).abs_exact_lt (not_lt.2 hle)
  · rw [admits, Bool.or_eq_true, isFinite_rounded_iff, or_iff_not_imp_left, not_lt]

end Numeral

namespace Grammar

/-- Numerals mean exact numbers. Those that round to an infinity may be written only with leave. -/
def Meaning.exact (o : Options) : Meaning :=
  fun _ n v => n.Means v ∧ (2 ^ 1024 - 2 ^ 970 ≤ |n.exact| → o.contains .nonFinite = true)

variable {convert : Conversion} {n : Numeral}

theorem Meaning.of_interpret_iff (hv : convert s = some n.rounded) (h : NumeralText s n) :
    Meaning.of convert.interpret o s n v ↔ Meaning.exact o s n v := by
  rw [Meaning.of, Conversion.interpret, textValue?_of_rounds h hv, Meaning.exact, Option.some_inj]
  constructor
  · rintro ⟨rfl, ha⟩
    exact ⟨n.means_exactValue, Numeral.admits_exactValue_iff.1 ha⟩
  · rintro ⟨hm, ha⟩
    rw [hm.eq_exactValue]
    exact ⟨rfl, Numeral.admits_exactValue_iff.2 ha⟩

theorem parseWith_eq_ok_iff (hc : ∀ {p n}, p <:+: s → NumeralText p n → convert p = some n.rounded) :
    Value.parseWith convert o s = .ok v ↔ DocumentTextBy (.exact o) o s v := by
  rw [Value.parseWith, parseBy_eq_ok_iff]
  exact documentTextBy_congr fun hp hn => Meaning.of_interpret_iff (hc hp hn) hn

/-- Let the conversion round exact values. Then reading succeeds just on the documents of the grammar, and gives the
value that the grammar gives, in which each numeral has the one value that it means. The parser has a conversion of its
own and is such a parser but for that. It agrees on documents whose numerals have moderate exponents. -/
theorem parseWith_of_correct (hc : convert.Correct) :
    (∀ o s v, Value.parseWith convert o s = .ok v ↔ DocumentTextBy (.exact o) o s v) ∧
    (∀ n : Numeral, ∃! v, n.Means v) ∧
    Value.parse = Value.parseWith Checked.double? ∧
    ∀ o s v, (∀ {p n}, p <:+: s → NumeralText p n → n.Moderate) →
      (Value.parse o s = .ok v ↔ DocumentTextBy (.exact o) o s v) := by
  refine ⟨fun o s v => parseWith_eq_ok_iff fun _ hn => hc hn, Numeral.existsUnique_means, Value.parse_eq_parseWith,
    fun o s v hm => ?_⟩
  rw [Value.parse_eq_parseWith]
  exact parseWith_eq_ok_iff fun hp hn => Conversion.sound_double?.rounds hn (hm hp hn)

/-- A numeral without an `e` has no exponent. -/
theorem NumeralText.moderate (h : NumeralText s n) (he : letterE ∉ s ∧ capitalE ∉ s) : n.Moderate := by
  obtain ⟨_, hw, hf, hexp⟩ := h
  cases hexp with
  | none => simp [Numeral.Moderate]
  | some hb _ _ => rcases hb with rfl | rfl <;> simp at he

/-- A fraction in an array. -/
theorem parseWith_of_correct_fraction :
    let s := Word.spell ['[', '1', '.', '5', ']']
    let v : Value := .array [.double ⟨0x3FF8000000000000⟩]
    Value.parseWith exactConversion {} s = .ok v ∧ Value.parse {} s = .ok v := by
  intro s v
  let n : Numeral := ⟨false, Word.spell ['1'], some (Word.spell ['5']), none⟩
  have hdigits (b : UInt8) (hb : isDigit b = true) : DigitsText [b] := ⟨List.cons_ne_nil _ _, by simpa using hb⟩
  have hn : NumeralText (Word.spell ['1', '.', '5']) n :=
    .mk (.mk false (.digits (hdigits _ rfl) (by decide)) (.some (hdigits _ rfl)) .none)
  have hrounded : n.rounded = ⟨0x3FF8000000000000⟩ := by
    rw [← Numeral.toDouble_toDecimal (by simp [n, Numeral.Moderate])]
    decide +kernel
  have hv : n.exactValue = .double ⟨0x3FF8000000000000⟩ := congrArg Value.double hrounded
  have hexact : Meaning.exact {} (Word.spell ['1', '.', '5']) n (.double ⟨0x3FF8000000000000⟩) :=
    hv ▸ ⟨n.means_exactValue, Numeral.admits_exactValue_iff.1 (hv ▸ rfl)⟩
  have hitem : ValueTextBy (.exact {}) {} 99 (Word.spell ['1', '.', '5']) (.double ⟨0x3FF8000000000000⟩) :=
    NodeTextBy.number (.numeral hn hexact)
  have hs : DocumentTextBy (.exact {}) {} s v :=
    ValueTextBy.document (NodeTextBy.array rfl (.items .nil (.last hitem .nil)))
  obtain ⟨hread, -, -, hparse⟩ := parseWith_of_correct correct_exactConversion
  refine ⟨(hread {} s v).2 hs, (hparse {} s v fun hp h => h.moderate ?_).2 hs⟩
  exact ⟨fun he => absurd (hp.subset he) (by decide), fun he => absurd (hp.subset he) (by decide)⟩

end Grammar

end JsonTree
