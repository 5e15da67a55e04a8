import JsonTree.Document.Numeral

/-!
# The grammar of words and numbers

A word or a number ends where no letter, digit or dot follows. A numeral is an integer part without needless zeros,
then perhaps a fraction, then perhaps an exponent.
-/

namespace JsonTree.Grammar

open Byte Document

/-- No word or number goes on here. -/
def Delimited (s : Bytes) : Prop := ∀ b ∈ s.head?, continuesToken b = false

/-- No run of digits goes on here. -/
def NoDigit (s : Bytes) : Prop := ∀ b ∈ s.head?, isDigit b = false

theorem Delimited.nil : Delimited [] := by simp [Delimited]

theorem Delimited.cons {b s} (hb : continuesToken b = false) : Delimited (b :: s) := by simp [Delimited, hb]

theorem Delimited.of_append {p r} (h : Delimited (p ++ r)) : Delimited p := by
  cases p with
  | nil => exact .nil
  | cons b p => exact .cons (h b rfl)

theorem NoDigit.of_append {p r} (h : NoDigit (p ++ r)) : NoDigit p := by
  cases p with
  | nil => simp [NoDigit]
  | cons b p => simpa [NoDigit] using h

theorem Delimited.noDigit {s} (h : Delimited s) : NoDigit s := by
  intro b hb
  have := h b hb
  simp only [continuesToken, Bool.or_eq_false_iff] at this
  exact this.1.2

theorem Delimited.head_ne {s b} (h : Delimited s) (hb : continuesToken b = true) : ∀ t, s ≠ b :: t := by
  rintro t rfl
  simp [h b rfl] at hb

theorem tokenEnd_eq_ok_iff {s r} : tokenEnd s = .ok r ↔ s = r ∧ Delimited r := by
  cases s with
  | nil => simpa [tokenEnd] using fun h => h ▸ Delimited.nil
  | cons b s =>
      cases hb : continuesToken b with
      | true =>
          simp only [tokenEnd, hb, if_true]
          constructor
          · intro h
            cases h
          · rintro ⟨rfl, h⟩
            simp [h b rfl] at hb
      | false => simpa [tokenEnd, hb] using fun h => h ▸ Delimited.cons hb

/-- Some word or number at the end could go on. -/
def Open (p : Bytes) : Prop := ∃ b ∈ p.getLast?, continuesToken b = true

/-- No word or number goes on from `p` to `r`. -/
def Apart (p r : Bytes) : Prop := Open p → Delimited r

theorem open_append_iff {p'} (hp : p' ≠ []) (p : Bytes) : Open (p ++ p') ↔ Open p' := by
  rw [Open, Open, List.getLast?_append, List.getLast?_eq_some_getLast hp, Option.some_or]

theorem Open.append {p'} (h : Open p') (p : Bytes) : Open (p ++ p') := by
  refine (open_append_iff ?_ p).2 h
  rintro rfl
  obtain ⟨b, hb, -⟩ := h
  cases hb

theorem Open.cons {p} (h : Open p) (b : UInt8) : Open (b :: p) := h.append [b]

theorem apart_append_iff {p' r} (hp : p' ≠ []) (p : Bytes) : Apart (p ++ p') r ↔ Apart p' r := by
  rw [Apart, Apart, open_append_iff hp]

theorem apart_concat {b} (hb : continuesToken b = false) (p r : Bytes) : Apart (p ++ [b]) r := by
  rintro ⟨c, hc, h⟩
  rw [List.getLast?_concat] at hc
  cases hc
  simp [hb] at h

theorem Delimited.apart {r} (h : Delimited r) (p : Bytes) : Apart p r := fun _ => h

theorem Apart.of_append {p r r'} (h : Apart p (r ++ r')) : Apart p r := fun hp => (h hp).of_append

theorem eq_of_tokenEnd_error {s f} (h : tokenEnd s = .error f) : f = ⟨.malformed, s⟩ := by
  unfold tokenEnd at h
  split at h
  · cases h
  · split at h
    · cases h
      rfl
    · cases h

/-! ## Words -/

theorem skip_eq_ok_iff {w s r} : Word.skip w s = .ok r ↔ s = w ++ r ∧ Delimited r := by
  fun_induction Word.skip w s with
  | case1 s => simp [tokenEnd_eq_ok_iff]
  | case2 w ws s ih => simp [ih]
  | case3 w ws b s hb => simp [hb]
  | case4 => simp

theorem drop?_eq_some_iff {w s r} : Word.drop? w s = some r ↔ s = w ++ r := by
  fun_induction Word.drop? w s with
  | case1 s => simp
  | case2 w ws s ih => simp [ih]
  | case3 w ws b s hb => simp [hb]
  | case4 => simp

theorem drop?_cons_of_ne {w b : UInt8} {ws s} (h : b ≠ w) : Word.drop? (w :: ws) (b :: s) = none := by
  simp [Word.drop?, h]

/-! ## Numerals -/

/-- One digit or more. -/
def DigitsText (s : Bytes) : Prop := s ≠ [] ∧ ∀ b ∈ s, isDigit b = true

/-- A zero, or digits that start with another one. -/
inductive WholeText : Bytes → Prop where
  | zero : WholeText [zero]
  | digits {b s} (h : DigitsText (b :: s)) (hb : b ≠ Byte.zero) : WholeText (b :: s)

inductive FractionText : Bytes → Option Bytes → Prop where
  | none : FractionText [] none
  | some {ds} (h : DigitsText ds) : FractionText (dot :: ds) (some ds)

inductive SignText : Bytes → Bool → Prop where
  | none : SignText [] false
  | plus : SignText [plus] false
  | minus : SignText [minus] true

inductive ExponentText : Bytes → Option (Bool × Bytes) → Prop where
  | none : ExponentText [] none
  | some {e s negative ds} (he : e = letterE ∨ e = capitalE) (hs : SignText s negative) (h : DigitsText ds) :
      ExponentText (e :: (s ++ ds)) (some (negative, ds))

/-- A numeral behind its sign. -/
inductive UnsignedText : Bytes → Numeral → Prop where
  | mk {whole f fraction e exponent} (negative : Bool) (hw : WholeText whole) (hf : FractionText f fraction)
      (he : ExponentText e exponent) : UnsignedText (whole ++ (f ++ e)) ⟨negative, whole, fraction, exponent⟩

def minusText (negative : Bool) : Bytes := if negative then [minus] else []

inductive NumeralText : Bytes → Numeral → Prop where
  | mk {s n} (h : UnsignedText s n) : NumeralText (minusText n.negative ++ s) n

/-- Which values the numerals have, written as this text, that may be read. -/
abbrev Meaning := Bytes → Numeral → Value → Prop

/-- The values of an interpretation, as far as the options accept them. -/
def Meaning.of (value? : Interpretation) (o : Options) : Meaning :=
  fun s n v => value? s n = some v ∧ admits o v = true

/-- A number that the options accept, and its value, where `D` says what the numerals have for values. -/
inductive NumberTextBy (D : Meaning) (o : Options) : Bytes → Value → Prop where
  | numeral {s n v} (h : NumeralText s n) (hv : D s n v) : NumberTextBy D o s v
  | nan (ho : o.contains .nonFinite = true) : NumberTextBy D o Word.nan (.double .nan)
  | infinity {w} (negative : Bool) (ho : o.contains .nonFinite = true) (hw : w = Word.infinity ∨ w = Word.inf) :
      NumberTextBy D o (minusText negative ++ w) (.double (.infinity negative))

/-- A number that the options accept, and the value that it is read as. -/
abbrev NumberText (o : Options) : Bytes → Value → Prop := NumberTextBy (.of .own o) o

theorem Meaning.of_own_iff {o s n v} : Meaning.of .own o s n v ↔ v = n.value ∧ admits o n.value = true := by
  rw [Meaning.of, Interpretation.own, Option.some_inj]
  constructor <;> rintro ⟨rfl, ha⟩ <;> exact ⟨rfl, ha⟩

/-- The values of numerals are integers and doubles. -/
def Meaning.Numeric (D : Meaning) : Prop := ∀ {s n v}, D s n v → (∃ m, v = .integer m) ∨ ∃ d, v = .double d

theorem Meaning.numeric_own (o : Options) : Meaning.Numeric (.of .own o) := by
  intro s n v hv
  obtain ⟨rfl, -⟩ := of_own_iff.1 hv
  rw [Numeral.value]
  split
  · exact .inl ⟨_, rfl⟩
  · exact .inr ⟨_, rfl⟩

theorem NumberTextBy.cases_kind {D : Meaning} (hD : D.Numeric) {o s v} (h : NumberTextBy D o s v) :
    (∃ m, v = .integer m) ∨ ∃ d, v = .double d := by
  cases h with
  | numeral _ hv => exact hD hv
  | nan _ => exact .inr ⟨_, rfl⟩
  | infinity _ _ _ => exact .inr ⟨_, rfl⟩

theorem admits_congr {o o' : Options} (hn : o'.contains .nonFinite = o.contains .nonFinite) (v : Value) :
    admits o' v = admits o v := by
  cases v <;> simp [admits, hn]

theorem NoDigit.cons {b s} (hb : isDigit b = false) : NoDigit (b :: s) := by simp [NoDigit, hb]

theorem DigitsText.cons_head {b s} (h : DigitsText (b :: s)) : isDigit b = true := h.2 b (by simp)

theorem DigitsText.exists_cons {s} (h : DigitsText s) : ∃ b t, s = b :: t ∧ isDigit b = true := by
  cases s with
  | nil => exact absurd rfl h.1
  | cons b t => exact ⟨b, t, rfl, h.cons_head⟩

theorem WholeText.exists_cons {s} (h : WholeText s) : ∃ b t, s = b :: t ∧ isDigit b = true := by
  cases h with
  | zero => exact ⟨_, _, rfl, rfl⟩
  | digits h _ => exact h.exists_cons

theorem UnsignedText.exists_cons {s n} (h : UnsignedText s n) : ∃ b t, s = b :: t ∧ isDigit b = true := by
  cases h with
  | mk _ hw _ _ =>
      obtain ⟨b, t, rfl, hb⟩ := hw.exists_cons
      exact ⟨b, _, rfl, hb⟩

/-! ## Starts and ends of numbers -/

theorem NumberTextBy.exists_cons {D o s v} (h : NumberTextBy D o s v) :
    ∃ b t, s = b :: t ∧ startsNumber o b = true := by
  have signed (negative : Bool) {p : Bytes} (hp : ∃ b t, p = b :: t ∧ startsNumber o b = true) :
      ∃ b t, minusText negative ++ p = b :: t ∧ startsNumber o b = true := by
    cases negative with
    | true => exact ⟨minus, p, rfl, rfl⟩
    | false => exact hp
  cases h with
  | @numeral _ n _ h _ =>
      obtain ⟨h⟩ := h
      obtain ⟨b, t, rfl, hb⟩ := h.exists_cons
      exact signed n.negative ⟨b, t, rfl, by simp [startsNumber, hb]⟩
  | nan ho => exact ⟨capitalN, _, rfl, by simp [startsNumber, ho]⟩
  | infinity negative ho hw =>
      refine signed negative ?_
      rcases hw with rfl | rfl
      · exact ⟨capitalI, _, rfl, by simp [startsNumber, ho]⟩
      · exact ⟨letterI, _, rfl, by simp [startsNumber, ho]⟩

theorem startsNumber_ne {o b c} (hb : startsNumber o b = true) (hc : ∀ on, (c == minus || isDigit c ||
    (on && (c == capitalN || c == capitalI || c == letterI))) = false) : b ≠ c := by
  rintro rfl
  simp [startsNumber, hc (o.contains .nonFinite)] at hb

theorem DigitsText.isOpen {s} (h : DigitsText s) : Open s := by
  refine ⟨s.getLast h.1, List.getLast?_eq_some_getLast h.1, ?_⟩
  simp [continuesToken, h.2 _ (List.getLast_mem h.1)]

theorem WholeText.isOpen {s} (h : WholeText s) : Open s := by
  cases h with
  | zero => exact ⟨_, rfl, rfl⟩
  | digits h _ => exact h.isOpen

theorem UnsignedText.isOpen {s n} (h : UnsignedText s n) : Open s := by
  obtain ⟨_, hw, hf, he⟩ := h
  cases he with
  | some _ _ he => exact .append (.append (.cons (he.isOpen.append _) _) _) _
  | none =>
      rw [List.append_nil]
      cases hf with
      | some hf => exact .append (hf.isOpen.cons _) _
      | none => simpa using hw.isOpen

theorem NumberTextBy.isOpen {D o s v} (h : NumberTextBy D o s v) : Open s := by
  cases h with
  | numeral h _ =>
      obtain ⟨h⟩ := h
      exact h.isOpen.append _
  | nan _ => exact ⟨_, rfl, rfl⟩
  | infinity _ _ hw =>
      refine .append ?_ _
      rcases hw with rfl | rfl <;> exact ⟨_, rfl, rfl⟩

/-! ## Reading numerals -/

theorem digits_append {ds r} (h : DigitsText ds) (hr : NoDigit r) : digits (ds ++ r) = .ok (ds, r) := by
  have ht : (ds ++ r).takeWhile isDigit = ds := by
    rw [List.takeWhile_append_of_pos h.2]
    cases r with
    | nil => simp
    | cons b r => simp [hr b rfl]
  have hd : (ds ++ r).dropWhile isDigit = r := by
    rw [List.dropWhile_append_of_pos h.2]
    cases r with
    | nil => simp
    | cons b r => simp [hr b rfl]
  simp [digits, ht, hd, h.1]

theorem noDigit_dropWhile (s : Bytes) : NoDigit (s.dropWhile isDigit) := by
  intro b hb
  have := List.head?_dropWhile_not isDigit s
  rw [Option.mem_def] at hb
  simpa [hb] using this

theorem eq_of_digits {s ds r} (h : digits s = .ok (ds, r)) : s = ds ++ r ∧ DigitsText ds ∧ NoDigit r := by
  unfold digits at h
  split at h
  · cases h
  · rename_i he
    simp only [Except.ok.injEq, Prod.mk.injEq] at h
    obtain ⟨rfl, rfl⟩ := h
    refine ⟨List.takeWhile_append_dropWhile.symm, ⟨by simpa using he, ?_⟩, noDigit_dropWhile s⟩
    exact List.all_eq_true.1 List.all_takeWhile

theorem wholePart_append {w r} (h : WholeText w) (hr : NoDigit r) : wholePart (w ++ r) = .ok (w, r) := by
  cases h with
  | zero => simp [wholePart]
  | digits h hb => simpa [wholePart, hb] using digits_append h hr

theorem eq_of_wholePart {s w r} (h : wholePart s = .ok (w, r)) : s = w ++ r ∧ WholeText w := by
  unfold wholePart at h
  split at h
  · cases h
  · split at h
    · rename_i hb
      cases h
      exact ⟨rfl, hb ▸ .zero⟩
    · rename_i b t hb
      obtain ⟨hs, hw, -⟩ := eq_of_digits h
      obtain ⟨c, w, rfl, -⟩ := hw.exists_cons
      obtain ⟨rfl, -⟩ := List.cons.inj hs
      exact ⟨hs, .digits hw hb⟩

theorem fractionPart_append {f fraction r} (h : FractionText f fraction) (hr : NoDigit r)
    (hd : ∀ t, r ≠ dot :: t) : fractionPart (f ++ r) = .ok (fraction, r) := by
  cases h with
  | none =>
      cases r with
      | nil => rfl
      | cons b r =>
          have hb : b ≠ dot := by
            rintro rfl
            exact hd r rfl
          simp [fractionPart, hb]
  | some h => simp [fractionPart, digits_append h hr, Except.map]

theorem eq_of_fractionPart {s fraction r} (h : fractionPart s = .ok (fraction, r)) :
    ∃ f, s = f ++ r ∧ FractionText f fraction := by
  unfold fractionPart at h
  split at h
  · cases h
    exact ⟨[], rfl, .none⟩
  · split at h
    · rename_i hb
      subst hb
      obtain ⟨⟨ds, r'⟩, hd, h⟩ := map_eq_ok.1 h
      cases h
      obtain ⟨rfl, hd, -⟩ := eq_of_digits hd
      exact ⟨dot :: ds, rfl, .some hd⟩
    · cases h
      exact ⟨[], rfl, .none⟩

theorem minusSign_append {negative : Bool} {s} (h : negative = false → ∀ t, s ≠ minus :: t) :
    minusSign (minusText negative ++ s) = (negative, s) := by
  cases negative with
  | true => simp [minusText, minusSign]
  | false =>
      cases s with
      | nil => rfl
      | cons b s =>
          have hb : b ≠ minus := by
            rintro rfl
            exact h rfl s rfl
          simp [minusText, minusSign, hb]

theorem minusSign_ne {s} (h : (minusSign s).1 = false) (t : Bytes) : (minusSign s).2 ≠ minus :: t := by
  cases s with
  | nil => simp [minusSign]
  | cons b s =>
      by_cases hb : b = minus
      · simp [minusSign, hb] at h
      · simp [minusSign, hb]

theorem eq_minusText_append (s : Bytes) : s = minusText (minusSign s).1 ++ (minusSign s).2 := by
  cases s with
  | nil => rfl
  | cons b s => by_cases hb : b = minus <;> simp [minusSign, minusText, hb]

theorem isDigit_ne {b c} (hb : isDigit b = true) (hc : isDigit c = false) : b ≠ c := by
  rintro rfl
  simp [hb] at hc

theorem sign_append {s negative ds} (hs : SignText s negative) (h : DigitsText ds) (r : Bytes) :
    sign (s ++ (ds ++ r)) = (negative, ds ++ r) := by
  obtain ⟨b, t, rfl, hb⟩ := h.exists_cons
  have hp : minus ≠ plus := by decide
  cases hs with
  | none =>
      have hb' := isDigit_ne hb (show isDigit plus = false from rfl)
      have hb'' := isDigit_ne hb (show isDigit minus = false from rfl)
      simp [sign, minusSign, hb', hb'']
  | plus => simp [sign]
  | minus => simp [sign, minusSign, hp]

theorem eq_sign_append (s : Bytes) : ∃ t, s = t ++ (sign s).2 ∧ SignText t (sign s).1 := by
  cases s with
  | nil => exact ⟨[], rfl, .none⟩
  | cons b s =>
      by_cases hp : b = plus
      · exact ⟨[plus], by simp [sign, hp], by simpa [sign, hp] using SignText.plus⟩
      · by_cases hm : b = minus
        · have hne : minus ≠ plus := by decide
          subst hm
          exact ⟨[minus], by simp [sign, minusSign, hne], by simpa [sign, minusSign, hne] using SignText.minus⟩
        · exact ⟨[], by simp [sign, minusSign, hp, hm], by simpa [sign, minusSign, hp, hm] using SignText.none⟩

theorem exponentPart_append {e exponent r} (h : ExponentText e exponent) (hr : Delimited r) :
    exponentPart (e ++ r) = .ok (exponent, r) := by
  cases h with
  | none =>
      cases r with
      | nil => rfl
      | cons b r =>
          have hb : b ≠ letterE ∧ b ≠ capitalE := by
            constructor <;> rintro rfl <;> exact absurd (hr _ rfl) (by decide)
          simp [exponentPart, hb]
  | some he hs h => simp [exponentPart, he, sign_append hs h, digits_append h hr.noDigit, Except.map]

theorem eq_of_exponentPart {s exponent r} (h : exponentPart s = .ok (exponent, r)) :
    ∃ e, s = e ++ r ∧ ExponentText e exponent := by
  unfold exponentPart at h
  split at h
  · cases h
    exact ⟨[], rfl, .none⟩
  · split at h
    · rename_i b t hb
      obtain ⟨⟨ds, r'⟩, hd, h⟩ := map_eq_ok.1 h
      cases h
      obtain ⟨u, hu, hs⟩ := eq_sign_append t
      obtain ⟨hr, hd, -⟩ := eq_of_digits hd
      rw [hr] at hu
      exact ⟨b :: (u ++ ds), by simp [hu], .some hb hs hd⟩
    · cases h
      exact ⟨[], rfl, .none⟩

theorem ExponentText.follow {e exponent r} (h : ExponentText e exponent) (hr : Delimited r) :
    NoDigit (e ++ r) ∧ ∀ t, e ++ r ≠ dot :: t := by
  cases h with
  | none => exact ⟨hr.noDigit, hr.head_ne rfl⟩
  | some he _ _ =>
      have hne : letterE ≠ dot ∧ capitalE ≠ dot := by decide
      rcases he with rfl | rfl
      · exact ⟨.cons rfl, by simp [hne.1]⟩
      · exact ⟨.cons rfl, by simp [hne.2]⟩

theorem FractionText.follow {f fraction r} (h : FractionText f fraction) (hr : NoDigit r) : NoDigit (f ++ r) := by
  cases h with
  | none => exact hr
  | some h => exact .cons rfl

theorem unsigned_append {s n r} (h : UnsignedText s n) (hr : Delimited r) :
    unsigned n.negative (s ++ r) = .ok (n, r) := by
  cases h with
  | mk negative hw hf he =>
      obtain ⟨hd, ht⟩ := he.follow hr
      have hw := wholePart_append hw (hf.follow hd)
      have hf := fractionPart_append hf hd ht
      have he := exponentPart_append he hr
      simp [unsigned, hw, hf, he, tokenEnd_eq_ok_iff.2 ⟨rfl, hr⟩, bind, Except.bind, pure, Except.pure]

theorem eq_of_unsigned {negative s n r} (h : unsigned negative s = .ok (n, r)) :
    ∃ p, s = p ++ r ∧ UnsignedText p n ∧ n.negative = negative ∧ Delimited r := by
  obtain ⟨⟨whole, s₁⟩, hw, h⟩ := bind_eq_ok.1 h
  obtain ⟨⟨fraction, s₂⟩, hf, h⟩ := bind_eq_ok.1 h
  obtain ⟨⟨exponent, s₃⟩, he, h⟩ := bind_eq_ok.1 h
  obtain ⟨s₄, ht, h⟩ := bind_eq_ok.1 h
  cases h
  obtain ⟨rfl, hr⟩ := tokenEnd_eq_ok_iff.1 ht
  obtain ⟨hs, hwhole⟩ := eq_of_wholePart hw
  obtain ⟨f, hs₁, hf⟩ := eq_of_fractionPart hf
  obtain ⟨e, hs₂, he⟩ := eq_of_exponentPart he
  exact ⟨whole ++ (f ++ e), by simp [hs, hs₁, hs₂], .mk negative hwhole hf he, rfl, hr⟩

theorem UnsignedText.unique {s n n'} (h : UnsignedText s n) (h' : UnsignedText s n') (hn : n.negative = n'.negative) :
    n = n' := by
  have hu := unsigned_append h .nil
  rw [hn, unsigned_append h' .nil] at hu
  cases hu
  rfl

theorem UnsignedText.minusSign_eq {s n} (h : UnsignedText s n) (r : Bytes) :
    minusSign (minusText n.negative ++ (s ++ r)) = (n.negative, s ++ r) := by
  obtain ⟨b, t, rfl, hb⟩ := h.exists_cons
  refine minusSign_append ?_
  rintro - t' ⟨⟩
  exact absurd hb (by decide)

/-- A numeral is what is left behind its sign. -/
theorem NumeralText.exists_unsigned {s n} (h : NumeralText s n) :
    ∃ p, UnsignedText p n ∧ ∀ r, minusSign (s ++ r) = (n.negative, p ++ r) := by
  obtain ⟨h⟩ := h
  refine ⟨_, h, fun r => ?_⟩
  rw [List.append_assoc]
  exact h.minusSign_eq r

theorem NumeralText.unique {s n n'} (h : NumeralText s n) (h' : NumeralText s n') : n = n' := by
  obtain ⟨p, hp, hs⟩ := h.exists_unsigned
  obtain ⟨p', hp', hs'⟩ := h'.exists_unsigned
  have he := (hs []).symm.trans (hs' [])
  rw [List.append_nil, List.append_nil, Prod.mk.injEq] at he
  obtain ⟨hn, rfl⟩ := he
  exact hp.unique hp' hn

/-! ## Reading numbers -/

theorem nonFinite?_of_digit (negative : Bool) {b : UInt8} (hb : isDigit b = true) (s : Bytes) :
    nonFinite? negative (b :: s) = none := by
  have hn := isDigit_ne hb (show isDigit capitalN = false from rfl)
  have hI := isDigit_ne hb (show isDigit capitalI = false from rfl)
  have hi := isDigit_ne hb (show isDigit letterI = false from rfl)
  have h₁ : Word.drop? Word.nan (b :: s) = none := drop?_cons_of_ne hn
  have h₂ : Word.drop? Word.infinity (b :: s) = none := drop?_cons_of_ne hI
  have h₃ : Word.drop? Word.inf (b :: s) = none := drop?_cons_of_ne hi
  cases negative <;> simp [nonFinite?, h₁, h₂, h₃]

theorem nonFinite?_infinity (negative : Bool) {w} (hw : w = Word.infinity ∨ w = Word.inf) (s : Bytes) :
    nonFinite? negative (w ++ s) = some (.infinity negative, s) := by
  have hn : Word.drop? Word.nan (w ++ s) = none := by rcases hw with rfl | rfl <;> rfl
  have hi : (Word.drop? Word.infinity (w ++ s)).or (Word.drop? Word.inf (w ++ s)) = some s := by
    rcases hw with rfl | rfl
    · rw [drop?_eq_some_iff.2 rfl, Option.some_or]
    · rw [show Word.drop? Word.infinity (Word.inf ++ s) = none from rfl, Option.none_or, drop?_eq_some_iff.2 rfl]
  cases negative <;> simp [nonFinite?, hn, hi]

theorem eq_of_nonFinite? {negative s d r} (h : nonFinite? negative s = some (d, r)) :
    (negative = false ∧ s = Word.nan ++ r ∧ d = .nan) ∨
    (d = .infinity negative ∧ ∃ w, (w = Word.infinity ∨ w = Word.inf) ∧ s = w ++ r) := by
  unfold nonFinite? at h
  split at h
  · rename_i t ht
    cases h
    cases negative with
    | true => simp at ht
    | false => exact .inl ⟨rfl, drop?_eq_some_iff.1 (by simpa using ht), rfl⟩
  · simp only [Option.map_eq_some_iff, Option.or_eq_some_iff, Prod.mk.injEq] at h
    obtain ⟨t, ht, rfl, rfl⟩ := h
    refine .inr ⟨rfl, ?_⟩
    rcases ht with ht | ⟨-, ht⟩
    · exact ⟨_, .inl rfl, drop?_eq_some_iff.1 ht⟩
    · exact ⟨_, .inr rfl, drop?_eq_some_iff.1 ht⟩

theorem numberText_of_nonFinite? {D o negative s d r} (ho : o.contains .nonFinite = true)
    (h : nonFinite? negative s = some (d, r)) :
    ∃ w, s = w ++ r ∧ NumberTextBy D o (minusText negative ++ w) (.double d) := by
  rcases eq_of_nonFinite? h with ⟨rfl, hs, rfl⟩ | ⟨rfl, w, hw, hs⟩
  · exact ⟨Word.nan, hs, .nan ho⟩
  · exact ⟨w, hs, .infinity negative ho hw⟩

theorem take_length_sub (p r : Bytes) : (p ++ r).take ((p ++ r).length - r.length) = p := List.take_left' (by simp)

variable {value? : Interpretation}

theorem numberBy_numeral {o s n r} (h : NumeralText s n) (hr : Delimited r) :
    numberBy value? o (s ++ r) =
      match value? s n with
      | some v => if admits o v then .ok (v, r) else .error ⟨.malformed, s ++ r⟩
      | none => .error ⟨.malformed, s ++ r⟩ := by
  obtain ⟨p, hp, hm⟩ := h.exists_unsigned
  -- A digit starts no word, whether the options allow words for numbers or not.
  have hn : (if o.contains .nonFinite then nonFinite? n.negative (p ++ r) else none) = none := by
    obtain ⟨b, t, rfl, hb⟩ := hp.exists_cons
    simp [nonFinite?_of_digit n.negative hb]
  cases hv : value? s n <;>
    simp only [numberBy, hm, hn, unsigned_append hp hr, take_length_sub, bind, Except.bind, pure, Except.pure, hv]

/-- Only what numerals stand for matters, not what other texts would. -/
theorem numberBy_congr {value?' : Interpretation} (h : ∀ {s n}, NumeralText s n → value? s n = value?' s n)
    (o : Options) : numberBy value? o = numberBy value?' o := by
  funext s
  cases hw : (if o.contains .nonFinite then nonFinite? (minusSign s).1 (minusSign s).2 else none) with
  | some x => simp only [numberBy, hw]
  | none =>
      cases hu : unsigned (minusSign s).1 (minusSign s).2 with
      | error f => simp only [numberBy, hw, hu, bind, Except.bind]
      | ok x =>
          obtain ⟨n, r⟩ := x
          obtain ⟨p, hp, htext, hneg, -⟩ := eq_of_unsigned hu
          have hs := eq_minusText_append s
          rw [hp, ← hneg, ← List.append_assoc] at hs
          have htake : s.take (s.length - r.length) = minusText n.negative ++ p := by rw [hs, take_length_sub]
          simp only [numberBy, hw, hu, bind, Except.bind, htake, h ⟨htext⟩]

theorem numberBy_append {o s v r} (h : NumberTextBy (.of value? o) o s v) (hr : Delimited r) :
    numberBy value? o (s ++ r) = .ok (v, r) := by
  cases h with
  | numeral h hv => simp only [numberBy_numeral h hr, hv.1, hv.2, if_true]
  | nan ho =>
      have hn : nonFinite? false (Word.nan ++ r) = some (.nan, r) := by
        simp [nonFinite?, drop?_eq_some_iff.2]
      have hm : minusSign (Word.nan ++ r) = (false, Word.nan ++ r) := rfl
      simp [numberBy, hm, hn, ho, tokenEnd_eq_ok_iff.2 ⟨rfl, hr⟩, Except.map]
  | @infinity w negative ho hw =>
      have hn := nonFinite?_infinity negative hw r
      have hm : minusSign (minusText negative ++ (w ++ r)) = (negative, w ++ r) := by
        refine minusSign_append fun _ t ht => ?_
        rcases hw with rfl | rfl <;> cases ht
      simp [numberBy, hm, hn, ho, tokenEnd_eq_ok_iff.2 ⟨rfl, hr⟩, Except.map]

theorem eq_of_numberBy {o s v r} (h : numberBy value? o s = .ok (v, r)) :
    ∃ p, s = p ++ r ∧ NumberTextBy (.of value? o) o p v ∧ Delimited r := by
  have hs := eq_minusText_append s
  simp only [numberBy] at h
  split at h
  · rename_i d t hd
    obtain ⟨u, hu, h⟩ := map_eq_ok.1 h
    cases h
    obtain ⟨rfl, hr⟩ := tokenEnd_eq_ok_iff.1 hu
    split at hd
    · rename_i ho
      obtain ⟨w, hw, hp⟩ := numberText_of_nonFinite? ho hd
      rw [hw] at hs
      exact ⟨minusText (minusSign s).1 ++ w, by simpa using hs, hp, hr⟩
    · cases hd
  · obtain ⟨⟨n, t⟩, hn, h⟩ := bind_eq_ok.1 h
    obtain ⟨p, hp, hu, hneg, hr⟩ := eq_of_unsigned hn
    rw [hp, ← hneg, ← List.append_assoc] at hs
    rw [hs, take_length_sub] at h
    split at h
    · rename_i v' hv
      split at h
      · rename_i ha
        cases h
        exact ⟨minusText n.negative ++ p, hs, .numeral (.mk hu) ⟨hv, ha⟩, hr⟩
      · cases h
    · cases h

theorem numberBy_eq_ok_iff {o s v r} :
    numberBy value? o s = .ok (v, r) ↔ ∃ p, s = p ++ r ∧ NumberTextBy (.of value? o) o p v ∧ Apart p r := by
  constructor
  · intro h
    obtain ⟨p, hs, hp, hr⟩ := eq_of_numberBy h
    exact ⟨p, hs, hp, hr.apart p⟩
  · rintro ⟨p, rfl, hp, hr⟩
    exact numberBy_append hp (hr hp.isOpen)

theorem number_append {o s v r} (h : NumberText o s v) (hr : Delimited r) : number o (s ++ r) = .ok (v, r) :=
  numberBy_append h hr

theorem number_eq_ok_iff {o s v r} : number o s = .ok (v, r) ↔ ∃ p, s = p ++ r ∧ NumberText o p v ∧ Apart p r :=
  numberBy_eq_ok_iff

end JsonTree.Grammar
