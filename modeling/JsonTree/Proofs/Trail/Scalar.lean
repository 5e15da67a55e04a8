import JsonTree.Proofs.Grammar.Number
import JsonTree.Proofs.Trail.Scanner

/-!
# Scalars under two sets of options

Of the options, scalars depend on two flags: how strings are stored, and whether numbers may be not finite. Without
leave not to be finite, a scalar is read as with it, but for the numbers that need it. These are faults at the place
that `nonFiniteStart?` gives.
-/

namespace JsonTree.Trail

open Byte Document Grammar

variable {o o' : Options} {negative : Bool} {b : UInt8} {s r : Bytes}

/-- The place at which a number shows that it needs leave not to be finite. A word does so behind its sign, and a
numeral at its start. -/
def nonFiniteStart? (s : Bytes) : Option Bytes :=
  let (negative, t) := minusSign s
  if (nonFinite? negative t).isSome then some t
  else
    match unsigned negative t with
    | .ok (n, _) => if admits {} n.value then none else some s
    | .error _ => none

/-! ## Starts of numbers -/

/-- A byte that a word for a number starts with. -/
def StartsWord (b : UInt8) : Prop := b = capitalN ∨ b = capitalI ∨ b = letterI

instance : DecidablePred StartsWord := fun b =>
  inferInstanceAs (Decidable (b = capitalN ∨ b = capitalI ∨ b = letterI))

theorem unsigned_of_not_isDigit (hb : isDigit b = false) (negative : Bool) (s : Bytes) :
    unsigned negative (b :: s) = .error ⟨.malformed, b :: s⟩ := by
  have hz : b ≠ zero := by
    rintro rfl
    cases hb
  simp [unsigned, wholePart, digits, hz, hb, bind, Except.bind]

theorem exists_cons_of_nonFinite? {d : Double} (h : nonFinite? negative s = some (d, r)) :
    ∃ b t, s = b :: t ∧ StartsWord b := by
  rcases eq_of_nonFinite? h with ⟨-, rfl, -⟩ | ⟨-, w, rfl | rfl, rfl⟩
  · exact ⟨capitalN, _, rfl, .inl rfl⟩
  · exact ⟨capitalI, _, rfl, .inr (.inl rfl)⟩
  · exact ⟨letterI, _, rfl, .inr (.inr rfl)⟩

theorem startsNumber_eq_true_iff : startsNumber o b = true ↔
    b = minus ∨ isDigit b = true ∨ (o.contains .nonFinite = true ∧ StartsWord b) := by
  simp [startsNumber, StartsWord, or_assoc]

theorem StartsWord.isDigit_eq_false (h : StartsWord b) : isDigit b = false := by
  rcases h with rfl | rfl | rfl <;> rfl

theorem StartsWord.ne (h : StartsWord b) :
    b ≠ minus ∧ b ≠ quote ∧ b ≠ letterN ∧ b ≠ letterT ∧ b ≠ letterF := by
  rcases h with rfl | rfl | rfl <;> decide

/-! ## Numbers -/

theorem number_of_nonFinite? (ho : o.contains .nonFinite = false) {d : Double}
    (h : nonFinite? (minusSign s).1 (minusSign s).2 = some (d, r)) :
    number o s = .error ⟨.malformed, (minusSign s).2⟩ := by
  obtain ⟨b, t, ht, hb⟩ := exists_cons_of_nonFinite? h
  simp [number_eq_value, ho, ht, unsigned_of_not_isDigit hb.isDigit_eq_false, bind, Except.bind]

theorem number_eq (ho : o.contains .nonFinite = false) (ho' : o'.contains .nonFinite = true) (s : Bytes) :
    number o s =
      match nonFiniteStart? s with
      | some r => .error ⟨.malformed, r⟩
      | none => number o' s := by
  cases hn : nonFinite? (minusSign s).1 (minusSign s).2 with
  | some x => simp [nonFiniteStart?, hn, number_of_nonFinite? ho hn]
  | none =>
      cases hu : unsigned (minusSign s).1 (minusSign s).2 with
      | error f => simp [nonFiniteStart?, number_eq_value, ho, ho', hn, hu, bind, Except.bind]
      | ok x =>
          have hadmits : admits o x.1.value = admits {} x.1.value := admits_congr (ho.trans rfl) _
          have hadmits' : admits o' x.1.value = true := by
            cases x.1.value <;> simp [admits, ho']
          cases ha : admits {} x.1.value <;>
            simp [nonFiniteStart?, number_eq_value, ho, ho', hn, hu, hadmits, hadmits', ha, bind, Except.bind]

theorem nonFiniteStart?_eq_none (hm : b ≠ minus) (hd : isDigit b = false) (hw : ¬ StartsWord b) :
    nonFiniteStart? (b :: s) = none := by
  have hn : nonFinite? false (b :: s) = none := by
    cases h : nonFinite? false (b :: s) with
    | none => rfl
    | some x =>
        obtain ⟨_, _, ht, hb⟩ := exists_cons_of_nonFinite? h
        cases ht
        exact absurd hb hw
  simp [nonFiniteStart?, minusSign, hm, hn, unsigned_of_not_isDigit hd]

/-- Where a number shows that it needs leave not to be finite: at a word, perhaps behind a minus, or at a numeral that
is too large to be finite. -/
theorem nonFiniteStart?_cases (h : nonFiniteStart? s = some r) :
    (∃ b t, r = b :: t ∧ StartsWord b ∧ (s = r ∨ s = minus :: r)) ∨
    (r = s ∧ ∃ p t n, s = p ++ t ∧ NumeralText p n ∧ Delimited t ∧ admits {} n.value = false) := by
  have hs := eq_minusText_append s
  generalize hm : minusSign s = m at hs
  obtain ⟨negative, t⟩ := m
  simp only [nonFiniteStart?, hm] at h
  split at h
  · rename_i hn
    cases h
    obtain ⟨x, hx⟩ := Option.isSome_iff_exists.1 hn
    obtain ⟨b, u, hu, hb⟩ := exists_cons_of_nonFinite? hx
    refine .inl ⟨b, u, hu, hb, ?_⟩
    cases negative with
    | true => exact .inr hs
    | false => exact .inl hs
  · split at h
    · rename_i n r' hu
      split at h
      · cases h
      · rename_i ha
        cases h
        obtain ⟨p, rfl, hp, rfl, hr⟩ := eq_of_unsigned hu
        refine .inr ⟨rfl, minusText n.negative ++ p, r', n, by simpa using hs, .mk hp, hr, by simpa using ha⟩
    · cases h

/-! ## Scalars -/

theorem scalar_congr (hb : o'.contains .borrowing = o.contains .borrowing)
    (hn : o'.contains .nonFinite = o.contains .nonFinite) (s : Bytes) : scalar o' s = scalar o s := by
  have hadmits : admits o' = admits o := funext (admits_congr hn)
  have hstored : stored o' = stored o := by
    funext t
    simp [stored, hb]
  cases s with
  | nil => rfl
  | cons b s => simp [scalar, startsNumber, number_eq_value, string, hn, hadmits, hstored]

theorem scalar_eq (hb : o'.contains .borrowing = o.contains .borrowing) (ho : o.contains .nonFinite = false)
    (ho' : o'.contains .nonFinite = true) (s : Bytes) :
    scalar o s =
      match nonFiniteStart? s with
      | some r => .error ⟨.malformed, r⟩
      | none => scalar o' s := by
  cases s with
  | nil => rfl
  | cons b s =>
      by_cases hs : startsNumber o b = true
      · have hs' : startsNumber o' b = true := by
          rw [startsNumber_eq_true_iff] at hs ⊢
          exact hs.imp id fun h => h.imp id fun h => ⟨ho', h.2⟩
        have hq : b ≠ quote := startsNumber_ne hs (by decide)
        simpa [scalar, hs, hs', hq] using number_eq ho ho' (b :: s)
      · by_cases hw : StartsWord b
        · -- Without leave no number starts here, and one with leave is the word or is no number either.
          have hs' : startsNumber o' b = true := startsNumber_eq_true_iff.2 (.inr (.inr ⟨ho', hw⟩))
          have hne := hw.ne
          have hn : number o (b :: s) = .error ⟨.malformed, b :: s⟩ := by
            simp [number_eq_value, ho, minusSign, hne, unsigned_of_not_isDigit hw.isDigit_eq_false, bind, Except.bind]
          have heq := number_eq ho ho' (b :: s)
          rw [hn] at heq
          simpa [scalar, hs, hs', hne] using heq
        · have hne : b ≠ minus ∧ isDigit b = false := by
            simpa [startsNumber_eq_true_iff, ho] using hs
          have hs' : ¬ startsNumber o' b = true := by
            simp [startsNumber_eq_true_iff, hne, hw]
          rw [nonFiniteStart?_eq_none hne.1 hne.2 hw]
          simp [scalar, hs, hs', string, stored, hb]

end JsonTree.Trail
