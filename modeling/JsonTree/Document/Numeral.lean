import JsonTree.Document.Word
import JsonTree.Number.Decimal
import JsonTree.Number.Digits
import JsonTree.Options
import JsonTree.Value.Cast

/-!
# Numbers in documents

A numeral is an integer part without needless zeros, then perhaps a fraction, then perhaps an exponent. Numerals
that are plain integers of 32 bits are read as integers, all others as doubles. Words for numbers that are not
finite are an option, and so are numerals too large to be finite.

An exponent takes further digits only while it is below a bound. What it falls short by could matter only to a
numeral with tens of thousands of digits.
-/

namespace JsonTree

/-- The parts of a numeral. Digits are held as they stand in the document. -/
structure Numeral where
  negative : Bool
  whole : Bytes
  fraction : Option Bytes
  /-- Whether the exponent is negative, and its digits. -/
  exponent : Option (Bool × Bytes)
  deriving DecidableEq, Repr

namespace Numeral

/-- The number that a run of decimal digits stands for. -/
def ofDigits (ds : Bytes) : Nat := Digits.join 10 (ds.reverse.map Byte.digitValue)

theorem ofDigits_eq_foldl (ds : Bytes) :
    ofDigits ds = ds.foldl (fun n b => 10 * n + Byte.digitValue b) 0 := by
  rw [ofDigits, Digits.join_eq_number, Digits.number, List.foldr_map, List.foldr_reverse]
  simp only [Nat.add_comm]

/-- An exponent that has reached this bound takes no further digits. -/
def powerBound : Nat := 0x10000

/-- The exponent behind one more digit. -/
def nextPower (n : Nat) (b : UInt8) : Nat := if n < powerBound then 10 * n + Byte.digitValue b else n

/-- The exponent that a run of decimal digits is read as. -/
def powerOfDigits (ds : Bytes) : Nat := ds.foldl nextPower 0

/-- A numeral without fraction and exponent. -/
def isPlain (n : Numeral) : Bool := n.fraction.isNone && n.exponent.isNone

def toInt (n : Numeral) : Int := if n.negative then -(ofDigits n.whole : Int) else ofDigits n.whole

/-- The exponent as it is read; zero if there is none. -/
def power (n : Numeral) : Int :=
  match n.exponent with
  | some (negative, ds) => if negative then -(powerOfDigits ds : Int) else powerOfDigits ds
  | none => 0

def toDecimal (n : Numeral) : Decimal :=
  let fraction := n.fraction.getD []
  ⟨n.negative, ofDigits (n.whole ++ fraction), n.power - fraction.length⟩

/-- The 32-bit integers, as which plain numerals are read. -/
def native : IntType := ⟨true, 32⟩

def value (n : Numeral) : Value :=
  if n.isPlain && native.contains n.toInt then .integer (.ofInt n.toInt) else .double n.toDecimal.toDouble

end Numeral

namespace Document

open Byte

/-! ## Parts of numerals -/

/-- At least one digit, and all that follow. -/
def digits (s : Bytes) : Except Fault (Bytes × Bytes) :=
  if (s.takeWhile isDigit).isEmpty then .error ⟨.malformed, s⟩
  else .ok (s.takeWhile isDigit, s.dropWhile isDigit)

/-- A zero, or digits that start with another one. -/
def wholePart (s : Bytes) : Except Fault (Bytes × Bytes) :=
  match s with
  | [] => .error ⟨.malformed, []⟩
  | b :: r => if b = zero then .ok ([b], r) else digits s

/-- A dot and digits, if there is a dot. -/
def fractionPart (s : Bytes) : Except Fault (Option Bytes × Bytes) :=
  match s with
  | [] => .ok (none, [])
  | b :: r => if b = dot then (digits r).map fun (ds, r) => (some ds, r) else .ok (none, s)

/-- Whether there is a minus, and the rest behind it. -/
def minusSign (s : Bytes) : Bool × Bytes :=
  match s with
  | [] => (false, [])
  | b :: r => if b = minus then (true, r) else (false, s)

/-- Whether there is a minus, and the rest behind it or behind a plus. -/
def sign (s : Bytes) : Bool × Bytes :=
  match s with
  | [] => (false, [])
  | b :: r => if b = plus then (false, r) else minusSign s

/-- The letter `e` in either case, perhaps a sign, and digits, if there is such a letter. -/
def exponentPart (s : Bytes) : Except Fault (Option (Bool × Bytes) × Bytes) :=
  match s with
  | [] => .ok (none, [])
  | b :: r =>
      if b = letterE ∨ b = capitalE then (digits (sign r).2).map fun (ds, r') => (some ((sign r).1, ds), r')
      else .ok (none, s)

def unsigned (negative : Bool) (s : Bytes) : Except Fault (Numeral × Bytes) := do
  let (whole, s) ← wholePart s
  let (fraction, s) ← fractionPart s
  let (exponent, s) ← exponentPart s
  let s ← tokenEnd s
  return (⟨negative, whole, fraction, exponent⟩, s)

/-! ## Numbers -/

/-- The number that a word stands for, and the rest behind the word. There is no negative NaN. -/
def nonFinite? (negative : Bool) (s : Bytes) : Option (Double × Bytes) :=
  match (if negative then none else Word.drop? Word.nan s) with
  | some r => some (.nan, r)
  | none => ((Word.drop? Word.infinity s).or (Word.drop? Word.inf s)).map fun r => (.infinity negative, r)

/-- What numerals stand for: the value, if it has one, of a numeral that is written as this text. -/
abbrev Interpretation := Bytes → Numeral → Option Value

/-- The interpretation that reads exponents up to a bound. -/
def Interpretation.own : Interpretation := fun _ n => some n.value

/-- Whether a number may be the value of a numeral. -/
def admits (o : Options) : Value → Bool
  | .double d => d.isFinite || o.contains .nonFinite
  | _ => true

/-- Reads a number, where a numeral stands for what `value?` says. -/
@[inline]
def numberBy (value? : Interpretation) (o : Options) (start : Bytes) : Except Fault (Value × Bytes) :=
  let (negative, s) := minusSign start
  match (if o.contains .nonFinite then nonFinite? negative s else none) with
  | some (d, r) => (tokenEnd r).map fun r => (.double d, r)
  | none => do
      let (n, r) ← unsigned negative s
      match value? (start.take (start.length - r.length)) n with
      | some v => if admits o v then return (v, r) else .error ⟨.malformed, start⟩
      | none => .error ⟨.malformed, start⟩

def number (o : Options) (start : Bytes) : Except Fault (Value × Bytes) := numberBy .own o start

theorem number_eq_value (o : Options) (start : Bytes) : number o start =
    match (if o.contains .nonFinite then nonFinite? (minusSign start).1 (minusSign start).2 else none) with
    | some (d, r) => (tokenEnd r).map fun r => (.double d, r)
    | none => (do
        let (n, r) ← unsigned (minusSign start).1 (minusSign start).2
        if admits o n.value then return (n.value, r) else .error ⟨.malformed, start⟩) := rfl

theorem length_lt_of_digits {s r ds : Bytes} (h : digits s = .ok (ds, r)) : r.length < s.length := by
  unfold digits at h
  split at h
  · cases h
  · rename_i hd
    simp only [Except.ok.injEq, Prod.mk.injEq] at h
    obtain ⟨rfl, rfl⟩ := h
    have := congrArg List.length (List.takeWhile_append_dropWhile (p := isDigit) (l := s))
    have := List.length_pos_iff.2 (fun he => hd (List.isEmpty_iff.2 he))
    simp only [List.length_append] at *
    omega

theorem length_lt_of_wholePart {s r ds : Bytes} (h : wholePart s = .ok (ds, r)) : r.length < s.length := by
  unfold wholePart at h
  split at h
  · cases h
  · split at h
    · simp_all
    · exact length_lt_of_digits h

theorem length_le_of_fractionPart {s r : Bytes} {ds : Option Bytes} (h : fractionPart s = .ok (ds, r)) :
    r.length ≤ s.length := by
  unfold fractionPart at h
  split at h
  · cases h
    exact Nat.le_refl _
  · split at h
    · obtain ⟨⟨ds', r'⟩, hd, h⟩ := map_eq_ok.1 h
      cases h
      exact Nat.le_succ_of_le (Nat.le_of_lt (length_lt_of_digits hd))
    · cases h
      exact Nat.le_refl _

theorem length_minusSign (s : Bytes) : (minusSign s).2.length ≤ s.length := by
  unfold minusSign
  split
  · simp
  · split <;> simp

theorem length_sign (s : Bytes) : (sign s).2.length ≤ s.length := by
  unfold sign
  split
  · simp
  · split
    · simp
    · exact length_minusSign _

theorem length_le_of_exponentPart {s r : Bytes} {e : Option (Bool × Bytes)}
    (h : exponentPart s = .ok (e, r)) : r.length ≤ s.length := by
  unfold exponentPart at h
  split at h
  · cases h
    exact Nat.le_refl _
  · split at h
    · rename_i b t _
      obtain ⟨⟨ds, r'⟩, hd, h⟩ := map_eq_ok.1 h
      cases h
      exact Nat.le_succ_of_le (Nat.le_trans (Nat.le_of_lt (length_lt_of_digits hd)) (length_sign t))
    · cases h
      exact Nat.le_refl _

theorem length_lt_of_unsigned {negative : Bool} {s r : Bytes} {n : Numeral}
    (h : unsigned negative s = .ok (n, r)) : r.length < s.length := by
  obtain ⟨⟨whole, s₁⟩, hw, h⟩ := bind_eq_ok.1 h
  obtain ⟨⟨fraction, s₂⟩, hf, h⟩ := bind_eq_ok.1 h
  obtain ⟨⟨exponent, s₃⟩, he, h⟩ := bind_eq_ok.1 h
  obtain ⟨s₄, ht, h⟩ := bind_eq_ok.1 h
  cases h
  have := length_lt_of_wholePart hw
  have := length_le_of_fractionPart hf
  have := length_le_of_exponentPart he
  have := congrArg List.length (eq_of_tokenEnd ht)
  omega

theorem length_lt_of_nonFinite? {negative : Bool} {s r : Bytes} {d : Double}
    (h : nonFinite? negative s = some (d, r)) : r.length < s.length := by
  have hn : Word.nan.length = 3 := rfl
  have hi : Word.infinity.length = 8 := rfl
  have hf : Word.inf.length = 3 := rfl
  unfold nonFinite? at h
  split at h
  · rename_i r' hr
    cases h
    split at hr
    · cases hr
    · have := Word.length_of_drop? hr
      omega
  · simp only [Option.map_eq_some_iff, Option.or_eq_some_iff, Prod.mk.injEq] at h
    obtain ⟨r', hr | ⟨_, hr⟩, _, rfl⟩ := h <;> have := Word.length_of_drop? hr <;> omega

theorem length_lt_of_numberBy {value? : Interpretation} {o : Options} {s r : Bytes} {v : Value}
    (h : numberBy value? o s = .ok (v, r)) : r.length < s.length := by
  have hs := length_minusSign s
  simp only [numberBy] at h
  split at h
  · rename_i d t hd
    obtain ⟨t', ht, h⟩ := map_eq_ok.1 h
    cases h
    split at hd
    · have := length_lt_of_nonFinite? hd
      have := congrArg List.length (eq_of_tokenEnd ht)
      omega
    · cases hd
  · obtain ⟨⟨n, r'⟩, hn, h⟩ := bind_eq_ok.1 h
    split at h
    · split at h
      · cases h
        exact Nat.lt_of_lt_of_le (length_lt_of_unsigned hn) hs
      · cases h
    · cases h

theorem length_lt_of_number {o : Options} {s r : Bytes} {v : Value} (h : number o s = .ok (v, r)) :
    r.length < s.length :=
  length_lt_of_numberBy h

def startsNumber (o : Options) (b : UInt8) : Bool :=
  b == minus || isDigit b || (o.contains .nonFinite && (b == capitalN || b == capitalI || b == letterI))

end Document

end JsonTree
