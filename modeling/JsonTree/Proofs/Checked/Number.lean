import JsonTree.Proofs.Checked.Steps
import JsonTree.Proofs.Grammar.Number

/-!
# Numbers and words, step by step

The machine first finds out where a number ends and then reads its text again. It finds the number that the reader
finds.
-/

namespace JsonTree.Checked

open Byte Document Grammar

variable {doc : Bytes} {s : State}

/-! ## Runs -/

theorem drop_length_takeWhile (p : UInt8 → Bool) (r : Bytes) : r.drop (r.takeWhile p).length = r.dropWhile p := by
  have h : (r.takeWhile p ++ r.dropWhile p).drop (r.takeWhile p).length = r.dropWhile p := List.drop_left
  rwa [List.takeWhile_append_dropWhile] at h

theorem Good.skipWhile_eq (h : Good doc s) (p : UInt8 → Bool) :
    skipWhile doc p s = .ok ((), s.at (s.idx + ((doc.drop s.idx).takeWhile p).length)) := by
  induction hn : doc.length - s.idx generalizing s with
  | zero =>
      have hi : doc.length ≤ s.idx := by omega
      have hturn : skipTurn doc p () s = .ok (.done (), s) := by
        rw [skipTurn, bind_ok (peek_eq doc s), List.getElem?_eq_none hi]
        rfl
      rw [skipWhile, loop_done hturn, List.drop_eq_nil_of_le hi]
      rfl
  | succ n ih =>
      obtain ⟨hi, -, -⟩ | ⟨b, hi, hget, hdrop⟩ := ahead_cases h.idx_le
      · omega
      · rw [hdrop, List.takeWhile_cons]
        cases hp : p b with
        | false =>
            have hturn : skipTurn doc p () s = .ok (.done (), s) := by
              rw [skipTurn, bind_ok (peek_eq doc s), hget]
              simp only [hp]
              rfl
            rw [skipWhile, loop_done hturn]
            rfl
        | true =>
            have hturn : skipTurn doc p () s = .ok (.again (), s.at (s.idx + 1)) := by
              rw [skipTurn, bind_ok (peek_eq doc s), hget]
              simp only [hp, if_true]
              rw [bind_ok (h.advance_eq hi)]
              rfl
            have hnext := ih (h.at (Nat.le_succ s.idx) hi) (by simp only [State.idx_at]; omega)
            rw [skipWhile] at hnext ⊢
            rw [loop_again hturn (Nat.lt_succ_self s.idx) hi, hnext]
            simp [Nat.add_assoc, Nat.add_comm 1]

/-! ## Delimiters and words -/

/-- A token ends where the machine stands, or both report it there. -/
theorem Good.delimiter_cases (h : Good doc s) :
    (tokenEnd (doc.drop s.idx) = .ok (doc.drop s.idx) ∧ delimiter doc s = .ok ((), s)) ∨
    (tokenEnd (doc.drop s.idx) = .error ⟨.malformed, doc.drop s.idx⟩ ∧
      delimiter doc s = .error (.error (s.error .malformed s.idx))) := by
  rw [delimiter, bind_ok (peek_eq doc s)]
  obtain ⟨-, hget, hdrop⟩ | ⟨b, -, hget, hdrop⟩ := ahead_cases h.idx_le
  · rw [hget, hdrop]
    exact .inl ⟨rfl, rfl⟩
  · rw [hget, hdrop, tokenEnd]
    by_cases hb : continuesToken b = true
    · right
      dsimp only
      rw [if_pos hb, if_pos hb, h.report_zero]
      exact ⟨rfl, rfl⟩
    · left
      dsimp only
      rw [if_neg hb, if_neg hb]
      exact ⟨rfl, rfl⟩

theorem Good.reads_word (h : Good doc s) (v : Value) (w : Bytes) :
    Reads doc s (Word.value w v (doc.drop s.idx)) (word doc v w s) := by
  induction w generalizing s with
  | nil =>
      rw [word, Word.value, Word.skip]
      obtain ⟨ht, hd⟩ | ⟨ht, hd⟩ := h.delimiter_cases
      · rw [ht, bind_ok hd]
        exact .ok (Nat.le_refl _) h.idx_le
      · rw [ht, bind_error hd]
        exact .error h.lineStart_le h.idx_le
  | cons w ws ih =>
      rw [word, bind_ok (peek_eq doc s), Word.value]
      obtain ⟨-, hget, hdrop⟩ | ⟨b, hi, hget, hdrop⟩ := ahead_cases h.idx_le
      · rw [hget, hdrop, if_neg (by simp), Word.skip, ← hdrop]
        exact h.reads_report .malformed
      · rw [hget, hdrop, Word.skip]
        by_cases hb : b = w
        · rw [if_pos (congrArg some hb), if_pos hb, bind_ok (h.advance_eq hi)]
          exact (ih (h.at (Nat.le_succ _) hi)).mono (Nat.le_succ _)
        · rw [if_neg fun h => hb (Option.some.inj h), if_neg hb, ← hdrop]
          exact h.reads_report .malformed

/-! ## Parts of numerals -/

/-- How many digits the document has from a place on. -/
def digitCount (doc : Bytes) (i : Nat) : Nat := ((doc.drop i).takeWhile isDigit).length

theorem add_digitCount_le {i : Nat} (h : i ≤ doc.length) : i + digitCount doc i ≤ doc.length := by
  have hle := (List.takeWhile_sublist isDigit (l := doc.drop i)).length_le
  rw [List.length_drop] at hle
  rw [digitCount]
  omega

theorem digits_of_eq_zero {i : Nat} (h : digitCount doc i = 0) :
    Document.digits (doc.drop i) = .error ⟨.malformed, doc.drop i⟩ :=
  if_pos (List.isEmpty_iff.2 (List.eq_nil_of_length_eq_zero h))

theorem digits_of_ne_zero {i : Nat} (h : digitCount doc i ≠ 0) :
    Document.digits (doc.drop i) = .ok ((doc.drop i).takeWhile isDigit, doc.drop (i + digitCount doc i)) := by
  rw [Document.digits, if_neg fun he => h (List.length_eq_zero_iff.2 (List.isEmpty_iff.1 he)), ← drop_length_takeWhile,
    List.drop_drop]
  rfl

theorem Good.digits_eq (h : Good doc s) :
    Checked.digits doc s = .ok (digitCount doc s.idx, s.at (s.idx + digitCount doc s.idx)) := by
  have hlt := h.length_lt
  have hle := add_digitCount_le h.idx_le
  rw [Checked.digits, bind_ok (get_eq s), bind_ok (h.skipWhile_eq isDigit), bind_ok (get_eq _)]
  simp only [digitCount] at hle ⊢
  exact fitNat_eq (by simp only [State.idx_at]; omega) (contains_unsigned.2 (by simp only [State.idx_at]; omega)) _

theorem Good.reads_someDigits (h : Good doc s) :
    Reads doc s ((Document.digits (doc.drop s.idx)).map (Prod.map (fun _ => ()) id)) (someDigits doc s) := by
  rw [someDigits, bind_ok h.digits_eq]
  by_cases hz : digitCount doc s.idx = 0
  · rw [digits_of_eq_zero hz, if_pos hz, hz]
    exact h.reads_report .malformed
  · rw [digits_of_ne_zero hz, if_neg hz]
    exact .ok (Nat.le_add_right _ _) (add_digitCount_le h.idx_le)

theorem Good.reads_whole (h : Good doc s) :
    Reads doc s ((wholePart (doc.drop s.idx)).map (Prod.map (fun _ => ()) id)) (whole doc s) := by
  rw [whole, bind_ok (peek_eq doc s)]
  obtain ⟨-, hget, hdrop⟩ | ⟨b, hi, hget, hdrop⟩ := ahead_cases h.idx_le
  · rw [hget, hdrop, wholePart, ← hdrop]
    exact h.reads_report .malformed
  · rw [hget, hdrop, wholePart]
    dsimp only
    split
    · rw [h.advance_eq hi]
      exact .ok (Nat.le_succ _) hi
    · rw [← hdrop]
      by_cases hb : isDigit b = true
      · have hz : digitCount doc s.idx ≠ 0 := by simp [digitCount, hdrop, hb]
        rw [digits_of_ne_zero hz, if_pos hb, bind_ok h.digits_eq]
        exact .ok (Nat.le_add_right _ _) (add_digitCount_le h.idx_le)
      · have hz : digitCount doc s.idx = 0 := by simp [digitCount, hdrop, hb]
        rw [digits_of_eq_zero hz, if_neg hb]
        exact h.reads_report .malformed

theorem Good.reads_fraction (h : Good doc s) :
    Reads doc s ((fractionPart (doc.drop s.idx)).map (Prod.map Option.isNone id)) (fraction doc s) := by
  rw [fraction, bind_ok (peek_eq doc s)]
  obtain ⟨-, hget, hdrop⟩ | ⟨b, hi, hget, hdrop⟩ := ahead_cases h.idx_le
  · rw [hget, if_neg (by simp), hdrop, fractionPart, ← hdrop]
    exact .ok (Nat.le_refl _) h.idx_le
  · rw [hget, hdrop, fractionPart]
    by_cases hb : b = dot
    · rw [if_pos (congrArg some hb), if_pos hb, bind_ok (h.advance_eq hi)]
      have hdigits := (h.at (Nat.le_succ _) hi).reads_someDigits
      refine Reads.mono ?_ (Nat.le_succ s.idx)
      have hmap (x : Except Fault (Bytes × Bytes)) :
          (x.map (Prod.map some id)).map (Prod.map Option.isNone id) = x.map (Prod.map (fun _ => false) id) := by
        cases x <;> rfl
      rw [map_first, hmap]
      exact hdigits.map_map fun _ _ _ => rfl
    · rw [if_neg fun h => hb (Option.some.inj h), if_neg hb, ← hdrop]
      exact .ok (Nat.le_refl _) h.idx_le

/-- Behind the letter of an exponent may stand a sign. -/
theorem Good.exponentSign_eq (h : Good doc s) : ∃ i, s.idx ≤ i ∧ i ≤ doc.length ∧
    (Document.sign (doc.drop s.idx)).2 = doc.drop i ∧ exponentSign doc s = .ok ((), s.at i) := by
  rw [exponentSign, bind_ok (peek_eq doc s)]
  obtain ⟨-, hget, hdrop⟩ | ⟨b, hi, hget, hdrop⟩ := ahead_cases h.idx_le
  · rw [hget, hdrop]
    exact ⟨s.idx, Nat.le_refl _, h.idx_le, hdrop.symm, rfl⟩
  · rw [hget, hdrop]
    by_cases hb : b = plus ∨ b = minus
    · refine ⟨s.idx + 1, Nat.le_succ _, hi, ?_, ?_⟩
      · have hne : minus ≠ plus := by decide
        rcases hb with rfl | rfl <;> simp [Document.sign, minusSign, hne]
      · dsimp only
        rw [if_pos hb, h.advance_eq hi]
    · refine ⟨s.idx, Nat.le_refl _, h.idx_le, ?_, ?_⟩
      · rw [not_or] at hb
        simp [Document.sign, minusSign, hb, hdrop]
      · dsimp only
        rw [if_neg hb]
        rfl

theorem Good.reads_exponent (h : Good doc s) :
    Reads doc s ((exponentPart (doc.drop s.idx)).map (Prod.map Option.isNone id)) (exponent doc s) := by
  rw [exponent, bind_ok (peek_eq doc s)]
  obtain ⟨-, hget, hdrop⟩ | ⟨b, hi, hget, hdrop⟩ := ahead_cases h.idx_le
  · rw [hget, hdrop, exponentPart, ← hdrop]
    exact .ok (Nat.le_refl _) h.idx_le
  · rw [hget, hdrop, exponentPart]
    dsimp only
    by_cases hb : b = letterE ∨ b = capitalE
    · have hnext := h.at (Nat.le_succ _) hi
      obtain ⟨i, hlo, hhi, hsign, heq⟩ := hnext.exponentSign_eq
      rw [if_pos hb, if_pos hb, bind_ok (h.advance_eq hi), bind_ok heq]
      have hdigits := (hnext.at hlo hhi).reads_someDigits
      have hmap (x : Except Fault (Bytes × Bytes)) (negative : Bool) :
          (x.map (Prod.map (fun ds => some (negative, ds)) id)).map (Prod.map Option.isNone id) =
            x.map (Prod.map (fun _ => false) id) := by
        cases x <;> rfl
      simp only [State.idx_at] at hsign hdigits
      rw [hsign, map_first fun ds => some (_, ds), hmap]
      have hmapped := hdigits.map_map (f := fun _ => false) (k := fun _ => pure false) fun _ _ _ => rfl
      exact Reads.mono (s := s) (i := i) hmapped (Nat.le_trans (Nat.le_succ _) hlo)
    · rw [if_neg hb, if_neg hb, ← hdrop]
      exact .ok (Nat.le_refl _) h.idx_le

/-! ## Numerals -/

/-- The number that digits stand for behind digits that stand for `n`. -/
def decimal (n : Nat) (ds : Bytes) : Nat := ds.foldl (fun n b => 10 * n + digitValue b) n

theorem le_decimal (n : Nat) (ds : Bytes) : n ≤ decimal n ds := by
  induction ds generalizing n with
  | nil => exact Nat.le_refl n
  | cons b ds ih => exact Nat.le_trans (by omega) (ih (10 * n + digitValue b))

theorem accumulate_eq (n : Nat) {ds : Bytes} (hds : ∀ b ∈ ds, isDigit b = true) (hn : n < 2 ^ 63) (s : State) :
    accumulate n ds s = .ok (if decimal n ds < 2 ^ 63 then some (decimal n ds : Int) else none, s) := by
  induction ds generalizing n with
  | nil =>
      rw [accumulate, decimal, List.foldl_nil, if_pos hn]
      rfl
  | cons b ds ih =>
      obtain ⟨hb, hds⟩ := List.forall_mem_cons.1 hds
      have hdigit : 0x30 ≤ b.toNat ∧ b.toNat ≤ 0x39 := by
        simpa [isDigit, UInt8.le_iff_toNat_le] using hb
      have hle := le_decimal (10 * n + digitValue b) ds
      have hdecimal : decimal n (b :: ds) = decimal (10 * n + digitValue b) ds := rfl
      rw [accumulate, hdecimal]
      by_cases hten : i64.contains ((n : Int) * 10) = true
      · have hfit := fitNat_eq (t := u8) (n := (b.toNat : Int) - 0x30) (m := digitValue b)
          (by simp only [digitValue]; omega) (contains_unsigned.2 (by omega)) s
        rw [if_pos hten, bind_ok hfit]
        by_cases hsum : i64.contains ((n : Int) * 10 + digitValue b) = true
        · have hlt := (contains_signed.1 hsum).2
          have hcast : (n : Int) * 10 + digitValue b = (10 * n + digitValue b : Nat) := by omega
          rw [if_pos hsum, hcast]
          exact ih (10 * n + digitValue b) hds (by omega)
        · have hlarge : ¬ 10 * n + digitValue b < 2 ^ 63 := fun h => hsum (contains_signed.2 (by omega))
          rw [if_neg hsum, if_neg (by omega)]
          rfl
      · have hlarge : ¬ 10 * n < 2 ^ 63 := fun h => hten (contains_signed.2 (by omega))
        rw [if_neg hten, if_neg (by omega)]
        rfl

theorem isDigit_of_wholeText {w : Bytes} (h : WholeText w) : ∀ b ∈ w, isDigit b = true := by
  cases h with
  | zero => exact List.forall_mem_singleton.2 rfl
  | digits h _ => exact h.2

theorem nativeInteger_eq {n : Numeral} {text : Bytes} (ht : minusSign text = (n.negative, n.whole))
    (hw : WholeText n.whole) (s : State) :
    nativeInteger text s = .ok (if Numeral.native.contains n.toInt then some n.toInt else none, s) := by
  have haccumulate : accumulate 0 n.whole s =
      .ok (if Numeral.ofDigits n.whole < 2 ^ 63 then some (Numeral.ofDigits n.whole : Int) else none, s) := by
    rw [Numeral.ofDigits_eq_foldl]
    exact accumulate_eq 0 (isDigit_of_wholeText hw) (by decide) s
  have htoInt : n.toInt = if n.negative then -(Numeral.ofDigits n.whole : Int) else Numeral.ofDigits n.whole := rfl
  rw [nativeInteger, ht, bind_ok haccumulate]
  by_cases hlt : Numeral.ofDigits n.whole < 2 ^ 63
  · rw [if_pos hlt]
    dsimp only
    rw [← htoInt, bind_ok (fit_eq (contains_signed.2 (by split at htoInt <;> omega)) s)]
    rfl
  · have hc : ¬ Numeral.native.contains n.toInt = true := by
      intro hc
      have hbounds := contains_signed.1 hc
      split at htoInt <;> omega
    rw [if_neg hlt, if_neg hc]
    rfl

/-! ## Texts of numerals -/

theorem take_eq_of_drop_eq {w : Bytes} {i j : Nat} (h : doc.drop i = w ++ doc.drop j) (hij : i ≤ j)
    (hj : j ≤ doc.length) : (doc.drop i).take (j - i) = w := by
  have hlength := congrArg List.length h
  rw [List.length_append, List.length_drop, List.length_drop] at hlength
  rw [h, List.take_left' (by omega)]

theorem minusSign_unsignedText {p : Bytes} {n : Numeral} (h : UnsignedText p n) :
    minusSign (minusText n.negative ++ p) = (n.negative, p) := by
  simpa using h.minusSign_eq []

theorem double?_eq {p : Bytes} {n : Numeral} (h : UnsignedText p n) :
    double? (minusText n.negative ++ p) = some n.toDecimal.toDouble := by
  have hu := unsigned_append h .nil
  rw [List.append_nil] at hu
  simp only [double?, minusSign_unsignedText h, hu]

/-- A numeral without fraction and exponent is its digits. -/
theorem eq_whole_of_isPlain {p : Bytes} {n : Numeral} (h : UnsignedText p n) (hn : n.isPlain = true) :
    p = n.whole ∧ WholeText n.whole := by
  obtain ⟨negative, hw, hf, he⟩ := h
  cases hf with
  | some _ => simp [Numeral.isPlain] at hn
  | none =>
      cases he with
      | some _ _ _ => simp [Numeral.isPlain] at hn
      | none => exact ⟨by simp, hw⟩

variable {o : Options} {start : Nat}

/-- The number of a text is the value of its numeral, if the options admit it. -/
theorem Good.conversion_eq (h : Good doc s) {p : Bytes} {n : Numeral} (hstart : s.lineStart ≤ start)
    (hidx : start ≤ s.idx) (hp : UnsignedText p n)
    (hdrop : doc.drop start = minusText n.negative ++ (p ++ doc.drop s.idx)) :
    conversion doc o start n.isPlain s =
      if admits o n.value then .ok (n.value, s) else .error (.error (s.error .malformed start)) := by
  have htext : (doc.drop start).take (s.idx - start) = minusText n.negative ++ p :=
    take_eq_of_drop_eq (by rw [hdrop, List.append_assoc]) hidx h.idx_le
  have hnative : (if n.isPlain then nativeInteger (minusText n.negative ++ p) else pure none) s =
      .ok (if n.isPlain && Numeral.native.contains n.toInt then some n.toInt else none, s) := by
    cases hplain : n.isPlain with
    | false => rfl
    | true =>
        obtain ⟨rfl, hw⟩ := eq_whole_of_isPlain hp hplain
        exact nativeInteger_eq (minusSign_unsignedText hp) hw s
  rw [conversion, bind_ok (get_eq s), bind_ok (slice_eq hidx h.idx_le s), htext, bind_ok hnative, Numeral.value]
  by_cases hinteger : (n.isPlain && Numeral.native.contains n.toInt) = true
  · rw [if_pos hinteger, if_pos hinteger]
    rfl
  · rw [if_neg hinteger, if_neg hinteger]
    dsimp only
    rw [double?_eq hp, admits]
    dsimp only
    split
    · rfl
    · exact h.errorAt_eq hstart (Nat.le_trans hidx h.idx_le)

/-- Behind its sign, a numeral is read as the reader reads it. -/
theorem Good.reads_numeral (h : Good doc s) {negative : Bool} (hstart : s.lineStart ≤ start) (hidx : start ≤ s.idx)
    (hsign : minusSign (doc.drop start) = (negative, doc.drop s.idx)) :
    Reads doc s (do
      let (n, r) ← unsigned negative (doc.drop s.idx)
      if admits o n.value then return (n.value, r) else .error ⟨.malformed, doc.drop start⟩)
      (numeral doc o start s) := by
  rw [numeral, unsigned, bind_assoc]
  apply h.reads_whole.bind_map
  intro whole i hwhole hi hi'
  have h₁ := h.at hi hi'
  dsimp only
  rw [bind_assoc]
  apply h₁.reads_fraction.bind_map
  intro fraction j hfraction hj hj'
  have h₂ := h₁.at hj hj'
  dsimp only
  rw [bind_assoc]
  apply h₂.reads_exponent.bind_map
  intro exponent k hexponent hk hk'
  have h₃ := h₂.at hk hk'
  simp only [State.at_at, State.idx_at] at hfraction hexponent hj hk h₁ h₂ h₃ ⊢
  obtain ⟨ht, hdelimiter⟩ | ⟨ht, hdelimiter⟩ := h₃.delimiter_cases
  · simp only [State.idx_at] at ht
    have hunsigned : unsigned negative (doc.drop s.idx) = .ok (⟨negative, whole, fraction, exponent⟩, doc.drop k) := by
      simp [unsigned, hwhole, hfraction, hexponent, ht, bind, Except.bind, pure, Except.pure]
    obtain ⟨p, hp, htext, -, -⟩ := eq_of_unsigned hunsigned
    have hdrop := eq_minusText_append (doc.drop start)
    rw [hsign, hp] at hdrop
    have hconversion := h₃.conversion_eq (o := o) hstart (by simp only [State.idx_at]; omega) htext hdrop
    rw [bind_ok hdelimiter, ht]
    simp only [bind, Except.bind, pure, Except.pure]
    have hplain : (fraction.isNone && exponent.isNone) =
        Numeral.isPlain ⟨negative, whole, fraction, exponent⟩ := rfl
    rw [hplain, hconversion]
    split
    · exact .ok (Nat.le_refl _) h₃.idx_le
    · exact .error hstart (by omega)
  · simp only [State.idx_at] at ht
    rw [ht, bind_error hdelimiter]
    exact .error h₃.lineStart_le h₃.idx_le

/-! ## Numbers -/

theorem drop?_of_isPrefixOf {w r : Bytes} :
    Word.drop? w r = if w.isPrefixOf r then some (r.drop w.length) else none := by
  cases h : w.isPrefixOf r with
  | true =>
      obtain ⟨t, rfl⟩ := List.isPrefixOf_iff_prefix.1 h
      simp [drop?_eq_some_iff]
  | false =>
      cases hd : Word.drop? w r with
      | none => rfl
      | some t =>
          rw [drop?_eq_some_iff] at hd
          rw [List.isPrefixOf_iff_prefix.2 ⟨t, hd.symm⟩] at h
          cases h

theorem nonFinite?_eq (negative : Bool) (r : Bytes) :
    Document.nonFinite? negative r =
      (Checked.nonFinite? negative r).map fun (length, d) => (d, r.drop length) := by
  simp only [Document.nonFinite?, Checked.nonFinite?, drop?_of_isPrefixOf]
  cases negative <;> cases Word.nan.isPrefixOf r <;> cases Word.infinity.isPrefixOf r <;>
    cases Word.inf.isPrefixOf r <;> rfl

theorem length_of_nonFinite? {negative : Bool} {r : Bytes} {length : Nat} {d : Double}
    (h : Checked.nonFinite? negative r = some (length, d)) : length ≤ r.length := by
  have prefix_le {w : Bytes} (hw : w.isPrefixOf r = true) : w.length ≤ r.length :=
    (List.isPrefixOf_iff_prefix.1 hw).length_le
  rw [Checked.nonFinite?] at h
  split at h
  · rename_i hw
    cases h
    exact prefix_le (Bool.and_eq_true_iff.1 hw).2
  · split at h
    · rename_i hw
      cases h
      exact prefix_le hw
    · split at h
      · rename_i hw
        cases h
        exact prefix_le hw
      · cases h

theorem Good.sign_eq (h : Good doc s) (hi : s.idx < doc.length) : ∃ negative i, s.idx ≤ i ∧ i ≤ doc.length ∧
    minusSign (doc.drop s.idx) = (negative, doc.drop i) ∧ Checked.sign doc s = .ok (negative, s.at i) := by
  obtain ⟨heq, -, -⟩ | ⟨b, hi, hget, hdrop⟩ := ahead_cases h.idx_le
  · omega
  · rw [Checked.sign, bind_ok (get_eq s), bind_ok (byteAt_eq hget s), hdrop, minusSign]
    by_cases hb : b = minus
    · refine ⟨true, s.idx + 1, Nat.le_succ _, hi, if_pos hb, ?_⟩
      rw [if_pos hb, bind_ok (h.advance_eq hi)]
      rfl
    · refine ⟨false, s.idx, Nat.le_refl _, h.idx_le, ?_, ?_⟩
      · rw [if_neg hb, hdrop]
      · rw [if_neg hb]
        rfl

/-- Behind its sign, a word for a number is read as the reader reads it. -/
theorem Good.nonFinite_cases (h : Good doc s) (o : Options) (negative : Bool) :
    ((if o.contains .nonFinite then Document.nonFinite? negative (doc.drop s.idx) else none) = none ∧
      nonFinite doc o negative s = .ok (none, s)) ∨
    ∃ d i, (if o.contains .nonFinite then Document.nonFinite? negative (doc.drop s.idx) else none) =
        some (d, doc.drop i) ∧
      Reads doc s (((tokenEnd (doc.drop i)).map fun r => (Value.double d, r)).map (Prod.map some id))
        (nonFinite doc o negative s) := by
  rw [nonFinite, nonFinite?_eq]
  split
  · have hslice := slice_eq h.idx_le (Nat.le_refl doc.length) s
    rw [List.take_of_length_le (by simp)] at hslice
    rw [bind_ok (get_eq s), bind_ok hslice]
    cases hn : Checked.nonFinite? negative (doc.drop s.idx) with
    | none => exact .inl ⟨rfl, rfl⟩
    | some x =>
        obtain ⟨length, d⟩ := x
        have hlength := length_of_nonFinite? hn
        have hi := h.idx_le
        rw [List.length_drop] at hlength
        have hnext := h.at (i := s.idx + length) (Nat.le_add_right _ _) (by omega)
        refine .inr ⟨d, s.idx + length, by simp, ?_⟩
        dsimp only
        rw [bind_ok (h.advance_eq (by omega))]
        obtain ⟨ht, hd⟩ | ⟨ht, hd⟩ := hnext.delimiter_cases
        · rw [State.idx_at] at ht
          rw [ht, bind_ok hd]
          exact .ok (Nat.le_add_right _ _) hnext.idx_le
        · rw [State.idx_at] at ht
          rw [ht, bind_error hd]
          exact .error hnext.lineStart_le hnext.idx_le
  · exact .inl ⟨rfl, rfl⟩

theorem Good.reads_number (h : Good doc s) (o : Options) (hi : s.idx < doc.length) :
    Reads doc s (Document.number o (doc.drop s.idx)) (Checked.number doc o s) := by
  obtain ⟨negative, i, hlo, hhi, hsign, heq⟩ := h.sign_eq hi
  have hnext := h.at hlo hhi
  rw [Checked.number, bind_ok (get_eq s), bind_ok heq, Document.number_eq_value, hsign]
  refine Reads.mono ?_ hlo
  obtain ⟨hnone, hnonFinite⟩ | ⟨d, j, hsome, hreads⟩ := hnext.nonFinite_cases o negative
  · rw [State.idx_at] at hnone
    rw [hnone, bind_ok hnonFinite]
    exact hnext.reads_numeral h.lineStart_le hlo hsign
  · rw [State.idx_at] at hsome
    rw [hsome]
    dsimp only
    rw [← map_id_id (Except.map _ _)]
    exact hreads.map_map fun _ _ _ => rfl

end JsonTree.Checked
