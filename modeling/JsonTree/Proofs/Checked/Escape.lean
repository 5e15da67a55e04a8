import JsonTree.Proofs.Checked.Steps
import JsonTree.Proofs.Grammar.Escape
import JsonTree.Proofs.Text.Utf16

/-!
# Escapes, step by step

The digits of an escape never leave sixteen bits, and what is taken from surrogates is never more than they are.
-/

namespace JsonTree.Checked

open Byte Document Grammar

variable {doc : Bytes} {s : State}

/-! ## Digits -/

theorem hexValue?_le {b : UInt8} {d : Nat} (h : hexValue? b = some d) : d ≤ 15 :=
  Nat.le_of_lt_succ (hexValue?_eq_some_iff.1 h).1

/-- The digits of an escape, as the machine and as the reader go through them. -/
inductive HexCase (count acc place : Nat) (r : Bytes) (s : State) : Prop where
  | number {n} (hcount : count ≤ r.length) (hn : n < 2 ^ 16) (hr : Literal.hex count acc r = .ok (n, r.drop count))
      (hm : hexNumber acc place (r.take count) s = .ok (.ok n, s))
  | noDigit {j} (hj : j < r.length) (hcount : j < count)
      (hr : Literal.hex count acc r = .error ⟨.invalidEscape, r.drop j⟩)
      (hm : hexNumber acc place (r.take count) s = .ok (.error (place + j), s))
  | tooFew {n} (hcount : r.length < count) (hr : Literal.hex count acc r = .error ⟨.invalidEscape, []⟩)
      (hm : hexNumber acc place (r.take count) s = .ok (.ok n, s))

theorem hex_cases {count acc : Nat} (hacc : (acc + 1) * 16 ^ count ≤ 2 ^ 16) (place : Nat) (r : Bytes) (s : State) :
    HexCase count acc place r s := by
  induction count generalizing acc place r with
  | zero => exact .number (Nat.zero_le _) (by omega) rfl rfl
  | succ count ih =>
      cases r with
      | nil => exact .tooFew (Nat.succ_pos _) rfl rfl
      | cons b r =>
          cases hb : hexValue? b with
          | none =>
              have hr : Literal.hex (count + 1) acc (b :: r) = .error ⟨.invalidEscape, b :: r⟩ := by
                 rw [Literal.hex, hb]
              have hm : hexNumber acc place ((b :: r).take (count + 1)) s = .ok (.error place, s) := by
                rw [List.take_succ_cons, hexNumber, hb]
                rfl
              exact .noDigit (Nat.succ_pos _) (Nat.succ_pos _) hr hm
          | some d =>
              have hd := hexValue?_le hb
              have hpow : 1 ≤ 16 ^ count := Nat.one_le_pow _ _ (by decide)
              have hnext : (16 * acc + d + 1) * 16 ^ count ≤ 2 ^ 16 := by
                refine Nat.le_trans (Nat.mul_le_mul_right _ (?_ : _ ≤ (acc + 1) * 16)) ?_
                · omega
                · rwa [Nat.mul_assoc, ← Nat.pow_succ']
              have hlt : 16 * acc + d < 2 ^ 16 := Nat.lt_of_lt_of_le (Nat.lt_succ_self _)
                (Nat.le_trans (Nat.le_mul_of_pos_right _ hpow) hnext)
              have hstep : hexNumber acc place ((b :: r).take (count + 1)) s =
                  hexNumber (16 * acc + d) (place + 1) (r.take count) s := by
                rw [List.take_succ_cons, hexNumber, hb]
                dsimp only
                rw [bind_ok (fitNat_eq (m := 16 * acc) (by omega) (contains_unsigned.2 (by omega)) s),
                  bind_ok (fitNat_eq (m := 16 * acc + d) (by omega) (contains_unsigned.2 (by omega)) s)]
              have hread : Literal.hex (count + 1) acc (b :: r) = Literal.hex count (16 * acc + d) r := by
                rw [Literal.hex, hb]
              cases ih hnext (place + 1) r with
              | number hcount hn hr hm =>
                  exact .number (Nat.succ_le_succ hcount) hn (hread.trans hr) (hstep.trans hm)
              | @noDigit j hj hcount hr hm =>
                  refine .noDigit (j := j + 1) (Nat.succ_lt_succ hj) (Nat.succ_lt_succ hcount) (hread.trans hr) ?_
                  rw [hstep, hm, Nat.add_assoc, Nat.add_comm 1]
              | tooFew hcount hr hm => exact .tooFew (Nat.succ_lt_succ hcount) (hread.trans hr) (hstep.trans hm)

theorem Good.reads_hex (h : Good doc s) {count : Nat} (hcount : count ≤ 4) :
    Reads doc s (Literal.hex count 0 (doc.drop s.idx)) (hex doc count s) ∧
    ∀ n r, Literal.hex count 0 (doc.drop s.idx) = .ok (n, r) → n < 2 ^ 16 := by
  have hlt := h.length_lt
  have hi := h.idx_le
  have hacc : (0 + 1) * 16 ^ count ≤ 2 ^ 16 := by
    rw [Nat.zero_add, Nat.one_mul]
    exact Nat.pow_le_pow_right (by decide) hcount
  have htake : (doc.drop s.idx).take (min (s.idx + count) doc.length - s.idx) = (doc.drop s.idx).take count := by
    rw [List.take_eq_take_iff, List.length_drop]
    omega
  have hslice := slice_eq (i := s.idx) (show _ ≤ min (s.idx + count) doc.length by omega) (Nat.min_le_right _ _) s
  rw [htake] at hslice
  rw [hex, bind_ok (get_eq s), bind_ok (fitNat_eq (m := s.idx + count) (by omega) (contains_unsigned.2 (by omega)) s),
    bind_ok hslice]
  have hfound := fitNat_eq (t := usize) (n := (min (s.idx + count) doc.length : Nat) - s.idx)
    (m := min (s.idx + count) doc.length - s.idx) (by omega) (contains_unsigned.2 (by omega)) s
  cases hex_cases hacc 0 (doc.drop s.idx) s with
  | @number n hle hn hr hm =>
      rw [List.length_drop] at hle
      have hstop : min (s.idx + count) doc.length = s.idx + count := by omega
      rw [bind_ok hm, hr]
      dsimp only
      rw [bind_ok hfound, hstop, if_neg (by omega), bind_ok (moveTo_eq (by omega) s), List.drop_drop]
      refine ⟨.ok (Nat.le_add_right _ _) (by omega), ?_⟩
      rintro m r ⟨⟩
      exact hn
  | @noDigit j hj hjcount hr hm =>
      rw [List.length_drop] at hj
      rw [bind_ok hm, hr]
      dsimp only
      rw [bind_ok (fitNat_eq (m := s.idx + j) (by omega) (contains_unsigned.2 (by omega)) s), List.drop_drop]
      exact ⟨h.reads_errorAt .invalidEscape (Nat.le_trans h.lineStart_le (Nat.le_add_right _ _)) (by omega), by simp⟩
  | tooFew hle hr hm =>
      rw [List.length_drop] at hle
      have hstop : min (s.idx + count) doc.length = doc.length := by omega
      rw [bind_ok hm, hr]
      dsimp only
      rw [bind_ok hfound, hstop, if_pos (by omega), ← List.drop_length (l := doc)]
      exact ⟨h.reads_errorAt .invalidEscape (Nat.le_trans h.lineStart_le h.idx_le) (Nat.le_refl _), by simp⟩

/-! ## Characters -/

theorem Good.reads_unit (h : Good doc s) :
    Reads doc s ((Literal.codeUnit (doc.drop s.idx)).map (Prod.map UInt16.toNat id)) (hex doc 4 s) := by
  obtain ⟨hreads, hlt⟩ := h.reads_hex (Nat.le_refl 4)
  rw [Literal.codeUnit]
  cases hx : Literal.hex 4 0 (doc.drop s.idx) with
  | error f => rwa [hx] at hreads
  | ok p =>
      obtain ⟨n, r⟩ := p
      have hn := hlt n r hx
      have hcast : (UInt16.ofNat n).toNat = n := Nat.mod_eq_of_lt hn
      rw [hx] at hreads
      simpa [Except.map, hcast] using hreads

theorem codePoint_eq {u u' : UInt16} (hu : Utf16.isLead u = true) (hu' : Utf16.isTrail u' = true) (s : State) :
    codePoint u.toNat u'.toNat s = .ok (0x10000 + (u.toNat - 0xD800) * 0x400 + (u'.toNat - 0xDC00), s) := by
  obtain ⟨hlo, hhi⟩ := Utf16.isLead_iff.1 hu
  obtain ⟨hlo', hhi'⟩ := Utf16.isTrail_iff.1 hu'
  have hor : (u.toNat - 0xD800) * 0x400 ||| (u'.toNat - 0xDC00) = (u.toNat - 0xD800) * 0x400 + (u'.toNat - 0xDC00) := by
    rw [Nat.mul_comm]
    exact (Nat.two_pow_add_eq_or_of_lt (i := 10) (by omega) _).symm
  rw [codePoint,
    bind_ok (fitNat_eq (m := u.toNat - 0xD800) (by omega) (contains_unsigned.2 (by omega)) s),
    bind_ok (fitNat_eq (m := (u.toNat - 0xD800) * 0x400) (by omega) (contains_unsigned.2 (by omega)) s),
    bind_ok (fitNat_eq (m := u'.toNat - 0xDC00) (by omega) (contains_unsigned.2 (by omega)) s), hor]
  exact fitNat_eq (by omega) (contains_unsigned.2 (by omega)) s

theorem char?_codePoint {u u' : UInt16} (hu : Utf16.isLead u = true) (hu' : Utf16.isTrail u' = true) :
    char? (0x10000 + (u.toNat - 0xD800) * 0x400 + (u'.toNat - 0xDC00)) = some (Utf16.pairChar u u') := by
  obtain ⟨hlo, hhi⟩ := Utf16.isLead_iff.1 hu
  obtain ⟨hlo', hhi'⟩ := Utf16.isTrail_iff.1 hu'
  rw [char?, if_pos (.inr ⟨by omega, by omega⟩), Utf16.pairChar]

theorem char?_toNat {u : UInt16} (hu : Utf16.isLead u = false) : char? u.toNat = Utf16.char? u := by
  have hlt := u.toNat_lt
  rw [char?, Utf16.char?, hu, Bool.false_or]
  cases ht : Utf16.isTrail u with
  | true =>
      obtain ⟨hlo, hhi⟩ := Utf16.isTrail_iff.1 ht
      rw [if_neg, if_pos rfl]
      rintro (h | h) <;> omega
  | false =>
      rw [if_pos, if_neg (by simp)]
      rcases Utf16.not_surrogate_iff.1 ⟨hu, ht⟩ with hsmall | hlarge
      · exact .inl hsmall
      · exact .inr ⟨hlarge, by omega⟩

variable {start : Nat}

/-- Without an escape behind it a lead surrogate is an error where its own escape starts. -/
theorem Good.pair_error (h : Good doc s) (hstart : s.lineStart ≤ start) (hidx : start ≤ s.idx)
    (hnone : ¬ (doc[s.idx]? = some backslash ∧ doc[s.idx + 1]? = some letterU)) (lead : Nat) :
    pair doc start lead s = .error (.error (s.error .invalidEscape start)) := by
  have hreport : (errorAt .invalidEscape start : Act Nat) s = .error (.error (s.error .invalidEscape start)) :=
    h.errorAt_eq hstart (Nat.le_trans hidx h.idx_le)
  rw [pair, bind_ok (get_eq s), bind_ok (peek_eq doc s)]
  by_cases hb : doc[s.idx]? = some backslash
  · rw [if_pos hb, bind_ok (h.peekAt_eq (by decide)), if_neg fun hc => hnone ⟨hb, hc⟩, hreport]
  · rw [if_neg hb, hreport]

/-- A lead surrogate has an escape behind it, and that escape is a trail surrogate. -/
theorem Good.reads_pair (h : Good doc s) (hstart : s.lineStart ≤ start) (hidx : start ≤ s.idx) {u : UInt16}
    (hu : Utf16.isLead u = true) :
    Reads doc s
      (match doc.drop s.idx with
      | b :: c :: r =>
          if b = backslash ∧ c = letterU then do
            let (u', r) ← Literal.codeUnit r
            if Utf16.isTrail u' then return (Utf16.pairChar u u', r) else .error ⟨.invalidEscape, doc.drop s.idx⟩
          else .error ⟨.invalidEscape, doc.drop start⟩
      | _ => .error ⟨.invalidEscape, doc.drop start⟩)
      ((pair doc start u.toNat >>= fun code =>
        match char? code with
        | some c => pure c
        | none => errorAt .invalidEscape start) s) := by
  by_cases hescape : doc[s.idx]? = some backslash ∧ doc[s.idx + 1]? = some letterU
  · obtain ⟨hb, hc⟩ := hescape
    obtain ⟨hi', -⟩ := List.getElem?_eq_some_iff.1 hc
    have hnext := h.at (i := s.idx + 2) (Nat.le_add_right _ _) hi'
    have hdrop : doc.drop s.idx = backslash :: letterU :: doc.drop (s.idx + 2) := by
      rw [drop_of_getElem? hb, drop_of_getElem? hc]
    rw [pair, bind_assoc, bind_ok (get_eq s), bind_assoc, bind_ok (peek_eq doc s), if_pos hb, bind_assoc,
      bind_ok (h.peekAt_eq (by decide)), if_pos hc, bind_assoc, bind_ok (h.advance_eq hi'), bind_assoc, hdrop]
    dsimp only
    rw [if_pos ⟨rfl, rfl⟩]
    refine Reads.mono ?_ (Nat.le_add_right s.idx 2)
    apply hnext.reads_unit.bind_map
    intro u' i _ hlo hhi
    have hlast := hnext.at hlo hhi
    rw [UInt16.ofNat_toNat]
    cases htrail : Utf16.isTrail u' with
    | true =>
        dsimp only
        rw [if_pos rfl, if_pos rfl, bind_ok (codePoint_eq hu htrail _), char?_codePoint hu htrail]
        exact .ok (Nat.le_refl _) hhi
    | false =>
        have hplace : s.lineStart ≤ s.idx := h.lineStart_le
        have hreport : (errorAt .invalidEscape s.idx : Act Nat) _ = _ := hlast.errorAt_eq hplace h.idx_le
        dsimp only
        rw [if_neg (by simp), if_neg (by simp), bind_error hreport, ← hdrop]
        exact .error hplace h.idx_le
  · rw [bind_error (h.pair_error hstart hidx hescape u.toNat)]
    have hread (r : Bytes) : doc.drop s.idx ≠ backslash :: letterU :: r := by
      intro hr
      refine hescape ⟨by rw [← List.head?_drop, hr]; rfl, ?_⟩
      rw [← List.head?_drop, ← List.tail_drop, hr]
      rfl
    split
    · rename_i b c r hr
      rw [if_neg fun hbc => hread r (by rw [hr, hbc.1, hbc.2])]
      exact .error hstart (Nat.le_trans hidx h.idx_le)
    · exact .error hstart (Nat.le_trans hidx h.idx_le)

theorem Good.reads_character (h : Good doc s) (hstart : s.lineStart ≤ start) (hidx : start ≤ s.idx) :
    Reads doc s (Literal.character (doc.drop start) (doc.drop s.idx)) (character doc start s) := by
  rw [character, Literal.character]
  apply h.reads_unit.bind_map
  intro u i hu hlo hhi
  have hnext := h.at hlo hhi
  dsimp only
  rw [UInt16.ofNat_toNat]
  cases hlead : Utf16.isLead u with
  | true =>
      rw [if_pos rfl, if_pos rfl]
      exact hnext.reads_pair hstart (Nat.le_trans hidx hlo) hlead
  | false =>
      rw [if_neg (by simp), if_neg (by simp), pure_bind, char?_toNat hlead]
      cases Utf16.char? u with
      | some c => exact .ok (Nat.le_refl _) hhi
      | none => exact hnext.reads_errorAt .invalidEscape hstart (by omega)

/-! ## Escapes -/

theorem Good.reads_escape (h : Good doc s) (hi : s.idx < doc.length) :
    Reads doc s (Literal.escape (doc.drop s.idx) (doc.drop (s.idx + 1))) (escape doc s) := by
  have hletter := h.at (Nat.le_succ _) hi
  have hstart : s.lineStart ≤ s.idx := h.lineStart_le
  rw [escape, bind_ok (get_eq s), bind_ok (h.advance_eq hi), bind_ok (peek_eq doc _)]
  refine Reads.mono ?_ (Nat.le_succ s.idx)
  obtain ⟨-, hget, hdrop⟩ | ⟨letter, hi', hget, hdrop⟩ := ahead_cases hi
  · rw [State.idx_at, hget, hdrop, Literal.escape, ← hdrop]
    exact hletter.reads_report .invalidEscape
  · have hnext := hletter.at (Nat.le_succ _) hi'
    rw [State.idx_at, hget, hdrop, Literal.escape]
    dsimp only
    split
    · rw [bind_ok (hletter.advance_eq hi')]
      refine Reads.mono ?_ (Nat.le_succ _)
      rw [map_first]
      exact (hnext.reads_character hstart (Nat.le_add_right s.idx 2)).map fun _ _ _ => rfl
    · split
      · rw [bind_ok (hletter.advance_eq hi')]
        refine Reads.mono ?_ (Nat.le_succ _)
        rw [map_first fun n => [UInt8.ofNat n]]
        exact (hnext.reads_hex (show 2 ≤ 4 by decide)).1.map fun _ _ _ => rfl
      · cases hsimple : Literal.simple? letter with
        | some b =>
            dsimp only
            rw [bind_ok (hletter.advance_eq hi')]
            exact .ok (Nat.le_succ _) hi'
        | none => exact hletter.reads_errorAt .invalidEscape hstart h.idx_le

end JsonTree.Checked
