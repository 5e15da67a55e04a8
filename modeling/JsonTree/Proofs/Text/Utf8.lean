import JsonTree.Text.Utf8

/-!
# Decoding UTF-8

The longest well-formed start of some bytes is the encoding of the characters that `scan` finds in it, so bytes are
decoded exactly if they are the encoding of a text.
-/

namespace JsonTree.Utf8

/-- The bytes of some characters. -/
def ofChars (cs : List Char) : Bytes := cs.flatMap String.utf8EncodeChar

@[simp] theorem ofChars_nil : ofChars [] = [] := rfl

@[simp] theorem ofChars_cons (c : Char) (cs : List Char) :
    ofChars (c :: cs) = String.utf8EncodeChar c ++ ofChars cs := rfl

@[simp] theorem ofChars_append (cs ds : List Char) : ofChars (cs ++ ds) = ofChars cs ++ ofChars ds :=
  List.flatMap_append

theorem encode_eq_ofChars (t : String) : encode t = ofChars t.toList := rfl

/-! ## One character -/

theorem decodeChar?_encodeChar (c : Char) (r : Bytes) :
    decodeChar? (String.utf8EncodeChar c ++ r) = some (c, r) := by
  have hl := String.length_utf8EncodeChar c
  have ht : (String.utf8EncodeChar c ++ r).take 4 = String.utf8EncodeChar c ++ r.take (4 - c.utf8Size) := by
    rw [List.take_append, List.take_of_length_le (hl ▸ c.utf8Size_le_four), hl]
  have hd : (String.utf8EncodeChar c ++ r).drop c.utf8Size = r := by rw [← hl, List.drop_left]
  rw [decodeChar?, ht, List.toByteArray_append, ByteArray.utf8DecodeChar?_utf8EncodeChar_append]
  simp [hd]

theorem eq_of_decodeChar? {s r : Bytes} {c : Char} (h : decodeChar? s = some (c, r)) :
    s = String.utf8EncodeChar c ++ r := by
  obtain ⟨d, hd, h⟩ := Option.map_eq_some_iff.1 h
  simp only [Prod.mk.injEq] at h
  obtain ⟨rfl, rfl⟩ := h
  obtain ⟨l, hl⟩ := ByteArray.exists_of_utf8DecodeChar?_eq_some hd
  have ht : s.take 4 = String.utf8EncodeChar d ++ l.data.toList := by
    rw [← List.toByteArray_inj, hl, List.toByteArray_append]
    congr
    exact ByteArray.ext List.data_toByteArray.symm
  have hs := List.take_append_drop 4 s
  rw [ht, List.append_assoc] at hs
  conv => rhs; rw [← hs, ← String.length_utf8EncodeChar d, List.drop_left]
  exact hs.symm

/-! ## Many characters -/

theorem go_ofChars (acc cs : List Char) (r : Bytes) :
    scan.go acc (ofChars cs ++ r) = scan.go (cs.reverse ++ acc) r := by
  induction cs generalizing acc with
  | nil => rfl
  | cons c cs ih =>
      have hd := decodeChar?_encodeChar c (ofChars cs ++ r)
      rw [ofChars_cons, List.append_assoc, scan.go]
      split
      · rename_i c' r' h
        rw [hd] at h
        cases h
        simpa using ih (c :: acc)
      · rename_i h
        rw [hd] at h
        cases h

theorem scan_ofChars (cs : List Char) : scan (ofChars cs) = (cs, []) := by
  have h := go_ofChars [] cs []
  rw [List.append_nil] at h
  rw [scan, h, scan.go]
  simp [decodeChar?_nil]

theorem ofChars_inj {cs ds : List Char} : ofChars cs = ofChars ds ↔ cs = ds := by
  refine ⟨fun h => ?_, congrArg ofChars⟩
  have hs := scan_ofChars cs
  rw [h, scan_ofChars] at hs
  exact (Prod.mk.inj hs).1.symm

theorem eq_of_go {acc cs : List Char} {s r : Bytes} (h : scan.go acc s = (cs, r)) :
    ∃ ds, cs = acc.reverse ++ ds ∧ s = ofChars ds ++ r := by
  fun_induction scan.go acc s with
  | case1 acc s c r' hd _ ih =>
      obtain ⟨ds, rfl, rfl⟩ := ih h
      exact ⟨c :: ds, by simp, by simpa using eq_of_decodeChar? hd⟩
  | case2 acc s hd =>
      simp only [Prod.mk.injEq] at h
      exact ⟨[], by simp [h.1], by simp [h.2]⟩

theorem eq_of_scan {cs : List Char} {s r : Bytes} (h : scan s = (cs, r)) : s = ofChars cs ++ r := by
  obtain ⟨ds, rfl, hs⟩ := eq_of_go h
  exact hs

theorem validLength_ofChars (cs : List Char) : validLength (ofChars cs) = (ofChars cs).length := by
  simp [validLength, scan_ofChars]

theorem exists_of_validLength {s : Bytes} (h : validLength s = s.length) : ∃ cs, s = ofChars cs := by
  have hs : s = ofChars (scan s).1 ++ (scan s).2 := eq_of_scan rfl
  have hl := congrArg List.length hs
  simp only [validLength, List.length_append] at h hl
  have hr : (scan s).2 = [] := List.length_eq_zero_iff.1 (by omega)
  exact ⟨(scan s).1, by rw [hr, List.append_nil] at hs; exact hs⟩

theorem validLength_le (s : Bytes) : validLength s ≤ s.length := Nat.sub_le _ _

theorem decode_eq_ok_iff {s : Bytes} {t : String} : decode s = .ok t ↔ s = encode t := by
  constructor
  · intro h
    unfold decode at h
    split at h
    · rename_i cs hs
      simp only [Except.ok.injEq] at h
      subst h
      simpa [encode_eq_ofChars] using eq_of_scan hs
    · cases h
  · rintro rfl
    simp [decode, encode_eq_ofChars, scan_ofChars]

/-! ## ASCII -/

/-- The bytes of a character are a single ASCII byte, or none of them is ASCII. -/
theorem encodeChar_cases (c : Char) :
    (c.toNat < 0x80 ∧ String.utf8EncodeChar c = [.ofNat c.toNat]) ∨
    (0x80 ≤ c.toNat ∧ ∀ b ∈ String.utf8EncodeChar c, 0x80 ≤ b) := by
  have high (x y : UInt8) (hy : 0x80 ≤ y) : 0x80 ≤ x ||| y := by
    rw [UInt8.le_iff_toNat_le, UInt8.toNat_or]
    exact Nat.le_trans (UInt8.le_iff_toNat_le.1 hy) Nat.right_le_or
  by_cases h1 : c.utf8Size = 1
  · refine .inl ⟨?_, String.utf8EncodeChar_eq_singleton h1⟩
    have := UInt32.le_iff_toNat_le.1 (Char.utf8Size_eq_one_iff.1 h1)
    exact Nat.lt_succ_of_le this
  · refine .inr ⟨?_, ?_⟩
    · have := mt Char.utf8Size_eq_one_iff.2 h1
      rw [UInt32.not_le, UInt32.lt_iff_toNat_lt] at this
      exact this
    · have := c.utf8Size_pos
      have := c.utf8Size_le_four
      obtain h2 | h3 | h4 : c.utf8Size = 2 ∨ c.utf8Size = 3 ∨ c.utf8Size = 4 := by omega
      · rw [String.utf8EncodeChar_eq_cons_cons h2]
        simp [high]
      · rw [String.utf8EncodeChar_eq_cons_cons_cons h3]
        simp [high]
      · rw [String.utf8EncodeChar_eq_cons_cons_cons_cons h4]
        simp [high]

theorem ofChars_of_ascii {cs : List Char} (h : ∀ c ∈ cs, c.toNat < 0x80) :
    ofChars cs = cs.map fun c => .ofNat c.toNat := by
  induction cs with
  | nil => rfl
  | cons c cs ih =>
      obtain ⟨hc, hcs⟩ := List.forall_mem_cons.1 h
      rcases encodeChar_cases c with ⟨-, he⟩ | ⟨hc', -⟩
      · rw [ofChars, List.flatMap_cons, he, ← ofChars, ih hcs]
        rfl
      · omega

end JsonTree.Utf8
