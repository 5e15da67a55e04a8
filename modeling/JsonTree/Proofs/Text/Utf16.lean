import JsonTree.Text.Utf16

/-!
# Text as UTF-16

A character has one code unit, or two surrogates, and is what they stand for. Code units are those of a text, or there
is a first one among them that is out of place.
-/

namespace JsonTree.Utf16

/-! ## Surrogates -/

theorem isLead_iff {u : UInt16} : isLead u = true ↔ 0xD800 ≤ u.toNat ∧ u.toNat ≤ 0xDBFF := by
  simp [isLead, UInt16.le_iff_toNat_le]

theorem isTrail_iff {u : UInt16} : isTrail u = true ↔ 0xDC00 ≤ u.toNat ∧ u.toNat ≤ 0xDFFF := by
  simp [isTrail, UInt16.le_iff_toNat_le]

theorem char?_eq_some_iff {u : UInt16} {c : Char} :
    char? u = some c ↔ (isLead u = false ∧ isTrail u = false) ∧ c = Char.ofNat u.toNat := by
  rw [char?]
  cases isLead u <;> cases isTrail u <;> simp [eq_comm]

/-- A unit stands for a character if it is no surrogate. -/
theorem not_surrogate_iff {u : UInt16} :
    isLead u = false ∧ isTrail u = false ↔ u.toNat < 0xD800 ∨ 0xDFFF < u.toNat := by
  rw [← Bool.not_eq_true, ← Bool.not_eq_true, isLead_iff, isTrail_iff]
  omega

/-! ## The code units of a text -/

/-- The code units of a character: two surrogates if it lies above U+FFFF. -/
def encodeChar (c : Char) : List UInt16 :=
  if c.toNat < 0x10000 then [.ofNat c.toNat]
  else [.ofNat (0xD800 + (c.toNat - 0x10000) / 0x400), .ofNat (0xDC00 + (c.toNat - 0x10000) % 0x400)]

def encode (t : String) : List UInt16 := t.toList.flatMap encodeChar

theorem toNat_ofNat {n : Nat} (h : n < 0xD800 ∨ 0xDFFF < n ∧ n < 0x110000) : (Char.ofNat n).toNat = n := by
  have hn : n.isValidChar := h
  rw [Char.ofNat, dif_pos hn]
  rfl

theorem encodeChar_eq_singleton_iff {c : Char} {u : UInt16} : encodeChar c = [u] ↔ char? u = some c := by
  rw [char?_eq_some_iff, not_surrogate_iff]
  constructor
  · intro h
    have hc : c.toNat < 0xD800 ∨ 0xDFFF < c.toNat ∧ c.toNat < 0x110000 := c.valid
    rw [encodeChar] at h
    split at h
    · rename_i hlt
      cases h
      rw [UInt16.toNat_ofNat_of_lt' hlt, Char.ofNat_toNat]
      exact ⟨by omega, rfl⟩
    · cases h
  · rintro ⟨h, rfl⟩
    have hu := u.toNat_lt
    rw [encodeChar, toNat_ofNat (by omega), if_pos hu, UInt16.ofNat_toNat]

theorem encodeChar_eq_pair_iff {c : Char} {u u' : UInt16} :
    encodeChar c = [u, u'] ↔ isLead u = true ∧ isTrail u' = true ∧ pairChar u u' = c := by
  rw [isLead_iff, isTrail_iff]
  constructor
  · intro h
    have hc : c.toNat < 0xD800 ∨ 0xDFFF < c.toNat ∧ c.toNat < 0x110000 := c.valid
    rw [encodeChar] at h
    split at h
    · cases h
    · have hsize : UInt16.size = 0x10000 := rfl
      rw [List.cons.injEq, List.cons.injEq, and_iff_left rfl] at h
      rw [← h.1, ← h.2, pairChar, UInt16.toNat_ofNat_of_lt' (by omega), UInt16.toNat_ofNat_of_lt' (by omega)]
      have hn : 0x10000 + (0xD800 + (c.toNat - 0x10000) / 0x400 - 0xD800) * 0x400 +
          (0xDC00 + (c.toNat - 0x10000) % 0x400 - 0xDC00) = c.toNat := by omega
      rw [hn, Char.ofNat_toNat]
      exact ⟨by omega, by omega, rfl⟩
  · intro ⟨h, h', hc⟩
    have hlead : 0xD800 + ((u.toNat - 0xD800) * 0x400 + (u'.toNat - 0xDC00)) / 0x400 = u.toNat := by omega
    have htrail : 0xDC00 + ((u.toNat - 0xD800) * 0x400 + (u'.toNat - 0xDC00)) % 0x400 = u'.toNat := by omega
    rw [← hc, encodeChar, pairChar, Nat.add_assoc, toNat_ofNat (by omega), if_neg (by omega), Nat.add_sub_cancel_left,
      hlead, htrail, UInt16.ofNat_toNat, UInt16.ofNat_toNat]

theorem encodeChar_cases (c : Char) :
    (∃ u, encodeChar c = [u] ∧ char? u = some c) ∨
      ∃ u u', encodeChar c = [u, u'] ∧ isLead u = true ∧ isTrail u' = true ∧ pairChar u u' = c := by
  by_cases h : c.toNat < 0x10000
  · have hu : encodeChar c = [.ofNat c.toNat] := if_pos h
    exact .inl ⟨_, hu, encodeChar_eq_singleton_iff.1 hu⟩
  · exact .inr ⟨_, _, if_neg h, encodeChar_eq_pair_iff.1 (if_neg h)⟩

/-! ## Units out of place -/

/-- Behind the units of a text stands a unit that is out of place: a trail surrogate, a lead surrogate with nothing
behind it, or whatever stands behind a lead surrogate and is no trail surrogate. Its place is counted from 0. -/
inductive IllFormedAt : List UInt16 → Nat → Prop where
  | trail {t u us} (hu : isTrail u = true) : IllFormedAt (encode t ++ u :: us) (encode t).length
  | last {t u} (hu : isLead u = true) : IllFormedAt (encode t ++ [u]) (encode t).length
  | behind {t u u' us} (hu : isLead u = true) (hu' : isTrail u' = false) :
      IllFormedAt (encode t ++ u :: u' :: us) ((encode t).length + 1)

theorem encode_cons (c : Char) (t : String) : encodeChar c ++ encode t = encode (String.ofList (c :: t.toList)) := by
  rw [encode, encode, String.toList_ofList, List.flatMap_cons]

/-- A character in front moves the unit that is out of place. -/
theorem IllFormedAt.cons {us : List UInt16} {n : Nat} (c : Char) (h : IllFormedAt us n) :
    IllFormedAt (encodeChar c ++ us) ((encodeChar c).length + n) := by
  cases h with
  | trail hu =>
      rw [← List.append_assoc, ← List.length_append, encode_cons]
      exact .trail hu
  | last hu =>
      rw [← List.append_assoc, ← List.length_append, encode_cons]
      exact .last hu
  | behind hu hu' =>
      rw [← List.append_assoc, ← Nat.add_assoc, ← List.length_append, encode_cons]
      exact .behind hu hu'

theorem exists_append_char {c : Char} {cu us : List UInt16} (hc : encodeChar c = cu)
    (h : (∃ t, us = encode t) ∨ ∃ n, IllFormedAt us n) :
    (∃ t, cu ++ us = encode t) ∨ ∃ n, IllFormedAt (cu ++ us) n := by
  subst hc
  rcases h with ⟨t, rfl⟩ | ⟨n, h⟩
  · exact .inl ⟨_, encode_cons c t⟩
  · exact .inr ⟨_, h.cons c⟩

/-- Units are those of a text, or one of them is out of place. -/
theorem exists_encode_or_illFormedAt : (us : List UInt16) → (∃ t, us = encode t) ∨ ∃ n, IllFormedAt us n
  | [] => .inl ⟨"", rfl⟩
  | u :: us => by
      cases ht : isTrail u with
      | true => exact .inr ⟨0, .trail (t := "") ht⟩
      | false =>
          cases hl : isLead u with
          | false =>
              have hc := encodeChar_eq_singleton_iff.2 (char?_eq_some_iff.2 ⟨⟨hl, ht⟩, rfl⟩)
              exact exists_append_char hc (exists_encode_or_illFormedAt us)
          | true =>
              match us with
              | [] => exact .inr ⟨0, .last (t := "") hl⟩
              | u' :: us =>
                  cases ht' : isTrail u' with
                  | false => exact .inr ⟨1, .behind (t := "") hl ht'⟩
                  | true =>
                      have hc := encodeChar_eq_pair_iff.2 ⟨hl, ht', rfl⟩
                      exact exists_append_char hc (exists_encode_or_illFormedAt us)

end JsonTree.Utf16
