import JsonTree.Proofs.Text.Utf8
import Mathlib.Tactic.SplitIfs

/-!
# The order of texts

Texts are compared character by character, and their bytes byte by byte. It comes to the same: where two texts part, so
do their bytes, in the first byte in which the two characters differ.
-/

namespace JsonTree.Utf8

theorem cons_lt_cons {m n : Nat} {r r' : Bytes} (hn : n < 0x100) (hmn : m ≤ n) (h : m = n → r < r') :
    UInt8.ofNat m :: r < UInt8.ofNat n :: r' := by
  rw [List.cons_lt_cons_iff]
  rcases Nat.lt_or_eq_of_le hmn with hlt | rfl
  · refine .inl ?_
    rw [UInt8.lt_iff_toNat_lt, UInt8.toNat_ofNat_of_lt' (Nat.lt_trans hlt hn), UInt8.toNat_ofNat_of_lt' hn]
    exact hlt
  · exact .inr ⟨rfl, h rfl⟩

/-- Bytes go by characters. -/
theorem encodeChar_append_lt {c d : Char} (h : c < d) (r r' : Bytes) :
    String.utf8EncodeChar c ++ r < String.utf8EncodeChar d ++ r' := by
  have hlt : c.val.toNat < d.val.toNat := h
  have hd : d.val.toNat < 0x110000 := by
    have := d.valid
    simp only [UInt32.isValidChar, Nat.isValidChar] at this
    omega
  simp only [String.utf8EncodeChar]
  generalize c.val.toNat = m at hlt
  generalize d.val.toNat = n at hlt hd
  -- The first byte that differs decides; without one the characters would be the same.
  split_ifs <;> simp only [List.cons_append, List.nil_append] <;>
    repeat first | omega | refine cons_lt_cons (by omega) (by omega) fun _ => ?_

theorem ofChars_lt_ofChars {cs ds : List Char} (h : cs < ds) : ofChars cs < ofChars ds := by
  induction cs generalizing ds with
  | nil =>
      cases ds with
      | nil => exact absurd h (List.lt_irrefl _)
      | cons d ds =>
          have hpos := String.length_utf8EncodeChar d ▸ d.utf8Size_pos
          obtain ⟨b, r, hb⟩ := List.exists_cons_of_length_pos hpos
          rw [ofChars_cons, hb]
          exact List.nil_lt_cons _ _
  | cons c cs ih =>
      cases ds with
      | nil => exact absurd h (List.not_lt_nil _)
      | cons d ds =>
          rw [ofChars_cons, ofChars_cons]
          rcases List.cons_lt_cons_iff.1 h with hlt | ⟨rfl, hlt⟩
          · exact encodeChar_append_lt hlt _ _
          · exact List.append_left_lt (ih hlt)

/-- Texts are in the order of their bytes. -/
theorem encode_lt_encode {s t : String} (h : s < t) : encode s < encode t :=
  ofChars_lt_ofChars (String.lt_iff.1 h)

end JsonTree.Utf8
