import JsonTree.Proofs.Grammar.Literal
import JsonTree.Text.Quoted

/-!
# Quoted texts are literals

Each character of a text stands in its literal for itself, or as an escape that stands for it. So the literal stands
for the text, and lets it borrow if nothing had to be escaped.
-/

namespace JsonTree

open Byte Grammar Utf8

namespace Grammar

theorem ContentText.nil : ContentText [] [] := .run (List.forall_mem_nil PlainChar)

theorem ContentText.cons {c : Char} (hc : PlainChar c) {s ds : Bytes} (h : ContentText s ds) :
    ContentText (String.utf8EncodeChar c ++ s) (String.utf8EncodeChar c ++ ds) := by
  cases h with
  | run hcs => exact .run (List.forall_mem_cons.2 ⟨hc, hcs⟩)
  | escape hcs he hs =>
      have := ContentText.escape (List.forall_mem_cons.2 ⟨hc, hcs⟩) he hs
      rwa [ofChars_cons, List.append_assoc, List.append_assoc] at this

theorem ContentText.cons_escape {e bs s ds : Bytes} (he : EscapeText e bs) (h : ContentText s ds) :
    ContentText (e ++ s) (bs ++ ds) :=
  .escape (List.forall_mem_nil _) he h

end Grammar

namespace Quoted

theorem escapeText_control : ∀ n < 0x20, EscapeText
    (ofChars ['\\', 'u', '0', '0', hexDigit (n / 16), hexDigit (n % 16)]) (String.utf8EncodeChar (Char.ofNat n)) := by
  intro n hn
  have hd : ∀ n < 0x20, hexNumber? 0 (ofChars ['0', '0', hexDigit (n / 16), hexDigit (n % 16)]) = some n ∧
      (ofChars ['0', '0', hexDigit (n / 16), hexDigit (n % 16)]).length = 4 ∧
      Utf16.char? (.ofNat n) = some (Char.ofNat n) := by decide
  obtain ⟨hv, hl, hc⟩ := hd n hn
  exact .char ⟨n, ⟨hl, hv⟩, rfl⟩ hc

/-- A character is plain and stands for itself, or it is written as an escape. -/
theorem escape_cases (c : Char) :
    (escape c = [c] ∧ PlainChar c) ∨
      (escape c ≠ [c] ∧ EscapeText (ofChars (escape c)) (String.utf8EncodeChar c)) := by
  have simple {d : Char} {letter b : UInt8} (hd : String.utf8EncodeChar d = [letter])
      (hc : String.utf8EncodeChar c = [b]) (h : (letter, b) ∈ simpleEscapes) :
      EscapeText (ofChars ['\\', d]) (String.utf8EncodeChar c) := by
    rw [ofChars_cons, ofChars_cons, hd, hc]
    exact .simple h
  unfold escape
  iterate 7
    split
    next h =>
      subst h
      exact .inr ⟨by decide, simple rfl rfl (by decide)⟩
  split
  · rename_i h
    refine .inr ⟨by simp, ?_⟩
    have := escapeText_control c.toNat h
    rwa [Char.ofNat_toNat] at this
  · rename_i hq hs _ _ _ _ _ hc
    exact .inl ⟨rfl, Nat.not_lt.1 hc, hq, hs⟩

/-- Where a text read back from its literal may lie. -/
def storage (t : String) : Storage := if t.toList.any fun c => escape c != [c] then .owned else .borrowed

theorem contentText_escape (cs : List Char) : ContentText (ofChars (cs.flatMap escape)) (ofChars cs) := by
  induction cs with
  | nil => exact .nil
  | cons c cs ih =>
      rw [List.flatMap_cons, ofChars_append, ofChars_cons]
      rcases escape_cases c with ⟨he, hc⟩ | ⟨-, he⟩
      · rw [he, ofChars_cons, ofChars_nil, List.append_nil]
        exact ih.cons hc
      · exact ih.cons_escape he

theorem backslash_mem_iff (cs : List Char) :
    backslash ∈ ofChars (cs.flatMap escape) ↔ (cs.any fun c => escape c != [c]) = true := by
  induction cs with
  | nil => simp
  | cons c cs ih =>
      rw [List.flatMap_cons, ofChars_append, List.mem_append, ih, List.any_cons, Bool.or_eq_true]
      rcases escape_cases c with ⟨he, hc⟩ | ⟨hne, he⟩
      · have hb := backslash_not_mem_run (List.forall_mem_singleton.2 hc)
        rw [he]
        simp [hb, -ofChars_cons]
      · simp [backslash_mem_escape he, hne]

/-- What a text is written as stands for the text. -/
theorem literalText_literal (t : String) : LiteralText (ofChars (literal t)) ⟨t, storage t⟩ := by
  have h := LiteralText.mk (contentText_escape t.toList)
  simp only [backslash_mem_iff] at h
  rw [literal, ofChars_cons, ofChars_append]
  exact h

end Quoted

end JsonTree
