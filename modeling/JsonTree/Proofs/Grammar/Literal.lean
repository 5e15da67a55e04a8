import JsonTree.Proofs.Grammar.Escape
import JsonTree.Proofs.Text.Utf8

/-!
# The grammar of string literals

Between the quotes stand runs of characters, with escapes between them. What the runs and escapes stand for makes up
the UTF-8 bytes of the text. A text borrows the document if its literal has no escape.
-/

namespace JsonTree.Grammar

open Byte Document Utf8

/-- A character that stands for itself inside a literal. -/
def PlainChar (c : Char) : Prop := 0x20 ≤ c.toNat ∧ c ≠ '"' ∧ c ≠ '\\'

/-- The bytes between two quotes, and the bytes that they stand for. -/
inductive ContentText : Bytes → Bytes → Prop where
  | run {cs} (hcs : ∀ c ∈ cs, PlainChar c) : ContentText (ofChars cs) (ofChars cs)
  | escape {cs e bs s ds} (hcs : ∀ c ∈ cs, PlainChar c) (he : EscapeText e bs) (hs : ContentText s ds) :
      ContentText (ofChars cs ++ (e ++ s)) (ofChars cs ++ (bs ++ ds))

inductive LiteralText : Bytes → Text → Prop where
  | mk {s t} (hs : ContentText s (encode t))
      : LiteralText (quote :: (s ++ [quote])) ⟨t, if backslash ∈ s then .owned else .borrowed⟩

/-! ## Runs -/

theorem plainChar_iff (c : Char) : PlainChar c ↔ ∀ b ∈ String.utf8EncodeChar c, isPlain b = true := by
  rcases encodeChar_cases c with ⟨hc, he⟩ | ⟨hc, he⟩
  · have hn : (UInt8.ofNat c.toNat).toNat = c.toNat := by simp; omega
    rw [he, List.forall_mem_singleton]
    simp only [PlainChar, isPlain, Bool.and_eq_true, decide_eq_true_eq, bne_iff_ne, UInt8.le_iff_toNat_le, ne_eq,
      ← UInt8.toNat_inj, ← Char.toNat_inj, hn]
    exact and_assoc.symm
  · constructor
    · intro _ b hb
      have hb := UInt8.le_iff_toNat_le.1 (he b hb)
      have h80 : (0x80 : UInt8).toNat = 0x80 := rfl
      have h20 : (0x20 : UInt8).toNat = 0x20 := rfl
      have hq : quote.toNat = 0x22 := rfl
      have hs : backslash.toNat = 0x5C := rfl
      simp only [isPlain, Bool.and_eq_true, decide_eq_true_eq, bne_iff_ne, ne_eq, UInt8.le_iff_toNat_le,
        ← UInt8.toNat_inj]
      omega
    · intro _
      refine ⟨by omega, ?_, ?_⟩ <;> rintro rfl <;> simp at hc

theorem isPlain_of_mem_ofChars {cs : List Char} (h : ∀ c ∈ cs, PlainChar c) {b : UInt8} (hb : b ∈ ofChars cs) :
    isPlain b = true := by
  obtain ⟨c, hc, hb⟩ := List.mem_flatMap.1 hb
  exact (plainChar_iff c).1 (h c hc) b hb

theorem plainChar_of_ofChars {cs : List Char} (h : ∀ b ∈ ofChars cs, isPlain b = true) : ∀ c ∈ cs, PlainChar c := by
  intro c hc
  exact (plainChar_iff c).2 fun b hb => h b (List.mem_flatMap.2 ⟨c, hc, hb⟩)

theorem takeWhile_run {run : Bytes} (h : ∀ b ∈ run, isPlain b = true) {c : UInt8} (hc : isPlain c = false)
    (r : Bytes) : (run ++ c :: r).takeWhile isPlain = run := by
  rw [List.takeWhile_append_of_pos h, List.takeWhile_cons_of_neg (by simp [hc]), List.append_nil]

theorem dropWhile_run {run : Bytes} (h : ∀ b ∈ run, isPlain b = true) {c : UInt8} (hc : isPlain c = false)
    (r : Bytes) : (run ++ c :: r).dropWhile isPlain = c :: r := by
  rw [List.dropWhile_append_of_pos h, List.dropWhile_cons_of_neg (by simp [hc])]

theorem checkRun_run {cs : List Char} (h : ∀ c ∈ cs, PlainChar c) {c : UInt8} (hc : isPlain c = false) (r : Bytes) :
    Literal.checkRun (ofChars cs ++ c :: r) = .ok (ofChars cs) := by
  simp [Literal.checkRun, takeWhile_run (fun b hb => isPlain_of_mem_ofChars h hb) hc, validLength_ofChars]

theorem eq_of_checkRun {s run : Bytes} (h : Literal.checkRun s = .ok run) :
    ∃ cs, run = ofChars cs ∧ s = ofChars cs ++ s.dropWhile isPlain ∧ ∀ c ∈ cs, PlainChar c := by
  simp only [Literal.checkRun] at h
  split at h
  · rename_i hv
    cases h
    obtain ⟨cs, hcs⟩ := exists_of_validLength hv
    refine ⟨cs, hcs, ?_, plainChar_of_ofChars fun b hb => ?_⟩
    · rw [← hcs, List.takeWhile_append_dropWhile]
    · rw [← hcs] at hb
      exact List.all_eq_true.1 List.all_takeWhile b hb
  · cases h

/-! ## Builders -/

/-- A span that can grow grows over what is read next. -/
def Ahead : TextBuilder → Bytes → Prop
  | .borrowed _ ahead, s => ahead = s
  | .owned _, _ => True

theorem bytes_append (b : TextBuilder) (s : Bytes) : (b.append s).bytes = b.bytes ++ s := by
  cases b <;> simp [TextBuilder.append, TextBuilder.buffer, TextBuilder.bytes, ByteBuffer.copy, ByteBuffer.append]

theorem isBorrowed_append (b : TextBuilder) (s : Bytes) : (b.append s).isBorrowed = false := rfl

theorem ahead_append (b : TextBuilder) (s r : Bytes) : Ahead (b.append s) r := trivial

theorem bytes_appendRun {b : TextBuilder} {run r : Bytes} (h : Ahead b (run ++ r)) :
    (b.appendRun run).bytes = b.bytes ++ run := by
  cases b with
  | borrowed span ahead =>
      obtain rfl : ahead = run ++ r := h
      simp [TextBuilder.appendRun, TextBuilder.isBorrowed, TextBuilder.extend, TextBuilder.bytes]
  | owned buffer => exact bytes_append _ run

theorem isBorrowed_appendRun (b : TextBuilder) (run : Bytes) : (b.appendRun run).isBorrowed = b.isBorrowed := by
  cases b <;> rfl

theorem finish_eq_ok_iff {b : TextBuilder} {t : Text} :
    b.finish = .ok t ↔ b.bytes = encode t.content ∧ t.storage = if b.isBorrowed then .borrowed else .owned := by
  obtain ⟨u, l⟩ := t
  rw [TextBuilder.finish, ← decode_eq_ok_iff]
  cases decode b.bytes with
  | error n => simp [Except.map]
  | ok s =>
      simp only [Except.map, Except.ok.injEq, Text.mk.injEq]
      exact and_congr_right fun _ => eq_comm

/-! ## Reading literals -/

theorem backslash_mem_escape {e bs : Bytes} (h : EscapeText e bs) : backslash ∈ e := by
  cases h <;> simp

theorem backslash_not_mem_run {cs : List Char} (h : ∀ c ∈ cs, PlainChar c) : backslash ∉ ofChars cs := by
  intro hb
  exact absurd (isPlain_of_mem_ofChars h hb) (by decide)

/-- The storage of a text whose literal is read into a builder. -/
def storageOf (b : TextBuilder) (s : Bytes) : Storage := if b.isBorrowed ∧ backslash ∉ s then .borrowed else .owned

theorem content_run {b : TextBuilder} {cs : List Char} (h : ∀ c ∈ cs, PlainChar c) (r : Bytes) :
    Literal.content b (ofChars cs ++ quote :: r) =
      match (b.appendRun (ofChars cs)).finish with
      | .ok t => .ok (t, r)
      | .error _ => .error ⟨.invalidEscape, quote :: r⟩ := by
  have hd := dropWhile_run (fun b hb => isPlain_of_mem_ofChars h hb) (show isPlain quote = false from rfl) r
  rw [Literal.content]
  split
  · rename_i hs
    rw [hd] at hs
    cases hs
  · rename_i c r' hs
    rw [hd] at hs
    cases hs
    rw [if_pos rfl, checkRun_run h rfl]
    rfl

theorem content_backslash {b : TextBuilder} {cs : List Char} (h : ∀ c ∈ cs, PlainChar c) (s : Bytes) :
    Literal.content b (ofChars cs ++ backslash :: s) = (do
      let (bs, r) ← Literal.escape (backslash :: s) s
      Literal.content ((b.appendRun (ofChars cs)).append bs) r) := by
  have hd := dropWhile_run (fun b hb => isPlain_of_mem_ofChars h hb) (show isPlain backslash = false from rfl) s
  rw [Literal.content]
  split
  · rename_i hs
    rw [hd] at hs
    cases hs
  · rename_i c r' hs
    rw [hd] at hs
    cases hs
    rw [if_neg (by decide), if_pos rfl]
    split
    · rename_i f hf
      rw [checkRun_run h rfl] at hf
      cases hf
    · rename_i run hr
      rw [checkRun_run h rfl] at hr
      cases hr
      split <;> rename_i hf <;> simp [hf, bind, Except.bind]

theorem content_escape {b : TextBuilder} {cs : List Char} (h : ∀ c ∈ cs, PlainChar c) {e bs : Bytes}
    (he : EscapeText e bs) (r : Bytes) :
    Literal.content b (ofChars cs ++ (e ++ r)) = Literal.content ((b.appendRun (ofChars cs)).append bs) r := by
  obtain ⟨e, rfl⟩ : ∃ e', e = backslash :: e' := by cases he <;> exact ⟨_, rfl⟩
  rw [List.cons_append, content_backslash h, escape_append he]
  rfl

theorem content_append {s ds : Bytes} (h : ContentText s ds) {b : TextBuilder} {t : String} (r : Bytes)
    (ha : Ahead b (s ++ quote :: r)) (ht : b.bytes ++ ds = encode t) :
    Literal.content b (s ++ quote :: r) = .ok (⟨t, storageOf b s⟩, r) := by
  induction h generalizing b with
  | @run cs hcs =>
      rw [content_run hcs]
      have hf : (b.appendRun (ofChars cs)).finish = .ok ⟨t, storageOf b (ofChars cs)⟩ := by
        rw [finish_eq_ok_iff, bytes_appendRun ha, ht, isBorrowed_appendRun]
        simp [storageOf, backslash_not_mem_run hcs]
      rw [hf]
  | @escape cs e bs s ds hcs he hs ih =>
      -- From an escape on, the builder owns its bytes and does not look ahead.
      rw [List.append_assoc, List.append_assoc] at ha ⊢
      rw [content_escape hcs he, ih (ahead_append _ _ _)]
      · have := backslash_mem_escape he
        simp [storageOf, isBorrowed_append, this]
      · rw [bytes_append, bytes_appendRun ha, ← ht]
        simp

theorem eq_of_content {b : TextBuilder} {s r : Bytes} {t : Text} (h : Literal.content b s = .ok (t, r))
    (ha : Ahead b s) :
    ∃ p ds, s = p ++ quote :: r ∧ ContentText p ds ∧ b.bytes ++ ds = encode t.content ∧
      t.storage = storageOf b p := by
  fun_induction Literal.content b s with
  | case1 => cases h
  | case2 b s r' hs =>
      obtain ⟨run, hrun, h⟩ := bind_eq_ok.1 h
      obtain ⟨cs, rfl, hcs, hp⟩ := eq_of_checkRun hrun
      rw [hs] at hcs
      split at h
      · rename_i t' hf
        cases h
        rw [finish_eq_ok_iff, bytes_appendRun (hcs ▸ ha), isBorrowed_appendRun] at hf
        refine ⟨ofChars cs, ofChars cs, hcs, .run hp, hf.1, ?_⟩
        simp [hf.2, storageOf, backslash_not_mem_run hp]
      · cases h
  | case3 => cases h
  | case4 => cases h
  | case5 b s r' run hrun bs r'' hs hq hesc hlt ih =>
      obtain ⟨cs, rfl, hcs, hp⟩ := eq_of_checkRun hrun
      rw [hs] at hcs
      obtain ⟨e, rfl, he⟩ := eq_of_escape hesc
      obtain ⟨p, ds, rfl, hc, hb, ht⟩ := ih h (ahead_append _ _ _)
      refine ⟨ofChars cs ++ ((backslash :: e) ++ p), ofChars cs ++ (bs ++ ds), ?_, .escape hp he hc, ?_, ?_⟩
      · simpa using hcs
      · rw [← hb, bytes_append, bytes_appendRun (hcs ▸ ha)]
        simp
      · simp [ht, storageOf, isBorrowed_append]
  | case6 => cases h

theorem read_append {s : Bytes} {t : Text} (h : LiteralText (quote :: s) t) (r : Bytes) :
    Literal.read (s ++ r) = .ok (t, r) := by
  obtain ⟨hs⟩ := h
  have := content_append hs (b := .before _) r rfl rfl
  simpa [Literal.read, storageOf, TextBuilder.before, TextBuilder.isBorrowed] using this

theorem eq_of_read {s r : Bytes} {t : Text} (h : Literal.read s = .ok (t, r)) :
    ∃ p, s = p ++ r ∧ LiteralText (quote :: p) t := by
  obtain ⟨p, ds, rfl, hc, hb, ht⟩ := eq_of_content h rfl
  obtain rfl : ds = encode t.content := hb
  refine ⟨p ++ [quote], by simp, ?_⟩
  have := LiteralText.mk hc
  cases t
  simp_all [storageOf, TextBuilder.before, TextBuilder.isBorrowed]

end JsonTree.Grammar
