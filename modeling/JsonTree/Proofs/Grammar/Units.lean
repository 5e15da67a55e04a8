import JsonTree.Proofs.Grammar.Document
import JsonTree.Proofs.Position.Tracking
import JsonTree.Proofs.Text.Quoted
import JsonTree.Proofs.Text.Utf16

/-!
# Literals of code units

A literal may spell a text by its UTF-16 code units, each of them as an escape. If the units are those of no text, the
literal is rejected at the first unit that is out of place.
-/

namespace JsonTree.Grammar

open Byte Document Utf8

/-! ## Spelling -/

/-- The four digits of a code unit. -/
inductive UnitDigits : Bytes → UInt16 → Prop where
  | mk {a b c d u} (ha : HexDigit a (u.toNat / 0x1000)) (hb : HexDigit b (u.toNat / 0x100 % 0x10))
      (hc : HexDigit c (u.toNat / 0x10 % 0x10)) (hd : HexDigit d (u.toNat % 0x10)) : UnitDigits [a, b, c, d] u

/-- Code units, each as an escape `\u`. -/
inductive UnitsText : Bytes → List UInt16 → Prop where
  | nil : UnitsText [] []
  | cons {h u s us} (hu : UnitDigits h u) (hs : UnitsText s us) :
      UnitsText (backslash :: letterU :: (h ++ s)) (u :: us)

theorem UnitDigits.unitText {h : Bytes} {u : UInt16} (hu : UnitDigits h u) : UnitText h u := by
  have hlt := u.toNat_lt
  obtain ⟨ha, hb, hc, hd⟩ := hu
  refine ⟨u.toNat, ⟨rfl, ?_⟩, UInt16.ofNat_toNat.symm⟩
  have hn : 16 * (16 * (16 * (16 * 0 + u.toNat / 0x1000) + u.toNat / 0x100 % 0x10) + u.toNat / 0x10 % 0x10) +
      u.toNat % 0x10 = u.toNat := by omega
  rw [hexNumber?_cons, hexValue?_eq_some_iff.2 ⟨by omega, ha⟩, Option.bind_some,
    hexNumber?_cons, hexValue?_eq_some_iff.2 ⟨by omega, hb⟩, Option.bind_some,
    hexNumber?_cons, hexValue?_eq_some_iff.2 ⟨by omega, hc⟩, Option.bind_some,
    hexNumber?_cons, hexValue?_eq_some_iff.2 ⟨by omega, hd⟩, Option.bind_some, hn]
  rfl

theorem UnitText.length_eq {h : Bytes} {u : UInt16} (hu : UnitText h u) : h.length = 4 := by
  obtain ⟨_, hv, -⟩ := hu
  exact hv.length_eq

theorem UnitText.lineFeed_not_mem {h : Bytes} {u : UInt16} (hu : UnitText h u) : lineFeed ∉ h := by
  intro hm
  obtain ⟨_, hv, -⟩ := hu
  obtain ⟨d, hd⟩ := exists_hexValue?_of_mem hv.number_eq _ hm
  cases hd

namespace UnitsText

variable {s : Bytes} {us : List UInt16}

theorem length_eq (h : UnitsText s us) : s.length = 6 * us.length := by
  induction h with
  | nil => rfl
  | cons hu _ ih =>
      have := hu.unitText.length_eq
      simp only [List.length_cons, List.length_append]
      omega

theorem lineFeed_not_mem (h : UnitsText s us) : lineFeed ∉ s := by
  induction h with
  | nil => exact List.not_mem_nil
  | cons hu _ ih =>
      have hne : lineFeed ≠ backslash ∧ lineFeed ≠ letterU := by decide
      simp [hu.unitText.lineFeed_not_mem, ih, hne]

theorem backslash_mem_iff (h : UnitsText s us) : backslash ∈ s ↔ us ≠ [] := by
  cases h <;> simp

theorem exists_cons {u : UInt16} (hs : UnitsText s (u :: us)) :
    ∃ h q, s = backslash :: letterU :: (h ++ q) ∧ UnitText h u ∧ UnitsText q us := by
  cases hs with
  | cons hu hs => exact ⟨_, _, rfl, hu.unitText, hs⟩

theorem exists_append {us us' : List UInt16} (h : UnitsText s (us ++ us')) :
    ∃ p q, s = p ++ q ∧ UnitsText p us ∧ UnitsText q us' := by
  induction us generalizing s with
  | nil => exact ⟨[], s, rfl, .nil, h⟩
  | cons u us ih =>
      cases h with
      | cons hu hs =>
          obtain ⟨p, q, rfl, hp, hq⟩ := ih hs
          exact ⟨_, q, by rw [← List.append_assoc]; rfl, .cons hu hp, hq⟩

/-- The units of characters are escapes of the characters, two of them for a pair of surrogates. -/
theorem contentText {cs : List Char} (h : UnitsText s (cs.flatMap Utf16.encodeChar)) : ContentText s (ofChars cs) := by
  induction cs generalizing s with
  | nil =>
      cases h
      exact .nil
  | cons c cs ih =>
      rw [List.flatMap_cons] at h
      rcases Utf16.encodeChar_cases c with ⟨u, hc, hu⟩ | ⟨u, u', hc, hl, ht, rfl⟩
      · rw [hc] at h
        obtain ⟨h, q, rfl, hh, hq⟩ := h.exists_cons
        exact (ih hq).cons_escape (.char hh hu)
      · rw [hc] at h
        obtain ⟨h, q, rfl, hh, hq⟩ := h.exists_cons
        obtain ⟨h', q, rfl, hh', hq⟩ := hq.exists_cons
        have := (ih hq).cons_escape (.pair hh hh' hl ht)
        rwa [List.cons_append, List.cons_append, List.append_assoc] at this

end UnitsText

/-! ## Escapes that are rejected -/

variable {h h' : Bytes} {u u' : UInt16}

theorem escape_trail (hu : UnitText h u) (ht : Utf16.isTrail u = true) (start r : Bytes) :
    Literal.escape start (letterU :: (h ++ r)) = .error ⟨.invalidEscape, start⟩ := by
  have hl : Utf16.isLead u = false := by
    rw [Utf16.isTrail_iff] at ht
    rw [← Bool.not_eq_true, Utf16.isLead_iff]
    omega
  simp [Literal.escape, Literal.character, codeUnit_append hu, hl, Utf16.char?, ht, bind, Except.bind, Except.map]

theorem escape_last (hu : UnitText h u) (hl : Utf16.isLead u = true) (start r : Bytes) :
    Literal.escape start (letterU :: (h ++ quote :: r)) = .error ⟨.invalidEscape, start⟩ := by
  have hq : quote ≠ backslash := by decide
  cases r <;> simp [Literal.escape, Literal.character, codeUnit_append hu, hl, hq, bind, Except.bind, Except.map]

theorem escape_behind (hu : UnitText h u) (hl : Utf16.isLead u = true) (hu' : UnitText h' u')
    (ht : Utf16.isTrail u' = false) (start r : Bytes) :
    Literal.escape start (letterU :: (h ++ backslash :: letterU :: (h' ++ r))) =
      .error ⟨.invalidEscape, backslash :: letterU :: (h' ++ r)⟩ := by
  simp [Literal.escape, Literal.character, codeUnit_append hu, hl, codeUnit_append hu', ht, bind, Except.bind,
    Except.map]

/-- An escape that is rejected is rejected behind any contents. -/
theorem content_append_escape {s ds t : Bytes} (hs : ContentText s ds) (b : TextBuilder) {f : Fault}
    (hf : Literal.escape (backslash :: t) t = .error f) : Literal.content b (s ++ backslash :: t) = .error f := by
  induction hs generalizing b with
  | run hcs =>
      rw [content_backslash hcs, hf]
      rfl
  | escape hcs he _ ih => rw [List.append_assoc, List.append_assoc, content_escape hcs he, ih]

/-- A literal of code units is rejected at the unit that is out of place. -/
theorem UnitsText.content_illFormed {s : Bytes} {us : List UInt16} {n : Nat} (hs : UnitsText s us)
    (hn : Utf16.IllFormedAt us n) (b : TextBuilder) (r : Bytes) :
    ∃ p q, s = p ++ q ∧ p.length = 6 * n ∧
      Literal.content b (s ++ quote :: r) = .error ⟨.invalidEscape, q ++ quote :: r⟩ := by
  cases hn with
  | trail ht =>
      obtain ⟨p, q, rfl, hp, hq⟩ := hs.exists_append
      obtain ⟨h, q, rfl, hu, -⟩ := hq.exists_cons
      refine ⟨p, _, rfl, hp.length_eq, ?_⟩
      rw [List.append_assoc, List.cons_append, List.cons_append, List.append_assoc]
      exact content_append_escape hp.contentText b (escape_trail hu ht _ _)
  | last hl =>
      obtain ⟨p, q, rfl, hp, hq⟩ := hs.exists_append
      obtain ⟨h, q, rfl, hu, hq⟩ := hq.exists_cons
      cases hq
      refine ⟨p, _, rfl, hp.length_eq, ?_⟩
      rw [List.append_assoc, List.cons_append, List.cons_append, List.append_nil]
      exact content_append_escape hp.contentText b (escape_last hu hl _ _)
  | behind hl ht =>
      obtain ⟨p, q, rfl, hp, hq⟩ := hs.exists_append
      obtain ⟨h, q, rfl, hu, hq⟩ := hq.exists_cons
      obtain ⟨h', q, rfl, hu', -⟩ := hq.exists_cons
      -- The second unit is out of place, and the escape in front of it is well formed.
      refine ⟨p ++ backslash :: letterU :: h, backslash :: letterU :: (h' ++ q), by simp, ?_, ?_⟩
      · have := hp.length_eq
        have := hu.length_eq
        simp only [List.length_append, List.length_cons]
        omega
      · have := content_append_escape hp.contentText b (escape_behind hu hl hu' ht _ (q ++ quote :: r))
        simpa using this

/-! ## Documents -/

theorem value_quote (o : Options) (room : Nat) (s : Bytes) :
    (Document.value o room).read (quote :: s) = Document.string o s := by
  have hl : layout (quote :: s) = .ok (quote :: s) := layout_of_stops (.cons rfl (by decide))
  have hq : quote ≠ openBracket ∧ quote ≠ openBrace := by decide
  cases room <;> simp [Document.value, valueBy, readValueBy, hl, hq, bind, Except.bind]

theorem LiteralText.valueText {o : Options} {s : Bytes} {t : Text} (h : LiteralText s t) :
    (room : Nat) → ValueText o room s (.string (stored o t))
  | 0 => NodeTextBy.string h
  | _ + 1 => NodeTextBy.string h

/-- A document that starts with a literal is rejected where the literal is. -/
theorem parse_quote_of_error {o : Options} {s : Bytes} {f : Fault} (h : Literal.read s = .error f) :
    Value.parse o (quote :: s) = .error (f.toError (quote :: s)) := by
  have hs : Document.string o s = .error f := by rw [Document.string, h]; rfl
  rw [Value.parse, Document.read_eq, value_quote, hs]
  rfl

namespace UnitsText

variable {o : Options} {s : Bytes} {us : List UInt16}

theorem parse_encode {t : String} (hs : UnitsText s us) (ht : us = Utf16.encode t) :
    Value.parse o (quote :: (s ++ [quote])) =
      .ok (.string (stored o ⟨t, if us = [] then .borrowed else .owned⟩)) := by
  subst ht
  have hc : ContentText s (encode t) := hs.contentText
  have hv := (LiteralText.mk hc).valueText o.depthLimit.toNat (o := o)
  simp only [hs.backslash_mem_iff, ne_eq, ite_not] at hv
  exact hv.parse

theorem parse_illFormed {n : Nat} (hs : UnitsText s us) (hn : Utf16.IllFormedAt us n) :
    Value.parse o (quote :: (s ++ [quote])) = .error ⟨.invalidEscape, ⟨1, 6 * n + 2⟩⟩ := by
  obtain ⟨p, q, rfl, hlength, hcontent⟩ := hs.content_illFormed hn (.before (s ++ [quote])) []
  have hlf : lineFeed ∉ quote :: p := by
    have hq : lineFeed ≠ quote := by decide
    have := hs.lineFeed_not_mem
    simp_all
  rw [parse_quote_of_error hcontent, Position.toError_eq (p := quote :: p) (by simp), Position.behind_eq,
    List.count_eq_zero.2 hlf, Position.tail_of_not_mem hlf, List.length_cons, hlength]

end UnitsText

/-- Code units spelled as escapes, with digits in upper or lower case, are read as the text whose UTF-16 they are. If
they are not UTF-16, the document is rejected at the unit that is out of place, also by a scanner that counts in 32
bits, if the document is not too long for it. -/
theorem parse_units {o : Options} {s : Bytes} {us : List UInt16} (hs : UnitsText s us) :
    (∀ v, Value.parse o (quote :: (s ++ [quote])) = .ok v ↔
      ∃ t, us = Utf16.encode t ∧ v = .string (stored o ⟨t, if us = [] then .borrowed else .owned⟩)) ∧
    (∀ n, Utf16.IllFormedAt us n →
      Value.parse o (quote :: (s ++ [quote])) = .error ⟨.invalidEscape, ⟨1, 6 * n + 2⟩⟩) ∧
    ((∃ t, us = Utf16.encode t) ∨ ∃ n, Utf16.IllFormedAt us n) ∧
    (s.length + 2 < UInt32.size - 1 →
      Scanner.parse o (quote :: (s ++ [quote])) = Value.parse o (quote :: (s ++ [quote]))) := by
  refine ⟨fun v => ⟨fun hv => ?_, ?_⟩, fun n hn => hs.parse_illFormed hn, Utf16.exists_encode_or_illFormedAt us,
    fun hlen => Scanner.parse_eq (by simpa using hlen) o⟩
  · rcases Utf16.exists_encode_or_illFormedAt us with ⟨t, ht⟩ | ⟨n, hn⟩
    · rw [hs.parse_encode ht] at hv
      cases hv
      exact ⟨t, ht, rfl⟩
    · rw [hs.parse_illFormed hn] at hv
      cases hv
  · rintro ⟨t, ht, rfl⟩
    exact hs.parse_encode ht

/-- A letter and two surrogates, and then the letter behind a lead surrogate. -/
theorem parse_units_surrogates :
    Value.parse {} (Word.spell ['"', '\\', 'u', '0', '0', '4', 'a', '\\', 'u', 'D', '8', '3', '4', '\\', 'u', 'd', 'D',
      '1', 'e', '"']) = .ok (.string ⟨"J𝄞", .owned⟩) ∧
    Value.parse {} (Word.spell ['"', '\\', 'u', 'D', '8', '3', '4', '\\', 'u', '0', '0', '4', 'a', '"']) =
      .error ⟨.invalidEscape, ⟨1, 8⟩⟩ := by
  have hletter : UnitDigits (Word.spell ['0', '0', '4', 'a']) 0x4A := ⟨.inl rfl, .inl rfl, .inl rfl, .inl rfl⟩
  have hlead : UnitDigits (Word.spell ['D', '8', '3', '4']) 0xD834 := ⟨.inr rfl, .inl rfl, .inl rfl, .inl rfl⟩
  have htrail : UnitDigits (Word.spell ['d', 'D', '1', 'e']) 0xDD1E := ⟨.inl rfl, .inr rfl, .inl rfl, .inl rfl⟩
  obtain ⟨hread, -⟩ := parse_units (o := {}) (.cons hletter (.cons hlead (.cons htrail .nil)))
  obtain ⟨-, herror, -⟩ := parse_units (o := {}) (.cons hlead (.cons hletter .nil))
  exact ⟨(hread _).2 ⟨"J𝄞", by decide, rfl⟩, herror 1 (.behind (t := "") (by decide) (by decide))⟩

end JsonTree.Grammar
