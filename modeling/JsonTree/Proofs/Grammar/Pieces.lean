import Mathlib.Data.List.Chain
import JsonTree.Document.Value
import JsonTree.Proofs.Text.Quoted

/-!
# The pieces of a literal

What stands between the quotes of a literal falls into runs, each of them UTF-8 by itself and as long as it can be, and
escapes. Together they have to stand for UTF-8. Only escapes of bytes that are not ASCII can keep them from that.
-/

namespace JsonTree.Grammar

open Byte Document Utf8

/-- A run or an escape, and the bytes that it stands for. -/
inductive PieceText : Bytes → Bytes → Prop where
  | run {s t} (hne : s ≠ []) (hs : ∀ b ∈ s, isPlain b = true) (ht : s = encode t) : PieceText s s
  | escape {e bs} (he : EscapeText e bs) : PieceText e bs

/-- Pieces that make up a text, and what each of them stands for. No run stands next to a run: they are as long as they
can be. -/
structure Pieces (ps : List (Bytes × Bytes)) (s ds : Bytes) : Prop where
  pieces : ∀ p ∈ ps, PieceText p.1 p.2
  maximal : ps.IsChain fun p q => backslash ∈ p.1 ∨ backslash ∈ q.1
  text_eq : s = ps.flatMap Prod.fst
  bytes_eq : ds = ps.flatMap Prod.snd

variable {s ds : Bytes} {ps : List (Bytes × Bytes)}

/-! ## Pieces and contents -/

namespace Pieces

theorem nil : Pieces [] [] [] := ⟨List.forall_mem_nil _, .nil, rfl, rfl⟩

theorem cons {p d : Bytes} (hp : PieceText p d) (hne : ∀ q ∈ ps.head?, backslash ∈ p ∨ backslash ∈ q.1)
    (h : Pieces ps s ds) : Pieces ((p, d) :: ps) (p ++ s) (d ++ ds) where
  pieces := List.forall_mem_cons.2 ⟨hp, h.pieces⟩
  maximal := List.isChain_cons.2 ⟨hne, h.maximal⟩
  text_eq := by rw [h.text_eq, List.flatMap_cons]
  bytes_eq := by rw [h.bytes_eq, List.flatMap_cons]

theorem cons_escape {e bs : Bytes} (he : EscapeText e bs) (h : Pieces ps s ds) :
    Pieces ((e, bs) :: ps) (e ++ s) (bs ++ ds) :=
  h.cons (.escape he) fun _ _ => .inl (backslash_mem_escape he)

/-- A run in front of an escape is one more piece if there is anything in it. -/
theorem exists_append_run {cs : List Char} (hcs : ∀ c ∈ cs, PlainChar c) (h : Pieces ps s ds)
    (hne : ∀ q ∈ ps.head?, backslash ∈ q.1) : ∃ ps', Pieces ps' (ofChars cs ++ s) (ofChars cs ++ ds) := by
  by_cases hnil : ofChars cs = []
  · rw [hnil]
    exact ⟨ps, h⟩
  · have ht : ofChars cs = encode (String.ofList cs) := by rw [encode_eq_ofChars, String.toList_ofList]
    exact ⟨_, h.cons (.run hnil (fun _ => isPlain_of_mem_ofChars hcs) ht) fun q hq => .inr (hne q hq)⟩

end Pieces

theorem ContentText.append_run {cs : List Char} (hcs : ∀ c ∈ cs, PlainChar c) (h : ContentText s ds) :
    ContentText (ofChars cs ++ s) (ofChars cs ++ ds) := by
  induction cs with
  | nil => exact h
  | cons c cs ih =>
      obtain ⟨hc, hcs⟩ := List.forall_mem_cons.1 hcs
      rw [ofChars_cons, List.append_assoc, List.append_assoc]
      exact (ih hcs).cons hc

theorem contentText_iff_exists_pieces : ContentText s ds ↔ ∃ ps, Pieces ps s ds := by
  constructor
  · intro h
    induction h with
    | run hcs =>
        obtain ⟨ps, h⟩ := Pieces.nil.exists_append_run hcs (by simp)
        rw [List.append_nil] at h
        exact ⟨ps, h⟩
    | escape hcs he _ ih =>
        obtain ⟨ps, h⟩ := ih
        exact (h.cons_escape he).exists_append_run hcs (by simpa using backslash_mem_escape he)
  · rintro ⟨ps, hp, -, rfl, rfl⟩
    induction ps with
    | nil => exact .nil
    | cons p ps ih =>
        obtain ⟨p, d⟩ := p
        obtain ⟨hp, hps⟩ := List.forall_mem_cons.1 hp
        cases hp with
        | run _ hs ht =>
            rw [encode_eq_ofChars] at ht
            subst ht
            exact (ih hps).append_run (plainChar_of_ofChars hs)
        | escape he => exact (ih hps).cons_escape he

/-! ## Pieces that stand for characters -/

theorem singleton_eq_ofChars {v : Nat} (hv : v < 0x80) : [.ofNat v] = ofChars [Char.ofNat v] := by
  have hc : ∀ v < 0x80, (Char.ofNat v).toNat = v := by decide
  have hc := hc v hv
  rcases encodeChar_cases (Char.ofNat v) with ⟨-, he⟩ | ⟨hge, -⟩
  · rw [ofChars_cons, he, hc]
    rfl
  · omega

/-- A piece stands for characters, except for an escape of a byte that is not ASCII. -/
theorem PieceText.exists_chars (h : PieceText s ds)
    (hx : ∀ h v, s = backslash :: letterX :: h → HexText 2 h v → v < 0x80) : ∃ cs, ds = ofChars cs := by
  have single (c : Char) : String.utf8EncodeChar c = ofChars [c] := (List.append_nil _).symm
  cases h with
  | run _ _ ht => exact ⟨_, ht⟩
  | escape he =>
      cases he with
      | @simple letter b h =>
          have hb : simpleEscapes.all (fun p => p.2.toNat < 0x80) = true := rfl
          have := singleton_eq_ofChars (of_decide_eq_true (List.all_eq_true.1 hb _ h))
          rw [UInt8.ofNat_toNat] at this
          exact ⟨_, this⟩
      | byte h => exact ⟨_, singleton_eq_ofChars (hx _ _ rfl h)⟩
      | char _ _ => exact ⟨_, single _⟩
      | pair _ _ _ _ => exact ⟨_, single _⟩

theorem Pieces.exists_text (h : Pieces ps s ds)
    (hx : ∀ h v, backslash :: letterX :: h ∈ ps.map Prod.fst → HexText 2 h v → v < 0x80) : ∃ t, ds = encode t := by
  suffices ∃ cs, ds = ofChars cs by
    obtain ⟨cs, rfl⟩ := this
    exact ⟨String.ofList cs, by rw [encode_eq_ofChars, String.toList_ofList]⟩
  obtain ⟨hp, -, -, rfl⟩ := h
  induction ps with
  | nil => exact ⟨[], rfl⟩
  | cons p ps ih =>
      obtain ⟨hp, hps⟩ := List.forall_mem_cons.1 hp
      obtain ⟨cs, hcs⟩ := hp.exists_chars fun h v hs => hx h v (hs ▸ List.mem_cons_self)
      obtain ⟨cs', hcs'⟩ := ih (fun h v hm => hx h v (List.mem_cons_of_mem _ hm)) hps
      exact ⟨cs ++ cs', by rw [List.flatMap_cons, hcs, hcs', ofChars_append]⟩

/-! ## Reading -/

/-- A literal whose pieces do not stand for UTF-8 is rejected at its closing quote. -/
theorem content_append_of_ne {s ds : Bytes} (h : ContentText s ds) {b : TextBuilder} (r : Bytes)
    (ha : Ahead b (s ++ quote :: r)) (ht : ∀ t, b.bytes ++ ds ≠ encode t) :
    Literal.content b (s ++ quote :: r) = .error ⟨.invalidEscape, quote :: r⟩ := by
  induction h generalizing b with
  | @run cs hcs =>
      rw [content_run hcs]
      cases hf : (b.appendRun (ofChars cs)).finish with
      | ok t =>
          rw [finish_eq_ok_iff, bytes_appendRun ha] at hf
          exact absurd hf.1 (ht t.content)
      | error n => rfl
  | @escape cs e bs s ds hcs he hs ih =>
      rw [List.append_assoc, List.append_assoc] at ha ⊢
      rw [content_escape hcs he, ih (ahead_append _ _ _)]
      intro t
      rw [bytes_append, bytes_appendRun ha, List.append_assoc, List.append_assoc]
      exact ht t

theorem string_eq_ok_iff {o : Options} {s r : Bytes} {v : Value} :
    Document.string o s = .ok (v, r) ↔ ∃ t, Literal.read s = .ok (t, r) ∧ v = .string (stored o t) := by
  rw [Document.string]
  cases Literal.read s with
  | error f => simp [Except.map]
  | ok p =>
      obtain ⟨t, r'⟩ := p
      simp [Except.map, and_comm, eq_comm, and_assoc]

theorem read_eq_ok_iff_pieces {s r : Bytes} {t : Text} : Literal.read s = .ok (t, r) ↔
    ∃ p ps, s = p ++ quote :: r ∧ Pieces ps p (encode t.content) ∧
      t.storage = if backslash ∈ p then .owned else .borrowed := by
  constructor
  · intro h
    obtain ⟨p, ds, rfl, hc, hb, ht⟩ := eq_of_content h rfl
    obtain rfl : ds = encode t.content := hb
    obtain ⟨ps, hps⟩ := contentText_iff_exists_pieces.1 hc
    exact ⟨p, ps, rfl, hps, by simpa [storageOf, TextBuilder.before, TextBuilder.isBorrowed] using ht⟩
  · rintro ⟨p, ps, rfl, hps, ht⟩
    have h := read_append (.mk (contentText_iff_exists_pieces.2 ⟨ps, hps⟩)) r
    rw [← ht] at h
    rwa [List.append_assoc] at h

/-- A literal is read just if what stands in front of its closing quote falls into pieces that stand for UTF-8. It is
read as that text, up to behind the quote. If the pieces do not stand for UTF-8, the literal is rejected at the closing
quote, and one of them is an escape of a byte that is not ASCII. -/
theorem string_pieces (o : Options) :
    (∀ s v r, Document.string o s = .ok (v, r) ↔
      ∃ p ps ds t, s = p ++ quote :: r ∧ Pieces ps p ds ∧ ds = encode t ∧
        v = .string (stored o ⟨t, if backslash ∈ p then .owned else .borrowed⟩)) ∧
    (∀ p ps ds r f, Pieces ps p ds → Document.string o (p ++ quote :: r) = .error f →
      f = ⟨.invalidEscape, quote :: r⟩ ∧
        ∃ h v, backslash :: letterX :: h ∈ ps.map Prod.fst ∧ HexText 2 h v ∧ 0x80 ≤ v) := by
  constructor
  · intro s v r
    rw [string_eq_ok_iff]
    constructor
    · rintro ⟨t, ht, rfl⟩
      obtain ⟨p, ps, rfl, hps, hs⟩ := read_eq_ok_iff_pieces.1 ht
      exact ⟨p, ps, _, t.content, rfl, hps, rfl, by rw [← hs]⟩
    · rintro ⟨p, ps, _, t, rfl, hps, rfl, rfl⟩
      exact ⟨_, read_eq_ok_iff_pieces.2 ⟨p, ps, rfl, hps, rfl⟩, rfl⟩
  · intro p ps ds r f hps hf
    have hc := contentText_iff_exists_pieces.2 ⟨ps, hps⟩
    have hne : ∀ t, ds ≠ encode t := by
      rintro t rfl
      rw [string_eq_ok_iff.2 ⟨⟨t, _⟩, read_eq_ok_iff_pieces.2 ⟨p, ps, rfl, hps, rfl⟩, rfl⟩] at hf
      cases hf
    have herror : Document.string o (p ++ quote :: r) = .error ⟨.invalidEscape, quote :: r⟩ := by
      rw [Document.string, Literal.read, content_append_of_ne hc (b := .before _) r rfl hne]
      rfl
    rw [herror] at hf
    cases hf
    refine ⟨rfl, ?_⟩
    by_contra hx
    push Not at hx
    obtain ⟨t, ht⟩ := hps.exists_text hx
    exact hne t ht

/-- Two escapes of bytes make up a character, and one of them does not. -/
theorem string_pieces_bytes :
    Document.string {} (Word.spell ['\\', 'x', 'C', '3', '\\', 'x', 'A', '9', '"', ':']) =
      .ok (.string ⟨"\u00e9", .owned⟩, [colon]) ∧
    Document.string {} (Word.spell ['\\', 'x', 'C', '3', '"', ':']) = .error ⟨.invalidEscape, [quote, colon]⟩ ∧
    ∃ h v, HexText 2 h v ∧ 0x80 ≤ v := by
  have he {h : Bytes} {v : Nat} (hv : HexText 2 h v) : EscapeText (backslash :: letterX :: h) [.ofNat v] := .byte hv
  have hc3 : HexText 2 (Word.spell ['C', '3']) 0xC3 := ⟨rfl, rfl⟩
  have ha9 : HexText 2 (Word.spell ['A', '9']) 0xA9 := ⟨rfl, rfl⟩
  refine ⟨((string_pieces {}).1 _ _ _).2 ⟨_, _, _, _, rfl, (Pieces.nil.cons_escape (he ha9)).cons_escape (he hc3),
    by decide, rfl⟩, ?_⟩
  have herror : Document.string {} (Word.spell ['\\', 'x', 'C', '3', '"', ':']) =
      .error ⟨.invalidEscape, [quote, colon]⟩ := by with_unfolding_all rfl
  obtain ⟨-, h, v, -, hv⟩ := (string_pieces {}).2 _ _ _ _ _ (Pieces.nil.cons_escape (he hc3)) herror
  exact ⟨herror, h, v, hv⟩

end JsonTree.Grammar
