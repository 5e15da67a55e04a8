import JsonTree.Proofs.Grammar.Region
import JsonTree.Proofs.Locality.Number

/-!
# String literals are read locally

A literal that is cut off in front of a fault has no closing quote, so the fault is at its end then. The one exception
is a lead surrogate that another escape follows.
-/

namespace JsonTree.Locality

open Byte Document Grammar Utf8

variable {o : Options}

theorem inline_of_isPlain {b} (hb : isPlain b = true) : Inline b := by
  rintro rfl
  cases hb

/-! ## Open literals -/

/-- What can stand behind the opening quote of a literal that is not closed yet: bytes that stand for themselves, and
backslashes that take the byte behind them along. -/
inductive Unclosed : Bytes → Prop where
  | nil : Unclosed []
  | plain {b s} (hb : isPlain b = true) (hs : Unclosed s) : Unclosed (b :: s)
  | escape {b s} (hb : Inline b) (hs : Unclosed s) : Unclosed (backslash :: b :: s)
  | backslash : Unclosed [backslash]

namespace Unclosed

theorem append_of_isPlain {p s : Bytes} (hp : ∀ b ∈ p, isPlain b = true) (hs : Unclosed s) : Unclosed (p ++ s) := by
  induction p with
  | nil => exact hs
  | cons b p ih =>
      obtain ⟨hb, hp⟩ := List.forall_mem_cons.1 hp
      exact .plain hb (ih hp)

theorem of_isPlain {p : Bytes} (hp : ∀ b ∈ p, isPlain b = true) : Unclosed p := by
  have := append_of_isPlain hp .nil
  rwa [List.append_nil] at this

theorem inline {s : Bytes} (h : Unclosed s) : ∀ b ∈ s, Inline b := by
  have hb : Inline Byte.backslash := by decide
  induction h with
  | nil => exact List.forall_mem_nil _
  | plain hp _ ih => exact List.forall_mem_cons.2 ⟨inline_of_isPlain hp, ih⟩
  | escape hl _ ih => exact List.forall_mem_cons.2 ⟨hb, List.forall_mem_cons.2 ⟨hl, ih⟩⟩
  | backslash => exact List.forall_mem_singleton.2 hb

end Unclosed

/-! ## Escapes -/

theorem isPlain_of_unitText {s u} (h : UnitText s u) : ∀ b ∈ s, isPlain b = true := by
  obtain ⟨v, hv, -⟩ := h
  exact isPlain_of_hexNumber? hv.number_eq

theorem unclosed_append_of_escapeText {e bs s} (h : EscapeText e bs) (hs : Unclosed s) : Unclosed (e ++ s) := by
  have hu : Inline letterU := by decide
  have hx : Inline letterX := by decide
  cases h with
  | @simple letter b h =>
      refine .escape ?_ hs
      rintro rfl
      have hn : Literal.simple? lineFeed = none := rfl
      rw [← simple?_eq_some_iff, hn] at h
      cases h
  | byte h => exact .escape hx (hs.append_of_isPlain (isPlain_of_hexNumber? h.number_eq))
  | char h _ => exact .escape hu (hs.append_of_isPlain (isPlain_of_unitText h))
  | pair h h' _ _ =>
      have := (Unclosed.escape hu (hs.append_of_isPlain (isPlain_of_unitText h'))).append_of_isPlain
        (isPlain_of_unitText h)
      simpa using Unclosed.escape hu this

/-- Digits that are no hexadecimal number are cut off in front of the first byte that is no digit. -/
theorem hex_error {n acc s f} (h : Literal.hex n acc s = .error f) :
    ∃ p, s = p ++ f.rest ∧ (∀ b ∈ p, isPlain b = true) ∧ Literal.hex n acc p = .error ⟨.invalidEscape, []⟩ := by
  fun_induction Literal.hex n acc s with
  | case1 => cases h
  | case2 =>
      cases h
      exact ⟨[], rfl, by simp, rfl⟩
  | case3 n acc b s d hd ih =>
      obtain ⟨p, rfl, hp, hx⟩ := ih h
      exact ⟨b :: p, rfl, List.forall_mem_cons.2 ⟨isPlain_of_hexValue? hd, hp⟩, by simpa [Literal.hex, hd] using hx⟩
  | case4 =>
      cases h
      exact ⟨[], rfl, by simp, rfl⟩

theorem codeUnit_error {s f} (h : Literal.codeUnit s = .error f) :
    ∃ p, s = p ++ f.rest ∧ (∀ b ∈ p, isPlain b = true) ∧ Literal.codeUnit p = .error ⟨.invalidEscape, []⟩ := by
  cases hx : Literal.hex 4 0 s with
  | ok x =>
      rw [Literal.codeUnit, hx] at h
      cases h
  | error f' =>
      rw [Literal.codeUnit, hx] at h
      cases h
      obtain ⟨p, hs, hp, hx⟩ := hex_error hx
      exact ⟨p, hs, hp, by rw [Literal.codeUnit, hx]; rfl⟩

/-- Reads an escape from its backslash on. -/
def wholeEscape : Bytes → Except Fault (Bytes × Bytes)
  | [] => .error ⟨.invalidEscape, []⟩
  | b :: s => Literal.escape (b :: s) s

theorem wholeEscape_character (s : Bytes) : wholeEscape (backslash :: letterU :: s) =
    (Literal.character (backslash :: letterU :: s) s).map (Prod.map String.utf8EncodeChar id) := by
  simp only [wholeEscape, Literal.escape, if_true]
  rfl

/-- Behind a lead surrogate a faulty escape is cut off in front of its fault, and one of another unit in front of it. -/
theorem character_error_of_lead {p s u f} (hp : UnitText p u) (hl : Utf16.isLead u = true)
    (h : Literal.character (backslash :: letterU :: (p ++ backslash :: letterU :: s))
      (p ++ backslash :: letterU :: s) = .error f) :
    ∃ q, backslash :: letterU :: (p ++ backslash :: letterU :: s) = q ++ f.rest ∧ Unclosed q ∧
      Settled o f.rest ((wholeEscape q).map Prod.snd) := by
  have hu : Inline letterU := by decide
  have hplain := isPlain_of_unitText hp
  rw [Literal.character, codeUnit_append hp] at h
  simp only [bind, Except.bind, hl, if_true, and_self] at h
  cases ht : Literal.codeUnit s with
  | error f' =>
      rw [ht] at h
      cases h
      obtain ⟨q, rfl, hq, hx⟩ := codeUnit_error ht
      refine ⟨backslash :: letterU :: (p ++ backslash :: letterU :: q), by simp, ?_, ?_⟩
      · exact .escape hu (.append_of_isPlain hplain (.escape hu (.of_isPlain hq)))
      · rw [wholeEscape_character, Literal.character, codeUnit_append hp]
        simp only [bind, Except.bind, hl, if_true, and_self, hx, Except.map]
        exact .atEnd .invalidEscape
  | ok x =>
      obtain ⟨u', r⟩ := x
      obtain ⟨q, rfl, hq⟩ := eq_of_codeUnit ht
      simp only [ht] at h
      split at h
      · cases h
      · rename_i ht'
        cases h
        -- The second escape is well formed, so the fault is at its start and the lead surrogate is left alone.
        refine ⟨backslash :: letterU :: p, by simp, .escape hu (.of_isPlain hplain), ?_⟩
        have hx := codeUnit_append hp []
        rw [List.append_nil] at hx
        rw [wholeEscape_character, Literal.character, hx]
        simp only [bind, Except.bind, hl, if_true, Except.map]
        exact .surrogate hp hl hq (by simpa using ht') rfl

theorem character_error {s f} (h : Literal.character (backslash :: letterU :: s) s = .error f) :
    ∃ p, backslash :: letterU :: s = p ++ f.rest ∧ Unclosed p ∧ Settled o f.rest ((wholeEscape p).map Prod.snd) := by
  have hu : Inline letterU := by decide
  have atStart (t : Bytes) : Settled o t ((wholeEscape []).map Prod.snd) := .atEnd .invalidEscape
  cases hs : Literal.codeUnit s with
  | error f' =>
      rw [Literal.character, hs] at h
      cases h
      obtain ⟨p, rfl, hp, hx⟩ := codeUnit_error hs
      refine ⟨backslash :: letterU :: p, rfl, .escape hu (.of_isPlain hp), ?_⟩
      rw [wholeEscape_character, Literal.character, hx]
      exact .atEnd .invalidEscape
  | ok x =>
      obtain ⟨u, t⟩ := x
      obtain ⟨p, rfl, hp⟩ := eq_of_codeUnit hs
      have hc := h
      simp only [Literal.character, hs, bind, Except.bind] at h
      split at h
      · rename_i hl
        split at h
        · split at h
          · rename_i hab
            obtain ⟨rfl, rfl⟩ := hab
            exact character_error_of_lead hp hl hc
          · cases h
            exact ⟨[], rfl, .nil, atStart _⟩
        · cases h
          exact ⟨[], rfl, .nil, atStart _⟩
      · split at h
        · cases h
        · cases h
          exact ⟨[], rfl, .nil, atStart _⟩

/-- A faulty escape is cut off in front of its fault. -/
theorem escape_error {s f} (h : Literal.escape (backslash :: s) s = .error f) :
    ∃ p, backslash :: s = p ++ f.rest ∧ Unclosed p ∧ Settled o f.rest ((wholeEscape p).map Prod.snd) := by
  have hx : Inline letterX := by decide
  unfold Literal.escape at h
  split at h
  · cases h
    exact ⟨[backslash], rfl, .backslash, .atEnd .invalidEscape⟩
  · rename_i letter s
    split at h
    · rename_i hl
      subst hl
      apply character_error
      cases hc : Literal.character (backslash :: letterU :: s) s with
      | ok x =>
          rw [hc] at h
          cases h
      | error f' =>
          rw [hc] at h
          cases h
          rfl
    · split at h
      · rename_i hl
        subst hl
        cases hn : Literal.hex 2 0 s with
        | ok x =>
            rw [hn] at h
            cases h
        | error f' =>
            rw [hn] at h
            cases h
            obtain ⟨p, rfl, hp, hn⟩ := hex_error hn
            refine ⟨backslash :: letterX :: p, rfl, .escape hx (.of_isPlain hp), ?_⟩
            have hne : letterX ≠ letterU := by decide
            simp only [wholeEscape, Literal.escape, hne, if_false, if_true, hn, Except.map]
            exact .atEnd .invalidEscape
      · split at h
        · cases h
        · cases h
          exact ⟨[], rfl, .nil, .atEnd .invalidEscape⟩

/-! ## Literals -/

theorem unclosed_of_contentText {s ds} (h : ContentText s ds) : Unclosed s := by
  induction h with
  | run hcs => exact .of_isPlain fun b hb => isPlain_of_mem_ofChars hcs hb
  | escape hcs he _ ih =>
      exact (unclosed_append_of_escapeText he ih).append_of_isPlain fun b hb => isPlain_of_mem_ofChars hcs hb

theorem inline_of_literalText {s t} (h : LiteralText s t) : ∀ b ∈ s, Inline b := by
  have hq : Inline quote := by decide
  obtain ⟨hs⟩ := h
  simpa [or_imp, forall_and, hq] using (unclosed_of_contentText hs).inline

theorem content_of_isPlain {s} (h : ∀ b ∈ s, isPlain b = true) (b : TextBuilder) :
    Literal.content b s = .error ⟨.malformed, []⟩ := by
  have hd : s.dropWhile isPlain = [] := by
    rw [← List.append_nil s, List.dropWhile_append_of_pos h, List.dropWhile_nil]
  rw [Literal.content]
  split
  · rfl
  · rename_i hs
    rw [hd] at hs
    cases hs

/-- A literal that has a fault in a run, or behind one, is cut off there. -/
theorem content_of_run {s p : Bytes} {f : Fault} (hs : s = p ++ f.rest) (hp : ∀ b ∈ p, isPlain b = true) :
    ∃ p, s = p ++ f.rest ∧ Unclosed p ∧ ∀ b, Settled o f.rest ((Literal.content b p).map Prod.snd) := by
  refine ⟨p, hs, .of_isPlain hp, fun b => ?_⟩
  rw [content_of_isPlain hp]
  exact .atEnd .malformed

theorem checkRun_error {s f} (h : Literal.checkRun s = .error f) :
    ∃ p, s = p ++ f.rest ∧ ∀ b ∈ p, isPlain b = true := by
  simp only [Literal.checkRun] at h
  split at h
  · cases h
  · cases h
    have hle := validLength_le (s.takeWhile isPlain)
    refine ⟨s.take (validLength (s.takeWhile isPlain)), (List.take_append_drop _ s).symm, fun b hb => ?_⟩
    rw [← List.takeWhile_append_dropWhile (p := isPlain) (l := s),
      List.take_append_of_le_length (by simpa using hle)] at hb
    exact List.all_eq_true.1 List.all_takeWhile b (List.mem_of_mem_take hb)

theorem eq_run_append {s c r} (h : s.dropWhile isPlain = c :: r) : s = s.takeWhile isPlain ++ c :: r := by
  rw [← h, List.takeWhile_append_dropWhile]

/-- A faulty escape behind a run of characters: if the cut leaves a whole escape, the closing quote is missing. -/
theorem content_of_escape_error {cs : List Char} {s : Bytes} {f : Fault} (hcs : ∀ c ∈ cs, PlainChar c)
    (he : Literal.escape (backslash :: s) s = .error f) :
    ∃ p, ofChars cs ++ backslash :: s = p ++ f.rest ∧ Unclosed p ∧
      ∀ b, Settled o f.rest ((Literal.content b p).map Prod.snd) := by
  have plain : ∀ b ∈ ofChars cs, isPlain b = true := fun b hb => isPlain_of_mem_ofChars hcs hb
  obtain ⟨p, hpe, hopen, hset⟩ := escape_error he
  cases p with
  | nil => exact content_of_run (congrArg _ hpe) plain
  | cons c p =>
      obtain ⟨rfl, rfl⟩ := List.cons.inj hpe
      refine ⟨ofChars cs ++ backslash :: p, by simp, hopen.append_of_isPlain plain, fun b => ?_⟩
      rw [content_backslash hcs]
      rw [wholeEscape] at hset
      cases hx : Literal.escape (backslash :: p) p with
      | error f' =>
          rw [hx] at hset
          exact hset
      | ok x =>
          obtain ⟨bs, r⟩ := x
          rw [hx] at hset
          obtain rfl : r = [] := by
            cases hset
            rfl
          simp only [bind, Except.bind, content_of_isPlain (s := []) (by simp)]
          exact .atEnd .malformed

theorem content_error {b s f} (h : Literal.content b s = .error f) :
    ∃ p, s = p ++ f.rest ∧ Unclosed p ∧ ∀ b, Settled o f.rest ((Literal.content b p).map Prod.snd) := by
  have plain (s : Bytes) : ∀ b ∈ s.takeWhile isPlain, isPlain b = true := List.all_eq_true.1 List.all_takeWhile
  fun_induction Literal.content b s with
  | case1 b s hs =>
      cases h
      refine content_of_run (p := s.takeWhile isPlain) ?_ (plain s)
      rw [← hs, List.takeWhile_append_dropWhile]
  | case2 b s r hs =>
      cases hr : Literal.checkRun s with
      | error f' =>
          rw [hr] at h
          cases h
          obtain ⟨p, hp, hplain⟩ := checkRun_error hr
          exact content_of_run hp hplain
      | ok run =>
          simp only [hr, bind, Except.bind] at h
          split at h
          · cases h
          · cases h
            exact content_of_run (eq_run_append hs) (plain s)
  | case3 b s r f' hr hs hq =>
      cases h
      obtain ⟨p, hp, hplain⟩ := checkRun_error hr
      exact content_of_run hp hplain
  | case4 b s r run hr f' hs hq he =>
      cases h
      obtain ⟨cs, -, hcs, hp⟩ := eq_of_checkRun hr
      rw [hs] at hcs
      rw [hcs]
      exact content_of_escape_error hp he
  | case5 b s r run hrun bs r' hs hq hesc hlt ih =>
      obtain ⟨cs, -, hcs, hp⟩ := eq_of_checkRun hrun
      rw [hs] at hcs
      obtain ⟨e, rfl, he⟩ := eq_of_escape hesc
      obtain ⟨p, rfl, hopen, hset⟩ := ih h
      refine ⟨ofChars cs ++ ((backslash :: e) ++ p), by simpa using hcs, ?_, fun b => ?_⟩
      · exact (unclosed_append_of_escapeText he hopen).append_of_isPlain fun b hb => isPlain_of_mem_ofChars hp hb
      · rw [content_escape hp he]
        exact hset _
  | case6 b s c r hs hq hb =>
      cases h
      exact content_of_run (eq_run_append hs) (plain s)

theorem local_literal : Local o Inline Literal.read := by
  refine fun s => ⟨fun {t r} h => ?_, fun {f} h => ?_⟩
  · obtain ⟨p, hs, hp⟩ := eq_of_read h
    exact ⟨p, hs, (List.forall_mem_cons.1 (inline_of_literalText hp)).2, fun r' _ => read_append hp r'⟩
  · obtain ⟨p, hs, hp, hset⟩ := content_error h
    exact ⟨p, hs, hp.inline, hset _⟩

end JsonTree.Locality
