import JsonTree.Proofs.Grammar.Value

/-!
# Regions of a document

Reading from left to right, and without a look at the grammar, one can tell for each byte whether it stands in a string
literal, in a comment or outside both. Brackets and commas mean something outside only. Tokens and layout have none
there.
-/

namespace JsonTree.Grammar

open Byte Document

/-- Where in a document a byte stands. -/
inductive Region where
  /-- Outside string literals and comments. -/
  | code
  /-- Behind a slash that may start a comment. -/
  | slash
  | line
  | block
  /-- Behind a star that may end a block comment. -/
  | star
  | literal
  /-- Behind a backslash in a string literal. -/
  | escape
  deriving DecidableEq, Repr

namespace Region

/-- Where the byte behind `b` stands. -/
def next : Region → UInt8 → Region
  | code, b => if b = quote then literal else if b = Byte.slash then slash else code
  | slash, b => if b = Byte.slash then line else if b = Byte.star then block else code
  | line, b => if b = lineFeed then code else line
  | block, b => if b = Byte.star then star else block
  | star, b => if b = Byte.slash then code else if b = Byte.star then star else block
  | literal, b => if b = quote then code else if b = backslash then escape else literal
  | escape, _ => literal

end Region

def isOpening (b : UInt8) : Bool := b == openBracket || b == openBrace

def isClosing (b : UInt8) : Bool := b == closeBracket || b == closeBrace

/-- A byte that separates or encloses items. -/
def isMark (b : UInt8) : Bool := b == comma || isOpening b || isClosing b

theorem isClosing_iff {b : UInt8} : isClosing b = true ↔ Closing b := by simp [isClosing, Closing]

theorem isOpening_of_closing {b : UInt8} (h : Closing b) : isOpening b = false := by rcases h with rfl | rfl <;> rfl

/-- A mark starts neither a string literal nor a comment. -/
theorem next_of_isMark {b : UInt8} (h : isMark b = true) : Region.next .code b = .code := by
  simp only [isMark, isOpening, isClosing, Bool.or_eq_true, beq_iff_eq] at h
  obtain (rfl | rfl | rfl) | rfl | rfl := h <;> rfl

/-- A text leads from one region to another, and no mark in it stands outside string literals and comments. -/
inductive Passes : Region → Bytes → Region → Prop where
  | nil {q} : Passes q [] q
  | cons {q q' b s} (hb : q = .code → isMark b = false) (h : Passes (q.next b) s q') : Passes q (b :: s) q'

variable {q q' q'' : Region} {s t : Bytes}

theorem Passes.append (h : Passes q s q') (h' : Passes q' t q'') : Passes q (s ++ t) q'' := by
  induction h with
  | nil => exact h'
  | cons hb _ ih => exact .cons hb (ih h')

/-! ## Layout -/

theorem passes_line {c : Bytes} (hc : lineFeed ∉ c) : Passes .line c .line := by
  induction c with
  | nil => exact .nil
  | cons b c ih =>
      simp only [List.mem_cons, not_or] at hc
      refine .cons (by rintro ⟨⟩) ?_
      rw [Region.next, if_neg (Ne.symm hc.1)]
      exact ih hc.2

/-- The first `*/` ends a block comment, and it ends it also behind a star. -/
theorem passes_block_star (c : Bytes) :
    (¬ [star, slash] <:+: c → Passes .block (c ++ [star, slash]) .code) ∧
    (¬ [star, slash] <:+: star :: c → Passes .star (c ++ [star, slash]) .code) := by
  have hclose : Passes .star [slash] .code := .cons (by rintro ⟨⟩) .nil
  induction c with
  | nil => exact ⟨fun _ => .cons (by rintro ⟨⟩) hclose, fun _ => .cons (by rintro ⟨⟩) hclose⟩
  | cons b c ih =>
      have hpart {c' : Bytes} (hc : c <:+ c') (h : ¬ [star, slash] <:+: c') : ¬ [star, slash] <:+: c :=
        fun h' => h (h'.trans hc.isInfix)
      refine ⟨fun hc => .cons (by rintro ⟨⟩) ?_, fun hc => .cons (by rintro ⟨⟩) ?_⟩
      · by_cases hb : b = star
        · subst hb
          exact ih.2 hc
        · rw [Region.next, if_neg hb]
          exact ih.1 (hpart (List.suffix_cons b c) hc)
      · have hs : b ≠ slash := by
          rintro rfl
          exact hc ⟨[], c, rfl⟩
        by_cases hb : b = star
        · subst hb
          exact ih.2 fun h => hc (h.trans (List.suffix_cons star _).isInfix)
        · rw [Region.next, if_neg hs, if_neg hb]
          exact ih.1 (hpart ((List.suffix_cons b c).trans (List.suffix_cons star _)) hc)

theorem LayoutText.passes {l : Bytes} (h : LayoutText l) : Passes .code l .code := by
  have hslash : isMark slash = false := rfl
  induction h with
  | nil => exact .nil
  | @blank b _ hb _ ih =>
      simp only [isBlank, Bool.or_eq_true, beq_iff_eq] at hb
      obtain ((rfl | rfl) | rfl) | rfl := hb <;> exact .cons (fun _ => rfl) ih
  | line hc _ ih =>
      exact .cons (fun _ => hslash) (.cons (by rintro ⟨⟩) ((passes_line hc).append (.cons (by rintro ⟨⟩) ih)))
  | @block c s hc _ ih =>
      have hblock := ((passes_block_star c).1 hc).append ih
      rw [List.append_assoc] at hblock
      exact .cons (fun _ => hslash) (.cons (by rintro ⟨⟩) hblock)

theorem EndLayout.passes {l : Bytes} (h : EndLayout l) : ∃ q, Passes .code l q := by
  cases h with
  | closed hl => exact ⟨_, hl.passes⟩
  | line hl hc =>
      exact ⟨_, hl.passes.append (.cons (fun _ => rfl) (.cons (by rintro ⟨⟩) (passes_line hc)))⟩

/-! ## String literals -/

theorem isPlain_of_hexValue? {b : UInt8} {d : Nat} (h : hexValue? b = some d) : isPlain b = true := by
  have hle : 0x20 ≤ b := by
    simp only [hexValue?, isDigit] at h
    grind
  have hq : b ≠ quote := by
    rintro rfl
    cases h
  have hs : b ≠ backslash := by
    rintro rfl
    cases h
  simp [isPlain, hle, hq, hs]

theorem isPlain_of_hexNumber? {acc v : Nat} (h : hexNumber? acc s = some v) : ∀ b ∈ s, isPlain b = true := by
  intro b hb
  obtain ⟨d, hd⟩ := exists_hexValue?_of_mem h b hb
  exact isPlain_of_hexValue? hd

theorem passes_plain (h : ∀ b ∈ s, isPlain b = true) : Passes .literal s .literal := by
  induction s with
  | nil => exact .nil
  | cons b s ih =>
      obtain ⟨hb, hs⟩ := List.forall_mem_cons.1 h
      simp only [isPlain, Bool.and_eq_true, bne_iff_ne] at hb
      refine .cons (by rintro ⟨⟩) ?_
      rw [Region.next, if_neg hb.1.2, if_neg hb.2]
      exact ih hs

theorem EscapeText.passes {e bs : Bytes} (h : EscapeText e bs) : Passes .literal e .literal := by
  have escape (b : UInt8) {s : Bytes} (h : Passes .literal s .literal) :
      Passes .literal (backslash :: b :: s) .literal :=
    .cons (by rintro ⟨⟩) (.cons (by rintro ⟨⟩) h)
  have unit {s : Bytes} {u : UInt16} (h : UnitText s u) : Passes .literal s .literal := by
    obtain ⟨v, hv, -⟩ := h
    exact passes_plain (isPlain_of_hexNumber? hv.number_eq)
  cases h with
  | simple _ => exact escape _ .nil
  | byte h => exact escape _ (passes_plain (isPlain_of_hexNumber? h.number_eq))
  | char h _ => exact escape _ (unit h)
  | pair h h' _ _ => exact escape _ ((unit h).append (escape _ (unit h')))

theorem LiteralText.passes {t : Text} (h : LiteralText s t) : Passes .code s .code := by
  have content {s ds : Bytes} (h : ContentText s ds) : Passes .literal s .literal := by
    induction h with
    | run hcs => exact passes_plain fun b hb => isPlain_of_mem_ofChars hcs hb
    | escape hcs he _ ih => exact (passes_plain fun b hb => isPlain_of_mem_ofChars hcs hb).append (he.passes.append ih)
  obtain ⟨hs⟩ := h
  exact .cons (fun _ => rfl) ((content hs).append (.cons (by rintro ⟨⟩) .nil))

/-! ## Words and numbers -/

/-- A byte of a word or a number. -/
def InWord (b : UInt8) : Prop := continuesToken b = true ∨ b = minus ∨ b = plus

instance : DecidablePred InWord := fun b =>
  inferInstanceAs (Decidable (continuesToken b = true ∨ b = minus ∨ b = plus))

theorem InWord.passes {b : UInt8} (h : InWord b) : b ≠ quote ∧ b ≠ slash ∧ isMark b = false := by
  have ne {c : UInt8} (hc : continuesToken c = false ∧ c ≠ minus ∧ c ≠ plus) : b ≠ c := by
    rintro rfl
    simp [InWord, hc] at h
  refine ⟨ne (by decide), ne (by decide), ?_⟩
  have hcomma : b ≠ comma := ne (by decide)
  have hopening : b ≠ openBracket ∧ b ≠ openBrace := ⟨ne (by decide), ne (by decide)⟩
  have hclosing : b ≠ closeBracket ∧ b ≠ closeBrace := ⟨ne (by decide), ne (by decide)⟩
  simp [isMark, isOpening, isClosing, hcomma, hopening, hclosing]

theorem passes_word (h : ∀ b ∈ s, InWord b) : Passes .code s .code := by
  induction s with
  | nil => exact .nil
  | cons b s ih =>
      obtain ⟨hb, hs⟩ := List.forall_mem_cons.1 h
      obtain ⟨hquote, hslash, hmark⟩ := hb.passes
      refine .cons (fun _ => hmark) ?_
      rw [Region.next, if_neg hquote, if_neg hslash]
      exact ih hs

theorem inWord_of_all (h : (s.all fun b => decide (InWord b)) = true) : ∀ b ∈ s, InWord b :=
  fun b hb => of_decide_eq_true (List.all_eq_true.1 h b hb)

theorem inWord_of_isDigit {b : UInt8} (h : isDigit b = true) : InWord b := .inl (by simp [continuesToken, h])

theorem UnsignedText.inWord {n : Numeral} (h : UnsignedText s n) : ∀ b ∈ s, InWord b := by
  have digits {ds : Bytes} (h : DigitsText ds) : ∀ b ∈ ds, InWord b := fun b hb => inWord_of_isDigit (h.2 b hb)
  have sign {s : Bytes} {negative : Bool} (h : SignText s negative) : ∀ b ∈ s, InWord b := by
    cases h with
    | none => simp
    | plus => simp [InWord]
    | minus => simp [InWord]
  obtain ⟨negative, hw, hf, he⟩ := h
  refine List.forall_mem_append.2 ⟨?_, List.forall_mem_append.2 ⟨?_, ?_⟩⟩
  · cases hw with
    | zero => exact List.forall_mem_singleton.2 (inWord_of_isDigit rfl)
    | digits h _ => exact digits h
  · cases hf with
    | none => simp
    | some h => exact List.forall_mem_cons.2 ⟨.inl rfl, digits h⟩
  · cases he with
    | none => simp
    | some he hs h =>
        refine List.forall_mem_cons.2 ⟨?_, List.forall_mem_append.2 ⟨sign hs, digits h⟩⟩
        rcases he with rfl | rfl <;> exact .inl rfl

theorem NumberTextBy.passes {D : Meaning} {o : Options} {v : Value} (h : NumberTextBy D o s v) :
    Passes .code s .code := by
  have minus (negative : Bool) : ∀ b ∈ minusText negative, InWord b := by
    cases negative <;> simp [minusText, InWord]
  have hbytes : ∀ b ∈ s, InWord b := by
    cases h with
    | numeral h _ =>
        obtain ⟨h⟩ := h
        exact List.forall_mem_append.2 ⟨minus _, h.inWord⟩
    | nan _ => exact inWord_of_all (by decide)
    | infinity _ _ hw =>
        refine List.forall_mem_append.2 ⟨minus _, ?_⟩
        rcases hw with rfl | rfl <;> exact inWord_of_all (by decide)
  exact passes_word hbytes

/-! ## Scalars -/

/-- A value without brackets. -/
inductive ScalarTextBy (D : Meaning) (o : Options) : Bytes → Value → Prop where
  | null : ScalarTextBy D o Word.null .null
  | truth : ScalarTextBy D o Word.truth (.boolean true)
  | falsity : ScalarTextBy D o Word.falsity (.boolean false)
  | number {p v} (h : NumberTextBy D o p v) : ScalarTextBy D o p v
  | string {p t} (h : LiteralText p t) : ScalarTextBy D o p (.string (stored o t))

abbrev ScalarText (o : Options) : Bytes → Value → Prop := ScalarTextBy (.of .own o) o

variable {D : Meaning} {o o' : Options} {v : Value}

theorem ScalarTextBy.passes (h : ScalarTextBy D o s v) : Passes .code s .code := by
  cases h with
  | null | truth | falsity => exact passes_word (inWord_of_all (by decide))
  | number h => exact h.passes
  | string h => exact h.passes

theorem ScalarTextBy.node (h : ScalarTextBy D o s v) (inner? : Option (Bytes → Value → Prop)) :
    NodeTextBy D o inner? s v := by
  cases h with
  | null => exact .null
  | truth => exact .truth
  | falsity => exact .falsity
  | number h => exact .number h
  | string h => exact .string h

theorem ScalarTextBy.value (h : ScalarTextBy D o s v) (room : Nat) : ValueTextBy D o room s v := by
  cases room <;> exact h.node _

/-- Scalars depend on two flags. -/
theorem ScalarText.congr (hn : o'.contains .nonFinite = o.contains .nonFinite)
    (hb : o'.contains .borrowing = o.contains .borrowing) (h : ScalarText o s v) : ScalarText o' s v := by
  cases h with
  | null => exact .null
  | truth => exact .truth
  | falsity => exact .falsity
  | number h =>
      refine .number ?_
      cases h with
      | numeral h hv => exact .numeral h (hv.imp_right (admits_congr hn v).trans)
      | nan ho => exact .nan (hn.trans ho)
      | infinity negative ho hw => exact .infinity negative (hn.trans ho) hw
  | @string _ t h =>
      have hs : stored o t = stored o' t := by simp [stored, hb]
      rw [hs]
      exact .string h

/-- A value with room for one more is a scalar, or it has values with the room that is left between brackets. -/
theorem ValueTextBy.cases_succ {room : Nat} (h : ValueTextBy D o (room + 1) s v) :
    ScalarTextBy D o s v ∨
    (∃ p vs, s = openBracket :: (p ++ [closeBracket]) ∧ v = .array vs ∧ EnclosedText o (ValueTextBy D o room) p vs) ∨
    ∃ p ms, s = openBrace :: (p ++ [closeBrace]) ∧ v = .object (Entries.ofList ms) ∧
      EnclosedText o (MemberText (ValueTextBy D o room)) p ms ∧
      (o.contains .uniqueKeys = true → (ms.map Prod.fst).Nodup) := by
  cases h with
  | null => exact .inl .null
  | truth => exact .inl .truth
  | falsity => exact .inl .falsity
  | number h => exact .inl (.number h)
  | string h => exact .inl (.string h)
  | array hV h =>
      cases hV
      exact .inr (.inl ⟨_, _, rfl, rfl, h⟩)
  | object hV h hk =>
      cases hV
      exact .inr (.inr ⟨_, _, rfl, rfl, h, hk⟩)

theorem ValueTextBy.scalar (h : ValueTextBy D o 0 s v) : ScalarTextBy D o s v := by
  cases h with
  | null => exact .null
  | truth => exact .truth
  | falsity => exact .falsity
  | number h => exact .number h
  | string h => exact .string h
  | array hV _ => cases hV
  | object hV _ _ => cases hV

end JsonTree.Grammar
