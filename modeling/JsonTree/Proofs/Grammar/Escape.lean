import JsonTree.Document.Literal

/-!
# The grammar of escapes

An escape is a backslash and a letter, with hexadecimal digits behind some letters. It stands for bytes: the UTF-8
bytes of a character, or any single byte behind `\x`. Two escapes of surrogates are one escape here.
-/

namespace JsonTree.Grammar

open Byte Document

/-- The letters of the escapes without digits, and the bytes that they stand for. -/
def simpleEscapes : List (UInt8 × UInt8) :=
  [(quote, quote), (backslash, backslash), (slash, slash), (letterB, backspace), (letterF, formFeed),
    (letterN, lineFeed), (letterR, carriageReturn), (letterT, tab), (letterV, verticalTab)]

/-- The number that hexadecimal digits stand for, behind digits that stand for `acc`. -/
def hexNumber? (acc : Nat) (s : Bytes) : Option Nat := s.foldlM (fun n b => (hexValue? b).map (16 * n + ·)) acc

/-- `n` hexadecimal digits. -/
structure HexText (n : Nat) (s : Bytes) (v : Nat) : Prop where
  length_eq : s.length = n
  number_eq : hexNumber? 0 s = some v

/-- Four hexadecimal digits as a code unit. -/
def UnitText (s : Bytes) (u : UInt16) : Prop := ∃ v, HexText 4 s v ∧ u = .ofNat v

inductive EscapeText : Bytes → Bytes → Prop where
  | simple {letter b} (h : (letter, b) ∈ simpleEscapes) : EscapeText [backslash, letter] [b]
  | byte {s v} (h : HexText 2 s v) : EscapeText (backslash :: letterX :: s) [.ofNat v]
  | char {s u c} (h : UnitText s u) (hc : Utf16.char? u = some c) :
      EscapeText (backslash :: letterU :: s) (String.utf8EncodeChar c)
  | pair {s s' u u'} (h : UnitText s u) (h' : UnitText s' u') (hu : Utf16.isLead u = true)
      (hu' : Utf16.isTrail u' = true) :
      EscapeText (backslash :: letterU :: (s ++ backslash :: letterU :: s'))
        (String.utf8EncodeChar (Utf16.pairChar u u'))

theorem simple?_eq_some_iff {letter b : UInt8} :
    Literal.simple? letter = some b ↔ (letter, b) ∈ simpleEscapes := by
  constructor
  · intro h
    unfold Literal.simple? at h
    split at h
    · rename_i hl
      cases h
      rcases hl with rfl | rfl | rfl <;> simp [simpleEscapes]
    · repeat' split at h
      all_goals cases h
      all_goals simp_all [simpleEscapes]
  · intro h
    simp only [simpleEscapes, List.mem_cons, Prod.mk.injEq, List.not_mem_nil, or_false] at h
    rcases h with h | h | h | h | h | h | h | h | h <;> obtain ⟨rfl, rfl⟩ := h <;> rfl

/-! ## Digits -/

/-- A hexadecimal digit in lower or upper case, and what it stands for. -/
def HexDigit (b : UInt8) (n : Nat) : Prop := b = (Nat.digitChar n).toUInt8 ∨ b = (Nat.digitChar n).toUpper.toUInt8

theorem digitChar_of_lt : ∀ n < 10, (Nat.digitChar n).toUInt8 = .ofNat (n + 0x30) := by decide

theorem digitChar_of_ge : ∀ n < 0x10, 10 ≤ n → (Nat.digitChar n).toUInt8 = .ofNat (n - 10 + 0x61) ∧
    (Nat.digitChar n).toUpper.toUInt8 = .ofNat (n - 10 + 0x41) := by decide

theorem hexValue?_eq_some_iff {b : UInt8} {n : Nat} : hexValue? b = some n ↔ n < 0x10 ∧ HexDigit b n := by
  constructor
  · intro h
    -- A digit is known by its distance from the first one of its kind.
    have hb (m : Nat) (hm : b.toNat = m) : b = .ofNat m := by rw [← hm, UInt8.ofNat_toNat]
    simp only [hexValue?, isDigit, Bool.and_eq_true, decide_eq_true_eq, UInt8.le_iff_toNat_le, UInt8.reduceToNat] at h
    split at h
    · cases h
      refine ⟨by omega, .inl ?_⟩
      rw [digitChar_of_lt _ (by omega)]
      exact hb _ (by omega)
    · split at h
      · cases h
        refine ⟨by omega, .inr ?_⟩
        rw [(digitChar_of_ge _ (by omega) (by omega)).2]
        exact hb _ (by omega)
      · split at h
        · cases h
          refine ⟨by omega, .inl ?_⟩
          rw [(digitChar_of_ge _ (by omega) (by omega)).1]
          exact hb _ (by omega)
        · cases h
  · have hd : ∀ n < 0x10, hexValue? (Nat.digitChar n).toUInt8 = some n ∧
        hexValue? (Nat.digitChar n).toUpper.toUInt8 = some n := by decide
    rintro ⟨hn, rfl | rfl⟩
    · exact (hd n hn).1
    · exact (hd n hn).2

theorem hexNumber?_cons (acc : Nat) (b : UInt8) (s : Bytes) :
    hexNumber? acc (b :: s) = (hexValue? b).bind fun d => hexNumber? (16 * acc + d) s := by
  cases hb : hexValue? b <;> simp [hexNumber?, hb]

theorem exists_hexValue?_of_mem {acc v : Nat} {s : Bytes} (h : hexNumber? acc s = some v) :
    ∀ b ∈ s, ∃ d, hexValue? b = some d := by
  induction s generalizing acc with
  | nil => simp
  | cons b s ih =>
      rw [hexNumber?_cons, Option.bind_eq_some_iff] at h
      obtain ⟨d, hd, h⟩ := h
      exact List.forall_mem_cons.2 ⟨⟨d, hd⟩, ih h⟩

theorem hex_append {n acc v : Nat} {s : Bytes} (hl : s.length = n) (hs : hexNumber? acc s = some v) (r : Bytes) :
    Literal.hex n acc (s ++ r) = .ok (v, r) := by
  induction s generalizing n acc with
  | nil =>
      subst hl
      cases hs
      rfl
  | cons b s ih =>
      subst hl
      rw [hexNumber?_cons, Option.bind_eq_some_iff] at hs
      obtain ⟨d, hd, hs⟩ := hs
      simpa [Literal.hex, hd] using ih rfl hs

theorem eq_of_hex {n acc v : Nat} {s r : Bytes} (h : Literal.hex n acc s = .ok (v, r)) :
    ∃ p, s = p ++ r ∧ p.length = n ∧ hexNumber? acc p = some v := by
  fun_induction Literal.hex n acc s with
  | case1 acc s =>
      cases h
      exact ⟨[], rfl, rfl, rfl⟩
  | case2 => cases h
  | case3 n acc b s d hd ih =>
      obtain ⟨p, rfl, rfl, hp⟩ := ih h
      exact ⟨b :: p, rfl, rfl, by rw [hexNumber?_cons, hd]; exact hp⟩
  | case4 => cases h

theorem codeUnit_append {s : Bytes} {u : UInt16} (h : UnitText s u) (r : Bytes) :
    Literal.codeUnit (s ++ r) = .ok (u, r) := by
  obtain ⟨v, hv, rfl⟩ := h
  simp [Literal.codeUnit, hex_append hv.length_eq hv.number_eq, Except.map]

theorem eq_of_codeUnit {s r : Bytes} {u : UInt16} (h : Literal.codeUnit s = .ok (u, r)) :
    ∃ p, s = p ++ r ∧ UnitText p u := by
  obtain ⟨⟨v, r'⟩, hv, h⟩ := map_eq_ok.1 h
  cases h
  obtain ⟨p, rfl, hl, hp⟩ := eq_of_hex hv
  exact ⟨p, rfl, v, ⟨hl, hp⟩, rfl⟩

/-! ## Reading escapes -/

theorem character_append {s : Bytes} {u : UInt16} {c : Char} (h : UnitText s u) (hc : Utf16.char? u = some c)
    (start r : Bytes) : Literal.character start (s ++ r) = .ok (c, r) := by
  have hl : Utf16.isLead u = false := by
    cases hl : Utf16.isLead u with
    | false => rfl
    | true => simp [Utf16.char?, hl] at hc
  simp [Literal.character, codeUnit_append h, hl, hc, bind, Except.bind, pure, Except.pure]

theorem character_pair {s s' : Bytes} {u u' : UInt16} (h : UnitText s u) (h' : UnitText s' u')
    (hu : Utf16.isLead u = true) (hu' : Utf16.isTrail u' = true) (start r : Bytes) :
    Literal.character start (s ++ backslash :: letterU :: (s' ++ r)) = .ok (Utf16.pairChar u u', r) := by
  simp [Literal.character, codeUnit_append h, codeUnit_append h', hu, hu', bind, Except.bind, pure, Except.pure]

theorem eq_of_character {start s r : Bytes} {c : Char} (h : Literal.character start s = .ok (c, r)) :
    (∃ p u, s = p ++ r ∧ UnitText p u ∧ Utf16.char? u = some c) ∨
    (∃ p p' u u', s = p ++ backslash :: letterU :: (p' ++ r) ∧ UnitText p u ∧ UnitText p' u' ∧
      Utf16.isLead u = true ∧ Utf16.isTrail u' = true ∧ c = Utf16.pairChar u u') := by
  obtain ⟨⟨u, t⟩, hu, h⟩ := bind_eq_ok.1 h
  obtain ⟨p, hs, hp⟩ := eq_of_codeUnit hu
  dsimp only at h
  split at h
  · rename_i hl
    split at h
    · rename_i a b t
      split at h
      · rename_i hab
        obtain ⟨rfl, rfl⟩ := hab
        obtain ⟨⟨u', t'⟩, hu', h⟩ := bind_eq_ok.1 h
        obtain ⟨p', rfl, hp'⟩ := eq_of_codeUnit hu'
        dsimp only at h
        split at h
        · rename_i ht
          simp only [pure_eq_ok, Prod.mk.injEq] at h
          obtain ⟨rfl, rfl⟩ := h
          exact .inr ⟨p, p', u, u', hs, hp, hp', hl, ht, rfl⟩
        · cases h
      · cases h
    · cases h
  · split at h
    · rename_i c' hc
      simp only [pure_eq_ok, Prod.mk.injEq] at h
      obtain ⟨rfl, rfl⟩ := h
      exact .inl ⟨p, u, hs, hp, hc⟩
    · cases h

theorem escape_append {e bs : Bytes} (h : EscapeText (backslash :: e) bs) (start r : Bytes) :
    Literal.escape start (e ++ r) = .ok (bs, r) := by
  cases h with
  | @simple letter b h =>
      have hs := simple?_eq_some_iff.2 h
      have hu : letter ≠ letterU := by rintro rfl; cases hs
      have hx : letter ≠ letterX := by rintro rfl; cases hs
      simp [Literal.escape, hu, hx, hs]
  | byte h =>
      have hx : letterX ≠ letterU := by decide
      simp [Literal.escape, hx, hex_append h.length_eq h.number_eq, Except.map]
  | char h hc => simp [Literal.escape, character_append h hc, Except.map]
  | pair h h' hu hu' => simp [Literal.escape, character_pair h h' hu hu', Except.map]

theorem eq_of_escape {start s r bs : Bytes} (h : Literal.escape start s = .ok (bs, r)) :
    ∃ e, s = e ++ r ∧ EscapeText (backslash :: e) bs := by
  unfold Literal.escape at h
  split at h
  · cases h
  · split at h
    · rename_i hu
      subst hu
      obtain ⟨⟨c, r'⟩, hc, h⟩ := map_eq_ok.1 h
      cases h
      rcases eq_of_character hc with ⟨p, u, rfl, hp, hc⟩ | ⟨p, p', u, u', rfl, hp, hp', hl, ht, hc⟩
      · exact ⟨letterU :: p, rfl, .char hp hc⟩
      · rw [hc]
        exact ⟨letterU :: (p ++ backslash :: letterU :: p'), by simp, .pair hp hp' hl ht⟩
    · split at h
      · rename_i hx
        subst hx
        obtain ⟨⟨v, r'⟩, hv, h⟩ := map_eq_ok.1 h
        cases h
        obtain ⟨p, rfl, hl, hp⟩ := eq_of_hex hv
        exact ⟨letterX :: p, rfl, .byte ⟨hl, hp⟩⟩
      · split at h
        · rename_i hb
          cases h
          exact ⟨[_], rfl, .simple (simple?_eq_some_iff.1 hb)⟩
        · cases h

end JsonTree.Grammar
