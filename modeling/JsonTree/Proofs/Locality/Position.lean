import JsonTree.Proofs.Locality.Document
import JsonTree.Proofs.Position.Basic

/-!
# Documents cut off at an error

An error names an offset of the document. The bytes in front of it, read alone, are a document or have an error at
their end, but for two errors that are reported later than they show.
-/

namespace JsonTree.Locality

open Byte Document Grammar Position

/-- An error of the bytes `p` that turns into one at their end if `r` follows. -/
inductive FoundLate (o : Options) (p r : Bytes) : ParseError → Prop where
  /-- A numeral that the options refuse. -/
  | numeral {q t n} (hp : p = q ++ t) (ht : NumeralText t n) (hn : admits o n.value = false) (hr : ¬ Delimited r) :
      FoundLate o p r ⟨.malformed, behind q⟩
  /-- A lead surrogate, with an escape behind it that is no trail surrogate. -/
  | surrogate {q s s' t u u'} (hp : p = q ++ backslash :: letterU :: s) (hs : UnitText s u)
      (hu : Utf16.isLead u = true) (hs' : UnitText s' u') (hu' : Utf16.isTrail u' = false)
      (hr : r = backslash :: letterU :: (s' ++ t)) : FoundLate o p r ⟨.invalidEscape, behind q⟩

theorem FoundLate.offset_lt {o p r e} (h : FoundLate o p r e) : e.position.offset p < p.length := by
  cases h with
  | @numeral q t n hp ht _ _ =>
      subst hp
      obtain ⟨ht⟩ := ht
      obtain ⟨b, t, rfl, -⟩ := ht.exists_cons
      rw [offset_behind]
      simp only [List.length_append, List.length_cons]
      omega
  | @surrogate q s _ _ _ _ hp _ _ _ _ _ =>
      subst hp
      rw [offset_behind]
      simp

theorem parse_of_read_error {o : Options} {s p : Bytes} {f : Fault} (h : Document.read o s = .error f)
    (hs : s = p ++ f.rest) : Value.parse o s = .error ⟨f.code, behind p⟩ := by
  rw [Value.parse, h, ← toError_eq hs]
  rfl

theorem eq_of_parse_error {o : Options} {s : Bytes} {e : ParseError} (h : Value.parse o s = .error e) :
    ∃ (p : Bytes) (f : Fault), s = p ++ f.rest ∧ e = ⟨f.code, behind p⟩ ∧
      Settled o f.rest ((Document.read o p).map fun _ => []) := by
  cases hr : Document.read o s with
  | ok v =>
      rw [Value.parse, hr] at h
      cases h
  | error f =>
      obtain ⟨p, hs, hset⟩ := read_error hr
      rw [parse_of_read_error hr hs] at h
      cases h
      exact ⟨p, f, hs, rfl, hset⟩

/-- In front of an error a document can be read, or has its error at the end, or has one that is found late. -/
theorem parse_take {o : Options} {s : Bytes} {e : ParseError} (h : Value.parse o s = .error e) :
    e.position.offset s ≤ s.length ∧
    ((∃ v, Value.parse o (s.take (e.position.offset s)) = .ok v) ∨
    ∃ e', Value.parse o (s.take (e.position.offset s)) = .error e' ∧
      let n := e'.position.offset (s.take (e.position.offset s))
      let late := FoundLate o (s.take (e.position.offset s)) (s.drop (e.position.offset s)) e'
      (n = e.position.offset s ∧ ¬ late) ∨ (n < e.position.offset s ∧ late)) := by
  obtain ⟨p, f, rfl, rfl, hset⟩ := eq_of_parse_error h
  simp only [offset_behind, List.take_left, List.drop_left]
  refine ⟨by simp, ?_⟩
  cases hp : Document.read o p with
  | ok v => exact .inl ⟨v, by rw [Value.parse, hp]; rfl⟩
  | error f' =>
      refine .inr ?_
      rw [hp] at hset
      cases hset with
      | atEnd code =>
          -- An error that is found late lies in front of the end, so this is none.
          refine ⟨_, parse_of_read_error hp (List.append_nil p).symm, .inl ?_⟩
          have hn : (behind p).offset p = p.length := by simpa using offset_behind p []
          exact ⟨hn, fun hl => absurd hl.offset_lt (by rw [hn]; exact Nat.lt_irrefl _)⟩
      | @numeral t n ht hn hr =>
          obtain ⟨q, hq, -⟩ := read_error hp
          have hlate : FoundLate o p f.rest ⟨.malformed, behind q⟩ := .numeral hq ht hn hr
          exact ⟨_, parse_of_read_error hp hq, .inr ⟨hlate.offset_lt, hlate⟩⟩
      | surrogate hs hu hs' hu' hr =>
          obtain ⟨q, hq, -⟩ := read_error hp
          have hlate : FoundLate o p f.rest ⟨.invalidEscape, behind q⟩ := .surrogate hq hs hu hs' hu' hr
          exact ⟨_, parse_of_read_error hp hq, .inr ⟨hlate.offset_lt, hlate⟩⟩

/-- The numeral `1e999` in front of a letter. -/
def numeralBeforeLetter : Bytes := Word.spell ['1', 'e', '9', '9', '9', 'x']

theorem numeralBeforeLetter_error : Value.parse {} numeralBeforeLetter = .error ⟨.malformed, ⟨1, 6⟩⟩ := rfl

theorem parse_take_numeralBeforeLetter :
    Value.parse {} numeralBeforeLetter = .error ⟨.malformed, ⟨1, 6⟩⟩ ∧
    ((∃ v, Value.parse {} (numeralBeforeLetter.take 5) = .ok v) ∨
    ∃ e, Value.parse {} (numeralBeforeLetter.take 5) = .error e ∧
      let n := e.position.offset (numeralBeforeLetter.take 5)
      let late := FoundLate {} (numeralBeforeLetter.take 5) (numeralBeforeLetter.drop 5) e
      (n = 5 ∧ ¬ late) ∨ (n < 5 ∧ late)) :=
  ⟨numeralBeforeLetter_error, (parse_take numeralBeforeLetter_error).2⟩

/-- The error of the document is behind the numeral, but the numeral alone has one at its start. -/
theorem numeralBeforeLetter_found_late :
    Value.parse {} numeralBeforeLetter = .error ⟨.malformed, ⟨1, 6⟩⟩ ∧
    Position.offset ⟨1, 6⟩ numeralBeforeLetter = 5 ∧
    Value.parse {} (numeralBeforeLetter.take 5) = .error ⟨.malformed, ⟨1, 1⟩⟩ ∧
    Position.offset ⟨1, 1⟩ (numeralBeforeLetter.take 5) = 0 :=
  ⟨rfl, rfl, by with_unfolding_all rfl, rfl⟩

end JsonTree.Locality
