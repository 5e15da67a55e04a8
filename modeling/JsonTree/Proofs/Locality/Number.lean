import JsonTree.Proofs.Locality.Basic

/-!
# Words and numbers are read locally

Each part of a numeral is read locally, and so is the whole, but that a numeral may be refused for its value. None of
them runs over a line feed.
-/

namespace JsonTree.Locality

open Byte Document Grammar

variable {o : Options}

/-- The byte ends no line. -/
def Inline (b : UInt8) : Prop := b ≠ lineFeed

instance : DecidablePred Inline := fun b => inferInstanceAs (Decidable (b ≠ lineFeed))

theorem inline_of_not_mem {w : Bytes} (hw : lineFeed ∉ w) : ∀ b ∈ w, Inline b := by
  rintro b hb rfl
  exact hw hb

theorem inline_of_isDigit {b} (hb : isDigit b = true) : Inline b := isDigit_ne hb rfl

/-! ## Words -/

theorem local_tokenEnd : Local o Inline (skipping tokenEnd) := by
  intro s
  cases s with
  | nil => exact .nil_ok rfl
  | cons b s =>
      cases hb : continuesToken b with
      | true => exact .fault .malformed (.nil_ok rfl) (by simp [skipping, tokenEnd, hb, Except.map])
      | false => exact .stay rfl fun s => by simp [skipping, tokenEnd, hb, Except.map]

theorem local_skip {w : Bytes} (hw : ∀ b ∈ w, Inline b) : Local o Inline (skipping (Word.skip w)) := by
  induction w with
  | nil =>
      have heq : Word.skip [] = tokenEnd := funext fun s => by rw [Word.skip]
      rw [heq]
      exact local_tokenEnd
  | cons w ws ih =>
      obtain ⟨hw, hws⟩ := List.forall_mem_cons.1 hw
      intro s
      cases s with
      | nil => exact .nil_error rfl
      | cons b s =>
          by_cases hb : b = w
          · refine (ih hws s).cons (hb ▸ hw) fun s => ?_
            simp [skipping, Word.skip, hb]
          · exact .fault .malformed (.nil_error rfl) (by simp [skipping, Word.skip, hb, Except.map])

theorem local_wordValue {w : Bytes} (hw : ∀ b ∈ w, Inline b) (v : Value) : Local o Inline (Word.value w v) := by
  have heq : Word.value w v = fun s => (skipping (Word.skip w) s).map fun x => (v, x.2) := by
    funext s
    rw [Word.value, skipping]
    cases Word.skip w s <;> rfl
  rw [heq]
  exact fun s => (local_skip hw s).map (g := fun _ => v) fun _ _ => rfl

/-! ## Numerals -/

theorem local_digits : Local o Inline digits := by
  refine fun s => ⟨fun {ds r} h => ?_, fun {f} h => ?_⟩
  · obtain ⟨hs, hds, hr⟩ := eq_of_digits h
    refine ⟨ds, hs, fun b hb => inline_of_isDigit (hds.2 b hb), fun r' hr' => ?_⟩
    obtain ⟨t, rfl⟩ := hr'
    exact digits_append hds hr.of_append
  · unfold digits at h
    split at h
    · cases h
      exact ⟨[], rfl, by simp, .atEnd .malformed⟩
    · cases h

theorem local_wholePart : Local o Inline wholePart := by
  intro s
  cases s with
  | nil => exact .nil_error rfl
  | cons b s =>
      by_cases hb : b = zero
      · refine (local_pure [b] s).cons (hb ▸ by decide) fun s => ?_
        simp [wholePart, hb]
      · exact (local_digits (b :: s)).peek length_lt_of_digits (.nil_error rfl) fun s => by simp [wholePart, hb]

theorem local_fractionPart : Local o Inline fractionPart := by
  intro s
  cases s with
  | nil => exact .nil_ok rfl
  | cons b s =>
      by_cases hb : b = dot
      · have h := (local_digits (o := o) s).map (f := fun x => (some x.1, x.2)) (g := some) fun _ _ => rfl
        refine h.cons (hb ▸ by decide) fun s => ?_
        simp [fractionPart, hb]
      · exact .stay rfl fun s => by simp [fractionPart, hb]

theorem local_sign : Local o Inline (fun s => .ok (sign s)) := by
  intro s
  cases s with
  | nil => exact .nil_ok rfl
  | cons b s =>
      by_cases hp : b = plus
      · refine (local_pure false s).cons (hp ▸ by decide) fun s => ?_
        simp [sign, hp]
      · by_cases hm : b = minus
        · subst hm
          refine (local_pure true s).cons (by decide) fun s => ?_
          simp [sign, minusSign, hp]
        · exact .stay rfl fun s => by simp [sign, minusSign, hp, hm]

theorem local_exponentPart : Local o Inline exponentPart := by
  have local_power : Local o Inline fun s =>
      (.ok (sign s) : Except Fault _) >>= fun x => (digits x.2).map fun y => (some (x.1, y.1), y.2) :=
    local_sign.bind fun negative s => (local_digits s).map (f := fun y => (some (negative, y.1), y.2))
      (g := fun ds => some (negative, ds)) fun _ _ => rfl
  intro s
  cases s with
  | nil => exact .nil_ok rfl
  | cons b s =>
      by_cases hb : b = letterE ∨ b = capitalE
      · refine (local_power s).cons (by rcases hb with rfl | rfl <;> decide) fun s => ?_
        simp only [exponentPart, hb, if_true]
        rfl
      · exact .stay rfl fun s => by simp [exponentPart, hb]

theorem local_unsigned (negative : Bool) : Local o Inline (unsigned negative) := by
  have local_end (n : Numeral) : Local o Inline fun s => tokenEnd s >>= fun s => .ok (n, s) :=
    fun s => (local_tokenEnd s).skip (fun _ => local_pure n _) (local_pure n [])
  exact local_wholePart.bind fun whole => local_fractionPart.bind fun fraction =>
    local_exponentPart.bind fun exponent => local_end ⟨negative, whole, fraction, exponent⟩

/-! ## Numbers -/

theorem inline_of_unsignedText {s n} (h : UnsignedText s n) : ∀ b ∈ s, Inline b := by
  have hr : Delimited [] := .nil
  obtain ⟨p, hs, hp, -⟩ := (local_unsigned (o := {}) n.negative s).ok (a := n) (r := [])
    (by simpa using unsigned_append h hr)
  rw [hs, List.append_nil]
  exact hp

theorem inline_of_minusText (negative : Bool) : ∀ b ∈ minusText negative, Inline b :=
  inline_of_not_mem (by cases negative <;> decide)

theorem inline_of_numberText {s v} (h : NumberText o s v) : ∀ b ∈ s, Inline b := by
  cases h with
  | numeral h _ =>
      obtain ⟨h⟩ := h
      exact List.forall_mem_append.2 ⟨inline_of_minusText _, inline_of_unsignedText h⟩
  | nan _ => exact inline_of_not_mem (by decide)
  | infinity _ _ hw =>
      refine List.forall_mem_append.2 ⟨inline_of_minusText _, ?_⟩
      rcases hw with rfl | rfl <;> exact inline_of_not_mem (by decide)

/-- Bytes in front of which no word for a number stands start with no such word either. -/
theorem nonFinite?_of_append {negative : Bool} {p r : Bytes} (h : nonFinite? negative (p ++ r) = none) :
    nonFinite? negative p = none := by
  cases hp : nonFinite? negative p with
  | none => rfl
  | some x =>
      obtain ⟨d, t⟩ := x
      rcases eq_of_nonFinite? hp with ⟨rfl, rfl, rfl⟩ | ⟨rfl, w, hw, rfl⟩
      · rw [List.append_assoc, nonFinite?, if_neg Bool.false_ne_true, drop?_eq_some_iff.2 rfl] at h
        cases h
      · rw [List.append_assoc, nonFinite?_infinity negative hw] at h
        cases h

theorem number_of_nonFinite?_eq_none {negative : Bool} {s : Bytes} (hs : negative = false → ∀ t, s ≠ minus :: t)
    (hn : (if o.contains .nonFinite then nonFinite? negative s else none) = none) :
    number o (minusText negative ++ s) = (do
      let (n, r) ← unsigned negative s
      if admits o n.value then return (n.value, r) else .error ⟨.malformed, minusText negative ++ s⟩) := by
  simp only [number_eq_value, minusSign_append hs, hn]

theorem number_nil (o : Options) : number o [] = .error ⟨.malformed, []⟩ := by
  cases h : o.contains .nonFinite <;> simp only [number_eq_value, minusSign, h] <;> rfl

/-- A word for a number that goes on is a word that ends where it goes on. -/
theorem number_error_of_word {negative : Bool} {t r : Bytes} {d : Double} {f : Fault}
    (hm : negative = false → ∀ u, t ≠ minus :: u) (ho : o.contains .nonFinite = true)
    (hn : nonFinite? negative t = some (d, r)) (h : number o (minusText negative ++ t) = .error f) :
    ∃ p, minusText negative ++ t = p ++ f.rest ∧ (∀ b ∈ p, Inline b) ∧
      Settled o f.rest ((number o p).map Prod.snd) := by
  obtain ⟨w, rfl, hp⟩ := numberText_of_nonFinite? ho hn
  have hr : f.rest = r := by
    simp only [number_eq_value, minusSign_append hm, if_pos ho, hn] at h
    cases ht : tokenEnd r with
    | ok _ =>
        rw [ht] at h
        cases h
    | error f' =>
        rw [ht] at h
        cases h
        rw [eq_of_tokenEnd_error ht]
  refine ⟨minusText negative ++ w, by simp [hr], inline_of_numberText hp, ?_⟩
  rw [← List.append_nil (_ ++ w), number_append hp .nil]
  exact .done

/-- What a numeral settles its number settles too: only its value may be refused. -/
theorem settled_number {negative : Bool} {p r : Bytes} {f : Fault}
    (hm : negative = false → ∀ t, p ≠ minus :: t)
    (hn : (if o.contains .nonFinite then nonFinite? negative p else none) = none)
    (hu : unsigned negative (p ++ r) = .error f) (hset : Settled o r ((unsigned negative p).map Prod.snd)) :
    Settled o r ((number o (minusText negative ++ p)).map Prod.snd) := by
  rw [number_of_nonFinite?_eq_none hm hn]
  cases hup : unsigned negative p with
  | error f' =>
      rw [hup] at hset
      exact hset
  | ok x =>
      obtain ⟨n, t⟩ := x
      rw [hup] at hset
      obtain rfl : t = [] := by
        cases hset
        rfl
      cases ha : admits o n.value with
      | true =>
          simp only [bind, Except.bind, ha, if_true]
          exact .done
      | false =>
          -- The numeral ends at the cut, so what stands behind the cut would have gone on with it.
          simp only [bind, Except.bind, ha]
          obtain ⟨q, hq, ht, rfl, -⟩ := eq_of_unsigned hup
          rw [List.append_nil] at hq
          subst hq
          refine .numeral (.mk ht) ha fun hr => ?_
          rw [unsigned_append ht hr] at hu
          cases hu

/-- A faulty number is cut off in front of its fault. -/
theorem number_error {s : Bytes} {f : Fault} (h : number o s = .error f) :
    ∃ p, s = p ++ f.rest ∧ (∀ b ∈ p, Inline b) ∧ Settled o f.rest ((number o p).map Prod.snd) := by
  have hs := eq_minusText_append s
  have hm := minusSign_ne (s := s)
  generalize (minusSign s).1 = negative at hs hm
  generalize (minusSign s).2 = t at hs hm
  subst hs
  cases hn : (if o.contains .nonFinite then nonFinite? negative t else none) with
  | some x =>
      split at hn
      · rename_i ho
        exact number_error_of_word hm ho hn h
      · cases hn
  | none =>
      rw [number_of_nonFinite?_eq_none hm hn] at h
      cases hu : unsigned negative t with
      | ok x =>
          obtain ⟨n, r⟩ := x
          simp only [hu, bind, Except.bind] at h
          split at h
          · cases h
          · cases h
            -- The value is refused, which is a fault at the start of the number.
            refine ⟨[], rfl, by simp, ?_⟩
            rw [number_nil]
            exact .atEnd .malformed
      | error f' =>
          rw [hu] at h
          cases h
          obtain ⟨p, rfl, hp, hset⟩ := (local_unsigned negative t).error hu
          refine ⟨minusText negative ++ p, by simp, List.forall_mem_append.2 ⟨inline_of_minusText negative, hp⟩, ?_⟩
          refine settled_number ?_ ?_ hu hset
          · rintro hneg t rfl
            exact hm hneg _ rfl
          · split at hn
            · rename_i ho
              rw [if_pos ho, nonFinite?_of_append hn]
            · rename_i ho
              rw [if_neg ho]

theorem local_number : Local o Inline (number o) := by
  refine fun s => ⟨fun {v r} h => ?_, number_error⟩
  obtain ⟨p, hs, hp, hr⟩ := number_eq_ok_iff.1 h
  refine ⟨p, hs, inline_of_numberText hp, fun r' hr' => ?_⟩
  obtain ⟨t, rfl⟩ := hr'
  exact number_eq_ok_iff.2 ⟨p, rfl, hp, hr.of_append⟩

end JsonTree.Locality
