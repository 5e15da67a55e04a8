import JsonTree.Document.Layout

/-!
# The grammar of layout

Layout is a sequence of blanks and comments. A comment from `//` runs to the next line feed or to the end of the
document, so only the layout at the end of a document can end inside one. `layout_cases` says of every run of
bytes how its layout ends and what reading it gives.
-/

namespace JsonTree.Grammar

open Byte Document

/-- Blanks and closed comments. -/
inductive LayoutText : Bytes → Prop where
  | nil : LayoutText []
  | blank {b s} (hb : isBlank b = true) (hs : LayoutText s) : LayoutText (b :: s)
  | line {c s} (hc : lineFeed ∉ c) (hs : LayoutText s) : LayoutText (slash :: slash :: (c ++ lineFeed :: s))
  | block {c s} (hc : ¬ [star, slash] <:+: c) (hs : LayoutText s) :
      LayoutText (slash :: star :: (c ++ star :: slash :: s))

/-- The layout at the end of a document, which may leave a line comment open. -/
inductive EndLayout : Bytes → Prop where
  | closed {l} (hl : LayoutText l) : EndLayout l
  | line {l c} (hl : LayoutText l) (hc : lineFeed ∉ c) : EndLayout (l ++ slash :: slash :: c)

/-- No layout starts here. -/
def Stops (s : Bytes) : Prop := ∀ b ∈ s.head?, isBlank b = false ∧ b ≠ slash

/-- No comment starts with a slash in front of these bytes. -/
def NoComment (s : Bytes) : Prop := ∀ b ∈ s.head?, b ≠ slash ∧ b ≠ star

theorem LayoutText.append {l l'} (hl : LayoutText l) (hl' : LayoutText l') : LayoutText (l ++ l') := by
  induction hl with
  | nil => exact hl'
  | blank hb _ ih => exact .blank hb ih
  | line hc _ ih => simpa using LayoutText.line hc ih
  | block hc _ ih => simpa using LayoutText.block hc ih

theorem Stops.nil : Stops [] := by simp [Stops]

theorem Stops.cons {b s} (hb : isBlank b = false) (hs : b ≠ slash) : Stops (b :: s) := by simp [Stops, hb, hs]

/-- What stops the layout of some bytes stops it if they are cut off. -/
theorem Stops.of_append {p r} (h : Stops (p ++ r)) : Stops p := by
  cases p with
  | nil => exact .nil
  | cons b p => simpa [Stops] using h

/-! ## Comments -/

theorem skipLayout_inLine {c s} (hc : lineFeed ∉ c) :
    skipLayout .inLine (c ++ lineFeed :: s) = skipLayout .between s := by
  induction c with
  | nil => simp [skipLayout]
  | cons b c ih =>
      simp only [List.mem_cons, not_or] at hc
      simp [skipLayout, Ne.symm hc.1, ih hc.2]

theorem skipLayout_inLine_end {c} (hc : lineFeed ∉ c) : skipLayout .inLine c = .ok [] := by
  induction c with
  | nil => simp [skipLayout]
  | cons b c ih =>
      simp only [List.mem_cons, not_or] at hc
      simp [skipLayout, Ne.symm hc.1, ih hc.2]

/-- A star that closes no comment is passed over. -/
theorem skipLayout_inBlock_cons {b c} (h : ¬ [star, slash] <+: b :: c) (hc : b :: c ≠ [star]) :
    skipLayout .inBlock (b :: c) = skipLayout .inBlock c := by
  by_cases hb : b = star
  · subst hb
    cases c with
    | nil => exact absurd rfl hc
    | cons d c =>
        have hd : d ≠ slash := by
          rintro rfl
          exact h ⟨c, rfl⟩
        simp [skipLayout, hd]
  · rw [skipLayout.eq_def]
    simp [hb]

theorem skipLayout_inBlock {c s} (hc : ¬ [star, slash] <:+: c) :
    skipLayout .inBlock (c ++ star :: slash :: s) = skipLayout .between s := by
  induction c with
  | nil => simp [skipLayout]
  | cons b c ih =>
      rw [List.cons_append, skipLayout_inBlock_cons]
      · exact ih fun h => hc (h.trans (List.suffix_cons b c).isInfix)
      · rintro ⟨t, ht⟩
        cases c with
        | nil =>
            have hn : slash ≠ star := by decide
            simp [hn] at ht
        | cons d c =>
            simp only [List.cons_append, List.cons.injEq, List.nil_append] at ht
            obtain ⟨rfl, rfl, -⟩ := ht
            exact hc ⟨[], c, rfl⟩
      · simp

theorem skipLayout_inBlock_end {c} (hc : ¬ [star, slash] <:+: c) :
    skipLayout .inBlock c = .error ⟨.malformed, []⟩ := by
  induction c with
  | nil => simp [skipLayout]
  | cons b c ih =>
      by_cases h : b :: c = [star]
      · simp [h, skipLayout]
      · rw [skipLayout_inBlock_cons (fun h => hc h.isInfix) h]
        exact ih fun h => hc (h.trans (List.suffix_cons b c).isInfix)

/-- The first `*/` in some bytes. -/
theorem exists_first_close {s : Bytes} (h : [star, slash] <:+: s) :
    ∃ c t, s = c ++ star :: slash :: t ∧ ¬ [star, slash] <:+: c := by
  induction s with
  | nil => simp at h
  | cons b s ih =>
      by_cases hp : [star, slash] <+: b :: s
      · obtain ⟨t, ht⟩ := hp
        exact ⟨[], t, ht.symm, by simp⟩
      · obtain ⟨c, t, rfl, hc⟩ := ih ((List.infix_cons_iff.1 h).resolve_left hp)
        refine ⟨b :: c, t, rfl, fun h => ?_⟩
        rcases List.infix_cons_iff.1 h with h | h
        · exact hp (h.trans (by simp))
        · exact hc h

/-! ## Reading layout -/

theorem layout_blank {b s} (hb : isBlank b = true) : layout (b :: s) = layout s := by
  rw [layout, skipLayout.eq_def]
  simp [hb, layout]

theorem layout_line (s : Bytes) : layout (slash :: slash :: s) = skipLayout .inLine s := by
  have hb : isBlank slash = false := rfl
  simp [layout, skipLayout, hb]

theorem layout_block (s : Bytes) : layout (slash :: star :: s) = skipLayout .inBlock s := by
  have hb : isBlank slash = false := rfl
  simp [layout, skipLayout, hb, show star ≠ slash by decide]

theorem layout_of_noComment {s} (h : NoComment s) :
    layout (slash :: s) = .error ⟨.malformed, slash :: s⟩ := by
  have hb : isBlank slash = false := rfl
  cases s with
  | nil => simp [layout, skipLayout, hb]
  | cons b s =>
      obtain ⟨h, h'⟩ := h b rfl
      simp [layout, skipLayout, hb, h, h']

theorem layout_append {l} (hl : LayoutText l) (r : Bytes) : layout (l ++ r) = layout r := by
  induction hl with
  | nil => rfl
  | blank hb _ ih => rw [List.cons_append, layout_blank hb, ih]
  | line hc _ ih => simpa [layout_line] using (skipLayout_inLine hc).trans ih
  | block hc _ ih => simpa [layout_block] using (skipLayout_inBlock hc).trans ih

theorem layout_of_stops {r} (h : Stops r) : layout r = .ok r := by
  cases r with
  | nil => rfl
  | cons b r =>
      obtain ⟨hb, hs⟩ := h b rfl
      rw [layout, skipLayout.eq_def]
      simp [hb, hs]

theorem layout_append_of_stops {l r} (hl : LayoutText l) (hr : Stops r) : layout (l ++ r) = .ok r := by
  rw [layout_append hl, layout_of_stops hr]

theorem layout_of_end {l} (h : EndLayout l) : layout l = .ok [] := by
  cases h with
  | closed hl => simpa using layout_append_of_stops hl .nil
  | line hl hc => rw [layout_append hl, layout_line, skipLayout_inLine_end hc]

/-- How the layout at the head of some bytes ends, and what reading it gives. -/
inductive LayoutCase : Bytes → Except Fault Bytes → Prop where
  | stops {l r} (hl : LayoutText l) (hr : Stops r) : LayoutCase (l ++ r) (.ok r)
  | line {l c} (hl : LayoutText l) (hc : lineFeed ∉ c) : LayoutCase (l ++ slash :: slash :: c) (.ok [])
  | slash {l r} (hl : LayoutText l) (hr : NoComment r) :
      LayoutCase (l ++ slash :: r) (.error ⟨.malformed, slash :: r⟩)
  | block {l c} (hl : LayoutText l) (hc : ¬ [star, Byte.slash] <:+: c) :
      LayoutCase (l ++ Byte.slash :: star :: c) (.error ⟨.malformed, []⟩)

theorem LayoutCase.prepend {l s x} (hl : LayoutText l) (h : LayoutCase s x) : LayoutCase (l ++ s) x := by
  cases h with
  | stops hl' hr => simpa using LayoutCase.stops (hl.append hl') hr
  | line hl' hc => simpa using LayoutCase.line (hl.append hl') hc
  | slash hl' hr => simpa using LayoutCase.slash (hl.append hl') hr
  | block hl' hc => simpa using LayoutCase.block (hl.append hl') hc

theorem layout_cases (s : Bytes) : LayoutCase s (layout s) := by
  -- A blank or a closed comment is taken off, and the bytes behind it are a shorter case.
  match s with
  | [] => exact .stops .nil .nil
  | b :: s =>
      by_cases hb : isBlank b = true
      · have hl : LayoutText [b] := .blank hb .nil
        have := (layout_cases s).prepend hl
        rwa [← layout_append hl] at this
      · by_cases hs : b = slash
        · subst hs
          match s with
          | [] => exact .slash .nil (by simp [NoComment])
          | c :: s =>
              by_cases hc : c = slash
              · subst hc
                by_cases hf : lineFeed ∈ s
                · obtain ⟨t, u, rfl, ht⟩ := List.eq_append_cons_of_mem hf
                  have hl : LayoutText (slash :: slash :: (t ++ [lineFeed])) := .line ht .nil
                  have := (layout_cases u).prepend hl
                  rw [← layout_append hl] at this
                  simpa using this
                · rw [layout_line, skipLayout_inLine_end hf]
                  exact .line .nil hf
              · by_cases hc' : c = star
                · subst hc'
                  by_cases hf : [star, slash] <:+: s
                  · obtain ⟨t, u, rfl, ht⟩ := exists_first_close hf
                    have hl : LayoutText (slash :: star :: (t ++ [star, slash])) := .block ht .nil
                    have := (layout_cases u).prepend hl
                    rw [← layout_append hl] at this
                    simpa using this
                  · rw [layout_block, skipLayout_inBlock_end hf]
                    exact .block .nil hf
                · have hn : NoComment (c :: s) := by simp [NoComment, hc, hc']
                  rw [layout_of_noComment hn]
                  exact .slash .nil hn
        · have hr : Stops (b :: s) := .cons (by simpa using hb) hs
          rw [layout_of_stops hr]
          exact .stops .nil hr
termination_by s.length
decreasing_by
  · exact Nat.lt_add_one _
  all_goals
    simp_all only [List.length_cons, List.length_append]
    omega

theorem eq_of_layout_ok {s r} (h : layout s = .ok r) :
    (∃ l, s = l ++ r ∧ LayoutText l ∧ Stops r) ∨ (r = [] ∧ EndLayout s) := by
  have hc := layout_cases s
  rw [h] at hc
  cases hc with
  | stops hl hr => exact .inl ⟨_, rfl, hl, hr⟩
  | line hl hc => exact .inr ⟨rfl, .line hl hc⟩

/-- In front of a byte, the layout is closed. -/
theorem eq_of_layout_ok_cons {s b r} (h : layout s = .ok (b :: r)) :
    ∃ l, s = l ++ b :: r ∧ LayoutText l ∧ Stops (b :: r) := by
  rcases eq_of_layout_ok h with h | ⟨h, -⟩
  · exact h
  · cases h

theorem layout_eq_ok_nil_iff {s} : layout s = .ok [] ↔ EndLayout s := by
  refine ⟨fun h => ?_, layout_of_end⟩
  rcases eq_of_layout_ok h with ⟨l, rfl, hl, -⟩ | ⟨-, h⟩
  · simpa using EndLayout.closed hl
  · exact h

end JsonTree.Grammar
