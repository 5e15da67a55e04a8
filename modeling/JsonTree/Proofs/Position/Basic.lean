import JsonTree.Document.Fault

/-!
# Positions and offsets

The position behind some bytes counts the line feeds in them and the bytes behind the last one. In a document, a line
and a column name an offset again, and the position behind the first `n` bytes of the document names `n`.
-/

namespace JsonTree.Position

open Byte

/-- How many bytes stand behind the last line feed. -/
def tail (s : Bytes) : Nat := (s.reverse.takeWhile (· != lineFeed)).length

/-- Where in a document the line with `n` lines in front of it starts. -/
def lineStart : Nat → Bytes → Nat
  | 0, _ => 0
  | _ + 1, [] => 0
  | n + 1, b :: s => (if b = lineFeed then lineStart n s else lineStart (n + 1) s) + 1

/-- The offset in a document that a line and a column name. -/
def offset (p : Position) (s : Bytes) : Nat := lineStart (p.line - 1) s + (p.column - 1)

/-! ## Lines and columns -/

theorem takeWhile_of_not_mem {s : Bytes} (h : lineFeed ∉ s) : s.reverse.takeWhile (· != lineFeed) = s.reverse := by
  rw [← List.append_nil s.reverse, List.takeWhile_append_of_pos, List.takeWhile_nil]
  intro b hb
  rw [bne_iff_ne]
  rintro rfl
  exact h (List.mem_reverse.1 hb)

theorem tail_of_not_mem {s : Bytes} (h : lineFeed ∉ s) : tail s = s.length := by
  rw [tail, takeWhile_of_not_mem h, List.length_reverse]

theorem tail_append_of_not_mem (s : Bytes) {s' : Bytes} (h : lineFeed ∉ s') : tail (s ++ s') = tail s + s'.length := by
  rw [tail, List.reverse_append, List.takeWhile_append_of_pos, List.length_append, List.length_reverse, Nat.add_comm]
  · rfl
  · intro b hb
    rw [bne_iff_ne]
    rintro rfl
    exact h (List.mem_reverse.1 hb)

/-- Only the last line counts. -/
theorem tail_append_of_mem (s : Bytes) {s' : Bytes} (h : lineFeed ∈ s') : tail (s ++ s') = tail s' := by
  rw [tail, List.reverse_append, List.takeWhile_append, if_neg, tail]
  intro hl
  have hs := List.takeWhile_append_dropWhile (p := (· != lineFeed)) (l := s'.reverse)
  have hd : s'.reverse.dropWhile (· != lineFeed) = [] := by
    rw [← List.length_eq_zero_iff]
    have := congrArg List.length hs
    rw [List.length_append] at this
    omega
  rw [hd, List.append_nil] at hs
  have hmem := List.mem_reverse.2 h
  rw [← hs] at hmem
  simpa using List.all_eq_true.1 List.all_takeWhile _ hmem

theorem tail_cons_of_mem (b : UInt8) {s : Bytes} (h : lineFeed ∈ s) : tail (b :: s) = tail s :=
  tail_append_of_mem [b] h

theorem tail_lineFeed_cons {s : Bytes} (h : lineFeed ∉ s) : tail (lineFeed :: s) = s.length :=
  (tail_append_of_not_mem [lineFeed] h).trans (Nat.zero_add _)

theorem foldl_next (p : Position) (s : Bytes) :
    s.foldl next p = ⟨p.line + s.count lineFeed, if lineFeed ∈ s then tail s + 1 else p.column + s.length⟩ := by
  induction s generalizing p with
  | nil => rfl
  | cons b s ih =>
      rw [List.foldl_cons, ih]
      by_cases hb : b = lineFeed
      · subst hb
        by_cases hs : lineFeed ∈ s
        · simp [next, hs, tail_cons_of_mem _ hs, Nat.add_assoc, Nat.add_comm]
        · simp [next, hs, tail_lineFeed_cons hs, Nat.add_assoc, Nat.add_comm]
      · have hne : lineFeed ≠ b := fun h => hb h.symm
        by_cases hs : lineFeed ∈ s
        · simp [next, hb, hs, tail_cons_of_mem _ hs]
        · simp only [next, hb, hs, hne, List.mem_cons, if_false, List.count_cons, beq_iff_eq, List.length_cons, or_self]
          congr 1
          omega

/-- The line counts the line feeds in front, and the column the bytes behind the last of them. -/
theorem behind_eq (s : Bytes) : behind s = ⟨s.count lineFeed + 1, tail s + 1⟩ := by
  rw [behind, foldl_next]
  by_cases hs : lineFeed ∈ s
  · simp [hs, Nat.add_comm]
  · simp [hs, tail_of_not_mem hs, Nat.add_comm]

theorem toError_eq {f : Fault} {s p : Bytes} (hs : s = p ++ f.rest) : f.toError s = ⟨f.code, behind p⟩ := by
  subst hs
  simp [Fault.toError]

/-! ## Offsets -/

theorem lineStart_add_tail (p r : Bytes) : lineStart (p.count lineFeed) (p ++ r) + tail p = p.length := by
  induction p with
  | nil => cases r <;> rfl
  | cons b p ih =>
      -- A line feed behind `b` keeps the last line where it is; without one, `b` decides where it starts.
      by_cases hs : lineFeed ∈ p
      · obtain ⟨n, hn⟩ := Nat.exists_eq_add_of_lt (List.count_pos_iff.2 hs)
        rw [tail_cons_of_mem b hs]
        rw [hn] at ih
        by_cases hb : b = lineFeed
        · simp only [hb, List.count_cons_self, List.cons_append, lineStart, if_true, hn, List.length_cons]
          omega
        · simp only [List.count_cons_of_ne hb, List.cons_append, hn, List.length_cons]
          rw [Nat.zero_add, lineStart, if_neg hb]
          rw [Nat.zero_add] at ih
          omega
      · have hn : p.count lineFeed = 0 := List.count_eq_zero.2 hs
        by_cases hb : b = lineFeed
        · subst hb
          rw [tail_lineFeed_cons hs, List.count_cons_self, hn, List.cons_append, lineStart, if_pos rfl]
          simp [lineStart, Nat.add_comm]
        · have hmem : lineFeed ∉ b :: p := by simp [hs, Ne.symm hb]
          rw [tail_of_not_mem hmem, List.count_eq_zero.2 hmem]
          simp [lineStart]

theorem offset_behind (p r : Bytes) : (behind p).offset (p ++ r) = p.length := by
  rw [behind_eq]
  exact lineStart_add_tail p r

end JsonTree.Position
