import Mathlib.Algebra.GroupWithZero.Nat
import JsonTree.Proofs.Text.Builder

/-!
# How storage grows

Storage that has to grow makes room for twice the bytes that it holds, not for twice the room that it had, so a step may
make room for a single byte more. But whatever comes after the next step comes when the room that this one made is used
up. So the lengths at which a builder has to grow more than double from each to the next but one, and there are few of
them.
-/

namespace JsonTree

namespace TextBuilder

/-- The bytes that a call adds to storage of the builder's own. -/
def Call.added? : Call → Option Bytes
  | .append b => some [b]
  | .appendChar c => some (String.utf8EncodeChar c)
  | .appendString s => some s
  | .extendInPlace _ | .convert => none

/-- The length at which a call has to make storage grow, if it has to. -/
def growth? (b : TextBuilder) (c : Call) : Option Nat :=
  c.added?.bind fun s => if b.buffer.capacity < b.size + s.length then some b.size else none

/-- The lengths at which calls have to make storage grow, in the order of the calls. -/
def growths : TextBuilder → List Call → List Nat
  | _, [] => []
  | b, c :: cs => (b.growth? c).toList ++ (b.after c).growths cs

variable {b : TextBuilder} {buffer : ByteBuffer} {c : Call} {cs : List Call} {s : Bytes} {n x y : Nat} {ls : List Nat}

/-! ## Steps -/

theorem after_of_added? (h : c.added? = some s) : b.after c = b.append s := by
  cases c <;> cases h <;> simp

theorem size_buffer (b : TextBuilder) : b.buffer.bytes.size = b.size := by
  cases b <;> simp [TextBuilder.buffer, ByteBuffer.copy, size, bytes]

theorem size_append (b : TextBuilder) (s : Bytes) : (b.append s).size = b.size + s.length := by
  rw [← size_buffer b, size, append, bytes, toList_append, List.length_append, Array.length_toList]

theorem size_le_after (b : TextBuilder) (c : Call) : b.size ≤ (b.after c).size := by
  cases hc : c.added? with
  | some s =>
      rw [after_of_added? hc, size_append]
      exact Nat.le_add_right _ _
  | none =>
      cases c with
      | extendInPlace n =>
          cases b with
          | borrowed span ahead =>
              simp only [after_extendInPlace, TextBuilder.extendInPlace]
              split
              · rename_i h
                split at h
                · cases h
                · cases h
                  simp [extend, size, bytes]
              · exact Nat.le_refl _
          | owned buffer => exact Nat.le_refl _
      | convert =>
          rw [after_convert]
          exact Nat.le_of_eq (size_buffer b).symm
      | _ => cases hc

theorem size_le_run (b : TextBuilder) (cs : List Call) : b.size ≤ (b.run cs).size := by
  induction cs generalizing b with
  | nil => exact Nat.le_refl _
  | cons c cs ih => exact Nat.le_trans (size_le_after b c) (ih _)

/-- Storage that grows gets room for twice its length, and then holds more than it had room for. -/
theorem after_of_growth? (h : b.growth? c = some x) :
    x = b.size ∧ b.buffer.capacity < (b.after c).size ∧
      ∃ buffer, b.after c = .owned buffer ∧ 2 * x ≤ buffer.capacity := by
  obtain ⟨s, hs, h⟩ := Option.bind_eq_some_iff.1 h
  split at h
  · rename_i hlt
    cases h
    rw [after_of_added? hs, size_append]
    refine ⟨rfl, hlt, b.buffer.append s, rfl, ?_⟩
    rw [← size_buffer] at hlt ⊢
    simp only [ByteBuffer.append, if_pos hlt, ByteBuffer.grown]
    omega
  · cases h

/-- Storage that need not grow keeps the room that it has. -/
theorem after_owned (h : (owned buffer).growth? c = none) :
    ∃ buffer', (owned buffer).after c = .owned buffer' ∧ buffer'.capacity = buffer.capacity := by
  cases hc : c.added? with
  | some s =>
      have hsize := size_buffer (owned buffer)
      refine ⟨buffer.append s, after_of_added? hc, if_neg fun hlt => ?_⟩
      rw [growth?, hc, Option.bind_some, if_pos (hsize ▸ hlt)] at h
      cases h
  | none =>
      cases c with
      | extendInPlace n => exact ⟨buffer, rfl, rfl⟩
      | convert => exact ⟨buffer, rfl, rfl⟩
      | _ => cases hc

/-! ## Runs -/

theorem growths_cons_of_none (h : b.growth? c = none) : b.growths (c :: cs) = (b.after c).growths cs := by
  rw [growths, h, Option.toList_none, List.nil_append]

theorem growths_cons_of_some (h : b.growth? c = some x) : b.growths (c :: cs) = x :: (b.after c).growths cs := by
  rw [growths, h, Option.toList_some, List.singleton_append]

/-- A builder grows at no less than the length it starts with, and at no more than the length it ends with. -/
theorem mem_growths (h : x ∈ b.growths cs) : b.size ≤ x ∧ x ≤ (b.run cs).size := by
  induction cs generalizing b with
  | nil => cases h
  | cons c cs ih =>
      have hsize := size_le_after b c
      have hrun := size_le_run (b.after c) cs
      have hrest (h : x ∈ (b.after c).growths cs) : b.size ≤ x ∧ x ≤ (b.run (c :: cs)).size :=
        ⟨Nat.le_trans hsize (ih h).1, (ih h).2⟩
      cases hg : b.growth? c with
      | none => exact hrest (growths_cons_of_none hg ▸ h)
      | some y =>
          rw [growths_cons_of_some hg] at h
          rcases List.mem_cons.1 h with rfl | h
          · obtain ⟨rfl, -⟩ := after_of_growth? hg
            exact ⟨Nat.le_refl _, Nat.le_trans hsize hrun⟩
          · exact hrest h

/-- Once storage has grown, all the room that it had before is used. -/
theorem capacity_lt_of_growths (h : (owned buffer).growths cs = x :: ls) : ∀ z ∈ ls, buffer.capacity < z := by
  induction cs generalizing buffer with
  | nil => cases h
  | cons c cs ih =>
      cases hg : (owned buffer).growth? c with
      | none =>
          obtain ⟨buffer', hafter, hcapacity⟩ := after_owned hg
          rw [growths_cons_of_none hg, hafter] at h
          rw [← hcapacity]
          exact ih h
      | some y =>
          obtain ⟨-, hlt, -⟩ := after_of_growth? hg
          rw [growths_cons_of_some hg] at h
          cases h
          exact fun z hz => Nat.lt_of_lt_of_le hlt (mem_growths hz).1

/-- Each number is less than half of all those behind the next one. -/
def Spaced : List Nat → Prop
  | [] => True
  | x :: ls => (∀ z ∈ ls.tail, 2 * x < z) ∧ Spaced ls

theorem spaced_growths (b : TextBuilder) (cs : List Call) : Spaced (b.growths cs) := by
  induction cs generalizing b with
  | nil => trivial
  | cons c cs ih =>
      cases hg : b.growth? c with
      | none =>
          rw [growths_cons_of_none hg]
          exact ih _
      | some x =>
          obtain ⟨-, -, buffer, hafter, hroom⟩ := after_of_growth? hg
          have hrest := ih (b.after c)
          rw [growths_cons_of_some hg]
          rw [hafter] at hrest ⊢
          refine ⟨fun z hz => ?_, hrest⟩
          cases hls : (owned buffer).growths cs with
          | nil =>
              rw [hls] at hz
              cases hz
          | cons y ls =>
              rw [hls] at hz
              exact Nat.lt_of_le_of_lt hroom (capacity_lt_of_growths hls z hz)

/-! ## Spaced numbers -/

theorem Spaced.lt_getElem (h : Spaced ls) (k : Nat) (hk : k + 2 < ls.length) : 2 * ls[k] < ls[k + 2] := by
  induction k generalizing ls with
  | zero =>
      match ls, h with
      | _ :: _ :: _ :: _, h => exact h.1 _ List.mem_cons_self
  | succ k ih =>
      match ls, h with
      | _ :: _, h => exact ih h.2 (Nat.lt_of_succ_lt_succ hk)

theorem Spaced.two_pow_le (h : Spaced ls) (j : Nat) (hj : 2 * j < ls.length) : 2 ^ j ≤ ls[2 * j] + 1 := by
  induction j with
  | zero => exact Nat.le_add_left 1 _
  | succ j ih =>
      have hle := ih (by omega)
      have hlt := h.lt_getElem (2 * j) hj
      rw [Nat.pow_succ]
      change 2 ^ j * 2 ≤ ls[2 * j + 2] + 1
      omega

theorem Spaced.length_le (h : Spaced ls) (hn : ∀ z ∈ ls, z ≤ n) : ls.length ≤ 2 * Nat.log2 (n + 1) + 2 := by
  cases hl : ls.length with
  | zero => exact Nat.zero_le _
  | succ l =>
      -- Every other number is at least a power of two less one, and the last of these is not above `n`.
      have hj : 2 * (l / 2) < ls.length := by omega
      have hpow := h.two_pow_le (l / 2) hj
      have hle := hn _ (List.getElem_mem hj)
      have hlog : l / 2 ≤ Nat.log2 (n + 1) :=
        (Nat.le_log2 (Nat.succ_ne_zero n)).2 (Nat.le_trans hpow (Nat.succ_le_succ hle))
      omega

/-- All numbers together are at most twice the last two of them. -/
theorem Spaced.sum_le (h : Spaced (x :: y :: ls)) (hn : ∀ z ∈ x :: y :: ls, z ≤ n) :
    2 * x + 2 * y + ls.sum ≤ 4 * n := by
  induction ls generalizing x y with
  | nil =>
      have hx := hn x (by simp)
      have hy := hn y (by simp)
      rw [List.sum_nil]
      omega
  | cons z ls ih =>
      have hz := h.1 z List.mem_cons_self
      have hle := ih h.2 fun u hu => hn u (List.mem_cons_of_mem x hu)
      rw [List.sum_cons]
      omega

/-! ## Bounds -/

/-- A fresh builder grows at lengths of which each is less than half of the next but one. If it ends with `n` bytes, it
has grown at most about twice as often as `n` can be halved, and has moved fewer than `4 * n + 8` bytes when it grew. -/
theorem growths_bounds (ahead : Bytes) (cs : List Call) :
    let b := before ahead
    let ls := b.growths cs
    let n := (b.run cs).size
    (∀ k (hk : k + 2 < ls.length), 2 * ls[k] < ls[k + 2]) ∧ ls.length ≤ 2 * Nat.log2 (n + 1) + 3 ∧
      ls.sum < 4 * n + 8 := by
  intro b ls n
  have h : Spaced ls := spaced_growths b cs
  have hn : ∀ z ∈ ls, z ≤ n := fun z hz => (mem_growths hz).2
  refine ⟨h.lt_getElem, Nat.le_succ_of_le (h.length_le hn), ?_⟩
  match hls : ls, h, hn with
  | [], _, _ => simp
  | [x], _, hn =>
      have hx := hn x (by simp)
      rw [List.sum_singleton]
      omega
  | x :: y :: ls, h, hn =>
      have hle := h.sum_le hn
      rw [List.sum_cons, List.sum_cons]
      omega

/-- The third step comes a single byte behind the second one, and the fourth nine bytes behind the third. -/
theorem growths_bounds_singleByte :
    let b := before [0x22]
    let cs := [Call.appendString (List.replicate 9 0x61), .append 0x62, .appendString (List.replicate 9 0x63),
      .appendChar 'é']
    b.growths cs = [0, 9, 10, 19] ∧ (b.run cs).size = 21 ∧
      ∃ _ : 1 + 2 < (b.growths cs).length, 2 * (b.growths cs)[1] < (b.growths cs)[1 + 2] := by
  intro b cs
  have hgrowths : b.growths cs = [0, 9, 10, 19] := by decide
  have hk : 1 + 2 < (b.growths cs).length := by rw [hgrowths]; decide
  obtain ⟨hspaced, -, -⟩ := growths_bounds [0x22] cs
  exact ⟨hgrowths, by decide, hk, hspaced 1 hk⟩

end TextBuilder

end JsonTree
