import JsonTree.Proofs.Checked.Scanner
import Mathlib.Algebra.Group.Int.Defs
import Mathlib.Algebra.Group.Nat.Defs

/-!
# Safe steps

While a machine reads a document of less than 2³¹ bytes, its index stays in the document and never in front of the
start of the line, and it has not counted more lines than bytes. In such a state every step does what it says: no number
leaves its type, and no slice the document.
-/

namespace JsonTree.Checked

open Byte Document

variable {α β : Type} {doc : Bytes} {s s' : State}

/-! ## Ranges -/

theorem contains_unsigned {bits : Nat} {n : Int} :
    (IntType.mk false bits).contains n = true ↔ 0 ≤ n ∧ n < 2 ^ bits := by
  have hpow : ((Nat.pow 2 bits : Nat) : Int) = 2 ^ bits := Int.natCast_pow 2 bits
  simp only [IntType.contains, IntType.least, IntType.greatest, Bool.and_eq_true, decide_eq_true_eq, hpow,
    Bool.false_eq_true, if_false]
  omega

theorem contains_signed {bits : Nat} {n : Int} :
    (IntType.mk true (bits + 1)).contains n = true ↔ -2 ^ bits ≤ n ∧ n < 2 ^ bits := by
  have hpow : ((Nat.pow 2 bits : Nat) : Int) = 2 ^ bits := Int.natCast_pow 2 bits
  simp only [IntType.contains, IntType.least, IntType.greatest, Bool.and_eq_true, decide_eq_true_eq, hpow, if_true,
    Nat.add_sub_cancel]
  omega

/-! ## States -/

/-- A state that the machine can be in while it reads a document. -/
structure Good (doc : Bytes) (s : State) : Prop where
  length_lt : doc.length < 2 ^ 31
  idx_le : s.idx ≤ doc.length
  lineStart_le : s.lineStart ≤ s.idx
  lineNumber_le : s.lineNumber ≤ s.lineStart + 1

/-- The same state with the index at another place. -/
def State.at (s : State) (i : Nat) : State := { s with idx := i }

/-- An error at a place on the line. -/
def State.error (s : State) (code : ErrorCode) (place : Nat) : ParseError :=
  ⟨code, s.lineNumber, min (place - s.lineStart + 1) (UInt32.size - 1)⟩

@[simp] theorem State.at_at (s : State) (i j : Nat) : (s.at i).at j = s.at j := rfl

@[simp] theorem State.idx_at (s : State) (i : Nat) : (s.at i).idx = i := rfl

theorem Good.at (h : Good doc s) {i : Nat} (hlo : s.idx ≤ i) (hhi : i ≤ doc.length) : Good doc (s.at i) where
  length_lt := h.length_lt
  idx_le := hhi
  lineStart_le := Nat.le_trans h.lineStart_le hlo
  lineNumber_le := h.lineNumber_le

/-- What stands at a place, and what the reader of the rest from there on sees. -/
theorem ahead_cases {i : Nat} (h : i ≤ doc.length) :
    (i = doc.length ∧ doc[i]? = none ∧ doc.drop i = []) ∨
    ∃ b, i < doc.length ∧ doc[i]? = some b ∧ doc.drop i = b :: doc.drop (i + 1) := by
  rcases Nat.lt_or_eq_of_le h with hlt | heq
  · exact .inr ⟨doc[i], hlt, List.getElem?_eq_getElem hlt, List.drop_eq_getElem_cons hlt⟩
  · exact .inl ⟨heq, List.getElem?_eq_none (Nat.le_of_eq heq.symm), List.drop_eq_nil_of_le (Nat.le_of_eq heq.symm)⟩

theorem drop_of_getElem? {i : Nat} {b : UInt8} (h : doc[i]? = some b) : doc.drop i = b :: doc.drop (i + 1) := by
  obtain ⟨hi, hb⟩ := List.getElem?_eq_some_iff.1 h
  rw [List.drop_eq_getElem_cons hi, hb]

/-! ## Single steps -/

theorem bind_ok {x : Act α} {a : α} (h : x s = .ok (a, s')) (k : α → Act β) : (x >>= k) s = k a s' := by
  simp [bind, StateT.bind, h, Except.bind]

theorem bind_error {x : Act α} {e : Stop} (h : x s = .error e) (k : α → Act β) : (x >>= k) s = .error e := by
  simp [bind, StateT.bind, h, Except.bind]

theorem ok_bind {ε : Type} (a : α) (f : α → Except ε β) : (Except.ok a >>= f) = f a := rfl

theorem bind_congr_left {x y : Act α} (h : x s = y s') (k : α → Act β) : (x >>= k) s = (y >>= k) s' := by
  simp [bind, StateT.bind, h]

theorem get_eq (s : State) : (get : Act State) s = .ok (s, s) := rfl

theorem peek_eq (doc : Bytes) (s : State) : peek doc s = .ok (doc[s.idx]?, s) := rfl

theorem fit_eq {t : IntType} {n : Int} (h : t.contains n = true) (s : State) : fit t n s = .ok (n, s) := by
  rw [fit, if_pos h]
  rfl

theorem fitNat_eq {t : IntType} {n : Int} {m : Nat} (hn : n = m) (h : t.contains n = true) (s : State) :
    fitNat t n s = .ok (m, s) := by
  rw [fitNat, bind_ok (fit_eq h s), hn]
  rfl

theorem slice_eq {i j : Nat} (hi : i ≤ j) (hj : j ≤ doc.length) (s : State) :
    slice doc i j s = .ok ((doc.drop i).take (j - i), s) := by
  rw [slice, if_pos ⟨hi, hj⟩]
  rfl

theorem byteAt_eq {i : Nat} {b : UInt8} (h : doc[i]? = some b) (s : State) : byteAt doc i s = .ok (b, s) := by
  rw [byteAt, h]
  rfl

theorem moveTo_eq {i : Nat} (h : i ≤ doc.length) (s : State) : moveTo doc i s = .ok ((), s.at i) := by
  rw [moveTo, if_pos h]
  rfl

theorem Good.peekAt_eq (h : Good doc s) {j : Nat} (hj : j ≤ 2 ^ 31) : peekAt doc j s = .ok (doc[s.idx + j]?, s) := by
  have hlt := h.length_lt
  have hi := h.idx_le
  rw [peekAt, bind_ok (get_eq s),
    bind_ok (fitNat_eq (m := s.idx + j) (by omega) (contains_unsigned.2 (by omega)) s)]
  rfl

theorem Good.advance_eq (h : Good doc s) {j : Nat} (hj : s.idx + j ≤ doc.length) :
    advance doc j s = .ok ((), s.at (s.idx + j)) := by
  have hlt := h.length_lt
  rw [advance, bind_ok (get_eq s),
    bind_ok (fitNat_eq (m := s.idx + j) (by omega) (contains_unsigned.2 (by omega)) s)]
  exact moveTo_eq hj s

theorem Good.newline_eq (h : Good doc s) :
    newline s = .ok ((), { s with lineNumber := s.lineNumber + 1, lineStart := s.idx }) := by
  have hlt := h.length_lt
  have hi := h.idx_le
  have hl := h.lineStart_le
  have hn := h.lineNumber_le
  rw [newline, bind_ok (get_eq s),
    bind_ok (fitNat_eq (m := s.lineNumber + 1) (by omega) (contains_unsigned.2 (by omega)) s)]
  rfl

theorem Good.report_eq (h : Good doc s) {code : ErrorCode} {adjust : Int} {place : Nat}
    (hplace : (place : Int) = s.idx + adjust) (hlo : s.lineStart ≤ place) (hhi : place ≤ doc.length) :
    (report code adjust : Act α) s = .error (.error (s.error code place)) := by
  have hlt := h.length_lt
  have hi := h.idx_le
  have hl := h.lineStart_le
  have hsize : UInt32.size = 2 ^ 32 := rfl
  have hcolumn : u32.contains (max ((s.idx - s.lineStart : Nat) + 1 + adjust) 1) = true :=
    contains_unsigned.2 (by omega)
  rw [report, bind_ok (get_eq s),
    bind_ok (fitNat_eq (m := s.idx - s.lineStart) (by omega) (contains_unsigned.2 (by omega)) s),
    bind_ok (fit_eq (contains_signed.2 (by omega)) s), bind_ok (fit_eq (contains_signed.2 (by omega)) s),
    bind_ok (fit_eq (contains_signed.2 (by omega)) s), if_pos hcolumn]
  have hmin : (max ((s.idx - s.lineStart : Nat) + 1 + adjust) 1).toNat =
      min (place - s.lineStart + 1) (UInt32.size - 1) := by omega
  rw [hmin]
  rfl

theorem Good.report_zero (h : Good doc s) (code : ErrorCode) :
    (report code 0 : Act α) s = .error (.error (s.error code s.idx)) :=
  h.report_eq (Int.add_zero _).symm h.lineStart_le h.idx_le

theorem Good.errorAt_eq (h : Good doc s) {code : ErrorCode} {place : Nat} (hlo : s.lineStart ≤ place)
    (hhi : place ≤ doc.length) : (errorAt code place : Act α) s = .error (.error (s.error code place)) := by
  have hlt := h.length_lt
  have hi := h.idx_le
  rw [errorAt, bind_ok (get_eq s), bind_ok (fit_eq (contains_signed.2 (by omega)) s),
    bind_ok (fit_eq (contains_signed.2 (by omega)) s), bind_ok (fit_eq (contains_signed.2 (by omega)) s)]
  exact h.report_eq (by omega) hlo hhi

/-! ## Loops -/

variable {σ : Type} {turn : σ → Act (Next σ α)} {acc acc' : σ}

theorem loop_error {e : Stop} (h : turn acc s = .error e) : loop doc turn acc s = .error e := by
  rw [loop.eq_def, h]

theorem loop_done {a : α} (h : turn acc s = .ok (.done a, s')) : loop doc turn acc s = .ok (a, s') := by
  rw [loop.eq_def, h]

theorem loop_again (h : turn acc s = .ok (.again acc', s')) (hlo : s.idx < s'.idx) (hhi : s'.idx ≤ doc.length) :
    loop doc turn acc s = loop doc turn acc' s' := by
  rw [loop.eq_def, h]
  exact if_pos ⟨hlo, hhi⟩

/-! ## Tokens -/

theorem map_id_id (x : Except Fault (α × Bytes)) : x.map (Prod.map id id) = x := by cases x <;> rfl

theorem map_first (f : α → β) (x : Except Fault (α × Bytes)) :
    (x.map fun p => (f p.1, p.2)) = x.map (Prod.map f id) := by cases x <;> rfl

/-- A machine does with the rest from its index on what a reader does, on the same line. -/
inductive Reads (doc : Bytes) (s : State) : Except Fault (α × Bytes) → Except Stop (α × State) → Prop where
  | ok {a i} (hlo : s.idx ≤ i) (hhi : i ≤ doc.length) : Reads doc s (.ok (a, doc.drop i)) (.ok (a, s.at i))
  | error {code i} (hlo : s.lineStart ≤ i) (hhi : i ≤ doc.length) :
      Reads doc s (.error ⟨code, doc.drop i⟩) (.error (.error (s.error code i)))

namespace Reads

variable {x : Except Fault (α × Bytes)}

/-- The machine has moved on, and reads from there. -/
theorem mono {i : Nat} {y : Except Stop (α × State)} (h : Reads doc (s.at i) x y) (hi : s.idx ≤ i) :
    Reads doc s x y := by
  cases h with
  | ok hlo hhi => exact .ok (Nat.le_trans hi hlo) hhi
  | error hlo hhi => exact .error hlo hhi

/-- The machine need not know all that the reader has read. -/
theorem bind_map {γ : Type} {g : α → γ} {m : Act γ} {f : α × Bytes → Except Fault (β × Bytes)} {k : γ → Act β}
    (h : Reads doc s (x.map (Prod.map g id)) (m s))
    (hk : ∀ a i, x = .ok (a, doc.drop i) → s.idx ≤ i → i ≤ doc.length →
      Reads doc (s.at i) (f (a, doc.drop i)) (k (g a) (s.at i))) :
    Reads doc s (x >>= f) ((m >>= k) s) := by
  generalize hm : m s = y at h
  cases x with
  | ok p =>
      obtain ⟨a, r⟩ := p
      obtain @⟨_, i, hlo, hhi⟩ := h
      rw [bind_ok hm]
      exact (hk a i rfl hlo hhi).mono hlo
  | error f =>
      obtain @⟨_, _⟩ | @⟨_, i, hlo, hhi⟩ := h
      rw [bind_error hm]
      exact .error hlo hhi

theorem map_map {γ : Type} {g : α → γ} {m : Act γ} {f : α → β} {k : γ → Act β}
    (h : Reads doc s (x.map (Prod.map g id)) (m s))
    (hk : ∀ a i, x = .ok (a, doc.drop i) → k (g a) (s.at i) = .ok (f a, s.at i)) :
    Reads doc s (x.map (Prod.map f id)) ((m >>= k) s) := by
  generalize hm : m s = y at h
  cases x with
  | ok p =>
      obtain ⟨a, r⟩ := p
      obtain @⟨_, i, hlo, hhi⟩ := h
      rw [bind_ok hm, hk a i rfl]
      exact .ok hlo hhi
  | error f =>
      obtain @⟨_, _⟩ | @⟨_, i, hlo, hhi⟩ := h
      rw [bind_error hm]
      exact .error hlo hhi

theorem map {m : Act α} {f : α → β} {k : α → Act β} (h : Reads doc s x (m s))
    (hk : ∀ a i, x = .ok (a, doc.drop i) → k a (s.at i) = .ok (f a, s.at i)) :
    Reads doc s (x.map (Prod.map f id)) ((m >>= k) s) :=
  map_map (g := id) (by rwa [map_id_id]) hk

end Reads

theorem Good.reads_report (h : Good doc s) (code : ErrorCode) :
    Reads doc s (.error ⟨code, doc.drop s.idx⟩ : Except Fault (α × Bytes)) ((report code 0 : Act α) s) := by
  rw [h.report_zero]
  exact .error h.lineStart_le h.idx_le

theorem Good.reads_errorAt (h : Good doc s) (code : ErrorCode) {place : Nat} (hlo : s.lineStart ≤ place)
    (hhi : place ≤ doc.length) :
    Reads doc s (.error ⟨code, doc.drop place⟩ : Except Fault (α × Bytes)) ((errorAt code place : Act α) s) := by
  rw [h.errorAt_eq hlo hhi]
  exact .error hlo hhi

end JsonTree.Checked
