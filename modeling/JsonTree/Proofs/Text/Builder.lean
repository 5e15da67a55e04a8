import JsonTree.Proofs.Text.Utf8
import JsonTree.Text.Builder
import Mathlib.Order.Bounds.Basic

/-!
# What builders gather

Whatever calls are made to it, a builder holds the bytes that the calls have added, one behind the other. It is a span
of its input as long as nothing but the next bytes of the input has been added, and from then on it has storage with
room for all of its bytes.
-/

namespace JsonTree

namespace Utf8

/-! ## The longest well-formed start -/

/-- Bytes that are the encoding of a text. -/
def IsText (s : Bytes) : Prop := ∃ t, s = encode t

theorem isText_ofChars (cs : List Char) : IsText (ofChars cs) :=
  ⟨String.ofList cs, by rw [encode_eq_ofChars, String.toList_ofList]⟩

theorem length_rest_le (acc : List Char) (s : Bytes) : (scan.go acc s).2.length ≤ s.length := by
  have hgo : scan.go acc s = ((scan.go acc s).1, (scan.go acc s).2) := rfl
  obtain ⟨ds, -, hs⟩ := eq_of_go hgo
  have := congrArg List.length hs
  rw [List.length_append] at this
  omega

theorem length_le_validLength (cs : List Char) (r : Bytes) : (ofChars cs).length ≤ validLength (ofChars cs ++ r) := by
  have h := length_rest_le (cs.reverse ++ []) r
  rw [← go_ofChars] at h
  rw [validLength, scan, List.length_append]
  omega

theorem take_validLength (s : Bytes) : s.take (validLength s) = ofChars (scan s).1 := by
  have hs : s = ofChars (scan s).1 ++ (scan s).2 := eq_of_scan rfl
  have hl : (ofChars (scan s).1).length = validLength s := by
    have := congrArg List.length hs
    rw [List.length_append] at this
    rw [validLength]
    omega
  calc s.take (validLength s) = (ofChars (scan s).1 ++ (scan s).2).take (ofChars (scan s).1).length := by rw [hl, ← hs]
    _ = ofChars (scan s).1 := List.take_left

/-- No well-formed start is longer than the one that is found. -/
theorem isGreatest_validLength (s : Bytes) : IsGreatest {n | n ≤ s.length ∧ IsText (s.take n)} (validLength s) := by
  refine ⟨⟨validLength_le s, ?_⟩, ?_⟩
  · rw [take_validLength]
    exact isText_ofChars _
  · rintro n ⟨hn, t, ht⟩
    have h := length_le_validLength t.toList (s.drop n)
    rwa [← encode_eq_ofChars, ← ht, List.take_append_drop, List.length_take, Nat.min_eq_left hn] at h

theorem encode_inj {t u : String} : encode t = encode u ↔ t = u := by
  refine ⟨fun h => ?_, congrArg encode⟩
  have ht : decode (encode u) = .ok t := decode_eq_ok_iff.2 h.symm
  rw [decode_eq_ok_iff.2 rfl] at ht
  exact (Except.ok.inj ht).symm

theorem decode_eq_error_iff {s : Bytes} {n : Nat} : decode s = .error n ↔ ¬ IsText s ∧ n = validLength s := by
  cases hd : decode s with
  | ok t =>
      have ht : IsText s := ⟨t, decode_eq_ok_iff.1 hd⟩
      simp [ht]
  | error m =>
      have ht : ¬ IsText s := by
        rintro ⟨t, ht⟩
        rw [decode_eq_ok_iff.2 ht] at hd
        cases hd
      have hm : m = validLength s := by
        unfold decode at hd
        split at hd <;> cases hd
        rfl
      simp [ht, hm, eq_comm]

end Utf8

namespace TextBuilder

open Utf8 (IsText encode)

/-! ## Calls -/

/-- What can be asked of a builder. -/
inductive Call where
  | extendInPlace (n : Nat)
  | convert
  | append (b : UInt8)
  | appendChar (c : Char)
  | appendString (s : Bytes)

/-- What stops a call. -/
inductive Stop where
  | violation (v : Violation)
  /-- A span where there has to be storage. -/
  | unreachable

/-- An action on a builder. Where it stops, the builder stays as the action has left it. -/
abbrev Action := EStateM Stop TextBuilder

namespace Action

def extendInPlace (n : Nat) : Action Unit := do
  match ← get with
  | .borrowed span ahead =>
      if ahead.length < n then throw (.violation .extendPastEnd)
      else set (TextBuilder.borrowed (span ++ ahead.take n) (ahead.drop n))
  | .owned _ => throw (.violation .extendOwned)

def convert : Action Unit := do
  match ← get with
  | .borrowed span _ => set (TextBuilder.owned (.copy span))
  | .owned _ => pure ()

/-- Takes storage, if there is none, and makes room in it for so many bytes more. -/
def reserve (n : Nat) : Action Unit := do
  convert
  match ← get with
  | .owned ⟨bytes, capacity⟩ =>
      if capacity < bytes.size + n then
        set (TextBuilder.owned ⟨bytes, ByteBuffer.grown bytes.size (bytes.size + n)⟩)
      else pure ()
  | .borrowed _ _ => throw .unreachable

def push (s : Bytes) : Action Unit := do
  reserve s.length
  match ← get with
  | .owned ⟨bytes, capacity⟩ => set (TextBuilder.owned ⟨bytes ++ s, capacity⟩)
  | .borrowed _ _ => throw .unreachable

theorem run_extendInPlace (b : TextBuilder) (n : Nat) : (extendInPlace n).run b =
    match b.extendInPlace n with
    | .ok b' => .ok () b'
    | .error v => .error (.violation v) b := by
  cases b with
  | borrowed span ahead =>
      by_cases hn : ahead.length < n <;> simp [extendInPlace, TextBuilder.extendInPlace, extend, hn]
  | owned _ => rfl

theorem run_convert (b : TextBuilder) : convert.run b = .ok () b.convert := by cases b <;> rfl

theorem run_push (b : TextBuilder) (s : Bytes) : (push s).run b = .ok () (b.append s) := by
  have hreserve : (reserve s.length).run b = .ok () (.owned ⟨b.buffer.bytes,
      if b.buffer.capacity < b.buffer.bytes.size + s.length then
        ByteBuffer.grown b.buffer.bytes.size (b.buffer.bytes.size + s.length)
      else b.buffer.capacity⟩) := by
    by_cases hn : b.buffer.capacity < b.buffer.bytes.size + s.length <;>
      simp [reserve, run_convert, TextBuilder.convert, hn]
  simp [push, hreserve, TextBuilder.append, ByteBuffer.append]

end Action

/-- Makes a call. -/
def perform : Call → Action Unit
  | .extendInPlace n => Action.extendInPlace n
  | .convert => Action.convert
  | .append x => Action.push [x]
  | .appendChar c => Action.push (String.utf8EncodeChar c)
  | .appendString s => Action.push s

/-- The builder behind a call, which may have stopped. -/
def after (b : TextBuilder) (c : Call) : TextBuilder :=
  match (perform c).run b with
  | .ok _ b' | .error _ b' => b'

theorem after_extendInPlace (b : TextBuilder) (n : Nat) : b.after (.extendInPlace n) =
    match b.extendInPlace n with
    | .ok b' => b'
    | .error _ => b := by
  rw [after, perform, Action.run_extendInPlace]
  cases b.extendInPlace n <;> rfl

@[simp] theorem after_convert (b : TextBuilder) : b.after .convert = b.convert := by
  rw [after, perform, Action.run_convert]

@[simp] theorem after_append (b : TextBuilder) (x : UInt8) : b.after (.append x) = b.append [x] := by
  rw [after, perform, Action.run_push]

@[simp] theorem after_appendChar (b : TextBuilder) (c : Char) :
    b.after (.appendChar c) = b.append (String.utf8EncodeChar c) := by
  rw [after, perform, Action.run_push]

@[simp] theorem after_appendString (b : TextBuilder) (s : Bytes) : b.after (.appendString s) = b.append s := by
  rw [after, perform, Action.run_push]

/-- The builder behind some calls. -/
def run (b : TextBuilder) (cs : List Call) : TextBuilder := cs.foldl after b

/-! ## The plain accumulator -/

/-- Bytes, and whether they are still the bytes of the input from a place on. -/
structure Plain where
  bytes : Bytes := []
  isSpan : Bool := true

def Call.isInPlace : Call → Bool
  | .extendInPlace _ => true
  | _ => false

namespace Plain

variable (input : Bytes) (start : Nat)

/-- What a call adds to the bytes. -/
def added (p : Plain) : Call → Bytes
  | .extendInPlace n =>
      if p.isSpan = true ∧ start + p.bytes.length + n ≤ input.length then (input.drop (start + p.bytes.length)).take n
      else []
  | .convert => []
  | .append b => [b]
  | .appendChar c => String.utf8EncodeChar c
  | .appendString s => s

def after (p : Plain) (c : Call) : Plain := ⟨p.bytes ++ p.added input start c, c.isInPlace && p.isSpan⟩

/-- The accumulator behind some calls. -/
def run (cs : List Call) : Plain := cs.foldl (Plain.after input start) {}

end Plain

/-- A builder holds what the accumulator holds, with the rest of the input behind a span, or with room for it all. -/
inductive Refines (input : Bytes) (start : Nat) : TextBuilder → Plain → Prop where
  | span {s ahead : Bytes} (h : s ++ ahead = input.drop start) : Refines input start (.borrowed s ahead) ⟨s, true⟩
  | storage {buffer : ByteBuffer} (h : buffer.bytes.size ≤ buffer.capacity) :
      Refines input start (.owned buffer) ⟨buffer.bytes.toList, false⟩

variable {input : Bytes} {start : Nat} {b : TextBuilder} {p : Plain}

theorem refines_before (input : Bytes) (start : Nat) : Refines input start (before (input.drop start)) {} := .span rfl

/-! ## Storage -/

theorem toList_append (buffer : ByteBuffer) (s : Bytes) :
    (buffer.append s).bytes.toList = buffer.bytes.toList ++ s := by
  obtain ⟨bytes, capacity⟩ := buffer
  simp [ByteBuffer.append]

theorem size_append_le (buffer : ByteBuffer) (s : Bytes) :
    (buffer.append s).bytes.size ≤ (buffer.append s).capacity := by
  have hsize : (buffer.append s).bytes.size = buffer.bytes.size + s.length := by
    rw [← Array.length_toList, toList_append, List.length_append, Array.length_toList]
  rw [hsize]
  simp only [ByteBuffer.append, ByteBuffer.grown]
  split <;> omega

theorem capacity_le_append (buffer : ByteBuffer) (s : Bytes) : buffer.capacity ≤ (buffer.append s).capacity := by
  simp only [ByteBuffer.append, ByteBuffer.grown]
  split <;> omega

theorem capacity_le_buffer (b : TextBuilder) : b.capacity ≤ b.buffer.capacity := by
  cases b with
  | borrowed _ _ => exact Nat.zero_le _
  | owned buffer => exact Nat.le_refl _

/-- No call takes room away. -/
theorem capacity_le_after (b : TextBuilder) (c : Call) : b.capacity ≤ (b.after c).capacity := by
  have happend (s : Bytes) : b.capacity ≤ (b.append s).capacity :=
    Nat.le_trans (capacity_le_buffer b) (capacity_le_append _ _)
  cases c with
  | extendInPlace n =>
      cases b with
      | borrowed _ _ => exact Nat.zero_le _
      | owned buffer => exact Nat.le_refl _
  | convert =>
      rw [after_convert]
      exact capacity_le_buffer b
  | append x => simpa using happend _
  | appendChar c => simpa using happend _
  | appendString s => simpa using happend _

theorem capacity_le_run (b : TextBuilder) (cs : List Call) : b.capacity ≤ (b.run cs).capacity := by
  induction cs generalizing b with
  | nil => exact Nat.le_refl _
  | cons c cs ih => exact Nat.le_trans (capacity_le_after b c) (ih _)

/-! ## Steps -/

namespace Refines

theorem bytes_eq (h : Refines input start b p) : b.bytes = p.bytes := by cases h <;> rfl

theorem isBorrowed_eq (h : Refines input start b p) : b.isBorrowed = p.isSpan := by cases h <;> rfl

theorem toList_buffer (h : Refines input start b p) : b.buffer.bytes.toList = p.bytes := by cases h <;> rfl

theorem convert (h : Refines input start b p) : Refines input start b.convert ⟨p.bytes, false⟩ := by
  rw [← h.toList_buffer]
  refine .storage ?_
  cases h with
  | span h =>
      simp only [buffer, ByteBuffer.copy, ByteBuffer.grown, List.size_toArray]
      omega
  | storage h => exact h

theorem append (h : Refines input start b p) (s : Bytes) : Refines input start (b.append s) ⟨p.bytes ++ s, false⟩ := by
  rw [← h.toList_buffer, ← toList_append]
  exact .storage (size_append_le _ s)

/-- The input behind a span goes as far as the input does. -/
theorem length_ahead {s ahead : Bytes} (hs : start ≤ input.length) (h : s ++ ahead = input.drop start) :
    start + s.length + ahead.length = input.length := by
  have := congrArg List.length h
  rw [List.length_append, List.length_drop] at this
  omega

theorem extendInPlace (hs : start ≤ input.length) (h : Refines input start b p) (n : Nat) :
    Refines input start (b.after (.extendInPlace n)) (p.after input start (.extendInPlace n)) := by
  cases h with
  | @span s ahead h =>
      have hlength := length_ahead hs h
      have hahead : input.drop (start + s.length) = ahead := by rw [← List.drop_drop, ← h, List.drop_left]
      simp only [after_extendInPlace, TextBuilder.extendInPlace, Plain.after, Plain.added, Call.isInPlace, hahead]
      by_cases hn : ahead.length < n
      · rw [if_pos hn, if_neg (by omega), List.append_nil]
        exact .span h
      · rw [if_neg hn, if_pos ⟨trivial, by omega⟩]
        refine .span ?_
        rw [List.append_assoc, List.take_append_drop, h]
  | storage h =>
      simp only [Plain.after, Plain.added, Call.isInPlace, Bool.false_eq_true, false_and, if_false, List.append_nil,
        Bool.and_false]
      exact .storage h

theorem after (hs : start ≤ input.length) (h : Refines input start b p) (c : Call) :
    Refines input start (b.after c) (p.after input start c) := by
  cases c with
  | extendInPlace n => exact h.extendInPlace hs n
  | convert =>
      rw [after_convert, Plain.after, Plain.added, List.append_nil]
      exact h.convert
  | append x =>
      rw [after_append]
      exact h.append [x]
  | appendChar c =>
      rw [after_appendChar]
      exact h.append (String.utf8EncodeChar c)
  | appendString s =>
      rw [after_appendString]
      exact h.append s

theorem foldl (hs : start ≤ input.length) (h : Refines input start b p) (cs : List Call) :
    Refines input start (b.run cs) (cs.foldl (Plain.after input start) p) := by
  induction cs generalizing b p with
  | nil => exact h
  | cons c cs ih => exact ih (h.after hs c)

theorem run (hs : start ≤ input.length) (cs : List Call) :
    Refines input start ((before (input.drop start)).run cs) (Plain.run input start cs) :=
  (refines_before input start).foldl hs cs

/-- A span lies inside the input. -/
theorem span_le (hs : start ≤ input.length) (h : Refines input start b p) (hb : b.isBorrowed = true) :
    start + b.size ≤ input.length ∧ b.bytes = (input.drop start).take b.size := by
  cases h with
  | @span s ahead h =>
      have hlength := length_ahead hs h
      refine ⟨Nat.le.intro hlength, ?_⟩
      rw [← h]
      exact List.take_left.symm
  | storage _ => cases hb

theorem size_le_capacity (h : Refines input start b p) (hb : b.isBorrowed = false) : b.size ≤ b.capacity := by
  cases h with
  | span _ => cases hb
  | storage h => rwa [size, bytes, Array.length_toList]

end Refines

theorem isSpan_foldl (input : Bytes) (start : Nat) (p : Plain) (cs : List Call) :
    (cs.foldl (Plain.after input start) p).isSpan = (cs.all Call.isInPlace && p.isSpan) := by
  induction cs generalizing p with
  | nil => rfl
  | cons c cs ih => rw [List.foldl_cons, ih, List.all_cons, Plain.after, Bool.and_assoc, Bool.and_left_comm]

/-! ## Failures and texts -/

/-- Why a call stops: only a request to grow in place does, of a builder with storage of its own, or behind the end of
the input. -/
inductive Stops (input : Bytes) (start : Nat) (b : TextBuilder) : Call → Violation → Prop where
  | owned {n : Nat} (hb : b.isBorrowed = false) : Stops input start b (.extendInPlace n) .extendOwned
  | pastEnd {n : Nat} (hb : b.isBorrowed = true) (hn : input.length < start + b.size + n) :
      Stops input start b (.extendInPlace n) .extendPastEnd

theorem extendInPlace_eq_error_iff (hs : start ≤ input.length) (h : Refines input start b p) {n : Nat} {v : Violation} :
    b.extendInPlace n = .error v ↔ Stops input start b (.extendInPlace n) v := by
  cases h with
  | @span s ahead h =>
      have hlength := Refines.length_ahead hs h
      have hiff : ahead.length < n ↔ input.length < start + s.length + n := by omega
      rw [TextBuilder.extendInPlace]
      split
      · rename_i hn
        constructor
        · rintro ⟨⟩
          exact .pastEnd rfl (hiff.1 hn)
        · rintro (⟨⟨⟩⟩ | _)
          rfl
      · rename_i hn
        refine iff_of_false (by rintro ⟨⟩) ?_
        rintro (⟨⟨⟩⟩ | ⟨-, hlt⟩)
        exact hn (hiff.2 hlt)
  | storage _ =>
      constructor
      · rintro ⟨⟩
        exact .owned rfl
      · rintro (_ | ⟨⟨⟩⟩)
        rfl

/-- A call that stops leaves the builder as it was. -/
theorem run_perform_eq_error_iff (hs : start ≤ input.length) (h : Refines input start b p) {c : Call} {e : Stop}
    {b' : TextBuilder} :
    (perform c).run b = .error e b' ↔ b' = b ∧ ∃ v, e = .violation v ∧ Stops input start b c v := by
  cases c with
  | extendInPlace n =>
      simp only [← extendInPlace_eq_error_iff hs h, perform, Action.run_extendInPlace]
      cases b.extendInPlace n <;> simp [eq_comm, and_comm]
  | convert =>
      rw [perform, Action.run_convert]
      refine iff_of_false (by rintro ⟨⟩) ?_
      rintro ⟨-, -, -, ⟨⟩⟩
  | append _ | appendChar _ | appendString _ =>
      rw [perform, Action.run_push]
      refine iff_of_false (by rintro ⟨⟩) ?_
      rintro ⟨-, -, -, ⟨⟩⟩

theorem finish_eq_ok_iff {b : TextBuilder} {t : Text} :
    b.finish = .ok t ↔ b.bytes = encode t.content ∧ (t.storage = .borrowed ↔ b.isBorrowed = true) := by
  obtain ⟨content, storage⟩ := t
  rw [finish]
  cases hd : Utf8.decode b.bytes with
  | error n =>
      have hne : b.bytes ≠ encode content := by
        intro h
        rw [Utf8.decode_eq_ok_iff.2 h] at hd
        cases hd
      simp [Except.map, hne]
  | ok t =>
      rw [Utf8.decode_eq_ok_iff] at hd
      rw [hd, Utf8.encode_inj]
      cases storage <;> cases b.isBorrowed <;> simp [Except.map]

theorem finish_eq_error_iff {b : TextBuilder} {n : Nat} :
    b.finish = .error n ↔ ¬ IsText b.bytes ∧ IsGreatest {n | n ≤ b.size ∧ IsText (b.bytes.take n)} n := by
  have hn : b.finish = .error n ↔ Utf8.decode b.bytes = .error n := by
    rw [finish]
    cases Utf8.decode b.bytes <;> simp [Except.map]
  rw [hn, Utf8.decode_eq_error_iff]
  refine and_congr_right fun _ => ⟨?_, fun h => h.unique (Utf8.isGreatest_validLength b.bytes)⟩
  rintro rfl
  exact Utf8.isGreatest_validLength b.bytes

/-! ## Runs -/

/-- Behind any calls, a builder holds what the plain accumulator holds, and is a span of the input if the calls were
all requests to grow in place. Such a request stops if the builder is no span or the input ends too soon, and no other
call stops; what stops leaves the builder as it was. The room is never less than before, and never less than what
storage holds. The bytes are a text, or the length of their longest well-formed start is told. -/
theorem run_before (hs : start ≤ input.length) (cs : List Call) :
    let b := (before (input.drop start)).run cs
    b.bytes = (Plain.run input start cs).bytes ∧
    (b.isBorrowed = true ↔ ∀ c ∈ cs, c.isInPlace = true) ∧
    (b.isBorrowed = true → start + b.size ≤ input.length ∧ b.bytes = (input.drop start).take b.size) ∧
    (∀ c e b', (perform c).run b = .error e b' ↔ b' = b ∧ ∃ v, e = .violation v ∧ Stops input start b c v) ∧
    (b.isBorrowed = true → b.capacity = 0) ∧ (b.isBorrowed = false → b.size ≤ b.capacity) ∧
    (∀ cs', b.capacity ≤ (b.run cs').capacity) ∧
    (∀ t, b.finish = .ok t ↔ b.bytes = encode t.content ∧ (t.storage = .borrowed ↔ b.isBorrowed = true)) ∧
    ∀ n, b.finish = .error n ↔ ¬ IsText b.bytes ∧ IsGreatest {n | n ≤ b.size ∧ IsText (b.bytes.take n)} n := by
  intro b
  have h : Refines input start b (Plain.run input start cs) := .run hs cs
  refine ⟨h.bytes_eq, ?_, h.span_le hs, fun c e b' => run_perform_eq_error_iff hs h, fun hb => ?_,
    h.size_le_capacity, capacity_le_run b, fun t => finish_eq_ok_iff, fun n => finish_eq_error_iff⟩
  · rw [h.isBorrowed_eq, Plain.run, isSpan_foldl, Bool.and_true, List.all_eq_true]
  · cases hb' : b with
    | borrowed _ _ => rfl
    | owned _ =>
        rw [hb'] at hb
        cases hb

/-- A span of two bytes that cannot grow by three more, then storage that cannot grow in place. -/
theorem run_before_pastEnd :
    let input : Bytes := [0x22, 0x61, 0xC3, 0xA9, 0x22]
    let cs := [Call.extendInPlace 2, .extendInPlace 3, .append 0xA9, .extendInPlace 1, .appendChar 'b']
    let b := (before (input.drop 1)).run cs
    1 ≤ input.length ∧ b.bytes = [0x61, 0xC3, 0xA9, 0x62] ∧ b.isBorrowed = false ∧ b.size ≤ b.capacity ∧
      (perform (.extendInPlace 1)).run b = .error (.violation .extendOwned) b ∧ b.finish = .ok ⟨"aéb", .owned⟩ := by
  intro input cs b
  have hs : 1 ≤ input.length := by decide
  obtain ⟨hbytes, hborrowed, -, hstops, -, hroom, -, hfinish, -⟩ := run_before hs cs
  have hb : b.isBorrowed = false := by
    rw [← Bool.not_eq_true, hborrowed]
    decide
  have hx : b.bytes = [0x61, 0xC3, 0xA9, 0x62] := hbytes.trans (by decide)
  exact ⟨hs, hx, hb, hroom hb, (hstops _ _ _).2 ⟨rfl, _, rfl, .owned hb⟩,
    (hfinish _).2 ⟨hx.trans (by decide), iff_of_false (by decide) (Bool.eq_false_iff.1 hb)⟩⟩

end TextBuilder

end JsonTree
