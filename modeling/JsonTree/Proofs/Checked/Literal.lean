import JsonTree.Proofs.Checked.Escape
import JsonTree.Proofs.Checked.Number
import JsonTree.Proofs.Grammar.Literal

/-!
# String literals, step by step

The span of a builder ends where the run of plain bytes starts, so it can grow over the run. Storage of its own never
holds more bytes than the literal has up to there, since no escape is shorter than what it stands for.
-/

namespace JsonTree.Checked

open Byte Document Grammar

variable {doc : Bytes} {s : State} {b : Builder} {start : Nat}

namespace Builder

/-- The builder that a reader has in its place. -/
def toText (doc : Bytes) : Builder → TextBuilder
  | .borrowed start length => .borrowed ((doc.drop start).take length) (doc.drop (start + length))
  | .owned buffer => .owned buffer

/-- A builder that holds what the document has up to some place. -/
def Fits (doc : Bytes) (place : Nat) : Builder → Prop
  | .borrowed start length => start + length = place ∧ place ≤ doc.length
  | .owned buffer => buffer.bytes.size ≤ buffer.capacity ∧ buffer.bytes.size ≤ place ∧ place ≤ doc.length

theorem fits_new {start : Nat} (h : start ≤ doc.length) : Fits doc start (.borrowed start 0) := ⟨rfl, h⟩

theorem span_eq {start length : Nat} (hdoc : doc.length < 2 ^ 31) (h : start + length ≤ doc.length) (s : State) :
    span doc start length s = .ok ((doc.drop start).take length, s) := by
  have hslice := slice_eq (Nat.le_add_right start length) h s
  rw [Nat.add_sub_cancel_left] at hslice
  rw [span, bind_ok (fitNat_eq (m := start + length) (by omega) (contains_unsigned.2 (by omega)) s), hslice]

theorem grown_eq {length wanted : Nat} (hlength : length < 2 ^ 32) (hwanted : wanted < 2 ^ 33) (s : State) :
    grown length wanted s = .ok (ByteBuffer.grown length wanted, s) := by
  rw [grown, bind_ok (fitNat_eq (m := 2 * length) (by omega) (contains_unsigned.2 (by omega)) s)]
  exact fitNat_eq rfl (contains_signed.2 (by omega)) s

theorem convert_eq {place : Nat} (hdoc : doc.length < 2 ^ 31) (h : b.Fits doc place) (s : State) :
    b.convert doc s = .ok ((b.toText doc).buffer, s) := by
  cases b with
  | borrowed start length =>
      obtain ⟨hplace, hle⟩ := h
      have hlength : ((doc.drop start).take length).length = length := by
        rw [List.length_take, List.length_drop]
        omega
      rw [convert, bind_ok (fitNat_eq (m := length + 4) (by omega) (contains_unsigned.2 (by omega)) s),
        bind_ok (grown_eq (by omega) (by omega) s), bind_ok (span_eq hdoc (hplace ▸ hle) s)]
      simp only [toText, TextBuilder.buffer, ByteBuffer.copy, hlength]
      rfl
  | owned buffer => rfl

/-- Storage holds what it has room for, and no more than the document has up to some place. -/
theorem buffer_toText {place : Nat} (h : b.Fits doc place) :
    (b.toText doc).buffer.bytes.size ≤ (b.toText doc).buffer.capacity ∧ (b.toText doc).buffer.bytes.size ≤ place := by
  cases b with
  | borrowed start length =>
      obtain ⟨hplace, hle⟩ := h
      have hlength : ((doc.drop start).take length).length = length := by
        rw [List.length_take, List.length_drop]
        omega
      simp only [toText, TextBuilder.buffer, ByteBuffer.copy, ByteBuffer.grown, List.size_toArray, hlength]
      omega
  | owned buffer => exact ⟨h.1, h.2.1⟩

theorem append_eq {place place' : Nat} {bs : Bytes} (hdoc : doc.length < 2 ^ 31) (h : b.Fits doc place)
    (hplace : place + bs.length ≤ place') (hle : place' ≤ doc.length) (s : State) :
    ∃ b', b.append doc bs s = .ok (b', s) ∧ b'.toText doc = (b.toText doc).append bs ∧ b'.Fits doc place' := by
  obtain ⟨hcapacity, hsize⟩ := buffer_toText h
  rw [append, bind_ok (convert_eq hdoc h s), TextBuilder.append]
  generalize (b.toText doc).buffer = buffer at hcapacity hsize
  obtain ⟨bytes, capacity⟩ := buffer
  dsimp only at hcapacity hsize ⊢
  have happend : (bytes ++ bs).size = bytes.size + bs.length := by
    rw [← Array.length_toList, Array.toList_appendList, List.length_append, Array.length_toList]
  rw [bind_ok (fitNat_eq (m := bytes.size + bs.length) (by omega) (contains_unsigned.2 (by omega)) s),
    ByteBuffer.append]
  by_cases hc : capacity < bytes.size + bs.length
  · have hgrown : bytes.size + bs.length ≤ ByteBuffer.grown bytes.size (bytes.size + bs.length) := by
      rw [ByteBuffer.grown]
      omega
    have hbound : ByteBuffer.grown bytes.size (bytes.size + bs.length) < 2 ^ 33 := by
      rw [ByteBuffer.grown]
      omega
    have hmore : bytes.size + (ByteBuffer.grown bytes.size (bytes.size + bs.length) - bytes.size) =
        ByteBuffer.grown bytes.size (bytes.size + bs.length) := by omega
    refine ⟨.owned ⟨bytes ++ bs, ByteBuffer.grown bytes.size (bytes.size + bs.length)⟩, ?_, ?_, ?_⟩
    · rw [if_pos hc, bind_ok (grown_eq (by omega) (by omega) s),
        bind_ok (fitNat_eq (m := ByteBuffer.grown bytes.size (bytes.size + bs.length) - bytes.size) (by omega)
          (contains_unsigned.2 (by omega)) s), hmore]
      rfl
    · simp only [toText, if_pos hc]
    · exact ⟨by simp only [happend]; omega, by simp only [happend]; omega, hle⟩
  · refine ⟨.owned ⟨bytes ++ bs, capacity⟩, ?_, ?_, ?_⟩
    · rw [if_neg hc]
      rfl
    · simp only [toText, if_neg hc]
    · exact ⟨by simp only [happend]; omega, by simp only [happend]; omega, hle⟩

theorem extendInPlace_eq {i length n : Nat} (hdoc : doc.length < 2 ^ 31)
    (h : (borrowed i length).Fits doc start) (hle : start + n ≤ doc.length) (s : State) :
    ∃ b', extendInPlace doc n (.borrowed i length) s = .ok (b', s) ∧
      b'.toText doc = ((borrowed i length).toText doc).extend n ∧ b'.Fits doc (start + n) := by
  obtain ⟨rfl, hstart⟩ := h
  refine ⟨.borrowed i (length + n), ?_, ?_, (Nat.add_assoc _ _ _).symm, hle⟩
  · rw [extendInPlace, bind_ok (fitNat_eq (m := i + length) (by omega) (contains_unsigned.2 (by omega)) s),
      bind_ok (fitNat_eq (m := i + length + n) (by omega) (contains_unsigned.2 (by omega)) s), if_pos hle,
      bind_ok (fitNat_eq (m := length + n) (by omega) (contains_unsigned.2 (by omega)) s)]
    rfl
  · simp only [toText, TextBuilder.extend, List.drop_drop, Nat.add_assoc]
    rw [List.take_add, List.drop_drop]

theorem finish_eq (hdoc : doc.length < 2 ^ 31) (h : b.Fits doc start) (s : State) :
    b.finish doc s = .ok ((b.toText doc).finish, s) := by
  cases b with
  | borrowed i length =>
      rw [finish, bind_ok (span_eq hdoc (h.1 ▸ h.2) s)]
      rfl
  | owned buffer => rfl

end Builder

/-! ## Runs -/

/-- How many bytes the document has from a place on that stand for themselves. -/
def plainCount (doc : Bytes) (i : Nat) : Nat := ((doc.drop i).takeWhile isPlain).length

theorem add_plainCount_le {i : Nat} (h : i ≤ doc.length) : i + plainCount doc i ≤ doc.length := by
  have hle := (List.takeWhile_sublist isPlain (l := doc.drop i)).length_le
  rw [List.length_drop] at hle
  rw [plainCount]
  omega

theorem drop_plainCount (doc : Bytes) (i : Nat) : doc.drop (i + plainCount doc i) = (doc.drop i).dropWhile isPlain := by
  rw [plainCount, ← List.drop_drop, drop_length_takeWhile]

theorem take_plainCount (doc : Bytes) (i : Nat) :
    (doc.drop i).take (plainCount doc i) = (doc.drop i).takeWhile isPlain :=
  (List.prefix_iff_eq_take.1 (List.takeWhile_prefix isPlain)).symm

/-- The loop goes over plain bytes with its builder as it is. -/
theorem Good.loop_plain (h : Good doc s) (b : Builder) (start : Nat) :
    loop doc (contentTurn doc) (b, start) s =
      loop doc (contentTurn doc) (b, start) (s.at (s.idx + plainCount doc s.idx)) := by
  induction hn : plainCount doc s.idx generalizing s with
  | zero => rfl
  | succ n ih =>
      obtain ⟨-, -, hdrop⟩ | ⟨c, hi, hget, hdrop⟩ := ahead_cases h.idx_le
      · simp [plainCount, hdrop] at hn
      · rw [plainCount, hdrop, List.takeWhile_cons] at hn
        cases hc : isPlain c with
        | false => simp [hc] at hn
        | true =>
            rw [hc, if_pos rfl, List.length_cons] at hn
            obtain ⟨hcontrol, hquote, hbackslash⟩ : ¬ c < 0x20 ∧ c ≠ quote ∧ c ≠ backslash := by
              simpa [isPlain, and_assoc] using hc
            have hturn : contentTurn doc (b, start) s = .ok (.again (b, start), s.at (s.idx + 1)) := by
              rw [contentTurn, bind_ok (peek_eq doc s), hget]
              dsimp only
              rw [if_neg hquote, if_neg hbackslash, if_neg hcontrol, bind_ok (h.advance_eq hi)]
              rfl
            have hnext := ih (h.at (Nat.le_succ s.idx) hi) (Nat.succ_inj.1 hn)
            rw [loop_again hturn (Nat.lt_succ_self s.idx) hi, hnext, State.idx_at, State.at_at,
              Nat.succ_add_eq_add_succ]

/-- What a builder makes of the run of plain bytes in front of the machine, and what the reader makes of it. -/
inductive FlushCase (doc : Bytes) (b : Builder) (start : Nat) (s : State) : Prop where
  | taken {run b'} (hr : Literal.checkRun (doc.drop start) = .ok run) (hm : flushRun doc b start s = .ok (b', s))
      (htext : b'.toText doc = (b.toText doc).appendRun run) (hfits : b'.Fits doc s.idx)
  | noText {place} (hlo : s.lineStart ≤ place) (hhi : place ≤ doc.length)
      (hr : Literal.checkRun (doc.drop start) = .error ⟨.malformed, doc.drop place⟩)
      (hm : flushRun doc b start s = .error (.error (s.error .malformed place)))

theorem Good.flushRun_cases (h : Good doc s) (hb : b.Fits doc start) (hline : s.lineStart ≤ start)
    (hrun : s.idx = start + plainCount doc start) : FlushCase doc b start s := by
  have hi := h.idx_le
  have hlt := h.length_lt
  have hslice := slice_eq (show start ≤ s.idx by omega) hi s
  have hlength : s.idx - start = plainCount doc start := by omega
  rw [hlength, take_plainCount] at hslice
  obtain ⟨x, hread⟩ : ∃ x, Literal.checkRun (doc.drop start) = x := ⟨_, rfl⟩
  obtain ⟨y, hflush⟩ : ∃ y, flushRun doc b start s = y := ⟨_, rfl⟩
  have hx := hread
  have hy := hflush
  rw [Literal.checkRun] at hx
  rw [flushRun, bind_ok (get_eq s), bind_ok hslice] at hy
  generalize hrest : (doc.drop start).takeWhile isPlain = run at *
  have hcount : plainCount doc start = run.length := by rw [plainCount, hrest]
  have hvalid : Utf8.validLength run ≤ run.length := Nat.sub_le _ _
  by_cases hempty : run.isEmpty = true
  · obtain rfl := List.isEmpty_iff.1 hempty
    rw [if_pos (show Utf8.validLength [] = List.length [] from Nat.le_zero.1 hvalid)] at hx
    refine .taken (hread.trans hx.symm) (hflush.trans hy.symm) ?_ (by rwa [hrun, hcount])
    cases b with
    | borrowed i length => simp [Builder.toText, TextBuilder.appendRun, TextBuilder.isBorrowed, TextBuilder.extend]
    | owned buffer =>
        have hcapacity : ¬ buffer.capacity < buffer.bytes.size := Nat.not_lt.2 hb.1
        simp [Builder.toText, TextBuilder.appendRun, TextBuilder.isBorrowed, TextBuilder.append, TextBuilder.buffer,
          ByteBuffer.append, hcapacity]
  · rw [if_neg hempty] at hy
    by_cases hutf : Utf8.validLength run = run.length
    · rw [if_pos hutf] at hx hy
      cases b with
      | borrowed i length =>
          obtain ⟨b', heq, htext, hfits⟩ := Builder.extendInPlace_eq hlt hb (n := run.length) (by omega) s
          exact .taken (hread.trans hx.symm) (hflush.trans (hy.symm.trans heq)) htext (by rwa [hrun, hcount])
      | owned buffer =>
          obtain ⟨b', heq, htext, hfits⟩ := Builder.append_eq hlt hb (show start + run.length ≤ s.idx by omega) hi s
          exact .taken (hread.trans hx.symm) (hflush.trans (hy.symm.trans heq)) htext hfits
    · have hplace := fitNat_eq (t := usize) (n := start + Utf8.validLength run) rfl (contains_unsigned.2 (by omega)) s
      rw [if_neg hutf] at hx hy
      rw [List.drop_drop] at hx
      rw [bind_ok hplace, h.errorAt_eq (by omega) (by omega)] at hy
      exact .noText (by omega) (by omega) (hread.trans hx.symm) (hflush.trans hy.symm)

/-! ## Contents -/

/-- No escape is shorter than the bytes that it stands for. -/
theorem length_le_of_escapeText {e bs : Bytes} (h : EscapeText e bs) : bs.length ≤ e.length := by
  cases h with
  | simple _ => simp
  | byte _ => simp
  | @char s u c h hc =>
      obtain ⟨v, hv, -⟩ := h
      have hsize := c.utf8Size_le_four
      simp only [String.length_utf8EncodeChar, List.length_cons, hv.length_eq]
      omega
  | @pair s s' u u' h h' hu hu' =>
      obtain ⟨v, hv, -⟩ := h
      have hsize := (Utf16.pairChar u u').utf8Size_le_four
      simp only [String.length_utf8EncodeChar, List.length_cons, List.length_append, hv.length_eq]
      omega

theorem content_eq (b : TextBuilder) (r : Bytes) :
    Literal.content b r =
      match r.dropWhile isPlain with
      | [] => .error ⟨.malformed, []⟩
      | c :: r' =>
          if c = quote then do
            let run ← Literal.checkRun r
            match (b.appendRun run).finish with
            | .ok t => return (t, r')
            | .error _ => .error ⟨.invalidEscape, c :: r'⟩
          else if c = backslash then do
            let run ← Literal.checkRun r
            let (bs, r') ← Literal.escape (c :: r') r'
            Literal.content ((b.appendRun run).append bs) r'
          else .error ⟨.malformed, c :: r'⟩ := by
  rw [Literal.content]
  split
  · rename_i hs
    rw [hs]
  · rename_i c r' hs
    conv =>
      rhs
      rw [hs]
    dsimp only
    split
    · rfl
    · split
      · cases Literal.checkRun r with
        | error f => rfl
        | ok run =>
            dsimp only
            split <;> rename_i he <;> rw [he] <;> rfl
      · rfl

theorem Good.reads_closing (h : Good doc s) (hi : s.idx < doc.length) (hflush : FlushCase doc b start s) :
    Reads doc s
      (do
        let run ← Literal.checkRun (doc.drop start)
        match ((b.toText doc).appendRun run).finish with
        | .ok t => return (t, doc.drop (s.idx + 1))
        | .error _ => .error ⟨.invalidEscape, doc.drop s.idx⟩)
      (closing doc (b, start) s) := by
  rw [closing]
  cases hflush with
  | @taken run b' hr hm htext hfits =>
      rw [hr, ok_bind, bind_ok hm, bind_ok (b'.finish_eq h.length_lt hfits s), htext]
      cases ((b.toText doc).appendRun run).finish with
      | ok t =>
          dsimp only
          rw [bind_ok (h.advance_eq hi)]
          exact .ok (Nat.le_succ _) hi
      | error n => exact h.reads_report .invalidEscape
  | noText hlo hhi hr hm =>
      rw [hr, bind_error hm]
      exact .error hlo hhi

theorem contentTurn_backslash (hget : doc[s.idx]? = some backslash) (b : Builder) (start : Nat) :
    contentTurn doc (b, start) s =
      (do
        let b ← flushRun doc b start
        let buffer ← b.convert doc
        let bs ← escape doc
        let b ← (Builder.owned buffer).append doc bs
        return .again (b, (← get).idx) : Act _) s := by
  rw [contentTurn, bind_ok (peek_eq doc s), hget]
  dsimp only
  rw [if_neg (by decide), if_pos rfl]

/-- Behind an escape the machine goes on with a builder that owns its bytes. -/
theorem Good.contentTurn_escape (h : Good doc s) {b' : Builder} {bs : Bytes} {i : Nat}
    (hget : doc[s.idx]? = some backslash) (hflush : flushRun doc b start s = .ok (b', s)) (hfits : b'.Fits doc s.idx)
    (hi : i ≤ doc.length)
    (hread : Literal.escape (doc.drop s.idx) (doc.drop (s.idx + 1)) = .ok (bs, doc.drop i))
    (hescape : escape doc s = .ok (bs, s.at i)) :
    s.idx < i ∧ ∃ b'', contentTurn doc (b, start) s = .ok (.again (b'', i), s.at i) ∧
      b''.toText doc = (b'.toText doc).append bs ∧ b''.Fits doc i := by
  obtain ⟨e, he, htext⟩ := eq_of_escape hread
  have hplace : s.idx + (backslash :: e).length = i := by
    have hlength := congrArg List.length he
    obtain ⟨hlt, -⟩ := List.getElem?_eq_some_iff.1 hget
    rw [List.length_append, List.length_drop, List.length_drop] at hlength
    rw [List.length_cons]
    omega
  have hle := length_le_of_escapeText htext
  obtain ⟨hcapacity, hsize⟩ := Builder.buffer_toText hfits
  have howned : (Builder.owned (b'.toText doc).buffer).Fits doc s.idx := ⟨hcapacity, hsize, h.idx_le⟩
  obtain ⟨b'', happend, htext'', hfits''⟩ :=
    Builder.append_eq h.length_lt howned (show s.idx + bs.length ≤ i by omega) hi (s.at i)
  refine ⟨by rw [← hplace, List.length_cons]; omega, b'', ?_, htext'', hfits''⟩
  rw [contentTurn_backslash hget, bind_ok hflush, bind_ok (b'.convert_eq h.length_lt hfits s), bind_ok hescape,
    bind_ok happend]
  rfl

theorem Good.reads_backslash (h : Good doc s) (hget : doc[s.idx]? = some backslash) (hflush : FlushCase doc b start s)
    (hnext : ∀ b' i, s.idx < i → i ≤ doc.length → b'.Fits doc i →
      Reads doc (s.at i) (Literal.content (b'.toText doc) (doc.drop i))
        ((loop doc (contentTurn doc) (b', i) >>= closing doc) (s.at i))) :
    Reads doc s
      (do
        let run ← Literal.checkRun (doc.drop start)
        let (bs, r) ← Literal.escape (doc.drop s.idx) (doc.drop (s.idx + 1))
        Literal.content (((b.toText doc).appendRun run).append bs) r)
      ((loop doc (contentTurn doc) (b, start) >>= closing doc) s) := by
  obtain ⟨hi, -⟩ := List.getElem?_eq_some_iff.1 hget
  cases hflush with
  | @taken run b' hr hm htext hfits =>
      rw [hr, ok_bind, ← htext]
      have hescape := h.reads_escape hi
      generalize hx : Literal.escape (doc.drop s.idx) (doc.drop (s.idx + 1)) = x at hescape ⊢
      generalize hy : escape doc s = y at hescape
      cases hescape with
      | @ok bs i hlo hhi =>
          obtain ⟨hlt, b'', hturn, htext'', hfits''⟩ := h.contentTurn_escape hget hm hfits hhi hx hy
          have hagain : loop doc (contentTurn doc) (b, start) s = loop doc (contentTurn doc) (b'', i) (s.at i) :=
            loop_again hturn hlt hhi
          rw [ok_bind, bind_congr_left hagain]
          dsimp only
          rw [← htext'']
          exact (hnext b'' i hlt hhi hfits'').mono hlo
      | @error code i hlo hhi =>
          have hturn : contentTurn doc (b, start) s = .error (.error (s.error code i)) := by
            rw [contentTurn_backslash hget, bind_ok hm, bind_ok (b'.convert_eq h.length_lt hfits s), bind_error hy]
          rw [bind_error (loop_error hturn)]
          exact .error hlo hhi
  | @noText i hlo hhi hr hm =>
      have hturn : contentTurn doc (b, start) s = .error (.error (s.error .malformed i)) := by
        rw [contentTurn_backslash hget, bind_error hm]
      rw [hr, bind_error (loop_error hturn)]
      exact .error hlo hhi

/-- A byte that ends a run and is neither a quote nor a backslash is an error, and so is the end of the document. -/
theorem Good.contentTurn_error (h : Good doc s) (hplain : ∀ c, doc[s.idx]? = some c → isPlain c = false)
    (hquote : doc[s.idx]? ≠ some quote) (hbackslash : doc[s.idx]? ≠ some backslash) (b : Builder) (start : Nat) :
    contentTurn doc (b, start) s = .error (.error (s.error .malformed s.idx)) := by
  rw [contentTurn, bind_ok (peek_eq doc s)]
  cases hget : doc[s.idx]? with
  | none => exact h.report_zero .malformed
  | some c =>
      rw [hget, Ne, Option.some.injEq] at hquote hbackslash
      have hcontrol : c < 0x20 := by simpa [isPlain, hquote, hbackslash] using hplain c hget
      dsimp only
      rw [if_neg hquote, if_neg hbackslash, if_pos hcontrol]
      exact h.report_zero .malformed

theorem Good.reads_content (h : Good doc s) (hb : b.Fits doc s.idx) :
    Reads doc s (Literal.content (b.toText doc) (doc.drop s.idx))
      ((loop doc (contentTurn doc) (b, s.idx) >>= closing doc) s) := by
  induction hn : doc.length - s.idx using Nat.strongRecOn generalizing s b with
  | ind n ih =>
      have hlo := Nat.le_add_right s.idx (plainCount doc s.idx)
      have hstop := add_plainCount_le h.idx_le
      have hend := h.at hlo hstop
      have hflush := hend.flushRun_cases hb h.lineStart_le rfl
      have hdropWhile := drop_plainCount doc s.idx
      rw [bind_congr_left (h.loop_plain b s.idx), content_eq, ← hdropWhile]
      refine Reads.mono ?_ hlo
      generalize s.idx + plainCount doc s.idx = stop at *
      by_cases hquote : doc[stop]? = some quote
      · obtain ⟨hi, -⟩ := List.getElem?_eq_some_iff.1 hquote
        have hturn : contentTurn doc (b, s.idx) (s.at stop) = .ok (.done (b, s.idx), s.at stop) := by
          rw [contentTurn, bind_ok (peek_eq doc (s.at stop)), State.idx_at, hquote]
          rfl
        rw [bind_ok (loop_done hturn), drop_of_getElem? hquote]
        dsimp only
        rw [if_pos rfl, ← drop_of_getElem? hquote]
        exact hend.reads_closing hi hflush
      · by_cases hbackslash : doc[stop]? = some backslash
        · rw [drop_of_getElem? hbackslash]
          dsimp only
          rw [if_neg (by decide), if_pos rfl, ← drop_of_getElem? hbackslash]
          refine hend.reads_backslash hbackslash hflush fun b' i hlt hhi hfits => ?_
          have hless : doc.length - i < n := by
            rw [State.idx_at] at hlt
            omega
          exact ih (doc.length - i) hless (hend.at (Nat.le_of_lt hlt) hhi) hfits rfl
        · have hplain (c : UInt8) (hc : doc[stop]? = some c) : isPlain c = false := by
            have hhead := List.head?_dropWhile_not isPlain (doc.drop s.idx)
            rwa [← hdropWhile, drop_of_getElem? hc] at hhead
          rw [bind_error (loop_error (hend.contentTurn_error hplain hquote hbackslash b s.idx))]
          split
          · rename_i hdrop
            rw [← hdrop]
            exact .error hend.lineStart_le hstop
          · rename_i c r hdrop
            have hget : doc[stop]? = some c := by rw [← List.head?_drop, hdrop, List.head?_cons]
            rw [hget, Option.some.injEq] at hquote hbackslash
            rw [if_neg hquote, if_neg hbackslash, ← hdrop]
            exact .error hend.lineStart_le hstop

theorem Good.reads_literal (h : Good doc s) (hi : s.idx < doc.length) :
    Reads doc s (Literal.read (doc.drop (s.idx + 1))) (literal doc s) := by
  have hnext := h.at (Nat.le_succ _) hi
  rw [literal, bind_ok (h.advance_eq hi), bind_ok (get_eq _), State.idx_at, Builder.new, if_pos (Nat.succ_le_of_lt hi)]
  refine Reads.mono ?_ (Nat.le_succ s.idx)
  exact hnext.reads_content (Builder.fits_new hi)

end JsonTree.Checked
