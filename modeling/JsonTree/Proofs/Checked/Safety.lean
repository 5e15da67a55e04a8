import JsonTree.Proofs.Checked.Layout
import JsonTree.Proofs.Checked.Literal
import JsonTree.Proofs.Position.Tracking

/-!
# No trap is sprung

Items and values are read in step as well. Each bracket that is open is a byte in front of the index, so the count of
them never leaves its type. From the start of a document on the machine gives what the reader gives, and is never
trapped.
-/

namespace JsonTree.Checked

open Byte Document

variable {α β γ : Type} {doc : Bytes} {s : State} {o : Options} {close : UInt8} {d : Int} {i : Nat}

/-! ## Items -/

/-- Behind a comma stands an item, or a closing bracket if the options allow it. -/
theorem Good.scans_behindComma (h : Good doc s) (hdepth : s.stackDepth = d) (hi : i ≤ s.idx) (o : Options)
    (close : UInt8) :
    Scans doc d i Prod.mk
      (match (s.cursor doc).rest with
      | [] => return (.item, s.cursor doc)
      | b :: r =>
          if b ≠ close then return (.item, s.cursor doc)
          else if o.contains .trailingCommas then return (.nothing, (s.cursor doc).goto r)
          else .error ((s.cursor doc).error .trailingComma (b :: r)))
      ((if doc[s.idx]? = some close then
          if o.contains .trailingCommas then do
            advance doc 1
            return .nothing
          else report .trailingComma 0
        else return .item : Act After) s) := by
  rw [rest_cursor]
  obtain ⟨-, hget, hdrop⟩ | ⟨b, hlt, hget, hdrop⟩ := ahead_cases h.idx_le
  · rw [hget, hdrop, if_neg (by simp)]
    exact .ok h hdepth hi
  · rw [hget, hdrop]
    dsimp only
    by_cases hclose : b = close
    · rw [if_neg (not_not_intro hclose), if_pos (congrArg some hclose)]
      cases o.contains .trailingCommas with
      | true =>
          rw [if_pos rfl, if_pos rfl, bind_ok (h.advance_eq hlt)]
          exact .ok (h.at (Nat.le_succ _) hlt) hdepth (Nat.le_succ_of_le hi)
      | false =>
          rw [if_neg (by simp), if_neg (by simp), ← hdrop]
          exact h.scans_report .trailingComma
    · rw [if_pos hclose, if_neg fun h => hclose (Option.some.inj h)]
      exact .ok h hdepth hi

theorem Good.scans_afterItem (h : Good doc s) (o : Options) (close : UInt8) :
    Scans doc s.stackDepth (s.idx + 1) Prod.mk (Scanner.afterItem o close (s.cursor doc))
      (afterItem doc o close s) := by
  rw [Scanner.afterItem, afterItem]
  refine h.scans_layout.bind fun _ t ht hdepth hle => ?_
  rw [bind_ok (peek_eq doc t), rest_cursor]
  obtain ⟨-, hget, hdrop⟩ | ⟨b, hi, hget, hdrop⟩ := ahead_cases ht.idx_le
  · rw [hget, hdrop]
    dsimp only
    rw [← hdrop]
    exact ht.scans_report .malformed
  · have hnext := ht.at (Nat.le_succ t.idx) hi
    rw [hget, hdrop]
    dsimp only
    by_cases hclose : b = close
    · rw [if_pos hclose, if_pos hclose, bind_ok (ht.advance_eq hi)]
      exact .ok hnext hdepth (Nat.succ_le_succ hle)
    · rw [if_neg hclose, if_neg hclose]
      by_cases hcomma : b = comma
      · rw [if_pos hcomma, if_pos hcomma, bind_ok (ht.advance_eq hi)]
        refine hnext.scans_layout.bind fun _ u hu hdepth' hle' => ?_
        have hlt : s.idx < u.idx := Nat.lt_of_le_of_lt hle hle'
        rw [bind_ok (peek_eq doc u)]
        exact hu.scans_behindComma (hdepth'.trans hdepth) hlt o close
      · rw [if_neg hcomma, if_neg hcomma, ← hdrop]
        exact ht.scans_report .malformed

/-- Items are read in step if each of them is. -/
theorem Good.scans_items {item : β → Scanner.Scan β} {item' : β → Act β}
    (hitem : ∀ acc {t}, Good doc t → t.stackDepth = d → i ≤ t.idx →
      Scans doc d (t.idx + 1) Prod.mk (item acc (t.cursor doc)) (item' acc t))
    (h : Good doc s) (hdepth : s.stackDepth = d) (hi : i ≤ s.idx) (acc : β) :
    Scans doc d (s.idx + 1) Prod.mk (Scanner.items o close item acc (s.cursor doc))
      (loop doc (itemTurn doc o close item') acc s) := by
  induction hn : doc.length - s.idx using Nat.strongRecOn generalizing s acc with
  | ind n ih =>
      have hscans := hitem acc h hdepth hi
      rw [Scanner.items]
      generalize item acc (s.cursor doc) = x at hscans
      generalize hy : item' acc s = y at hscans
      cases hscans with
      | error e =>
          have hturn : itemTurn doc o close item' acc s = .error (.error e) := by rw [itemTurn, bind_error hy]
          rw [loop_error hturn]
          exact .error e
      | @ok acc' t ht hdepth' hlt =>
          have hafter := ht.scans_afterItem o close
          dsimp only
          generalize Scanner.afterItem o close (t.cursor doc) = x' at hafter
          generalize hy' : afterItem doc o close t = y' at hafter
          cases hafter with
          | error e =>
              have hturn : itemTurn doc o close item' acc s = .error (.error e) := by
                rw [itemTurn, bind_ok hy, bind_error hy']
              rw [loop_error hturn]
              exact .error e
          | @ok a u hu hdepth'' hlt' =>
              have hidx := hu.idx_le
              cases a with
              | nothing =>
                  have hturn : itemTurn doc o close item' acc s = .ok (.done acc', u) := by
                    rw [itemTurn, bind_ok hy, bind_ok hy']
                    rfl
                  rw [loop_done hturn]
                  exact .ok hu (hdepth''.trans hdepth') (by omega)
              | item =>
                  have hturn : itemTurn doc o close item' acc s = .ok (.again acc', u) := by
                    rw [itemTurn, bind_ok hy, bind_ok hy']
                    rfl
                  have hshorter : (u.cursor doc).rest.length < (s.cursor doc).rest.length := by
                    rw [rest_cursor, rest_cursor, List.length_drop, List.length_drop]
                    omega
                  dsimp only
                  rw [loop_again hturn (by omega) hidx, if_pos hshorter]
                  exact (ih _ (by omega) hu (hdepth''.trans hdepth') (by omega) acc' rfl).mono (by omega)

/-! ## Brackets -/

/-- The state with a bracket more that is open. -/
def State.opened (s : State) : State := { s with stackDepth := s.stackDepth + 1 }

/-- The state with a bracket fewer that is open. -/
def State.closed (s : State) : State := { s with stackDepth := s.stackDepth - 1 }

/-- Brackets that are open stand in front of the index. -/
structure Nested (s : State) : Prop where
  nonneg : 0 ≤ s.stackDepth
  le_idx : s.stackDepth ≤ s.idx

theorem Nested.after {t : State} (h : Nested s) (hdepth : t.stackDepth = s.stackDepth) (hle : s.idx ≤ t.idx) :
    Nested t := by
  have hnonneg := h.nonneg
  have hle' := h.le_idx
  exact ⟨by omega, by omega⟩

theorem Good.opened (h : Good doc s) : Good doc s.opened := ⟨h.length_lt, h.idx_le, h.lineStart_le, h.lineNumber_le⟩

theorem Good.closed (h : Good doc s) : Good doc s.closed := ⟨h.length_lt, h.idx_le, h.lineStart_le, h.lineNumber_le⟩

theorem Good.enter_eq (h : Good doc s) (hn : Nested s) (hi : s.idx < doc.length) (hroom : s.stackDepth < o.depthLimit) :
    enter o s = .ok ((), s.opened) := by
  have hlt := h.length_lt
  have hnonneg := hn.nonneg
  have hle := hn.le_idx
  rw [enter, bind_ok (get_eq s), bind_ok (fit_eq (contains_signed.2 (by omega)) s), if_neg (by omega)]
  rfl

theorem Good.enter_tooDeep (h : Good doc s) (hn : Nested s) (hi : s.idx < doc.length)
    (hroom : o.depthLimit ≤ s.stackDepth) : enter o s = .error (.error (s.error .tooMuchNesting s.idx)) := by
  have hlt := h.length_lt
  have hnonneg := hn.nonneg
  have hle := hn.le_idx
  rw [enter, bind_ok (get_eq s), bind_ok (fit_eq (contains_signed.2 (by omega)) s), if_pos (by omega)]
  exact h.opened.report_zero .tooMuchNesting

theorem leave_eq (hnonneg : 0 ≤ s.stackDepth) (hlt : s.stackDepth ≤ 2 ^ 31) : leave s = .ok ((), s.closed) := by
  rw [leave, bind_ok (get_eq s), bind_ok (fit_eq (contains_signed.2 (by omega)) s)]
  rfl

theorem Scans.leave {x : Except ParseError (β × Scanner.Cursor)} {m : Act β} (hd : 0 ≤ d) (hlt : d < 2 ^ 31)
    (h : Scans doc (d + 1) i Prod.mk x (m s)) :
    Scans doc d i Prod.mk x ((do let a ← m; Checked.leave; return a) s) := by
  rw [← bind_pure x]
  refine h.bind fun a t ht hdepth hle => ?_
  rw [bind_ok (leave_eq (by omega) (by omega))]
  refine .ok ht.closed ?_ hle
  rw [State.closed, hdepth]
  exact Int.add_sub_cancel d 1

theorem Good.scans_bracketed (h : Good doc s) (hn : Nested s) (hi : s.idx < doc.length)
    (hroom : s.stackDepth < o.depthLimit) {item : β → Scanner.Scan β} {item' : β → Act β}
    (hitem : ∀ acc {t}, Good doc t → t.stackDepth = s.stackDepth + 1 → s.idx + 1 ≤ t.idx →
      Scans doc (s.stackDepth + 1) (t.idx + 1) Prod.mk (item acc (t.cursor doc)) (item' acc t)) (none : β) :
    Scans doc s.stackDepth (s.idx + 1) Prod.mk
      (Scanner.bracketed o close item none ((s.cursor doc).goto (doc.drop (s.idx + 1))))
      (bracketed doc o close item' none s) := by
  have hlt : s.stackDepth < 2 ^ 31 := by
    have hlength := h.length_lt
    have hle := hn.le_idx
    omega
  rw [bracketed, bind_ok (h.enter_eq hn hi hroom), bind_ok (h.opened.advance_eq hi), Scanner.bracketed]
  refine (h.opened.at (Nat.le_succ s.idx) hi).scans_layout.bind fun _ t ht hdepth hle => ?_
  rw [bind_ok (peek_eq doc t), rest_cursor]
  have hitems : Scans doc s.stackDepth (s.idx + 1) Prod.mk (Scanner.items o close item none (t.cursor doc)) _ :=
    ((ht.scans_items hitem hdepth hle none).leave hn.nonneg hlt).mono (Nat.le_succ_of_le hle)
  obtain ⟨-, hget, hdrop⟩ | ⟨b, hi', hget, hdrop⟩ := ahead_cases ht.idx_le
  · rw [hget, hdrop, if_neg (by simp)]
    exact hitems
  · rw [hget, hdrop]
    dsimp only
    by_cases hclose : b = close
    · have hnext := ht.at (Nat.le_succ t.idx) hi'
      have hclosed : (t.at (t.idx + 1)).closed.stackDepth = s.stackDepth := by
        rw [State.closed]
        exact (congrArg (· - 1) hdepth).trans (Int.add_sub_cancel _ 1)
      have hnonneg : 0 ≤ t.stackDepth := by
        rw [hdepth]
        exact Int.add_nonneg hn.nonneg Int.one_nonneg
      have hle' : t.stackDepth ≤ 2 ^ 31 := by
        rw [hdepth]
        exact hlt
      rw [if_pos hclose, if_pos (congrArg some hclose), bind_ok (ht.advance_eq hi'),
        bind_ok (leave_eq (s := t.at (t.idx + 1)) hnonneg hle')]
      exact .ok hnext.closed hclosed (Nat.le_succ_of_le hle)
    · rw [if_neg hclose, if_neg fun h => hclose (Option.some.inj h)]
      exact hitems

theorem Good.bracketed_tooDeep (h : Good doc s) (hn : Nested s) (hi : s.idx < doc.length)
    (hroom : o.depthLimit ≤ s.stackDepth) (item : β → Act β) (none : β) :
    bracketed doc o close item none s = .error (.error (s.error .tooMuchNesting s.idx)) := by
  rw [bracketed, bind_error (h.enter_tooDeep hn hi hroom)]

/-! ## Members -/

theorem Good.scans_colon (h : Good doc s) :
    Scans doc s.stackDepth (s.idx + 1) (fun _ c => c) (Scanner.skipColon (s.cursor doc)) (colonBetween doc s) := by
  rw [Scanner.skipColon, colonBetween]
  refine h.scans_layout.bind fun _ t ht hdepth hle => ?_
  rw [bind_ok (peek_eq doc t), rest_cursor]
  obtain ⟨-, hget, hdrop⟩ | ⟨b, hi, hget, hdrop⟩ := ahead_cases ht.idx_le
  · rw [hget, hdrop, if_neg (by simp)]
    dsimp only
    rw [← hdrop]
    exact ht.scans_report .malformed
  · rw [hget, hdrop]
    dsimp only
    by_cases hcolon : b = colon
    · rw [if_pos hcolon, if_pos (congrArg some hcolon), ht.advance_eq hi]
      exact .ok (ht.at (Nat.le_succ _) hi) hdepth (Nat.succ_le_succ hle)
    · rw [if_neg hcolon, if_neg fun h => hcolon (Option.some.inj h), ← hdrop]
      exact ht.scans_report .malformed

/-- From `i` on, with `d` brackets open, values are read in step. -/
def ScansValues (doc : Bytes) (d : Int) (i : Nat) (scan : Scanner.Scan Value) (act : Act Value) : Prop :=
  ∀ {t}, Good doc t → t.stackDepth = d → i ≤ t.idx → Scans doc d (t.idx + 1) Prod.mk (scan (t.cursor doc)) (act t)

variable {scan : Scanner.Scan Value} {act : Act Value}

theorem scans_element (hvalue : ScansValues doc d i scan act) (before : Elements) (h : Good doc s)
    (hdepth : s.stackDepth = d) (hi : i ≤ s.idx) :
    Scans doc d (s.idx + 1) Prod.mk (Scanner.element scan before (s.cursor doc)) (element act before s) := by
  refine (hvalue h hdepth hi).bind fun v t ht hdepth hle => ?_
  exact .ok ht hdepth hle

theorem scans_member (o : Options) (hvalue : ScansValues doc d i scan act) (before : Members) (h : Good doc s)
    (hdepth : s.stackDepth = d) (hi : i ≤ s.idx) :
    Scans doc d (s.idx + 1) Prod.mk (Scanner.member o scan before (s.cursor doc)) (member doc o act before s) := by
  rw [Scanner.member, member, bind_ok (peek_eq doc s), rest_cursor]
  obtain ⟨-, hget, hdrop⟩ | ⟨b, hlt, hget, hdrop⟩ := ahead_cases h.idx_le
  · rw [hget, hdrop]
    dsimp only
    rw [← hdrop]
    exact h.scans_report .malformed
  · rw [hget, hdrop]
    dsimp only
    by_cases hquote : b = quote
    · rw [if_neg (not_not_intro hquote), if_pos hquote, bind_ok (get_eq s)]
      refine h.scans_token_bind (h.reads_literal hlt) (Nat.le_succ _) Literal.length_lt_of_read fun key j hj hle => ?_
      have hnext := h.at (Nat.le_of_lt hj) hle
      dsimp only
      rw [← hdrop]
      cases o.contains .uniqueKeys && Entries.contains key.content before with
      | true =>
          -- A key that is there already is reported at its quote, which is on the same line.
          have hline : (s.at j).lineStart ≤ s.idx := h.lineStart_le
          rw [if_pos rfl, if_pos rfl, hnext.error_cursor .malformed hline h.idx_le, hnext.errorAt_eq hline h.idx_le]
          exact .error _
      | false =>
          rw [if_neg (by simp), if_neg (by simp)]
          refine hnext.scans_colon.bind fun _ t ht hdepth' hlt' => ?_
          have hidx : j < t.idx := hlt'
          refine (hvalue ht (hdepth'.trans hdepth) (by omega)).bind fun v u hu hdepth'' hlt'' => ?_
          exact .ok hu hdepth'' (by omega)
    · rw [if_pos hquote, if_neg hquote, ← hdrop]
      exact h.scans_report .unquotedKey

/-! ## Values -/

/-- What reads the values inside the brackets that come next. There is nothing if these brackets are too deep. -/
inductive Inside (doc : Bytes) (o : Options) (s : State) (act : Act Value) : Option (Scanner.Scan Value) → Prop where
  | tooDeep (h : o.depthLimit ≤ s.stackDepth) : Inside doc o s act none
  | values {scan : Scanner.Scan Value} (h : s.stackDepth < o.depthLimit)
      (hvalue : ScansValues doc (s.stackDepth + 1) (s.idx + 1) scan act) : Inside doc o s act (some scan)

variable {inner : Option (Scanner.Scan Value)}

theorem Inside.after {t : State} (h : Inside doc o s act inner) (hdepth : t.stackDepth = s.stackDepth)
    (hle : s.idx ≤ t.idx) : Inside doc o t act inner := by
  cases h with
  | tooDeep h => exact .tooDeep (hdepth ▸ h)
  | values h hvalue =>
      refine .values (hdepth ▸ h) fun hu hdepth' hle' => ?_
      rw [hdepth] at hdepth' ⊢
      exact hvalue hu hdepth' (Nat.le_trans (Nat.succ_le_succ hle) hle')

theorem Good.scans_array (h : Good doc s) (hn : Nested s) (hi : s.idx < doc.length)
    (hroom : s.stackDepth < o.depthLimit) (hvalue : ScansValues doc (s.stackDepth + 1) (s.idx + 1) scan act) :
    Scans doc s.stackDepth (s.idx + 1) Prod.mk
      (Scanner.array o scan ((s.cursor doc).goto (doc.drop (s.idx + 1)))) (array doc o act s) := by
  refine (h.scans_bracketed hn hi hroom (fun acc _ => scans_element hvalue acc) []).bind fun vs t ht hdepth hle => ?_
  exact .ok ht hdepth hle

theorem Good.scans_object (h : Good doc s) (hn : Nested s) (hi : s.idx < doc.length)
    (hroom : s.stackDepth < o.depthLimit) (hvalue : ScansValues doc (s.stackDepth + 1) (s.idx + 1) scan act) :
    Scans doc s.stackDepth (s.idx + 1) Prod.mk
      (Scanner.object o scan ((s.cursor doc).goto (doc.drop (s.idx + 1)))) (object doc o act s) := by
  refine (h.scans_bracketed hn hi hroom (fun acc _ => scans_member o hvalue acc) []).bind fun ms t ht hdepth hle => ?_
  exact .ok ht hdepth hle

theorem Good.scans_tooDeep (h : Good doc s) (hn : Nested s) (hi : s.idx < doc.length)
    (hroom : o.depthLimit ≤ s.stackDepth) {view : α → Scanner.Cursor → γ} (item : β → Act β) (none : β)
    (f : β → Act α) :
    Scans doc d i view (.error ((s.cursor doc).error .tooMuchNesting (doc.drop s.idx)))
      ((bracketed doc o close item none >>= f) s) := by
  rw [bind_error (h.bracketed_tooDeep hn hi hroom item none), h.error_cursor _ h.lineStart_le h.idx_le]
  exact .error _

theorem Good.reads_string (h : Good doc s) (hi : s.idx < doc.length) (o : Options) :
    Reads doc s (Document.string o (doc.drop (s.idx + 1))) (string doc o s) :=
  (h.reads_literal hi).map fun _ _ _ => rfl

theorem Good.scans_readValue (h : Good doc s) (hn : Nested s) (hinside : Inside doc o s act inner) :
    Scans doc s.stackDepth (s.idx + 1) Prod.mk (Scanner.readValue o inner (s.cursor doc)) (readValue doc o act s) := by
  rw [Scanner.readValue, readValue]
  refine h.scans_layout.bind fun _ t ht hdepth hle => ?_
  have hinside := hinside.after hdepth hle
  have hn := hn.after hdepth hle
  rw [← hdepth]
  refine Scans.mono (i := t.idx + 1) ?_ (Nat.succ_le_succ hle)
  rw [bind_ok (peek_eq doc t), rest_cursor]
  obtain ⟨-, hget, hdrop⟩ | ⟨b, hi, hget, hdrop⟩ := ahead_cases ht.idx_le
  · rw [hget, hdrop]
    dsimp only
    rw [← hdrop]
    exact ht.scans_report .malformed
  · rw [hget, hdrop]
    dsimp only
    rw [← hdrop]
    split
    · cases hinside with
      | tooDeep hroom => exact ht.scans_tooDeep hn hi hroom _ _ _
      | values hroom hvalue => exact ht.scans_array hn hi hroom hvalue
    · split
      · cases hinside with
        | tooDeep hroom => exact ht.scans_tooDeep hn hi hroom _ _ _
        | values hroom hvalue => exact ht.scans_object hn hi hroom hvalue
      · split
        · exact ht.scans_token (ht.reads_string hi o) (Nat.le_succ _) length_lt_of_string
        · split
          · exact ht.scans_token (i := t.idx) (ht.reads_number o hi) (Nat.le_refl _) length_lt_of_number
          · have hword {w : Bytes} (hw : 0 < w.length) (v : Value) : Scans doc t.stackDepth (t.idx + 1) Prod.mk
                (Scanner.token (Word.value w v) (t.cursor doc)) (word doc v w t) :=
              ht.scans_token (i := t.idx) (ht.reads_word v w) (Nat.le_refl _) (Word.length_lt_of_value hw)
            split
            · exact hword (by decide) _
            · split
              · exact hword (by decide) _
              · split
                · exact hword (by decide) _
                · exact ht.scans_report .malformed

/-- A scan with room for arrays and objects has the same room as the machine if this room is what the limit leaves. -/
theorem exists_inside (doc : Bytes) (s : State) (act : Act Value) (o : Options)
    (hvalue : ∀ {t}, Good doc t → t.stackDepth = s.stackDepth + 1 → s.idx + 1 ≤ t.idx →
      Scans doc t.stackDepth (t.idx + 1) Prod.mk
        (Scanner.value o (o.depthLimit - t.stackDepth).toNat (t.cursor doc)) (act t)) :
    ∃ inner, Scanner.value o (o.depthLimit - s.stackDepth).toNat = Scanner.readValue o inner ∧
      Inside doc o s act inner := by
  rcases Int.lt_or_le s.stackDepth o.depthLimit with hlt | hge
  · have hroom : (o.depthLimit - s.stackDepth).toNat = (o.depthLimit - (s.stackDepth + 1)).toNat + 1 := by omega
    refine ⟨some _, by rw [hroom, Scanner.value], .values hlt fun {t} ht hdepth hle => ?_⟩
    have hscans := hvalue ht hdepth hle
    rwa [hdepth] at hscans
  · have hroom : (o.depthLimit - s.stackDepth).toNat = 0 := by omega
    exact ⟨none, by rw [hroom, Scanner.value], .tooDeep hge⟩

/-- Values are read in step, with as much room inside brackets as the limit leaves. -/
theorem Good.scans_value (h : Good doc s) (hn : Nested s) (o : Options) :
    Scans doc s.stackDepth (s.idx + 1) Prod.mk
      (Scanner.value o (o.depthLimit - s.stackDepth).toNat (s.cursor doc)) (value doc o s) := by
  induction hm : doc.length - s.idx using Nat.strongRecOn generalizing s with
  | ind m ih =>
      rw [value.eq_def]
      dsimp only
      generalize hact : (fun t : State => if s.idx < t.idx ∧ t.idx ≤ doc.length then value doc o t
        else .error (.trap .stalled) : Act Value) = act
      obtain ⟨inner, hinner, hinside⟩ := exists_inside doc s act o fun {t} ht hdepth hle => by
        have hidx := ht.idx_le
        have hnonneg := hn.nonneg
        have hle' := hn.le_idx
        rw [← hact]
        dsimp only
        rw [if_pos ⟨hle, hidx⟩]
        exact ih _ (by omega) ht ⟨by omega, by omega⟩ rfl
      have hscans := h.scans_readValue hn hinside
      rw [hinner]
      generalize Scanner.readValue o inner (s.cursor doc) = x at hscans
      generalize readValue doc o act s = y at hscans
      cases hscans with
      | error e => exact .error e
      | ok ht hdepth hlt =>
          dsimp only
          rw [if_pos (Nat.lt_of_succ_le hlt)]
          exact .ok ht hdepth hlt

/-! ## Documents -/

theorem good_start (h : doc.length < 2 ^ 31) : Good doc {} := ⟨h, Nat.zero_le _, Nat.le_refl _, Nat.le_refl _⟩

theorem nested_start : Nested {} := ⟨Int.le_refl _, Int.le_refl _⟩

theorem scans_document (h : doc.length < 2 ^ 31) (o : Options) :
    Scans doc 0 1 (fun v _ => v) (Scanner.parse o doc) (document doc o {}) := by
  have hvalue := (good_start h).scans_value nested_start o
  rw [Int.sub_zero] at hvalue
  refine hvalue.bind fun v t ht hdepth hle => ?_
  refine ht.scans_layout.bind fun _ u hu hdepth' hle' => ?_
  rw [bind_ok (get_eq u), rest_cursor]
  obtain ⟨heq, -, hdrop⟩ | ⟨b, hlt, -, hdrop⟩ := ahead_cases hu.idx_le
  · rw [hdrop, if_pos List.isEmpty_nil, if_neg (Nat.not_lt.2 (Nat.le_of_eq heq.symm))]
    exact .ok hu (hdepth'.trans hdepth) (Nat.le_trans hle hle')
  · rw [hdrop, if_neg (by simp), if_pos hlt, ← hdrop]
    exact hu.scans_report .dataAfterRoot

/-- The machine that checks each of its steps reads what is read without the checks. So it is never trapped: no number
leaves its type, no slice the document, and no loop stands still. From wherever the machine stands it reads a value, and
then its index is greater, or it finds an error of the document. -/
theorem parse_without_trap (h : doc.length < 2 ^ 31) (o : Options) :
    Checked.parse doc o = (Value.parse o doc).mapError Stop.error ∧
    ∀ {s}, Good doc s → Nested s →
      (∃ e, value doc o s = .error (.error e)) ∨
      ∃ v s', value doc o s = .ok (v, s') ∧ Good doc s' ∧ s.idx < s'.idx ∧ s'.stackDepth = s.stackDepth := by
  constructor
  · have hscans := scans_document h o
    have hsize : UInt32.size = 2 ^ 32 := rfl
    rw [Scanner.parse_eq (by omega)] at hscans
    rw [Checked.parse, StateT.run']
    generalize Value.parse o doc = x at hscans
    generalize document doc o {} = y at hscans
    cases hscans with
    | ok => rfl
    | error e => rfl
  · intro s hs hn
    have hscans := hs.scans_value hn o
    generalize Scanner.value o (o.depthLimit - s.stackDepth).toNat (s.cursor doc) = x at hscans
    generalize value doc o s = y at hscans
    cases hscans with
    | ok ht hdepth hlt => exact .inr ⟨_, _, rfl, ht, hlt, hdepth⟩
    | error e => exact .inl ⟨e, rfl⟩

/-- A comment with a line feed, and two escapes for one character. -/
def surrogates : Bytes :=
  Word.spell ['[', '/', '*', '\n', '*', '/', '"', '\\', 'u', 'd', '8', '3', 'd', '\\', 'u', 'd', 'e', '0', '0', '"',
    ']']

theorem parse_without_trap_surrogates :
    surrogates.length < 2 ^ 31 ∧
    Checked.parse surrogates {} = .ok (.array [.string ⟨"😀", .owned⟩]) ∧
    Checked.parse surrogates (Options.withDepthLimit {} (-2 ^ 31)) = .error (.error ⟨.tooMuchNesting, 1, 1⟩) ∧
    ∃ v s', value surrogates {} {} = .ok (v, s') ∧ 0 < s'.idx := by
  have hlength : surrogates.length < 2 ^ 31 := by decide
  have hok : Value.parse {} surrogates = .ok (.array [.string ⟨"😀", .owned⟩]) := by with_unfolding_all rfl
  have herror : Value.parse (Options.withDepthLimit {} (-2 ^ 31)) surrogates = .error ⟨.tooMuchNesting, 1, 1⟩ := by
    with_unfolding_all rfl
  obtain ⟨hparse, hvalue⟩ := parse_without_trap hlength {}
  obtain ⟨hparse', -⟩ := parse_without_trap hlength (Options.withDepthLimit {} (-2 ^ 31))
  rw [hok] at hparse
  rw [herror] at hparse'
  refine ⟨hlength, hparse, hparse', ?_⟩
  obtain ⟨e, he⟩ | ⟨v, s', hv, -, hlt, -⟩ := hvalue (good_start hlength) nested_start
  · rw [Checked.parse, StateT.run', document, bind_error he] at hparse
    cases hparse
  · exact ⟨v, s', hv, hlt⟩

end JsonTree.Checked
