import JsonTree.Proofs.Checked.Number
import JsonTree.Proofs.Position.Scanner

/-!
# Layout, step by step

The scanner that counts lines has a cursor for each state of the machine. On layout the two move together: where one of
them finds an error, so does the other, and else both come to stand at the same place of the same line.
-/

namespace JsonTree.Checked

open Byte Document

variable {α β γ δ : Type} {doc : Bytes} {s : State}

/-- The cursor of the scanner that stands where the machine does. -/
def State.cursor (doc : Bytes) (s : State) : Scanner.Cursor :=
  ⟨.ofNat s.lineNumber, doc.drop s.lineStart, doc.drop s.idx⟩

theorem rest_cursor (s : State) : (s.cursor doc).rest = doc.drop s.idx := rfl

theorem Good.error_cursor (h : Good doc s) (code : ErrorCode) {i : Nat} (hlo : s.lineStart ≤ i) (hhi : i ≤ doc.length) :
    (s.cursor doc).error code (doc.drop i) = s.error code i := by
  have hlt := h.length_lt
  have hline := h.lineStart_le
  have hidx := h.idx_le
  have hnumber := h.lineNumber_le
  have hsize : UInt32.size = 2 ^ 32 := rfl
  have hline' : (UInt32.ofNat s.lineNumber).toNat = s.lineNumber := UInt32.toNat_ofNat_of_lt' (by omega)
  have hplace : (doc.drop s.lineStart).length - (doc.drop i).length = i - s.lineStart := by
    rw [List.length_drop, List.length_drop]
    omega
  rw [Scanner.Cursor.error, State.cursor, hline', hplace, State.error]

/-! ## Scans -/

/-- The machine does what the scanner does. If there is no error, then `d` brackets are open, and it stands at `i` or
behind it. -/
inductive Scans (doc : Bytes) (d : Int) (i : Nat) (view : α → Scanner.Cursor → γ) :
    Except ParseError γ → Except Stop (α × State) → Prop where
  | ok {a s} (h : Good doc s) (hdepth : s.stackDepth = d) (hi : i ≤ s.idx) :
      Scans doc d i view (.ok (view a (s.cursor doc))) (.ok (a, s))
  | error (e) : Scans doc d i view (.error e) (.error (.error e))

variable {d d' : Int} {i j j' : Nat} {view : α → Scanner.Cursor → γ} {view' : β → Scanner.Cursor → δ}

theorem Scans.mono {x : Except ParseError γ} {y : Except Stop (α × State)} (h : Scans doc d i view x y) (hj : j ≤ i) :
    Scans doc d j view x y := by
  cases h with
  | ok h hdepth hi => exact .ok h hdepth (Nat.le_trans hj hi)
  | error e => exact .error e

theorem Scans.bind {x : Except ParseError γ} {m : Act α} {f : γ → Except ParseError δ} {k : α → Act β}
    (h : Scans doc d i view x (m s))
    (hk : ∀ a s', Good doc s' → s'.stackDepth = d → i ≤ s'.idx →
      Scans doc d' j view' (f (view a (s'.cursor doc))) (k a s')) :
    Scans doc d' j view' (x >>= f) ((m >>= k) s) := by
  generalize hm : m s = y at h
  cases h with
  | ok h hdepth hi =>
      rw [bind_ok hm]
      exact hk _ _ h hdepth hi
  | error e =>
      rw [bind_error hm]
      exact .error e

theorem Good.scans_report (h : Good doc s) (code : ErrorCode) :
    Scans doc d i view (.error ((s.cursor doc).error code (doc.drop s.idx))) ((report code 0 : Act α) s) := by
  rw [h.report_zero, h.error_cursor code h.lineStart_le h.idx_le]
  exact .error _

/-- A token is read in step, takes a byte and stays on the line. -/
theorem Good.scans_token_bind (h : Good doc s) {R : Bytes → Except Fault (α × Bytes)} {m : Act α}
    {f : α × Scanner.Cursor → Except ParseError δ} {k : α → Act β} {i : Nat}
    (hread : Reads doc s (R (doc.drop i)) (m s)) (hi : s.idx ≤ i)
    (hshorter : ∀ {a r}, R (doc.drop i) = .ok (a, r) → r.length < (doc.drop i).length)
    (hk : ∀ a j, s.idx < j → j ≤ doc.length → Scans doc d j' view' (f (a, (s.at j).cursor doc)) (k a (s.at j))) :
    Scans doc d j' view' (Scanner.token R ((s.cursor doc).goto (doc.drop i)) >>= f) ((m >>= k) s) := by
  rw [Scanner.token]
  dsimp only [Scanner.Cursor.goto]
  generalize R (doc.drop i) = x at hread hshorter
  generalize hm : m s = y at hread
  cases hread with
  | @ok a j hlo hhi =>
      have hlt := hshorter rfl
      rw [List.length_drop, List.length_drop] at hlt
      rw [bind_ok hm]
      exact hk a j (by omega) hhi
  | @error code j hlo hhi =>
      rw [bind_error hm, ← h.error_cursor code hlo hhi]
      exact .error _

theorem Good.scans_token (h : Good doc s) {R : Bytes → Except Fault (α × Bytes)} {m : Act α} {i : Nat}
    (hread : Reads doc s (R (doc.drop i)) (m s)) (hi : s.idx ≤ i)
    (hshorter : ∀ {a r}, R (doc.drop i) = .ok (a, r) → r.length < (doc.drop i).length) :
    Scans doc s.stackDepth (s.idx + 1) Prod.mk (Scanner.token R ((s.cursor doc).goto (doc.drop i))) (m s) := by
  rw [← bind_pure (Scanner.token R _), ← bind_pure m]
  exact h.scans_token_bind hread hi hshorter fun a j hlt hj => .ok (h.at (Nat.le_of_lt hlt) hj) rfl hlt

/-! ## Cursors in the layout -/

theorem layout_cursor (s : State) :
    Scanner.layout (s.cursor doc) = Scanner.skipLayout .between (s.cursor doc) (doc.drop s.idx) := rfl

/-- What a cursor makes of layout depends on its line only. -/
theorem skipLayout_goto (l : Layout) (c : Scanner.Cursor) (r r' : Bytes) :
    Scanner.skipLayout l (c.goto r') r = Scanner.skipLayout l c r := by
  have hgoto (r r' : Bytes) : (c.goto r').goto r = c.goto r := rfl
  have hnewLine (r r' : Bytes) : (c.goto r').newLine r = c.newLine r := rfl
  have herror (code : ErrorCode) (r r' : Bytes) : (c.goto r').error code r = c.error code r := rfl
  fun_induction Scanner.skipLayout l c r <;> rw [Scanner.skipLayout.eq_def] <;> simp_all

theorem skipLayout_at (l : Layout) (s : State) (i : Nat) (r : Bytes) :
    Scanner.skipLayout l ((s.at i).cursor doc) r = Scanner.skipLayout l (s.cursor doc) r :=
  skipLayout_goto l (s.cursor doc) r (doc.drop i)

theorem skipLayout_lineFeed (c : Scanner.Cursor) (r : Bytes) :
    Scanner.skipLayout .between c (lineFeed :: r) = Scanner.skipLayout .between (c.newLine r) r := by
  rw [Scanner.skipLayout.eq_def]
  exact if_pos rfl

theorem skipLayout_slash (c : Scanner.Cursor) (r : Bytes) :
    Scanner.skipLayout .between c (slash :: r) =
      match r with
      | [] => .error (c.error .malformed (slash :: r))
      | b :: r' =>
          if b = slash then Scanner.skipLayout .inLine c r'
          else if b = star then Scanner.skipLayout .inBlock c r'
          else .error (c.error .malformed (slash :: r)) := by
  rw [Scanner.skipLayout.eq_def]
  cases r <;> rfl

theorem skipLayout_inLine (c : Scanner.Cursor) (r : Bytes) :
    Scanner.skipLayout .inLine c r = Scanner.skipLayout .between c (r.dropWhile (· != lineFeed)) := by
  induction r with
  | nil => rfl
  | cons b r ih =>
      rw [Scanner.skipLayout]
      by_cases hb : b = lineFeed
      · rw [if_pos hb, List.dropWhile_cons_of_neg (by simp [hb]), hb, skipLayout_lineFeed]
      · rw [if_neg hb, List.dropWhile_cons_of_pos (by simp [hb]), ih]

theorem skipLayout_inBlock (c : Scanner.Cursor) (b : UInt8) (r : Bytes) :
    Scanner.skipLayout .inBlock c (b :: r) =
      if b = star ∧ r.head? = some slash then Scanner.skipLayout .between c r.tail
      else if b = lineFeed then Scanner.skipLayout .inBlock (c.newLine r) r
      else Scanner.skipLayout .inBlock c r := by
  have hstar : star ≠ lineFeed := by decide
  rw [Scanner.skipLayout.eq_def]
  dsimp only
  by_cases hb : b = star
  · subst hb
    cases r with
    | nil => simp [Scanner.skipLayout, hstar]
    | cons b' r => by_cases hb' : b' = slash <;> simp [hb', hstar]
  · simp [hb]

/-! ## Line feeds -/

/-- The state behind a line feed at the index. -/
def State.nextLine (s : State) : State :=
  { s with idx := s.idx + 1, lineStart := s.idx + 1, lineNumber := s.lineNumber + 1 }

theorem State.cursor_nextLine (doc : Bytes) (s : State) :
    s.nextLine.cursor doc = (s.cursor doc).newLine (doc.drop (s.idx + 1)) := by
  simp [State.cursor, State.nextLine, Scanner.Cursor.newLine, UInt32.ofNat_add]

theorem Good.nextLine (h : Good doc s) (hi : s.idx < doc.length) : Good doc s.nextLine where
  length_lt := h.length_lt
  idx_le := hi
  lineStart_le := Nat.le_refl _
  lineNumber_le := by
    have hnumber := h.lineNumber_le
    have hline := h.lineStart_le
    simp only [State.nextLine]
    omega

theorem Good.lineFeed_eq (h : Good doc s) (hi : s.idx < doc.length) (k : Act α) :
    (do advance doc 1; newline; k) s = k s.nextLine := by
  rw [bind_ok (h.advance_eq hi), bind_ok (h.at (Nat.le_succ _) hi).newline_eq]
  rfl

/-! ## Loops over layout -/

/-- The machine has skipped layout. What the scanner makes of it is what it makes of the rest, or both report an
error. -/
inductive Skips (doc : Bytes) (rest : State → Except ParseError Scanner.Cursor) (s : State)
    (x : Except ParseError Scanner.Cursor) : Except Stop (Unit × State) → Prop where
  | ok {s'} (h : Good doc s') (hdepth : s'.stackDepth = s.stackDepth) (hle : s.idx ≤ s'.idx) (hx : x = rest s') :
      Skips doc rest s x (.ok ((), s'))
  | error {e} (hx : x = .error e) : Skips doc rest s x (.error (.error e))

/-- A turn of a loop over layout in front of which the scanner stands in `l`. -/
inductive SkipCase (doc : Bytes) (l : Layout) (rest : State → Except ParseError Scanner.Cursor)
    (turn : Unit → Act (Next Unit Unit)) (s : State) : Prop where
  | again {s'} (hturn : turn () s = .ok (.again (), s')) (h : Good doc s') (hdepth : s'.stackDepth = s.stackDepth)
      (hlt : s.idx < s'.idx)
      (hx : Scanner.skipLayout l (s.cursor doc) (doc.drop s.idx) =
        Scanner.skipLayout l (s'.cursor doc) (doc.drop s'.idx))
  | done {s'} (hturn : turn () s = .ok (.done (), s')) (h : Good doc s') (hdepth : s'.stackDepth = s.stackDepth)
      (hle : s.idx ≤ s'.idx) (hx : Scanner.skipLayout l (s.cursor doc) (doc.drop s.idx) = rest s')
  | error {e} (hturn : turn () s = .error (.error e))
      (hx : Scanner.skipLayout l (s.cursor doc) (doc.drop s.idx) = .error e)

variable {l : Layout} {rest : State → Except ParseError Scanner.Cursor} {turn : Unit → Act (Next Unit Unit)}

theorem Skips.after {s' : State} {x : Except ParseError Scanner.Cursor} {y : Except Stop (Unit × State)}
    (h : Skips doc rest s' x y) (hdepth : s'.stackDepth = s.stackDepth) (hle : s.idx ≤ s'.idx) :
    Skips doc rest s x y := by
  cases h with
  | ok h' hdepth' hle' hx => exact .ok h' (hdepth'.trans hdepth) (Nat.le_trans hle hle') hx
  | error hx => exact .error hx

theorem Good.skips_loop (h : Good doc s) (hturn : ∀ {s}, Good doc s → SkipCase doc l rest turn s) :
    Skips doc rest s (Scanner.skipLayout l (s.cursor doc) (doc.drop s.idx)) (loop doc turn () s) := by
  induction hn : doc.length - s.idx using Nat.strongRecOn generalizing s with
  | ind n ih =>
      cases hturn h with
      | again hturn h' hdepth hlt hx =>
          have hle := h'.idx_le
          rw [loop_again hturn hlt hle, hx]
          exact (ih _ (by omega) h' rfl).after hdepth (Nat.le_of_lt hlt)
      | done hturn h' hdepth hle hx =>
          rw [loop_done hturn]
          exact .ok h' hdepth hle hx
      | error hturn hx =>
          rw [loop_error hturn]
          exact .error hx

/-! ## Comments -/

/-- More layout may come. -/
def more (doc : Bytes) (s : State) : Except ParseError Scanner.Cursor := Scanner.layout (s.cursor doc)

theorem Good.blockTurn_cases (h : Good doc s) : SkipCase doc .inBlock (more doc) (blockTurn doc) s := by
  have hpeek := peek_eq doc s
  obtain ⟨-, hget, hdrop⟩ | ⟨b, hi, hget, hdrop⟩ := ahead_cases h.idx_le
  · refine .error (e := s.error .malformed s.idx) ?_ ?_
    · rw [blockTurn, bind_ok hpeek, hget]
      exact h.report_zero .malformed
    · rw [← h.error_cursor .malformed h.lineStart_le h.idx_le, hdrop]
      rfl
  · have hnext := h.at (Nat.le_succ s.idx) hi
    have hread := skipLayout_inBlock (s.cursor doc) b (doc.drop (s.idx + 1))
    rw [List.head?_drop, List.tail_drop, ← hdrop] at hread
    by_cases hstar : b = star
    · by_cases hslash : doc[s.idx + 1]? = some slash
      · have hi' : s.idx + 2 ≤ doc.length := (List.getElem?_eq_some_iff.1 hslash).1
        rw [if_pos ⟨hstar, hslash⟩] at hread
        refine .done ?_ (h.at (Nat.le_add_right _ 2) hi') rfl (Nat.le_add_right _ 2)
          (hread.trans (skipLayout_at .between s (s.idx + 2) _).symm)
        rw [blockTurn, bind_ok hpeek, hget]
        dsimp only
        rw [if_pos hstar, bind_ok (h.peekAt_eq (by decide)), if_pos hslash, bind_ok (h.advance_eq hi')]
        rfl
      · have hfeed : b ≠ lineFeed := by
          rw [hstar]
          decide
        rw [if_neg fun h => hslash h.2, if_neg hfeed] at hread
        refine .again ?_ hnext rfl (Nat.lt_succ_self _) (hread.trans (skipLayout_at .inBlock s (s.idx + 1) _).symm)
        rw [blockTurn, bind_ok hpeek, hget]
        dsimp only
        rw [if_pos hstar, bind_ok (h.peekAt_eq (by decide)), if_neg hslash, bind_ok (h.advance_eq hi)]
        rfl
    · rw [if_neg fun h => hstar h.1] at hread
      by_cases hfeed : b = lineFeed
      · rw [if_pos hfeed, ← State.cursor_nextLine] at hread
        refine .again ?_ (h.nextLine hi) rfl (Nat.lt_succ_self _) hread
        rw [blockTurn, bind_ok hpeek, hget]
        dsimp only
        rw [if_neg hstar, if_pos hfeed, h.lineFeed_eq hi]
        rfl
      · rw [if_neg hfeed] at hread
        refine .again ?_ hnext rfl (Nat.lt_succ_self _) (hread.trans (skipLayout_at .inBlock s (s.idx + 1) _).symm)
        rw [blockTurn, bind_ok hpeek, hget]
        dsimp only
        rw [if_neg hstar, if_neg hfeed, bind_ok (h.advance_eq hi)]
        rfl

/-- A comment takes two bytes at least. -/
theorem Good.skips_comment (h : Good doc s) (hget : doc[s.idx]? = some slash) :
    Skips doc (more doc) (s.at (s.idx + 2)) (Scanner.layout (s.cursor doc)) (comment doc s) := by
  obtain ⟨hi, -⟩ := List.getElem?_eq_some_iff.1 hget
  have hdrop := drop_of_getElem? hget
  have hread := skipLayout_slash (s.cursor doc) (doc.drop (s.idx + 1))
  have herror : (s.cursor doc).error .malformed (doc.drop s.idx) = s.error .malformed s.idx :=
    h.error_cursor .malformed h.lineStart_le h.idx_le
  rw [← hdrop, herror] at hread
  rw [comment, bind_ok (h.peekAt_eq (by decide))]
  obtain ⟨-, hget', hdrop'⟩ | ⟨b, hi', hget', hdrop'⟩ := ahead_cases (show s.idx + 1 ≤ doc.length from hi)
  · rw [hdrop'] at hread
    rw [hget']
    dsimp only
    rw [h.report_zero]
    exact .error hread
  · rw [hdrop'] at hread
    rw [hget']
    dsimp only at hread ⊢
    have hnext := h.at (Nat.le_add_right s.idx 2) hi'
    by_cases hslash : b = slash
    · rw [if_pos hslash, skipLayout_inLine, ← drop_length_takeWhile, List.drop_drop] at hread
      rw [if_pos hslash, bind_ok (h.advance_eq hi'), hnext.skipWhile_eq]
      refine .ok (hnext.at (Nat.le_add_right _ _) ?_) rfl (Nat.le_add_right _ _) ?_
      · have hle := (List.takeWhile_sublist (· != lineFeed) (l := doc.drop (s.idx + 2))).length_le
        rw [List.length_drop] at hle
        rw [State.idx_at]
        omega
      · exact hread.trans (skipLayout_at .between s _ _).symm
    · rw [if_neg hslash] at hread ⊢
      by_cases hstar : b = star
      · rw [if_pos hstar, ← skipLayout_at .inBlock s (s.idx + 2)] at hread
        rw [if_pos hstar, bind_ok (h.advance_eq hi'), layout_cursor, hread]
        exact hnext.skips_loop fun h => h.blockTurn_cases
      · rw [if_neg hstar] at hread ⊢
        rw [h.report_zero]
        exact .error hread

/-! ## Layout -/

theorem Good.layoutTurn_cases (h : Good doc s) :
    SkipCase doc .between (fun s => .ok (s.cursor doc)) (layoutTurn doc) s := by
  have hpeek := peek_eq doc s
  obtain ⟨-, hget, hdrop⟩ | ⟨b, hi, hget, hdrop⟩ := ahead_cases h.idx_le
  · refine .done ?_ h rfl (Nat.le_refl _) ?_
    · rw [layoutTurn, bind_ok hpeek, hget]
      rfl
    · rw [State.cursor, hdrop]
      rfl
  · have hnext := h.at (Nat.le_succ s.idx) hi
    by_cases hfeed : b = lineFeed
    · refine .again ?_ (h.nextLine hi) rfl (Nat.lt_succ_self _) ?_
      · rw [layoutTurn, bind_ok hpeek, hget]
        dsimp only
        rw [if_pos hfeed, h.lineFeed_eq hi]
        rfl
      · rw [hdrop, hfeed, skipLayout_lineFeed, State.cursor_nextLine]
        rfl
    · by_cases hblank : isBlank b = true
      · refine .again ?_ hnext rfl (Nat.lt_succ_self _) ?_
        · rw [layoutTurn, bind_ok hpeek, hget]
          dsimp only
          rw [if_neg hfeed, if_pos hblank, bind_ok (h.advance_eq hi)]
          rfl
        · rw [hdrop, Scanner.skipLayout.eq_def]
          dsimp only
          rw [if_neg hfeed, if_pos hblank]
          exact (skipLayout_at .between s (s.idx + 1) _).symm
      · by_cases hslash : b = slash
        · subst hslash
          have hskips := h.skips_comment hget
          generalize hm : comment doc s = y at hskips
          have hturn : layoutTurn doc () s = (comment doc >>= fun _ => pure (.again ())) s := by
            rw [layoutTurn, bind_ok hpeek, hget]
            dsimp only
            rw [if_neg hfeed, if_neg hblank, if_pos rfl]
          cases hskips with
          | ok h' hdepth hle hx =>
              rw [bind_ok hm] at hturn
              exact .again hturn h' hdepth (Nat.lt_of_succ_lt hle) hx
          | error hx =>
              rw [bind_error hm] at hturn
              exact .error hturn hx
        · refine .done ?_ h rfl (Nat.le_refl _) ?_
          · rw [layoutTurn, bind_ok hpeek, hget]
            dsimp only
            rw [if_neg hfeed, if_neg hblank, if_neg hslash]
            rfl
          · rw [hdrop, Scanner.skipLayout.eq_def]
            dsimp only
            rw [if_neg hfeed, if_neg hblank, if_neg hslash, ← hdrop]
            rfl

theorem Good.scans_layout (h : Good doc s) :
    Scans doc s.stackDepth s.idx (fun _ c => c) (Scanner.layout (s.cursor doc)) (layout doc s) := by
  have hskips := h.skips_loop fun h => h.layoutTurn_cases
  rw [layout_cursor, layout]
  generalize loop doc (layoutTurn doc) () s = y at hskips
  cases hskips with
  | ok h' hdepth hle hx =>
      rw [hx]
      exact .ok h' hdepth hle
  | error hx =>
      rw [hx]
      exact .error _

end JsonTree.Checked
