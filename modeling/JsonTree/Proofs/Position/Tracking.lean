import JsonTree.Proofs.Locality.Position
import JsonTree.Proofs.Position.Basic
import JsonTree.Proofs.Position.Scanner

/-!
# Counted lines are right

While a scanner goes through a document, its line number counts the line feeds behind it, and its line starts behind
the last of them. So a scanner finds the values of all documents, and the positions of all errors in them, that the
reader with offsets finds.
-/

namespace JsonTree.Scanner

open Byte Document Position Locality

variable {α β γ δ : Type} {document : Bytes}

/-- The cursor stands in the document, and its line is the line there. -/
structure Tracks (document : Bytes) (c : Cursor) : Prop where
  exists_lines : ∃ p q, document = p ++ (q ++ c.rest) ∧ c.lineRest = q ++ c.rest ∧ lineFeed ∉ q ∧ tail p = 0 ∧
    c.line = .ofNat (p.count lineFeed + 1)

/-- The cursor stands where the rest is `r`. -/
def At (document : Bytes) (r : Bytes) (c : Cursor) : Prop := c.rest = r ∧ Tracks document c

/-- A reading and a scan have related results, or the same error. -/
inductive Agree (document : Bytes) (R : α → β → Prop) : Except Fault α → Except ParseError β → Prop where
  | ok {a b} (h : R a b) : Agree document R (.ok a) (.ok b)
  | error (f : Fault) : Agree document R (.error f) (.error (f.toError document))

/-- The same thing is read, up to the same place. -/
def SameAt (document : Bytes) (x : α × Bytes) (y : α × Cursor) : Prop := x.1 = y.1 ∧ At document x.2 y.2

/-- The rest `s` starts on the line of the cursor, where the cursor stands or behind it. -/
structure OnLine (document : Bytes) (c : Cursor) (s : Bytes) : Prop where
  tracks : Tracks document c
  exists_append : ∃ q, c.rest = q ++ s ∧ lineFeed ∉ q

/-! ## Cursors -/

theorem tracks_start (document : Bytes) : Tracks document (.start document) :=
  ⟨[], [], rfl, rfl, by simp, rfl, rfl⟩

theorem Tracks.onLine {c : Cursor} (h : Tracks document c) : OnLine document c c.rest := ⟨h, [], rfl, by simp⟩

theorem OnLine.append {c : Cursor} {p s : Bytes} (h : OnLine document c (p ++ s)) (hp : ∀ b ∈ p, Inline b) :
    OnLine document c s := by
  obtain ⟨ht, q, hq, hn⟩ := h
  exact ⟨ht, q ++ p, by simp [hq], by simpa [hn] using fun hb => hp _ hb rfl⟩

theorem OnLine.cons {c : Cursor} {b : UInt8} {s : Bytes} (h : OnLine document c (b :: s)) (hb : b ≠ lineFeed) :
    OnLine document c s :=
  h.append (p := [b]) (List.forall_mem_singleton.2 hb)

theorem OnLine.at_goto {c : Cursor} {s : Bytes} (h : OnLine document c s) : At document s (c.goto s) := by
  obtain ⟨⟨p, q', hd, hl, hq', ht, hn⟩, q, hs, hq⟩ := h
  exact ⟨rfl, p, q' ++ q, by simp [hd, hs, Cursor.goto], by simp [hl, hs, Cursor.goto], by simp [hq, hq'], ht, hn⟩

theorem OnLine.newLine {c : Cursor} {s : Bytes} (h : OnLine document c (lineFeed :: s)) :
    OnLine document (c.newLine s) s := by
  obtain ⟨⟨p, q', hd, hl, hq', ht, hn⟩, q, hs, hq⟩ := h
  refine ⟨⟨p ++ (q' ++ (q ++ [lineFeed])), [], by simp [hd, hs, Cursor.newLine], rfl, by simp, ?_, ?_⟩,
    [], rfl, by simp⟩
  · rw [tail_append_of_mem _ (by simp), tail_append_of_mem _ (by simp), tail_append_of_mem _ (by simp)]
    rfl
  · simp [Cursor.newLine, hn, List.count_eq_zero.2 hq, List.count_eq_zero.2 hq', UInt32.ofNat_add]

/-- An error on the line has the position of its place. -/
theorem OnLine.error_eq {c : Cursor} {s : Bytes} (h : OnLine document c s) (hlen : document.length < UInt32.size - 1)
    (code : ErrorCode) : c.error code s = (Fault.mk code s).toError document := by
  obtain ⟨⟨p, q', hd, hl, hq', ht, hn⟩, q, hs, hq⟩ := h
  have hdoc : document = (p ++ (q' ++ q)) ++ s := by simp [hd, hs]
  have hq : lineFeed ∉ q' ++ q := by simp [hq, hq']
  have hcount : p.count lineFeed ≤ p.length := List.count_le_length
  have hsize : UInt32.size = 0x100000000 := rfl
  have hlength := congrArg List.length hdoc
  simp only [List.length_append] at hlength
  rw [toError_eq hdoc, behind_eq, tail_append_of_not_mem _ hq, ht, Cursor.error, hl, hs, hn, List.count_append,
    List.count_eq_zero.2 hq, UInt32.toNat_ofNat', Nat.mod_eq_of_lt (by omega)]
  simp only [List.length_append]
  congr 1
  congr 1
  omega

theorem OnLine.agree_error {R : α → β → Prop} {c : Cursor} {s : Bytes} (h : OnLine document c s)
    (hlen : document.length < UInt32.size - 1) (code : ErrorCode) :
    Agree document R (.error ⟨code, s⟩) (.error (c.error code s)) := by
  rw [h.error_eq hlen]
  exact .error _

theorem Agree.eq_error {R : α → β → Prop} {f : Fault} {y : Except ParseError β} (h : Agree document R (.error f) y) :
    y = .error (f.toError document) := by
  cases h
  rfl

theorem Agree.exists_ok {R : α → β → Prop} {a : α} {y : Except ParseError β} (h : Agree document R (.ok a) y) :
    ∃ b, y = .ok b ∧ R a b := by
  cases h with
  | ok h => exact ⟨_, rfl, h⟩

theorem Agree.bind {R : α → β → Prop} {R' : γ → δ → Prop} {x : Except Fault α} {y : Except ParseError β}
    {f : α → Except Fault γ} {g : β → Except ParseError δ} (h : Agree document R x y)
    (h' : ∀ {a b}, x = .ok a → R a b → Agree document R' (f a) (g b)) : Agree document R' (x >>= f) (y >>= g) := by
  cases h with
  | ok h => exact h' rfl h
  | error f => exact .error f

theorem Agree.map {R : α → β → Prop} {R' : γ → δ → Prop} {x : Except Fault α} {y : Except ParseError β}
    {f : α → γ} {g : β → Except ParseError δ} (h : Agree document R x y)
    (h' : ∀ {a b}, R a b → Agree document R' (.ok (f a)) (g b)) : Agree document R' (x.map f) (y >>= g) := by
  cases h with
  | ok h => exact h' h
  | error f => exact .error f

theorem Agree.mono {R R' : α → β → Prop} {x : Except Fault α} {y : Except ParseError β} (h : Agree document R x y)
    (h' : ∀ {a b}, R a b → R' a b) : Agree document R' x y := by
  cases h with
  | ok h => exact .ok (h' h)
  | error f => exact .error f

/-! ## Simulation -/

/-- A scan gives what a reader gives, wherever it starts. -/
def Simulates (document : Bytes) (R : Bytes → Except Fault (α × Bytes)) (S : Scan α) : Prop :=
  ∀ {c r}, At document r c → Agree document (SameAt document) (R r) (S c)

theorem simulates_element {value : Reader Value} {value' : Scan Value} (hvalue : Simulates document value.read value')
    (before : Elements) : Simulates document (Document.element value before).read (element value' before) := by
  intro c r h
  apply (hvalue h).map
  rintro ⟨v, r⟩ ⟨_, c⟩ ⟨rfl, hr⟩
  exact .ok ⟨rfl, hr⟩

section

variable (hlen : document.length < UInt32.size - 1)
include hlen

/-! ## Layout -/

theorem agree_skipLayout (l : Layout) {c : Cursor} {s : Bytes} (h : OnLine document c s) :
    Agree document (At document) (Document.skipLayout l s) (skipLayout l c s) := by
  have hs : slash ≠ lineFeed := by decide
  have hs' : star ≠ lineFeed := by decide
  have hss : star ≠ slash := by decide
  fun_induction Document.skipLayout l s generalizing c with
  | case1 => exact h.agree_error hlen _
  | case2 l hl =>
      cases l with
      | between => exact .ok h.at_goto
      | inLine => exact .ok h.at_goto
      | inBlock => exact absurd rfl hl
  | case3 b s hb ih =>
      rw [skipLayout.eq_def]
      by_cases hf : b = lineFeed
      · subst hf
        simpa using ih h.newLine
      · simpa [hf, hb] using ih (h.cons hf)
  | case4 hb => simpa [skipLayout, hs, hb] using h.agree_error hlen _
  | case5 s hb ih => simpa [skipLayout, hs, hb] using ih ((h.cons hs).cons hs)
  | case6 s hb hn ih => simpa [skipLayout, hs, hb, hss] using ih ((h.cons hs).cons hs')
  | case7 b s hb hb' hn => simpa [skipLayout, hs, hb, hb', hn] using h.agree_error hlen _
  | case8 b s hb hn =>
      have hf : b ≠ lineFeed := by
        rintro rfl
        exact hb rfl
      rw [skipLayout.eq_def]
      simp only [hf, hb, hn, if_false]
      exact .ok h.at_goto
  | case9 s ih => simpa [skipLayout] using ih h.newLine
  | case10 b s hb ih => simpa [skipLayout, hb] using ih (h.cons hb)
  | case11 => simpa [skipLayout] using (h.cons hs').agree_error hlen _
  | case12 s ih => simpa [skipLayout] using ih ((h.cons hs').cons hs)
  | case13 b s hb ih => simpa [skipLayout, hb] using ih (h.cons hs')
  | case14 b s hb ih =>
      rw [skipLayout.eq_def]
      by_cases hf : b = lineFeed
      · subst hf
        simpa [Ne.symm hs'] using ih h.newLine
      · simpa [hf, hb] using ih (h.cons hf)

theorem agree_layout {c : Cursor} {r : Bytes} (h : At document r c) :
    Agree document (At document) (Document.layout r) (layout c) := by
  obtain ⟨rfl, h⟩ := h
  exact agree_skipLayout hlen .between h.onLine

/-! ## Items -/

variable {o : Options} {close : UInt8}

/-- A token ends on the line on which it starts. -/
theorem agree_token {R : Bytes → Except Fault (α × Bytes)} (hR : Local o Inline R) {c : Cursor} {r : Bytes}
    (h : At document r c) :
    Agree document (fun x y => SameAt document x y ∧ y.2 = c.goto x.2) (R r) (token R c) := by
  obtain ⟨rfl, h⟩ := h
  rw [token]
  cases hx : R c.rest with
  | ok x =>
      obtain ⟨a, r⟩ := x
      obtain ⟨p, hp, hinline, -⟩ := (hR c.rest).ok hx
      exact .ok ⟨⟨rfl, ((hp ▸ h.onLine : OnLine document c (p ++ r)).append hinline).at_goto⟩, rfl⟩
  | error f =>
      obtain ⟨p, hp, hinline, -⟩ := (hR c.rest).error hx
      exact ((hp ▸ h.onLine : OnLine document c (p ++ f.rest)).append hinline).agree_error hlen f.code

theorem agree_afterItem (hclose : close ≠ lineFeed) {c : Cursor} {r : Bytes} (h : At document r c) :
    Agree document (SameAt document) (Document.afterItem o close r) (afterItem o close c) := by
  apply (agree_layout hlen h).bind
  rintro _ c - ⟨rfl, h⟩
  have hl := h.onLine
  have hcomma : comma ≠ lineFeed := by decide
  cases hr : c.rest with
  | nil => exact (hr ▸ hl).agree_error hlen _
  | cons b r =>
      rw [hr] at hl
      dsimp only
      split
      · rename_i hb
        exact .ok ⟨rfl, (hl.cons (hb ▸ hclose)).at_goto⟩
      · split
        · rename_i hb
          apply (agree_layout hlen (hl.cons (hb ▸ hcomma)).at_goto).bind
          rintro _ c - ⟨rfl, h⟩
          have hl := h.onLine
          cases hr : c.rest with
          | nil => exact .ok ⟨rfl, hr, h⟩
          | cons b r =>
              rw [hr] at hl
              dsimp only
              split
              · exact .ok ⟨rfl, hr, h⟩
              · rename_i hb
                split
                · exact .ok ⟨rfl, (hl.cons (Decidable.not_not.1 hb ▸ hclose)).at_goto⟩
                · exact hl.agree_error hlen _
        · exact hl.agree_error hlen _

theorem simulates_items {item : β → Reader β} {item' : β → Scan β} (hclose : close ≠ lineFeed)
    (hitem : ∀ acc, Simulates document (item acc).read (item' acc)) (acc : β) :
    Simulates document (Document.items o close item acc) (items o close item' acc) := by
  intro c r h
  fun_induction Document.items o close item acc r generalizing c with
  | case1 acc s f hi =>
      have hs := hitem acc h
      rw [hi] at hs
      rw [items, hs.eq_error]
      exact .error f
  | case2 acc s acc' r hi f ha =>
      have hs := hitem acc h
      rw [hi] at hs
      obtain ⟨⟨_, c'⟩, hc', rfl, hr⟩ := hs.exists_ok
      have hs := agree_afterItem hlen (o := o) hclose hr
      rw [ha] at hs
      simp only [items, hc', hs.eq_error]
      exact .error f
  | case3 acc s acc' r hi r' ha =>
      have hs := hitem acc h
      rw [hi] at hs
      obtain ⟨⟨_, c'⟩, hc', rfl, hr⟩ := hs.exists_ok
      have hs := agree_afterItem hlen (o := o) hclose hr
      rw [ha] at hs
      obtain ⟨⟨_, c''⟩, hc'', rfl, hr'⟩ := hs.exists_ok
      simp only [items, hc', hc'']
      exact .ok ⟨rfl, hr'⟩
  | case4 acc s acc' r hi r' ha hlt ih =>
      have hs := hitem acc h
      rw [hi] at hs
      obtain ⟨⟨_, c'⟩, hc', rfl, hr⟩ := hs.exists_ok
      have hs := agree_afterItem hlen (o := o) hclose hr
      rw [ha] at hs
      obtain ⟨⟨_, c''⟩, hc'', rfl, hr'⟩ := hs.exists_ok
      -- The cursor moves on as the bytes get fewer, so the scan goes on as well.
      have hlt : c''.rest.length < c.rest.length := by rwa [hr'.1, h.1]
      rw [items]
      simp only [hc', hc'', if_pos hlt]
      exact ih hr'

theorem simulates_bracketed {item : β → Reader β} {item' : β → Scan β} (hclose : close ≠ lineFeed)
    (hitem : ∀ acc, Simulates document (item acc).read (item' acc)) (acc : β) :
    Simulates document (Document.bracketed o close item acc) (bracketed o close item' acc) := by
  intro c r h
  apply (agree_layout hlen h).bind
  rintro _ c - ⟨rfl, h⟩
  have hl := h.onLine
  cases hr : c.rest with
  | nil => exact simulates_items hlen hclose hitem acc ⟨hr, h⟩
  | cons b r =>
      rw [hr] at hl
      dsimp only
      split
      · rename_i hb
        exact .ok ⟨rfl, (hl.cons (hb ▸ hclose)).at_goto⟩
      · exact simulates_items hlen hclose hitem acc ⟨hr, h⟩

theorem agree_skipColon {c : Cursor} {r : Bytes} (h : At document r c) :
    Agree document (At document) (Document.skipColon r) (skipColon c) := by
  apply (agree_layout hlen h).bind
  rintro _ c - ⟨rfl, h⟩
  have hl := h.onLine
  have hcolon : colon ≠ lineFeed := by decide
  cases hr : c.rest with
  | nil => exact (hr ▸ hl).agree_error hlen _
  | cons b r =>
      rw [hr] at hl
      dsimp only
      split
      · rename_i hb
        exact .ok (hl.cons (hb ▸ hcolon)).at_goto
      · exact hl.agree_error hlen _

theorem simulates_member {value : Reader Value} {value' : Scan Value} (hvalue : Simulates document value.read value')
    (before : Members) : Simulates document (Document.member o value before).read (member o value' before) := by
  rintro c _ ⟨rfl, h⟩
  have hl := h.onLine
  have hquote : quote ≠ lineFeed := by decide
  simp only [Document.member, Document.readMember, member]
  cases hr : c.rest with
  | nil => exact (hr ▸ hl).agree_error hlen _
  | cons b r =>
      rw [hr] at hl
      dsimp only
      split
      · exact hl.agree_error hlen _
      · rename_i hb
        have hkey := (hl.cons (Decidable.not_not.1 hb ▸ hquote)).at_goto
        apply (agree_token hlen (o := o) local_literal hkey).bind
        rintro ⟨key, r'⟩ ⟨_, c'⟩ - ⟨⟨rfl, hc'⟩, hgoto⟩
        dsimp only at hc' hgoto ⊢
        split
        · -- A key that is there already is reported at its quote, and no line feed stands in between.
          rw [hgoto]
          exact hl.agree_error hlen _
        · apply (agree_skipColon hlen hc').bind
          rintro r₁ c₁ - hc₁
          apply (hvalue hc₁).bind
          rintro ⟨v, r₂⟩ ⟨_, c₂⟩ - ⟨rfl, hc₂⟩
          exact .ok ⟨rfl, hc₂⟩

/-! ## Values -/

theorem simulates_array {value : Reader Value} {value' : Scan Value} (hvalue : Simulates document value.read value') :
    Simulates document (Document.array o value) (array o value') := by
  have hclose : closeBracket ≠ lineFeed := by decide
  intro c r h
  apply (simulates_bracketed hlen hclose (simulates_element hvalue) [] h).map
  rintro ⟨vs, r⟩ ⟨_, c⟩ ⟨rfl, hr⟩
  exact .ok ⟨rfl, hr⟩

theorem simulates_object {value : Reader Value} {value' : Scan Value} (hvalue : Simulates document value.read value') :
    Simulates document (Document.object o value) (object o value') := by
  have hclose : closeBrace ≠ lineFeed := by decide
  intro c r h
  apply (simulates_bracketed hlen hclose (simulates_member hlen hvalue) [] h).map
  rintro ⟨vs, r⟩ ⟨_, c⟩ ⟨rfl, hr⟩
  exact .ok ⟨rfl, hr⟩

theorem simulates_token {R : Bytes → Except Fault (α × Bytes)} (hR : Local o Inline R) :
    Simulates document R (token R) :=
  fun h => (agree_token hlen hR h).mono And.left

theorem simulates_readValue {inner : Option (Reader Value)} {inner' : Option (Scan Value)}
    (hinner : Option.Rel (fun value value' => Simulates document value.read value') inner inner') :
    Simulates document (Document.readValue o inner) (readValue o inner') := by
  have hb : openBracket ≠ lineFeed ∧ openBrace ≠ lineFeed ∧ quote ≠ lineFeed := by decide
  intro c r h
  apply (agree_layout hlen h).bind
  rintro _ c - ⟨rfl, h⟩
  have hl := h.onLine
  cases hr : c.rest with
  | nil => exact (hr ▸ hl).agree_error hlen _
  | cons b r =>
      rw [hr] at hl
      have hc : At document (b :: r) c := ⟨hr, h⟩
      dsimp only
      split
      · rename_i h₁
        cases hinner with
        | none => exact hl.agree_error hlen _
        | some hvalue => exact simulates_array hlen hvalue (hl.cons (h₁ ▸ hb.1)).at_goto
      · split
        · rename_i h₂
          cases hinner with
          | none => exact hl.agree_error hlen _
          | some hvalue => exact simulates_object hlen hvalue (hl.cons (h₂ ▸ hb.2.1)).at_goto
        · split
          · rename_i h₃
            exact simulates_token hlen (o := o) local_string (hl.cons (h₃ ▸ hb.2.2)).at_goto
          · split
            · exact simulates_token hlen local_number hc
            · split
              · exact simulates_token hlen (o := o) (local_wordValue (inline_of_not_mem (by decide)) _) hc
              · split
                · exact simulates_token hlen (o := o) (local_wordValue (inline_of_not_mem (by decide)) _) hc
                · split
                  · exact simulates_token hlen (o := o) (local_wordValue (inline_of_not_mem (by decide)) _) hc
                  · exact hl.agree_error hlen _

theorem simulates_value (o : Options) (room : Nat) :
    Simulates document (Document.value o room).read (value o room) := by
  induction room with
  | zero => exact simulates_readValue hlen .none
  | succ room ih => exact simulates_readValue hlen (.some ih)

/-! ## Documents -/

/-- A scanner gives the values and the errors that the reader gives. -/
theorem parse_eq (o : Options) : parse o document = Value.parse o document := by
  have h : Agree document (· = ·) (Document.read o document) (parse o document) := by
    apply (simulates_value hlen o _ ⟨rfl, tracks_start document⟩).bind
    rintro ⟨v, r⟩ ⟨_, c⟩ - ⟨rfl, hr⟩
    apply (agree_layout hlen hr).bind
    rintro _ c - ⟨rfl, h⟩
    dsimp only
    split
    · exact .ok rfl
    · exact h.onLine.agree_error hlen _
  rw [Value.parse]
  cases hx : Document.read o document with
  | ok v =>
      rw [hx] at h
      obtain ⟨_, hy, rfl⟩ := h.exists_ok
      rw [hy]
      rfl
  | error f =>
      rw [hx] at h
      rw [h.eq_error]
      rfl

/-- The line and the column of an error are those of some place in the document, and a scanner that counts lines
reports them. -/
theorem parse_error_position {o : Options} {e : ParseError} (h : Value.parse o document = .error e) :
    parse o document = .error e ∧ 1 ≤ e.position.line ∧ 1 ≤ e.position.column ∧
    ∃ k ≤ document.length, e.position.line - 1 = (document.take k).count lineFeed ∧
      e.position.column - 1 = ((document.take k).reverse.takeWhile (· != lineFeed)).length := by
  obtain ⟨p, f, rfl, rfl, -⟩ := eq_of_parse_error h
  refine ⟨(parse_eq hlen o).trans h, ?_, ?_, p.length, by simp, ?_, ?_⟩
  all_goals simp [behind_eq, tail]

end

/-- A letter behind a comment of two lines. -/
def letterAfterComment : Bytes := Word.spell ['/', '*', '\n', '*', '/', 'x']

theorem parse_error_position_letterAfterComment :
    Value.parse {} letterAfterComment = .error ⟨.malformed, ⟨2, 3⟩⟩ ∧
    parse {} letterAfterComment = .error ⟨.malformed, ⟨2, 3⟩⟩ ∧ 1 ≤ 2 ∧ 1 ≤ 3 ∧
    ∃ k ≤ letterAfterComment.length, 2 - 1 = (letterAfterComment.take k).count lineFeed ∧
      3 - 1 = ((letterAfterComment.take k).reverse.takeWhile (· != lineFeed)).length :=
  ⟨rfl, parse_error_position (by decide) rfl⟩

end JsonTree.Scanner
