import JsonTree.Proofs.Grammar.Document
import JsonTree.Proofs.Locality.Literal

/-!
# Documents are read locally

Layout, items, values and whole documents are read locally, whatever the options.
-/

namespace JsonTree.Locality

open Byte Document Grammar

variable {β : Type} {o : Options}

/-- Any byte at all. -/
def Anywhere (_ : UInt8) : Prop := True

theorem settled_of_rest_eq_nil {α : Type} {R : Bytes → Except Fault (α × Bytes)} {s : Bytes} {f : Fault}
    (h : R s = .error f) (hf : f.rest = []) : Settled o f.rest ((R s).map Prod.snd) := by
  obtain ⟨code, rest⟩ := f
  cases hf
  rw [h]
  exact .atEnd code

theorem Local.anywhere {P : UInt8 → Prop} {α : Type} {R : Bytes → Except Fault (α × Bytes)} (h : Local o P R) :
    Local o Anywhere R := fun s => (h s).mono fun _ => trivial

/-! ## Layout -/

theorem local_layout : Local o Anywhere (skipping layout) := by
  refine fun s => ⟨fun {a r} h => ?_, fun {f} h => ?_⟩
  · obtain ⟨r, hr, h⟩ := map_eq_ok.1 h
    cases h
    rcases eq_of_layout_ok hr with ⟨l, hs, hl, hstop⟩ | ⟨rfl, -⟩
    · refine ⟨l, hs, fun _ _ => trivial, fun r' hr' => ?_⟩
      obtain ⟨t, rfl⟩ := hr'
      rw [skipping, layout_append_of_stops hl hstop.of_append]
      rfl
    · refine ⟨s, (List.append_nil s).symm, fun _ _ => trivial, fun r' hr' => ?_⟩
      rw [List.prefix_nil.1 hr', List.append_nil, skipping, hr]
      rfl
  · have hc := layout_cases s
    cases hx : layout s with
    | ok r =>
        rw [skipping, hx] at h
        cases h
    | error f' =>
        rw [hx] at hc
        cases hc with
        | @slash l r hl hr =>
            -- Without the slash that starts no comment, the layout in front of it is read.
            rw [skipping, hx] at h
            cases h
            refine ⟨l, rfl, fun _ _ => trivial, ?_⟩
            have hl := layout_append_of_stops hl .nil
            rw [List.append_nil] at hl
            rw [skipping, hl]
            exact .done
        | @block l c hl hc =>
            have hf := h
            rw [skipping, hx] at hf
            cases hf
            exact ⟨_, (List.append_nil _).symm, fun _ _ => trivial, settled_of_rest_eq_nil h rfl⟩

/-! ## Items -/

/-- What stands behind a comma is read locally. -/
theorem local_afterComma (close : UInt8) : Local o Anywhere fun s : Bytes =>
    match s with
    | [] => .ok (After.item, [])
    | c :: r =>
        if c ≠ close then .ok (.item, c :: r)
        else if o.contains .trailingCommas then .ok (.nothing, r)
        else .error ⟨.trailingComma, c :: r⟩ := by
  intro s
  cases s with
  | nil => exact .nil_ok rfl
  | cons c s =>
      by_cases hc : c = close
      · by_cases ho : o.contains .trailingCommas = true
        · exact (local_pure After.nothing s).cons trivial fun s => by simp [hc, ho]
        · exact .fault .trailingComma (.nil_ok rfl) (by simp [hc, ho])
      · exact .stay rfl fun s => by simp [hc]

theorem local_afterItem (close : UInt8) : Local o Anywhere (afterItem o close) := by
  refine local_layout.skip fun s => ?_
  cases s with
  | nil => exact .nil_error rfl
  | cons b s =>
      by_cases hb : b = close
      · exact (local_pure After.nothing s).cons trivial fun s => by simp [hb, pure, Except.pure]
      · by_cases hc : b = comma
        · refine (local_layout.skip (local_afterComma close) s).cons trivial fun s => ?_
          dsimp only
          rw [if_neg hb, if_pos hc]
          refine congrArg (layout s >>= ·) (funext fun s => ?_)
          cases s <;> rfl
        · exact .fault .malformed (.nil_error rfl) (by simp [hb, hc])

theorem error_nil_of_shorter {α : Type} {P : UInt8 → Prop} {R : Reader α} (h : Local o P R.read) :
    ∃ code, R.read [] = .error ⟨code, []⟩ := by
  cases hR : R.read [] with
  | ok x => exact absurd (R.shorter hR) (Nat.not_lt_zero _)
  | error f =>
      obtain ⟨p, hp, -⟩ := (h []).error hR
      obtain ⟨code, rest⟩ := f
      obtain ⟨-, rfl⟩ := List.append_eq_nil_iff.1 hp.symm
      exact ⟨code, rfl⟩

variable {item : β → Reader β} {close : UInt8}

theorem items_nil (close : UInt8) (h : ∀ acc, Local o Anywhere (item acc).read) (acc : β) :
    ∃ code, items o close item acc [] = .error ⟨code, []⟩ := by
  obtain ⟨code, hR⟩ := error_nil_of_shorter (h acc)
  exact ⟨code, by rw [items_eq, hR]; rfl⟩

/-- What an item reader goes on with behind an item. -/
def nextItem (o : Options) (close : UInt8) (item : β → Reader β) (acc : β) : After → Bytes → Except Fault (β × Bytes)
  | .nothing, s => .ok (acc, s)
  | .item, s => items o close item acc s

theorem items_eq_bind (acc : β) :
    items o close item acc = fun s => (item acc).read s >>= fun x =>
      afterItem o close x.2 >>= fun y => nextItem o close item x.1 y.1 y.2 := by
  funext s
  rw [items_eq]
  cases (item acc).read s with
  | error => rfl
  | ok x =>
      simp only [bind, Except.bind]
      cases afterItem o close x.2 with
      | error => rfl
      | ok y =>
          obtain ⟨a, s⟩ := y
          cases a <;> rfl

theorem local_items (close : UInt8) (h : ∀ acc, Local o Anywhere (item acc).read) (acc : β) :
    Local o Anywhere (items o close item acc) := by
  intro s
  -- An item and what stands behind it take bytes away, so the items that follow are shorter.
  induction hn : s.length using Nat.strongRecOn generalizing acc s with
  | ind n ih =>
      subst hn
      have hnil (acc : β) (a : After) : LocalAt o Anywhere (nextItem o close item acc a) [] := by
        cases a with
        | nothing => exact local_pure acc []
        | item =>
            obtain ⟨code, hi⟩ := items_nil close h acc
            exact .nil_error hi
      have hnext {acc' : β} {r : Bytes} (hr : (item acc).read s = .ok (acc', r)) : LocalAt o Anywhere
          (fun s => afterItem o close s >>= fun y => nextItem o close item acc' y.1 y.2) r := by
        refine (local_afterItem close r).bind (fun {a t} ha => ?_) (hnil acc')
        cases a with
        | nothing => exact local_pure acc' t
        | item => exact ih _ (Nat.lt_trans (length_lt_of_afterItem ha) ((item acc).shorter hr)) _ _ rfl
      rw [items_eq_bind]
      exact (h acc s).bind hnext fun acc => (local_afterItem close []).bind (fun ha => by cases ha) (hnil acc)

theorem local_bracketed (close : UInt8) (h : ∀ acc, Local o Anywhere (item acc).read) (acc : β) :
    Local o Anywhere (bracketed o close item acc) := by
  obtain ⟨code, hi⟩ := items_nil close h acc
  refine local_layout.skip fun s => ?_
  cases s with
  | nil => exact .nil_error hi
  | cons b s =>
      by_cases hb : b = close
      · exact (local_pure acc s).cons trivial fun s => by simp [hb, pure, Except.pure]
      · have hl := local_items close h acc (b :: s)
        exact hl.peek length_lt_of_items (.nil_error hi) fun s => by simp [hb]

/-! ## Members -/

theorem local_skipColon : Local o Anywhere (skipping skipColon) := by
  have heq : skipping skipColon = fun s => layout s >>= fun s =>
      match s with
      | [] => .error ⟨.malformed, []⟩
      | b :: r => if b = colon then .ok ((), r) else .error ⟨.malformed, b :: r⟩ := by
    funext s
    rw [skipping, skipColon]
    cases layout s with
    | error => rfl
    | ok r =>
        cases r with
        | nil => rfl
        | cons b r => by_cases hb : b = colon <;> simp [hb, bind, Except.bind, pure, Except.pure, Except.map]
  rw [heq]
  refine local_layout.skip fun s => ?_
  cases s with
  | nil => exact .nil_error rfl
  | cons b s =>
      by_cases hb : b = colon
      · exact (local_pure () s).cons trivial fun s => by simp [hb]
      · exact .fault .malformed (.nil_error rfl) (by simp [hb])

theorem local_element {value : Reader Value} (h : Local o Anywhere value.read) (before : Elements) :
    Local o Anywhere (element value before).read :=
  fun s => (h s).map (g := (· :: before)) fun _ _ => rfl

/-- What a member reader goes on with behind the key. -/
def readRest (value : Reader Value) (before : Members) (key : Text) (s : Bytes) : Except Fault (Members × Bytes) :=
  skipColon s >>= fun s => (value.read s).map fun x => (Entries.insert key.content x.1 before, x.2)

theorem readMember_quote (o : Options) (value : Reader Value) (before : Members) (s : Bytes) :
    readMember o value before (quote :: s) = (do
      let (key, r) ← Literal.read s
      if o.contains .uniqueKeys && Entries.contains key.content before then .error ⟨.malformed, quote :: s⟩
      else readRest value before key r) := by
  simp only [readMember, ne_eq, not_true_eq_false, if_false]
  cases Literal.read s with
  | error => rfl
  | ok x =>
      simp only [bind, Except.bind, readRest]
      split
      · rfl
      · cases skipColon x.2 with
        | error => rfl
        | ok r => cases value.read r <;> rfl

theorem local_readRest {value : Reader Value} (h : Local o Anywhere value.read) (before : Members) (key : Text) :
    Local o Anywhere (readRest value before key) :=
  local_skipColon.skip fun s => (h s).map (g := fun v => Entries.insert key.content v before) fun _ _ => rfl

/-- A literal with a fault is none when it is cut off there. -/
theorem literal_error {s f} (h : Literal.read s = .error f) :
    ∃ p, s = p ++ f.rest ∧ ∃ f', Literal.read p = .error f' ∧ Settled o f.rest (.error f') := by
  obtain ⟨p, rfl, -, hset⟩ := (local_literal (o := o) s).error h
  cases hp : Literal.read p with
  | error f' =>
      rw [hp] at hset
      exact ⟨p, rfl, f', hp, hset⟩
  | ok x =>
      obtain ⟨q, rfl, hq⟩ := eq_of_read hp
      rw [List.append_assoc, read_append hq] at h
      cases h

theorem local_member {value : Reader Value} (h : Local o Anywhere value.read) (before : Members) :
    Local o Anywhere (member o value before).read := by
  intro s
  change LocalAt o Anywhere (readMember o value before) s
  have hn : LocalAt o Anywhere (readMember o value before) [] := .nil_error rfl
  cases s with
  | nil => exact hn
  | cons b s =>
      by_cases hb : b = quote
      · subst hb
        cases hk : Literal.read s with
        | error f =>
            have heq : readMember o value before (quote :: s) = .error f := by
              rw [readMember_quote, hk]
              rfl
            refine ⟨fun {ms r} hm => ?_, fun {f} hm => ?_⟩
            · rw [heq] at hm
              cases hm
            · rw [heq] at hm
              cases hm
              obtain ⟨p, rfl, f', hp, hset⟩ := literal_error (o := o) hk
              refine ⟨quote :: p, rfl, fun _ _ => trivial, ?_⟩
              rw [readMember_quote, hp]
              exact hset
        | ok x =>
            obtain ⟨key, t⟩ := x
            obtain ⟨k, rfl, hkey⟩ := eq_of_read hk
            by_cases hu : (o.contains .uniqueKeys && Entries.contains key.content before) = true
            -- The key shows at its end, but the fault is at its start.
            · refine .fault .malformed hn ?_
              rw [readMember_quote, hk]
              exact if_pos hu
            · refine (local_readRest h before key t).append (p := quote :: k) (fun _ _ => trivial) fun s => ?_
              rw [List.cons_append, readMember_quote, read_append hkey]
              exact if_neg hu
      · exact .fault .unquotedKey hn (by simp [readMember, hb])

/-! ## Values -/

theorem local_array {value : Reader Value} (h : Local o Anywhere value.read) :
    Local o Anywhere (array o value) :=
  fun s => (local_bracketed closeBracket (local_element h) [] s).map (g := fun vs => .array vs.reverse) fun _ _ => rfl

theorem local_object {value : Reader Value} (h : Local o Anywhere value.read) :
    Local o Anywhere (object o value) :=
  fun s => (local_bracketed closeBrace (local_member h) [] s).map (g := .object) fun _ _ => rfl

theorem local_string : Local o Inline (string o) :=
  fun s => (local_literal s).map (g := fun t => .string (stored o t)) fun _ _ => rfl

theorem local_readValue {inner : Option (Reader Value)} (h : ∀ value ∈ inner, Local o Anywhere value.read) :
    Local o Anywhere (readValue o inner) := by
  refine local_layout.skip fun s => ?_
  cases s with
  | nil => exact .nil_error rfl
  | cons b s =>
      by_cases hb : b = openBracket
      · cases inner with
        | some value => exact (local_array (h value rfl) s).cons trivial fun s => by simp [hb]
        | none => exact .fault .tooMuchNesting (.nil_error rfl) (by simp [hb])
      · by_cases hc : b = openBrace
        · have hne : openBrace ≠ openBracket := by decide
          cases inner with
          | some value => exact (local_object (h value rfl) s).cons trivial fun s => by simp [hc, hne]
          | none => exact .fault .tooMuchNesting (.nil_error rfl) (by simp [hc, hne])
        · by_cases hq : b = quote
          · have hne : quote ≠ openBracket ∧ quote ≠ openBrace := by decide
            exact (local_string.anywhere s).cons trivial fun s => by simp [hq, hne]
          · by_cases hs : startsNumber o b = true
            · have hl := (local_number (o := o)).anywhere (b :: s)
              exact hl.peek length_lt_of_number (.nil_error rfl) fun s => by simp [hb, hc, hq, hs, number]
            · -- The reader has seen the first letter only, and the whole word is read again from there.
              have word {w : Bytes} (hw : ∀ b ∈ w, Inline b) (hpos : 0 < w.length) (v : Value)
                  {R : Bytes → Except Fault (Value × Bytes)} (hR : ∀ s, R (b :: s) = Word.value w v (b :: s))
                  (hn : R [] = .error ⟨.malformed, []⟩) : LocalAt o Anywhere R (b :: s) :=
                ((local_wordValue hw v).anywhere _).peek (Word.length_lt_of_value hpos) (.nil_error hn) hR
              by_cases hN : b = letterN
              · refine word (w := Word.null) (inline_of_not_mem (by decide)) (by decide) .null (fun s => ?_) rfl
                simp only [if_neg hb, if_neg hc, if_neg hq, if_neg hs, if_pos hN]
              · by_cases hT : b = letterT
                · refine word (w := Word.truth) (inline_of_not_mem (by decide)) (by decide) (.boolean true)
                    (fun s => ?_) rfl
                  simp only [if_neg hb, if_neg hc, if_neg hq, if_neg hs, if_neg hN, if_pos hT]
                · by_cases hF : b = letterF
                  · refine word (w := Word.falsity) (inline_of_not_mem (by decide)) (by decide) (.boolean false)
                      (fun s => ?_) rfl
                    simp only [if_neg hb, if_neg hc, if_neg hq, if_neg hs, if_neg hN, if_neg hT, if_pos hF]
                  · refine .fault .malformed (.nil_error rfl) ?_
                    simp only [if_neg hb, if_neg hc, if_neg hq, if_neg hs, if_neg hN, if_neg hT, if_neg hF]

theorem local_value (o : Options) (room : Nat) : Local o Anywhere (value o room).read := by
  induction room with
  | zero =>
      change Local o Anywhere (readValue o none)
      exact local_readValue (by simp)
  | succ room ih =>
      change Local o Anywhere (readValue o (some (value o room)))
      exact local_readValue (by simpa using ih)

/-! ## Documents -/

/-- Reads what stands behind the root. -/
def readEnd (v : Value) (s : Bytes) : Except Fault (Value × Bytes) :=
  if s.isEmpty then .ok (v, s) else .error ⟨.dataAfterRoot, s⟩

theorem read_eq_map (o : Options) (s : Bytes) :
    Document.read o s =
      ((value o o.depthLimit.toNat).read s >>= fun x => layout x.2 >>= readEnd x.1).map Prod.fst := by
  rw [Document.read_eq]
  cases (value o o.depthLimit.toNat).read s with
  | error => rfl
  | ok x =>
      simp only [bind, Except.bind]
      cases layout x.2 with
      | error => rfl
      | ok r => cases r <;> rfl

theorem local_readEnd (v : Value) : Local o Anywhere (readEnd v) := by
  intro s
  cases s with
  | nil => exact .nil_ok rfl
  | cons b s => exact .fault .dataAfterRoot (.nil_ok rfl) rfl

/-- What is read in front of a fault of a document. -/
theorem read_error {s : Bytes} {f : Fault} (h : Document.read o s = .error f) :
    ∃ p, s = p ++ f.rest ∧ Settled o f.rest ((Document.read o p).map fun _ => []) := by
  have hl := (local_value o o.depthLimit.toNat).bind fun v => local_layout.skip (local_readEnd (o := o) v)
  rw [read_eq_map] at h
  cases hx : (value o o.depthLimit.toNat).read s >>= fun x => layout x.2 >>= readEnd x.1 with
  | ok x =>
      rw [hx] at h
      cases h
  | error f' =>
      rw [hx] at h
      cases h
      obtain ⟨p, hp, -, hset⟩ := (hl s).error hx
      refine ⟨p, hp, ?_⟩
      rw [read_eq_map]
      cases hy : (value o o.depthLimit.toNat).read p >>= fun x => layout x.2 >>= readEnd x.1 with
      | ok x => exact .done
      | error f'' =>
          rw [hy] at hset
          exact hset

end JsonTree.Locality
