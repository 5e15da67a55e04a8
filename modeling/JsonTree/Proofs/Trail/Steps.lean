import JsonTree.Proofs.Locality.Code
import JsonTree.Proofs.Locality.Document
import JsonTree.Proofs.Trail.Scanner

/-!
# What the steps of a scan can do

Behind an item, and at a key, a scan does one of two things. Either it leaves no trail and does what the reader does
under any options, or it leaves one event, and only what comes next depends on the rules.
-/

namespace JsonTree.Trail

open Byte Document Grammar Locality

variable {α β : Type} {s : Bytes}

/-! ## Sequences -/

theorem bind_apply (S : Scan α) (next : α → Scan β) (s : Bytes) (d : Int) :
    (S >>= next) s d = (S s d).andThen next := rfl

@[simp] theorem pure_apply (a : α) (s : Bytes) (d : Int) : (pure a : Scan α) s d = ⟨.ok (a, s), d, []⟩ := rfl

@[simp] theorem fail_apply (f : Fault) (s : Bytes) (d : Int) : (fail f : Scan α) s d = ⟨.error f, d, []⟩ := rfl

@[simp] theorem ahead_bind (next : Bytes → Scan β) (s : Bytes) (d : Int) : (ahead >>= next) s d = next s s d := rfl

@[simp] theorem advance_bind (next : Unit → Scan β) (s : Bytes) (d : Int) :
    (advance >>= next) s d = next () s.tail d := rfl

@[simp] theorem mark_bind (e : Event) (next : Unit → Scan β) (s : Bytes) (d : Int) :
    (mark e >>= next) s d = (next () s d).after [e] := rfl

theorem token_bind {read : Bytes → Except Fault (α × Bytes)} (next : α → Scan β) (s : Bytes) (d : Int) :
    (token read >>= next) s d =
      match read s with
      | .ok (a, r) => next a r d
      | .error f => ⟨.error f, d, []⟩ := by
  rw [bind_apply, token, Run.andThen]
  cases read s <;> rfl

theorem skip_bind {read : Bytes → Except Fault Bytes} (next : Unit → Scan β) (s : Bytes) (d : Int) :
    (skip read >>= next) s d =
      match read s with
      | .ok r => next () r d
      | .error f => ⟨.error f, d, []⟩ := by
  rw [skip, token_bind]
  cases read s <;> rfl

/-! ## Behind an item -/

/-- A closing bracket with a comma in front of it, and nothing but layout between them. -/
def TrailingAt (close : UInt8) (s r : Bytes) : Prop := ∃ l, LayoutText l ∧ comma :: (l ++ close :: r) <:+ s

/-- What the options make of a comma in front of the closing bracket. -/
def afterTrailing (o : Options) (close : UInt8) (r : Bytes) : Except Fault (After × Bytes) :=
  if o.contains .trailingCommas then .ok (.nothing, r) else .error ⟨.trailingComma, close :: r⟩

/-- Behind an item the rules matter for nothing but a comma in front of the closing bracket. -/
inductive AfterItemCase (close : UInt8) (s : Bytes) : Prop where
  | same {x} (hx : Fails (· = .malformed) x) (ho : ∀ o, Document.afterItem o close s = x)
      (hR : ∀ R d, afterItem R close s d = ⟨x, d, []⟩) : AfterItemCase close s
  | trailing {r} (h : TrailingAt close s r) (ho : ∀ o, Document.afterItem o close s = afterTrailing o close r)
      (hR : ∀ R d, afterItem R close s d = ⟨afterTrailing R.options close r, d, [.trailing (close :: r)]⟩) :
      AfterItemCase close s

theorem afterItem_comma {close : UInt8} (hc : comma ≠ close) {t : Bytes} (hs : layout s = .ok (comma :: t)) :
    AfterItemCase close s := by
  obtain ⟨l, rfl, -, -⟩ := eq_of_layout_ok_cons hs
  cases ht : layout t with
  | error f =>
      refine .same (x := .error f) (.error (fails_layout t f ht)) (fun o => ?_) fun R d => ?_
      · simp [Document.afterItem, hs, hc, ht, bind, Except.bind]
      · simp [afterItem, skip_bind, hs, hc, ht]
  | ok u =>
      cases u with
      | nil =>
          refine .same (x := .ok (.item, [])) (.ok _) (fun o => ?_) fun R d => ?_
          · simp [Document.afterItem, hs, hc, ht, bind, Except.bind, pure, Except.pure]
          · simp [afterItem, skip_bind, hs, hc, ht]
      | cons c u =>
          by_cases hu : c = close
          · subst hu
            obtain ⟨l', rfl, hl', -⟩ := eq_of_layout_ok_cons ht
            refine .trailing (r := u) ⟨l', hl', List.suffix_append _ _⟩ (fun o => ?_) fun R d => ?_
            · simp [Document.afterItem, afterTrailing, hs, hc, ht, bind, Except.bind, pure, Except.pure]
            · rw [afterTrailing]
              by_cases hR : R.options.contains .trailingCommas <;>
                simp [afterItem, skip_bind, hs, hc, ht, hR, Run.after]
          · refine .same (x := .ok (.item, c :: u)) (.ok _) (fun o => ?_) fun R d => ?_
            · simp [Document.afterItem, hs, hc, ht, hu, bind, Except.bind, pure, Except.pure]
            · simp [afterItem, skip_bind, hs, hc, ht, hu]

theorem afterItem_cases {close : UInt8} (hc : Closing close) (s : Bytes) : AfterItemCase close s := by
  cases hs : layout s with
  | error f =>
      refine .same (x := .error f) (.error (fails_layout s f hs)) (fun o => ?_) fun R d => ?_
      · simp [Document.afterItem, hs, bind, Except.bind]
      · simp [afterItem, skip_bind, hs]
  | ok t =>
      cases t with
      | nil =>
          refine .same (x := .error ⟨.malformed, []⟩) (.error rfl) (fun o => ?_) fun R d => ?_
          · simp [Document.afterItem, hs, bind, Except.bind]
          · simp [afterItem, skip_bind, hs]
      | cons b t =>
          by_cases hb : b = close
          · refine .same (x := .ok (.nothing, t)) (.ok _) (fun o => ?_) fun R d => ?_
            · simp [Document.afterItem, hs, hb, bind, Except.bind, pure, Except.pure]
            · simp [afterItem, skip_bind, hs, hb]
          · by_cases hb' : b = comma
            · exact afterItem_comma hc.ne_comma.symm (hb' ▸ hs)
            · refine .same (x := .error ⟨.malformed, b :: t⟩) (.error rfl) (fun o => ?_) fun R d => ?_
              · simp [Document.afterItem, hs, hb, hb', bind, Except.bind]
              · simp [afterItem, skip_bind, hs, hb, hb']

/-! ## Brackets -/

variable {R : Rules} {close : UInt8} {d : Int}

theorem bracketed_of_forbids (hd : R.forbids (d + 1) = true) (item : β → Scan β) (none : β) (s : Bytes) :
    bracketed R close item none s d = ⟨.error ⟨.tooMuchNesting, s⟩, d + 1, [.opens s (d + 1)]⟩ := by
  simp [bracketed, bind_apply, enter, hd, Run.andThen]

theorem bracketed_eq (hd : R.forbids (d + 1) = false) (item : β → Scan β) (none : β) (s : Bytes) :
    bracketed R close item none s d =
      ((enclosed R close item none s.tail (d + 1)).andThen fun acc r d =>
        ⟨.ok (acc, r), d - 1, [.closes r (d - 1)]⟩).after [.opens s (d + 1)] := by
  simp only [bracketed, bind_apply, enter, hd, Bool.false_eq_true, if_false]
  rfl

/-! ## Keys -/

/-- A literal that reads as `name`. -/
def KeyAt (rest : Bytes) (name : String) : Prop :=
  ∃ k t r, LiteralText k t ∧ rest = k ++ r ∧ t.content = name

/-- At a key the rules matter only if the object has it already. -/
inductive KeyCase (object : Bytes) (before : Members) (s : Bytes) : Prop where
  | fault {f} (hf : InToken f.code) (hs : f.rest <:+ s)
      (ho : ∀ o value, readMember o value before s = .error f)
      (hR : ∀ R d, key R object before s d = ⟨.error f, d, []⟩) : KeyCase object before s
  | key {t r} (hs : KeyAt s t.content) (hr : r <:+ s.tail)
      (ho : ∀ o value, readMember o value before s =
        if o.contains .uniqueKeys && Entries.contains t.content before then .error ⟨.malformed, s⟩
        else readRest value before t r)
      (hR : ∀ R d, key R object before s d =
        if R.options.contains .uniqueKeys && Entries.contains t.content before then ⟨.error ⟨.malformed, s⟩, d, []⟩
        else ⟨.ok (t.content, r), d, [.key s object t.content]⟩) : KeyCase object before s

theorem key_cases (object : Bytes) (before : Members) (s : Bytes) : KeyCase object before s := by
  cases s with
  | nil =>
      refine .fault (f := ⟨.malformed, []⟩) (.inl rfl) List.suffix_rfl (fun o value => rfl) fun R d => ?_
      simp [key]
  | cons b s =>
      by_cases hb : b = quote
      · subst hb
        cases hr : Literal.read s with
        | error f =>
            obtain ⟨p, hs, -⟩ := (local_literal (o := {}) s).error hr
            refine .fault (fails_literal s f hr).inToken ⟨quote :: p, by simp [hs]⟩ (fun o value => ?_) fun R d => ?_
            · rw [readMember_quote, hr]
              rfl
            · simp [key, token_bind, hr]
        | ok x =>
            obtain ⟨t, r⟩ := x
            obtain ⟨k, rfl, hk⟩ := eq_of_read hr
            refine .key ⟨quote :: k, t, r, hk, rfl, rfl⟩ ⟨k, rfl⟩ (fun o value => ?_) fun R d => ?_
            · rw [readMember_quote, hr]
              rfl
            · by_cases hu : (R.options.contains .uniqueKeys && Entries.contains t.content before) = true
              · simp [key, token_bind, hr, hu, -Bool.and_eq_true]
              · simp [key, token_bind, hr, hu, -Bool.and_eq_true, Run.after]
      · refine .fault (f := ⟨.unquotedKey, b :: s⟩) (.inr (.inl rfl)) List.suffix_rfl (fun o value => ?_) fun R d => ?_
        · simp [readMember, hb]
        · simp [key, hb]

/-! ## Values -/

theorem array_eq (R : Rules) (inner : Scan Value) (s : Bytes) (d : Int) :
    array R inner s d =
      (bracketed R closeBracket (element inner) [] s d).andThen fun vs => pure (.array vs.reverse) := rfl

theorem object_eq (R : Rules) (inner : Scan Value) (s : Bytes) (d : Int) :
    object R inner s d =
      (bracketed R closeBrace (member R s inner) [] s d).andThen fun ms => pure (.object ms) := rfl

/-- Reads a value that stands inside one of some length, and so is shorter. -/
def inside (R : Rules) (n : Nat) : Scan Value := fun r d =>
  if r.length < n then value R r d else ⟨.error ⟨.malformed, r⟩, d, []⟩

theorem value_eq (R : Rules) (s : Bytes) (d : Int) :
    value R s d = (skip layout s d).andThen fun _ => node R (inside R s.length) := by
  rw [value]
  rfl

theorem inside_of_lt {R : Rules} {n : Nat} {r : Bytes} (h : r.length < n) (d : Int) : inside R n r d = value R r d :=
  if_pos h

theorem node_eq (R : Rules) (inner : Scan Value) (s : Bytes) (d : Int) :
    node R inner s d =
      (if s.head? = some openBracket then array R inner s d
        else if s.head? = some openBrace then object R inner s d
        else ⟨scalar R.options s, d, []⟩).after [.value s] := by
  rw [node, ahead_bind, mark_bind]
  split
  · rfl
  · split <;> rfl

end JsonTree.Trail
