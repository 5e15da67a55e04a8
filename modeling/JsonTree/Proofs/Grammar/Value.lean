import JsonTree.Document.Value
import JsonTree.Proofs.Entries
import JsonTree.Proofs.Grammar.Items
import JsonTree.Proofs.Grammar.Literal

/-!
# The grammar of values

A value is a word, a number, a string, or items between brackets. The grammar has the room for brackets as an index,
as the reader does: a value with no room has no brackets in it.
-/

namespace JsonTree.Grammar

open Byte Document

/-- A key, a colon and a value, and the key and the value that they stand for. -/
inductive MemberText (V : Bytes → Value → Prop) : Bytes → String × Value → Prop where
  | mk {k t l l' p v} (hk : LiteralText k t) (hl : LayoutText l) (hl' : LayoutText l') (hv : V p v) :
      MemberText V (k ++ (l ++ colon :: (l' ++ p))) (t.content, v)

/-- A value, where `inner?` says what stands between its brackets if it may have any, and `D` what numerals have for
values. -/
inductive NodeTextBy (D : Meaning) (o : Options) (inner? : Option (Bytes → Value → Prop)) :
    Bytes → Value → Prop where
  | null : NodeTextBy D o inner? Word.null .null
  | truth : NodeTextBy D o inner? Word.truth (.boolean true)
  | falsity : NodeTextBy D o inner? Word.falsity (.boolean false)
  | number {s v} (h : NumberTextBy D o s v) : NodeTextBy D o inner? s v
  | string {s t} (h : LiteralText s t) : NodeTextBy D o inner? s (.string (stored o t))
  | array {V s vs} (hi : inner? = some V) (h : EnclosedText o V s vs) :
      NodeTextBy D o inner? (openBracket :: (s ++ [closeBracket])) (.array vs)
  | object {V s ms} (hi : inner? = some V) (h : EnclosedText o (MemberText V) s ms)
      (hk : o.contains .uniqueKeys = true → (ms.map Prod.fst).Nodup) :
      NodeTextBy D o inner? (openBrace :: (s ++ [closeBrace])) (.object (Entries.ofList ms))

/-- A value with room for so many arrays and objects inside one another. -/
def ValueTextBy (D : Meaning) (o : Options) : Nat → Bytes → Value → Prop
  | 0 => NodeTextBy D o none
  | room + 1 => NodeTextBy D o (some (ValueTextBy D o room))

/-- A value whose numerals have the values that they are read as. -/
abbrev ValueText (o : Options) (room : Nat) : Bytes → Value → Prop := ValueTextBy (.of .own o) o room

/-- The values that a reader reads off the heads of documents are those of `V`. -/
structure ReadsValue (value : Reader Value) (V : Bytes → Value → Prop) : Prop where
  opening : ∀ {p v}, V p v → Opening p
  read_eq_ok_iff : ∀ {s v r},
    value.read s = .ok (v, r) ↔ ∃ l p, s = l ++ (p ++ r) ∧ LayoutText l ∧ V p v ∧ Apart p r

theorem LayoutText.eq_nil {l r} (hl : LayoutText l) (h : Stops (l ++ r)) : l = [] := by
  cases hl with
  | nil => rfl
  | blank hb _ => simp [(h _ rfl).1] at hb
  | line _ _ => exact absurd rfl (h _ rfl).2
  | block _ _ => exact absurd rfl (h _ rfl).2

theorem Opening.ne_nil {p} (h : Opening p) : p ≠ [] := by
  obtain ⟨b, s, rfl, -⟩ := h
  exact List.cons_ne_nil b s

/-! ## Elements and members -/

theorem reads_element {value : Reader Value} {V : Bytes → Value → Prop} (h : ReadsValue value V) :
    Reads (element value) V (fun vs v => some (v :: vs)) where
  opening := h.opening
  sound := by
    intro acc acc' s r hs he
    obtain ⟨⟨v, r'⟩, hv, he⟩ := map_eq_ok.1 he
    cases he
    obtain ⟨l, p, rfl, hl, hp, ha⟩ := h.read_eq_ok_iff.1 hv
    obtain rfl := hl.eq_nil hs
    exact ⟨p, v, rfl, hp, ha, rfl⟩
  complete := by
    rintro acc _ p r v hp ha ⟨⟩
    have hv := h.read_eq_ok_iff.2 ⟨[], p, rfl, .nil, hp, ha⟩
    rw [List.nil_append] at hv
    simp [element, hv, Except.map]

/-- The members with one more, if the options accept its key. -/
def addMember (o : Options) (ms : Members) (m : String × Value) : Option Members :=
  if o.contains .uniqueKeys && Entries.contains m.1 ms then none else some (Entries.insert m.1 m.2 ms)

theorem skipColon_append {l} (hl : LayoutText l) (r : Bytes) : skipColon (l ++ colon :: r) = .ok r := by
  have hs : Stops (colon :: r) := .cons rfl (by decide)
  simp [skipColon, layout_append_of_stops hl hs, bind, Except.bind, pure, Except.pure]

theorem eq_of_skipColon {s r} (h : skipColon s = .ok r) : ∃ l, s = l ++ colon :: r ∧ LayoutText l := by
  obtain ⟨t, ht, h⟩ := bind_eq_ok.1 h
  split at h
  · cases h
  · split at h
    · rename_i hb
      cases h
      obtain ⟨l, hs, hl, -⟩ := eq_of_layout_ok_cons ht
      exact ⟨l, by rw [hs, hb], hl⟩
    · cases h

theorem LiteralText.exists_cons {s t} (h : LiteralText s t) : ∃ s', s = quote :: s' := by
  cases h
  exact ⟨_, rfl⟩

theorem opening_cons {b} (hb : isBlank b = false ∧ b ≠ slash ∧ b ≠ closeBracket ∧ b ≠ closeBrace) (s : Bytes) :
    Opening (b :: s) :=
  ⟨b, s, rfl, hb.1, hb.2.1, fun h => h.elim hb.2.2.1 hb.2.2.2⟩

theorem LiteralText.opening {s t} (h : LiteralText s t) (r : Bytes) : Opening (s ++ r) := by
  obtain ⟨s, rfl⟩ := h.exists_cons
  exact opening_cons (by decide) _

theorem member_append {o : Options} {value : Reader Value} {V : Bytes → Value → Prop} (h : ReadsValue value V)
    {before ms : Members} {p r : Bytes} {a : String × Value} (hp : MemberText V p a) (ha : Apart p r)
    (hs : addMember o before a = some ms) : (member o value before).read (p ++ r) = .ok (ms, r) := by
  obtain @⟨k, t, l, l', p, v, hk, hl, hl', hp⟩ := hp
  obtain ⟨k, rfl⟩ := hk.exists_cons
  -- What follows the member follows its value.
  rw [← List.cons_append, ← List.append_assoc, ← List.append_assoc, apart_append_iff (h.opening hp).ne_nil] at ha
  have hv := h.read_eq_ok_iff.2 ⟨l', p, rfl, hl', hp, ha⟩
  simp only [addMember] at hs
  split at hs
  · cases hs
  · rename_i hu
    cases hs
    simp [member, readMember, read_append hk, skipColon_append hl, hv, hu, bind, Except.bind, pure, Except.pure]

theorem eq_of_member {o : Options} {value : Reader Value} {V : Bytes → Value → Prop} (h : ReadsValue value V)
    {before ms : Members} {s r : Bytes} (hm : (member o value before).read s = .ok (ms, r)) :
    ∃ p a, s = p ++ r ∧ MemberText V p a ∧ Apart p r ∧ addMember o before a = some ms := by
  simp only [member, readMember] at hm
  split at hm
  · cases hm
  · split at hm
    · cases hm
    · rename_i b t hb
      replace ⟨⟨key, t'⟩, hk, hm⟩ := bind_eq_ok.1 hm
      dsimp only at hm
      split at hm
      · cases hm
      · rename_i hu
        replace ⟨u, hc, hm⟩ := bind_eq_ok.1 hm
        replace ⟨⟨v, r'⟩, hv, hm⟩ := bind_eq_ok.1 hm
        cases hm
        obtain ⟨k, hs, hkey⟩ := eq_of_read hk
        obtain ⟨l, hs', hl⟩ := eq_of_skipColon hc
        obtain ⟨l', p, rfl, hl', hp, ha⟩ := h.read_eq_ok_iff.1 hv
        rw [hs'] at hs
        rw [Decidable.not_not.1 hb, hs]
        refine ⟨_, _, ?_, .mk hkey hl hl' hp, ?_, by simp [addMember, hu]⟩
        · simp
        · rw [← List.cons_append, ← List.append_assoc, ← List.append_assoc]
          exact (apart_append_iff (h.opening hp).ne_nil _).2 ha

theorem reads_member (o : Options) {value : Reader Value} {V : Bytes → Value → Prop} (h : ReadsValue value V) :
    Reads (member o value) (MemberText V) (addMember o) where
  opening := by
    rintro _ _ ⟨hk, -, -, -⟩
    exact hk.opening _
  sound := fun _ => eq_of_member h
  complete := member_append h

theorem foldlM_element (vs before : List Value) :
    vs.foldlM (fun vs v => some (v :: vs)) before = some (vs.reverse ++ before) := by
  induction vs generalizing before with
  | nil => rfl
  | cons v vs ih => simp [ih]

theorem foldlM_addMember_eq_some_iff {o : Options} {ps : List (String × Value)} {before ms : Members} :
    ps.foldlM (addMember o) before = some ms ↔
      (o.contains .uniqueKeys = true → (ps.map Prod.fst).Nodup ∧ ∀ p ∈ ps, Entries.contains p.1 before = false) ∧
      ms = ps.foldl (fun es p => Entries.insert p.1 p.2 es) before := by
  induction ps generalizing before with
  | nil => simpa using eq_comm
  | cons p ps ih =>
      by_cases hc : (o.contains .uniqueKeys && Entries.contains p.1 before) = true
      · simp only [Bool.and_eq_true] at hc
        simp [addMember, hc]
      · simp only [List.foldlM_cons, addMember, if_neg hc, Option.bind_eq_bind, Option.bind_some, ih, List.foldl_cons]
        refine and_congr_left' (imp_congr_right fun ho => ?_)
        have hc : Entries.contains p.1 before = false := by simpa [ho] using hc
        have hk : p.1 ∉ ps.map Prod.fst ↔ ∀ q ∈ ps, q.1 ≠ p.1 := by
          simp only [List.mem_map, not_exists, not_and]
        simp only [List.map_cons, List.nodup_cons, List.forall_mem_cons, Entries.contains_insert,
          Bool.or_eq_false_iff, decide_eq_false_iff_not, hk, hc, true_and]
        constructor
        · rintro ⟨hn, hq⟩
          exact ⟨⟨fun q h => (hq q h).1, hn⟩, fun q h => (hq q h).2⟩
        · rintro ⟨⟨hq, hn⟩, hq'⟩
          exact ⟨hn, fun q h => ⟨hq q h, hq' q h⟩⟩

/-! ## Values -/

theorem array_eq_ok_iff {o : Options} {value : Reader Value} {V : Bytes → Value → Prop} (h : ReadsValue value V)
    {s r : Bytes} {v : Value} :
    array o value s = .ok (v, r) ↔
      ∃ p vs, s = p ++ closeBracket :: r ∧ EnclosedText o V p vs ∧ v = .array vs := by
  simp only [array, map_eq_ok, Prod.exists, bracketed_eq_ok_iff (reads_element h) (.inl rfl), foldlM_element]
  constructor
  · rintro ⟨_, _, ⟨p, vs, rfl, hp, ⟨⟩⟩, ⟨⟩⟩
    exact ⟨p, vs, rfl, hp, by simp⟩
  · rintro ⟨p, vs, rfl, hp, rfl⟩
    exact ⟨_, _, ⟨p, vs, rfl, hp, rfl⟩, by simp⟩

theorem object_eq_ok_iff {o : Options} {value : Reader Value} {V : Bytes → Value → Prop} (h : ReadsValue value V)
    {s r : Bytes} {v : Value} :
    object o value s = .ok (v, r) ↔
      ∃ p ms, s = p ++ closeBrace :: r ∧ EnclosedText o (MemberText V) p ms ∧
        (o.contains .uniqueKeys = true → (ms.map Prod.fst).Nodup) ∧ v = .object (Entries.ofList ms) := by
  simp only [object, map_eq_ok, Prod.exists, bracketed_eq_ok_iff (reads_member o h) (.inr rfl),
    foldlM_addMember_eq_some_iff]
  constructor
  · rintro ⟨_, _, ⟨p, ms, rfl, hp, hk, rfl⟩, ⟨⟩⟩
    exact ⟨p, ms, rfl, hp, fun ho => (hk ho).1, rfl⟩
  · rintro ⟨p, ms, rfl, hp, hk, rfl⟩
    exact ⟨_, _, ⟨p, ms, rfl, hp, fun ho => ⟨hk ho, fun _ _ => rfl⟩, rfl⟩, rfl⟩

theorem NodeTextBy.opening {D o inner? s v} (h : NodeTextBy D o inner? s v) : Opening s := by
  cases h with
  | null => exact opening_cons (by decide) _
  | truth => exact opening_cons (by decide) _
  | falsity => exact opening_cons (by decide) _
  | number h =>
      obtain ⟨b, t, rfl, hb⟩ := h.exists_cons
      refine opening_cons ⟨?_, startsNumber_ne hb (by decide), startsNumber_ne hb (by decide),
        startsNumber_ne hb (by decide)⟩ t
      have ht := startsNumber_ne hb (c := tab) (by decide)
      have hl := startsNumber_ne hb (c := lineFeed) (by decide)
      have hr := startsNumber_ne hb (c := carriageReturn) (by decide)
      have hs := startsNumber_ne hb (c := space) (by decide)
      simp [isBlank, ht, hl, hr, hs]
  | string h => simpa using h.opening []
  | array _ _ => exact opening_cons (by decide) _
  | object _ _ _ => exact opening_cons (by decide) _

theorem wordValue_eq_ok_iff {w : Bytes} {v v' : Value} {s r : Bytes} (hw : Open w) :
    Word.value w v s = .ok (v', r) ↔ s = w ++ r ∧ Apart w r ∧ v' = v := by
  simp only [Word.value, map_eq_ok, skip_eq_ok_iff, Prod.mk.injEq]
  constructor
  · rintro ⟨_, ⟨rfl, hr⟩, rfl, rfl⟩
    exact ⟨rfl, hr.apart w, rfl⟩
  · rintro ⟨rfl, hr, rfl⟩
    exact ⟨r, ⟨rfl, hr hw⟩, rfl, rfl⟩

theorem eq_of_string {o : Options} {s r : Bytes} {v : Value} (h : string o s = .ok (v, r)) :
    ∃ p t, s = p ++ r ∧ LiteralText (quote :: p) t ∧ v = .string (stored o t) := by
  obtain ⟨⟨t, r'⟩, ht, h⟩ := map_eq_ok.1 h
  cases h
  obtain ⟨p, hs, hp⟩ := eq_of_read ht
  exact ⟨p, t, hs, hp, rfl⟩

theorem LiteralText.apart {s t} (h : LiteralText s t) (r : Bytes) : Apart s r := by
  obtain ⟨_⟩ := h
  exact apart_concat rfl (quote :: _) r

/-- `inner?` says what the reader `inner` of bracketed values reads, and there are both or none. -/
def ReadsInner : Option (Reader Value) → Option (Bytes → Value → Prop) → Prop := Option.Rel ReadsValue

variable {value? : Interpretation} {o : Options} {inner : Option (Reader Value)}
  {inner? : Option (Bytes → Value → Prop)}

theorem eq_of_readValueBy (hi : ReadsInner inner inner?) {s r : Bytes} {v : Value}
    (h : readValueBy value? o inner s = .ok (v, r)) :
    ∃ l p, s = l ++ (p ++ r) ∧ LayoutText l ∧ NodeTextBy (.of value? o) o inner? p v ∧ Apart p r := by
  replace ⟨t, ht, h⟩ := bind_eq_ok.1 h
  split at h
  · cases h
  · rename_i b t
    obtain ⟨l, rfl, hl, -⟩ := eq_of_layout_ok_cons ht
    -- The layout is behind us: the node starts at `b`, which decides its kind.
    suffices hn : ∃ p, b :: t = p ++ r ∧ NodeTextBy (.of value? o) o inner? p v ∧ Apart p r by
      obtain ⟨p, hp, hn⟩ := hn
      exact ⟨l, p, by rw [hp], hl, hn⟩
    split at h
    · rename_i hb
      cases hi with
      | none => cases h
      | some hV =>
          obtain ⟨p, vs, rfl, hp, rfl⟩ := (array_eq_ok_iff hV).1 h
          exact ⟨_, by simp [hb], .array rfl hp, apart_concat rfl (openBracket :: p) r⟩
    · split at h
      · rename_i hb
        cases hi with
        | none => cases h
        | some hV =>
            obtain ⟨p, ms, rfl, hp, hk, rfl⟩ := (object_eq_ok_iff hV).1 h
            exact ⟨_, by simp [hb], .object rfl hp hk, apart_concat rfl (openBrace :: p) r⟩
      · split at h
        · rename_i hb
          obtain ⟨p, t, rfl, hp, rfl⟩ := eq_of_string h
          exact ⟨_, by simp [hb], .string hp, hp.apart r⟩
        · split at h
          · obtain ⟨p, hs, hp, hr⟩ := numberBy_eq_ok_iff.1 h
            exact ⟨p, hs, .number hp, hr⟩
          · split at h
            · obtain ⟨hs, hr, rfl⟩ := (wordValue_eq_ok_iff ⟨_, rfl, rfl⟩).1 h
              exact ⟨_, hs, .null, hr⟩
            · split at h
              · obtain ⟨hs, hr, rfl⟩ := (wordValue_eq_ok_iff ⟨_, rfl, rfl⟩).1 h
                exact ⟨_, hs, .truth, hr⟩
              · split at h
                · obtain ⟨hs, hr, rfl⟩ := (wordValue_eq_ok_iff ⟨_, rfl, rfl⟩).1 h
                  exact ⟨_, hs, .falsity, hr⟩
                · cases h

theorem startsNumber_of_letter (o : Options) {b} (hb : b = letterN ∨ b = letterT ∨ b = letterF) :
    startsNumber o b = false := by
  rw [startsNumber]
  cases o.contains .nonFinite <;> rcases hb with rfl | rfl | rfl <;> rfl

theorem readValueBy_letter {l b} (hl : LayoutText l) (hb : b = letterN ∨ b = letterT ∨ b = letterF) (t : Bytes) :
    readValueBy value? o inner (l ++ b :: t) =
      if b = letterN then Word.value Word.null .null (b :: t)
      else if b = letterT then Word.value Word.truth (.boolean true) (b :: t)
      else Word.value Word.falsity (.boolean false) (b :: t) := by
  have hs := startsNumber_of_letter o hb
  have hc : (isBlank b = false ∧ b ≠ slash) ∧ b ≠ openBracket ∧ b ≠ openBrace ∧ b ≠ quote := by
    rcases hb with rfl | rfl | rfl <;> decide
  rw [readValueBy, layout_append_of_stops hl (.cons hc.1.1 hc.1.2)]
  rcases hb with hb | hb | hb <;> simp [hb ▸ hc, hb ▸ hs, hb, bind, Except.bind]

theorem readValueBy_append (hi : ReadsInner inner inner?) {l p r : Bytes} {v : Value} (hl : LayoutText l)
    (hp : NodeTextBy (.of value? o) o inner? p v) (hr : Apart p r) :
    readValueBy value? o inner (l ++ (p ++ r)) = .ok (v, r) := by
  have ht := layout_append_of_stops hl (hp.opening.stops r)
  cases hp with
  | null =>
      apply (readValueBy_letter hl (.inl rfl) _).trans
      exact (wordValue_eq_ok_iff ⟨_, rfl, rfl⟩).2 ⟨rfl, hr, rfl⟩
  | truth =>
      apply (readValueBy_letter hl (.inr (.inl rfl)) _).trans
      exact (wordValue_eq_ok_iff ⟨_, rfl, rfl⟩).2 ⟨rfl, hr, rfl⟩
  | falsity =>
      apply (readValueBy_letter hl (.inr (.inr rfl)) _).trans
      exact (wordValue_eq_ok_iff ⟨_, rfl, rfl⟩).2 ⟨rfl, hr, rfl⟩
  | number h =>
      have hn := numberBy_eq_ok_iff.2 ⟨p, rfl, h, hr⟩
      obtain ⟨b, t, rfl, hb⟩ := h.exists_cons
      have hb₁ := startsNumber_ne hb (c := openBracket) (by decide)
      have hb₂ := startsNumber_ne hb (c := openBrace) (by decide)
      have hb₃ := startsNumber_ne hb (c := quote) (by decide)
      rw [readValueBy, ht]
      simpa [hb, hb₁, hb₂, hb₃, bind, Except.bind] using hn
  | string h =>
      obtain ⟨p, rfl⟩ := h.exists_cons
      have hq : quote ≠ openBracket ∧ quote ≠ openBrace := by decide
      rw [readValueBy, ht]
      simp [hq, string, read_append h, Except.map, bind, Except.bind]
  | array hV h =>
      subst hV
      cases hi with
      | some hV =>
          have ha := (array_eq_ok_iff hV (r := r)).2 ⟨_, _, rfl, h, rfl⟩
          rw [readValueBy, ht]
          simpa [bind, Except.bind] using ha
  | object hV h hk =>
      subst hV
      cases hi with
      | some hV =>
          have hb : openBrace ≠ openBracket := by decide
          have ho := (object_eq_ok_iff hV (r := r)).2 ⟨_, _, rfl, h, hk, rfl⟩
          rw [readValueBy, ht]
          simpa [hb, bind, Except.bind] using ho

theorem readsValue_node (hi : ReadsInner inner inner?) (value : Reader Value)
    (hv : value.read = readValueBy value? o inner) : ReadsValue value (NodeTextBy (.of value? o) o inner?) where
  opening := NodeTextBy.opening
  read_eq_ok_iff := by
    intro s v r
    rw [hv]
    constructor
    · exact eq_of_readValueBy hi
    · rintro ⟨l, p, rfl, hl, hp, hr⟩
      exact readValueBy_append hi hl hp hr

/-- A value is read with some room just if it is one with that room. -/
theorem readsValueBy (value? : Interpretation) (o : Options) (room : Nat) :
    ReadsValue (valueBy value? o room) (ValueTextBy (.of value? o) o room) := by
  induction room with
  | zero => exact readsValue_node .none _ rfl
  | succ room ih => exact readsValue_node (.some ih) _ rfl

theorem readsValue (o : Options) (room : Nat) : ReadsValue (value o room) (ValueText o room) := readsValueBy .own o room

end JsonTree.Grammar
