import JsonTree.Proofs.Grammar.Document
import JsonTree.Proofs.Grammar.Region
import Mathlib.Data.List.Forall2

/-!
# Places in values and in documents

The steps from the root to a value go into the elements of arrays, by their index, and into the members of objects, by
their key. In a document they lead to the text of that value. Of several members with one key the last is the one that
counts, so the steps never lead into the others.
-/

namespace JsonTree

/-- A step from an array or an object to one of its values. -/
inductive Step where
  | element (i : Nat)
  | member (key : String)
  deriving DecidableEq, Repr

namespace Value

def step? : Step → Value → Option Value
  | .element i, .array vs => vs[i]?
  | .member k, .object ms => Entries.get? k ms
  | _, _ => none

/-- The value that some steps lead to. -/
def descend? : List Step → Value → Option Value
  | [], v => some v
  | x :: xs, v => (v.step? x).bind (descend? xs)

end Value

namespace Grammar

open Byte Document

variable {α β : Type} {o : Options} {room : Nat}

/-! ## Items -/

/-- What is made of some items can be made of them in another way. -/
theorem ItemsText.exists_forall₂ {P : Bytes → α → Prop} {Q : Bytes → β → Prop} {R : α → β → Prop}
    (hP : ∀ p a, P p a → ∃ b, Q p b ∧ R a b) {s as} (h : ItemsText o P s as) :
    ∃ bs, ItemsText o Q s bs ∧ List.Forall₂ R as bs := by
  induction h with
  | last hp hl =>
      obtain ⟨b, hb, hr⟩ := hP _ _ hp
      exact ⟨[b], .last hb hl, .cons hr .nil⟩
  | trailing ho hp hl hl' =>
      obtain ⟨b, hb, hr⟩ := hP _ _ hp
      exact ⟨[b], .trailing ho hb hl hl', .cons hr .nil⟩
  | cons hp hl hl' _ ih =>
      obtain ⟨b, hb, hr⟩ := hP _ _ hp
      obtain ⟨bs, hbs, hrs⟩ := ih
      exact ⟨b :: bs, .cons hb hl hl' hbs, .cons hr hrs⟩

theorem EnclosedText.exists_forall₂ {P : Bytes → α → Prop} {Q : Bytes → β → Prop} {R : α → β → Prop}
    (hP : ∀ p a, P p a → ∃ b, Q p b ∧ R a b) {s as} (h : EnclosedText o P s as) :
    ∃ bs, EnclosedText o Q s bs ∧ List.Forall₂ R as bs := by
  cases h with
  | none hl => exact ⟨[], .none hl, .nil⟩
  | items hl hs =>
      obtain ⟨bs, hbs, hr⟩ := hs.exists_forall₂ hP
      exact ⟨bs, .items hl hbs, hr⟩

theorem getElem?_of_forall₂ {R : α → β → Prop} {as : List α} {bs : List β} (h : List.Forall₂ R as bs) {i : Nat} {a : α}
    (ha : as[i]? = some a) : ∃ b, bs[i]? = some b ∧ R a b := by
  induction h generalizing i with
  | nil => cases ha
  | cons hr _ ih =>
      cases i with
      | zero =>
          cases ha
          exact ⟨_, rfl, hr⟩
      | succ i => exact ih ha

/-- Members with the same key. -/
def SameKey (R : α → β → Prop) (m : String × α) (n : String × β) : Prop := m.1 = n.1 ∧ R m.2 n.2

theorem get?_of_forall₂ {R : α → β → Prop} {ms : Entries α} {ns : Entries β} (h : List.Forall₂ (SameKey R) ms ns)
    {k : String} {a : α} (ha : ms.get? k = some a) : ∃ b, ns.get? k = some b ∧ R a b := by
  induction h with
  | nil => cases ha
  | @cons m n ms ns hr _ ih =>
      obtain ⟨k', a'⟩ := m
      obtain ⟨l, b⟩ := n
      obtain ⟨rfl, hr⟩ := hr
      rw [Entries.get?] at ha ⊢
      split at ha
      · rename_i hk
        cases ha
        exact ⟨b, if_pos hk, hr⟩
      · rename_i hk
        rw [if_neg hk]
        exact ih ha

theorem map_fst_of_forall₂ {R : α → β → Prop} {ms : Entries α} {ns : Entries β}
    (h : List.Forall₂ (SameKey R) ms ns) : ms.map Prod.fst = ns.map Prod.fst := by
  induction h with
  | nil => rfl
  | cons hr _ ih => rw [List.map_cons, List.map_cons, hr.1, ih]

/-! ## One value per text -/

theorem ValueText.unique {s : Bytes} {v w : Value} (hv : ValueText o room s v) (hw : ValueText o room s w) : v = w := by
  have read {v} (h : ValueText o room s v) : (value o room).read s = .ok (v, []) :=
    (readsValue o room).read_eq_ok_iff.2 ⟨[], s, by simp, .nil, h, Delimited.nil.apart s⟩
  have heq := (read hv).symm.trans (read hw)
  cases heq
  rfl

/-- Nothing is inside a value without brackets. -/
theorem ScalarText.step? {s : Bytes} {v : Value} (h : ScalarText o s v) (x : Step) : v.step? x = none := by
  cases h with
  | null | truth | falsity | string _ => cases x <;> rfl
  | number h => obtain ⟨m, rfl⟩ | ⟨d, rfl⟩ := h.cases_kind (Meaning.numeric_own o) <;> cases x <;> rfl

/-! ## Parts -/

/-- The text of an element. -/
inductive ElementPart (o : Options) (room : Nat) : Bytes → Bytes → Prop where
  | mk {p v} (hv : ValueText o room p v) : ElementPart o room p p

/-- The text of a member, with its key and the text of its value. -/
inductive MemberPart (o : Options) (room : Nat) : Bytes → String × Bytes → Prop where
  | mk {k t l l' p v} (hk : LiteralText k t) (hl : LayoutText l) (hl' : LayoutText l') (hv : ValueText o room p v) :
      MemberPart o room (k ++ (l ++ colon :: (l' ++ p))) (t.content, p)

/-- The text that a step leads to in the text of an array or an object. -/
inductive PartText (o : Options) (room : Nat) : Step → Bytes → Bytes → Prop where
  | element {s ps i p} (h : EnclosedText o (ElementPart o room) s ps) (hp : ps[i]? = some p) :
      PartText o room (.element i) (openBracket :: (s ++ [closeBracket])) p
  | member {s ps k p} (h : EnclosedText o (MemberPart o room) s ps)
      (hk : o.contains .uniqueKeys = true → (ps.map Prod.fst).Nodup) (hp : Entries.get? k ps.reverse = some p) :
      PartText o room (.member k) (openBrace :: (s ++ [closeBrace])) p

theorem PartText.exists_value {x : Step} {s p : Bytes} (h : PartText o room x s p) :
    ∃ v w, ValueText o (room + 1) s v ∧ v.step? x = some w ∧ ValueText o room p w := by
  cases h with
  | element h hp =>
      have part (p q) (h : ElementPart o room p q) : ∃ v, ValueText o room p v ∧ ValueText o room q v := by
        obtain ⟨hv⟩ := h
        exact ⟨_, hv, hv⟩
      obtain ⟨vs, hvs, hr⟩ := h.exists_forall₂ part
      obtain ⟨w, hw, hpw⟩ := getElem?_of_forall₂ hr hp
      exact ⟨.array vs, w, .array rfl hvs, hw, hpw⟩
  | member h hk hp =>
      have part (p m) (h : MemberPart o room p m) :
          ∃ n, MemberText (ValueText o room) p n ∧ SameKey (ValueText o room) m n := by
        obtain ⟨hk, hl, hl', hv⟩ := h
        exact ⟨_, .mk hk hl hl' hv, rfl, hv⟩
      obtain ⟨ms, hms, hr⟩ := h.exists_forall₂ part
      obtain ⟨w, hw, hpw⟩ := get?_of_forall₂ (List.forall₂_reverse_iff.2 hr) hp
      rw [map_fst_of_forall₂ hr] at hk
      rw [← Entries.get?_ofList] at hw
      exact ⟨.object (Entries.ofList ms), w, .object rfl hms hk, hw, hpw⟩

theorem exists_partText {x : Step} {s : Bytes} {v w : Value} (hv : ValueText o (room + 1) s v)
    (hw : v.step? x = some w) : ∃ p, PartText o room x s p ∧ ValueText o room p w := by
  rcases hv.cases_succ with hv | ⟨s, vs, rfl, rfl, hvs⟩ | ⟨s, ms, rfl, rfl, hms, hk⟩
  · cases ScalarText.step? hv x ▸ hw
  · cases x with
    | member k => cases hw
    | element i =>
        have part (p v) (h : ValueText o room p v) : ∃ q, ElementPart o room p q ∧ ValueText o room q v := ⟨p, .mk h, h⟩
        obtain ⟨ps, hps, hr⟩ := hvs.exists_forall₂ part
        obtain ⟨p, hp, hpw⟩ := getElem?_of_forall₂ hr hw
        exact ⟨p, .element hps hp, hpw⟩
  · cases x with
    | element i => cases hw
    | member k =>
        have part (p m) (h : MemberText (ValueText o room) p m) :
            ∃ n, MemberPart o room p n ∧ SameKey (flip (ValueText o room)) m n := by
          obtain ⟨hk, hl, hl', hv⟩ := h
          exact ⟨_, .mk hk hl hl' hv, rfl, hv⟩
        obtain ⟨ps, hps, hr⟩ := hms.exists_forall₂ part
        rw [map_fst_of_forall₂ hr] at hk
        rw [Value.step?, Entries.get?_ofList] at hw
        obtain ⟨p, hp, hpw⟩ := get?_of_forall₂ (List.forall₂_reverse_iff.2 hr) hw
        exact ⟨p, .member hps hk hp, hpw⟩

/-! ## Places -/

/-- The text that some steps lead to in the text of a value. -/
inductive PlaceText (o : Options) : Nat → List Step → Bytes → Bytes → Prop where
  | here {room s v} (hs : ValueText o room s v) : PlaceText o room [] s s
  | step {room x xs s p q} (hp : PartText o room x s p) (hq : PlaceText o room xs p q) :
      PlaceText o (room + 1) (x :: xs) s q

theorem PlaceText.exists_value {xs : List Step} {s q : Bytes} (h : PlaceText o room xs s q) :
    ∃ n v w, ValueText o room s v ∧ v.descend? xs = some w ∧ ValueText o n q w := by
  induction h with
  | here hs => exact ⟨_, _, _, hs, rfl, hs⟩
  | step hp _ ih =>
      obtain ⟨v, u, hv, hu, hpu⟩ := hp.exists_value
      obtain ⟨n, u', w, hpu', hw, hqw⟩ := ih
      obtain rfl := hpu.unique hpu'
      exact ⟨n, v, w, hv, by rw [Value.descend?, hu, Option.bind_some, hw], hqw⟩

theorem exists_placeText {xs : List Step} {s : Bytes} {v w : Value} (hv : ValueText o room s v)
    (hw : v.descend? xs = some w) : ∃ q, PlaceText o room xs s q := by
  induction xs generalizing room s v with
  | nil => exact ⟨s, .here hv⟩
  | cons x xs ih =>
      obtain ⟨u, hu, hw⟩ := Option.bind_eq_some_iff.1 hw
      cases room with
      | zero => cases ScalarText.step? hv.scalar x ▸ hu
      | succ room =>
          obtain ⟨p, hp, hpu⟩ := exists_partText hv hu
          obtain ⟨q, hq⟩ := ih hpu hw
          exact ⟨q, .step hp hq⟩

/-- The text that some steps lead to in a document. -/
inductive DocumentPlace (o : Options) : List Step → Bytes → Bytes → Prop where
  | mk {l s l' xs q} (hl : LayoutText l) (hs : PlaceText o o.depthLimit.toNat xs s q) (hl' : EndLayout l') :
      DocumentPlace o xs (l ++ (s ++ l')) q

/-- The text at a place is that of the value there. -/
theorem DocumentPlace.descend? {xs : List Step} {s q : Bytes} {v : Value} (h : DocumentPlace o xs s q)
    (hv : Value.parse o s = .ok v) : ∃ n w, v.descend? xs = some w ∧ ValueText o n q w := by
  obtain ⟨hl, hs, hl'⟩ := h
  obtain ⟨n, v', w, hv', hw, hqw⟩ := hs.exists_value
  have heq := (parse_eq_ok_iff.2 (.mk hl hv' hl')).symm.trans hv
  cases heq
  exact ⟨n, w, hw, hqw⟩

theorem exists_documentPlace {xs : List Step} {s : Bytes} {v w : Value} (hv : Value.parse o s = .ok v)
    (hw : v.descend? xs = some w) : ∃ q, DocumentPlace o xs s q := by
  obtain ⟨hl, hs, hl'⟩ := documentText_of_parse hv
  obtain ⟨q, hq⟩ := exists_placeText hs hw
  exact ⟨q, .mk hl hq hl'⟩

/-! ## Segments -/

theorem ItemsText.isInfix_of_mem {P : Bytes → α → Prop} {f : α → Bytes} (hP : ∀ p a, P p a → f a <:+: p) {s as}
    (h : ItemsText o P s as) {a : α} (ha : a ∈ as) : f a <:+: s := by
  induction h with
  | last hp _ | trailing _ hp _ _ =>
      rw [List.mem_singleton.1 ha]
      exact (hP _ _ hp).trans (List.prefix_append _ _).isInfix
  | @cons p l l' s b as hp _ _ _ ih =>
      rcases List.mem_cons.1 ha with rfl | ha
      · exact (hP _ _ hp).trans (List.prefix_append _ _).isInfix
      · refine (ih ha).trans (List.IsSuffix.isInfix ⟨p ++ (l ++ comma :: l'), ?_⟩)
        simp

theorem EnclosedText.isInfix_of_mem {P : Bytes → α → Prop} {f : α → Bytes} (hP : ∀ p a, P p a → f a <:+: p) {s as}
    (h : EnclosedText o P s as) {a : α} (ha : a ∈ as) : f a <:+: s := by
  cases h with
  | none _ => cases ha
  | items _ hs => exact (hs.isInfix_of_mem hP ha).trans (List.suffix_append _ _).isInfix

theorem PartText.isInfix {x : Step} {s p : Bytes} (h : PartText o room x s p) : p <:+: s := by
  have enclosed (a b : UInt8) (s : Bytes) : s <:+: a :: (s ++ [b]) := ⟨[a], [b], rfl⟩
  cases h with
  | element h hp =>
      have part (p q) (h : ElementPart o room p q) : q <:+: p := by
        cases h
        exact List.infix_refl _
      exact (h.isInfix_of_mem part (List.mem_of_getElem? hp)).trans (enclosed _ _ _)
  | member h _ hp =>
      have part (p m) (h : MemberPart o room p m) : m.2 <:+: p := by
        obtain @⟨k, t, l, l', p, v, -, -, -, -⟩ := h
        exact List.IsSuffix.isInfix ⟨k ++ (l ++ colon :: l'), by simp⟩
      have hmem := List.mem_reverse.1 (Entries.mem_of_get? hp)
      exact (h.isInfix_of_mem part hmem).trans (enclosed _ _ _)

theorem PlaceText.isInfix {xs : List Step} {s q : Bytes} (h : PlaceText o room xs s q) : q <:+: s := by
  induction h with
  | here _ => exact List.infix_refl _
  | step hp _ ih => exact ih.trans hp.isInfix

theorem DocumentPlace.isInfix {xs : List Step} {s q : Bytes} (h : DocumentPlace o xs s q) : q <:+: s := by
  obtain @⟨l, s, l', xs, q, -, hs, -⟩ := h
  exact hs.isInfix.trans ⟨l, l', by simp⟩

end Grammar

end JsonTree
