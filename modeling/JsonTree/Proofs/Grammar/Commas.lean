import JsonTree.Proofs.Grammar.Document
import JsonTree.Proofs.Grammar.Region
import JsonTree.Proofs.Options

/-!
# Documents without trailing commas

A comma is trailing if layout and a closing bracket follow it, outside string literals and comments. Whatever may be
written with trailing commas means the same without them, and then needs no leave for them.
-/

namespace JsonTree.Grammar

open Byte Document

variable {α : Type} {o o' : Options} {q q' : Region} {b c : UInt8} {room : Nat} {l p p' r s s' : Bytes}

/-! ## Trailing commas -/

/-- Whether layout and a closing bracket come first. -/
def closesFirst (s : Bytes) : Bool :=
  match layout s with
  | .ok (b :: _) => isClosing b
  | _ => false

/-- What remains of a text that starts in some region if the trailing commas in it are deleted. -/
def dropTrailingCommas : Region → Bytes → Bytes
  | _, [] => []
  | q, b :: s =>
      if q = .code ∧ b = comma ∧ closesFirst s = true then dropTrailingCommas .code s
      else b :: dropTrailingCommas (q.next b) s

theorem closesFirst_of_closing (hl : LayoutText l) (hc : Closing c) (r : Bytes) : closesFirst (l ++ c :: r) = true := by
  rw [closesFirst, layout_append_of_stops hl hc.stops]
  exact isClosing_iff.2 hc

theorem closesFirst_of_opening (hl : LayoutText l) (hp : Opening p) (r : Bytes) :
    closesFirst (l ++ (p ++ r)) = false := by
  rw [closesFirst, layout_append_of_stops hl (hp.stops r)]
  obtain ⟨b, s, rfl, -, -, hb⟩ := hp
  rw [← isClosing_iff] at hb
  simpa using hb

/-- What has no marks outside string literals and comments is kept. -/
theorem Passes.dropTrailingCommas_append (h : Passes q s q') (r : Bytes) :
    dropTrailingCommas q (s ++ r) = s ++ dropTrailingCommas q' r := by
  induction h with
  | nil => rfl
  | @cons q _ b s hb _ ih =>
      have hkeep : ¬ (q = .code ∧ b = comma ∧ closesFirst (s ++ r) = true) := by
        rintro ⟨hq, rfl, -⟩
        cases hb hq
      rw [List.cons_append, dropTrailingCommas, if_neg hkeep, ih]
      rfl

/-- Whatever follows, `p'` is what remains of `p`. -/
def Remains (p p' : Bytes) : Prop := ∀ r, dropTrailingCommas .code (p ++ r) = p' ++ dropTrailingCommas .code r

theorem Passes.remains (h : Passes .code p .code) : Remains p p := h.dropTrailingCommas_append

theorem Remains.append (h : Remains p p') (h' : Remains s s') : Remains (p ++ s) (p' ++ s') := fun r => by
  rw [List.append_assoc, h, h', List.append_assoc]

theorem remains_mark (hm : isMark b = true) (hb : b ≠ comma) : Remains [b] [b] := fun r => by
  simp [dropTrailingCommas, hb, next_of_isMark hm]

theorem remains_opening (hb : isOpening b = true) : Remains [b] [b] := by
  refine remains_mark (by simp [isMark, hb]) ?_
  rintro rfl
  cases hb

theorem remains_closing (hc : Closing c) : Remains [c] [c] :=
  remains_mark (by simp [isMark, isClosing_iff.2 hc]) hc.ne_comma

/-- A comma in front of a closing bracket is deleted. -/
theorem remains_trailing (hl : LayoutText l) (hc : Closing c) : Remains (comma :: (l ++ [c])) (l ++ [c]) := fun r => by
  have hclose : closesFirst ((l ++ [c]) ++ r) = true := by simpa using closesFirst_of_closing hl hc r
  rw [List.cons_append, dropTrailingCommas, if_pos ⟨rfl, rfl, hclose⟩, hl.passes.remains.append (remains_closing hc)]

/-- A comma in front of an item is kept. -/
theorem remains_separator (hl : LayoutText l) (hs : Opening s) (h : Remains s s') :
    Remains (comma :: (l ++ s)) (comma :: (l ++ s')) := fun r => by
  have hclose : closesFirst ((l ++ s) ++ r) = false := by simpa using closesFirst_of_opening hl hs r
  rw [List.cons_append, dropTrailingCommas, if_neg fun h => Bool.eq_false_iff.1 hclose h.2.2]
  exact congrArg (comma :: ·) (hl.passes.remains.append h r)

/-! ## Items -/

variable {P P' : Bytes → α → Prop} {as : List α}

theorem ItemsText.withoutTrailing (h : ItemsText o' P s as) (hopen : ∀ {p a}, P p a → Opening p)
    (hP : ∀ {p a}, P p a → ∃ p', P' p' a ∧ Remains p p') :
    ∃ s', ItemsText o P' s' as ∧ ∀ {c}, Closing c → Remains (s ++ [c]) (s' ++ [c]) := by
  induction h with
  | @last p l a hp hl =>
      obtain ⟨p', hp', hrem⟩ := hP hp
      exact ⟨p' ++ l, .last hp' hl, fun hc => (hrem.append hl.passes.remains).append (remains_closing hc)⟩
  | @trailing p l l' a _ hp hl hl' =>
      -- The layout in front of the comma and that behind it are one.
      obtain ⟨p', hp', hrem⟩ := hP hp
      refine ⟨p' ++ (l ++ l'), .last hp' (hl.append hl'), fun hc => ?_⟩
      simpa using hrem.append (hl.passes.remains.append (remains_trailing hl' hc))
  | @cons p l l' s a as hp hl hl' hs ih =>
      obtain ⟨p', hp', hrem⟩ := hP hp
      obtain ⟨s', hs', hrems⟩ := ih
      refine ⟨p' ++ (l ++ comma :: (l' ++ s')), .cons hp' hl hl' hs', fun {c} hc => ?_⟩
      have hopen : Opening (s ++ [c]) := by
        obtain ⟨b, t, rfl, hb⟩ := hs.opening hopen
        exact ⟨b, t ++ [c], rfl, hb⟩
      simpa using hrem.append (hl.passes.remains.append (remains_separator hl' hopen (hrems hc)))

theorem EnclosedText.withoutTrailing (h : EnclosedText o' P s as) (hopen : ∀ {p a}, P p a → Opening p)
    (hP : ∀ {p a}, P p a → ∃ p', P' p' a ∧ Remains p p') :
    ∃ s', EnclosedText o P' s' as ∧ ∀ {c}, Closing c → Remains (s ++ [c]) (s' ++ [c]) := by
  cases h with
  | none hl => exact ⟨s, .none hl, fun hc => hl.passes.remains.append (remains_closing hc)⟩
  | @items l s _ hl hs =>
      obtain ⟨s', hs', hrem⟩ := hs.withoutTrailing hopen hP
      refine ⟨l ++ s', .items hl hs', fun hc => ?_⟩
      simpa using hl.passes.remains.append (hrem hc)

theorem MemberText.withoutTrailing {V V' : Bytes → Value → Prop} {m : String × Value}
    (hV : ∀ {p v}, V p v → ∃ p', V' p' v ∧ Remains p p') (h : MemberText V s m) :
    ∃ s', MemberText V' s' m ∧ Remains s s' := by
  obtain @⟨k, t, l, l', p, v, hk, hl, hl', hv⟩ := h
  obtain ⟨p', hv', hrem⟩ := hV hv
  have hcolon : Passes .code [colon] .code := .cons (fun _ => rfl) .nil
  have hkey := hk.passes.append (hl.passes.append (hcolon.append hl'.passes))
  refine ⟨k ++ (l ++ colon :: (l' ++ p')), .mk hk hl hl' hv', ?_⟩
  simpa using hkey.remains.append hrem

/-! ## Values and documents -/

theorem ValueText.withoutTrailing (ho : ∀ f, f ≠ .trailingCommas → o'.contains f = o.contains f) {v : Value}
    (h : ValueText o' room s v) : ∃ s', ValueText o room s' v ∧ Remains s s' := by
  have scalar {room : Nat} {s : Bytes} {v : Value} (h : ScalarText o' s v) :
      ∃ s', ValueText o room s' v ∧ Remains s s' :=
    ⟨s, (h.congr (ho _ (by decide)).symm (ho _ (by decide)).symm).value room, h.passes.remains⟩
  induction room generalizing s v with
  | zero => exact scalar h.scalar
  | succ room ih =>
      rcases h.cases_succ with hs | ⟨p, vs, rfl, rfl, he⟩ | ⟨p, ms, rfl, rfl, he, hk⟩
      · exact scalar hs
      · obtain ⟨p', he', hrem⟩ := he.withoutTrailing (o := o) (readsValue o' room).opening ih
        exact ⟨_, .array rfl he', (remains_opening rfl).append (hrem (.inl rfl))⟩
      · obtain ⟨p', he', hrem⟩ := he.withoutTrailing (o := o) (reads_member o' (readsValue o' room)).opening
          (MemberText.withoutTrailing ih)
        refine ⟨_, .object rfl he' fun hu => hk ((ho _ (by decide)).trans hu), ?_⟩
        exact (remains_opening rfl).append (hrem (.inr rfl))

theorem EndLayout.dropTrailingCommas_eq (h : EndLayout l) : dropTrailingCommas .code l = l := by
  obtain ⟨q, hq⟩ := h.passes
  simpa [dropTrailingCommas] using hq.dropTrailingCommas_append []

/-- Without its trailing commas a document needs no leave for them, and it means the same. -/
theorem DocumentText.withoutTrailing {v : Value} (h : DocumentText (o.enable .trailingCommas) s v) :
    DocumentText o (dropTrailingCommas .code s) v := by
  obtain @⟨l, p, v, l', hl, hp, hl'⟩ := h
  obtain ⟨p', hp', hrem⟩ := ValueText.withoutTrailing (fun f hf => Options.contains_enable_of_ne hf o) hp
  rw [hl.passes.remains, hrem, hl'.dropTrailingCommas_eq]
  exact .mk hl hp' hl'

/-- A comma in a comment stays. -/
example : dropTrailingCommas .code (Word.spell ['[', '1', ',', '/', '*', ',', '*', '/', ']']) =
    Word.spell ['[', '1', '/', '*', ',', '*', '/', ']'] := rfl

end JsonTree.Grammar
