import JsonTree.Document.Items
import JsonTree.Proofs.Grammar.Layout
import JsonTree.Proofs.Grammar.Number

/-!
# The grammar of items

The items between two brackets have one grammar for all kinds of items. What an item is, `P` says; what it adds to
the items before it, `step` says, and it may add nothing at all and be refused.
-/

namespace JsonTree.Grammar

open Byte Document

variable {α β : Type}

/-- A byte that closes an array or an object. -/
def Closing (b : UInt8) : Prop := b = closeBracket ∨ b = closeBrace

/-- An item starts with a byte that neither layout nor a closing bracket starts with. -/
def Opening (p : Bytes) : Prop := ∃ b s, p = b :: s ∧ isBlank b = false ∧ b ≠ slash ∧ ¬ Closing b

/-- One item or more, each with the layout behind it. -/
inductive ItemsText (o : Options) (P : Bytes → α → Prop) : Bytes → List α → Prop where
  | last {p l a} (hp : P p a) (hl : LayoutText l) : ItemsText o P (p ++ l) [a]
  | trailing {p l l' a} (ho : o.contains .trailingCommas = true) (hp : P p a) (hl : LayoutText l)
      (hl' : LayoutText l') : ItemsText o P (p ++ (l ++ comma :: l')) [a]
  | cons {p l l' s a as} (hp : P p a) (hl : LayoutText l) (hl' : LayoutText l') (hs : ItemsText o P s as) :
      ItemsText o P (p ++ (l ++ comma :: (l' ++ s))) (a :: as)

/-- What stands between two brackets. -/
inductive EnclosedText (o : Options) (P : Bytes → α → Prop) : Bytes → List α → Prop where
  | none {l} (hl : LayoutText l) : EnclosedText o P l []
  | items {l s as} (hl : LayoutText l) (hs : ItemsText o P s as) : EnclosedText o P (l ++ s) as

/-- The items that a reader reads off the heads of documents are those of `P`, and `step` adds them. -/
structure Reads (item : β → Reader β) (P : Bytes → α → Prop) (step : β → α → Option β) : Prop where
  opening : ∀ {p a}, P p a → Opening p
  sound : ∀ {acc acc' s r}, Stops s → (item acc).read s = .ok (acc', r) →
    ∃ p a, s = p ++ r ∧ P p a ∧ Apart p r ∧ step acc a = some acc'
  complete : ∀ {acc acc' p r a}, P p a → Apart p r → step acc a = some acc' →
    (item acc).read (p ++ r) = .ok (acc', r)

theorem Closing.continuesToken {b} (h : Closing b) : continuesToken b = false := by rcases h with rfl | rfl <;> rfl

theorem Closing.stops {b s} (h : Closing b) : Stops (b :: s) := by
  rcases h with rfl | rfl <;> exact .cons rfl (by decide)

theorem Closing.ne_comma {b} (h : Closing b) : b ≠ comma := by rcases h with rfl | rfl <;> decide

theorem Opening.stops {p} (h : Opening p) (r : Bytes) : Stops (p ++ r) := by
  obtain ⟨b, s, rfl, hb, hs, -⟩ := h
  exact .cons hb hs

theorem stops_comma (s : Bytes) : Stops (comma :: s) := .cons rfl (by decide)

theorem LayoutText.delimited {l b r} (hl : LayoutText l) (hb : Byte.continuesToken b = false) :
    Delimited (l ++ b :: r) := by
  cases hl with
  | nil => exact .cons hb
  | blank hc _ =>
      refine .cons ?_
      simp only [isBlank, Bool.or_eq_true, beq_iff_eq] at hc
      obtain ((rfl | rfl) | rfl) | rfl := hc <;> rfl
  | line _ _ => exact .cons rfl
  | block _ _ => exact .cons rfl

/-! ## Between items -/

theorem afterItem_close {o close l} (hc : Closing close) (hl : LayoutText l) (r : Bytes) :
    afterItem o close (l ++ close :: r) = .ok (.nothing, r) := by
  simp [afterItem, layout_append_of_stops hl hc.stops, bind, Except.bind, pure, Except.pure]

theorem afterItem_item {o close l l' p} (hc : Closing close) (hl : LayoutText l) (hl' : LayoutText l')
    (hp : Opening p) (r : Bytes) : afterItem o close (l ++ comma :: (l' ++ (p ++ r))) = .ok (.item, p ++ r) := by
  have hn : comma ≠ close := hc.ne_comma.symm
  have hr := layout_append_of_stops hl' (hp.stops r)
  obtain ⟨b, s, rfl, -, -, hb⟩ := hp
  have hb : b ≠ close := by
    rintro rfl
    exact hb hc
  simp only [List.cons_append] at hr ⊢
  simp [afterItem, layout_append_of_stops hl (stops_comma _), hr, hn, hb, bind, Except.bind, pure, Except.pure]

theorem afterItem_trailing {o close l l'} (ho : o.contains .trailingCommas = true) (hc : Closing close)
    (hl : LayoutText l) (hl' : LayoutText l') (r : Bytes) :
    afterItem o close (l ++ comma :: (l' ++ close :: r)) = .ok (.nothing, r) := by
  have hn : comma ≠ close := hc.ne_comma.symm
  simp [afterItem, layout_append_of_stops hl (stops_comma _), layout_append_of_stops hl' hc.stops, hn, ho, bind,
    Except.bind, pure, Except.pure]

theorem eq_of_afterItem_nothing {o close s r} (h : afterItem o close s = .ok (.nothing, r)) :
    (∃ l, s = l ++ close :: r ∧ LayoutText l) ∨
    (o.contains .trailingCommas = true ∧
      ∃ l l', s = l ++ comma :: (l' ++ close :: r) ∧ LayoutText l ∧ LayoutText l') := by
  replace ⟨t, ht, h⟩ := bind_eq_ok.1 h
  split at h
  · cases h
  · obtain ⟨l, rfl, hl, -⟩ := eq_of_layout_ok_cons ht
    split at h
    · rename_i hb
      cases h
      exact .inl ⟨l, by rw [hb], hl⟩
    · split at h
      · rename_i hb
        replace ⟨u, hu, h⟩ := bind_eq_ok.1 h
        split at h
        · cases h
        · obtain ⟨l', rfl, hl', -⟩ := eq_of_layout_ok_cons hu
          split at h
          · cases h
          · rename_i hc
            split at h
            · rename_i ho
              cases h
              exact .inr ⟨ho, l, l', by rw [hb, Decidable.not_not.1 hc], hl, hl'⟩
            · cases h
      · cases h

/-- Behind a comma stands the next item, which no closing bracket starts, or nothing at all. -/
theorem eq_of_afterItem_item {o close s r} (h : afterItem o close s = .ok (.item, r)) :
    r = [] ∨ (Stops r ∧ (∀ b ∈ r.head?, b ≠ close) ∧
      ∃ l l', s = l ++ comma :: (l' ++ r) ∧ LayoutText l ∧ LayoutText l') := by
  replace ⟨t, ht, h⟩ := bind_eq_ok.1 h
  split at h
  · cases h
  · obtain ⟨l, rfl, hl, -⟩ := eq_of_layout_ok_cons ht
    split at h
    · cases h
    · split at h
      · rename_i hb
        replace ⟨u, hu, h⟩ := bind_eq_ok.1 h
        split at h
        · cases h
          exact .inl rfl
        · obtain ⟨l', rfl, hl', hs⟩ := eq_of_layout_ok_cons hu
          split at h
          · rename_i hc
            cases h
            refine .inr ⟨hs, ?_, l, l', by rw [hb], hl, hl'⟩
            rintro _ ⟨⟩
            exact hc
          · split at h <;> cases h
      · cases h

/-! ## Reading items -/

variable {item : β → Reader β} {P : Bytes → α → Prop} {step : β → α → Option β} {o : Options} {close : UInt8}

theorem ItemsText.opening {s as} (h : ItemsText o P s as) (hP : ∀ {p a}, P p a → Opening p) : Opening s := by
  have append {p} (hp : Opening p) (t : Bytes) : Opening (p ++ t) := by
    obtain ⟨b, s, rfl, hb⟩ := hp
    exact ⟨b, s ++ t, rfl, hb⟩
  cases h with
  | last hp _ => exact append (hP hp) _
  | trailing _ hp _ _ => exact append (hP hp) _
  | cons hp _ _ _ => exact append (hP hp) _

theorem items_eq (o : Options) (close : UInt8) (item : β → Reader β) (acc : β) (s : Bytes) :
    items o close item acc s = (do
      let (acc, s) ← (item acc).read s
      match ← afterItem o close s with
      | (.nothing, s) => return (acc, s)
      | (.item, s) => items o close item acc s) := by
  rw [items.eq_def]
  split
  · rename_i f hi
    simp [hi, bind, Except.bind]
  · rename_i acc' r hi
    simp only [hi, bind, Except.bind]
    split <;> rename_i ha <;> simp [ha, pure, Except.pure]

theorem items_append (hr : Reads item P step) (hc : Closing close) {p as} (h : ItemsText o P p as) (r : Bytes)
    {acc acc' : β} (hs : as.foldlM step acc = some acc') :
    items o close item acc (p ++ close :: r) = .ok (acc', r) := by
  induction h generalizing acc with
  | @last p l a hp hl =>
      simp only [List.foldlM_cons, List.foldlM_nil, Option.bind_eq_bind, Option.pure_def, Option.bind_fun_some] at hs
      have hd := (hl.delimited hc.continuesToken (r := r)).apart p
      rw [items_eq, List.append_assoc, hr.complete hp hd hs]
      simp [afterItem_close hc hl, bind, Except.bind, pure, Except.pure]
  | @trailing p l l' a ho hp hl hl' =>
      simp only [List.foldlM_cons, List.foldlM_nil, Option.bind_eq_bind, Option.pure_def, Option.bind_fun_some] at hs
      have hd := (hl.delimited (b := comma) (r := l' ++ close :: r) rfl).apart p
      simp only [List.append_assoc, List.cons_append]
      rw [items_eq, hr.complete hp hd hs]
      simp [afterItem_trailing ho hc hl hl', bind, Except.bind, pure, Except.pure]
  | @cons p l l' s a as hp hl hl' hi ih =>
      simp only [List.foldlM_cons, Option.bind_eq_bind, Option.bind_eq_some_iff] at hs
      obtain ⟨acc'', ha, hs⟩ := hs
      have hd := (hl.delimited (b := comma) (r := l' ++ (s ++ close :: r)) rfl).apart p
      simp only [List.append_assoc, List.cons_append]
      rw [items_eq, hr.complete hp hd ha]
      simpa [afterItem_item hc hl hl' (hi.opening hr.opening), bind, Except.bind] using ih hs

theorem eq_of_items (hr : Reads item P step) {acc acc' : β} {s r : Bytes} (hs : Stops s)
    (h : items o close item acc s = .ok (acc', r)) :
    ∃ p as, s = p ++ close :: r ∧ ItemsText o P p as ∧ as.foldlM step acc = some acc' := by
  fun_induction items o close item acc s with
  | case1 => cases h
  | case2 => cases h
  | case3 acc s acc'' r' hi r'' ha =>
      cases h
      obtain ⟨p, a, rfl, hp, -, hstep⟩ := hr.sound hs hi
      rcases eq_of_afterItem_nothing ha with ⟨l, rfl, hl⟩ | ⟨ho, l, l', rfl, hl, hl'⟩
      · exact ⟨p ++ l, [a], by simp, .last hp hl, by simp [hstep]⟩
      · exact ⟨p ++ (l ++ comma :: l'), [a], by simp, .trailing ho hp hl hl', by simp [hstep]⟩
  | case4 acc s acc'' r' hi r'' ha hlt ih =>
      obtain ⟨p, a, rfl, hp, -, hstep⟩ := hr.sound hs hi
      rcases eq_of_afterItem_item ha with rfl | ⟨hs', -, l, l', rfl, hl, hl'⟩
      · -- Nothing stands behind the comma, so no closing bracket can have been read.
        obtain ⟨p', as, hp', -⟩ := ih .nil h
        simp at hp'
      · obtain ⟨p', as, rfl, hp', hsteps⟩ := ih hs' h
        exact ⟨p ++ (l ++ comma :: (l' ++ p')), a :: as, by simp, .cons hp hl hl' hp', by simp [hstep, hsteps]⟩

/-- What is read between brackets is what their grammar says. -/
theorem bracketed_eq_ok_iff (hr : Reads item P step) (hc : Closing close) {none acc : β} {s r : Bytes} :
    bracketed o close item none s = .ok (acc, r) ↔
      ∃ p as, s = p ++ close :: r ∧ EnclosedText o P p as ∧ as.foldlM step none = some acc := by
  constructor
  · intro h
    replace ⟨t, ht, h⟩ := bind_eq_ok.1 h
    split at h
    · obtain ⟨p, as, hp, -⟩ := eq_of_items hr .nil h
      simp at hp
    · obtain ⟨l, rfl, hl, hs⟩ := eq_of_layout_ok_cons ht
      split at h
      · rename_i hb
        cases h
        exact ⟨l, [], by rw [hb], .none hl, rfl⟩
      · obtain ⟨p, as, hp, ha, hsteps⟩ := eq_of_items hr hs h
        exact ⟨l ++ p, as, by simp [hp], .items hl ha, hsteps⟩
  · rintro ⟨p, as, rfl, hp, hs⟩
    cases hp with
    | none hl =>
        cases hs
        simp [bracketed, layout_append_of_stops hl hc.stops, bind, Except.bind, pure, Except.pure]
    | @items l s _ hl ha =>
        have ho := ha.opening hr.opening
        have ht := layout_append_of_stops hl (ho.stops (close :: r))
        have hi := items_append hr hc ha r hs
        obtain ⟨b, t, rfl, -, -, hb⟩ := ho
        have hb : b ≠ close := by
          rintro rfl
          exact hb hc
        simp only [List.append_assoc, List.cons_append] at ht hi ⊢
        simp [bracketed, ht, hb, hi, bind, Except.bind]

end JsonTree.Grammar
