import JsonTree.Entries

/-!
# Maps as sorted entries

Inserting keeps the entries sorted and changes the value of one key. A list of pairs makes a map in which the last
value of each key counts, and sorted entries make themselves.
-/

namespace JsonTree.Entries

variable {α : Type}

theorem get?_insert (k k' : String) (a : α) (es : Entries α) :
    (insert k' a es).get? k = if k = k' then some a else es.get? k := by
  induction es with
  | nil => simp [insert, get?]
  | cons e es ih =>
      obtain ⟨k'', a'⟩ := e
      simp only [insert]
      split
      · rfl
      · split
        · rename_i h
          subst h
          by_cases hk : k = k' <;> simp [get?, hk]
        · rename_i hne
          by_cases hk : k = k''
          · simp [get?, hk, Ne.symm hne]
          · simp [get?, hk, ih]

theorem contains_insert (k k' : String) (a : α) (es : Entries α) :
    contains k (insert k' a es) = (decide (k = k') || contains k es) := by
  rw [contains, get?_insert]
  by_cases h : k = k' <;> simp [h, contains]

theorem get?_erase_of_ne {k k' : String} (h : k ≠ k') (es : Entries α) : (erase k' es).get? k = es.get? k := by
  induction es with
  | nil => rfl
  | cons e es ih =>
      obtain ⟨k'', a⟩ := e
      by_cases hk : k' = k''
      · subst hk
        simp [erase, get?, h]
      · by_cases hk' : k = k'' <;> simp [erase, get?, hk, hk', ih]

theorem insert_insert (k : String) (a b : α) (es : Entries α) : insert k a (insert k b es) = insert k a es := by
  induction es with
  | nil => simp [insert]
  | cons e es ih =>
      obtain ⟨k', a'⟩ := e
      by_cases hlt : k < k'
      · simp [insert, hlt]
      · by_cases hk : k = k'
        · simp [insert, hk]
        · simp [insert, hlt, hk, ih]

theorem erase_insert_of_get?_eq_none {k : String} {es : Entries α} (h : es.get? k = none) (a : α) :
    erase k (insert k a es) = es := by
  induction es with
  | nil => simp [insert, erase]
  | cons e es ih =>
      obtain ⟨k', a'⟩ := e
      by_cases hk : k = k'
      · simp [get?, hk] at h
      · replace h : get? k es = none := by simpa [get?, hk] using h
        by_cases hlt : k < k' <;> simp [insert, erase, hlt, hk, ih h]

theorem mem_of_get? {k : String} {a : α} {es : Entries α} (h : es.get? k = some a) : (k, a) ∈ es := by
  induction es with
  | nil => cases h
  | cons e es ih =>
      obtain ⟨k', a'⟩ := e
      rw [get?] at h
      split at h
      · rename_i hk
        cases h
        rw [hk]
        exact List.mem_cons_self
      · exact List.mem_cons_of_mem _ (ih h)

theorem get?_append (k : String) (es es' : Entries α) : get? k (es ++ es') = (get? k es).or (get? k es') := by
  induction es with
  | nil => rfl
  | cons e es ih =>
      obtain ⟨k', a⟩ := e
      by_cases h : k = k' <;> simp [get?, h, ih]

/-! ## Order -/

theorem eq_or_mem_of_mem_insert {k : String} {a : α} {es : Entries α} {e} (h : e ∈ insert k a es) :
    e = (k, a) ∨ e ∈ es := by
  induction es with
  | nil => simpa [insert] using h
  | cons e' es ih =>
      obtain ⟨k', a'⟩ := e'
      simp only [insert] at h
      split at h
      · simpa using h
      · split at h
        · simp only [List.mem_cons] at h ⊢
          exact h.imp_right .inr
        · simp only [List.mem_cons] at h ⊢
          rcases h with h | h
          · exact .inr (.inl h)
          · exact (ih h).imp_right .inr

theorem Sorted.insert {es : Entries α} (h : es.Sorted) (k : String) (a : α) : (es.insert k a).Sorted := by
  induction es with
  | nil => simp [Entries.insert, Sorted]
  | cons e es ih =>
      obtain ⟨k', a'⟩ := e
      obtain ⟨hlt, hs⟩ := List.pairwise_cons.1 h
      simp only [Entries.insert]
      split
      · rename_i hk
        refine List.pairwise_cons.2 ⟨fun e he => ?_, h⟩
        rcases List.mem_cons.1 he with rfl | he
        · exact hk
        · exact String.lt_trans hk (hlt e he)
      · split
        · rename_i hk
          exact List.pairwise_cons.2 ⟨hk ▸ hlt, hs⟩
        · rename_i hnlt hne
          refine List.pairwise_cons.2 ⟨fun e he => ?_, ih hs⟩
          rcases eq_or_mem_of_mem_insert he with rfl | he
          · refine String.not_le.1 fun hle => hne (String.le_antisymm hle (String.not_lt.1 hnlt))
          · exact hlt e he

/-- An entry behind all others goes to the end. -/
theorem insert_of_forall_lt {k : String} {es : Entries α} (h : ∀ e ∈ es, e.1 < k) (a : α) :
    insert k a es = es ++ [(k, a)] := by
  induction es with
  | nil => rfl
  | cons e es ih =>
      obtain ⟨k', a'⟩ := e
      have hk : k' < k := h _ List.mem_cons_self
      have hne : k ≠ k' := by
        rintro rfl
        exact String.lt_irrefl _ hk
      simp [insert, String.lt_asymm hk, hne, ih fun e he => h e (List.mem_cons_of_mem _ he)]

/-- The entries behind another one have greater keys. -/
theorem Sorted.lt_of_get? {k k' : String} {a a' : α} {es : Entries α} (h : Sorted ((k', a') :: es))
    (hk : es.get? k = some a) : k' < k :=
  (List.pairwise_cons.1 h).1 _ (mem_of_get? hk)

theorem Sorted.get?_tail {k : String} {a : α} {es : Entries α} (h : Sorted ((k, a) :: es)) : es.get? k = none := by
  rw [Option.eq_none_iff_forall_ne_some]
  exact fun b hb => String.lt_irrefl k (h.lt_of_get? hb)

theorem erase_sublist (k : String) (es : Entries α) : (erase k es).Sublist es := by
  induction es with
  | nil => exact .slnil
  | cons e es ih =>
      rw [erase]
      split
      · exact List.sublist_cons_self _ _
      · exact ih.cons_cons _

theorem Sorted.erase {es : Entries α} (h : es.Sorted) (k : String) : Sorted (Entries.erase k es) :=
  h.sublist (erase_sublist k es)

theorem Sorted.get?_erase {es : Entries α} (h : es.Sorted) (k : String) : (Entries.erase k es).get? k = none := by
  induction es with
  | nil => rfl
  | cons e es ih =>
      obtain ⟨k', a⟩ := e
      by_cases hk : k = k'
      · subst hk
        rw [Entries.erase, if_pos rfl]
        exact h.get?_tail
      · simp [Entries.erase, get?, hk, ih (List.pairwise_cons.1 h).2]

/-- Giving a key the value that it has changes nothing. -/
theorem Sorted.insert_get? {k : String} {a : α} {es : Entries α} (h : es.Sorted) (hk : es.get? k = some a) :
    Entries.insert k a es = es := by
  induction es with
  | nil => cases hk
  | cons e es ih =>
      obtain ⟨k', a'⟩ := e
      rw [get?] at hk
      split at hk
      · rename_i he
        cases hk
        rw [Entries.insert, he, if_neg (String.lt_irrefl k'), if_pos rfl]
      · rename_i he
        have hlt := String.lt_asymm (h.lt_of_get? hk)
        simp [Entries.insert, hlt, he, ih (List.pairwise_cons.1 h).2 hk]

theorem Sorted.erase_insert {k : String} {a b : α} {es : Entries α} (h : es.Sorted) (hk : es.get? k = some a) :
    Entries.erase k (Entries.insert k b es) = Entries.erase k es := by
  induction es with
  | nil => cases hk
  | cons e es ih =>
      obtain ⟨k', a'⟩ := e
      rw [get?] at hk
      split at hk
      · rename_i he
        rw [Entries.insert, he, if_neg (String.lt_irrefl k'), if_pos rfl, Entries.erase, Entries.erase, if_pos rfl,
          if_pos rfl]
      · rename_i he
        have hlt := String.lt_asymm (h.lt_of_get? hk)
        simp [Entries.insert, Entries.erase, hlt, he, ih (List.pairwise_cons.1 h).2 hk]

/-- Giving a key another value leaves a single entry just if there is no other key. -/
theorem insert_eq_singleton_iff {k : String} {a b c : α} {es : Entries α} (hk : es.get? k = some a) :
    insert k b es = [(k, c)] ↔ b = c ∧ erase k es = [] := by
  cases es with
  | nil => cases hk
  | cons e es =>
      obtain ⟨k', a'⟩ := e
      by_cases he : k = k'
      · subst he
        rw [insert, if_neg (String.lt_irrefl k), if_pos rfl, erase, if_pos rfl, List.cons.injEq, Prod.mk.injEq,
          eq_self, true_and]
      · by_cases hlt : k < k' <;> simp [insert, erase, he, Ne.symm he, hlt]

theorem Sorted.nodup_keys {es : Entries α} (h : es.Sorted) : (es.map Prod.fst).Nodup := by
  refine List.pairwise_map.2 (h.imp fun hlt he => ?_)
  rw [he] at hlt
  exact String.lt_irrefl _ hlt

/-- Sorted entries are the same if they give every key the same value. -/
theorem Sorted.mapValues {es : Entries α} (h : es.Sorted) (f : α → β) : Sorted (es.map fun e => (e.1, f e.2)) :=
  List.pairwise_map.2 h

theorem Sorted.ext {es es' : Entries α} (h : es.Sorted) (h' : es'.Sorted) (hk : ∀ k, es.get? k = es'.get? k) :
    es = es' := by
  induction es generalizing es' with
  | nil =>
      cases es' with
      | nil => rfl
      | cons e es' => simpa [get?] using hk e.1
  | cons e es ih =>
      obtain ⟨k, a⟩ := e
      cases es' with
      | nil => simpa [get?] using hk k
      | cons e' es' =>
          obtain ⟨k', a'⟩ := e'
          -- Of two different first keys, each would stand behind the other.
          have hkk : k = k' := by
            refine Decidable.byContradiction fun hne => ?_
            have hlt : k < k' := h.lt_of_get? (by simpa [get?, Ne.symm hne] using hk k')
            have hlt' : k' < k := h'.lt_of_get? (by simpa [get?, hne] using (hk k).symm)
            exact String.lt_asymm hlt hlt'
          subst hkk
          have ha : a = a' := by simpa [get?] using hk k
          rw [ha, ih (List.pairwise_cons.1 h).2 (List.pairwise_cons.1 h').2 fun l => ?_]
          by_cases hl : l = k
          · subst hl
            rw [h.get?_tail, h'.get?_tail]
          · simpa [get?, hl] using hk l

/-! ## Keys -/

theorem mem_keys_iff {k : String} {es : Entries α} : k ∈ keys es ↔ ∃ a, es.get? k = some a := by
  induction es with
  | nil => simp [keys, get?]
  | cons e es ih =>
      obtain ⟨k', a⟩ := e
      rw [keys, List.map_cons, List.mem_cons, ← keys, ih]
      by_cases hk : k = k' <;> simp [get?, hk]

/-- Where no key comes twice, look-up finds every entry. -/
theorem get?_eq_some_iff_mem {k : String} {a : α} {es : Entries α} (h : (keys es).Nodup) :
    es.get? k = some a ↔ (k, a) ∈ es := by
  induction es with
  | nil => simp [get?]
  | cons e es ih =>
      obtain ⟨k', a'⟩ := e
      obtain ⟨hn, hes⟩ := List.nodup_cons.1 h
      by_cases hk : k = k'
      · subst hk
        have hmem : (k, a) ∉ es := fun hm => hn (List.mem_map.2 ⟨(k, a), hm, rfl⟩)
        simp [get?, hmem, eq_comm]
      · simp [get?, hk, ih hes]

theorem get?_congr {es es' : Entries α} (h : es.Perm es') (hn : (keys es).Nodup) (k : String) :
    es.get? k = es'.get? k := by
  have hn' : (keys es').Nodup := (h.map Prod.fst).nodup_iff.1 hn
  apply Option.ext
  intro a
  rw [get?_eq_some_iff_mem hn, get?_eq_some_iff_mem hn', h.mem_iff]

/-- Look-up finds the first entry of a key. -/
theorem get?_eq_some_iff {k : String} {a : α} {es : Entries α} :
    es.get? k = some a ↔ ∃ es₁ es₂, es = es₁ ++ (k, a) :: es₂ ∧ k ∉ keys es₁ := by
  constructor
  · intro h
    induction es with
    | nil => cases h
    | cons e es ih =>
        obtain ⟨k', a'⟩ := e
        rw [get?] at h
        split at h
        · rename_i hk
          cases h
          exact ⟨[], es, by rw [hk, List.nil_append], List.not_mem_nil⟩
        · rename_i hk
          obtain ⟨es₁, es₂, rfl, hn⟩ := ih h
          exact ⟨(k', a') :: es₁, es₂, rfl, by simpa [keys, hk] using hn⟩
  · rintro ⟨es₁, es₂, rfl, hn⟩
    have h₁ : get? k es₁ = none := by
      rw [Option.eq_none_iff_forall_ne_some]
      exact fun a h => hn (mem_keys_iff.2 ⟨a, h⟩)
    rw [get?_append, h₁, get?, if_pos rfl, Option.none_or]

/-! ## Maps of lists of pairs -/

theorem foldl_insert_sorted (ps : List (String × α)) {es : Entries α} (h : es.Sorted) :
    Sorted (ps.foldl (fun es p => insert p.1 p.2 es) es) := by
  induction ps generalizing es with
  | nil => exact h
  | cons p ps ih => exact ih (h.insert _ _)

theorem sorted_ofList (ps : List (String × α)) : (ofList ps).Sorted := foldl_insert_sorted ps .nil

theorem get?_foldl_insert (k : String) (ps : List (String × α)) (es : Entries α) :
    get? k (ps.foldl (fun es p => insert p.1 p.2 es) es) = (get? k ps.reverse).or (get? k es) := by
  induction ps generalizing es with
  | nil => rfl
  | cons p ps ih =>
      rw [List.foldl_cons, ih, get?_insert, List.reverse_cons, get?_append, Option.or_assoc]
      obtain ⟨k', a⟩ := p
      by_cases h : k = k' <;> simp [get?, h]

/-- Where no key comes twice, it does not matter in which order the pairs are inserted. -/
theorem foldl_insert_eq_of_perm {ps qs : List (String × α)} {es : Entries α} (h : es.Sorted) (hp : ps.Perm qs)
    (hn : (keys ps).Nodup) :
    ps.foldl (fun es p => insert p.1 p.2 es) es = qs.foldl (fun es p => insert p.1 p.2 es) es := by
  refine (foldl_insert_sorted ps h).ext (foldl_insert_sorted qs h) fun k => ?_
  have hr : ps.reverse.Perm qs.reverse := ps.reverse_perm.trans (hp.trans qs.reverse_perm.symm)
  have hnr : (keys ps.reverse).Nodup := (ps.reverse_perm.map Prod.fst).nodup_iff.2 hn
  rw [get?_foldl_insert, get?_foldl_insert, get?_congr hr hnr]

/-- The last value of a key counts. -/
theorem get?_ofList (k : String) (ps : List (String × α)) : get? k (ofList ps) = get? k ps.reverse := by
  simp [ofList, get?_foldl_insert, get?]

theorem foldl_insert_of_sorted {es es' : Entries α} (h : Sorted (es ++ es')) :
    es'.foldl (fun es p => insert p.1 p.2 es) es = es ++ es' := by
  induction es' generalizing es with
  | nil => simp
  | cons e es' ih =>
      have hlt : ∀ e' ∈ es, e'.1 < e.1 := fun e' he' =>
        (List.pairwise_append.1 h).2.2 e' he' e List.mem_cons_self
      rw [List.foldl_cons, insert_of_forall_lt hlt, ih (by simpa using h)]
      simp

theorem mem_of_mem_foldl_insert {ps : List (String × α)} {es : Entries α} {e}
    (h : e ∈ ps.foldl (fun es p => insert p.1 p.2 es) es) : e ∈ ps ∨ e ∈ es := by
  induction ps generalizing es with
  | nil => exact .inr h
  | cons p ps ih =>
      rcases ih h with h | h
      · exact .inl (List.mem_cons_of_mem _ h)
      · rcases eq_or_mem_of_mem_insert h with rfl | h
        · exact .inl List.mem_cons_self
        · exact .inr h

theorem mem_of_mem_ofList {ps : List (String × α)} {e} (h : e ∈ ofList ps) : e ∈ ps :=
  (mem_of_mem_foldl_insert h).resolve_right (by simp)

/-- Sorted entries are the map of themselves. -/
theorem ofList_of_sorted {es : Entries α} (h : es.Sorted) : ofList es = es := foldl_insert_of_sorted h

end JsonTree.Entries
