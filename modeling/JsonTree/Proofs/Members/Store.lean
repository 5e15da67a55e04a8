import JsonTree.Proofs.Members.Reading

/-!
# Storing along paths

After a value is stored along a path, it is what the path leads to. The objects on the way have one member that is new,
and what other keys lead to stays as it was.
-/

namespace JsonTree.Members

open Value

variable {k : String} {ks q : List String} {ms : Members}

/-! ## Keys -/

theorem at?_storeAlong (v : Value) (k : String) (ks : List String) (ms : Members) :
    at? (k :: ks) (.object (storeAlong v k ks ms)) = some v := by
  induction ks generalizing k ms with
  | nil => simp [storeAlong, Entries.get?_insert]
  | cons k' ks ih => simpa [storeAlong, Entries.get?_insert] using ih k' (ofValue (Entries.get? k ms))

theorem agreeOff_storeAlong (v : Value) (k : String) (ks : List String) (ms : Members) :
    AgreeOff (k :: ks) (.object (storeAlong v k ks ms)) (.object ms) := by
  intro q hq hp
  induction ks generalizing k ms q with
  | nil =>
      cases q with
      | nil => exact absurd List.nil_prefix hq
      | cons k' q =>
          have hk : k' ≠ k := by
            rintro rfl
            exact hp (List.prefix_append [k'] q)
          simp [storeAlong, Entries.get?_insert, hk]
  | cons k'' ks ih =>
      cases q with
      | nil => exact absurd List.nil_prefix hq
      | cons k' q =>
          rw [storeAlong, at?_cons, at?_cons, Entries.get?_insert]
          split
          · -- Both go on below the first key of the path.
            rename_i hk
            subst hk
            rw [List.cons_prefix_cons, not_and] at hq hp
            have hne : q ≠ [] := by
              rintro rfl
              exact hq rfl List.nil_prefix
            rw [Option.bind_some, ih k'' _ q (hq rfl) (hp rfl), at?_ofValue hne]
          · rfl

/-- Storing is giving the first key a value. -/
theorem exists_storeAlong (v : Value) (k : String) (ks : List String) :
    ∃ f : Members → Value, ∀ ms, storeAlong v k ks ms = Entries.insert k (f ms) ms := by
  cases ks with
  | nil => exact ⟨fun _ => v, fun _ => rfl⟩
  | cons k' ks => exact ⟨_, fun _ => rfl⟩

/-- What stands at a start of the path is what is stored along the other keys. -/
theorem at?_storeAlong_start (v : Value) {r : List String} {k' : String} (h : k :: ks = q ++ k' :: r) :
    at? q (.object (storeAlong v k ks ms)) = some (.object (storeAlong v k' r (ofValue (at? q (.object ms))))) := by
  induction q generalizing k ks ms with
  | nil =>
      cases h
      simp [ofValue]
  | cons k'' q ih =>
      simp only [List.cons_append, List.cons.injEq] at h
      obtain ⟨rfl, rfl⟩ := h
      cases hq : q ++ k' :: r with
      | nil => simp at hq
      | cons k'' ks =>
          rw [storeAlong, at?_cons, Entries.get?_insert, if_pos rfl, Option.bind_some, ih hq.symm, at?_cons]
          cases q with
          | nil => simp [ofValue]
          | cons _ _ => rw [at?_ofValue (List.cons_ne_nil _ _)]

theorem storeAlong_storeAlong (v w : Value) (k : String) (ks : List String) (ms : Members) :
    storeAlong w k ks (storeAlong v k ks ms) = storeAlong w k ks ms := by
  induction ks generalizing k ms with
  | nil => exact Entries.insert_insert k w v ms
  | cons k' ks ih => simp [storeAlong, Entries.get?_insert, Entries.insert_insert, ofValue, ih]

theorem storeAlong_of_at? {v : Value} (hc : Canonical (.object ms)) (h : at? (k :: ks) (.object ms) = some v) :
    storeAlong v k ks ms = ms := by
  induction ks generalizing k ms with
  | nil => exact hc.1.insert_get? (by simpa using h)
  | cons k' ks ih =>
      rw [at?_cons] at h
      obtain ⟨w, hw, h⟩ := Option.bind_eq_some_iff.1 h
      cases w with
      | object inner =>
          rw [storeAlong, hw, ofValue, ih (Canonical.of_get? hc.2 hw) h]
          exact hc.1.insert_get? hw
      | _ => cases h

/-! ## Paths -/

/-- The objects on the way of a path, after storing along it: each has the next key, and what else it has is what it
had as an object before. -/
def PathStored (p : List String) (before after : Value) : Prop :=
  ∀ q k r, q ≠ [] → p = q ++ k :: r → ∃ w,
    (∀ ms, at? q before = some (.object ms) → at? q after = some (.object (Entries.insert k w ms))) ∧
    ((∀ ms, at? q before ≠ some (.object ms)) → at? q after = some (.object [(k, w)]))

theorem pathStored_storeAlong (v : Value) (k : String) (ks : List String) (ms : Members) :
    PathStored (k :: ks) (.object ms) (.object (storeAlong v k ks ms)) := by
  intro q k' r hq hp
  obtain ⟨f, hf⟩ := exists_storeAlong v k' r
  refine ⟨f (ofValue (at? q (.object ms))), ?_⟩
  rw [at?_storeAlong_start v hp, hf]
  constructor
  · intro inner hinner
    rw [hinner, ofValue]
  · intro hne
    have hnone : ofValue (at? q (.object ms)) = [] := by
      unfold ofValue
      split
      · exact absurd ‹_› (hne _)
      · rfl
    rw [hnone, Entries.insert]

/-- What storing a value along a path does to an object, said by what can be read along keys afterwards. Reading gives
the value behind the path, what it gave before off the path, and objects on the way, which are new where there were
none. So the path leads to the value, the last of two values stored counts, and a value that is there already can be
stored without a change. -/
theorem at?_storePath (ms : Members) (path : String) (v : Value) :
    let p := Path.ofString path
    let after := storePath ms p v
    at? p.segments (.object after) = some v ∧
    (∀ r, at? (p.segments ++ r) (.object after) = at? r v) ∧
    AgreeOff p.segments (.object after) (.object ms) ∧
    PathStored p.segments (.object ms) (.object after) ∧
    getPath? after p = some v ∧
    (∀ w, storePath after p w = storePath ms p w) ∧
    (Canonical (.object ms) → getPath? ms p = some v → after = ms) := by
  intro p after
  have hv : at? p.segments (.object after) = some v := at?_storeAlong v p.first p.rest ms
  refine ⟨hv, fun r => ?_, agreeOff_storeAlong v p.first p.rest ms, pathStored_storeAlong v p.first p.rest ms, hv,
    fun w => storeAlong_storeAlong v w p.first p.rest ms, storeAlong_of_at?⟩
  rw [at?_append, hv, Option.bind_some]

/-- An object with a key that has a dot in it, beside a path with that dot. -/
def dottedKey : Members := [("a", .object [("b", .null), ("b.c", .boolean true)])]

theorem at?_storePath_dottedKey :
    Canonical (.object dottedKey) ∧ getPath? dottedKey (.ofString "a.b") = some .null ∧
    storePath dottedKey (.ofString "a.b") .null = dottedKey ∧
    at? ["a", "b.c"] (.object (storePath dottedKey (.ofString "a.b") (.integer 1))) = some (.boolean true) := by
  have hc : Canonical (.object dottedKey) := by
    simp only [dottedKey, Canonical, CanonicalMembers, and_true, Entries.Sorted]
    decide
  obtain ⟨-, -, -, -, -, -, hback⟩ := at?_storePath dottedKey "a.b" .null
  obtain ⟨-, -, hoff, -⟩ := at?_storePath dottedKey "a.b" (.integer 1)
  exact ⟨hc, rfl, hback hc rfl, (hoff ["a", "b.c"] (by decide) (by decide)).trans rfl⟩

end JsonTree.Members
