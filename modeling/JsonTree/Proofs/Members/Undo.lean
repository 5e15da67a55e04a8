import JsonTree.Proofs.Members.Remove
import JsonTree.Proofs.Members.Store

/-!
# Storing undone

A removal that erases empty objects takes away what storing along the same path has made: the value, and the objects
that were made to hold it. It does not stop at an object that was empty before.
-/

namespace JsonTree.Members

open Value

variable {k k' : String} {ks : List String} {ms : Members} {v w : Value}

/-! ## Ways -/

/-- Of the values on the way of `p`, each that is there is an object with members. -/
def SolidWay (p : List String) (v : Value) : Prop :=
  ∀ q k r w, q ≠ [] → p = q ++ k :: r → at? q v = some w → ∃ m rest, w = .object (m :: rest)

theorem solidWay_singleton (k : String) (v : Value) : SolidWay [k] v := by
  intro q k' r w hq hp hw
  cases q with
  | nil => exact absurd rfl hq
  | cons k'' q => simp at hp

theorem solidWay_of_get?_eq_none (h : Entries.get? k ms = none) : SolidWay (k :: ks) (.object ms) := by
  intro q k' r w hq hp hw
  cases q with
  | nil => exact absurd rfl hq
  | cons k'' q =>
      cases hp
      simp [h] at hw

theorem solidWay_cons_iff (h : Entries.get? k ms = some w) : SolidWay (k :: k' :: ks) (.object ms) ↔
    (∃ m rest, w = .object (m :: rest)) ∧ SolidWay (k' :: ks) w := by
  constructor
  · intro hs
    refine ⟨hs [k] k' ks w (List.cons_ne_nil _ _) rfl (by simp [h]), ?_⟩
    intro q l r u hq hp hu
    exact hs (k :: q) l r u (List.cons_ne_nil _ _) (congrArg _ hp) (by simpa [h] using hu)
  · rintro ⟨hw, hs⟩ q l r u hq hp hu
    cases q with
    | nil => exact absurd rfl hq
    | cons k'' q =>
        simp only [List.cons_append, List.cons.injEq] at hp
        obtain ⟨rfl, hp⟩ := hp
        replace hu : at? q w = some u := by simpa [h] using hu
        cases q with
        | nil =>
            rw [at?_nil] at hu
            cases hu
            exact hw
        | cons _ _ => exact hs _ l r u (List.cons_ne_nil _ _) hp hu

/-! ## Steps -/

/-- Putting back gives a key the value that it had just if the value is what is put back and is not erased. -/
theorem putBack_insert_eq_iff {below : Members} (hs : Entries.Sorted ms) (hk : Entries.get? k ms = some w) (v : Value) :
    putBack .erase k below (Entries.insert k v ms) = ms ↔ below ≠ [] ∧ w = .object below := by
  have hget : Entries.get? k (putBack .erase k below (Entries.insert k v ms)) = _ :=
    get?_putBack (hs.insert k v) below
  constructor
  · intro h
    rw [h, hk] at hget
    cases below with
    | nil => simp at hget
    | cons m rest => exact ⟨List.cons_ne_nil m rest, by simpa using hget⟩
  · rintro ⟨hne, rfl⟩
    simp [putBack, hne, Entries.insert_insert, hs.insert_get? hk]

theorem removeAlong?_storeAlong (v : Value) (hc : Canonical (.object ms)) (hn : at? (k :: ks) (.object ms) = none) :
    ∃ left, removeAlong? .erase k ks (storeAlong v k ks ms) = some (v, left) ∧
      (left = ms ↔ SolidWay (k :: ks) (.object ms)) := by
  induction ks generalizing k ms with
  | nil =>
      replace hn : Entries.get? k ms = none := by simpa using hn
      refine ⟨ms, ?_, by simp [solidWay_singleton]⟩
      simp [removeAlong?, storeAlong, Entries.get?_insert, Entries.erase_insert_of_get?_eq_none hn]
  | cons k' ks ih =>
      -- Storing goes on in the object that the key has, or in a new one.
      have hinner : Canonical (.object (ofValue (Entries.get? k ms))) := .ofValue fun w hw => .of_get? hc.2 hw
      have hnone : at? (k' :: ks) (.object (ofValue (Entries.get? k ms))) = none := by
        rw [at?_ofValue (List.cons_ne_nil _ _)]
        exact hn
      obtain ⟨below, hr, hbelow⟩ := ih hinner hnone
      refine ⟨_, removeAlong?_cons_eq_some_iff.2 ⟨_, below, ?_, hr, rfl⟩, ?_⟩
      · rw [storeAlong, Entries.get?_insert, if_pos rfl]
      · rw [storeAlong]
        cases hk : Entries.get? k ms with
        | none =>
            rw [hk] at hbelow
            obtain rfl : below = [] := hbelow.2 (solidWay_of_get?_eq_none rfl)
            simp [putBack, Entries.erase_insert_of_get?_eq_none hk, solidWay_of_get?_eq_none hk]
        | some w =>
            rw [hk] at hbelow
            rw [putBack_insert_eq_iff hc.1 hk, solidWay_cons_iff hk]
            constructor
            · rintro ⟨hne, rfl⟩
              obtain ⟨m, rest, hm⟩ := List.exists_cons_of_ne_nil hne
              exact ⟨⟨m, rest, congrArg _ hm⟩, hbelow.1 rfl⟩
            · rintro ⟨⟨m, rest, rfl⟩, hs⟩
              obtain rfl : below = m :: rest := hbelow.2 hs
              exact ⟨List.cons_ne_nil m rest, rfl⟩

/-! ## Paths -/

/-- Where a path leads nowhere, a value can be stored along it and be removed again. If empty objects are erased, this
leaves the object as it was just if on the way there was nothing but objects with members, as far as there was
anything. -/
theorem removePath_storePath (ms : Members) (hc : Canonical (.object ms)) (path : String) (v : Value) :
    let p := Path.ofString path
    getPath? ms p = none →
      (removePath (storePath ms p v) p .erase).1 = some v ∧
      ((removePath (storePath ms p v) p .erase).2 = ms ↔ SolidWay p.segments (.object ms)) := by
  intro p hn
  obtain ⟨left, hr, hleft⟩ := removeAlong?_storeAlong v hc hn
  rw [removePath, storePath, hr]
  exact ⟨rfl, hleft⟩

/-- A member that is not on the way, beside an object with one member. -/
def oneBranch : Members := [("a", .object [("x", .null)]), ("b", .boolean true)]

/-- Two objects are made for the value, and erased with it. -/
theorem removePath_storePath_oneBranch :
    let p := Path.ofString "a.y..z"
    let stored : Members :=
      [("a", .object [("x", .null), ("y", .object [("", .object [("z", .integer 1)])])]), ("b", .boolean true)]
    Canonical (.object oneBranch) ∧ getPath? oneBranch p = none ∧ SolidWay p.segments (.object oneBranch) ∧
    storePath oneBranch p (.integer 1) = stored ∧
    removePath stored p .erase = (some (.integer 1), oneBranch) := by
  intro p stored
  have hc : Canonical (.object oneBranch) := by
    simp only [oneBranch, Canonical, CanonicalMembers, and_true, Entries.Sorted]
    decide
  have hway : SolidWay p.segments (.object oneBranch) :=
    (solidWay_cons_iff (k := "a") rfl).2 ⟨⟨_, _, rfl⟩, solidWay_of_get?_eq_none rfl⟩
  obtain ⟨hremoved, hleft⟩ := removePath_storePath oneBranch hc "a.y..z" (.integer 1) rfl
  have hp : p = ⟨"a", ["y", "", "z"]⟩ := rfl
  have hstored : storePath oneBranch p (.integer 1) = stored := by
    rw [hp]
    rfl
  rw [← hstored]
  exact ⟨hc, rfl, hway, rfl, Prod.ext hremoved (hleft.2 hway)⟩

end JsonTree.Members
