import JsonTree.Proofs.Members.Remove
import JsonTree.Proofs.Members.Store

/-!
# Slots along paths

A slot is come to key by key, through the objects on the way. Going there changes nothing, also where the way ends too
early. There is a slot where there is a value to be read, and what is put into it is stored along the path.
-/

namespace JsonTree

open Value

variable {α : Type} {a : α} {s t : Slot α} {k : String} {ks : List String} {ms : Members}

namespace Slot

/-! ## Walks -/

/-- The slot of a key in the object that is in a slot. -/
def enter? (s : Slot α) (k : String) : Option (Slot α) :=
  match s.value with
  | .object ms => (Members.slot? ms k).map fun t => t.within fun ms => s.put (.object ms)
  | _ => none

/-- Goes from slot to slot as long as there is one for the next key. Gives the keys that are left, and the slot where it
has come to. -/
def walk (s : Slot α) : List String → List String × Slot α
  | [] => ([], s)
  | k :: ks =>
      match s.enter? k with
      | some t => t.walk ks
      | none => (k :: ks, s)

/-- What is around the slot is `a` as long as nothing is put into the slot. -/
def Keeps (s : Slot α) (a : α) : Prop := s.put s.value = a

theorem enter?_eq_some_iff : s.enter? k = some t ↔ ∃ ms v, s.value = .object ms ∧ Entries.get? k ms = some v ∧
    t = ⟨v, fun w => s.put (.object (Entries.insert k w ms))⟩ := by
  unfold enter?
  split
  · rename_i ms hs
    constructor
    · intro h
      obtain ⟨u, hu, rfl⟩ := Option.map_eq_some_iff.1 h
      obtain ⟨v, hk, rfl⟩ := Option.map_eq_some_iff.1 hu
      exact ⟨ms, v, hs, hk, rfl⟩
    · rintro ⟨_, v, hs', hk, rfl⟩
      cases hs.symm.trans hs'
      simp [Members.slot?, hk, within]
  · rename_i hne
    constructor
    · intro h
      cases h
    · rintro ⟨ms, -, hs, -⟩
      exact absurd hs (hne ms)

/-- A step into an object changes nothing. -/
theorem Keeps.enter? (h : s.Keeps a) (hc : s.value.Canonical) (ht : s.enter? k = some t) :
    t.Keeps a ∧ t.value.Canonical := by
  obtain ⟨ms, v, hs, hk, rfl⟩ := enter?_eq_some_iff.1 ht
  rw [hs] at hc
  refine ⟨?_, .of_get? hc.2 hk⟩
  simpa only [Keeps, hc.1.insert_get? hk, hs] using h

/-- Wherever a walk ends, nothing has changed. -/
theorem Keeps.walk (h : s.Keeps a) (hc : s.value.Canonical) : (s.walk ks).2.Keeps a := by
  induction ks generalizing s with
  | nil => exact h
  | cons k ks ih =>
      rw [Slot.walk]
      split
      · rename_i t ht
        obtain ⟨h, hc⟩ := h.enter? hc ht
        exact ih h hc
      · exact h

/-- A step goes where reading goes. -/
theorem at?_cons_eq_enter? (s : Slot α) (k : String) (ks : List String) :
    at? (k :: ks) s.value = (s.enter? k).bind fun t => at? ks t.value := by
  unfold enter?
  split
  · rename_i ms hs
    rw [hs, at?_cons, Members.slot?]
    cases Entries.get? k ms <;> rfl
  · rename_i hne
    exact bind_at?_eq_none (x := some s.value) (fun ms h => hne ms (Option.some.inj h)) k ks

/-- A walk comes to the end of the keys just if there is a value to be read, and this value is there. -/
theorem at?_eq_walk (s : Slot α) (ks : List String) :
    at? ks s.value = if (s.walk ks).1 = [] then some (s.walk ks).2.value else none := by
  induction ks generalizing s with
  | nil => simp [walk]
  | cons k ks ih =>
      rw [at?_cons_eq_enter?, walk]
      cases s.enter? k with
      | none => simp
      | some t => simpa using ih t

end Slot

namespace Members

/-! ## Slots of objects -/

theorem map_value_slotAlong? (k : String) (ks : List String) (ms : Members) :
    (slotAlong? k ks ms).map Slot.value = at? (k :: ks) (.object ms) := by
  induction ks generalizing k ms with
  | nil => simp [slotAlong?, slot?, Function.comp_def]
  | cons k' ks ih =>
      rw [slotAlong?, at?_cons]
      split
      · rename_i inner hk
        rw [hk, Option.bind_some, ← ih, Option.map_map]
        rfl
      · rename_i hne
        exact (bind_at?_eq_none hne k' ks).symm

theorem put_of_slotAlong? {s : Slot Members} (h : slotAlong? k ks ms = some s) (w : Value) :
    s.put w = storeAlong w k ks ms := by
  induction ks generalizing k ms s with
  | nil =>
      obtain ⟨v, -, rfl⟩ := Option.map_eq_some_iff.1 h
      rfl
  | cons k' ks ih =>
      rw [slotAlong?] at h
      split at h
      · rename_i inner hk
        obtain ⟨t, ht, rfl⟩ := Option.map_eq_some_iff.1 h
        rw [storeAlong, hk, ofValue, ← ih ht]
        rfl
      · cases h

/-- The slot of a list of keys is where a walk along them ends. -/
theorem walk_of_slotAlong? {t : Slot Members} (h : slotAlong? k ks ms = some t) (hs : s.value = .object ms) :
    s.walk (k :: ks) = ([], t.within fun ms => s.put (.object ms)) := by
  induction ks generalizing k ms s t with
  | nil =>
      obtain ⟨v, hk, rfl⟩ := Option.map_eq_some_iff.1 h
      rw [Slot.walk, Slot.enter?_eq_some_iff.2 ⟨ms, v, hs, hk, rfl⟩]
      rfl
  | cons k' ks ih =>
      rw [slotAlong?] at h
      split at h
      · rename_i inner hk
        obtain ⟨t, ht, rfl⟩ := Option.map_eq_some_iff.1 h
        rw [Slot.walk, Slot.enter?_eq_some_iff.2 ⟨ms, _, hs, hk, rfl⟩]
        exact ih ht rfl
      · cases h

/-! ## Demands -/

theorem require_eq_ok_iff {key : String} {found : Option α} : require key found = .ok a ↔ found = some a := by
  cases found <;> simp [require]

theorem require_eq_error_iff {key : String} {found : Option α} {e : Violation} :
    require key found = .error e ↔ found = none ∧ e = .missingKey key := by
  cases found <;> simp [require, eq_comm]

/-! ## Paths -/

/-- Where a path leads for reading, it leads for changing, for storing and for removing, and nowhere else. There is a
slot just if there is a value, and it has this value. What is put into the slot is stored along the path. The walk to
the slot leaves the object as it is, whether or not it gets there. Those who hold the path to lead somewhere are told
that it does not just if there is nothing, and a removal finds what reading finds. -/
theorem walk_path (ms : Members) (hc : Canonical (.object ms)) (path : String) :
    let p := Path.ofString path
    let stop := (Slot.whole (.object ms)).walk p.segments
    (slotPath? ms p).map Slot.value = getPath? ms p ∧
    (∀ s w, slotPath? ms p = some s → s.put w = storePath ms p w) ∧
    (∀ s, slotPath? ms p = some s → stop = ([], s.within .object)) ∧
    (slotPath? ms p = none ↔ stop.1 ≠ []) ∧
    stop.2.put stop.2.value = .object ms ∧
    (∀ v, getPath ms path = .ok v ↔ getPath? ms p = some v) ∧
    (∀ e, getPath ms path = .error e ↔ getPath? ms p = none ∧ e = .missingKey path) ∧
    (∀ s, slotPath ms path = .ok s ↔ slotPath? ms p = some s) ∧
    (∀ e, slotPath ms path = .error e ↔ getPath? ms p = none ∧ e = .missingKey path) ∧
    ∀ mode, (removePath ms p mode).1 = getPath? ms p := by
  intro p stop
  have hvalue : (slotPath? ms p).map Slot.value = getPath? ms p := map_value_slotAlong? p.first p.rest ms
  have hnone : slotPath? ms p = none ↔ getPath? ms p = none := by rw [← hvalue, Option.map_eq_none_iff]
  have hstop : getPath? ms p = if stop.1 = [] then some stop.2.value else none :=
    Slot.at?_eq_walk (.whole (.object ms)) p.segments
  refine ⟨hvalue, fun s w hs => put_of_slotAlong? hs w, fun s hs => walk_of_slotAlong? hs rfl, ?_, ?_,
    fun v => require_eq_ok_iff, fun e => require_eq_error_iff, fun s => require_eq_ok_iff, fun e => ?_,
    fun mode => removePath_fst ms p mode⟩
  · rw [hnone, hstop]
    simp
  · exact Slot.Keeps.walk (s := .whole (.object ms)) rfl hc
  · rw [slotPath, require_eq_error_iff, hnone]

/-- An object with an empty key on the way to a value. -/
def emptyKey : Members := [("a", .object [("", .object [("b", .null)])]), ("z", .integer 1)]

/-- The slot behind an empty key, and a way that ends at a number. -/
theorem walk_path_emptyKey :
    Canonical (.object emptyKey) ∧
    (∃ s, slotPath? emptyKey (.ofString "a..b") = some s ∧ s.value = .null ∧
      s.put (.boolean true) = storePath emptyKey (.ofString "a..b") (.boolean true)) ∧
    slotPath emptyKey "z.b" = .error (.missingKey "z.b") ∧
    let stop := (Slot.whole (.object emptyKey)).walk ["z", "b"]
    stop.1 = ["b"] ∧ stop.2.put stop.2.value = .object emptyKey := by
  have hc : Canonical (.object emptyKey) := by
    simp only [emptyKey, Canonical, CanonicalMembers, and_true, Entries.Sorted]
    decide
  obtain ⟨hvalue, hput, -⟩ := walk_path emptyKey hc "a..b"
  have hnull : (slotPath? emptyKey (.ofString "a..b")).map Slot.value = some .null := hvalue
  obtain ⟨s, hs, hv⟩ := Option.map_eq_some_iff.1 hnull
  obtain ⟨-, -, -, -, hkeep, -, -, -, herror, -⟩ := walk_path emptyKey hc "z.b"
  exact ⟨hc, ⟨s, hs, hv, hput s _ hs⟩, (herror _).2 ⟨rfl, rfl⟩, rfl, hkeep⟩

end Members

end JsonTree
