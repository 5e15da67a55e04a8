import JsonTree.Members.Path
import JsonTree.Proofs.Entries

/-!
# Reading along keys

Reading along some keys and then along others is reading along all of them. What is done at the end of a list of keys
may show along its starts and its continuations, and along no other keys.
-/

namespace JsonTree.Value

/-- Two values give the same along all keys of which neither `p` is a start nor they a start of `p`. -/
def AgreeOff (p : List String) (v w : Value) : Prop := ∀ q, ¬ q <+: p → ¬ p <+: q → at? q v = at? q w

@[simp] theorem at?_nil : at? [] = some := by
  funext v
  cases v <;> rfl

@[simp] theorem at?_cons (k : String) (ks : List String) (ms : Members) :
    at? (k :: ks) (.object ms) = (Entries.get? k ms).bind (at? ks) := rfl

theorem at?_append (p q : List String) (v : Value) : at? (p ++ q) v = (at? p v).bind (at? q) := by
  induction p generalizing v with
  | nil => simp
  | cons k p ih =>
      cases v with
      | object ms => cases h : Entries.get? k ms <;> simp [h, ih]
      | _ => rfl

/-- There is nothing to be read in what is no object. -/
theorem bind_at?_eq_none {x : Option Value} (hx : ∀ ms, x = some (.object ms) → False) (k : String)
    (ks : List String) : x.bind (at? (k :: ks)) = none := by
  cases x with
  | none => rfl
  | some v =>
      cases v with
      | object ms => exact absurd rfl (hx ms)
      | _ => rfl

/-- Reading along no keys aside, a value without members gives what no members give. -/
theorem at?_ofValue {q : List String} (hq : q ≠ []) (x : Option Value) :
    at? q (.object (Members.ofValue x)) = x.bind (at? q) := by
  cases q with
  | nil => exact absurd rfl hq
  | cons k q =>
      cases x with
      | none => rfl
      | some v => cases v <;> rfl

/-! ## Order of keys -/

theorem canonicalMembers_iff {ms : Members} : CanonicalMembers ms ↔ ∀ m ∈ ms, m.2.Canonical := by
  induction ms with
  | nil => simp [CanonicalMembers]
  | cons m ms ih => rw [CanonicalMembers, ih, List.forall_mem_cons]

theorem Canonical.of_get? {k : String} {v : Value} {ms : Members} (h : CanonicalMembers ms)
    (hk : Entries.get? k ms = some v) : v.Canonical :=
  canonicalMembers_iff.1 h _ (Entries.mem_of_get? hk)

theorem Canonical.insert {k : String} {v : Value} {ms : Members} (h : Canonical (.object ms)) (hv : v.Canonical) :
    Canonical (.object (Entries.insert k v ms)) := by
  refine ⟨h.1.insert k v, canonicalMembers_iff.2 fun m hm => ?_⟩
  rcases Entries.eq_or_mem_of_mem_insert hm with rfl | hm
  · exact hv
  · exact canonicalMembers_iff.1 h.2 m hm

theorem Canonical.erase {ms : Members} (h : Canonical (.object ms)) (k : String) :
    Canonical (.object (Entries.erase k ms)) :=
  ⟨h.1.erase k, canonicalMembers_iff.2 fun m hm =>
    canonicalMembers_iff.1 h.2 m ((Entries.erase_sublist k ms).subset hm)⟩

theorem Canonical.ofValue {x : Option Value} (h : ∀ v ∈ x, v.Canonical) : Canonical (.object (Members.ofValue x)) := by
  unfold Members.ofValue
  split
  · exact h _ rfl
  · exact ⟨.nil, trivial⟩

end JsonTree.Value
