import JsonTree.Proofs.Members.Reading

/-!
# Removing along paths

A removal takes away what a path leads to, and nothing that other keys lead to. If it is to erase objects that become
empty, it goes on to the first object on the way below which only such objects are left.
-/

namespace JsonTree

open Value

/-- Objects with one key each inside one another, and an empty one inside them all. -/
def Value.chain : List String → Value
  | [] => .object []
  | k :: ks => .object [(k, chain ks)]

namespace Members

variable {mode : EmptyObjects} {k : String} {ks p q : List String} {ms left erased : Members} {v : Value}

/-! ## Steps -/

/-- What a removal does with the first key of several, after what it did below. -/
def putBack (mode : EmptyObjects) (k : String) (below ms : Members) : Members :=
  if mode = .erase ∧ below.isEmpty then Entries.erase k ms else Entries.insert k (.object below) ms

theorem putBack_leave (k : String) (below ms : Members) :
    putBack .leave k below ms = Entries.insert k (.object below) ms := by simp [putBack]

theorem removeAlong?_cons_eq_some_iff {k' : String} : removeAlong? mode k (k' :: ks) ms = some (v, left) ↔
    ∃ inner below, Entries.get? k ms = some (.object inner) ∧ removeAlong? mode k' ks inner = some (v, below) ∧
      left = putBack mode k below ms := by
  rw [removeAlong?]
  split
  · rename_i inner hk
    rw [Option.map_eq_some_iff, hk]
    constructor
    · rintro ⟨⟨w, below⟩, hr, h⟩
      dsimp only at h
      rw [← apply_ite (Prod.mk w)] at h
      cases h
      exact ⟨inner, below, rfl, hr, rfl⟩
    · rintro ⟨_, below, ⟨⟩, hr, rfl⟩
      exact ⟨(v, below), hr, (apply_ite (Prod.mk v) ..).symm⟩
  · rename_i hne
    constructor
    · rintro ⟨⟩
    · rintro ⟨inner, -, hk, -⟩
      exact absurd hk (hne inner)

theorem get?_putBack_of_ne {k' : String} (h : k' ≠ k) (below : Members) :
    Entries.get? k' (putBack mode k below ms) = Entries.get? k' ms := by
  rw [putBack]
  split
  · exact Entries.get?_erase_of_ne h ms
  · rw [Entries.get?_insert, if_neg h]

theorem get?_putBack (hs : Entries.Sorted ms) (below : Members) :
    Entries.get? k (putBack mode k below ms) =
      if mode = .erase ∧ below.isEmpty then none else some (.object below) := by
  rw [putBack]
  split
  · exact hs.get?_erase k
  · rw [Entries.get?_insert, if_pos rfl]

/-! ## What is removed -/

theorem removeAlong?_fst (mode : EmptyObjects) (k : String) (ks : List String) (ms : Members) :
    (removeAlong? mode k ks ms).map Prod.fst = at? (k :: ks) (.object ms) := by
  induction ks generalizing k ms with
  | nil => simp [removeAlong?, Function.comp_def]
  | cons k' ks ih =>
      rw [removeAlong?, at?_cons]
      split
      · rename_i inner hk
        rw [hk, Option.bind_some, ← ih]
        cases removeAlong? mode k' ks inner with
        | none => rfl
        | some x => simp only [Option.map_some]; split <;> rfl
      · rename_i hne
        exact (bind_at?_eq_none hne k' ks).symm

theorem exists_removeAlong? (mode : EmptyObjects) (h : at? (k :: ks) (.object ms) = some v) :
    ∃ left, removeAlong? mode k ks ms = some (v, left) := by
  rw [← removeAlong?_fst mode] at h
  obtain ⟨x, hx, rfl⟩ := Option.map_eq_some_iff.1 h
  exact ⟨x.2, hx⟩

/-- What is off the path stays, whatever becomes of empty objects. -/
theorem agreeOff_removeAlong? (hc : Canonical (.object ms)) (h : removeAlong? mode k ks ms = some (v, left)) :
    AgreeOff (k :: ks) (.object left) (.object ms) := by
  intro q hq hp
  induction ks generalizing k ms left q with
  | nil =>
      obtain ⟨w, -, h⟩ := Option.map_eq_some_iff.1 h
      cases h
      cases q with
      | nil => exact absurd List.nil_prefix hq
      | cons k' q =>
          have hk : k' ≠ k := by
            rintro rfl
            exact hp (List.prefix_append [k'] q)
          rw [at?_cons, at?_cons, Entries.get?_erase_of_ne hk]
  | cons k'' ks ih =>
      obtain ⟨inner, below, hk, hr, rfl⟩ := removeAlong?_cons_eq_some_iff.1 h
      cases q with
      | nil => exact absurd List.nil_prefix hq
      | cons k' q =>
          by_cases he : k' = k
          · subst he
            rw [List.cons_prefix_cons, not_and] at hq hp
            have hne : q ≠ [] := by
              rintro rfl
              exact hq rfl List.nil_prefix
            have hi := ih (Canonical.of_get? hc.2 hk) hr q (hq rfl) (hp rfl)
            rw [at?_cons, at?_cons, get?_putBack hc.1, hk, Option.bind_some, ← hi]
            split
            · -- Nothing is left below, so there was nothing off the path.
              rename_i hb
              rw [List.isEmpty_iff.1 hb.2]
              cases q with
              | nil => exact absurd rfl hne
              | cons _ _ => rfl
            · rfl
          · rw [at?_cons, at?_cons, get?_putBack_of_ne he]

theorem at?_of_removeAlong? (hc : Canonical (.object ms)) (h : removeAlong? mode k ks ms = some (v, left)) :
    at? (k :: ks) (.object left) = none := by
  induction ks generalizing k ms left with
  | nil =>
      obtain ⟨w, -, h⟩ := Option.map_eq_some_iff.1 h
      cases h
      rw [at?_cons, hc.1.get?_erase, Option.bind_none]
  | cons k' ks ih =>
      obtain ⟨inner, below, hk, hr, rfl⟩ := removeAlong?_cons_eq_some_iff.1 h
      rw [at?_cons, get?_putBack hc.1]
      split
      · rfl
      · exact ih (Canonical.of_get? hc.2 hk) hr

theorem canonical_removeAlong? (hc : Canonical (.object ms)) (h : removeAlong? mode k ks ms = some (v, left)) :
    Canonical (.object left) := by
  induction ks generalizing k ms left with
  | nil =>
      obtain ⟨w, -, h⟩ := Option.map_eq_some_iff.1 h
      cases h
      exact hc.erase k
  | cons k' ks ih =>
      obtain ⟨inner, below, hk, hr, rfl⟩ := removeAlong?_cons_eq_some_iff.1 h
      rw [putBack]
      split
      · exact hc.erase k
      · exact hc.insert (ih (.of_get? hc.2 hk) hr)

/-! ## Objects left empty -/

/-- What stands at a start of the path is what is left of it after a removal along the other keys. -/
theorem at?_start_of_removeAlong?_leave {k' : String} {r : List String}
    (hc : Canonical (.object ms)) (h : removeAlong? .leave k ks ms = some (v, left)) (hp : k :: ks = q ++ k' :: r) :
    ∃ inner rest, at? q (.object ms) = some (.object inner) ∧ at? q (.object left) = some (.object rest) ∧
      removeAlong? .leave k' r inner = some (v, rest) := by
  induction q generalizing k ks ms left with
  | nil =>
      cases hp
      exact ⟨ms, left, by rw [at?_nil], by rw [at?_nil], h⟩
  | cons k'' q ih =>
      simp only [List.cons_append, List.cons.injEq] at hp
      obtain ⟨rfl, rfl⟩ := hp
      cases hq : q ++ k' :: r with
      | nil => simp at hq
      | cons k'' ks =>
          rw [hq] at h
          obtain ⟨inner, below, hk, hr, rfl⟩ := removeAlong?_cons_eq_some_iff.1 h
          obtain ⟨inner', rest, hi, hl, hr⟩ := ih (Canonical.of_get? hc.2 hk) hr hq.symm
          refine ⟨inner', rest, ?_, ?_, hr⟩
          · rw [at?_cons, hk, Option.bind_some, hi]
          · rw [at?_cons, get?_putBack hc.1]
            exact hl

/-! ## Objects erased -/

theorem at?_chain (r : List String) : at? r (chain r) = some (.object []) := by
  induction r with
  | nil => simp [chain]
  | cons k r ih => simpa [chain, Entries.get?] using ih

/-- All is erased just if a removal leaves nothing but a chain. -/
theorem erased_eq_nil_iff (hl : removeAlong? .leave k ks ms = some (v, left))
    (he : removeAlong? .erase k ks ms = some (v, erased)) :
    erased = [] ↔ Value.object left = chain (k :: ks).dropLast := by
  induction ks generalizing k ms left erased with
  | nil =>
      obtain ⟨w, hk, hl⟩ := Option.map_eq_some_iff.1 hl
      obtain ⟨w', -, he⟩ := Option.map_eq_some_iff.1 he
      cases hl
      cases he
      simp [chain]
  | cons k' ks ih =>
      replace ⟨inner, below, hk, hl, hleft⟩ := removeAlong?_cons_eq_some_iff.1 hl
      replace ⟨_, below', hk', he, herased⟩ := removeAlong?_cons_eq_some_iff.1 he
      rw [hk] at hk'
      cases hk'
      have hchain : chain (k :: k' :: ks).dropLast = .object [(k, chain (k' :: ks).dropLast)] := rfl
      rw [hleft, herased, hchain, putBack_leave, Value.object.injEq, Entries.insert_eq_singleton_iff hk, ← ih hl he]
      by_cases hb : below' = []
      · simp [putBack, hb]
      · have hne : Entries.insert k (.object below') ms ≠ [] := fun h => by
          have := Entries.get?_insert k k (.object below') ms
          rw [h] at this
          simp [Entries.get?] at this
        simp [putBack, hb, hne]

/-- At `q`, on the way of `p`, is nothing but the way of `p`, and it ends in an empty object. -/
def Hollow (ms : Members) (p q : List String) : Prop :=
  q ≠ [] ∧ ∃ r k, p = q ++ (r ++ [k]) ∧ at? q (.object ms) = some (chain r)

theorem not_hollow_singleton : ¬ Hollow ms [k] q := by
  rintro ⟨hq, r, k', hp, -⟩
  have hlen := congrArg List.length hp
  have := List.length_pos_iff.2 hq
  simp only [List.length_append, List.length_cons, List.length_nil] at hlen
  omega

theorem Hollow.start (h : Hollow ms p q) : q <+: p := by
  obtain ⟨-, r, k, rfl, -⟩ := h
  exact List.prefix_append q _

theorem Hollow.exists_cons (h : Hollow ms (k :: ks) q) : ∃ q', q = k :: q' := by
  obtain ⟨hq, r, k', hp, -⟩ := h
  cases q with
  | nil => exact absurd rfl hq
  | cons k'' q =>
      cases hp
      exact ⟨q, rfl⟩

theorem hollow_first_iff {k' : String} {w : Value} (hk : Entries.get? k ms = some w) :
    Hollow ms (k :: k' :: ks) [k] ↔ w = chain (k' :: ks).dropLast := by
  rw [Hollow, at?_cons, hk, at?_nil]
  constructor
  · rintro ⟨-, r, k'', hp, hw⟩
    rw [List.singleton_append, List.cons.injEq] at hp
    rw [hp.2, List.dropLast_concat]
    exact Option.some.inj hw
  · rintro rfl
    refine ⟨List.cons_ne_nil k [], (k' :: ks).dropLast, (k' :: ks).getLast (List.cons_ne_nil k' ks), ?_, rfl⟩
    rw [List.dropLast_concat_getLast, List.singleton_append]

theorem hollow_cons_iff {inner : Members} (hk : Entries.get? k ms = some (.object inner)) (hq : q ≠ []) :
    Hollow ms (k :: ks) (k :: q) ↔ Hollow inner ks q := by
  rw [Hollow, Hollow, at?_cons, hk, Option.bind_some]
  simp [hq]

/-- Without erasing, something is hollow just if the object that held the removed value is empty and is not the one
from which the path starts. -/
theorem exists_hollow_iff :
    (∃ q, Hollow ms p q) ↔ p.dropLast ≠ [] ∧ at? p.dropLast (.object ms) = some (.object []) := by
  constructor
  · rintro ⟨q, hq, r, k, rfl, hr⟩
    rw [← List.append_assoc, List.dropLast_concat, at?_append, hr, Option.bind_some, at?_chain]
    exact ⟨fun h => hq (List.append_eq_nil_iff.1 h).1, rfl⟩
  · rintro ⟨hp, h⟩
    have hne : p ≠ [] := by
      rintro rfl
      exact hp rfl
    exact ⟨p.dropLast, hp, [], p.getLast hne, (List.dropLast_concat_getLast hne).symm, h⟩

/-- What erasing takes away beyond the removed value: nothing, or the first thing on the way that is hollow. -/
inductive ErasedCase (p : List String) (left erased : Members) : Prop where
  | nothing (hn : ∀ q, ¬ Hollow left p q) (he : erased = left)
  | hollow {k : String} {ks : List String} {w : Value} (h : Hollow left p (k :: ks))
      (hmin : ∀ q, Hollow left p q → (k :: ks).length ≤ q.length)
      (he : removeAlong? .leave k ks left = some (w, erased))

theorem erased_cases (hc : Canonical (.object ms)) (hl : removeAlong? .leave k ks ms = some (v, left))
    (he : removeAlong? .erase k ks ms = some (v, erased)) : ErasedCase (k :: ks) left erased := by
  induction ks generalizing k ms left erased with
  | nil => exact .nothing (fun q => not_hollow_singleton) (congrArg Prod.snd (Option.some.inj (he.symm.trans hl)))
  | cons k' ks ih =>
      replace ⟨inner, below, hk, hl, hleft⟩ := removeAlong?_cons_eq_some_iff.1 hl
      replace ⟨_, below', hk', he, herased⟩ := removeAlong?_cons_eq_some_iff.1 he
      subst hleft herased
      obtain rfl : inner = _ := Value.object.inj (Option.some.inj (hk.symm.trans hk'))
      have hkl : Entries.get? k (putBack .leave k below ms) = some (.object below) := get?_putBack hc.1 below
      have hfirst : Hollow _ (k :: k' :: ks) [k] ↔ _ := hollow_first_iff hkl
      rw [← erased_eq_nil_iff hl he] at hfirst
      by_cases hb : below' = []
      · refine .hollow (w := .object below) (hfirst.2 hb) (fun q hq => ?_) ?_
        · exact List.length_pos_iff.2 hq.1
        · rw [removeAlong?, hkl, putBack_leave, hc.1.erase_insert hk]
          simp [putBack, hb]
      · -- Something is left below, so the first key stays and all that is hollow is further down.
        have hput : putBack .erase k below' ms = Entries.insert k (.object below') ms := by simp [putBack, hb]
        have hdown {q : List String} (hq : Hollow (putBack .leave k below ms) (k :: k' :: ks) q) :
            ∃ q', q = k :: q' ∧ Hollow below (k' :: ks) q' := by
          obtain ⟨q', rfl⟩ := hq.exists_cons
          have hne : q' ≠ [] := by
            rintro rfl
            exact hb (hfirst.1 hq)
          exact ⟨q', rfl, (hollow_cons_iff hkl hne).1 hq⟩
        cases ih (Canonical.of_get? hc.2 hk) hl he with
        | nothing hn he =>
            refine .nothing (fun q hq => ?_) ?_
            · obtain ⟨q', -, hq'⟩ := hdown hq
              exact hn q' hq'
            · rw [hput, he, putBack_leave]
        | hollow h hmin hr =>
            refine .hollow ((hollow_cons_iff hkl (List.cons_ne_nil _ _)).2 h) (fun q hq => ?_)
              (removeAlong?_cons_eq_some_iff.2 ⟨below, below', hkl, hr, ?_⟩)
            · obtain ⟨q', rfl, hq'⟩ := hdown hq
              exact Nat.succ_le_succ (hmin q' hq')
            · rw [hput, putBack_leave, putBack_leave, Entries.insert_insert]

/-- Erasing leaves no empty object on the way. -/
theorem at?_start_of_removeAlong?_erase {k' : String} {r : List String}
    (hc : Canonical (.object ms)) (h : removeAlong? .erase k ks ms = some (v, erased)) (hq : q ≠ [])
    (hp : k :: ks = q ++ k' :: r) :
    at? q (.object erased) = none ∨ ∃ m rest, at? q (.object erased) = some (.object (m :: rest)) := by
  induction q generalizing k ks ms erased with
  | nil => exact absurd rfl hq
  | cons k'' q ih =>
      simp only [List.cons_append, List.cons.injEq] at hp
      obtain ⟨rfl, rfl⟩ := hp
      cases hks : q ++ k' :: r with
      | nil => simp at hks
      | cons k'' ks =>
          rw [hks] at h
          obtain ⟨inner, below, hk, hr, rfl⟩ := removeAlong?_cons_eq_some_iff.1 h
          rw [at?_cons, get?_putBack hc.1]
          split
          · exact .inl rfl
          · rename_i hb
            cases q with
            | nil =>
                cases below with
                | nil => exact absurd ⟨rfl, rfl⟩ hb
                | cons m rest => exact .inr ⟨m, rest, by simp⟩
            | cons _ _ => exact ih (Canonical.of_get? hc.2 hk) hr (List.cons_ne_nil _ _) hks.symm

/-! ## Paths -/

theorem removePath_fst (ms : Members) (p : Path) (mode : EmptyObjects) :
    (removePath ms p mode).1 = getPath? ms p := by
  rw [getPath?, Path.segments, ← removeAlong?_fst mode, removePath]
  cases removeAlong? mode p.first p.rest ms <;> rfl

theorem removePath_of_getPath?_eq_none {p : Path} (h : getPath? ms p = none) (mode : EmptyObjects) :
    (removePath ms p mode).2 = ms := by
  rw [getPath?, Path.segments, ← removeAlong?_fst mode, Option.map_eq_none_iff] at h
  rw [removePath, h]

theorem removeAlong?_of_getPath? {p : Path} (h : getPath? ms p = some v) (mode : EmptyObjects) :
    removeAlong? mode p.first p.rest ms = some (v, (removePath ms p mode).2) := by
  obtain ⟨left, hl⟩ := exists_removeAlong? mode h
  rw [removePath, hl]

/-- What is left of an object when one entry is removed along a path and empty objects stay: on the way each object has
only its next key changed, the last of them having it no more. -/
structure EntryRemoved (p : List String) (before after : Value) : Prop where
  absent : at? p after = none
  agree : AgreeOff p after before
  way : ∀ q k r, p = q ++ k :: r → ∃ inner rest, at? q before = some (.object inner) ∧
    at? q after = some (.object rest) ∧ (r = [] → rest = Entries.erase k inner) ∧
    (r ≠ [] → ∃ below, rest = Entries.insert k (.object below) inner)

theorem entryRemoved_of_removeAlong? (hc : Canonical (.object ms)) (h : removeAlong? .leave k ks ms = some (v, left)) :
    EntryRemoved (k :: ks) (.object ms) (.object left) where
  absent := at?_of_removeAlong? hc h
  agree := agreeOff_removeAlong? hc h
  way := by
    intro q k' r hp
    obtain ⟨inner, rest, hi, hl, hr⟩ := at?_start_of_removeAlong?_leave hc h hp
    refine ⟨inner, rest, hi, hl, ?_, fun hne => ?_⟩
    · rintro rfl
      obtain ⟨w, -, hr⟩ := Option.map_eq_some_iff.1 hr
      cases hr
      rfl
    · obtain ⟨k'', r, rfl⟩ := List.exists_cons_of_ne_nil hne
      obtain ⟨inner', below, -, -, rfl⟩ := removeAlong?_cons_eq_some_iff.1 hr
      exact ⟨below, putBack_leave k' below inner⟩

/-- What removing along a path does to an object, said by what can be read along keys afterwards. It gives what the path
leads to, and changes nothing if that is nothing. Otherwise one entry goes. If empty objects are to be erased and the
entry leaves one, other than the object from which the path starts, then the first entry on the way goes as well below
which there is nothing but objects on the way that hold one another and in the end nothing. -/
theorem at?_removePath (ms : Members) (hc : Canonical (.object ms)) (path : String) :
    let p := Path.ofString path
    let left := (removePath ms p .leave).2
    let erased := (removePath ms p .erase).2
    (∀ mode, (removePath ms p mode).1 = getPath? ms p ∧ (getPath? ms p = none → (removePath ms p mode).2 = ms)) ∧
    ∀ v, getPath? ms p = some v →
      EntryRemoved p.segments (.object ms) (.object left) ∧
      ((∃ q, Hollow left p.segments q) ↔ p.parents ≠ [] ∧ at? p.parents (.object left) = some (.object [])) ∧
      ((∀ q, ¬ Hollow left p.segments q) → erased = left) ∧
      (∀ k ks, Hollow left p.segments (k :: ks) → (∀ q, Hollow left p.segments q → (k :: ks).length ≤ q.length) →
        EntryRemoved (k :: ks) (.object left) (.object erased)) ∧
      (∀ q k r, q ≠ [] → p.segments = q ++ k :: r →
        at? q (.object erased) = none ∨ ∃ m rest, at? q (.object erased) = some (.object (m :: rest))) ∧
      at? p.segments (.object erased) = none ∧
      AgreeOff p.segments (.object erased) (.object ms) := by
  intro p left erased
  refine ⟨fun mode => ⟨removePath_fst ms p mode, fun h => removePath_of_getPath?_eq_none h mode⟩, fun v hv => ?_⟩
  have hl := removeAlong?_of_getPath? hv .leave
  have he := removeAlong?_of_getPath? hv .erase
  have hcases := erased_cases hc hl he
  refine ⟨entryRemoved_of_removeAlong? hc hl, exists_hollow_iff, fun hn => ?_, fun k ks hk hmin => ?_,
    fun q k r hq hp => at?_start_of_removeAlong?_erase hc he hq hp, at?_of_removeAlong? hc he,
    agreeOff_removeAlong? hc he⟩
  · cases hcases with
    | nothing _ he => exact he
    | hollow h _ _ => exact absurd h (hn _)
  · cases hcases with
    | nothing hn _ => exact absurd hk (hn _)
    | @hollow k' ks' w h hmin' he =>
        -- Both are starts of the path, and neither is longer than the other.
        have heq : k' :: ks' = k :: ks := by
          have hle := List.prefix_of_prefix_length_le h.start hk.start (hmin' _ hk)
          exact hle.eq_of_length (Nat.le_antisymm (hmin' _ hk) (hmin _ h))
        cases heq
        exact entryRemoved_of_removeAlong? (canonical_removeAlong? hc hl) he

/-- An array in two objects, which hold nothing else, beside a null. -/
def buriedArray : Members := [("a", .object [("b", .object [("c", .array [])])]), ("z", .null)]

/-- With the array all that is above it goes, up to the object from which the path starts. -/
theorem at?_removePath_buriedArray :
    let left : Members := [("a", .object [("b", .object [])]), ("z", .null)]
    Canonical (.object buriedArray) ∧ getPath? buriedArray (.ofString "a.b.c") = some (.array []) ∧
    (removePath buriedArray (.ofString "a.b.c") .leave).2 = left ∧
    (removePath buriedArray (.ofString "a.b.c") .erase).2 = [("z", .null)] ∧
    EntryRemoved ["a", "b", "c"] (.object buriedArray) (.object left) ∧
    Hollow left ["a", "b", "c"] ["a"] ∧ EntryRemoved ["a"] (.object left) (.object [("z", .null)]) := by
  intro left
  have hc : Canonical (.object buriedArray) := by
    simp only [buriedArray, Canonical, CanonicalMembers, CanonicalElements, and_true, Entries.Sorted]
    decide
  have hhollow : Hollow left ["a", "b", "c"] ["a"] := ⟨by simp, ["b"], "c", rfl, rfl⟩
  obtain ⟨-, hpath⟩ := at?_removePath buriedArray hc "a.b.c"
  obtain ⟨hremoved, -, -, herased, -⟩ := hpath (.array []) rfl
  exact ⟨hc, rfl, rfl, rfl, hremoved, hhollow, herased "a" [] hhollow fun q hq => List.length_pos_iff.2 hq.1⟩

end Members

end JsonTree
