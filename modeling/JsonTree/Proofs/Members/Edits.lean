import JsonTree.Members.Basic
import JsonTree.Proofs.Text.Order
import JsonTree.Proofs.Value.RoundTrip
import JsonTree.Proofs.Value.Storage
import Mathlib.Data.List.Induction
import Mathlib.Data.Set.Card

/-!
# Objects as finite maps

An object is made from the empty one by edits. What it holds is a matter of which value the edits assign to which key at
last, and nothing else about the edits can be seen in it: not the order of keys, nor values that were given up again.
-/

namespace JsonTree.Members

open Byte Document Grammar Utf8 Value

variable {ms ms' : Members} {ps qs : List (String × Value)}

/-! ## Texts of objects -/

/-- A member as it stands in the text of an object. -/
def memberText (m : String × Value) : String := String.ofList (Quoted.literal m.1) ++ ":" ++ m.2.text

theorem toList_memberText (m : String × Value) : (memberText m).toList = memberTextIn .usual m := by
  simp [memberText, memberTextIn, Value.text]

theorem text_object (ms : Members) :
    (Value.object ms).text = "\x7b" ++ ",".intercalate (ms.map memberText) ++ "\x7d" := by
  rw [← String.toList_inj, Value.text, toList_textWith, textIn, membersTextIn_eq_intercalate]
  simp [String.toList_intercalate, List.map_map, Function.comp_def, toList_memberText]

/-! ## Objects that cannot be told apart -/

/-- Objects that are equal, are written the same, and feed the same words to a hash. -/
structure Alike (ms ms' : Members) : Prop where
  beq : (Value.object ms == .object ms') = true
  text : (Value.object ms).text = (Value.object ms').text
  hashWords : (Value.object ms).hashWords = (Value.object ms').hashWords

theorem alike_of_detachMembers (h : detachMembers ms = detachMembers ms') : Alike ms ms' := by
  have hd : (Value.object ms).detach = (Value.object ms').detach := by rw [detach, detach, h]
  refine ⟨?_, ?_, ?_⟩
  · exact same_of_detach_eq hd
  · rw [← text_detach, hd, text_detach]
  · rw [← hashWords_detach, hd, hashWords_detach]

theorem alike_ofList_of_perm (hp : (detachMembers ps).Perm (detachMembers qs)) (hn : (Entries.keys ps).Nodup) :
    Alike (Entries.ofList ps) (Entries.ofList qs) := by
  apply alike_of_detachMembers
  rw [detachMembers_ofList, detachMembers_ofList]
  rw [← keys_detachMembers] at hn
  exact Entries.foldl_insert_eq_of_perm .nil hp hn

/-! ## Edits -/

/-- What can be done with all of an object. -/
inductive Edit where
  | store (k : String) (v : Value)
  | remove (k : String)
  | clear
  /-- Starts again from a list of pairs. -/
  | collect (ps : List (String × Value))

namespace Edit

def apply (ms : Members) : Edit → Members
  | .store k v => (ms.store k v).2
  | .remove k => (ms.remove k).2
  | .clear => []
  | .collect ps => Entries.ofList ps

/-- What edits make of the empty object, one after the other. -/
def run (es : List Edit) : Members := es.foldl apply []

/-- Stores the values of a list of pairs one by one. -/
def stores (ps : List (String × Value)) : List Edit := ps.map fun p => .store p.1 p.2

/-! ## Assignments -/

/-- An edit that gives the key this value. Of several pairs with the key the last counts. -/
def Gives (k : String) (v : Value) : Edit → Prop
  | .store k' v' => k' = k ∧ v' = v
  | .remove _ | .clear => False
  | .collect ps => ∃ qs rs, ps = qs ++ (k, v) :: rs ∧ k ∉ Entries.keys rs

/-- An edit that leaves the key the value that it has. -/
def Spares (k : String) : Edit → Prop
  | .store k' _ | .remove k' => k' ≠ k
  | .clear | .collect _ => False

/-- The edits give the key the value, and leave it afterwards. -/
def Assigns (es : List Edit) (k : String) (v : Value) : Prop :=
  ∃ before e after, es = before ++ e :: after ∧ e.Gives k v ∧ ∀ e' ∈ after, e'.Spares k

variable {k : String} {v : Value} {es es' : List Edit}

theorem not_assigns_nil : ¬ Assigns [] k v := by
  rintro ⟨before, e, after, h, -⟩
  simp at h

theorem assigns_concat_iff {e : Edit} : Assigns (es ++ [e]) k v ↔ e.Gives k v ∨ (Assigns es k v ∧ e.Spares k) := by
  constructor
  · rintro ⟨before, e', after, h, hg, hs⟩
    rcases List.eq_nil_or_concat' after with rfl | ⟨after, e'', rfl⟩
    · obtain ⟨-, he⟩ := List.append_inj' h rfl
      cases he
      exact .inl hg
    · rw [← List.cons_append, ← List.append_assoc] at h
      obtain ⟨rfl, he⟩ := List.append_inj' h rfl
      cases he
      exact .inr ⟨⟨before, e', after, rfl, hg, fun e he => hs e (List.mem_append_left _ he)⟩, hs e (by simp)⟩
  · rintro (hg | ⟨⟨before, e', after, rfl, hg, hs⟩, he⟩)
    · exact ⟨es, e, [], rfl, hg, by simp⟩
    · refine ⟨before, e', after ++ [e], by simp, hg, fun e'' h => ?_⟩
      rcases List.mem_append.1 h with h | h
      · exact hs e'' h
      · rwa [List.mem_singleton.1 h]

/-! ## Runs -/

theorem run_append (es es' : List Edit) : run (es ++ es') = es'.foldl apply (run es) := List.foldl_append

theorem run_concat (es : List Edit) (e : Edit) : run (es ++ [e]) = e.apply (run es) := run_append es [e]

theorem foldl_apply_stores (ps : List (String × Value)) (ms : Members) :
    (stores ps).foldl apply ms = ps.foldl (fun es p => Entries.insert p.1 p.2 es) ms := List.foldl_map

theorem run_stores (ps : List (String × Value)) : run (stores ps) = Entries.ofList ps := foldl_apply_stores ps []

theorem sorted_apply (h : Entries.Sorted ms) (e : Edit) : Entries.Sorted (e.apply ms) := by
  cases e with
  | store k v => exact h.insert k v
  | remove k => exact h.erase k
  | clear => exact .nil
  | collect ps => exact Entries.sorted_ofList ps

theorem sorted_foldl_apply (h : Entries.Sorted ms) (es : List Edit) : Entries.Sorted (es.foldl apply ms) := by
  induction es generalizing ms with
  | nil => exact h
  | cons e es ih => exact ih (sorted_apply h e)

theorem sorted_run (es : List Edit) : Entries.Sorted (run es) := sorted_foldl_apply .nil es

/-- One edit gives some keys a value, and of the others it takes or leaves what they have. -/
theorem get?_apply_eq_some_iff (h : Entries.Sorted ms) (e : Edit) :
    Entries.get? k (e.apply ms) = some v ↔ e.Gives k v ∨ (Entries.get? k ms = some v ∧ e.Spares k) := by
  cases e with
  | store k' v' =>
      rw [apply, Members.store, Entries.get?_insert, Gives, Spares]
      by_cases hk : k = k'
      · simp [hk]
      · simp [hk, Ne.symm hk]
  | remove k' =>
      rw [apply, Members.remove, Gives, Spares, false_or]
      by_cases hk : k = k'
      · subst hk
        simp [h.get?_erase]
      · simp [Entries.get?_erase_of_ne hk, Ne.symm hk]
  | clear => simp [apply, Gives, Spares, Entries.get?]
  | collect ps =>
      rw [apply, Entries.get?_ofList, Entries.get?_eq_some_iff, Gives, Spares, and_false, or_false]
      -- The first pair from behind is the last one.
      constructor
      · rintro ⟨rs, qs, hp, hk⟩
        refine ⟨qs.reverse, rs.reverse, by simpa using congrArg List.reverse hp, ?_⟩
        rwa [Entries.keys, List.map_reverse, List.mem_reverse]
      · rintro ⟨qs, rs, rfl, hk⟩
        refine ⟨rs.reverse, qs.reverse, by simp, ?_⟩
        rwa [Entries.keys, List.map_reverse, List.mem_reverse]

theorem get?_run_eq_some_iff : Entries.get? k (run es) = some v ↔ Assigns es k v := by
  induction es using List.reverseRecOn with
  | nil => simp [run, Entries.get?, not_assigns_nil]
  | append_singleton es e ih => rw [run_concat, get?_apply_eq_some_iff (sorted_run es), assigns_concat_iff, ih]

theorem length_run (es : List Edit) : (run es).length = {k | ∃ v, Assigns es k v}.ncard := by
  have hset : {k | ∃ v, Assigns es k v} = ((Entries.keys (run es)).toFinset : Set String) := by
    ext k
    rw [Set.mem_ofPred_eq, List.coe_toFinset, Set.mem_ofPred_eq, Entries.mem_keys_iff]
    simp only [get?_run_eq_some_iff]
  rw [hset, Set.ncard_coe_finset, Entries.keys, List.toFinset_card_of_nodup (sorted_run es).nodup_keys, List.length_map]

/-! ## Edits that cannot be told apart -/

/-- The edits assign the same values to the same keys, wherever the strings in them are stored. -/
def Agree (es es' : List Edit) : Prop :=
  ∀ k v, (∃ w, Assigns es k w ∧ w.detach = v) ↔ ∃ w, Assigns es' k w ∧ w.detach = v

theorem Agree.alike (h : Agree es es') : Alike (run es) (run es') := by
  apply alike_of_detachMembers
  refine (sorted_detachMembers (sorted_run es)).ext (sorted_detachMembers (sorted_run es')) fun k => ?_
  refine Option.ext fun v => ?_
  simp only [get?_detachMembers, Option.map_eq_some_iff, get?_run_eq_some_iff]
  exact h k v

theorem lt_keys_run (es : List Edit) : ((run es).map fun m => encode m.1).Pairwise (· < ·) :=
  List.pairwise_map.2 ((sorted_run es).imp encode_lt_encode)

/-! ## The map of an object -/

theorem run_stores_eq_of_perm (es : List Edit) (hp : ps.Perm qs) (hn : (Entries.keys ps).Nodup) :
    run (es ++ stores ps) = run (es ++ stores qs) := by
  rw [run_append, run_append, foldl_apply_stores, foldl_apply_stores]
  exact Entries.foldl_insert_eq_of_perm (sorted_run es) hp hn

/-- What edits make of the empty object is the finite map of their assignments: in the order of the bytes of the keys,
each key with the value assigned at last, which storing and removing give back. Nothing else shows, so edits that agree
make objects that are alike. Values stored under different keys in any order, pairs that are collected, and the members
of a document in any order are cases of this. -/
theorem run_canonical (es : List Edit) :
    let ms := run es
    (ms.map fun m => encode m.1).Pairwise (· < ·) ∧
    (Value.object ms).text = "\x7b" ++ ",".intercalate (ms.map memberText) ++ "\x7d" ∧
    (∀ k v, Entries.get? k ms = some v ↔ Assigns es k v) ∧
    (∀ k v w, (ms.store k v).1 = some w ↔ Assigns es k w) ∧
    (∀ k w, (ms.remove k).1 = some w ↔ Assigns es k w) ∧
    ms.length = {k | ∃ v, Assigns es k v}.ncard ∧
    (∀ es', Agree es es' → Alike ms (run es')) ∧
    (∀ ps qs, ps.Perm qs → (Entries.keys ps).Nodup → run (es ++ stores ps) = run (es ++ stores qs)) ∧
    (∀ ps, run (es ++ [.collect ps]) = run (stores ps)) ∧
    (∀ o s ms', Value.parse o s = .ok (.object ms') ↔ ∃ ps, ObjectText o s ps ∧ ms' = run (stores ps)) ∧
    ∀ o s ps o' s' qs, ObjectText o s ps → ObjectText o' s' qs → (detachMembers ps).Perm (detachMembers qs) →
      (Entries.keys ps).Nodup →
      ∃ ms ms', Value.parse o s = .ok (.object ms) ∧ Value.parse o' s' = .ok (.object ms') ∧ Alike ms ms' := by
  refine ⟨lt_keys_run es, text_object _, fun _ _ => get?_run_eq_some_iff, fun _ _ _ => get?_run_eq_some_iff,
    fun _ _ => get?_run_eq_some_iff, length_run es, fun _ => Agree.alike,
    fun _ _ => run_stores_eq_of_perm es, ?_, ?_, ?_⟩
  · intro ps
    rw [run_concat, run_stores, apply]
  · intro o s ms'
    simp only [run_stores, parse_eq_ok_object_iff]
  · intro o s ps o' s' qs h h' hp hn
    exact ⟨_, _, parse_eq_ok_object_iff.2 ⟨ps, h, rfl⟩, parse_eq_ok_object_iff.2 ⟨qs, h', rfl⟩,
      alike_ofList_of_perm hp hn⟩

/-- Edits that come to the same, values stored in another order, and members written in another order. -/
theorem run_canonical_reordered :
    let es : List Edit := [.store "b" (.integer 1), .collect [("z", .null), ("é", .null), ("é", .boolean true)],
      .remove "z", .store "a" (.string ⟨"x", .borrowed⟩)]
    let es' : List Edit := stores [("é", .boolean true), ("a", .string ⟨"x", .owned⟩)]
    let m := ofChars (Quoted.literal "a") ++ colon :: Word.null
    let m' := ofChars (Quoted.literal "b") ++ colon :: Word.truth
    Entries.get? "é" (run es) = some (.boolean true) ∧
    Alike (run es) (run es') ∧
    run (es ++ stores [("c", .null), ("b", .null)]) = run (es ++ stores [("b", .null), ("c", .null)]) ∧
    ∃ ms ms', Value.parse {} (openBrace :: (m ++ comma :: (m' ++ [closeBrace]))) = .ok (.object ms) ∧
      Value.parse {} (openBrace :: (m' ++ comma :: (m ++ [closeBrace]))) = .ok (.object ms') ∧ Alike ms ms' := by
  intro es es' m m'
  obtain ⟨-, -, hget, -, -, -, halike, hperm, -, -, hparse⟩ := run_canonical es
  have hassigns : Assigns es "é" (.boolean true) :=
    ⟨[.store "b" (.integer 1)], _, [.remove "z", .store "a" (.string ⟨"x", .borrowed⟩)], rfl,
      ⟨[("z", .null), ("é", .null)], [], rfl, List.not_mem_nil⟩, by simp [Spares]⟩
  have hagree : Agree es es' := by
    have hd : detachMembers (run es) = detachMembers (run es') := rfl
    intro k v
    simp only [← get?_run_eq_some_iff, ← Option.map_eq_some_iff, ← get?_detachMembers, hd]
  have hm : MemberText (ValueText {} 99) m ("a", .null) := memberText_member "a" .null
  have hm' : MemberText (ValueText {} 99) m' ("b", .boolean true) := memberText_member "b" .truth
  have hs := ObjectText.mk (o := {}) rfl .nil (.items .nil (.cons hm .nil .nil (.last hm' .nil)))
    (by decide) (.closed .nil)
  have hs' := ObjectText.mk (o := {}) rfl .nil (.items .nil (.cons hm' .nil .nil (.last hm .nil)))
    (by decide) (.closed .nil)
  refine ⟨(hget _ _).2 hassigns, halike es' hagree, hperm _ _ (.swap _ _ _) (by decide), ?_⟩
  simpa using hparse _ _ _ _ _ _ hs hs' (.swap _ _ _) (by decide)

end Edit

end JsonTree.Members
