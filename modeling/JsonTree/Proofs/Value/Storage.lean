import JsonTree.Proofs.Entries
import JsonTree.Value.Equality
import JsonTree.Value.Storage
import JsonTree.Value.Text

/-!
# Values without borrowed strings

Detaching a value changes nothing that equality, hashes and texts look at, and none of the strings that are left
borrows. It goes through a tree part by part, so it commutes with all that builds arrays and objects.
-/

namespace JsonTree

namespace Value

/-! ## Shape -/

theorem detachElements_eq_map (vs : List Value) : detachElements vs = vs.map detach := by
  induction vs with
  | nil => rfl
  | cons v vs ih => rw [detachElements, ih, List.map_cons]

theorem detachMembers_eq_self {ms : List (String × Value)} (h : ∀ m ∈ ms, m.2.detach = m.2) :
    detachMembers ms = ms := by
  induction ms with
  | nil => rfl
  | cons m ms ih =>
      obtain ⟨hm, hms⟩ := List.forall_mem_cons.1 h
      rw [detachMembers, hm, ih hms]

theorem length_detachMembers (ms : Members) : (detachMembers ms).length = ms.length := by
  induction ms with
  | nil => rfl
  | cons m ms ih => rw [detachMembers, List.length_cons, List.length_cons, ih]

theorem detachMembers_insert (k : String) (v : Value) (ms : Members) :
    detachMembers (Entries.insert k v ms) = Entries.insert k v.detach (detachMembers ms) := by
  induction ms with
  | nil => rfl
  | cons m ms ih =>
      obtain ⟨k', v'⟩ := m
      simp only [detachMembers, Entries.insert]
      split
      · rfl
      · split
        · rfl
        · rw [detachMembers, ih]

theorem get?_detachMembers (k : String) (ms : Members) :
    Entries.get? k (detachMembers ms) = (Entries.get? k ms).map detach := by
  induction ms with
  | nil => rfl
  | cons m ms ih =>
      obtain ⟨k', v⟩ := m
      simp only [detachMembers, Entries.get?]
      split
      · rfl
      · exact ih

theorem contains_detachMembers (k : String) (ms : Members) :
    Entries.contains k (detachMembers ms) = Entries.contains k ms := by
  rw [Entries.contains, get?_detachMembers, Option.isSome_map, Entries.contains]

theorem keys_detachMembers (ms : Members) : Entries.keys (detachMembers ms) = Entries.keys ms := by
  induction ms with
  | nil => rfl
  | cons m ms ih => simpa [detachMembers, Entries.keys] using ih

theorem sorted_detachMembers {ms : Members} (h : Entries.Sorted ms) : Entries.Sorted (detachMembers ms) := by
  have hk := List.pairwise_map.2 h
  rw [← Entries.keys, ← keys_detachMembers] at hk
  exact List.pairwise_map.1 hk

theorem detachMembers_foldl_insert (ps : List (String × Value)) (ms : Members) :
    detachMembers (ps.foldl (fun ms p => Entries.insert p.1 p.2 ms) ms) =
      (detachMembers ps).foldl (fun ms p => Entries.insert p.1 p.2 ms) (detachMembers ms) := by
  induction ps generalizing ms with
  | nil => rfl
  | cons p ps ih => rw [List.foldl_cons, ih, detachMembers_insert, detachMembers, List.foldl_cons]

theorem detachMembers_ofList (ps : List (String × Value)) :
    detachMembers (Entries.ofList ps) = Entries.ofList (detachMembers ps) := detachMembers_foldl_insert ps []

/-! ## What detaching keeps -/

section Equality

variable {doubles : DoubleEquality}

mutual

theorem sameBy_self (hd : ∀ d, doubles.same d d = true) : (v : Value) → v.sameBy doubles v = true
  | .null => rfl
  | .boolean b => beq_self_eq_true b
  | .integer n => beq_self_eq_true n
  | .double d => hd d
  | .string t => beq_self_eq_true t.content
  | .array vs => by
      rw [sameBy]
      exact sameElements_self hd vs
  | .object ms => by
      rw [sameBy]
      exact sameMembers_self hd ms

theorem sameElements_self (hd : ∀ d, doubles.same d d = true) : (vs : List Value) → sameElements doubles vs vs = true
  | [] => rfl
  | v :: vs => by rw [sameElements, sameBy_self hd v, sameElements_self hd vs, Bool.and_self]

theorem sameMembers_self (hd : ∀ d, doubles.same d d = true) :
    (ms : List (String × Value)) → sameMembers doubles ms ms = true
  | [] => rfl
  | (k, v) :: ms => by
      rw [sameMembers, sameBy_self hd v, sameMembers_self hd ms, beq_self_eq_true, Bool.and_self, Bool.and_self]

end

variable (doubles)

mutual

/-- Equality does not look at storage. -/
theorem detach_sameBy_detach : (v w : Value) → v.detach.sameBy doubles w.detach = v.sameBy doubles w
  | .array vs, w => by
      cases w with
      | array ws =>
          rw [detach, detach, sameBy, sameBy]
          exact detachElements_same_detachElements vs ws
      | null | boolean _ | integer _ | double _ | string _ | object _ => rfl
  | .object ms, w => by
      cases w with
      | object ns =>
          rw [detach, detach, sameBy, sameBy]
          exact detachMembers_same_detachMembers ms ns
      | null | boolean _ | integer _ | double _ | string _ | array _ => rfl
  | .null, w | .boolean _, w | .integer _, w | .double _, w | .string _, w => by cases w <;> rfl

theorem detachElements_same_detachElements : (vs ws : List Value) →
    sameElements doubles (detachElements vs) (detachElements ws) = sameElements doubles vs ws
  | [], [] => rfl
  | [], _ :: _ => rfl
  | _ :: _, [] => rfl
  | v :: vs, w :: ws => by
      rw [detachElements, detachElements, sameElements, sameElements, detach_sameBy_detach v w,
        detachElements_same_detachElements vs ws]

theorem detachMembers_same_detachMembers : (ms ns : List (String × Value)) →
    sameMembers doubles (detachMembers ms) (detachMembers ns) = sameMembers doubles ms ns
  | [], [] => rfl
  | [], _ :: _ => rfl
  | _ :: _, [] => rfl
  | (k, v) :: ms, (l, w) :: ns => by
      rw [detachMembers, detachMembers, sameMembers, sameMembers, detach_sameBy_detach v w,
        detachMembers_same_detachMembers ms ns]

end

mutual

theorem hashWordsBy_detach : (v : Value) → v.detach.hashWordsBy doubles = v.hashWordsBy doubles
  | .null | .boolean _ | .integer _ | .double _ | .string _ => rfl
  | .array vs => by
      rw [detach, hashWordsBy, hashWordsBy, hashElements_detach vs, detachElements_eq_map, List.length_map]
  | .object ms => by rw [detach, hashWordsBy, hashWordsBy, hashMembers_detach ms, length_detachMembers]

theorem hashElements_detach : (vs : List Value) → hashElements doubles (detachElements vs) = hashElements doubles vs
  | [] => rfl
  | v :: vs => by rw [detachElements, hashElements, hashElements, hashWordsBy_detach v, hashElements_detach vs]

theorem hashMembers_detach :
    (ms : List (String × Value)) → hashMembers doubles (detachMembers ms) = hashMembers doubles ms
  | [] => rfl
  | (k, v) :: ms => by rw [detachMembers, hashMembers, hashMembers, hashWordsBy_detach v, hashMembers_detach ms]

end

theorem hashWords_detach (v : Value) : v.detach.hashWords = v.hashWords := hashWordsBy_detach .byKey v

end Equality

mutual

theorem textIn_detach (numbers : NumberWriter) : (v : Value) → v.detach.textIn numbers = v.textIn numbers
  | .null | .boolean _ | .integer _ | .double _ | .string _ => rfl
  | .array vs => by rw [detach, textIn, textIn, elementsTextIn_detach numbers vs]
  | .object ms => by rw [detach, textIn, textIn, membersTextIn_detach numbers ms]

theorem elementsTextIn_detach (numbers : NumberWriter) :
    (vs : List Value) → elementsTextIn numbers (detachElements vs) = elementsTextIn numbers vs
  | [] => rfl
  | [v] => by
      rw [detachElements, detachElements, elementsTextIn, elementsTextIn, textIn_detach numbers v]
  | v :: w :: vs => by
      have h := elementsTextIn_detach numbers (w :: vs)
      rw [detachElements] at h ⊢
      rw [detachElements, elementsTextIn, elementsTextIn, textIn_detach numbers v, h]

theorem membersTextIn_detach (numbers : NumberWriter) :
    (ms : List (String × Value)) → membersTextIn numbers (detachMembers ms) = membersTextIn numbers ms
  | [] => rfl
  | [(k, v)] => by
      rw [detachMembers, detachMembers, membersTextIn, membersTextIn, textIn_detach numbers v]
  | (k, v) :: (l, w) :: ms => by
      have h := membersTextIn_detach numbers ((l, w) :: ms)
      rw [detachMembers] at h ⊢
      rw [detachMembers, membersTextIn, membersTextIn, textIn_detach numbers v, h]

end

theorem textWith_detach (numbers : NumberWriter) (v : Value) : v.detach.textWith numbers = v.textWith numbers := by
  rw [textWith, textWith, textIn_detach]

theorem text_detach (v : Value) : v.detach.text = v.text := textWith_detach .usual v

/-! ## What detaching leaves -/

mutual

theorem eq_owned_of_mem_storages_detach : (v : Value) → ∀ x ∈ v.detach.storages, x = .owned
  | .null | .boolean _ | .integer _ | .double _ => by simp [detach, storages]
  | .string t => by simp [detach, storages, Text.detach]
  | .array vs => by
      rw [detach, storages]
      exact eq_owned_of_mem_storagesOfElements_detach vs
  | .object ms => by
      rw [detach, storages]
      exact eq_owned_of_mem_storagesOfMembers_detach ms

theorem eq_owned_of_mem_storagesOfElements_detach :
    (vs : List Value) → ∀ x ∈ storagesOfElements (detachElements vs), x = .owned
  | [] => by simp [detachElements, storagesOfElements]
  | v :: vs => by
      rw [detachElements, storagesOfElements, List.forall_mem_append]
      exact ⟨eq_owned_of_mem_storages_detach v, eq_owned_of_mem_storagesOfElements_detach vs⟩

theorem eq_owned_of_mem_storagesOfMembers_detach :
    (ms : List (String × Value)) → ∀ x ∈ storagesOfMembers (detachMembers ms), x = .owned
  | [] => by simp [detachMembers, storagesOfMembers]
  | (k, v) :: ms => by
      rw [detachMembers, storagesOfMembers, List.forall_mem_append]
      exact ⟨eq_owned_of_mem_storages_detach v, eq_owned_of_mem_storagesOfMembers_detach ms⟩

end

mutual

theorem detach_detach : (v : Value) → v.detach.detach = v.detach
  | .null | .boolean _ | .integer _ | .double _ | .string _ => rfl
  | .array vs => by rw [detach, detach, detachElements_detachElements vs]
  | .object ms => by rw [detach, detach, detachMembers_detachMembers ms]

theorem detachElements_detachElements :
    (vs : List Value) → detachElements (detachElements vs) = detachElements vs
  | [] => rfl
  | v :: vs => by rw [detachElements, detachElements, detach_detach v, detachElements_detachElements vs]

theorem detachMembers_detachMembers :
    (ms : List (String × Value)) → detachMembers (detachMembers ms) = detachMembers ms
  | [] => rfl
  | (k, v) :: ms => by rw [detachMembers, detachMembers, detach_detach v, detachMembers_detachMembers ms]

end

theorem same_self (v : Value) : v.same v = true := sameBy_self (fun d => beq_self_eq_true d.key) v

theorem same_of_detach_eq {v w : Value} (h : v.detach = w.detach) : v.same w = true := by
  rw [same, ← detach_sameBy_detach, h]
  exact same_self w.detach

theorem same_detach (v : Value) : v.detach.same v = true := same_of_detach_eq (detach_detach v)

end Value

end JsonTree
