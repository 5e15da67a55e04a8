import JsonTree.Proofs.Grammar.Document
import JsonTree.Proofs.Position.Tracking
import JsonTree.Proofs.Trail.Agreement

/-!
# Repeated keys

If keys have to be unique, a document is refused at the first key that repeats an earlier one of the same object. Two
keys are the same if they read as the same text, however they are written, and an object is known by the place where it
opens. A document without such a key is read as if keys did not have to be unique.
-/

namespace JsonTree.Trail

open Byte Document Grammar

/-! ## The keys of a document -/

/-- A key: where it stands, where its object opens, and what it reads as. -/
structure Key where
  offset : Nat
  object : Nat
  name : String

namespace Key

/-- Two keys of the same object read as the same text. -/
def Same (k k' : Key) : Prop := k.object = k'.object ∧ k.name = k'.name

/-- A key that stands in a document, inside an object that opens where the key says. -/
structure Genuine (s : Bytes) (k : Key) : Prop where
  literal : KeyAt (s.drop k.offset) k.name
  brace : (s.drop k.object).head? = some openBrace
  inside : k.object < k.offset

end Key

/-- The key that an event in a document is. -/
def Event.keyIn? (s : Bytes) : Event → Option Key
  | key rest object name => some ⟨s.length - rest.length, s.length - object.length, name⟩
  | value _ | opens _ _ | closes _ _ | trailing _ => none

/-- The keys that are met in a document, in its order. -/
def keysIn (s : Bytes) (es : List Event) : List Key := es.filterMap (Event.keyIn? s)

def documentKeys (o : Options) (s : Bytes) : List Key := keysIn s (events (.ofOptions o) s)

/-- No two keys of one object are the same. -/
def Distinct (ks : List Key) : Prop := ks.Pairwise fun k k' => ¬ k.Same k'

variable {o : Options} {seen : Seen} {s : Bytes} {es : List Event}

theorem keyIn?_eq_some {e : Event} {k : Key} (h : e.keyIn? s = some k) :
    ∃ rest object name, e = .key rest object name ∧ k = ⟨s.length - rest.length, s.length - object.length, name⟩ := by
  cases e with
  | key rest object name => exact ⟨rest, object, name, rfl, (Option.some.inj h).symm⟩
  | _ => cases h

theorem drop_of_suffix {t : Bytes} (h : t <:+ s) : s.drop (s.length - t.length) = t := by
  obtain ⟨p, rfl⟩ := h
  simp

/-- A key of a trail, and what the trail says of it. -/
theorem fits_of_mem {rest object : Bytes} {name : String} (h : .key rest object name ∈ events (.ofOptions o) s) :
    KeyAt rest name ∧ rest <:+ s ∧ object <:+ s ∧ rest.length < object.length ∧ object.head? = some openBrace ∧
      (scan (.ofOptions o) s).stop.length < rest.length := by
  obtain ⟨⟨hlit, hlt, hb, ho⟩, hs, hstop⟩ := (leads_scan _ s).path.forall _ h
  refine ⟨hlit, hs, ho, hlt, hb, Nat.lt_of_le_of_lt hstop.length_le ?_⟩
  obtain ⟨k, t, r, hk, rfl, -⟩ := hlit
  obtain ⟨k, rfl⟩ := hk.exists_cons
  exact Nat.lt_succ_self _

theorem genuine_of_mem_documentKeys {k : Key} (h : k ∈ documentKeys o s) : k.Genuine s := by
  obtain ⟨e, he, hk⟩ := List.mem_filterMap.1 h
  obtain ⟨rest, object, name, rfl, rfl⟩ := keyIn?_eq_some hk
  obtain ⟨hlit, hs, ho, hlt, hb, -⟩ := fits_of_mem he
  have hle := ho.length_le
  refine ⟨by simpa [drop_of_suffix hs] using hlit, by simpa [drop_of_suffix ho] using hb, ?_⟩
  show s.length - object.length < s.length - rest.length
  omega

/-- The keys stand in the order of the document. -/
theorem documentKeys_ordered (o : Options) (s : Bytes) :
    (documentKeys o s).Pairwise fun k k' => k.offset < k'.offset := by
  have hpath := (leads_scan (.ofOptions o) s).path
  refine List.pairwise_filterMap.2 (hpath.pairwise.imp_of_mem fun {e e'} he he' hrest k hk k' hk' => ?_)
  obtain ⟨rest, object, name, rfl, rfl⟩ := keyIn?_eq_some hk
  obtain ⟨rest', object', name', rfl, rfl⟩ := keyIn?_eq_some hk'
  have hle := (fits_of_mem he).2.1.length_le
  have hpos := (fits_of_mem he).2.2.2.2.2
  have hlt : rest'.length ≤ rest.tail.length := hrest.length_le
  rw [List.length_tail] at hlt
  show s.length - rest.length < s.length - rest'.length
  omega

/-! ## Objections to keys -/

/-- Options that want unique keys object to nothing but a key that was seen. -/
theorem eq_of_objection_enable_uniqueKeys {e : Event} {f : Fault}
    (h : objection (o.enable .uniqueKeys) (.ofOptions o) seen e = some f) :
    ∃ rest object name, e = .key rest object name ∧ (object, name) ∈ seen ∧ f = ⟨.malformed, rest⟩ := by
  cases objection_cases h with
  | value hR ho _ =>
      rw [Options.contains_enable_of_ne (by decide)] at ho
      exact absurd hR (Bool.eq_false_iff.1 ho)
  | opens hR => exact absurd (Rules.forbids_of_limit rfl) (Bool.eq_false_iff.1 hR)
  | key _ _ hseen => exact ⟨_, _, _, rfl, hseen, rfl⟩
  | trailing hR ho =>
      rw [Options.contains_enable_of_ne (by decide)] at ho
      exact absurd hR (Bool.eq_false_iff.1 ho)

/-- If there is no objection, all keys are different from those before them. -/
theorem nodup_of_firstObjection_eq_none (ho : o.contains .uniqueKeys = false) (hseen : seen.Nodup)
    (h : firstObjection (o.enable .uniqueKeys) (.ofOptions o) seen es = none) : (seen ++ keys es).Nodup := by
  induction es generalizing seen with
  | nil => simpa using hseen
  | cons e es ih =>
      rw [firstObjection, Option.or_eq_none_iff] at h
      rw [keys_cons, ← List.append_assoc]
      refine ih ?_ h.2
      cases e with
      | key rest object name =>
          have hnew : (object, name) ∉ seen := by
            simpa [objection, Rules.ofOptions, ho, Options.contains_enable_self] using h.1
          refine List.nodup_append.2 ⟨hseen, List.pairwise_singleton _ _, fun k hk k' hk' => ?_⟩
          rw [List.eq_of_mem_singleton hk']
          rintro rfl
          exact hnew hk
      | _ => simpa [Event.key?] using hseen

theorem distinct_of_nodup (hes : ∀ e ∈ es, e ∈ events (.ofOptions o) s) (h : (keys es).Nodup) :
    Distinct (keysIn s es) := by
  refine List.pairwise_filterMap.2 ((List.pairwise_filterMap.1 h).imp_of_mem fun {e e'} he he' hne k hk k' hk' => ?_)
  obtain ⟨rest, object, name, rfl, rfl⟩ := keyIn?_eq_some hk
  obtain ⟨rest', object', name', rfl, rfl⟩ := keyIn?_eq_some hk'
  have ho := (fits_of_mem (hes _ he)).2.2.1
  have ho' := (fits_of_mem (hes _ he')).2.2.1
  rintro ⟨hobject, rfl⟩
  have heq : object = object' := by
    rw [← drop_of_suffix ho, ← drop_of_suffix ho']
    exact congrArg s.drop hobject
  exact hne _ rfl _ rfl (by rw [heq])

/-- A key that was seen is among the keys in front. -/
theorem exists_same_of_mem_keys (s rest : Bytes) {object : Bytes} {name : String} (h : (object, name) ∈ keys es) :
    ∃ k ∈ keysIn s es, k.Same ⟨s.length - rest.length, s.length - object.length, name⟩ := by
  obtain ⟨e, he, hk⟩ := List.mem_filterMap.1 h
  cases e with
  | key rest' object' name' =>
      cases hk
      exact ⟨_, List.mem_filterMap.2 ⟨_, he, rfl⟩, rfl, rfl⟩
  | _ => cases hk

/-- A fault that is found without looking at keys stands behind all keys that were met. -/
theorem offset_lt_of_parse_error {rest object : Bytes} {name : String} {e : ParseError}
    (h : .key rest object name ∈ events (.ofOptions o) s) (he : Value.parse o s = .error e) :
    s.length - rest.length < e.position.offset s := by
  have hstop := (eq_of_parse_error ((parse_ofOptions o s).trans he)).2
  obtain ⟨-, hs, -, -, -, hlt⟩ := fits_of_mem h
  have hle := hs.length_le
  omega

/-- If keys have to be unique, a document is read as without that, or it is refused at the first key that repeats an
earlier one of the same object, which stands in front of any other fault. Accepted documents without such a key are
those of the grammar with unique keys. A scanner that counts lines in 32 bits reports the same places, if the document
is not too long for them. -/
theorem parse_enable_uniqueKeys {o : Options} (ho : o.contains .uniqueKeys = false) (s : Bytes) :
    (∀ k ∈ documentKeys o s, k.Genuine s) ∧
    ((documentKeys o s).Pairwise fun k k' => k.offset < k'.offset) ∧
    ((Distinct (documentKeys o s) ∧ Value.parse (o.enable .uniqueKeys) s = Value.parse o s) ∨
      ∃ ks k ks', documentKeys o s = ks ++ k :: ks' ∧ Distinct ks ∧ (∃ k' ∈ ks, k'.Same k) ∧
        Value.parse (o.enable .uniqueKeys) s = .error ⟨.malformed, .behind (s.take k.offset)⟩ ∧
        ∀ e, Value.parse o s = .error e → k.offset < e.position.offset s) ∧
    (∀ v, Value.parse o s = .ok v → (Distinct (documentKeys o s) ↔ DocumentText (o.enable .uniqueKeys) s v)) ∧
    (s.length < UInt32.size - 1 → ∀ o', Scanner.parse o' s = Value.parse o' s) := by
  refine ⟨fun _ => genuine_of_mem_documentKeys, documentKeys_ordered o s, ?_⟩
  rw [← and_assoc]
  refine ⟨?_, fun hlen o' => Scanner.parse_eq hlen o'⟩
  have hl : Laxer (o.enable .uniqueKeys) (.ofOptions o) := .enable_uniqueKeys o
  cases parse_cases hl s with
  | same hn heq =>
      rw [parse_ofOptions] at heq
      have hd : Distinct (documentKeys o s) :=
        distinct_of_nodup (fun _ => id) (by simpa using nodup_of_firstObjection_eq_none ho .nil hn)
      refine ⟨.inl ⟨hd, heq⟩, fun v hv => ⟨fun _ => documentText_of_parse (heq ▸ hv), fun _ => hd⟩⟩
  | @objected es e es' f hes hn he heq =>
      -- The keys in front of the objection are different, and the one that is objected to repeats one of them.
      obtain ⟨rest, object, name, rfl, hseen, rfl⟩ := eq_of_objection_enable_uniqueKeys he
      have hkeys : documentKeys o s =
          keysIn s es ++ ⟨s.length - rest.length, s.length - object.length, name⟩ :: keysIn s es' := by
        simp [documentKeys, keysIn, hes, Event.keyIn?]
      obtain ⟨k', hk', hsame⟩ := exists_same_of_mem_keys s rest hseen
      have hmem : ∀ e ∈ es, e ∈ events (.ofOptions o) s := fun e he => by simp [hes, he]
      have hdistinct : Distinct (keysIn s es) :=
        distinct_of_nodup hmem (by simpa using nodup_of_firstObjection_eq_none ho .nil hn)
      have hkey : .key rest object name ∈ events (.ofOptions o) s := by simp [hes]
      refine ⟨.inr ⟨_, _, _, hkeys, hdistinct, ⟨k', hk', hsame⟩, heq, fun e => offset_lt_of_parse_error hkey⟩, ?_⟩
      refine fun v _ => ⟨fun hd => ?_, fun hd => ?_⟩
      · rw [hkeys] at hd
        exact absurd hsame ((List.pairwise_append.1 hd).2.2 k' hk' _ List.mem_cons_self)
      · rw [hd.parse] at heq
        cases heq

/-- An object that has a key twice, once escaped, with an object in between that has it too. -/
def escapedRepeat : Bytes :=
  Word.spell ['\x7b', '"', 'a', '"', ':', '\x7b', '"', 'a', '"', ':', '1', '\x7d', ',', '"', '\\', 'u', '0', '0', '6',
    '1', '"', ':', '2', '\x7d']

theorem parse_enable_uniqueKeys_escapedRepeat :
    Value.parse {} escapedRepeat = .ok (.object [("a", .integer 2)]) ∧
    Value.parse (Options.enable {} .uniqueKeys) escapedRepeat = .error ⟨.malformed, ⟨1, 14⟩⟩ ∧
    ∃ ks k ks', documentKeys {} escapedRepeat = ks ++ k :: ks' ∧ Distinct ks ∧ (∃ k' ∈ ks, k'.Same k) ∧
      Position.behind (escapedRepeat.take k.offset) = ⟨1, 14⟩ := by
  have hok : Value.parse {} escapedRepeat = .ok (.object [("a", .integer 2)]) := by with_unfolding_all rfl
  have herror : Value.parse (Options.enable {} .uniqueKeys) escapedRepeat = .error ⟨.malformed, ⟨1, 14⟩⟩ := by
    with_unfolding_all rfl
  refine ⟨hok, herror, ?_⟩
  rcases (parse_enable_uniqueKeys (o := {}) rfl escapedRepeat).2.2.1 with ⟨-, h⟩ | ⟨ks, k, ks', hks, hd, hsame, h, -⟩
  · rw [hok, herror] at h
    cases h
  · rw [herror] at h
    exact ⟨ks, k, ks', hks, hd, hsame, (congrArg ParseError.position (Except.error.inj h)).symm⟩

end JsonTree.Trail
