import JsonTree.Proofs.Grammar.Region
import JsonTree.Proofs.Members.Reading
import JsonTree.Proofs.Trail.Finite
import JsonTree.Proofs.Value.Borrowing

/-!
# What is read is canonical

A value that was read from a document has only integers of 32 bits, no NaN but one, objects with sorted members, and no
more nesting than the limit. So its text is read under the same options, and gives the value back.
-/

namespace JsonTree

open Byte Document Grammar Utf8

variable {D : Meaning} {o : Options} {room : Nat} {s : Bytes} {v : Value}

/-! ## Integers in values -/

namespace Value

mutual

/-- The integers in a value, from left to right. -/
def integers : Value → List Int64
  | .integer n => [n]
  | .array vs => integersOfElements vs
  | .object ms => integersOfMembers ms
  | _ => []

def integersOfElements : List Value → List Int64
  | [] => []
  | v :: vs => v.integers ++ integersOfElements vs

def integersOfMembers : List (String × Value) → List Int64
  | [] => []
  | (_, v) :: ms => v.integers ++ integersOfMembers ms

end

theorem mem_integersOfElements {n : Int64} {vs : List Value} :
    n ∈ integersOfElements vs ↔ ∃ v ∈ vs, n ∈ v.integers := by
  induction vs with
  | nil => simp [integersOfElements]
  | cons v vs ih => simp [integersOfElements, ih]

theorem mem_integersOfMembers {n : Int64} {ms : List (String × Value)} :
    n ∈ integersOfMembers ms ↔ ∃ m ∈ ms, n ∈ m.2.integers := by
  induction ms with
  | nil => simp [integersOfMembers]
  | cons m ms ih => simp [integersOfMembers, ih]

theorem canonicalElements_iff {vs : List Value} : CanonicalElements vs ↔ ∀ v ∈ vs, v.Canonical := by
  induction vs with
  | nil => simp [CanonicalElements]
  | cons v vs ih => rw [CanonicalElements, ih, List.forall_mem_cons]

theorem nestingElements_le_iff {vs : List Value} : nestingElements vs ≤ room ↔ ∀ v ∈ vs, v.nesting ≤ room := by
  induction vs with
  | nil => simp [nestingElements]
  | cons v vs ih => rw [nestingElements, Nat.max_le, ih, List.forall_mem_cons]

theorem nestingMembers_le_iff {ms : List (String × Value)} :
    nestingMembers ms ≤ room ↔ ∀ m ∈ ms, m.2.nesting ≤ room := by
  induction ms with
  | nil => simp [nestingMembers]
  | cons m ms ih => rw [nestingMembers, Nat.max_le, ih, List.forall_mem_cons]

end Value

/-! ## Numbers -/

theorem Double.canonical_infinity (negative : Bool) : (Double.infinity negative).canonical = .infinity negative := by
  cases negative <;> decide

theorem Double.canonical_of_isNaN {d : Double} (h : d.isNaN = false) : d.canonical = d :=
  if_neg (Bool.eq_false_iff.1 h)

/-- A number that is read is an integer of 32 bits, or a double with the one NaN. -/
theorem Grammar.NumberTextBy.cases_value (hD : D.Canonical o) (h : NumberTextBy D o s v) :
    (∃ n, v = .integer n ∧ Numeral.native.contains n.toInt = true) ∨ ∃ d, v = .double d ∧ d.canonical = d := by
  cases h with
  | numeral h hv => exact (hD h hv).imp_right fun ⟨d, hd, hnan, _⟩ => ⟨d, hd, Double.canonical_of_isNaN hnan⟩
  | nan _ => exact .inr ⟨_, rfl, by decide⟩
  | infinity negative _ _ => exact .inr ⟨_, rfl, Double.canonical_infinity negative⟩

/-! ## Induction on what is read -/

/-- What holds of scalars, and goes from values to arrays and objects with more room, holds of what is read. -/
theorem Grammar.ValueTextBy.forall {P : Nat → Value → Prop} (hscalar : ∀ {room s v}, ScalarTextBy D o s v → P room v)
    (harray : ∀ {room vs}, (∀ v ∈ vs, P room v) → P (room + 1) (.array vs))
    (hobject : ∀ {room ms}, Entries.Sorted ms → (∀ m ∈ ms, P room m.2) → P (room + 1) (.object ms))
    (h : ValueTextBy D o room s v) : P room v := by
  induction room generalizing s v with
  | zero => exact hscalar h.scalar
  | succ room ih =>
      rcases h.cases_succ with hs | ⟨p, vs, -, rfl, he⟩ | ⟨p, ms, -, rfl, he, -⟩
      · exact hscalar hs
      · refine harray fun v hv => ?_
        obtain ⟨q, hq⟩ := he.exists_of_mem v hv
        exact ih hq
      · refine hobject (Entries.sorted_ofList ms) fun m hm => ?_
        obtain ⟨q, hq⟩ := he.exists_of_mem m (Entries.mem_of_mem_ofList hm)
        obtain ⟨-, -, -, hv⟩ := hq
        exact ih hv

namespace Grammar

theorem ValueTextBy.integers_native (hD : D.Canonical o) (h : ValueTextBy D o room s v) :
    ∀ n ∈ v.integers, Numeral.native.contains n.toInt = true := by
  apply h.forall (P := fun _ v => ∀ n ∈ v.integers, Numeral.native.contains n.toInt = true)
  · intro room s v hs n hn
    cases hs with
    | number h =>
        rcases h.cases_value hD with ⟨m, rfl, hm⟩ | ⟨d, rfl, -⟩
        · rwa [List.mem_singleton.1 hn]
        · cases hn
    | _ => cases hn
  · intro room vs ih n hn
    obtain ⟨v, hv, hn⟩ := Value.mem_integersOfElements.1 hn
    exact ih v hv n hn
  · intro room ms _ ih n hn
    obtain ⟨m, hm, hn⟩ := Value.mem_integersOfMembers.1 hn
    exact ih m hm n hn

theorem ScalarTextBy.shape (hD : D.Canonical o) (h : ScalarTextBy D o s v) : v.nesting = 0 ∧ v.Canonical := by
  cases h with
  | number h => rcases h.cases_value hD with ⟨n, rfl, -⟩ | ⟨d, rfl, -⟩ <;> exact ⟨rfl, trivial⟩
  | _ => exact ⟨rfl, trivial⟩

theorem ValueTextBy.nesting_le (hD : D.Canonical o) (h : ValueTextBy D o room s v) : v.nesting ≤ room := by
  apply h.forall (P := fun room v => v.nesting ≤ room)
  · intro room s v hs
    rw [(hs.shape hD).1]
    exact Nat.zero_le room
  · intro room vs ih
    exact Nat.succ_le_succ (Value.nestingElements_le_iff.2 ih)
  · intro room ms _ ih
    exact Nat.succ_le_succ (Value.nestingMembers_le_iff.2 ih)

theorem ValueTextBy.canonical (hD : D.Canonical o) (h : ValueTextBy D o room s v) : v.Canonical := by
  apply h.forall (P := fun _ v => v.Canonical)
  · exact fun hs => (hs.shape hD).2
  · exact fun ih => Value.canonicalElements_iff.2 ih
  · exact fun hms ih => ⟨hms, Value.canonicalMembers_iff.2 ih⟩

/-! ## What is read back -/

theorem content_stored (o : Options) (t : Text) : (stored o t).content = t.content := by
  rw [stored]
  split <;> rfl

theorem ScalarTextBy.detach_reread (hD : D.Canonical o) (h : ScalarTextBy D o s v) :
    (v.reread o fun d => .double d.canonical).detach = v.detach := by
  cases h with
  | number h =>
      rcases h.cases_value hD with ⟨n, rfl, hn⟩ | ⟨d, rfl, hd⟩
      · rw [Value.reread, if_pos hn]
      · rw [Value.reread, hd]
  | string _ => simp only [Value.reread, Value.detach, Text.detach, content_stored]
  | _ => rfl

theorem detachElements_rereadElements {real : Double → Value} {vs : List Value}
    (h : ∀ v ∈ vs, (v.reread o real).detach = v.detach) :
    Value.detachElements (Value.rereadElements o real vs) = Value.detachElements vs := by
  induction vs with
  | nil => rfl
  | cons v vs ih =>
      obtain ⟨hv, hvs⟩ := List.forall_mem_cons.1 h
      rw [Value.rereadElements, Value.detachElements, Value.detachElements, hv, ih hvs]

theorem detachMembers_rereadMembers {real : Double → Value} {ms : List (String × Value)}
    (h : ∀ m ∈ ms, (m.2.reread o real).detach = m.2.detach) :
    Value.detachMembers (Value.rereadMembers o real ms) = Value.detachMembers ms := by
  induction ms with
  | nil => rfl
  | cons m ms ih =>
      obtain ⟨hm, hms⟩ := List.forall_mem_cons.1 h
      rw [Value.rereadMembers, Value.detachMembers, Value.detachMembers, hm, ih hms]

/-- Reading the text of what was read changes at most where its strings are stored. -/
theorem ValueTextBy.detach_reread (hD : D.Canonical o) (h : ValueTextBy D o room s v) :
    (v.reread o fun d => .double d.canonical).detach = v.detach := by
  apply h.forall (P := fun _ v => (v.reread o fun d => .double d.canonical).detach = v.detach)
  · exact ScalarTextBy.detach_reread hD
  · intro room vs ih
    rw [Value.reread, Value.detach, Value.detach, detachElements_rereadElements ih]
  · intro room ms _ ih
    rw [Value.reread, Value.detach, Value.detach, detachMembers_rereadMembers ih]

/-- Without leave to borrow, no string that is read borrows. -/
theorem ValueTextBy.detach_eq (hD : D.Canonical o) (ho : o.contains .borrowing = false) (h : ValueTextBy D o room s v) :
    v.detach = v := by
  apply h.forall (P := fun _ v => v.detach = v)
  · intro room s v hs
    cases hs with
    | number h => rcases h.cases_value hD with ⟨n, rfl, -⟩ | ⟨d, rfl, -⟩ <;> rfl
    | string _ =>
        rw [stored, if_neg (Bool.eq_false_iff.1 ho)]
        rfl
    | _ => rfl
  · intro room vs ih
    rw [Value.detach, Value.detachElements_eq_map, List.map_congr_left ih, List.map_id']
  · intro room ms _ ih
    rw [Value.detach, Value.detachMembers_eq_self ih]

end Grammar

namespace Value

/-- A value as parsers give them, whose text is read as the same value, to the bits of every double, except that a
string may borrow from the text where it did not borrow from the document. -/
structure Settled (o : Options) (read : Bytes → Except ParseError Value) (text : Value → String) (v : Value) :
    Prop where
  integers_native : ∀ n ∈ v.integers, -2 ^ 31 ≤ n.toInt ∧ n.toInt < 2 ^ 31
  doubles_finite : o.contains .nonFinite = false → ∀ d ∈ v.doubles, d.isFinite = true
  nesting_le : (v.nesting : Int) ≤ max o.depthLimit 0
  canonical : v.Canonical
  read_text : ∃ w, read (encode (text v)) = .ok w ∧ w.detach = v.detach ∧ (w == v) = true ∧
    read (encode (text w)) = .ok w ∧ (o.contains .borrowing = false → w = v)

section

variable {integer : Int64 → List Char} {finite : Double → List Char} {convert : Conversion}

theorem detach_of_parseWith (hs : convert.Sound) (h : parseWith convert o s = .ok v)
    (ho : o.contains .borrowing = false) : v.detach = v := by
  obtain ⟨-, hv, -⟩ := parseBy_eq_ok_iff.1 h
  exact hv.detach_eq (Meaning.canonical_of_sound hs o) ho

theorem settled_of_parseWith (hw : NumberWriter.Faithful integer finite convert) (hs : convert.Sound)
    (h : parseWith convert o s = .ok v) :
    v.Settled o (parseWith convert o) (textWith (.words integer finite)) := by
  have hD : Meaning.Canonical (.of convert.interpret o) o := Meaning.canonical_of_sound hs o
  obtain ⟨-, hv, -⟩ := parseBy_eq_ok_iff.1 h
  have hfinite : o.contains .nonFinite = true ∨ ∀ d ∈ v.doubles, d.isFinite = true := by
    cases ho : o.contains .nonFinite with
    | true => exact .inl rfl
    | false => exact .inr (hv.finite hD ho)
  have hparse := parseWith_textWith hw hs (hv.canonical hD) (hv.nesting_le hD) hfinite
  have hdetach := hv.detach_reread hD
  refine ⟨fun n hn => Numeral.native_contains_iff.1 (hv.integers_native hD n hn), hv.finite hD, ?_, hv.canonical hD,
    _, hparse, hdetach, same_of_detach_eq hdetach, ?_, ?_⟩
  · rw [← Int.toNat_eq_max]
    exact Int.ofNat_le.2 (hv.nesting_le hD)
  · rw [← textWith_detach, hdetach, textWith_detach]
    exact hparse
  · intro ho
    exact (detach_of_parseWith hs hparse ho).symm.trans (hdetach.trans (detach_of_parseWith hs h ho))

/-- What is read has integers of 32 bits, finite doubles unless others may be read, no more nesting than the limit, and
sorted members. Its text is read back under the same options as the same value. This needs no more of the numbers than
that integers are written in decimal, and finite doubles as numerals that are read as them. -/
theorem parse_canonical :
    (∀ {o s v}, parse o s = .ok v → v.Settled o (parse o) text) ∧
    ∀ {integer finite convert}, NumberWriter.Faithful integer finite convert → Conversion.Sound convert →
      ∀ {o s v}, parseWith convert o s = .ok v →
        v.Settled o (parseWith convert o) (textWith (.words integer finite)) := by
  refine ⟨fun {o s v} h => ?_, fun {_ _ _} hw hs {_ _ _} h => settled_of_parseWith hw hs h⟩
  rw [parse_eq_parseWith] at h ⊢
  exact settled_of_parseWith NumberWriter.faithful_usual Conversion.sound_double? h

end

/-- An object with a key that comes twice, and a letter that is spelled as an escape. -/
def escapedLetter : Bytes :=
  Word.spell ['\x7b', '"', 'k', '"', ':', '0', ',', '"', 'k', '"', ':', '[', '"', '\\', 'u', '0', '0', '4', '1', '"',
    ',', 'N', 'a', 'N', ',', '-', '7', ']', '\x7d']

/-- The letter is read into storage of its own, and borrowed from the text of the value. -/
theorem parse_canonical_escapedLetter :
    let o := ((Options.enable {} .nonFinite).enable .borrowing).withDepthLimit 2
    let v (storage : Storage) : Value := .object [("k", .array [.string ⟨"A", storage⟩, .double .nan, .integer (-7)])]
    parse o escapedLetter = .ok (v .owned) ∧ (v .owned).nesting = 2 ∧ (v .owned).integers = [-7] ∧
      parse o (encode (v .owned).text) = .ok (v .borrowed) ∧ (v .borrowed == v .owned) = true := by
  intro o v
  have hread : parse o escapedLetter = .ok (v .owned) := by with_unfolding_all rfl
  obtain ⟨-, -, -, hc, w, hw, -, hbeq, -⟩ := parse_canonical.1 hread
  have hagain : parse o (encode (v .owned).text) = .ok (v .borrowed) := by
    rw [parse_encode_text (o := o) hc (by decide) (.inl (by decide))]
    with_unfolding_all rfl
  rw [hagain] at hw
  cases hw
  exact ⟨hread, rfl, rfl, hagain, hbeq⟩

end Value

end JsonTree
