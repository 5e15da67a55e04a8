import JsonTree.Proofs.Number.Writer
import JsonTree.Proofs.Text.Quoted

/-!
# Values read back from their texts

The text of a value is a document of the grammar. The value that it stands for has the same shape: only integers of
more than 32 bits, NaNs and the storage of strings change.
-/

namespace JsonTree

open Byte Document Grammar Utf8

namespace Value

/-! ## What is read back -/

mutual

/-- The doubles in a value, from left to right. -/
def doubles : Value → List Double
  | .double d => [d]
  | .array vs => doublesOfElements vs
  | .object ms => doublesOfMembers ms
  | _ => []

def doublesOfElements : List Value → List Double
  | [] => []
  | v :: vs => v.doubles ++ doublesOfElements vs

def doublesOfMembers : List (String × Value) → List Double
  | [] => []
  | (_, v) :: ms => v.doubles ++ doublesOfMembers ms

end

mutual

/-- The value that is read from the text of a value, if each double is read as `real` says. -/
def reread (o : Options) (real : Double → Value) : Value → Value
  | .null => .null
  | .boolean b => .boolean b
  | .integer n => if Numeral.native.contains n.toInt then .integer n else .double (.ofInt n.toInt)
  | .double d => real d
  | .string t => .string (Document.stored o ⟨t.content, Quoted.storage t.content⟩)
  | .array vs => .array (rereadElements o real vs)
  | .object ms => .object (rereadMembers o real ms)

def rereadElements (o : Options) (real : Double → Value) : List Value → List Value
  | [] => []
  | v :: vs => v.reread o real :: rereadElements o real vs

def rereadMembers (o : Options) (real : Double → Value) : List (String × Value) → List (String × Value)
  | [] => []
  | (k, v) :: ms => (k, v.reread o real) :: rereadMembers o real ms

end

theorem keys_rereadMembers (o : Options) (real : Double → Value) (ms : List (String × Value)) :
    (rereadMembers o real ms).map Prod.fst = ms.map Prod.fst := by
  induction ms with
  | nil => rfl
  | cons m ms ih =>
      obtain ⟨k, v⟩ := m
      rw [rereadMembers, List.map_cons, List.map_cons, ih]

theorem sorted_rereadMembers (o : Options) (real : Double → Value) {ms : List (String × Value)}
    (h : Entries.Sorted ms) : Entries.Sorted (rereadMembers o real ms) := by
  have := List.pairwise_map.2 h
  rw [← keys_rereadMembers o real] at this
  exact List.pairwise_map.1 this

/-! ## Texts of the grammar -/

variable {D : Meaning} {o : Options} {numbers : NumberWriter} {real : Double → Value}

/-- The text of an integer is a number of what it is read as. -/
def ReadsInteger (D : Meaning) (o : Options) (numbers : NumberWriter) : Prop :=
  ∀ n : Int64, NumberTextBy D o (ofChars (numbers.integer n))
    (if Numeral.native.contains n.toInt then .integer n else .double (.ofInt n.toInt))

/-- The text of a double is a text of the value that it is read as. -/
def ReadsAs (D : Meaning) (o : Options) (numbers : NumberWriter) (real : Double → Value) (d : Double) : Prop :=
  ∀ inner?, NodeTextBy D o inner? (ofChars (numbers.double d)) (real d)

theorem valueText_of_node {s v} (h : ∀ inner?, NodeTextBy D o inner? s v) : ∀ room, ValueTextBy D o room s v
  | 0 => h none
  | room + 1 => h (some (ValueTextBy D o room))

theorem itemsText_single {α : Type} {P : Bytes → α → Prop} {p a} (hp : P p a) : ItemsText o P p [a] := by
  have := ItemsText.last (o := o) hp .nil
  rwa [List.append_nil] at this

theorem memberText_member {V : Bytes → Value → Prop} {p v} (k : String) (hv : V p v) :
    MemberText V (ofChars (Quoted.literal k) ++ colon :: p) (k, v) :=
  .mk (Quoted.literalText_literal k) .nil .nil hv

mutual

theorem valueText_reread (hi : ReadsInteger D o numbers) : (room : Nat) → (v : Value) → v.Canonical → v.nesting ≤ room →
    (∀ d ∈ v.doubles, ReadsAs D o numbers real d) → ValueTextBy D o room (ofChars (v.textIn numbers)) (v.reread o real)
  | room, .null, _, _, _ => valueText_of_node (fun _ => .null) room
  | room, .boolean true, _, _, _ => valueText_of_node (fun _ => .truth) room
  | room, .boolean false, _, _, _ => valueText_of_node (fun _ => .falsity) room
  | room, .integer n, _, _, _ => by
      exact valueText_of_node (fun _ => .number (hi n)) room
  | room, .double d, _, _, hd => valueText_of_node (hd d List.mem_cons_self) room
  | room, .string t, _, _, _ =>
      valueText_of_node (fun _ => .string (Quoted.literalText_literal t.content)) room
  | 0, .array _, _, hn, _ => absurd hn (Nat.not_succ_le_zero _)
  | room + 1, .array vs, hc, hn, hd => by
      rw [Canonical] at hc
      have hr : vs ≠ [] → _ := fun hv => itemsText_elements hi room vs hv hc (Nat.le_of_succ_le_succ hn) hd
      rw [textIn, ofChars_cons, ofChars_append, reread]
      refine .array rfl ?_
      cases vs with
      | nil => exact .none .nil
      | cons v vs => exact .items .nil (hr (List.cons_ne_nil v vs))
  | 0, .object _, _, hn, _ => absurd hn (Nat.not_succ_le_zero _)
  | room + 1, .object ms, hc, hn, hd => by
      rw [Canonical] at hc
      have hr : ms ≠ [] → _ := fun hm => itemsText_members hi room ms hm hc.2 (Nat.le_of_succ_le_succ hn) hd
      have hs := sorted_rereadMembers o real hc.1
      rw [textIn, ofChars_cons, ofChars_append, reread, ← Entries.ofList_of_sorted hs]
      refine .object rfl ?_ fun _ => hs.nodup_keys
      cases ms with
      | nil => exact .none .nil
      | cons m ms => exact .items .nil (hr (List.cons_ne_nil m ms))

theorem itemsText_elements (hi : ReadsInteger D o numbers) :
    (room : Nat) → (vs : List Value) → vs ≠ [] → CanonicalElements vs →
    nestingElements vs ≤ room → (∀ d ∈ doublesOfElements vs, ReadsAs D o numbers real d) →
    ItemsText o (ValueTextBy D o room) (ofChars (elementsTextIn numbers vs)) (rereadElements o real vs)
  | _, [], hv, _, _, _ => absurd rfl hv
  | room, [v], _, hc, hn, hd => by
      rw [CanonicalElements] at hc
      obtain ⟨hv, -⟩ := Nat.max_le.1 hn
      have h := valueText_reread hi room v hc.1 hv fun d h => hd d (List.mem_append_left _ h)
      rw [elementsTextIn, rereadElements, rereadElements]
      exact itemsText_single h
  | room, v :: w :: vs, _, hc, hn, hd => by
      rw [CanonicalElements] at hc
      obtain ⟨hv, hvs⟩ := Nat.max_le.1 hn
      have h := valueText_reread hi room v hc.1 hv fun d h => hd d (List.mem_append_left _ h)
      have hs := itemsText_elements hi room (w :: vs) (List.cons_ne_nil w vs) hc.2 hvs
        fun d h => hd d (List.mem_append_right _ h)
      rw [elementsTextIn, rereadElements, ofChars_append, ofChars_cons]
      exact .cons h .nil .nil hs

theorem itemsText_members (hi : ReadsInteger D o numbers) :
    (room : Nat) → (ms : List (String × Value)) → ms ≠ [] → CanonicalMembers ms →
    nestingMembers ms ≤ room → (∀ d ∈ doublesOfMembers ms, ReadsAs D o numbers real d) →
    ItemsText o (MemberText (ValueTextBy D o room)) (ofChars (membersTextIn numbers ms)) (rereadMembers o real ms)
  | _, [], hm, _, _, _ => absurd rfl hm
  | room, [(k, v)], _, hc, hn, hd => by
      rw [CanonicalMembers] at hc
      obtain ⟨hv, -⟩ := Nat.max_le.1 hn
      have h := valueText_reread hi room v hc.1 hv fun d h => hd d (List.mem_append_left _ h)
      rw [membersTextIn, rereadMembers, rereadMembers, ofChars_append, ofChars_cons]
      exact itemsText_single (memberText_member k h)
  | room, (k, v) :: m :: ms, _, hc, hn, hd => by
      rw [CanonicalMembers] at hc
      obtain ⟨hv, hvs⟩ := Nat.max_le.1 hn
      have h := valueText_reread hi room v hc.1 hv fun d h => hd d (List.mem_append_left _ h)
      have hs := itemsText_members hi room (m :: ms) (List.cons_ne_nil m ms) hc.2 hvs
        fun d h => hd d (List.mem_append_right _ h)
      have ht : ofChars (membersTextIn numbers ((k, v) :: m :: ms)) =
          (ofChars (Quoted.literal k) ++ colon :: ofChars (v.textIn numbers)) ++
            ([] ++ comma :: ([] ++ ofChars (membersTextIn numbers (m :: ms)))) := by
        rw [membersTextIn, ofChars_append, ofChars_cons, ofChars_append, ofChars_cons, List.append_assoc]
        rfl
      rw [ht, rereadMembers]
      exact .cons (memberText_member k h) .nil .nil hs

end

/-! ## Round trips -/

section

variable {integer : Int64 → List Char} {finite : Double → List Char} {convert : Conversion} {v : Value}

/-- Texts in which numbers are written faithfully are read. -/
theorem parseWith_textWith (hw : NumberWriter.Faithful integer finite convert) (hs : convert.Sound) (hc : v.Canonical)
    (hn : v.nesting ≤ o.depthLimit.toNat) (hd : o.contains .nonFinite = true ∨ ∀ d ∈ v.doubles, d.isFinite = true) :
    parseWith convert o (encode (v.textWith (.words integer finite))) =
      .ok (v.reread o fun d => .double d.canonical) := by
  have hi : ReadsInteger (.of convert.interpret o) o (.words integer finite) := fun n => by
    change NumberTextBy _ _ (ofChars (integer n)) _
    rw [hw.integer_eq]
    exact NumberWriter.numberText_integer hs n
  have hr : ∀ d ∈ v.doubles,
      ReadsAs (.of convert.interpret o) o (.words integer finite) (fun d => .double d.canonical) d :=
    fun d h _ => .number (hw.numberText_double (hd.imp_right fun hd => hd d h))
  rw [encode_eq_ofChars, toList_textWith]
  exact (valueText_reread hi _ v hc hn hr).document.parseBy

theorem parse_encode_text (hc : v.Canonical) (hn : v.nesting ≤ o.depthLimit.toNat)
    (hd : o.contains .nonFinite = true ∨ ∀ d ∈ v.doubles, d.isFinite = true) :
    parse o (encode v.text) = .ok (v.reread o fun d => .double d.canonical) := by
  rw [parse_eq_parseWith]
  exact parseWith_textWith NumberWriter.faithful_usual Conversion.sound_double? hc hn hd

/-- Reading the text of a value gives the value back as far as its parts can be read: whatever the options, every value
with sorted members and within the limit on nesting has a text that is read, if it has a NaN or an infinity only where
these may be read. Doubles for integers are the nearest ones. This needs no more of the numbers than that integers are
written in decimal, and finite doubles as numerals that are read as them. -/
theorem parse_text {o : Options} {v : Value} (hc : v.Canonical) (hn : v.nesting ≤ o.depthLimit.toNat)
    (hd : o.contains .nonFinite = true ∨ ∀ d ∈ v.doubles, d.isFinite = true) :
    parse o (encode v.text) = .ok (v.reread o fun d => .double d.canonical) ∧
    (∀ n : Int64, (Double.ofInt n.toInt).Nearest n.toInt) ∧
    ∀ {integer finite convert}, NumberWriter.Faithful integer finite convert → Conversion.Sound convert →
      parseWith convert o (encode (v.textWith (.words integer finite))) =
        .ok (v.reread o fun d => .double d.canonical) :=
  ⟨parse_encode_text hc hn hd, fun n => Double.nearest_ofInt (natAbs_toInt_le n),
    fun hw hs => parseWith_textWith hw hs hc hn hd⟩

/-- An integer of 32 bits and more comes back as a double, and a NaN as the one that is read. -/
theorem parse_text_wideInteger :
    let o := (Options.enable {} .nonFinite).withDepthLimit 2
    let v : Value := .object [("a", .array
      [.integer 3000000000, .double ⟨0x8000000000000000⟩, .double ⟨0x7FF0000000000001⟩])]
    let w : Value := .object [("a", .array [.double (.ofInt 3000000000), .double ⟨0x8000000000000000⟩, .double .nan])]
    parse o (encode v.text) = .ok w ∧ parseWith exactConversion o (encode v.text) = .ok w := by
  intro o v w
  have hc : v.Canonical := by simp [v, Canonical, CanonicalMembers, CanonicalElements, Entries.Sorted]
  obtain ⟨hparse, -, hwith⟩ := parse_text (o := o) hc (by decide) (.inl (by decide))
  have hsound := correct_exactConversion.sound
  exact ⟨hparse, hwith (NumberWriter.faithful_of_shortest (Shortest.faithful_decimal .even) hsound) hsound⟩

end

end Value

end JsonTree
