import JsonTree.Proofs.Portable
import JsonTree.Proofs.Value.Equality
import JsonTree.Proofs.Value.RoundTrip
import JsonTree.Proofs.Value.Storage

/-!
# Texts tell values apart

The text of a value says where it ends, if what follows does not go on with a word or a number. So the items between
two brackets can be told from each other, whatever they are, and the text of a value shows all of it but which NaN it
has and where its strings lie. Reading back does not show this: an integer of more than 32 bits is read as a double.
-/

namespace JsonTree

open Byte Document Grammar Utf8

/-! ## Items between brackets -/

section

variable {α β : Type} {f : α → Bytes} {g : α → β} {close : UInt8} {r r' : Bytes}

/-- What is written for `a` in front of a delimiter says what `a` shows and where it ends. -/
def Tells (f : α → Bytes) (g : α → β) (a : α) : Prop :=
  ∀ {b : α} {r r' : Bytes}, Delimited r → Delimited r' → f a ++ r = f b ++ r' → g a = g b ∧ r = r'

/-- Items behind another one. -/
def followers (f : α → Bytes) (as : List α) : Bytes := as.flatMap fun a => comma :: f a

/-- Items with commas between them. -/
def separated (f : α → Bytes) : List α → Bytes
  | [] => []
  | a :: as => f a ++ followers f as

theorem delimited_followers (hc : Closing close) (as : List α) (r : Bytes) :
    Delimited (followers f as ++ close :: r) := by
  cases as with
  | nil => exact .cons hc.continuesToken
  | cons a as => exact .cons rfl

theorem eq_of_followers (hc : Closing close) :
    (as bs : List α) → (∀ a ∈ as, Tells f g a) → followers f as ++ close :: r = followers f bs ++ close :: r' →
      as.map g = bs.map g ∧ r = r'
  | [], [], _, h => ⟨rfl, (List.cons.inj h).2⟩
  | [], _ :: _, _, h => absurd (List.cons.inj h).1 hc.ne_comma
  | _ :: _, [], _, h => absurd (List.cons.inj h).1.symm hc.ne_comma
  | a :: as, b :: bs, ht, h => by
      obtain ⟨ha, has⟩ := List.forall_mem_cons.1 ht
      simp only [followers, List.flatMap_cons, List.cons_append, List.append_assoc, List.cons.injEq, true_and] at h
      obtain ⟨hg, h⟩ := ha (delimited_followers hc as r) (delimited_followers hc bs r') h
      obtain ⟨hgs, hr⟩ := eq_of_followers hc as bs has h
      exact ⟨congrArg₂ List.cons hg hgs, hr⟩

/-- Items that start with no closing bracket and tell what they show do so between brackets. -/
theorem eq_of_separated (hf : ∀ a, ∃ b s, f a = b :: s ∧ ¬ Closing b) (hc : Closing close) {as bs : List α}
    (ht : ∀ a ∈ as, Tells f g a) (h : separated f as ++ close :: r = separated f bs ++ close :: r') :
    as.map g = bs.map g ∧ r = r' := by
  have nonempty (b : α) (t u : Bytes) : close :: t ≠ f b ++ u := by
    obtain ⟨c, s, hb, hn⟩ := hf b
    rw [hb]
    rintro ⟨⟩
    exact hn hc
  cases as with
  | nil =>
      cases bs with
      | nil => exact eq_of_followers hc [] [] ht h
      | cons b bs =>
          rw [separated, separated, List.append_assoc] at h
          exact absurd h (nonempty b _ _)
  | cons a as =>
      cases bs with
      | nil =>
          rw [separated, separated, List.append_assoc] at h
          exact absurd h.symm (nonempty a _ _)
      | cons b bs => exact eq_of_followers hc (a :: as) (b :: bs) ht (congrArg (List.cons comma) h)

end

/-! ## Literals and numbers -/

namespace Grammar

theorem LiteralText.eq_of_append {s s' r r' : Bytes} {t t' : Text} (h : LiteralText s t) (h' : LiteralText s' t')
    (he : s ++ r = s' ++ r') : t = t' ∧ r = r' := by
  obtain ⟨p, rfl⟩ := h.exists_cons
  obtain ⟨p', rfl⟩ := h'.exists_cons
  obtain ⟨-, he : p ++ r = p' ++ r'⟩ := List.cons.inj he
  have hr := read_append h r
  rw [he, read_append h' r'] at hr
  cases hr
  exact ⟨rfl, rfl⟩

theorem NumberTextBy.eq_of_append {value? : Interpretation} {o : Options} {s s' r r' : Bytes} {v v' : Value}
    (h : NumberTextBy (.of value? o) o s v) (h' : NumberTextBy (.of value? o) o s' v') (hr : Delimited r)
    (hr' : Delimited r') (he : s ++ r = s' ++ r') : v = v' ∧ s = s' ∧ r = r' := by
  have hn := numberBy_append h hr
  rw [he, numberBy_append h' hr'] at hn
  cases hn
  exact ⟨rfl, List.append_cancel_right he, rfl⟩

end Grammar

theorem Double.key_canonical (d : Double) : d.canonical.key = d.key := by
  rw [canonical]
  split
  · rename_i h
    rw [key, key, if_pos h]
    rfl
  · rfl

namespace Value

/-! ## Numbers of one kind or another -/

/-- Options that let every number be read. -/
def words : Options := .enable {} .nonFinite

/-- Numerals show whether they are plain, and nothing else. -/
def plainness : Interpretation := fun _ n => some (.boolean n.isPlain)

section

variable {integer : Int64 → List Char} {finite : Double → List Char} (h : NumberWriter.Legible integer finite)

include h

theorem numberText_integer (n : Int64) :
    NumberTextBy (.of plainness words) words (ofChars (integer n)) (.boolean true) := by
  rw [h.integer_eq]
  exact .numeral (Numeral.numeralText_ofInteger n.toInt) ⟨rfl, rfl⟩

/-- A double is never written like an integer: finite ones have a fraction or an exponent, and the others are words. -/
theorem numberText_double (d : Double) :
    NumberTextBy (.of plainness words) words (ofChars ((NumberWriter.words integer finite).double d))
      (if d.isFinite then .boolean false else .double d.canonical) := by
  split
  · rename_i hd
    obtain ⟨n, hn, hplain⟩ := h.numeral hd
    rw [NumberWriter.double_words hd]
    exact .numeral hn ⟨by rw [plainness, hplain], rfl⟩
  · rename_i hd
    have hd := Bool.eq_false_iff.2 hd
    rw [NumberWriter.double_words_of_not hd]
    exact DoubleStyle.numberText_name (by decide) hd

theorem integer_inj {n m : Int64} (ht : integer n = integer m) : n = m := by
  rw [h.integer_eq, h.integer_eq] at ht
  have hn := (Numeral.numeralText_ofInteger n.toInt).unique (ht ▸ Numeral.numeralText_ofInteger m.toInt)
  rw [← Int64.toInt_inj, ← Numeral.toInt_ofInteger n.toInt, hn, Numeral.toInt_ofInteger]

end

/-! ## Kinds -/

/-- The kind of a value as far as the first byte of its text tells it: numbers of both kinds start alike. -/
def kindAt (b : UInt8) : Option Kind :=
  if b = letterN then some .null
  else if b = letterT ∨ b = letterF then some .boolean
  else if b = quote then some .string
  else if b = openBracket then some .array
  else if b = openBrace then some .object
  else if startsNumber words b then some .double
  else none

/-- The kind of a value, with one kind for all numbers. -/
def textKind : Value → Kind
  | .integer _ => .double
  | v => v.kind

section

variable {integer : Int64 → List Char} {finite : Double → List Char}

def written (integer : Int64 → List Char) (finite : Double → List Char) (v : Value) : Bytes :=
  ofChars (v.textIn (.words integer finite))

theorem kindAt_of_startsNumber {b : UInt8} (h : startsNumber words b = true) : kindAt b = some .double := by
  have hn : b ≠ letterN := startsNumber_ne h (by decide)
  have ht : b ≠ letterT := startsNumber_ne h (by decide)
  have hf : b ≠ letterF := startsNumber_ne h (by decide)
  have hq : b ≠ quote := startsNumber_ne h (by decide)
  have hb : b ≠ openBracket := startsNumber_ne h (by decide)
  have hc : b ≠ openBrace := startsNumber_ne h (by decide)
  simp [kindAt, *]

theorem not_closing_of_kindAt {b : UInt8} {k : Kind} (h : kindAt b = some k) : ¬ Closing b := by
  rintro (rfl | rfl) <;> cases h

theorem exists_written_eq_cons (h : NumberWriter.Legible integer finite) (v : Value) :
    ∃ b s, written integer finite v = b :: s ∧ kindAt b = some v.textKind := by
  have number {s : Bytes} {w : Value} (h : NumberTextBy (.of plainness words) words s w) :
      ∃ b t, s = b :: t ∧ kindAt b = some .double := by
    obtain ⟨b, t, hs, hb⟩ := h.exists_cons
    exact ⟨b, t, hs, kindAt_of_startsNumber hb⟩
  cases v with
  | null => exact ⟨_, _, rfl, rfl⟩
  | boolean b => cases b <;> exact ⟨_, _, rfl, rfl⟩
  | integer n => exact number (numberText_integer h n)
  | double d => exact number (numberText_double h d)
  | string t => exact ⟨_, _, rfl, rfl⟩
  | array vs => exact ⟨_, _, rfl, rfl⟩
  | object ms => exact ⟨_, _, rfl, rfl⟩

theorem textKind_eq_of_append (h : NumberWriter.Legible integer finite) {v w : Value} {r r' : Bytes}
    (he : written integer finite v ++ r = written integer finite w ++ r') : v.textKind = w.textKind := by
  obtain ⟨b, s, hb, hv⟩ := exists_written_eq_cons h v
  obtain ⟨c, t, hc, hw⟩ := exists_written_eq_cons h w
  rw [hb, hc] at he
  obtain ⟨rfl, -⟩ := List.cons.inj he
  exact Option.some.inj (hv.symm.trans hw)

/-! ## What a text shows -/

/-- A value as its text shows it: with one NaN in place of all, and with no borrowed strings. -/
def shown (v : Value) : Value := (v.mapNumbers .integer fun d => .double d.canonical).detach

theorem shown_array (vs : List Value) : (array vs).shown = .array (vs.map shown) := by
  rw [shown, mapNumbers, detach, detachElements_eq_map]
  congr 1
  induction vs with
  | nil => rfl
  | cons v vs ih => rw [mapNumbersOfElements, List.map_cons, List.map_cons, ih, shown]

theorem shown_object (ms : List (String × Value)) : (object ms).shown = .object (ms.map (Prod.map id shown)) := by
  rw [shown, mapNumbers, detach]
  congr 1
  induction ms with
  | nil => rfl
  | cons m ms ih => rw [mapNumbersOfMembers, detachMembers, ih, List.map_cons, Prod.map, shown, id]

/-! ## Texts in front of a delimiter -/

def writtenMember (integer : Int64 → List Char) (finite : Double → List Char) (m : String × Value) : Bytes :=
  ofChars (Quoted.literal m.1) ++ colon :: written integer finite m.2

theorem written_array_append (vs : List Value) (r : Bytes) :
    written integer finite (.array vs) ++ r =
      openBracket :: (separated (written integer finite) vs ++ closeBracket :: r) := by
  have h : ofChars (elementsTextIn (.words integer finite) vs) = separated (written integer finite) vs := by
    induction vs with
    | nil => rfl
    | cons v vs ih =>
        cases vs with
        | nil => exact (List.append_nil _).symm
        | cons w vs =>
            rw [elementsTextIn, ofChars_append, ofChars_cons, ih]
            rfl
  rw [← h, written, textIn, ofChars_cons, ofChars_append, List.append_assoc, List.append_assoc]
  rfl

theorem written_object_append (ms : List (String × Value)) (r : Bytes) :
    written integer finite (.object ms) ++ r =
      openBrace :: (separated (writtenMember integer finite) ms ++ closeBrace :: r) := by
  have hm (k : String) (v : Value) (r : Bytes) :
      ofChars (Quoted.literal k) ++ colon :: (written integer finite v ++ r) =
        writtenMember integer finite (k, v) ++ r := by
    rw [writtenMember, List.append_assoc, List.cons_append]
  have h : ofChars (membersTextIn (.words integer finite) ms) = separated (writtenMember integer finite) ms := by
    induction ms with
    | nil => rfl
    | cons m ms ih =>
        obtain ⟨k, v⟩ := m
        cases ms with
        | nil =>
            rw [membersTextIn, ofChars_append, ofChars_cons]
            exact (List.append_nil _).symm
        | cons m ms =>
            rw [membersTextIn, ofChars_append, ofChars_cons, ofChars_append, ofChars_cons, ih]
            exact hm k v (followers (writtenMember integer finite) (m :: ms))
  rw [← h, written, textIn, ofChars_cons, ofChars_append, List.append_assoc, List.append_assoc]
  rfl

theorem exists_cons_writtenMember (m : String × Value) :
    ∃ b s, writtenMember integer finite m = b :: s ∧ ¬ Closing b :=
  ⟨quote, _, rfl, by rintro (h | h) <;> cases h⟩

variable (h : NumberWriter.Legible integer finite)

include h

theorem exists_cons_written (v : Value) : ∃ b s, written integer finite v = b :: s ∧ ¬ Closing b := by
  obtain ⟨b, s, hb, hk⟩ := exists_written_eq_cons h v
  exact ⟨b, s, hb, not_closing_of_kindAt hk⟩

theorem tells_null : Tells (written integer finite) shown .null := by
  intro w r r' _ _ he
  have hk := textKind_eq_of_append h he
  cases w with
  | null => exact ⟨rfl, List.append_cancel_left he⟩
  | _ => cases hk

theorem tells_boolean (b : Bool) : Tells (written integer finite) shown (.boolean b) := by
  intro w r r' _ _ he
  have hk := textKind_eq_of_append h he
  cases w with
  | boolean c =>
      have hne : letterT ≠ letterF := by decide
      cases b <;> cases c
      · exact ⟨rfl, List.append_cancel_left he⟩
      · exact absurd (List.cons.inj he).1.symm hne
      · exact absurd (List.cons.inj he).1 hne
      · exact ⟨rfl, List.append_cancel_left he⟩
  | _ => cases hk

theorem tells_integer (n : Int64) : Tells (written integer finite) shown (.integer n) := by
  intro w r r' hr hr' he
  have hk := textKind_eq_of_append h he
  have hn := numberText_integer h n
  cases w with
  | integer m =>
      obtain ⟨-, ht, hr⟩ := hn.eq_of_append (numberText_integer h m) hr hr' he
      rw [integer_inj h (ofChars_inj.1 ht)]
      exact ⟨rfl, hr⟩
  | double d =>
      obtain ⟨hv, -⟩ := hn.eq_of_append (numberText_double h d) hr hr' he
      split at hv <;> cases hv
  | _ => cases hk

theorem tells_double (d : Double) : Tells (written integer finite) shown (.double d) := by
  intro w r r' hr hr' he
  have hk := textKind_eq_of_append h he
  have hd := numberText_double h d
  cases w with
  | integer n =>
      obtain ⟨hv, -⟩ := hd.eq_of_append (numberText_integer h n) hr hr' he
      split at hv <;> cases hv
  | double e =>
      obtain ⟨hv, ht, hr⟩ := hd.eq_of_append (numberText_double h e) hr hr' he
      refine ⟨?_, hr⟩
      -- Both are finite, and then their numerals differ if they do, or both are words.
      split at hv <;> rename_i hfd <;> split at hv <;> rename_i hfe
      · rw [NumberWriter.double_words hfd, NumberWriter.double_words hfe] at ht
        rw [h.injective hfd hfe (ofChars_inj.1 ht)]
      · cases hv
      · cases hv
      · rw [shown, mapNumbers, hv]
        rfl
  | _ => cases hk

theorem tells_string (t : Text) : Tells (written integer finite) shown (.string t) := by
  intro w r r' _ _ he
  have hk := textKind_eq_of_append h he
  cases w with
  | string u =>
      obtain ⟨ht, hr⟩ := (Quoted.literalText_literal t.content).eq_of_append (Quoted.literalText_literal u.content) he
      exact ⟨congrArg string (detach_eq_detach_iff.2 (Text.mk.inj ht).1), hr⟩
  | _ => cases hk

theorem tells_array {vs : List Value} (ht : ∀ v ∈ vs, Tells (written integer finite) shown v) :
    Tells (written integer finite) shown (.array vs) := by
  intro w r r' _ _ he
  have hk := textKind_eq_of_append h he
  cases w with
  | array ws =>
      rw [written_array_append, written_array_append] at he
      obtain ⟨hs, hr⟩ := eq_of_separated (exists_cons_written h) (.inl rfl) ht (List.cons.inj he).2
      rw [shown_array, shown_array, hs]
      exact ⟨rfl, hr⟩
  | _ => cases hk

omit h in
theorem tells_member {k : String} {v : Value} (hv : Tells (written integer finite) shown v) :
    Tells (writtenMember integer finite) (Prod.map id shown) (k, v) := by
  rintro ⟨l, w⟩ r r' hr hr' h
  rw [writtenMember, writtenMember, List.append_assoc, List.append_assoc] at h
  obtain ⟨hk, h⟩ := (Quoted.literalText_literal k).eq_of_append (Quoted.literalText_literal l) h
  obtain ⟨hs, hr⟩ := hv hr hr' (List.cons.inj h).2
  exact ⟨Prod.ext (Text.mk.inj hk).1 hs, hr⟩

theorem tells_object {ms : List (String × Value)}
    (ht : ∀ m ∈ ms, Tells (writtenMember integer finite) (Prod.map id shown) m) :
    Tells (written integer finite) shown (.object ms) := by
  intro w r r' _ _ he
  have hk := textKind_eq_of_append h he
  cases w with
  | object ns =>
      rw [written_object_append, written_object_append] at he
      obtain ⟨hs, hr⟩ := eq_of_separated exists_cons_writtenMember (.inr rfl) ht (List.cons.inj he).2
      rw [shown_object, shown_object, hs]
      exact ⟨rfl, hr⟩
  | _ => cases hk

omit h

mutual

theorem tells_written (h : NumberWriter.Legible integer finite) : (v : Value) → Tells (written integer finite) shown v
  | .null => tells_null h
  | .boolean b => tells_boolean h b
  | .integer n => tells_integer h n
  | .double d => tells_double h d
  | .string t => tells_string h t
  | .array vs => tells_array h (tells_elements h vs)
  | .object ms => tells_object h (tells_members h ms)

theorem tells_elements (h : NumberWriter.Legible integer finite) :
    (vs : List Value) → ∀ v ∈ vs, Tells (written integer finite) shown v
  | [] => List.forall_mem_nil _
  | v :: vs => List.forall_mem_cons.2 ⟨tells_written h v, tells_elements h vs⟩

theorem tells_members (h : NumberWriter.Legible integer finite) :
    (ms : List (String × Value)) → ∀ m ∈ ms, Tells (writtenMember integer finite) (Prod.map id shown) m
  | [] => List.forall_mem_nil _
  | (_, v) :: ms => List.forall_mem_cons.2 ⟨tells_member (tells_written h v), tells_members h ms⟩

end

end

/-! ## Equality -/

mutual

/-- Equality sees nothing of a value that its text does not show. -/
theorem plain_shown : (v : Value) → v.shown.plain = v.plain
  | .null | .boolean _ | .integer _ | .string _ => rfl
  | .double d => congrArg (fun k => double ⟨k⟩) (Double.key_canonical d)
  | .array vs => by rw [shown_array, plain, plain, plainElements_shown vs]
  | .object ms => by rw [shown_object, plain, plain, plainMembers_shown ms]

theorem plainElements_shown : (vs : List Value) → plainElements (vs.map shown) = plainElements vs
  | [] => rfl
  | v :: vs => by rw [List.map_cons, plainElements, plainElements, plain_shown v, plainElements_shown vs]

theorem plainMembers_shown : (ms : List (String × Value)) → plainMembers (ms.map (Prod.map id shown)) = plainMembers ms
  | [] => rfl
  | (k, v) :: ms => by
      rw [List.map_cons, Prod.map, plainMembers, plainMembers, plain_shown v, plainMembers_shown ms, id]

end

theorem beq_of_shown_eq {v w : Value} (h : v.shown = w.shown) : (v == w) = true := by
  rw [beq_iff_plain_eq, ← plain_shown v, h, plain_shown w]

theorem shown_eq_of_textWith_eq {integer : Int64 → List Char} {finite : Double → List Char}
    (h : NumberWriter.Legible integer finite) {v w : Value}
    (ht : v.textWith (.words integer finite) = w.textWith (.words integer finite)) :
    v.shown = w.shown ∧ (v == w) = true := by
  have he : written integer finite v = written integer finite w := congrArg ofChars (String.ofList_injective ht)
  obtain ⟨hs, -⟩ := tells_written h v .nil .nil (congrArg (· ++ []) he)
  exact ⟨hs, beq_of_shown_eq hs⟩

/-- Values with the same text are equal, and agree in all their kinds, integers, strings, keys and doubles, in order:
only which NaN stands in a place and where the strings lie may differ. This needs no more of the numbers than that
integers are written in decimal, and different finite doubles as different numerals with a fraction or an exponent. -/
theorem shown_eq_of_text_eq :
    (∀ {v w : Value}, v.text = w.text → v.shown = w.shown ∧ (v == w) = true) ∧
    ∀ {integer finite}, NumberWriter.Legible integer finite → ∀ {v w : Value},
      v.textWith (.words integer finite) = w.textWith (.words integer finite) → v.shown = w.shown ∧ (v == w) = true :=
  ⟨fun h => shown_eq_of_textWith_eq NumberWriter.faithful_usual.legible h,
    fun {_ _} h {_ _} ht => shown_eq_of_textWith_eq h ht⟩

/-- Another NaN and another place for a string in the two values, and quotes and commas in a key. -/
theorem shown_eq_of_text_eq_nested :
    let v : Value := .object [("a\",\"b", .array [.double ⟨0x7FF0000000000001⟩, .string ⟨"1", .borrowed⟩, .integer 1])]
    let w : Value := .object [("a\",\"b", .array [.double .nan, .string ⟨"1", .owned⟩, .integer 1])]
    v.text = w.text ∧ v.shown = w.shown ∧ (v == w) = true := by
  intro v w
  have h : v.text = w.text := by decide
  exact ⟨h, shown_eq_of_text_eq.2 NumberWriter.faithful_usual.legible h⟩

end Value

end JsonTree
