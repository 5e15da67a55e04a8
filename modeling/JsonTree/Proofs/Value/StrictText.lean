import JsonTree.Proofs.Portable
import JsonTree.Proofs.Serializer
import JsonTree.Proofs.Value.Canonical

/-!
# Values written for other readers

A text that has no words for numbers that are not finite is read with all options off. It stands for the value with
`null` for those numbers, and with doubles for the integers of more than 32 bits. In other respects it is the usual
text, but that a positive exponent has a sign.
-/

namespace JsonTree

open Byte Document Grammar Utf8

namespace Value

/-! ## What is read back -/

/-- What an integer is read as: itself, or a double if it has more than 32 bits. -/
def nativeInteger (n : Int64) : Value :=
  if -2 ^ 31 ≤ n.toInt ∧ n.toInt < 2 ^ 31 then .integer n else .double (.ofInt n.toInt)

theorem ite_contains_native (n : Int64) :
    (if Numeral.native.contains n.toInt then .integer n else .double (.ofInt n.toInt)) = nativeInteger n :=
  if_congr Numeral.native_contains_iff rfl rfl

theorem detach_nativeInteger (n : Int64) : (nativeInteger n).detach = nativeInteger n := by
  rw [nativeInteger]
  split <;> rfl

theorem detach_finiteDouble (d : Double) : (finiteDouble d).detach = finiteDouble d := by
  rw [finiteDouble]
  split <;> rfl

section

variable {o : Options} {real : Double → Value}

mutual

/-- Without leave to borrow, numbers are all that is read as something else. -/
theorem reread_eq_detach (ho : o.contains .borrowing = false) (hr : ∀ d, (real d).detach = real d) : (v : Value) →
    v.reread o real = (v.mapNumbers nativeInteger real).detach
  | .null | .boolean _ => rfl
  | .integer n => by rw [reread, ite_contains_native, mapNumbers, detach_nativeInteger]
  | .double d => (hr d).symm
  | .string t => congrArg Value.string (if_neg (Bool.eq_false_iff.1 ho))
  | .array vs => congrArg Value.array (rereadElements_eq_detach ho hr vs)
  | .object ms => congrArg Value.object (rereadMembers_eq_detach ho hr ms)

theorem rereadElements_eq_detach (ho : o.contains .borrowing = false) (hr : ∀ d, (real d).detach = real d) :
    (vs : List Value) → rereadElements o real vs = detachElements (mapNumbersOfElements nativeInteger real vs)
  | [] => rfl
  | v :: vs => by
      rw [rereadElements, mapNumbersOfElements, detachElements, reread_eq_detach ho hr v,
        rereadElements_eq_detach ho hr vs]

theorem rereadMembers_eq_detach (ho : o.contains .borrowing = false) (hr : ∀ d, (real d).detach = real d) :
    (ms : List (String × Value)) → rereadMembers o real ms = detachMembers (mapNumbersOfMembers nativeInteger real ms)
  | [] => rfl
  | (k, v) :: ms => by
      rw [rereadMembers, mapNumbersOfMembers, detachMembers, reread_eq_detach ho hr v, rereadMembers_eq_detach ho hr ms]

end

variable {f g : Int64 → Value}

mutual

/-- Other values for the integers matter only if the value has them. -/
theorem mapNumbers_congr : (v : Value) → (∀ n ∈ v.integers, f n = g n) → v.mapNumbers f real = v.mapNumbers g real
  | .null, _ | .boolean _, _ | .double _, _ | .string _, _ => rfl
  | .integer n, h => h n List.mem_cons_self
  | .array vs, h => congrArg Value.array (mapNumbersOfElements_congr vs h)
  | .object ms, h => congrArg Value.object (mapNumbersOfMembers_congr ms h)

theorem mapNumbersOfElements_congr : (vs : List Value) → (∀ n ∈ integersOfElements vs, f n = g n) →
    mapNumbersOfElements f real vs = mapNumbersOfElements g real vs
  | [], _ => rfl
  | v :: vs, h => by
      obtain ⟨hv, hvs⟩ := List.forall_mem_append.1 h
      rw [mapNumbersOfElements, mapNumbersOfElements, mapNumbers_congr v hv, mapNumbersOfElements_congr vs hvs]

theorem mapNumbersOfMembers_congr : (ms : List (String × Value)) → (∀ n ∈ integersOfMembers ms, f n = g n) →
    mapNumbersOfMembers f real ms = mapNumbersOfMembers g real ms
  | [], _ => rfl
  | (k, v) :: ms, h => by
      obtain ⟨hv, hms⟩ := List.forall_mem_append.1 h
      rw [mapNumbersOfMembers, mapNumbersOfMembers, mapNumbers_congr v hv, mapNumbersOfMembers_congr ms hms]

end

end

section

variable {shortest : Double → Decimal} {convert : Conversion} {o : Options}

theorem readsInteger_strict (hs : convert.Sound) : ReadsInteger (.of convert.interpret o) o (.strict shortest) :=
  NumberWriter.numberText_integer hs

theorem readsAs_finiteDouble (h : Shortest.Faithful shortest) (hs : convert.Sound) (d : Double) :
    ReadsAs (.of convert.interpret o) o (.strict shortest) finiteDouble d := by
  intro inner?
  rw [finiteDouble, NumberWriter.double]
  cases hd : d.isFinite with
  | true =>
      obtain ⟨hn, hc⟩ := NumberWriter.exists_numeralText_finite .strict (.inr rfl) h hs hd
      exact .number (NumberWriter.numberText_finite hn hd hc)
  | false => exact .null

end

/-! ## Plus signs -/

/-- Where a character of a text stands: in no string literal, in one, or in one behind a backslash. -/
inductive Quoting where
  | outside
  | inside
  | escaped
  deriving DecidableEq

def Quoting.next : Quoting → Char → Quoting
  | .outside, c => if c = '"' then .inside else .outside
  | .inside, c => if c = '"' then .outside else if c = '\\' then .escaped else .inside
  | .escaped, _ => .inside

/-- A text with a plus sign in each positive exponent. These begin with an `e` that has a digit behind it, and stand in
no string literal. -/
def plusExponents : Quoting → List Char → List Char
  | _, [] => []
  | q, c :: cs =>
      c :: ((if q = .outside ∧ c = 'e' ∧ cs.head?.any Char.isDigit then ['+'] else []) ++ plusExponents (q.next c) cs)

/-- A piece of a text becomes another one, unless a digit follows. -/
def PlusText (s t : List Char) : Prop :=
  ∀ r, r.head?.any Char.isDigit = false → plusExponents .outside (s ++ r) = t ++ plusExponents .outside r

/-- A character that begins neither a string literal nor an exponent. -/
def Inert (c : Char) : Prop := c ≠ '"' ∧ c ≠ 'e'

instance (c : Char) : Decidable (Inert c) := inferInstanceAs (Decidable (_ ∧ _))

theorem plusExponents_inert {c : Char} (hc : Inert c) (cs : List Char) :
    plusExponents .outside (c :: cs) = c :: plusExponents .outside cs := by
  rw [plusExponents, if_neg fun h => hc.2 h.2.1, Quoting.next, if_neg hc.1, List.nil_append]

theorem plusExponents_inside (c : Char) (cs : List Char) :
    plusExponents .inside (c :: cs) = c :: plusExponents (Quoting.inside.next c) cs := rfl

namespace PlusText

variable {s s' t t' : List Char}

theorem nil : PlusText [] [] := fun _ _ => rfl

/-- An `e` that has no digit behind it is the end of a word. -/
theorem letter : PlusText ['e'] ['e'] := by
  intro r hr
  rw [List.singleton_append, plusExponents, hr, if_neg (by simp)]
  rfl

theorem append_inert (hs : ∀ c ∈ s, Inert c) (h : PlusText s' t') : PlusText (s ++ s') (s ++ t') := by
  induction s with
  | nil => exact h
  | cons c s ih =>
      obtain ⟨hc, hs⟩ := List.forall_mem_cons.1 hs
      intro r hr
      rw [List.cons_append, List.cons_append, plusExponents_inert hc, ih hs r hr]
      rfl

theorem of_inert (hs : ∀ c ∈ s, Inert c) : PlusText s s := by
  have h := append_inert hs nil
  rwa [List.append_nil] at h

/-- Two pieces with a separator between them. -/
theorem append_cons {c : Char} (h : PlusText s t) (hc : Inert c) (hd : c.isDigit = false) (h' : PlusText s' t') :
    PlusText (s ++ c :: s') (t ++ c :: t') := by
  intro r hr
  rw [List.append_assoc, List.cons_append, h (c :: (s' ++ r)) hd, plusExponents_inert hc, h' r hr, List.append_assoc,
    List.cons_append]

/-- A piece between brackets. -/
theorem bracketed {c c' : Char} (hc : Inert c) (hc' : Inert c') (hd : c'.isDigit = false) (h : PlusText s t) :
    PlusText (c :: (s ++ [c'])) (c :: (t ++ [c'])) :=
  append_inert (List.forall_mem_singleton.2 hc) (h.append_cons hc' hd nil)

end PlusText

/-! ## Plus signs and string literals -/

theorem plusExponents_escape (c : Char) (r : List Char) :
    plusExponents .inside (Quoted.escape c ++ r) = Quoted.escape c ++ plusExponents .inside r := by
  have hhex : ∀ n < 16, Quoting.inside.next (Quoted.hexDigit n) = .inside := by decide
  unfold Quoted.escape
  iterate 7
    split
    next => rfl
  split
  · rename_i hc
    have h (n : Nat) (hn : n < 16) (cs : List Char) : plusExponents .inside (Quoted.hexDigit n :: cs) =
        Quoted.hexDigit n :: plusExponents .inside cs := by rw [plusExponents_inside, hhex n hn]
    have hdigits := h (c.toNat / 16) (by omega) (Quoted.hexDigit (c.toNat % 16) :: r)
    rw [h (c.toNat % 16) (by omega)] at hdigits
    exact congrArg (['\\', 'u', '0', '0'] ++ ·) hdigits
  · rename_i hq hs _ _ _ _ _ _
    rw [List.singleton_append, plusExponents_inside, Quoting.next, if_neg hq, if_neg hs, List.singleton_append]

theorem plusText_literal (k : String) : PlusText (Quoted.literal k) (Quoted.literal k) := by
  have inside (cs r : List Char) : plusExponents .inside (cs.flatMap Quoted.escape ++ r) =
      cs.flatMap Quoted.escape ++ plusExponents .inside r := by
    induction cs with
    | nil => rfl
    | cons c cs ih =>
        rw [List.flatMap_cons, List.append_assoc, plusExponents_escape, ih, List.append_assoc]
  intro r _
  have h := inside k.toList ('"' :: r)
  rw [Quoted.literal, List.cons_append, List.append_assoc, List.singleton_append]
  exact congrArg ('"' :: ·) (h.trans (List.append_assoc _ ['"'] _).symm)

/-! ## Plus signs and numbers -/

theorem inert_of_isDigit {c : Char} (h : c.isDigit = true) : Inert c := by
  constructor <;> rintro rfl <;> simp at h

theorem inert_of_mem_toDigits (n : Nat) : ∀ c ∈ Nat.toDigits 10 n, Inert c := fun _ hc =>
  inert_of_isDigit (Nat.isDigit_of_mem_toDigits (by decide) (by decide) hc)

theorem inert_of_mem_sign (negative : Prop) [Decidable negative] : ∀ c ∈ if negative then ['-'] else [], Inert c := by
  split <;> simp [Inert]

theorem plusText_integer (n : Int) : PlusText (integerText n) (integerText n) :=
  .append_inert (inert_of_mem_sign _) (.of_inert (inert_of_mem_toDigits n.natAbs))

theorem inert_of_mem_positional {ds : List Char} (h : ∀ c ∈ ds, Inert c) (place : Int) :
    ∀ c ∈ DoubleStyle.positional ds place, Inert c := by
  have hzeros (n : Nat) : ∀ c ∈ List.replicate n '0', Inert c := fun c hc => List.eq_of_mem_replicate hc ▸ by decide
  simp only [DoubleStyle.positional]
  split
  · exact List.forall_mem_append.2 ⟨List.forall_mem_append.2 ⟨by simp [Inert], hzeros _⟩, h⟩
  · split
    · exact List.forall_mem_append.2 ⟨List.forall_mem_append.2 ⟨h, hzeros _⟩, by simp [Inert]⟩
    · exact List.forall_mem_append.2 ⟨fun c hc => h c (List.mem_of_mem_take hc),
        List.forall_mem_cons.2 ⟨by decide, fun c hc => h c (List.mem_of_mem_drop hc)⟩⟩

/-- A positive exponent gets a sign. -/
theorem plusText_exponent (place : Int) :
    PlusText ('e' :: (if place < 0 then ['-'] else []) ++ Nat.toDigits 10 place.natAbs)
      ('e' :: (if place < 0 then ['-'] else ['+']) ++ Nat.toDigits 10 place.natAbs) := by
  have hdigits : PlusText _ _ := .of_inert (inert_of_mem_toDigits place.natAbs)
  intro r hr
  have h := hdigits r hr
  by_cases hp : place < 0
  · rw [if_pos hp, if_pos hp]
    exact congrArg (['e', '-'] ++ ·) h
  · rw [if_neg hp, if_neg hp]
    obtain ⟨c, cs, hc⟩ := List.exists_cons_of_ne_nil (Nat.toDigits_ne_nil (b := 10) (n := place.natAbs))
    have hd : c.isDigit = true :=
      Nat.isDigit_of_mem_toDigits (by decide) (by decide) (hc ▸ List.mem_cons_self : c ∈ Nat.toDigits 10 place.natAbs)
    rw [List.cons_append, List.nil_append, List.cons_append, plusExponents, hc, if_pos ⟨rfl, rfl, hd⟩]
    rw [hc] at h
    exact congrArg (['e', '+'] ++ ·) h

theorem plusText_scientific {ds : List Char} (h : ∀ c ∈ ds, Inert c) (place : Int) :
    PlusText (DoubleStyle.document.scientific ds place) (DoubleStyle.strict.scientific ds place) := by
  have hmantissa : ∃ m, (∀ c ∈ m, Inert c) ∧ ∀ s : DoubleStyle, s.scientific ds place =
      m ++ ('e' :: (if place < 0 then ['-'] else s.positive) ++ Nat.toDigits 10 place.natAbs) := by
    match ds with
    | [] => exact ⟨[], h, fun s => by simp [DoubleStyle.scientific]⟩
    | [c] => exact ⟨[c], h, fun s => by simp [DoubleStyle.scientific]⟩
    | c :: c' :: cs =>
        obtain ⟨hc, hcs⟩ := List.forall_mem_cons.1 h
        exact ⟨c :: '.' :: c' :: cs, List.forall_mem_cons.2 ⟨hc, List.forall_mem_cons.2 ⟨by decide, hcs⟩⟩,
          fun s => by simp [DoubleStyle.scientific]⟩
  obtain ⟨m, hm, hs⟩ := hmantissa
  rw [hs, hs]
  exact .append_inert hm (plusText_exponent place)

theorem plusText_decimal (c : Nat) (e : Int) :
    PlusText (DoubleStyle.document.decimal c e) (DoubleStyle.strict.decimal c e) := by
  have hdigits := inert_of_mem_toDigits c
  have hl : DoubleStyle.document.lowest = DoubleStyle.strict.lowest := rfl
  have hh : DoubleStyle.document.highest = DoubleStyle.strict.highest := rfl
  simp only [DoubleStyle.decimal, hl, hh]
  split
  · exact .of_inert (inert_of_mem_positional hdigits _)
  · exact plusText_scientific hdigits _

theorem plusText_finite (shortest : Double → Decimal) (d : Double) :
    PlusText (DoubleStyle.document.finite shortest d) (DoubleStyle.strict.finite shortest d) := by
  simp only [DoubleStyle.finite]
  split
  · exact .append_inert (inert_of_mem_sign _) (.of_inert (by simp [Inert]))
  · exact .append_inert (inert_of_mem_sign _) (plusText_decimal _ _)

/-! ## Plus signs and values -/

section

variable (shortest : Double → Decimal)

mutual

theorem plusText_textIn : (v : Value) → (∀ d ∈ v.doubles, d.isFinite = true) →
    PlusText (v.textIn (.document shortest)) (v.textIn (.strict shortest))
  | .null, _ => .of_inert (by simp [textIn, Inert])
  | .boolean true, _ => .append_inert (s := ['t', 'r', 'u']) (by simp [Inert]) .letter
  | .boolean false, _ => .append_inert (s := ['f', 'a', 'l', 's']) (by simp [Inert]) .letter
  | .integer n, _ => plusText_integer n.toInt
  | .double d, hd => by
      have hd := hd d List.mem_cons_self
      rw [textIn, textIn, NumberWriter.double, NumberWriter.double, if_pos hd, if_pos hd]
      exact plusText_finite shortest d
  | .string t, _ => plusText_literal t.content
  | .array vs, hd => (plusText_elements vs hd).bracketed (by decide) (by decide) rfl
  | .object ms, hd => (plusText_members ms hd).bracketed (by decide) (by decide) rfl

theorem plusText_elements : (vs : List Value) → (∀ d ∈ doublesOfElements vs, d.isFinite = true) →
    PlusText (elementsTextIn (.document shortest) vs) (elementsTextIn (.strict shortest) vs)
  | [], _ => .nil
  | [v], hd => plusText_textIn v (List.forall_mem_append.1 hd).1
  | v :: w :: vs, hd =>
      have ⟨hv, hvs⟩ := List.forall_mem_append.1 hd
      (plusText_textIn v hv).append_cons (by decide) rfl (plusText_elements (w :: vs) hvs)

theorem plusText_members : (ms : List (String × Value)) → (∀ d ∈ doublesOfMembers ms, d.isFinite = true) →
    PlusText (membersTextIn (.document shortest) ms) (membersTextIn (.strict shortest) ms)
  | [], _ => .nil
  | [(k, v)], hd =>
      (plusText_literal k).append_cons (by decide) rfl (plusText_textIn v (List.forall_mem_append.1 hd).1)
  | (k, v) :: m :: ms, hd =>
      have ⟨hv, hms⟩ := List.forall_mem_append.1 hd
      (plusText_literal k).append_cons (by decide) rfl
        ((plusText_textIn v hv).append_cons (by decide) rfl (plusText_members (m :: ms) hms))

end

end

/-! ## Texts for other readers -/

/-- A text that stands for a value where there are no words for numbers: it is read as the value with `null` for the
doubles that are not finite and with doubles for the integers of more than 32 bits. If there are no such integers, it is
read as the portable value would be. If all doubles are finite, it is the usual text with plus signs in the positive
exponents. -/
structure Exchanged (read : Bytes → Except ParseError Value) (text usual : String) (v : Value) : Prop where
  read_eq : read (encode text) = .ok (v.mapNumbers nativeInteger finiteDouble).detach
  portable : (∀ n ∈ v.integers, -2 ^ 31 ≤ n.toInt ∧ n.toInt < 2 ^ 31) →
    read (encode text) = .ok (ofPortable v.toPortable)
  plus : (∀ d ∈ v.doubles, d.isFinite = true) → text = String.ofList (plusExponents .outside usual.toList)

section

variable {v : Value} {limit : Int} {shortest : Double → Decimal} {convert : Conversion}

theorem exchanged_strict (hc : v.Canonical) (hn : (v.nesting : Int) ≤ limit) (h : Shortest.Faithful shortest)
    (hs : convert.Sound) : v.Exchanged (parseWith convert (Options.withDepthLimit {} limit))
      (v.textWith (.strict shortest)) (v.textWith (.document shortest)) := by
  have hread : parseWith convert (Options.withDepthLimit {} limit) (encode (v.textWith (.strict shortest))) =
      .ok (v.mapNumbers nativeInteger finiteDouble).detach := by
    have hroom : v.nesting ≤ limit.toNat := by omega
    have hv := valueText_reread (readsInteger_strict (o := Options.withDepthLimit {} limit) hs) _ v hc hroom
      fun d _ => readsAs_finiteDouble h hs d
    have ho : Options.contains {} .borrowing = false := by decide
    rw [reread_eq_detach (o := Options.withDepthLimit {} limit) ho detach_finiteDouble] at hv
    rw [encode_eq_ofChars, toList_textWith]
    exact hv.document.parseBy
  refine ⟨hread, fun hi => ?_, fun hd => ?_⟩
  · have hi : ∀ n ∈ v.integers, nativeInteger n = .integer n := fun n h => if_pos (hi n h)
    rw [hread, ofPortable_toPortable v hc, mapNumbers_congr v hi]
  · have h := plusText_textIn shortest v hd [] rfl
    rw [List.append_nil] at h
    rw [toList_textWith, h, plusExponents, List.append_nil, textWith]

/-- What a serializer that writes compact documents has put out for a value. -/
theorem run_serialize {ε σ ρ τ : Type} {z : Serializer (EStateM ε σ) ρ τ Unit} {output : σ → List Char}
    (hz : z.WritesCompact output shortest) (v : Value) {s : σ} (hs : output s = []) :
    ∃ s', v.serialize z s = .ok () s' ∧ String.ofList (output s') = v.textWith (.strict shortest) := by
  obtain ⟨s', hrun, ht⟩ := puts_serialize hz v s
  rw [hs, List.nil_append] at ht
  exact ⟨s', hrun, by rw [ht, textWith]⟩

theorem strictText_eq (v : Value) : v.strictText = v.textWith (.strict (Shortest.decimal .even)) := by
  obtain ⟨s', hrun, ht⟩ := run_serialize Compact.writesCompact_serializer v (s := "") rfl
  rw [String.ofList_toList] at ht
  rw [strictText, EStateM.run, hrun, ht]

/-- A value within the limit on nesting that is handed to a serializer is read back under no options, and the text is
the usual one but for numbers that are not finite and the signs of exponents. This needs no more of the serializer
than that it writes compact documents, with the shortest digits that read back. -/
theorem parse_serialize {v : Value} {limit : Int} (hc : v.Canonical) (hn : (v.nesting : Int) ≤ limit) :
    v.Exchanged (parse (Options.withDepthLimit {} limit)) v.strictText v.text ∧
    (∀ n : Int64, (Double.ofInt n.toInt).Nearest n.toInt) ∧
    ∀ {ε σ ρ τ : Type} {z : Serializer (EStateM ε σ) ρ τ Unit} {output : σ → List Char} {shortest : Double → Decimal}
      {convert : Conversion}, z.WritesCompact output shortest → Shortest.Faithful shortest → convert.Sound →
      ∀ s, output s = [] → ∃ s', v.serialize z s = .ok () s' ∧
        v.Exchanged (parseWith convert (Options.withDepthLimit {} limit)) (String.ofList (output s'))
          (v.textWith (.document shortest)) := by
  refine ⟨?_, fun n => Double.nearest_ofInt (natAbs_toInt_le n), fun {_ _ _ _ _ _ _ _} hz h hs s hstart => ?_⟩
  · rw [strictText_eq, parse_eq_parseWith]
    exact exchanged_strict hc hn (Shortest.faithful_decimal .even) Conversion.sound_double?
  · obtain ⟨s', hrun, ht⟩ := run_serialize hz v hstart
    exact ⟨s', hrun, ht ▸ exchanged_strict hc hn h hs⟩

end

example : plusExponents .outside ['"', 'e', '1', '"', ':', '2', 'e', '3', '0', ',', '4', 'e', '-', '7'] =
    ['"', 'e', '1', '"', ':', '2', 'e', '+', '3', '0', ',', '4', 'e', '-', '7'] := by decide

/-- A double that is not finite and an integer of more than 32 bits, and then numbers that are read as they are. -/
theorem parse_serialize_infinity :
    let v (d : Double) (n : Int64) : Value := .object [("e1", .array [.double d, .integer n])]
    let o := Options.withDepthLimit {} 2
    parse o (encode (v (.infinity true) 3000000000).strictText) =
      .ok (.object [("e1", .array [.null, .double ⟨0x41E65A0BC0000000⟩])]) ∧
    parse o (encode (v ⟨0x4415AF1D78B58C40⟩ 7).strictText) = .ok (ofPortable (v ⟨0x4415AF1D78B58C40⟩ 7).toPortable) ∧
    (v ⟨0x4415AF1D78B58C40⟩ 7).strictText =
      String.ofList (plusExponents .outside (v ⟨0x4415AF1D78B58C40⟩ 7).text.toList) ∧
    ∃ s, (v ⟨0x4415AF1D78B58C40⟩ 7).serialize Compact.serializer "" = .ok () s ∧
      parseWith exactConversion o (encode (String.ofList s.toList)) = .ok (v ⟨0x4415AF1D78B58C40⟩ 7) := by
  intro v o
  have hc (d : Double) (n : Int64) : (v d n).Canonical := by
    simp [v, Canonical, CanonicalMembers, CanonicalElements, Entries.Sorted]
  have hn (d : Double) (n : Int64) : ((v d n).nesting : Int) ≤ 2 := Int.le_refl 2
  obtain ⟨hwide, -⟩ := parse_serialize (hc (.infinity true) 3000000000) (hn _ _)
  obtain ⟨hnative, -, hwith⟩ := parse_serialize (hc ⟨0x4415AF1D78B58C40⟩ 7) (hn _ _)
  obtain ⟨s, hrun, hs⟩ := hwith Compact.writesCompact_serializer (Shortest.faithful_decimal .even)
    correct_exactConversion.sound "" rfl
  refine ⟨?_, hnative.portable (List.forall_mem_singleton.2 (by decide)),
    hnative.plus (List.forall_mem_singleton.2 (by decide)), s, hrun, ?_⟩
  · rw [hwide.read_eq]
    rfl
  · rw [hs.read_eq]
    rfl

end Value

end JsonTree
