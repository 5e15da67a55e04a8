import JsonTree.Proofs.Number.Decimal
import JsonTree.Proofs.Position.Tracking
import JsonTree.Proofs.Trail.Agreement
import JsonTree.Proofs.Value.RoundTrip

/-!
# Leave for numbers not to be finite

Leave for numbers not to be finite changes nothing about documents that need none. One that needs it has a fault without
it, at the first number that does: at the first letter of a word, or at the start of a numeral that is too large.
-/

namespace JsonTree

open Byte Document Grammar

variable {α : Type} {o : Options}

/-! ## Doubles in values -/

theorem Value.mem_doublesOfElements {d : Double} {vs : List Value} :
    d ∈ doublesOfElements vs ↔ ∃ v ∈ vs, d ∈ v.doubles := by
  induction vs with
  | nil => simp [doublesOfElements]
  | cons v vs ih => simp [doublesOfElements, ih]

theorem Value.mem_doublesOfMembers {d : Double} {ms : List (String × Value)} :
    d ∈ doublesOfMembers ms ↔ ∃ m ∈ ms, d ∈ m.2.doubles := by
  induction ms with
  | nil => simp [doublesOfMembers]
  | cons m ms ih => simp [doublesOfMembers, ih]

theorem Grammar.ItemsText.exists_of_mem {P : Bytes → α → Prop} {s : Bytes} {as : List α} (h : ItemsText o P s as) :
    ∀ a ∈ as, ∃ p, P p a := by
  induction h with
  | last hp _ => simpa using ⟨_, hp⟩
  | trailing _ hp _ _ => simpa using ⟨_, hp⟩
  | cons hp _ _ _ ih => exact List.forall_mem_cons.2 ⟨⟨_, hp⟩, ih⟩

theorem Grammar.EnclosedText.exists_of_mem {P : Bytes → α → Prop} {s : Bytes} {as : List α}
    (h : EnclosedText o P s as) : ∀ a ∈ as, ∃ p, P p a := by
  cases h with
  | none _ => simp
  | items _ hs => exact hs.exists_of_mem

namespace Grammar

variable {D : Meaning}

theorem NumberTextBy.finite {s : Bytes} {v : Value} (h : NumberTextBy D o s v) (hD : D.Canonical o)
    (ho : o.contains .nonFinite = false) : ∀ d ∈ v.doubles, d.isFinite = true := by
  cases h with
  | numeral h hv =>
      rcases hD h hv with ⟨m, rfl, -⟩ | ⟨d, rfl, -, hd⟩
      · simp [Value.doubles]
      · exact List.forall_mem_singleton.2 (hd.resolve_left (Bool.eq_false_iff.1 ho))
  | nan hn => simp [hn] at ho
  | infinity _ hn _ => simp [hn] at ho

theorem NodeTextBy.finite {inner? : Option (Bytes → Value → Prop)} {s : Bytes} {v : Value}
    (h : NodeTextBy D o inner? s v) (hD : D.Canonical o) (ho : o.contains .nonFinite = false)
    (hi : ∀ V ∈ inner?, ∀ {p v}, V p v → ∀ d ∈ v.doubles, d.isFinite = true) : ∀ d ∈ v.doubles, d.isFinite = true := by
  cases h with
  | null | truth | falsity | string _ => simp [Value.doubles]
  | number h => exact h.finite hD ho
  | array hV h =>
      intro d hd
      obtain ⟨v, hv, hd⟩ := Value.mem_doublesOfElements.1 hd
      obtain ⟨p, hp⟩ := h.exists_of_mem v hv
      exact hi _ hV hp d hd
  | object hV h _ =>
      intro d hd
      obtain ⟨m, hm, hd⟩ := Value.mem_doublesOfMembers.1 hd
      obtain ⟨p, hp⟩ := h.exists_of_mem m (Entries.mem_of_mem_ofList hm)
      obtain ⟨-, -, -, hv⟩ := hp
      exact hi _ hV hv d hd

theorem ValueTextBy.finite {room : Nat} {s : Bytes} {v : Value} (h : ValueTextBy D o room s v) (hD : D.Canonical o)
    (ho : o.contains .nonFinite = false) : ∀ d ∈ v.doubles, d.isFinite = true := by
  induction room generalizing s v with
  | zero =>
      refine NodeTextBy.finite h hD ho ?_
      rintro _ ⟨⟩
  | succ room ih =>
      refine NodeTextBy.finite h hD ho ?_
      rintro _ ⟨⟩ p v hv
      exact ih hv

end Grammar

/-! ## Numerals that are too large -/

theorem Decimal.toDouble_of_not_isFinite {d : Decimal} (h : d.toDouble.isFinite = false) :
    d.toDouble = .infinity d.negative := by
  rw [toDouble_eq] at h ⊢
  have hle := BinaryFormat.nearestTo_le_infinity (f := .double) d.value
  have hlt : ¬ BinaryFormat.double.nearestTo d.value < BinaryFormat.double.infinity := fun hlt => by
    rw [Double.isFinite_ofParts _ hlt] at h
    cases h
  rw [Nat.le_antisymm hle (Nat.not_lt.1 hlt), Double.infinity]

/-- A numeral that needs leave rounds to infinity. -/
theorem Numeral.value_of_not_admits {n : Numeral} (h : admits {} n.value = false) :
    n.value = .double (.infinity n.negative) := by
  rw [Numeral.value] at h ⊢
  split
  · rename_i hn
    simp [hn, admits] at h
  · rename_i hn
    have hd : n.toDecimal.toDouble.isFinite = false := by
      simp only [hn, admits] at h
      exact (Bool.or_eq_false_iff.1 h).1
    rw [Decimal.toDouble_of_not_isFinite hd]
    rfl

namespace Trail

/-- A value at `q` that is not finite shows it at `r`. -/
inductive NonFiniteAt : Bytes → Bytes → Prop where
  | word {b t} (hb : StartsWord b) : NonFiniteAt (b :: t) (b :: t)
  | negative {b t} (hb : StartsWord b) : NonFiniteAt (minus :: b :: t) (b :: t)
  | numeral {p t n} (hp : NumeralText p n) (ht : Delimited t) (hn : n.value = .double (.infinity n.negative)) :
      NonFiniteAt (p ++ t) (p ++ t)

theorem NonFiniteAt.suffix {q r : Bytes} (h : NonFiniteAt q r) : r <:+ q := by
  cases h with
  | word _ | numeral _ _ _ => exact List.suffix_rfl
  | negative _ => exact List.suffix_cons _ _

theorem nonFiniteAt_of_start? {q r : Bytes} (h : nonFiniteStart? q = some r) : NonFiniteAt q r := by
  rcases nonFiniteStart?_cases h with ⟨b, t, rfl, hb, rfl | rfl⟩ | ⟨rfl, p, t, n, rfl, hp, ht, hn⟩
  · exact .word hb
  · exact .negative hb
  · exact .numeral hp ht (Numeral.value_of_not_admits hn)

theorem objection_enable_nonFinite {o : Options} {seen : Seen} {e : Event} {f : Fault}
    (h : objection o (.ofOptions (o.enable .nonFinite)) seen e = some f) :
    ∃ q r, e = .value q ∧ NonFiniteAt q r ∧ f = ⟨.malformed, r⟩ := by
  cases objection_cases h with
  | value _ _ hr => exact ⟨_, _, rfl, nonFiniteAt_of_start? hr, rfl⟩
  | opens hR => exact absurd (Rules.forbids_of_limit rfl) (Bool.eq_false_iff.1 hR)
  | key hR ho _ => simp [Rules.ofOptions, Options.contains_enable, ho] at hR
  | trailing hR ho => simp [Rules.ofOptions, Options.contains_enable, ho] at hR

/-- Without leave for numbers not to be finite, all that is accepted is finite and is accepted with leave. What is
refused is refused with leave for the same reason at the same place, or it is a number that may not be finite. A scanner
that counts lines in 32 bits reports the same places, if the document is not too long for them. -/
theorem parse_enable_nonFinite {o : Options} (ho : o.contains .nonFinite = false) (s : Bytes) :
    (∀ v, Value.parse o s = .ok v →
      (∀ d ∈ v.doubles, d.isFinite = true) ∧ Value.parse (o.enable .nonFinite) s = .ok v) ∧
    (∀ e, Value.parse o s = .error e → Value.parse (o.enable .nonFinite) s ≠ .error e →
      ∃ p q r, s = p ++ r ∧ e = ⟨.malformed, .behind p⟩ ∧ NonFiniteAt q r ∧
        .value q ∈ events (.ofOptions (o.enable .nonFinite)) s) ∧
    (s.length < UInt32.size - 1 → ∀ o', Scanner.parse o' s = Value.parse o' s) := by
  rw [← and_assoc]
  refine ⟨?_, fun hlen o' => Scanner.parse_eq hlen o'⟩
  have hl : Laxer o (.ofOptions (o.enable .nonFinite)) := .enable o (.inl rfl)
  cases parse_cases hl s with
  | same _ heq =>
      rw [parse_ofOptions] at heq
      refine ⟨fun v hv => ⟨?_, heq ▸ hv⟩, fun e he hne => absurd (heq ▸ he) hne⟩
      obtain ⟨-, hv, -⟩ := documentText_of_parse hv
      exact hv.finite (Meaning.canonical_own o) ho
  | objected hes _ he heq =>
      rw [heq]
      refine ⟨by rintro _ ⟨⟩, ?_⟩
      rintro _ ⟨⟩ -
      obtain ⟨q, r, rfl, hq, rfl⟩ := objection_enable_nonFinite he
      have hmem : .value q ∈ events (.ofOptions (o.enable .nonFinite)) s := by simp [hes]
      have hrs : r <:+ s := hq.suffix.trans ((leads_scan _ s).path.forall _ hmem).2.1
      obtain ⟨p, rfl⟩ := hrs
      exact ⟨p, q, r, rfl, by simp [Fault.toError], hq, hmem⟩

/-- A negative infinity in an array. -/
def negativeInfinity : Bytes := Word.spell ['[', '-', 'i', 'n', 'f', ']']

/-- The fault is right behind the minus sign. -/
theorem parse_enable_nonFinite_negativeInfinity :
    Value.parse {} negativeInfinity = .error ⟨.malformed, ⟨1, 3⟩⟩ ∧
    Value.parse (Options.enable {} .nonFinite) negativeInfinity = .ok (.array [.double (.infinity true)]) ∧
    ∃ p q r, negativeInfinity = p ++ r ∧ ParseError.mk .malformed ⟨1, 3⟩ = ⟨.malformed, .behind p⟩ ∧ NonFiniteAt q r ∧
      .value q ∈ events (.ofOptions (Options.enable {} .nonFinite)) negativeInfinity := by
  have herror : Value.parse {} negativeInfinity = .error ⟨.malformed, ⟨1, 3⟩⟩ := by with_unfolding_all rfl
  have hok : Value.parse (Options.enable {} .nonFinite) negativeInfinity = .ok (.array [.double (.infinity true)]) := by
    with_unfolding_all rfl
  exact ⟨herror, hok, (parse_enable_nonFinite rfl negativeInfinity).2.1 _ herror (by simp [hok])⟩

end Trail

end JsonTree
