import JsonTree.Proofs.Grammar.Commas
import JsonTree.Proofs.Position.Tracking
import JsonTree.Proofs.Trail.Agreement

/-!
# Leave for trailing commas

Leave for trailing commas changes nothing about documents that have none. Without leave a trailing comma is a fault of
its own, and a document that needs leave means what it means without its trailing commas.
-/

namespace JsonTree.Trail

open Byte Document Grammar

variable {o : Options} {s : Bytes}

/-- Options without leave for trailing commas object to nothing but such a comma. -/
theorem objection_enable_trailingCommas {seen : Seen} {e : Event} {f : Fault}
    (h : objection o (.ofOptions (o.enable .trailingCommas)) seen e = some f) :
    ∃ r, e = .trailing r ∧ f = ⟨.trailingComma, r⟩ := by
  cases objection_cases h with
  | value hR ho _ => simp [Rules.ofOptions, Options.contains_enable, ho] at hR
  | opens hR => exact absurd (Rules.forbids_of_limit rfl) (Bool.eq_false_iff.1 hR)
  | key hR ho _ => simp [Rules.ofOptions, Options.contains_enable, ho] at hR
  | trailing _ _ => exact ⟨_, rfl, rfl⟩

/-- With leave for them, no trailing comma is reported. -/
theorem parse_enable_trailingCommas_ne (o : Options) (s : Bytes) (x : Position) :
    Value.parse (o.enable .trailingCommas) s ≠ .error ⟨.trailingComma, x⟩ := fun h => by
  have hoff := (eq_of_parse_error ((parse_ofOptions _ s).trans h)).1.2 rfl
  simp [Rules.ofOptions, Options.contains_enable_self] at hoff

/-- A trailing comma in a trail, and the bytes between it and the closing bracket. -/
theorem exists_trailing_of_mem {R : Rules} {r : Bytes} (h : .trailing r ∈ events R s) :
    ∃ p l c t, s = p ++ comma :: (l ++ r) ∧ LayoutText l ∧ r = c :: t ∧ Closing c := by
  obtain ⟨⟨c, t, hc, rfl, l, hl, p, hp⟩, -⟩ := (leads_scan R s).path.forall _ h
  exact ⟨p, l, c, t, hp.symm, hl, rfl, hc⟩

/-- Leave for trailing commas takes away the fault of that code and nothing else. The fault is at a closing bracket that
a comma stands in front of, with nothing but layout between them. Documents that need leave can do without it if their
trailing commas are deleted. A scanner that counts lines in 32 bits reports the same places, if the document is not too
long for them. -/
theorem parse_enable_trailingCommas (o : Options) (s : Bytes) :
    (∀ v, Value.parse o s = .ok v → Value.parse (o.enable .trailingCommas) s = .ok v) ∧
    (∀ e, Value.parse o s = .error e → e.code ≠ .trailingComma →
      Value.parse (o.enable .trailingCommas) s = .error e) ∧
    (∀ x, Value.parse (o.enable .trailingCommas) s ≠ .error ⟨.trailingComma, x⟩) ∧
    (∀ x, Value.parse o s = .error ⟨.trailingComma, x⟩ →
      ∃ p l c r, s = p ++ comma :: (l ++ c :: r) ∧ LayoutText l ∧ Closing c ∧ x = .behind (p ++ comma :: l)) ∧
    (∀ v, Value.parse (o.enable .trailingCommas) s = .ok v → Value.parse o (dropTrailingCommas .code s) = .ok v) ∧
    (s.length < UInt32.size - 1 → ∀ o', Scanner.parse o' s = Value.parse o' s) := by
  have hne := parse_enable_trailingCommas_ne o s
  have hdrop (v : Value) (h : Value.parse (o.enable .trailingCommas) s = .ok v) :
      Value.parse o (dropTrailingCommas .code s) = .ok v :=
    (documentText_of_parse h).withoutTrailing.parse
  cases parse_cases (.enable o (.inr rfl)) s with
  | same _ heq =>
      rw [parse_ofOptions] at heq
      rw [heq]
      exact ⟨fun _ => id, fun _ h _ => h, hne, fun x h => absurd h (hne x), hdrop, fun hlen => Scanner.parse_eq hlen⟩
  | objected hes _ he heq =>
      obtain ⟨r, rfl, rfl⟩ := objection_enable_trailingCommas he
      have hmem : .trailing r ∈ events (.ofOptions (o.enable .trailingCommas)) s := by simp [hes]
      obtain ⟨p, l, c, t, rfl, hl, rfl, hc⟩ := exists_trailing_of_mem hmem
      have herr : Fault.toError ⟨.trailingComma, c :: t⟩ (p ++ comma :: (l ++ c :: t)) =
          ⟨.trailingComma, .behind (p ++ comma :: l)⟩ := Position.toError_eq (by simp)
      rw [heq, herr]
      refine ⟨by rintro _ ⟨⟩, ?_, hne, ?_, hdrop, fun hlen => Scanner.parse_eq hlen⟩
      · rintro _ ⟨⟩ h
        exact absurd rfl h
      · rintro _ ⟨⟩
        exact ⟨p, l, c, t, rfl, hl, hc, rfl⟩

end JsonTree.Trail
