import JsonTree.Parser
import JsonTree.Proofs.Grammar.Value

/-!
# The grammar of documents

A document is a value with layout around it. Reading succeeds on the documents of the grammar and on nothing else, and
it gives the value that the grammar gives.
-/

namespace JsonTree.Grammar

open Byte Document

/-- A document: layout, a value, layout. -/
inductive DocumentTextBy (D : Meaning) (o : Options) : Bytes → Value → Prop where
  | mk {l s v l'} (hl : LayoutText l) (hs : ValueTextBy D o o.depthLimit.toNat s v) (hl' : EndLayout l') :
      DocumentTextBy D o (l ++ (s ++ l')) v

/-- A document whose numerals have the values that they are read as. -/
abbrev DocumentText (o : Options) : Bytes → Value → Prop := DocumentTextBy (.of .own o) o

theorem EndLayout.delimited {l} (h : EndLayout l) : Delimited l := by
  cases h with
  | closed hl => simpa using (hl.delimited (b := space) (r := []) rfl).of_append (r := [space])
  | line hl _ => exact hl.delimited rfl

variable {value? : Interpretation} {o : Options} {s : Bytes} {v : Value}

theorem readBy_eq_ok_iff : Document.readBy value? o s = .ok v ↔ DocumentTextBy (.of value? o) o s v := by
  constructor
  · intro h
    replace ⟨⟨v', t⟩, hv, h⟩ := bind_eq_ok.1 h
    replace ⟨u, hu, h⟩ := bind_eq_ok.1 h
    obtain ⟨l, p, rfl, hl, hp, -⟩ := (readsValueBy value? o _).read_eq_ok_iff.1 hv
    split at h
    · rename_i he
      cases h
      rw [List.isEmpty_iff] at he
      exact .mk hl hp (layout_eq_ok_nil_iff.1 (he ▸ hu))
    · cases h
  · rintro ⟨hl, hp, hl'⟩
    have hv := (readsValueBy value? o _).read_eq_ok_iff.2 ⟨_, _, rfl, hl, hp, hl'.delimited.apart _⟩
    simp [Document.readBy, hv, layout_of_end hl', bind, Except.bind, pure, Except.pure]

/-- Reading a document succeeds just if the grammar has it, and gives the value that the grammar gives. -/
theorem parseBy_eq_ok_iff : Value.parseBy value? o s = .ok v ↔ DocumentTextBy (.of value? o) o s v := by
  rw [← readBy_eq_ok_iff, Value.parseBy]
  cases Document.readBy value? o s with
  | ok v' => constructor <;> intro h <;> cases h <;> rfl
  | error f => constructor <;> intro h <;> cases h

/-- Only what numerals stand for matters, not what other texts would. -/
theorem valueBy_congr {value?' : Interpretation} (h : ∀ {s n}, NumeralText s n → value? s n = value?' s n) (o : Options)
    (room : Nat) : valueBy value? o room = valueBy value?' o room := by
  have hread (inner : Option (Reader Value)) : readValueBy value? o inner = readValueBy value?' o inner := by
    funext s
    simp only [readValueBy, numberBy_congr h]
  induction room with
  | zero => simp only [valueBy, hread]
  | succ room ih => simp only [valueBy, hread, ih]

theorem parseBy_congr {value?' : Interpretation} (h : ∀ {s n}, NumeralText s n → value? s n = value?' s n) :
    Value.parseBy value? = Value.parseBy value?' := by
  funext o s
  rw [Value.parseBy, Value.parseBy, Document.readBy, Document.readBy, valueBy_congr h]

theorem parse_eq_ok_iff : Value.parse o s = .ok v ↔ DocumentText o s v := parseBy_eq_ok_iff

theorem DocumentTextBy.parseBy (h : DocumentTextBy (.of value? o) o s v) : Value.parseBy value? o s = .ok v :=
  parseBy_eq_ok_iff.2 h

theorem DocumentText.parse (h : DocumentText o s v) : Value.parse o s = .ok v := h.parseBy

/-- A value without layout around it is a document. -/
theorem ValueTextBy.document {D : Meaning} (h : ValueTextBy D o o.depthLimit.toNat s v) : DocumentTextBy D o s v := by
  have hd := DocumentTextBy.mk .nil h (.closed .nil)
  rwa [List.nil_append, List.append_nil] at hd

theorem ValueText.parse (h : ValueText o o.depthLimit.toNat s v) : Value.parse o s = .ok v := h.document.parseBy

theorem documentText_of_parse (h : Value.parse o s = .ok v) : DocumentText o s v := parse_eq_ok_iff.1 h

/-! ## Documents of objects -/

/-- A document that is an object, and the members of the object in the order in which they are written. -/
inductive ObjectText (o : Options) : Bytes → List (String × Value) → Prop where
  | mk {l s l' room ps} (ho : o.depthLimit.toNat = room + 1) (hl : LayoutText l)
      (hs : EnclosedText o (MemberText (ValueText o room)) s ps)
      (hk : o.contains .uniqueKeys = true → (ps.map Prod.fst).Nodup) (hl' : EndLayout l') :
      ObjectText o (l ++ (openBrace :: (s ++ [closeBrace]) ++ l')) ps

theorem NumberText.ne_object (h : NumberText o s v) (ms : Members) : v ≠ .object ms := by
  obtain ⟨m, rfl⟩ | ⟨d, rfl⟩ := h.cases_kind (Meaning.numeric_own o) <;> simp

/-- An object that is read has the members that are written, and of several values for a key the last. -/
theorem parse_eq_ok_object_iff {ms : Members} :
    Value.parse o s = .ok (.object ms) ↔ ∃ ps, ObjectText o s ps ∧ ms = Entries.ofList ps := by
  rw [parse_eq_ok_iff]
  constructor
  · generalize hv : Value.object ms = v
    rintro ⟨hl, hs, hl'⟩
    cases hr : o.depthLimit.toNat with
    | zero =>
        rw [hr, ValueTextBy] at hs
        cases hs with
        | number h => exact absurd hv.symm (NumberText.ne_object h ms)
        | object hi _ _ => cases hi
        | _ => cases hv
    | succ room =>
        rw [hr, ValueTextBy] at hs
        cases hs with
        | number h => exact absurd hv.symm (NumberText.ne_object h ms)
        | object hi h hk =>
            cases hi
            cases hv
            exact ⟨_, .mk hr hl h hk hl', rfl⟩
        | _ => cases hv
  · rintro ⟨_, ⟨ho, hl, hs, hk, hl'⟩, rfl⟩
    refine .mk hl ?_ hl'
    rw [ho]
    exact .object rfl hs hk

end JsonTree.Grammar
