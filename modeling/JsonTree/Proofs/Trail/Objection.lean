import JsonTree.Proofs.Options
import JsonTree.Proofs.Trail.Scalar

/-!
# What stricter options object to

The trail of a scan under lax rules has all that is needed to find the first thing in it that stricter options object
to.
-/

namespace JsonTree.Trail

open Byte Document

/-! ## Objections -/

/-- Keys that were met, each with the place where its object opens. -/
abbrev Seen := List (Bytes × String)

def keys (es : List Event) : Seen := es.filterMap Event.key?

/-- What `o` objects to and the rules do not. -/
def objection (o : Options) (R : Rules) (seen : Seen) : Event → Option Fault
  | .value rest =>
      if R.options.contains .nonFinite && !o.contains .nonFinite then
        (nonFiniteStart? rest).map fun r => ⟨.malformed, r⟩
      else none
  | .opens rest depth =>
      if depth = max o.depthLimit 0 + 1 && !R.forbids depth then some ⟨.tooMuchNesting, rest⟩ else none
  | .closes _ _ => none
  | .key rest object name =>
      if o.contains .uniqueKeys && !R.options.contains .uniqueKeys && seen.contains (object, name) then
        some ⟨.malformed, rest⟩
      else none
  | .trailing rest =>
      if R.options.contains .trailingCommas && !o.contains .trailingCommas then some ⟨.trailingComma, rest⟩ else none

def firstObjection (o : Options) (R : Rules) (seen : Seen) : List Event → Option Fault
  | [] => none
  | e :: es => (objection o R seen e).or (firstObjection o R (seen ++ e.key?.toList) es)

/-- What a run gives if it ends at the first objection. -/
def cut {α : Type} (o : Options) (R : Rules) (seen : Seen) (y : Run α) : Except Fault (α × Bytes) :=
  match firstObjection o R seen y.events with
  | some f => .error f
  | none => y.result

/-- The rules allow all that `o` allows, and they store strings in the same way. -/
structure Laxer (o : Options) (R : Rules) : Prop where
  borrowing : R.options.contains .borrowing = o.contains .borrowing
  nonFinite : o.contains .nonFinite = true → R.options.contains .nonFinite = true
  trailingCommas : o.contains .trailingCommas = true → R.options.contains .trailingCommas = true
  uniqueKeys : R.options.contains .uniqueKeys = true → o.contains .uniqueKeys = true
  limit : ∀ L ∈ R.limit?, o.depthLimit ≤ L

variable {α : Type} {o : Options} {R : Rules} {seen : Seen} {s : Bytes} {es : List Event}

@[simp] theorem keys_nil : keys [] = [] := rfl

@[simp] theorem keys_cons (e : Event) (es : List Event) : keys (e :: es) = e.key?.toList ++ keys es := by
  cases h : e.key? <;> simp [keys, h]

theorem keys_append (es es' : List Event) : keys (es ++ es') = keys es ++ keys es' := List.filterMap_append

theorem firstObjection_append (seen : Seen) (es es' : List Event) :
    firstObjection o R seen (es ++ es') =
      (firstObjection o R seen es).or (firstObjection o R (seen ++ keys es) es') := by
  induction es generalizing seen with
  | nil => simp [firstObjection]
  | cons e es ih => simp [firstObjection, ih, Option.or_assoc]

/-- The objection is to the first event that there is one to. -/
theorem exists_of_firstObjection {f : Fault} (h : firstObjection o R seen es = some f) :
    ∃ es₁ e es₂, es = es₁ ++ e :: es₂ ∧ firstObjection o R seen es₁ = none ∧
      objection o R (seen ++ keys es₁) e = some f := by
  induction es generalizing seen with
  | nil => cases h
  | cons e es ih =>
      rw [firstObjection, Option.or_eq_some_iff] at h
      rcases h with h | ⟨he, h⟩
      · exact ⟨[], e, es, rfl, rfl, by simpa using h⟩
      · obtain ⟨es₁, e', es₂, rfl, hn, ho⟩ := ih h
        exact ⟨e :: es₁, e', es₂, rfl, by simp [firstObjection, he, hn], by simpa using ho⟩

theorem cut_after (h : firstObjection o R seen es = none) (y : Run α) :
    cut o R seen (y.after es) = cut o R (seen ++ keys es) y := by
  simp [cut, Run.after, firstObjection_append, h]

theorem objection_value_of_bracket {b : UInt8} (hb : b = openBracket ∨ b = openBrace) :
    objection o R seen (.value (b :: s)) = none := by
  have hnone : nonFiniteStart? (b :: s) = none := by
    rcases hb with rfl | rfl <;> exact nonFiniteStart?_eq_none (by decide) rfl (by decide)
  simp [objection, hnone]

/-! ## Laxer rules -/

namespace Laxer

theorem refl (o : Options) : Laxer o (.ofOptions o) where
  borrowing := rfl
  nonFinite := id
  trailingCommas := id
  uniqueKeys := id
  limit := by rintro _ ⟨⟩; exact Int.le_refl _

theorem unlimited (o : Options) (L : Int) : Laxer (o.withDepthLimit L) (.unlimited o) where
  borrowing := rfl
  nonFinite := id
  trailingCommas := id
  uniqueKeys := id
  limit := by rintro _ ⟨⟩

theorem withDepthLimit (o : Options) {L L' : Int} (h : L ≤ L') :
    Laxer (o.withDepthLimit L) (.ofOptions (o.withDepthLimit L')) where
  borrowing := rfl
  nonFinite := id
  trailingCommas := id
  uniqueKeys := id
  limit := by rintro _ ⟨⟩; exact h

theorem enable (o : Options) {f : Flag} (hf : f = .nonFinite ∨ f = .trailingCommas) :
    Laxer o (.ofOptions (o.enable f)) where
  borrowing := by rcases hf with rfl | rfl <;> exact Options.contains_enable_of_ne (by decide) o
  nonFinite h := by simp [Rules.ofOptions, Options.contains_enable, h]
  trailingCommas h := by simp [Rules.ofOptions, Options.contains_enable, h]
  uniqueKeys h := by
    rcases hf with rfl | rfl <;> rwa [Rules.ofOptions, Options.contains_enable_of_ne (by decide)] at h
  limit := by rintro _ ⟨⟩; exact Int.le_refl _

theorem enable_uniqueKeys (o : Options) : Laxer (o.enable .uniqueKeys) (.ofOptions o) where
  borrowing := (Options.contains_enable_of_ne (by decide) o).symm
  nonFinite h := by rwa [Options.contains_enable_of_ne (by decide)] at h
  trailingCommas h := by rwa [Options.contains_enable_of_ne (by decide)] at h
  uniqueKeys _ := Options.contains_enable_self o .uniqueKeys
  limit := by rintro _ ⟨⟩; exact Int.le_refl _

end Laxer

/-! ## What is objected to -/

/-- The events that `o` objects to, each with the fault that it is. -/
inductive ObjectionCase (o : Options) (R : Rules) (seen : Seen) : Event → Fault → Prop where
  | value {rest r} (hR : R.options.contains .nonFinite = true) (ho : o.contains .nonFinite = false)
      (h : nonFiniteStart? rest = some r) : ObjectionCase o R seen (.value rest) ⟨.malformed, r⟩
  | opens {rest} (hR : R.forbids (max o.depthLimit 0 + 1) = false) :
      ObjectionCase o R seen (.opens rest (max o.depthLimit 0 + 1)) ⟨.tooMuchNesting, rest⟩
  | key {rest object name} (hR : R.options.contains .uniqueKeys = false) (ho : o.contains .uniqueKeys = true)
      (h : (object, name) ∈ seen) : ObjectionCase o R seen (.key rest object name) ⟨.malformed, rest⟩
  | trailing {rest} (hR : R.options.contains .trailingCommas = true) (ho : o.contains .trailingCommas = false) :
      ObjectionCase o R seen (.trailing rest) ⟨.trailingComma, rest⟩

theorem objection_cases {e : Event} {f : Fault} (h : objection o R seen e = some f) : ObjectionCase o R seen e f := by
  cases e with
  | value rest =>
      simp only [objection, Option.ite_none_right_eq_some, Bool.and_eq_true, Bool.not_eq_true',
        Option.map_eq_some_iff] at h
      obtain ⟨⟨hR, ho⟩, r, hr, rfl⟩ := h
      exact .value hR ho hr
  | opens rest depth =>
      simp only [objection, Option.ite_none_right_eq_some, Bool.and_eq_true, decide_eq_true_eq, Bool.not_eq_true',
        Option.some.injEq] at h
      obtain ⟨⟨rfl, hR⟩, rfl⟩ := h
      exact .opens hR
  | closes _ _ => cases h
  | key rest object name =>
      simp only [objection, Option.ite_none_right_eq_some, Bool.and_eq_true, Bool.not_eq_true', List.contains_iff_mem,
        Option.some.injEq] at h
      obtain ⟨⟨⟨ho, hR⟩, hseen⟩, rfl⟩ := h
      exact .key hR ho hseen
  | trailing rest =>
      simp only [objection, Option.ite_none_right_eq_some, Bool.and_eq_true, Bool.not_eq_true', Option.some.injEq] at h
      obtain ⟨⟨hR, ho⟩, rfl⟩ := h
      exact .trailing hR ho

/-- Rules with the limit of the options forbid what is beyond it. -/
theorem Rules.forbids_of_limit (h : R.limit? = some o.depthLimit) : R.forbids (max o.depthLimit 0 + 1) = true := by
  simp only [forbids, h, Option.any_some, decide_eq_true_eq]
  omega

/-- Options object to nothing that they allow themselves. -/
theorem firstObjection_self (o : Options) (seen : Seen) (es : List Event) :
    firstObjection o (.ofOptions o) seen es = none := by
  have self (seen : Seen) (e : Event) : objection o (.ofOptions o) seen e = none := by
    refine Option.eq_none_iff_forall_ne_some.2 fun f h => ?_
    cases objection_cases h with
    | value hR ho _ => exact Bool.eq_false_iff.1 ho hR
    | opens hR => exact Bool.eq_false_iff.1 hR (Rules.forbids_of_limit rfl)
    | key hR ho _ => exact Bool.eq_false_iff.1 hR ho
    | trailing hR ho => exact Bool.eq_false_iff.1 ho hR
  induction es generalizing seen with
  | nil => rfl
  | cons e es ih => rw [firstObjection, self, ih, Option.none_or]

end JsonTree.Trail
