import JsonTree.Proofs.Grammar.Escape
import JsonTree.Proofs.Grammar.Number

/-!
# Local readers

A reader is local if what it gives depends on nothing behind what it has read. Then the bytes behind may be cut off
as one likes. The bytes in front of a fault, read alone, are read to their end or have a fault at their end, but for
two faults that show only in what follows: `Settled` lists them.
-/

namespace JsonTree.Locality

open Byte Document Grammar

variable {α β : Type} {o : Options} {P : UInt8 → Prop}

/-- What reading gives on the bytes in front of a fault, where `r` stands from the fault on. -/
inductive Settled (o : Options) (r : Bytes) : Except Fault Bytes → Prop where
  | done : Settled o r (.ok [])
  | atEnd (code : ErrorCode) : Settled o r (.error ⟨code, []⟩)
  /-- A numeral that the options refuse is a fault at its start, but with more letters or digits behind it one there. -/
  | numeral {t n} (ht : NumeralText t n) (hn : admits o n.value = false) (hr : ¬ Delimited r) :
      Settled o r (.error ⟨.malformed, t⟩)
  /-- A lead surrogate alone is a fault, but with another escape behind it that escape is the fault. -/
  | surrogate {s s' t u u'} (hs : UnitText s u) (hu : Utf16.isLead u = true) (hs' : UnitText s' u')
      (hu' : Utf16.isTrail u' = false) (hr : r = backslash :: letterU :: (s' ++ t)) :
      Settled o r (.error ⟨.invalidEscape, backslash :: letterU :: s⟩)

/-- A reader is local where it reads `s`, and the bytes that it reads there satisfy `P`. -/
structure LocalAt (o : Options) (P : UInt8 → Prop) (R : Bytes → Except Fault (α × Bytes)) (s : Bytes) : Prop where
  ok : ∀ {a r}, R s = .ok (a, r) →
    ∃ p, s = p ++ r ∧ (∀ b ∈ p, P b) ∧ ∀ r', r' <+: r → R (p ++ r') = .ok (a, r')
  error : ∀ {f}, R s = .error f →
    ∃ p, s = p ++ f.rest ∧ (∀ b ∈ p, P b) ∧ Settled o f.rest ((R p).map Prod.snd)

def Local (o : Options) (P : UInt8 → Prop) (R : Bytes → Except Fault (α × Bytes)) : Prop := ∀ s, LocalAt o P R s

/-- A reader that gives nothing but the rest. -/
def skipping (R : Bytes → Except Fault Bytes) (s : Bytes) : Except Fault (Unit × Bytes) := (R s).map fun r => ((), r)

/-! ## At the end of the document -/

theorem LocalAt.nil_ok {R : Bytes → Except Fault (α × Bytes)} {a : α} (h : R [] = .ok (a, [])) :
    LocalAt o P R [] where
  ok := by
    intro a' r ha
    rw [h] at ha
    cases ha
    refine ⟨[], rfl, by simp, fun r' hr => ?_⟩
    rw [List.prefix_nil.1 hr]
    exact h
  error := by
    intro f hf
    rw [h] at hf
    cases hf

theorem LocalAt.nil_error {R : Bytes → Except Fault (α × Bytes)} {code : ErrorCode} (h : R [] = .error ⟨code, []⟩) :
    LocalAt o P R [] where
  ok := by
    intro a r ha
    rw [h] at ha
    cases ha
  error := by
    intro f hf
    rw [h] at hf
    cases hf
    refine ⟨[], rfl, by simp, ?_⟩
    rw [h]
    exact .atEnd code

theorem LocalAt.settled_nil {R : Bytes → Except Fault (α × Bytes)} (h : LocalAt o P R []) (r : Bytes) :
    Settled o r ((R []).map Prod.snd) := by
  cases hR : R [] with
  | ok x =>
      obtain ⟨p, hp, -⟩ := h.ok hR
      obtain ⟨rfl, hr⟩ := List.append_eq_nil_iff.1 hp.symm
      rw [Except.map, hr]
      exact .done
  | error f =>
      obtain ⟨p, hp, -⟩ := h.error hR
      obtain ⟨-, hf⟩ := List.append_eq_nil_iff.1 hp.symm
      obtain ⟨code, rest⟩ := f
      cases hf
      exact .atEnd code

/-! ## Readers in sequence -/

theorem LocalAt.bind {R : Bytes → Except Fault (α × Bytes)} {Q : α → Bytes → Except Fault (β × Bytes)} {s : Bytes}
    (h : LocalAt o P R s) (h' : ∀ {a r}, R s = .ok (a, r) → LocalAt o P (Q a) r) (hn : ∀ a, LocalAt o P (Q a) []) :
    LocalAt o P (fun s => R s >>= fun x => Q x.1 x.2) s where
  ok := by
    intro b r hb
    obtain ⟨⟨a, t⟩, ha, hb⟩ := bind_eq_ok.1 hb
    obtain ⟨p, hs, hp, hR⟩ := h.ok ha
    obtain ⟨p', ht, hp', hR'⟩ := (h' ha).ok hb
    refine ⟨p ++ p', by simp [hs, ht], fun b hb => (List.mem_append.1 hb).elim (hp b) (hp' b), fun r' hr => ?_⟩
    rw [List.append_assoc, bind_eq_ok]
    refine ⟨(a, p' ++ r'), hR _ ?_, hR' r' hr⟩
    rw [ht]
    exact (List.prefix_append_right_inj p').2 hr
  error := by
    intro f hf
    cases ha : R s with
    | error f' =>
        rw [ha] at hf
        cases hf
        obtain ⟨p, hs, hp, hR⟩ := h.error ha
        refine ⟨p, hs, hp, ?_⟩
        cases hp : R p with
        | error f'' =>
            rw [hp] at hR
            exact hR
        | ok x =>
            -- The cut makes `R` succeed at the end, and the second reader has nothing left to read.
            obtain ⟨a, r⟩ := x
            rw [hp] at hR
            obtain rfl : r = [] := by
              cases hR
              rfl
            exact (hn a).settled_nil _
    | ok x =>
        obtain ⟨a, t⟩ := x
        rw [ha] at hf
        obtain ⟨p, hs, hp, hR⟩ := h.ok ha
        obtain ⟨p', ht, hp', hR'⟩ := (h' ha).error hf
        refine ⟨p ++ p', by simp [hs, ht], fun b hb => (List.mem_append.1 hb).elim (hp b) (hp' b), ?_⟩
        have := hR p' ⟨f.rest, ht.symm⟩
        simpa [this, Bind.bind, Except.bind] using hR'

theorem Local.bind {R : Bytes → Except Fault (α × Bytes)} {R' : α → Bytes → Except Fault (β × Bytes)}
    (h : Local o P R) (h' : ∀ a, Local o P (R' a)) : Local o P (fun s => R s >>= fun x => R' x.1 x.2) :=
  fun s => (h s).bind (fun _ => h' _ _) fun a => h' a []

theorem local_pure (a : α) : Local o P (fun s => .ok (a, s)) := by
  refine fun s => ⟨?_, ?_⟩
  · rintro _ _ ⟨⟩
    exact ⟨[], rfl, by simp, fun r' _ => rfl⟩
  · rintro _ ⟨⟩

theorem LocalAt.map {R : Bytes → Except Fault (α × Bytes)} {s : Bytes} (h : LocalAt o P R s)
    {f : α × Bytes → β × Bytes} {g : α → β} (hf : ∀ a r, f (a, r) = (g a, r)) :
    LocalAt o P (fun s => (R s).map f) s := by
  have heq : (fun s => (R s).map f) = fun s => R s >>= fun x => .ok (g x.1, x.2) := by
    funext s
    cases R s with
    | error => rfl
    | ok x => exact congrArg Except.ok (hf x.1 x.2)
  rw [heq]
  exact h.bind (fun _ => local_pure _ _) fun _ => local_pure _ _

theorem LocalAt.skip {R : Bytes → Except Fault Bytes} {R' : Bytes → Except Fault (β × Bytes)} {s : Bytes}
    (h : LocalAt o P (skipping R) s) (h' : ∀ {r}, R s = .ok r → LocalAt o P R' r) (hn : LocalAt o P R' []) :
    LocalAt o P (fun s => R s >>= R') s := by
  have heq : (fun s => R s >>= R') = fun s => skipping R s >>= fun x => R' x.2 := by
    funext s
    rw [skipping]
    cases R s <;> rfl
  rw [heq]
  refine h.bind (Q := fun _ => R') (fun ha => ?_) fun _ => hn
  obtain ⟨r, hr, ha⟩ := map_eq_ok.1 ha
  cases ha
  exact h' hr

theorem Local.skip {R : Bytes → Except Fault Bytes} {R' : Bytes → Except Fault (β × Bytes)}
    (h : Local o P (skipping R)) (h' : Local o P R') : Local o P (fun s => R s >>= R') :=
  fun s => (h s).skip (fun _ => h' _) (h' [])

/-! ## Readers that look ahead -/

/-- A reader that reads `p` and goes on behind it. -/
theorem LocalAt.append {R Q : Bytes → Except Fault (α × Bytes)} {p s : Bytes} (h : LocalAt o P Q s)
    (hp : ∀ b ∈ p, P b) (hR : ∀ s, R (p ++ s) = Q s) : LocalAt o P R (p ++ s) where
  ok := by
    intro a r ha
    rw [hR] at ha
    obtain ⟨p', hs, hp', hQ⟩ := h.ok ha
    refine ⟨p ++ p', by rw [hs, List.append_assoc], List.forall_mem_append.2 ⟨hp, hp'⟩, fun r' hr => ?_⟩
    rw [List.append_assoc, hR]
    exact hQ r' hr
  error := by
    intro f hf
    rw [hR] at hf
    obtain ⟨p', hs, hp', hQ⟩ := h.error hf
    refine ⟨p ++ p', by rw [hs, List.append_assoc], List.forall_mem_append.2 ⟨hp, hp'⟩, ?_⟩
    rwa [hR]

theorem LocalAt.cons {R Q : Bytes → Except Fault (α × Bytes)} {b : UInt8} {s : Bytes} (h : LocalAt o P Q s)
    (hb : P b) (hR : ∀ s, R (b :: s) = Q s) : LocalAt o P R (b :: s) :=
  h.append (p := [b]) (List.forall_mem_singleton.2 hb) hR

/-- A reader that finds a fault where it stands. -/
theorem LocalAt.fault {R : Bytes → Except Fault (α × Bytes)} {s : Bytes} (code : ErrorCode) (hn : LocalAt o P R [])
    (h : R s = .error ⟨code, s⟩) : LocalAt o P R s where
  ok := by
    intro a r ha
    rw [h] at ha
    cases ha
  error := by
    intro f hf
    rw [h] at hf
    cases hf
    exact ⟨[], rfl, by simp, hn.settled_nil s⟩

/-- A reader that stays where it is at some byte, as it does at the end. -/
theorem LocalAt.stay {R : Bytes → Except Fault (α × Bytes)} {b : UInt8} {s : Bytes} {a : α} (hn : R [] = .ok (a, []))
    (h : ∀ s, R (b :: s) = .ok (a, b :: s)) : LocalAt o P R (b :: s) where
  ok := by
    intro a' r ha
    rw [h] at ha
    cases ha
    refine ⟨[], rfl, by simp, fun r' hr => ?_⟩
    cases r' with
    | nil => exact hn
    | cons c r' =>
        obtain ⟨rfl, -⟩ := List.cons_prefix_cons.1 hr
        exact h r'
  error := by
    intro f hf
    rw [h] at hf
    cases hf

/-- A reader that looks at the first byte and leaves it to another, which reads it. -/
theorem LocalAt.peek {R Q : Bytes → Except Fault (α × Bytes)} {b : UInt8} {s : Bytes} (h : LocalAt o P Q (b :: s))
    (hlt : ∀ {a r}, Q (b :: s) = .ok (a, r) → r.length < (b :: s).length) (hn : LocalAt o P R [])
    (hR : ∀ s, R (b :: s) = Q (b :: s)) : LocalAt o P R (b :: s) where
  ok := by
    intro a r ha
    rw [hR] at ha
    obtain ⟨p, hs, hp, hQ⟩ := h.ok ha
    cases p with
    | nil =>
        have := hlt ha
        simp [hs] at this
    | cons c p =>
        obtain ⟨rfl, -⟩ := List.cons.inj hs
        refine ⟨b :: p, hs, hp, fun r' hr => ?_⟩
        rw [List.cons_append, hR]
        exact hQ r' hr
  error := by
    intro f hf
    rw [hR] at hf
    obtain ⟨p, hs, hp, hQ⟩ := h.error hf
    refine ⟨p, hs, hp, ?_⟩
    -- Cut off in front of `b`, the two readers differ, since nothing is left to peek at.
    cases p with
    | nil => exact hn.settled_nil _
    | cons c p =>
        obtain ⟨rfl, -⟩ := List.cons.inj hs
        rwa [hR]

theorem LocalAt.mono {Q : UInt8 → Prop} {R : Bytes → Except Fault (α × Bytes)} {s : Bytes} (h : LocalAt o P R s)
    (hPQ : ∀ {b}, P b → Q b) : LocalAt o Q R s where
  ok := by
    intro a r ha
    obtain ⟨p, hs, hp, hR⟩ := h.ok ha
    exact ⟨p, hs, fun b hb => hPQ (hp b hb), hR⟩
  error := by
    intro f hf
    obtain ⟨p, hs, hp, hR⟩ := h.error hf
    exact ⟨p, hs, fun b hb => hPQ (hp b hb), hR⟩

end JsonTree.Locality
