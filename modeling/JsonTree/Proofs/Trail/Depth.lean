import JsonTree.Proofs.Grammar.Nesting
import JsonTree.Proofs.Trail.Agreement

/-!
# The limit on nesting

The limit decides about one thing: whether a bracket may open. A scan without a limit shows which bracket a limit
refuses, and a document that such a scan accepts is accepted with a limit just if its nesting is not above it.
-/

namespace JsonTree.Trail

open Byte Document Grammar

variable {o : Options} {R : Rules} {seen : Seen} {s : Bytes} {es : List Event} {L m n : Int} {k : Nat}

/-! ## Openings -/

/-- Without a limit, a scan opens a bracket at offset `k`, in front of which `m` brackets are open. -/
def OpensAt (o : Options) (s : Bytes) (m : Int) (k : Nat) : Prop :=
  ∃ es rest n es', events (.unlimited o) s = es ++ .opens rest n :: es' ∧ opened es = m ∧ k + rest.length = s.length

/-- Without a limit, a scan gets to offset `k` and there opens the first bracket with `m` brackets open. -/
structure FirstOpening (o : Options) (s : Bytes) (m : Int) (k : Nat) : Prop where
  bracket : (s.drop k).head? = some openBracket ∨ (s.drop k).head? = some openBrace
  opens : OpensAt o s m k
  first : ∀ {k'}, OpensAt o s m k' → k ≤ k'
  /-- No fault stands in front of the bracket. -/
  clear : ∀ e, parse (.unlimited o) s = .error e → k ≤ e.position.offset s

/-- The counter at the start of a scan and wherever it is set. -/
def counters (R : Rules) (s : Bytes) : List Int := 0 :: (events R s).filterMap Event.depth?

/-- An opening bracket sets the counter to the number of brackets that are open behind it. -/
theorem opensAt_iff : OpensAt o s m k ↔
    ∃ rest, .opens rest (m + 1) ∈ events (.unlimited o) s ∧ k + rest.length = s.length := by
  have hdepth {es es' : List Event} {rest : Bytes} {n : Int}
      (hes : events (.unlimited o) s = es ++ .opens rest n :: es') : n = opened es + 1 := by
    have hpath := (leads_scan (.unlimited o) s).path
    rw [events] at hes
    rw [hes] at hpath
    obtain ⟨t, d, hpath, htail⟩ := hpath.split
    obtain rfl := hpath.depth_eq
    cases htail with
    | step _ _ hd _ => simpa [Event.change] using hd n rfl
  constructor
  · rintro ⟨es, rest, n, es', hes, rfl, hk⟩
    obtain rfl := hdepth hes
    exact ⟨rest, by simp [hes], hk⟩
  · rintro ⟨rest, hmem, hk⟩
    obtain ⟨es, es', hes⟩ := List.append_of_mem hmem
    exact ⟨es, rest, m + 1, es', hes, by have := hdepth hes; omega, hk⟩

/-- An error of a scan is not in front of a bracket that the scan has met. -/
theorem le_offset_of_parse_error {rest : Bytes} {e : ParseError} (hmem : .opens rest n ∈ events R s)
    (hk : k + rest.length = s.length) (he : parse R s = .error e) : k ≤ e.position.offset s := by
  have hoffset := (eq_of_parse_error he).2
  have hstop := ((leads_scan R s).path.forall _ hmem).2.2.length_le
  simp only [Event.behind] at hstop
  omega

/-- The first event that opens with so many brackets open is the first such opening of the document. -/
theorem firstOpening_of_events {q rest : Bytes} {es' : List Event}
    (hes : events (.unlimited o) (q ++ rest) = es ++ .opens rest (m + 1) :: es')
    (hn : ∀ r, .opens r (m + 1) ∉ es) : FirstOpening o (q ++ rest) m q.length := by
  have hmem : .opens rest (m + 1) ∈ events (.unlimited o) (q ++ rest) := by simp [hes]
  have hbracket := ((leads_scan (.unlimited o) (q ++ rest)).path.forall _ hmem).1.1
  refine ⟨by simpa using hbracket, opensAt_iff.2 ⟨rest, hmem, by simp⟩, fun {k'} hk' => ?_, fun e he => ?_⟩
  · obtain ⟨rest', hmem', hk'⟩ := opensAt_iff.1 hk'
    have hord := (leads_scan (.unlimited o) (q ++ rest)).path.pairwise
    rw [← events, hes] at hord
    have hle : rest'.length ≤ rest.length := by
      rw [hes, List.mem_append, List.mem_cons] at hmem'
      rcases hmem' with hmem' | heq | hmem'
      · exact absurd hmem' (hn rest')
      · cases heq
        exact Nat.le_refl _
      · exact (List.rel_of_pairwise_cons (List.pairwise_append.1 hord).2.1 hmem').length_le
    rw [List.length_append] at hk'
    omega
  · exact le_offset_of_parse_error hmem (by simp) he

/-- There is one first opening at most. -/
theorem FirstOpening.unique {k' : Nat} (h : FirstOpening o s m k) (h' : FirstOpening o s m k') : k = k' :=
  Nat.le_antisymm (h.first h'.opens) (h'.first h.opens)

/-! ## Objections to brackets -/

/-- Options with the flags of the rules object to nothing but a bracket beyond their limit. -/
theorem opens_of_objection {e : Event} {f : Fault} (h : objection o R seen e = some f)
    (hflags : ∀ g, R.options.contains g = o.contains g) :
    ∃ rest, e = .opens rest (max o.depthLimit 0 + 1) ∧ f = ⟨.tooMuchNesting, rest⟩ := by
  cases objection_cases h with
  | value hR ho _ => simp [hflags, ho] at hR
  | opens _ => exact ⟨_, rfl, rfl⟩
  | key hR ho _ => simp [hflags, ho] at hR
  | trailing hR ho => simp [hflags, ho] at hR

/-- Without a limit, each bracket beyond the limit of the options is objected to. -/
theorem not_mem_of_firstObjection_eq_none {rest : Bytes}
    (h : firstObjection (o.withDepthLimit L) (.unlimited o) seen es = none) : .opens rest (max L 0 + 1) ∉ es := by
  induction es generalizing seen with
  | nil => simp
  | cons e es ih =>
      rw [firstObjection, Option.or_eq_none_iff] at h
      rw [List.mem_cons, not_or]
      refine ⟨?_, ih h.2⟩
      rintro rfl
      simp [objection, Rules.forbids, Rules.unlimited] at h

theorem parse_withDepthLimit_eq_error_iff {p : Position} :
    Value.parse (o.withDepthLimit L) s = .error ⟨.tooMuchNesting, p⟩ ↔
      ∃ k, FirstOpening o s (max L 0) k ∧ p = .behind (s.take k) := by
  cases parse_cases (.unlimited o L) s with
  | same hn heq =>
      -- No bracket is beyond the limit, and a scan without a limit never blames the nesting.
      rw [heq]
      constructor
      · intro h
        cases (eq_of_parse_error h).1.1 rfl
      · rintro ⟨k, hfirst, -⟩
        obtain ⟨rest, hmem, -⟩ := opensAt_iff.1 hfirst.opens
        exact absurd hmem (not_mem_of_firstObjection_eq_none hn)
  | objected hes hn he heq =>
      rw [heq]
      obtain ⟨rest, rfl, rfl⟩ := opens_of_objection he fun _ => rfl
      have hmem : .opens rest (max L 0 + 1) ∈ events (.unlimited o) s := by simp [hes]
      obtain ⟨q, hq⟩ : rest <:+ s := ((leads_scan (.unlimited o) s).path.forall _ hmem).2.1
      subst hq
      have hfirst := firstOpening_of_events hes fun r => not_mem_of_firstObjection_eq_none hn
      rw [Position.toError_eq rfl]
      constructor
      · rintro ⟨⟩
        exact ⟨q.length, hfirst, by simp⟩
      · rintro ⟨k, hk, rfl⟩
        simp [hk.unique hfirst]

/-! ## Accepted documents -/

/-- No document opens more brackets than it has bytes, so a limit of so many is like none. -/
theorem documentText_of_unlimited {v : Value} (h : parse (.unlimited o) s = .ok v) :
    DocumentText (o.withDepthLimit s.length) s v := by
  cases parse_cases (.unlimited o s.length) s with
  | same _ heq => exact documentText_of_parse (heq.trans h)
  | objected hes _ he _ =>
      obtain ⟨rest, rfl, -⟩ := opens_of_objection he fun _ => rfl
      have hmem : .opens rest (max (s.length : Int) 0 + 1) ∈ events (.unlimited o) s := by simp [hes]
      have hle := ((leads_scan (.unlimited o) s).path.forall _ hmem).1.2.2.1
      omega

theorem parse_withDepthLimit_of_unlimited {v : Value} (h : parse (.unlimited o) s = .ok v) :
    ((nesting s : Int) ≤ max L 0 → Value.parse (o.withDepthLimit L) s = .ok v) ∧
    (max L 0 < nesting s → ∃ p, Value.parse (o.withDepthLimit L) s = .error ⟨.tooMuchNesting, p⟩) := by
  have hdoc := documentText_of_unlimited h
  refine ⟨fun hL => (hdoc.nesting_le.2 L (by omega)).parse, fun hL => ?_⟩
  cases parse_cases (.unlimited o L) s with
  | same _ heq =>
      -- What is accepted is a document of the grammar, and its limit is not below its nesting.
      have hle := (documentText_of_parse (heq.trans h)).nesting_le.1
      simp only [Options.depthLimit_withDepthLimit] at hle
      omega
  | objected _ _ he heq =>
      obtain ⟨rest, rfl, rfl⟩ := opens_of_objection he fun _ => rfl
      exact ⟨_, heq⟩

/-! ## The counter -/

theorem counters_bounds (hs : s.length < 0x80000000) :
    ∀ n ∈ counters (.ofOptions (o.withDepthLimit L)) s, 0 ≤ n ∧ n ≤ max L 0 + 1 ∧ n < 0x80000000 := by
  refine List.forall_mem_cons.2 ⟨by omega, fun n hn => ?_⟩
  obtain ⟨e, he, hn⟩ := List.mem_filterMap.1 hn
  obtain ⟨hfit, -, -⟩ := (leads_scan (.ofOptions (o.withDepthLimit L)) s).path.forall e he
  have hbounds : InBounds (.ofOptions (o.withDepthLimit L)) s 0 n := by
    cases e with
    | opens _ _ =>
        cases hn
        exact hfit.2
    | closes _ _ =>
        cases hn
        exact hfit
    | _ => cases hn
  obtain ⟨hle, hlen, hlim⟩ := hbounds
  have := hlim L rfl
  omega

/-- A limit refuses nothing but brackets. If it refuses none, a higher limit changes nothing. If it refuses one, that is
the first that a scan without a limit opens with as many brackets open as the limit allows, and so a document that such
a scan accepts is accepted if the limit is not below its nesting. The counter of a scan is never negative and at most
one above the limit, and a value leaves it as it was. -/
theorem parse_withDepthLimit {s : Bytes} (hs : s.length < 0x80000000) (o : Options) {L L' : Int} (hL : L ≤ L') :
    ((∀ p, Value.parse (o.withDepthLimit L) s ≠ .error ⟨.tooMuchNesting, p⟩) →
      Value.parse (o.withDepthLimit L') s = Value.parse (o.withDepthLimit L) s) ∧
    (∀ p, Value.parse (o.withDepthLimit L) s = .error ⟨.tooMuchNesting, p⟩ ↔
      ∃ k, FirstOpening o s (max L 0) k ∧ p = .behind (s.take k)) ∧
    (∀ v, parse (.unlimited o) s = .ok v →
      ((nesting s : Int) ≤ max L 0 → Value.parse (o.withDepthLimit L) s = .ok v) ∧
      (max L 0 < nesting s → ∃ p, Value.parse (o.withDepthLimit L) s = .error ⟨.tooMuchNesting, p⟩)) ∧
    parse (.ofOptions (o.withDepthLimit L)) s = Value.parse (o.withDepthLimit L) s ∧
    (∀ n ∈ counters (.ofOptions (o.withDepthLimit L)) s, 0 ≤ n ∧ n ≤ max L 0 + 1 ∧ n < 0x80000000) ∧
    ∀ t d x, (value (.ofOptions (o.withDepthLimit L)) t d).result = .ok x →
      (value (.ofOptions (o.withDepthLimit L)) t d).depth = d := by
  refine ⟨fun hne => ?_, fun p => parse_withDepthLimit_eq_error_iff, fun v => parse_withDepthLimit_of_unlimited,
    parse_ofOptions _ s, counters_bounds hs, fun t d x hx => (leads_value t d).depth hx⟩
  cases parse_cases (.withDepthLimit o hL) s with
  | same _ heq => rw [heq, parse_ofOptions]
  | objected _ _ he heq =>
      obtain ⟨rest, rfl, rfl⟩ := opens_of_objection he fun _ => rfl
      exact absurd heq (hne _)

/-- An array in an array. -/
def arrayInArray : Bytes := [openBracket, openBracket, closeBracket, closeBracket]

theorem parse_withDepthLimit_arrayInArray :
    arrayInArray.length < 0x80000000 ∧ (1 : Int) ≤ 2 ∧
    Value.parse (Options.withDepthLimit {} 1) arrayInArray = .error ⟨.tooMuchNesting, ⟨1, 2⟩⟩ ∧
    (∃ k, FirstOpening {} arrayInArray (max 1 0) k ∧ ⟨1, 2⟩ = Position.behind (arrayInArray.take k)) ∧
    Value.parse (Options.withDepthLimit {} 2) arrayInArray = .ok (.array [.array []]) ∧
    ∀ n ∈ counters (.ofOptions (Options.withDepthLimit {} 1)) arrayInArray,
      0 ≤ n ∧ n ≤ max 1 0 + 1 ∧ n < 0x80000000 := by
  have hs : arrayInArray.length < 0x80000000 := by decide
  have hle : (1 : Int) ≤ 2 := by decide
  have herror : Value.parse (Options.withDepthLimit {} 1) arrayInArray = .error ⟨.tooMuchNesting, ⟨1, 2⟩⟩ := by
    with_unfolding_all rfl
  have hok : Value.parse (Options.withDepthLimit {} 2) arrayInArray = .ok (.array [.array []]) := by
    with_unfolding_all rfl
  obtain ⟨-, hfirst, -, -, hcounters, -⟩ := parse_withDepthLimit hs {} hle
  exact ⟨hs, hle, herror, (hfirst _).1 herror, hok, hcounters⟩

end JsonTree.Trail
