import JsonTree.Proofs.Position.Basic
import JsonTree.Proofs.Trail.Objection
import JsonTree.Proofs.Trail.Path

/-!
# Stricter options only object

Reading with stricter options is scanning under laxer rules up to the first thing that the stricter options object to.
What comes behind it makes no difference, and what comes before it is the same.
-/

namespace JsonTree.Trail

open Byte Document Grammar Locality

variable {α β : Type} {o : Options} {R : Rules} {seen : Seen} {s r : Bytes} {d d' : Int} {es : List Event}

/-! ## Readers in step with scans -/

/-- A reader under `o` does what a run does up to the first objection. If it succeeds, the run leaves the counter at
`d`, and `Q` is what holds then. -/
structure Agrees (o : Options) (R : Rules) (x : Except Fault (α × Bytes)) (seen : Seen) (y : Run α) (d : Int)
    (Q : α → Seen → Bytes → Prop) : Prop where
  eq : x = cut o R seen y
  post : ∀ {a r}, x = .ok (a, r) → y.depth = d ∧ Q a (seen ++ keys y.events) r

theorem Agrees.bind {x : Except Fault (α × Bytes)} {y : Run α} {Q : α → Seen → Bytes → Prop}
    {x' : α × Bytes → Except Fault (β × Bytes)} {next : α → Scan β} {Q' : β → Seen → Bytes → Prop}
    (h : Agrees o R x seen y d Q)
    (h' : ∀ {a r seen}, x = .ok (a, r) → Q a seen r → Agrees o R (x' (a, r)) seen (next a r d) d' Q') :
    Agrees o R (x >>= x') seen (y.andThen next) d' Q' := by
  obtain ⟨hx, post⟩ := h
  rw [cut] at hx
  split at hx
  · rename_i f hf
    subst hx
    have heq : cut o R seen (y.andThen next) = .error f := by
      obtain ⟨result, depth, events⟩ := y
      cases result with
      | error f' => simp [cut, Run.andThen, hf]
      | ok x => simp [cut, Run.andThen, Run.after, firstObjection_append, hf]
    exact ⟨heq.symm, by rintro _ _ ⟨⟩⟩
  · rename_i hn
    obtain ⟨result, depth, events⟩ := y
    obtain rfl : x = result := hx
    cases x with
    | error f' =>
        have heq : cut o R seen (Run.andThen ⟨.error f', depth, events⟩ next) = .error f' := by
          simp only [cut, Run.andThen, hn]
        exact ⟨heq.symm, by rintro _ _ ⟨⟩⟩
    | ok x =>
        obtain ⟨a, r⟩ := x
        obtain ⟨rfl, hQ⟩ := post rfl
        obtain ⟨heq, hpost⟩ := h' rfl hQ
        refine ⟨heq.trans (cut_after hn _).symm, fun hb => ?_⟩
        obtain ⟨hd, hQ'⟩ := hpost hb
        refine ⟨hd, ?_⟩
        simpa [Run.andThen, Run.after, keys_append] using hQ'

theorem agrees_error {y : Run α} {f : Fault} {Q : α → Seen → Bytes → Prop} (h : cut o R seen y = .error f) :
    Agrees o R (.error f) seen y d Q :=
  ⟨h.symm, by rintro _ _ ⟨⟩⟩

/-- What leaves no trail gives the stricter options nothing to object to. -/
theorem agrees_quiet {x : Except Fault (α × Bytes)} {Q : α → Seen → Bytes → Prop}
    (h : ∀ {a r}, x = .ok (a, r) → Q a seen r) : Agrees o R x seen ⟨x, d, []⟩ d Q :=
  ⟨rfl, fun hx => ⟨rfl, by simpa using h hx⟩⟩

theorem Agrees.mono {x : Except Fault (α × Bytes)} {y : Run α} {Q Q' : α → Seen → Bytes → Prop}
    (h : Agrees o R x seen y d Q) (hQ : ∀ {a seen r}, Q a seen r → Q' a seen r) : Agrees o R x seen y d Q' :=
  ⟨h.eq, fun hx => ⟨(h.post hx).1, hQ (h.post hx).2⟩⟩

theorem Agrees.map {x : Except Fault (α × Bytes)} {y : Run α} {Q : α → Seen → Bytes → Prop} {f : α → β}
    {Q' : β → Seen → Bytes → Prop} (h : Agrees o R x seen y d Q) (hQ : ∀ {a seen r}, Q a seen r → Q' (f a) seen r) :
    Agrees o R (x.map (Prod.map f id)) seen (y.andThen fun a => pure (f a)) d Q' := by
  have heq : x.map (Prod.map f id) = x >>= fun x => .ok (f x.1, x.2) := by cases x <;> rfl
  rw [heq]
  refine h.bind fun _ h => agrees_quiet fun hx => ?_
  cases hx
  exact hQ h

theorem agrees_skip {read : Bytes → Except Fault Bytes} {x' : Bytes → Except Fault (β × Bytes)}
    {next : Unit → Scan β} {Q : β → Seen → Bytes → Prop} (hs : Local o Anywhere (skipping read))
    (h : ∀ {r}, r <:+ s → Agrees o R (x' r) seen (next () r d) d' Q) :
    Agrees o R (read s >>= x') seen ((skip read s d).andThen next) d' Q := by
  rw [← bind_apply, skip_bind]
  cases hr : read s with
  | error f => exact agrees_error rfl
  | ok r =>
      have hr' : skipping read s = .ok ((), r) := by rw [skipping, hr, Except.map]
      obtain ⟨p, hp, -⟩ := (hs s).ok hr'
      exact h ⟨p, hp.symm⟩

/-! ## Items -/

variable {close : UInt8}

/-- Nothing but the place is another. -/
def Moved (s : Bytes) (seen seen' : Seen) (r : Bytes) : Prop := seen' = seen ∧ r <:+ s

theorem agrees_afterItem (hl : Laxer o R) (hc : Closing close) :
    Agrees o R (Document.afterItem o close s) seen (afterItem R close s d) d fun _ => Moved s seen := by
  have post {a r} (hr : Document.afterItem o close s = .ok (a, r)) : Moved s seen seen r := by
    obtain ⟨p, hp, -⟩ := (local_afterItem (o := o) close s).ok hr
    exact ⟨rfl, p, hp.symm⟩
  cases afterItem_cases hc s with
  | same hx ho hR =>
      rw [hR, ← ho o]
      exact agrees_quiet post
  | trailing h ho hR =>
      refine ⟨?_, fun hr => ⟨by rw [hR], by simpa [hR, Event.key?] using post hr⟩⟩
      rw [ho, hR, cut, afterTrailing, afterTrailing]
      cases ho : o.contains .trailingCommas with
      | true => simp [firstObjection, objection, ho, hl.trailingCommas ho]
      | false => cases hR : R.options.contains .trailingCommas <;> simp [firstObjection, objection, ho, hR]

/-- Items are read in step if each of them is, where `Q` holds of what was read before an item. -/
theorem agrees_items (hl : Laxer o R) (hc : Closing close) {item : β → Reader β} {scan : β → Scan β}
    {Q : β → Seen → Bytes → Prop} (hQ : ∀ {acc seen r t}, Q acc seen r → t <:+ r → Q acc seen t)
    (hi : ∀ acc {seen r}, Q acc seen r → Agrees o R ((item acc).read r) seen (scan acc r d) d Q)
    {acc : β} (h : Q acc seen s) :
    Agrees o R (Document.items o close item acc s) seen (items R close scan acc s d) d Q := by
  induction hn : s.length using Nat.strongRecOn generalizing s acc seen with | ind n ih =>
  rw [items_eq_bind, items]
  refine (hi acc h).bind fun {acc r seen} hr h => (agrees_afterItem hl hc).bind fun {a t _} ha hm => ?_
  obtain ⟨rfl, ht⟩ := hm
  cases a with
  | nothing =>
      refine agrees_quiet fun hx => ?_
      cases hx
      exact hQ h ht
  | item =>
      have hlt : t.length < s.length := Nat.lt_trans (length_lt_of_afterItem ha) ((item _).shorter hr)
      simp only [nextItem, if_pos hlt]
      exact ih _ (hn ▸ hlt) (hQ h ht) rfl

theorem agrees_enclosed (hl : Laxer o R) (hc : Closing close) {item : β → Reader β} {scan : β → Scan β}
    {Q : β → Seen → Bytes → Prop} (hQ : ∀ {acc seen r t}, Q acc seen r → t <:+ r → Q acc seen t)
    (hi : ∀ acc {seen r}, Q acc seen r → Agrees o R ((item acc).read r) seen (scan acc r d) d Q)
    (none : β) (h : Q none seen s) :
    Agrees o R (Document.bracketed o close item none s) seen (enclosed R close scan none s d) d Q := by
  refine agrees_skip local_layout fun {r} hr => ?_
  have hitems := agrees_items (Q := Q) hl hc hQ hi (hQ h hr)
  cases r with
  | nil => exact hitems
  | cons b r =>
      by_cases hb : b = close
      · have hquiet : Agrees o R (pure (none, r)) seen ⟨.ok (none, r), d, []⟩ d Q := by
          refine agrees_quiet fun hx => ?_
          cases hx
          exact hQ (hQ h hr) (List.suffix_cons b _)
        simpa [hb] using hquiet
      · simpa [hb] using hitems

/-! ## Brackets -/

/-- An opening bracket that the stricter options have no room for. -/
theorem cut_bracketed_of_full (hd : max o.depthLimit 0 = d) (scan : β → Scan β) (none : β) :
    cut o R seen (bracketed R close scan none s d) = .error ⟨.tooMuchNesting, s⟩ := by
  cases hR : R.forbids (d + 1) with
  | true => simp [bracketed_of_forbids hR, cut, firstObjection, objection, hR]
  | false => simp [bracketed_eq hR, Run.after, cut, firstObjection, objection, hR, hd]

theorem Laxer.forbids_eq_false (hl : Laxer o R) {n : Int} (h : n ≤ o.depthLimit) : R.forbids n = false := by
  rw [Rules.forbids]
  cases hL : R.limit? with
  | none => rfl
  | some L =>
      have := hl.limit L hL
      simp only [Option.any_some, decide_eq_false_iff_not]
      omega

theorem cut_bracketed (hl : Laxer o R) (hd : 0 ≤ d) (hd' : d < max o.depthLimit 0) {x : Except Fault (β × Bytes)}
    {scan : β → Scan β} {none : β} {Q : β → Seen → Bytes → Prop}
    (h : Agrees o R x seen (enclosed R close scan none s.tail (d + 1)) (d + 1) Q) :
    cut o R seen (bracketed R close scan none s d) = x := by
  have hopen : objection o R seen (.opens s (d + 1)) = Option.none := by
    have hne : d + 1 ≠ max o.depthLimit 0 + 1 := by omega
    simp [objection, hne]
  have hx : x >>= (fun x => .ok x) = x := by cases x <;> rfl
  rw [bracketed_eq (hl.forbids_eq_false (by omega)), cut_after (by simp [firstObjection, hopen])]
  simp only [keys_cons, Event.key?, Option.toList_none, keys_nil, List.append_nil]
  have hclosed : Agrees o R (x >>= fun x => .ok x) seen ((enclosed R close scan none s.tail (d + 1)).andThen
      fun acc r d => ⟨.ok (acc, r), d - 1, [.closes r (d - 1)]⟩) (d + 1 - 1) fun _ _ _ => True :=
    h.bind fun _ _ => ⟨rfl, fun _ => ⟨rfl, trivial⟩⟩
  rw [← hclosed.eq, hx]

/-! ## Members -/

/-- The objects of all keys that were met open farther in front. -/
def Fresh (seen : Seen) (s : Bytes) : Prop := ∀ k ∈ seen, s.length < k.1.length

/-- What is seen behind a value that stands in front of `r`. -/
structure Passed (seen : Seen) (s : Bytes) (seen' : Seen) (r : Bytes) : Prop where
  suffix : r <:+ s
  fresh : Fresh seen' r
  old : ∀ k ∈ seen, k ∈ seen'
  new : ∀ k ∈ seen', k ∈ seen ∨ k.1 <:+ s

theorem Fresh.of_suffix (h : Fresh seen s) (hr : r <:+ s) : Fresh seen r :=
  fun k hk => Nat.lt_of_le_of_lt hr.length_le (h k hk)

theorem passed_of_leads {y : Run α} (h : Leads R (Fits R s s d) s d d y) (hf : Fresh seen s) :
    Passed seen s (seen ++ keys y.events) y.stop := by
  have key {k : Bytes × String} (hk : k ∈ keys y.events) : y.stop.length < k.1.length ∧ k.1 <:+ s := by
    obtain ⟨e, he, hk⟩ := List.mem_filterMap.1 hk
    obtain ⟨hfit, -, hstop⟩ := h.path.forall e he
    cases e with
    | key rest object name =>
        cases hk
        have hle := (hstop.trans (List.tail_suffix rest)).length_le
        exact ⟨Nat.lt_of_le_of_lt hle hfit.2.1, hfit.2.2.2⟩
    | _ => cases hk
  have hs := h.path.suffix
  refine ⟨hs, fun k hk => ?_, fun k hk => List.mem_append_left _ hk, fun k hk => ?_⟩
  · exact (List.mem_append.1 hk).elim (hf.of_suffix hs k) fun hk => (key hk).1
  · exact (List.mem_append.1 hk).imp id fun hk => (key hk).2

/-- The members `before` are those whose keys the object that opens in front of `s` was seen to have. -/
structure Known (object s : Bytes) (before : Members) (seen : Seen) (r : Bytes) : Prop where
  suffix : r <:+ s
  fresh : Fresh seen r
  mem_iff : ∀ name, (object, name) ∈ seen ↔ Entries.contains name before = true

theorem Known.of_suffix {object t : Bytes} {before : Members} (h : Known object s before seen r) (ht : t <:+ r) :
    Known object s before seen t :=
  ⟨ht.trans h.suffix, h.fresh.of_suffix ht, h.mem_iff⟩

/-- A member is known behind its value, and what the value has inside is of no matter. -/
theorem Known.insert {object t u : Bytes} {before : Members} {name : String} {seen' : Seen}
    (h : Known object s before seen r) (hs : s.length < object.length) (ht : t <:+ s)
    (hp : Passed (seen ++ [(object, name)]) t seen' u) (v : Value) :
    Known object s (Entries.insert name v before) seen' u := by
  refine ⟨hp.suffix.trans ht, hp.fresh, fun n => ?_⟩
  have hn : ¬ object <:+ t := fun h => by
    have := h.length_le
    have := ht.length_le
    omega
  have hseen : (object, n) ∈ seen' ↔ (object, n) ∈ seen ++ [(object, name)] :=
    ⟨fun h => (hp.new _ h).resolve_right hn, hp.old _⟩
  rw [hseen, Entries.contains_insert, List.mem_append, h.mem_iff, List.mem_singleton]
  simp [or_comm]

theorem Agrees.after {x : Except Fault (α × Bytes)} {y : Run α} {Q : α → Seen → Bytes → Prop}
    (he : firstObjection o R seen es = none) (h : Agrees o R x (seen ++ keys es) y d Q) :
    Agrees o R x seen (y.after es) d Q :=
  ⟨h.eq.trans (cut_after he y).symm, fun hx => by simpa [Run.after, keys_append] using h.post hx⟩

/-- What stands behind the key of a member. -/
theorem agrees_readRest {object t : Bytes} (hs : s.length < object.length) {inner : Reader Value}
    {scan : Scan Value} (hi : ∀ {seen r}, r <:+ s → Fresh seen r →
      Agrees o R (inner.read r) seen (scan r d) d fun _ => Passed seen r)
    {before : Members} {key : Text} (h : Known object s before seen r) (ht : t <:+ r) :
    Agrees o R (readRest inner before key t) (seen ++ [(object, key.content)])
      ((skip skipColon t d).andThen fun _ => do
        let v ← scan
        return Entries.insert key.content v before) d (Known object s) := by
  refine agrees_skip local_skipColon fun {u} hu => ?_
  have hus : u <:+ s := hu.trans (ht.trans h.suffix)
  have hfresh : Fresh (seen ++ [(object, key.content)]) u := by
    refine List.forall_mem_append.2 ⟨(h.fresh.of_suffix ht).of_suffix hu, List.forall_mem_singleton.2 ?_⟩
    exact Nat.lt_of_le_of_lt hus.length_le hs
  exact (hi hus hfresh).map fun {v _ _} hp => h.insert hs hus hp v

theorem agrees_member (hl : Laxer o R) {object : Bytes} (hs : s.length < object.length) {inner : Reader Value}
    {scan : Scan Value} (hi : ∀ {seen r}, r <:+ s → Fresh seen r →
      Agrees o R (inner.read r) seen (scan r d) d fun _ => Passed seen r)
    (before : Members) (h : Known object s before seen r) :
    Agrees o R ((Document.member o inner before).read r) seen (member R object scan before r d) d
      (Known object s) := by
  change Agrees o R (readMember o inner before r) seen ((key R object before r d).andThen _) d (Known object s)
  cases key_cases object before r with
  | fault hf hs ho hR =>
      rw [ho, hR]
      exact agrees_error rfl
  | @key t u hk hu ho hR =>
      rw [ho, hR]
      -- An object has the key already just if the trail has seen it there.
      have hobj : objection o R seen (.key r object t.content) =
          if o.contains .uniqueKeys && !R.options.contains .uniqueKeys && Entries.contains t.content before then
            some ⟨.malformed, r⟩
          else none := by
        simp [objection, h.mem_iff t.content]
      by_cases hrep : (o.contains .uniqueKeys && Entries.contains t.content before) = true
      · rw [if_pos hrep]
        simp only [Bool.and_eq_true] at hrep
        cases hu : R.options.contains .uniqueKeys with
        | true => exact agrees_error (by simp [hrep, Run.andThen, cut, firstObjection])
        | false =>
            refine agrees_error ?_
            simp [hrep, hu, Run.andThen, Run.after, cut, firstObjection, hobj]
      · have hrep' : ¬ (R.options.contains .uniqueKeys && Entries.contains t.content before) = true := by
          simp only [Bool.and_eq_true, not_and] at hrep ⊢
          exact fun h => hrep (hl.uniqueKeys h)
        have hno : objection o R seen (.key r object t.content) = none := by
          rw [hobj, if_neg]
          simp only [Bool.and_eq_true, not_and] at hrep ⊢
          exact fun h => hrep h.1
        rw [if_neg hrep, if_neg hrep']
        exact Agrees.after (by simp [firstObjection, hno]) (agrees_readRest hs hi h (hu.trans (List.tail_suffix r)))

/-! ## Values -/

theorem cut_map (y : Run α) (f : α → β) :
    cut o R seen (y.andThen fun a => pure (f a)) = (cut o R seen y).map (Prod.map f id) := by
  obtain ⟨result, depth, events⟩ := y
  cases result <;> cases h : firstObjection o R seen events <;>
    simp [cut, Run.andThen, Run.after, h, Except.map, Prod.map]

theorem agrees_of_leads {x : Except Fault (α × Bytes)} {y : Run α} (h : Leads R (Fits R s s d) s d d y)
    (hx : x = cut o R seen y) (hf : Fresh seen s) : Agrees o R x seen y d fun _ => Passed seen s := by
  refine ⟨hx, fun {a r} ha => ?_⟩
  have hy : y.result = .ok (a, r) := by
    rw [hx, cut] at ha
    split at ha
    · cases ha
    · exact ha
  have hr : y.stop = r := by rw [Run.stop, hy]
  exact ⟨h.depth hy, hr ▸ passed_of_leads h hf⟩

/-- What the reader of a value does behind the layout in front of it. -/
def readNode (o : Options) (inner : Option (Reader Value)) (s : Bytes) : Except Fault (Value × Bytes) :=
  if s.head? = some openBracket then
    match inner with
    | some value => Document.array o value s.tail
    | none => .error ⟨.tooMuchNesting, s⟩
  else if s.head? = some openBrace then
    match inner with
    | some value => Document.object o value s.tail
    | none => .error ⟨.tooMuchNesting, s⟩
  else scalar o s

theorem readValue_eq (o : Options) (inner : Option (Reader Value)) (s : Bytes) :
    Document.readValue o inner s = layout s >>= readNode o inner := by
  refine congrArg (layout s >>= ·) (funext fun s => ?_)
  cases s with
  | nil => rfl
  | cons b s => cases inner <;> simp [readNode, scalar, number]

theorem cut_scalar (hl : Laxer o R) : cut o R seen ⟨scalar R.options s, d, [.value s]⟩ = scalar o s := by
  cases ho : o.contains .nonFinite with
  | true =>
      have hR := hl.nonFinite ho
      rw [← scalar_congr hl.borrowing (hR.trans ho.symm)]
      simp [cut, firstObjection, objection, ho]
  | false =>
      cases hR : R.options.contains .nonFinite with
      | true =>
          rw [scalar_eq hl.borrowing ho hR]
          cases h : nonFiniteStart? s <;> simp [cut, firstObjection, objection, ho, hR, h]
      | false =>
          rw [← scalar_congr hl.borrowing (hR.trans ho.symm)]
          simp [cut, firstObjection, objection, hR]

theorem cut_marked {e : Event} (h : objection o R seen e = none) (hk : e.key? = none) (y : Run α) :
    cut o R seen (y.after [e]) = cut o R seen y := by
  rw [cut_after (by simp [firstObjection, h])]
  simp [hk]

theorem cut_array (hl : Laxer o R) (hd : 0 ≤ d) (hd' : d < max o.depthLimit 0) {b : UInt8} {inner : Reader Value}
    {scan : Scan Value} (hi : ∀ {seen r}, r <:+ s → Fresh seen r →
      Agrees o R (inner.read r) seen (scan r (d + 1)) (d + 1) fun _ => Passed seen r)
    (hf : Fresh seen (b :: s)) : cut o R seen (array R scan (b :: s) d) = Document.array o inner s := by
  have helement (before : Elements) {seen : Seen} {r : Bytes} (h : r <:+ s ∧ Fresh seen r) :
      Agrees o R ((Document.element inner before).read r) seen (element scan before r (d + 1)) (d + 1)
        fun _ seen r => r <:+ s ∧ Fresh seen r :=
    (hi h.1 h.2).map fun hp => ⟨hp.suffix.trans h.1, hp.fresh⟩
  have henclosed := agrees_enclosed hl (.inl rfl) (fun h ht => ⟨ht.trans h.1, h.2.of_suffix ht⟩) helement []
    ⟨List.suffix_rfl, hf.of_suffix (List.suffix_cons b s)⟩
  rw [array_eq, cut_map, cut_bracketed hl hd hd' henclosed]
  rfl

theorem cut_object (hl : Laxer o R) (hd : 0 ≤ d) (hd' : d < max o.depthLimit 0) {b : UInt8} {inner : Reader Value}
    {scan : Scan Value} (hi : ∀ {seen r}, r <:+ s → Fresh seen r →
      Agrees o R (inner.read r) seen (scan r (d + 1)) (d + 1) fun _ => Passed seen r)
    (hf : Fresh seen (b :: s)) : cut o R seen (object R scan (b :: s) d) = Document.object o inner s := by
  have hknown : Known (b :: s) s [] seen s := by
    refine ⟨List.suffix_rfl, hf.of_suffix (List.suffix_cons b s), fun name => ?_⟩
    have hne : (b :: s, name) ∉ seen := fun h => Nat.lt_irrefl _ (hf _ h)
    simp [hne, Entries.contains, Entries.get?]
  have henclosed := agrees_enclosed (Q := Known (b :: s) s) hl (.inr rfl) Known.of_suffix
    (fun before _ _ h => agrees_member hl (Nat.lt_succ_self s.length) hi before h) [] hknown
  rw [object_eq, cut_map, cut_bracketed hl hd hd' henclosed]
  rfl

/-- A value is read in step if the values inside are, where there is room for any. -/
theorem readNode_eq_cut (hl : Laxer o R) (hd : 0 ≤ d) {inner : Option (Reader Value)} {scan : Scan Value}
    (hnone : inner = none → max o.depthLimit 0 = d)
    (hsome : ∀ V ∈ inner, d < max o.depthLimit 0 ∧ ∀ {seen r}, r.length < s.length → Fresh seen r →
      Agrees o R (V.read r) seen (scan r (d + 1)) (d + 1) fun _ => Passed seen r)
    (hf : Fresh seen s) : readNode o inner s = cut o R seen (node R scan s d) := by
  unfold readNode
  rw [node_eq]
  split
  · rename_i hb
    obtain ⟨s, rfl⟩ := List.head?_eq_some_iff.1 hb
    rw [cut_marked (objection_value_of_bracket (.inl rfl)) rfl]
    cases inner with
    | none =>
        rw [array_eq, cut_map, cut_bracketed_of_full (hnone rfl)]
        rfl
    | some V =>
        obtain ⟨hd', hi⟩ := hsome V rfl
        exact (cut_array hl hd hd' (fun hr => hi (Nat.lt_succ_of_le hr.length_le)) hf).symm
  · split
    · rename_i hb
      obtain ⟨s, rfl⟩ := List.head?_eq_some_iff.1 hb
      rw [cut_marked (objection_value_of_bracket (.inr rfl)) rfl]
      cases inner with
      | none =>
          rw [object_eq, cut_map, cut_bracketed_of_full (hnone rfl)]
          rfl
      | some V =>
          obtain ⟨hd', hi⟩ := hsome V rfl
          exact (cut_object hl hd hd' (fun hr => hi (Nat.lt_succ_of_le hr.length_le)) hf).symm
    · exact (cut_scalar hl).symm

theorem agrees_readValue (hl : Laxer o R) (hd : 0 ≤ d) {inner : Option (Reader Value)}
    (hnone : inner = none → max o.depthLimit 0 = d)
    (hsome : ∀ V ∈ inner, d < max o.depthLimit 0 ∧ ∀ {seen r}, Fresh seen r →
      Agrees o R (V.read r) seen (value R r (d + 1)) (d + 1) fun _ => Passed seen r)
    (hf : Fresh seen s) :
    Agrees o R (Document.readValue o inner s) seen (value R s d) d fun _ => Passed seen s := by
  have hnode {r : Bytes} (hr : r <:+ s) : readNode o inner r = cut o R seen (node R (inside R s.length) r d) := by
    refine readNode_eq_cut hl hd hnone (fun V hV => ⟨(hsome V hV).1, fun {_ t} ht hf' => ?_⟩) (hf.of_suffix hr)
    rw [inside_of_lt (Nat.lt_of_lt_of_le ht hr.length_le)]
    exact (hsome V hV).2 hf'
  have hskip : Agrees o R (layout s >>= readNode o inner) seen
      ((skip layout s d).andThen fun _ => node R (inside R s.length)) d fun _ _ r => r <:+ s :=
    agrees_skip local_layout fun {r} hr =>
      (agrees_of_leads (leads_node (leads_inside (fun _ => leads_value _) _ _)) (hnode hr) (hf.of_suffix hr)).mono
        fun hp => hp.suffix.trans hr
  refine agrees_of_leads (leads_value s d) ?_ hf
  rw [readValue_eq, value_eq, hskip.eq]

/-- With room for what may still be open, a value is read in step. -/
theorem agrees_value (hl : Laxer o R) (room : Nat) (hd : 0 ≤ d) (hroom : d + room = max o.depthLimit 0)
    (hf : Fresh seen s) :
    Agrees o R ((Document.value o room).read s) seen (value R s d) d fun _ => Passed seen s := by
  induction room generalizing s d seen with
  | zero =>
      change Agrees o R (Document.readValue o none s) _ _ _ _
      exact agrees_readValue hl hd (fun _ => by omega) (by rintro _ ⟨⟩) hf
  | succ room ih =>
      change Agrees o R (Document.readValue o (some (Document.value o room)) s) _ _ _ _
      refine agrees_readValue hl hd (by rintro ⟨⟩) ?_ hf
      rintro _ ⟨⟩
      exact ⟨by omega, fun hf => ih (by omega) (by omega) hf⟩

/-! ## Documents -/

/-- Reading under stricter options is scanning under laxer rules up to the first objection. -/
theorem read_eq_cut (hl : Laxer o R) (s : Bytes) : Document.read o s = (cut o R [] (scan R s)).map Prod.fst := by
  have hv : Agrees o R ((Document.value o o.depthLimit.toNat).read s) [] (value R s 0) 0 fun _ => Passed [] s :=
    agrees_value hl _ (Int.le_refl 0) (by omega) (by simp [Fresh])
  have hdocument : Agrees o R ((Document.value o o.depthLimit.toNat).read s >>= fun x => layout x.2 >>= readEnd x.1) []
      (scan R s) 0 fun _ _ _ => True := by
    refine hv.bind fun {v r seen} _ _ => agrees_skip local_layout fun {t} _ => ?_
    cases t with
    | nil => exact agrees_quiet fun _ => trivial
    | cons b t => exact agrees_quiet fun _ => trivial
  rw [read_eq_map, hdocument.eq]

theorem parse_eq (hl : Laxer o R) (s : Bytes) :
    Value.parse o s =
      match firstObjection o R [] (events R s) with
      | some f => .error (f.toError s)
      | none => parse R s := by
  rw [Value.parse, read_eq_cut hl, cut, parse, events]
  cases firstObjection o R [] (scan R s).events <;> rfl

/-- The scan finds what the reader finds. -/
theorem parse_ofOptions (o : Options) (s : Bytes) : parse (.ofOptions o) s = Value.parse o s := by
  rw [parse_eq (.refl o), firstObjection_self]

/-- Stricter options find what a scan under laxer rules finds, or their first objection. -/
inductive ParseCase (o : Options) (R : Rules) (s : Bytes) : Prop where
  | same (hn : firstObjection o R [] (events R s) = none) (heq : Value.parse o s = parse R s) : ParseCase o R s
  | objected {es e es' f} (hes : events R s = es ++ e :: es') (hn : firstObjection o R [] es = none)
      (he : objection o R (keys es) e = some f) (heq : Value.parse o s = .error (f.toError s)) : ParseCase o R s

theorem parse_cases (hl : Laxer o R) (s : Bytes) : ParseCase o R s := by
  have heq := parse_eq hl s
  cases hf : firstObjection o R [] (events R s) with
  | none =>
      rw [hf] at heq
      exact .same hf heq
  | some f =>
      rw [hf] at heq
      obtain ⟨es, e, es', hes, hn, he⟩ := exists_of_firstObjection hf
      exact .objected hes hn he heq

/-! ## Errors -/

/-- An error of a scan is where the scan stops. -/
theorem eq_of_parse_error {e : ParseError} (h : parse R s = .error e) :
    Blames R e.code ∧ e.position.offset s + (scan R s).stop.length = s.length := by
  obtain ⟨p, hp⟩ := (leads_scan R s).path.suffix
  rw [parse] at h
  cases hr : (scan R s).result with
  | ok x =>
      rw [hr] at h
      cases h
  | error f =>
      have hstop : (scan R s).stop = f.rest := by rw [Run.stop, hr]
      rw [hr] at h
      cases h
      refine ⟨(leads_scan R s).blames hr, ?_⟩
      rw [hstop] at hp ⊢
      show (f.toError s).position.offset s + f.rest.length = s.length
      rw [Position.toError_eq hp.symm, ← hp, Position.offset_behind, List.length_append]

end JsonTree.Trail
