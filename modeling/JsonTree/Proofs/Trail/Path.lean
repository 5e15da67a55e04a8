import JsonTree.Proofs.Trail.Steps

/-!
# Trails lead through the document

The trail of a scan leads from its start to its stop, and never back. An event that sets the counter moves it by one. A
scan that succeeds leaves the counter as it was, and in between the counter is neither below nor too far above.

A scanner blames the nesting or a comma only where its rules give it a reason.
-/

namespace JsonTree.Trail

open Byte Document Grammar Locality

/-! ## Paths -/

/-- What an event does to the counter. -/
def Event.change : Event → Int
  | opens _ _ => 1
  | closes _ _ => -1
  | value _ | key _ _ _ | trailing _ => 0

/-- Where a scan is behind an event at the least. A key is read when its event comes. -/
def Event.behind : Event → Bytes
  | key rest _ _ => rest.tail
  | value rest | opens rest _ | closes rest _ | trailing rest => rest

theorem Event.behind_suffix (e : Event) : e.behind <:+ e.rest := by
  cases e with
  | key rest _ _ => exact List.tail_suffix rest
  | _ => exact List.suffix_rfl

/-- How many more brackets a trail opens than it closes. -/
def opened : List Event → Int
  | [] => 0
  | e :: es => e.change + opened es

/-- Events with `P` on the way through a document, from one place and depth of the counter to another. -/
inductive Path (P : Event → Prop) : Bytes → Int → List Event → Bytes → Int → Prop where
  | stop {s t d} (ht : t <:+ s) : Path P s d [] t d
  | step {s e es t d d'} (hs : e.rest <:+ s) (he : P e) (hd : ∀ n ∈ e.depth?, n = d + e.change)
      (h : Path P e.behind (d + e.change) es t d') : Path P s d (e :: es) t d'

variable {α β : Type} {R : Rules} {P Q : Event → Prop} {s t u top : Bytes} {d d' d'' : Int} {es es' : List Event}

theorem Path.mono (h : Path P s d es t d') (hPQ : ∀ {e}, P e → Q e) : Path Q s d es t d' := by
  induction h with
  | stop ht => exact .stop ht
  | step hs he hd _ ih => exact .step hs (hPQ he) hd ih

/-- A path may start farther in front. -/
theorem Path.of_suffix (h : Path P s d es t d') (hs : s <:+ u) : Path P u d es t d' := by
  cases h with
  | stop ht => exact .stop (ht.trans hs)
  | step hs' he hd h => exact .step (hs'.trans hs) he hd h

theorem Path.suffix (h : Path P s d es t d') : t <:+ s := by
  induction h with
  | stop ht => exact ht
  | @step _ e _ _ _ _ hs _ _ _ ih => exact ih.trans (e.behind_suffix.trans hs)

theorem Path.append (h : Path P s d es t d') (h' : Path P t d' es' u d'') : Path P s d (es ++ es') u d'' := by
  induction h with
  | stop ht => exact h'.of_suffix ht
  | step hs he hd _ ih => exact .step hs he hd (ih h')

/-- An event that leaves the counter alone. -/
theorem Path.mark {e : Event} (hs : e.rest <:+ s) (he : P e) (hn : e.depth? = none) (ht : t <:+ e.behind) :
    Path P s d [e] t d := by
  have hc : d + e.change = d := by cases e <;> simp_all [Event.change, Event.depth?]
  exact .step hs he (by simp [hn]) (hc.symm ▸ .stop ht)

theorem Path.split (h : Path P s d (es ++ es') u d'') :
    ∃ t d', Path P s d es t d' ∧ Path P t d' es' u d'' := by
  induction es generalizing s d with
  | nil => exact ⟨s, d, .stop List.suffix_rfl, h⟩
  | cons e es ih =>
      cases h with
      | step hs he hd h =>
          obtain ⟨t, d', h, h'⟩ := ih h
          exact ⟨t, d', .step hs he hd h, h'⟩

theorem Path.depth_eq (h : Path P s d es t d') : d' = d + opened es := by
  induction h with
  | stop _ => simp [opened]
  | step _ _ _ _ ih =>
      rw [ih, opened, Int.add_assoc]

theorem Path.forall (h : Path P s d es t d') : ∀ e ∈ es, P e ∧ e.rest <:+ s ∧ t <:+ e.behind := by
  induction h with
  | stop _ => simp
  | @step _ e' _ _ _ _ hs he _ h ih =>
      refine List.forall_mem_cons.2 ⟨⟨he, hs, h.suffix⟩, fun e he => ?_⟩
      exact ⟨(ih e he).1, (ih e he).2.1.trans (e'.behind_suffix.trans hs), (ih e he).2.2⟩

/-- The events of a path stand in the order of the document. -/
theorem Path.pairwise (h : Path P s d es t d') : es.Pairwise fun e e' => e'.rest <:+ e.behind := by
  induction h with
  | stop _ => exact .nil
  | step _ _ _ h ih => exact .cons (fun e he => (h.forall e he).2.1) ih

/-! ## What the events say -/

/-- How far the counter may be off from `d` on the way through `s`. -/
def InBounds (R : Rules) (s : Bytes) (d n : Int) : Prop :=
  d ≤ n ∧ n ≤ d + s.length ∧ ∀ L ∈ R.limit?, n ≤ max L d + 1

/-- An event on the way through `s`, where the counter starts at `d` and all objects open in `top`. -/
def Fits (R : Rules) (top s : Bytes) (d : Int) : Event → Prop
  | .value _ => True
  | .opens rest n => (rest.head? = some openBracket ∨ rest.head? = some openBrace) ∧ InBounds R s d n
  | .closes _ n => InBounds R s d n
  | .key rest object name =>
      KeyAt rest name ∧ rest.length < object.length ∧ object.head? = some openBrace ∧ object <:+ top
  | .trailing rest => ∃ close r, Closing close ∧ rest = close :: r ∧ TrailingAt close s r

theorem InBounds.of_suffix {n : Int} (h : InBounds R u d n) (hs : u <:+ s) : InBounds R s d n := by
  have hlen := hs.length_le
  obtain ⟨h, h', h''⟩ := h
  exact ⟨h, by omega, h''⟩

theorem Fits.of_suffix {e : Event} (h : Fits R u s d e) (hs : s <:+ t) (hu : u <:+ top) : Fits R top t d e := by
  cases e with
  | value _ => trivial
  | opens _ _ => exact ⟨h.1, h.2.of_suffix hs⟩
  | closes _ _ => exact InBounds.of_suffix h hs
  | key _ _ _ => exact ⟨h.1, h.2.1, h.2.2.1, h.2.2.2.trans hu⟩
  | trailing _ =>
      obtain ⟨close, r, hc, hr, l, hl, h⟩ := h
      exact ⟨close, r, hc, hr, l, hl, h.trans hs⟩

theorem Rules.le_of_forbids {n : Int} (h : R.forbids n = false) : ∀ L ∈ R.limit?, n ≤ L := by
  rintro L hL
  rw [Rules.forbids, Option.mem_def.1 hL] at h
  simpa using h

theorem Rules.isSome_of_forbids {n : Int} (h : R.forbids n = true) : R.limit?.isSome = true := by
  obtain ⟨L, hL, -⟩ := (Option.any_eq_true _ _).1 h
  simp [hL]

/-- What is in bounds between brackets is so outside. -/
theorem InBounds.of_bracketed {n : Int} {b : UInt8} (h : InBounds R s (d + 1) n) (hd : R.forbids (d + 1) = false) :
    InBounds R (b :: s) d n := by
  obtain ⟨h, h', h''⟩ := h
  refine ⟨by omega, ?_, fun L hL => ?_⟩
  · rw [List.length_cons]
    omega
  · have := R.le_of_forbids hd L hL
    have := h'' L hL
    omega

theorem Fits.of_bracketed {e : Event} {b : UInt8} (h : Fits R top s (d + 1) e) (hd : R.forbids (d + 1) = false) :
    Fits R top (b :: s) d e := by
  cases e with
  | value _ => trivial
  | opens _ _ => exact ⟨h.1, h.2.of_bracketed hd⟩
  | closes _ _ => exact InBounds.of_bracketed h hd
  | key _ _ _ => exact h
  | trailing _ =>
      obtain ⟨close, r, hc, hr, l, hl, h⟩ := h
      exact ⟨close, r, hc, hr, l, hl, h.trans (List.suffix_cons b s)⟩

/-! ## Scans that lead through the document -/

/-- A code that a scanner has a reason to report. -/
def Blames (R : Rules) (code : ErrorCode) : Prop :=
  (code = .tooMuchNesting → R.limit?.isSome) ∧ (code = .trailingComma → R.options.contains .trailingCommas = false)

/-- A run from `s` and `d` whose events have `P`, with the counter at `d'` if it succeeds. -/
structure Leads (R : Rules) (P : Event → Prop) (s : Bytes) (d d' : Int) (y : Run α) : Prop where
  path : Path P s d y.events y.stop y.depth
  depth : ∀ {x}, y.result = .ok x → y.depth = d'
  blames : ∀ {f}, y.result = .error f → Blames R f.code

theorem Leads.mono {y : Run α} (h : Leads R P s d d' y) (hPQ : ∀ {e}, P e → Q e) : Leads R Q s d d' y :=
  ⟨h.path.mono hPQ, h.depth, h.blames⟩

theorem Leads.of_suffix {y : Run α} (h : Leads R P s d d' y) (hs : s <:+ t) : Leads R P t d d' y :=
  ⟨h.path.of_suffix hs, h.depth, h.blames⟩

theorem Leads.andThen {y : Run α} {next : α → Scan β} (h : Leads R P s d d' y)
    (h' : ∀ {a r}, y.result = .ok (a, r) → r <:+ s → Leads R P r d' d'' (next a r d')) :
    Leads R P s d d'' (y.andThen next) := by
  obtain ⟨result, depth, events⟩ := y
  cases result with
  | error f =>
      have hf : Blames R f.code := h.blames rfl
      exact ⟨h.path, by rintro _ ⟨⟩, by rintro _ ⟨⟩; exact hf⟩
  | ok x =>
      obtain rfl : depth = d' := h.depth rfl
      have hn := h' rfl h.path.suffix
      exact ⟨h.path.append hn.path, hn.depth, hn.blames⟩

theorem blames_of_inToken {code : ErrorCode} (h : InToken code) : Blames R code := by
  rcases h with rfl | rfl | rfl <;> constructor <;> rintro ⟨⟩

theorem leads_ok {a : α} (h : t <:+ s) : Leads R P s d d ⟨.ok (a, t), d, []⟩ :=
  ⟨.stop h, fun _ => rfl, by rintro _ ⟨⟩⟩

theorem leads_error {f : Fault} (h : f.rest <:+ s) (hf : Blames R f.code) :
    Leads R P s d d' (⟨.error f, d, []⟩ : Run α) :=
  ⟨.stop h, by rintro _ ⟨⟩, by rintro _ ⟨⟩; exact hf⟩

theorem leads_read {o : Options} {N : UInt8 → Prop} {read : Bytes → Except Fault (α × Bytes)}
    (h : LocalAt o N read s) (hf : Fails InToken (read s)) : Leads R P s d d ⟨read s, d, []⟩ := by
  cases hx : read s with
  | ok x =>
      obtain ⟨p, hs, -⟩ := h.ok hx
      exact leads_ok ⟨p, hs.symm⟩
  | error f =>
      obtain ⟨p, hs, -⟩ := h.error hx
      exact leads_error ⟨p, hs.symm⟩ (blames_of_inToken (hf f hx))

theorem leads_layout : Leads R P s d d (skip layout s d) :=
  leads_read (local_layout (o := {}) s : LocalAt {} _ (skipping layout) s) (((fails_layout s).mono .inl).map _)

theorem leads_skipColon : Leads R P s d d (skip skipColon s d) :=
  leads_read (local_skipColon (o := {}) s : LocalAt {} _ (skipping skipColon) s) (((fails_skipColon s).mono .inl).map _)

/-! ## Items -/

variable {close : UInt8} {item : β → Scan β}

theorem leads_afterItem (hc : Closing close) (hP : ∀ {r}, TrailingAt close s r → P (.trailing (close :: r))) :
    Leads R P s d d (afterItem R close s d) := by
  cases afterItem_cases hc s with
  | same hx ho hR =>
      rw [hR, ← ho {}]
      rw [← ho {}] at hx
      exact leads_read (local_afterItem (o := {}) close s) (hx.mono .inl)
  | @trailing r h ho hR =>
      have hs : close :: r <:+ s := by
        obtain ⟨l, -, hs⟩ := h
        exact List.IsSuffix.trans ⟨comma :: l, by simp⟩ hs
      have path {t} (ht : t <:+ close :: r) : Path P s d [.trailing (close :: r)] t d :=
        .mark hs (hP h) rfl ht
      rw [hR, afterTrailing]
      split
      · exact ⟨path (List.suffix_cons close r), fun _ => rfl, by rintro _ ⟨⟩⟩
      · rename_i ho
        refine ⟨path List.suffix_rfl, by rintro _ ⟨⟩, ?_⟩
        rintro _ ⟨⟩
        exact ⟨by rintro ⟨⟩, fun _ => by simpa using ho⟩

theorem leads_items (hc : Closing close) (hP : ∀ {r}, TrailingAt close s r → P (.trailing (close :: r)))
    (hi : ∀ acc {r}, r <:+ s → Leads R P r d d (item acc r d)) (acc : β) :
    Leads R P s d d (items R close item acc s d) := by
  induction hn : s.length using Nat.strongRecOn generalizing s acc with | ind n ih =>
  have trailing {r t} (hr : r <:+ s) (h : TrailingAt close r t) : P (.trailing (close :: t)) := by
    obtain ⟨l, hl, h⟩ := h
    exact hP ⟨l, hl, h.trans hr⟩
  rw [items]
  refine (hi acc List.suffix_rfl).andThen fun {acc r} _ hr => ?_
  refine (leads_afterItem hc (trailing hr)).andThen fun {a t} _ ht => ?_
  cases a with
  | nothing => exact leads_ok List.suffix_rfl
  | item =>
      dsimp only
      split
      · rename_i hlt
        exact ih _ (hn ▸ hlt) (trailing (ht.trans hr)) (fun acc _ h => hi acc (h.trans (ht.trans hr))) acc rfl
      · exact leads_error List.suffix_rfl (blames_of_inToken (.inl rfl))

theorem leads_enclosed (hc : Closing close) (hP : ∀ {r}, TrailingAt close s r → P (.trailing (close :: r)))
    (hi : ∀ acc {r}, r <:+ s → Leads R P r d d (item acc r d)) (none : β) :
    Leads R P s d d (enclosed R close item none s d) := by
  refine leads_layout.andThen fun {_ r} _ hr => ?_
  have hitems : Leads R P r d d (items R close item none r d) :=
    leads_items hc (fun ⟨l, hl, h⟩ => hP ⟨l, hl, h.trans hr⟩) (fun acc _ h => hi acc (h.trans hr)) none
  cases r with
  | nil => exact hitems
  | cons b r =>
      by_cases hb : b = close
      · simpa [hb] using leads_ok (List.suffix_cons close r)
      · simpa [hb] using hitems

theorem Leads.opened {y : Run α} (h : Leads R P t (d + 1) d' y) (hP : P (.opens s (d + 1))) (hs : t <:+ s) :
    Leads R P s d d' (y.after [.opens s (d + 1)]) :=
  ⟨.step List.suffix_rfl hP (by rintro _ ⟨⟩; rfl) (h.path.of_suffix hs), h.depth, h.blames⟩

theorem leads_closed {a : α} (hP : P (.closes s d)) :
    Leads R P s (d + 1) d ⟨.ok (a, s), d + 1 - 1, [.closes s (d + 1 - 1)]⟩ := by
  have hd : d + 1 + Event.change (.closes s d) = d := by
    simp only [Event.change]
    omega
  rw [Int.add_sub_cancel]
  refine ⟨.step List.suffix_rfl hP ?_ (hd.symm ▸ .stop List.suffix_rfl), fun _ => rfl, by rintro _ ⟨⟩⟩
  rintro _ ⟨⟩
  exact hd.symm

theorem leads_bracketed (hc : Closing close) {b : UInt8} (hb : b = openBracket ∨ b = openBrace)
    (hi : ∀ acc {r}, r <:+ s → Leads R (Fits R top s (d + 1)) r (d + 1) (d + 1) (item acc r (d + 1))) (none : β) :
    Leads R (Fits R top (b :: s) d) (b :: s) d d (bracketed R close item none (b :: s) d) := by
  have hlen : (b :: s).length = s.length + 1 := rfl
  have hopen : Fits R top (b :: s) d (.opens (b :: s) (d + 1)) :=
    ⟨by simpa using hb, by omega, by omega, fun L _ => by omega⟩
  have hclose (r : Bytes) : Fits R top (b :: s) d (.closes r d) := ⟨by omega, by omega, fun L _ => by omega⟩
  cases hd : R.forbids (d + 1) with
  | true =>
      rw [bracketed_of_forbids hd]
      refine ⟨.step List.suffix_rfl hopen (by rintro _ ⟨⟩; rfl) (.stop List.suffix_rfl), by rintro _ ⟨⟩, ?_⟩
      rintro _ ⟨⟩
      exact ⟨fun _ => R.isSome_of_forbids hd, by rintro ⟨⟩⟩
  | false =>
      rw [bracketed_eq hd]
      have he : Leads R (Fits R top (b :: s) d) s (d + 1) (d + 1) (enclosed R close item none s (d + 1)) :=
        (leads_enclosed hc (fun h => ⟨close, _, hc, rfl, h⟩) hi none).mono fun h => h.of_bracketed hd
      exact (he.andThen fun _ ht => leads_closed (hclose _)).opened hopen (List.suffix_cons b s)

/-! ## Values -/

variable {inner : Scan Value}

theorem leads_element (hv : Leads R P s d d (inner s d)) (before : Elements) :
    Leads R P s d d (element inner before s d) :=
  hv.andThen fun _ _ => leads_ok List.suffix_rfl

theorem leads_key {object : Bytes} (ho : object.head? = some openBrace) (before : Members)
    (hs : s.length < object.length) : Leads R (Fits R object u d) s d d (key R object before s d) := by
  cases key_cases object before s with
  | fault hf hs ho hR =>
      rw [hR]
      exact leads_error hs (blames_of_inToken hf)
  | key hk hr _ hR =>
      rw [hR]
      split
      · exact leads_error List.suffix_rfl (blames_of_inToken (.inl rfl))
      · exact ⟨.mark List.suffix_rfl ⟨hk, hs, ho, List.suffix_rfl⟩ rfl hr, fun _ => rfl, by rintro _ ⟨⟩⟩

/-- The members of the object that opens in front of `s`. -/
theorem leads_member (hv : ∀ {r}, Leads R (Fits R r r d) r d d (inner r d)) (hs : t <:+ s) (before : Members) :
    Leads R (Fits R (openBrace :: s) s d) t d d (member R (openBrace :: s) inner before t d) := by
  refine (leads_key rfl before (Nat.lt_succ_of_le hs.length_le)).andThen fun {_ u} _ hu => ?_
  refine leads_skipColon.andThen fun {_ r} _ hr => ?_
  have hrs : r <:+ s := hr.trans (hu.trans hs)
  refine (hv.mono fun h => h.of_suffix hrs (hrs.trans (List.suffix_cons openBrace s))).andThen fun _ _ => ?_
  exact leads_ok List.suffix_rfl

theorem leads_scalar (o : Options) : Leads R P s d d ⟨scalar o s, d, []⟩ := by
  have word {w : Bytes} (hw : ∀ b ∈ w, Inline b) (v : Value) : Leads R P s d d ⟨Word.value w v s, d, []⟩ :=
    leads_read (local_wordValue (o := o) hw v s) ((fails_wordValue w v s).mono .inl)
  have fault {code : ErrorCode} (hc : InToken code) : Leads R P s d d (⟨.error ⟨code, s⟩, d, []⟩ : Run Value) :=
    leads_error List.suffix_rfl (blames_of_inToken hc)
  unfold scalar
  split
  · exact fault (.inl rfl)
  · rename_i b r
    split
    · exact (leads_read (local_string (o := o) r) (fails_string o r)).of_suffix (List.suffix_cons b r)
    · split
      · exact leads_read (local_number (o := o) _) ((fails_number o _).mono .inl)
      · split
        · exact word (inline_of_not_mem (by decide)) .null
        · split
          · exact word (inline_of_not_mem (by decide)) (.boolean true)
          · split
            · exact word (inline_of_not_mem (by decide)) (.boolean false)
            · exact fault (.inl rfl)

theorem leads_array (hv : ∀ {r d}, Leads R (Fits R r r d) r d d (inner r d)) :
    Leads R (Fits R (openBracket :: s) (openBracket :: s) d) (openBracket :: s) d d
      (array R inner (openBracket :: s) d) := by
  refine (leads_bracketed (.inl rfl) (.inl rfl) (fun before r hr => ?_) []).andThen fun _ _ => leads_ok List.suffix_rfl
  exact leads_element (hv.mono fun h => h.of_suffix hr (hr.trans (List.suffix_cons openBracket s))) before

theorem leads_object (hv : ∀ {r d}, Leads R (Fits R r r d) r d d (inner r d)) :
    Leads R (Fits R (openBrace :: s) (openBrace :: s) d) (openBrace :: s) d d (object R inner (openBrace :: s) d) := by
  rw [object, ahead_bind]
  refine (leads_bracketed (.inr rfl) (.inr rfl) (fun before r hr => ?_) []).andThen fun _ _ => leads_ok List.suffix_rfl
  exact leads_member hv hr before

theorem leads_node (hv : ∀ {r d}, Leads R (Fits R r r d) r d d (inner r d)) :
    Leads R (Fits R s s d) s d d (node R inner s d) := by
  have marked {y : Run Value} (h : Leads R (Fits R s s d) s d d y) :
      Leads R (Fits R s s d) s d d (y.after [.value s]) := by
    have path : Path (Fits R s s d) s d [.value s] s d := .mark List.suffix_rfl trivial rfl List.suffix_rfl
    exact ⟨path.append h.path, h.depth, h.blames⟩
  rw [node_eq]
  apply marked
  split
  · rename_i hb
    obtain ⟨r, rfl⟩ := List.head?_eq_some_iff.1 hb
    exact leads_array hv
  · split
    · rename_i hb
      obtain ⟨r, rfl⟩ := List.head?_eq_some_iff.1 hb
      exact leads_object hv
    · exact leads_scalar R.options

theorem leads_inside {n : Nat} (h : ∀ {s}, s.length < n → ∀ d, Leads R (Fits R s s d) s d d (value R s d)) (s : Bytes)
    (d : Int) : Leads R (Fits R s s d) s d d (inside R n s d) := by
  rw [inside]
  split
  · rename_i hlt
    exact h hlt d
  · exact leads_error List.suffix_rfl (blames_of_inToken (.inl rfl))

theorem leads_value (s : Bytes) (d : Int) : Leads R (Fits R s s d) s d d (value R s d) := by
  induction hn : s.length using Nat.strongRecOn generalizing s d with | ind n ih =>
  subst hn
  rw [value_eq]
  refine leads_layout.andThen fun {_ r} _ hr => ?_
  exact (leads_node (leads_inside (fun hlt d => ih _ hlt _ d rfl) _ _)).mono fun h => h.of_suffix hr hr

/-- A scan of a document leads through it, and closes all that it has opened if it succeeds. -/
theorem leads_scan (R : Rules) (s : Bytes) : Leads R (Fits R s s 0) s 0 0 (scan R s) := by
  refine (leads_value s 0).andThen fun {v r} _ hr => ?_
  refine leads_layout.andThen fun {_ t} _ ht => ?_
  cases t with
  | nil => exact leads_ok List.suffix_rfl
  | cons b t =>
      refine leads_error List.suffix_rfl ⟨by rintro ⟨⟩, by rintro ⟨⟩⟩

end JsonTree.Trail
