import JsonTree.Proofs.Grammar.Document
import JsonTree.Proofs.Grammar.Region
import JsonTree.Proofs.Options

/-!
# The nesting of a document

The nesting of a document counts brackets outside string literals and comments: it is how many are open at once. A
document of the grammar is one under any limit that is not below its nesting, and under no other.
-/

namespace JsonTree.Grammar

open Byte Document

variable {α : Type} {o o' : Options} {q q' : Region} {b c : UInt8} {d m n room : Nat} {p p' r s : Bytes}

/-! ## Counting brackets -/

/-- How many brackets are open behind `b` if `d` are in front of it. -/
def openBehind (q : Region) (d : Nat) (b : UInt8) : Nat :=
  if q = .code then (if isOpening b then d + 1 else if isClosing b then d - 1 else d) else d

/-- How many brackets are open at most in a text that starts in some region behind `d` open brackets. -/
def deepest : Region → Nat → Bytes → Nat
  | _, d, [] => d
  | q, d, b :: s => max d (deepest (q.next b) (openBehind q d b) s)

/-- How many brackets of a document are open at once, at most. -/
def nesting (s : Bytes) : Nat := deepest .code 0 s

theorem le_deepest (q : Region) (d : Nat) (s : Bytes) : d ≤ deepest q d s := by
  cases s with
  | nil => exact Nat.le_refl d
  | cons b s => exact Nat.le_max_left _ _

/-- What has no marks outside string literals and comments does not count. -/
theorem Passes.deepest_append (h : Passes q s q') (d : Nat) (r : Bytes) :
    deepest q d (s ++ r) = deepest q' d r := by
  induction h with
  | nil => rfl
  | @cons q _ b s hb _ ih =>
      have hd : openBehind q d b = d := by
        rw [openBehind]
        split
        · rename_i hq
          have hm := hb hq
          simp only [isMark, Bool.or_eq_false_iff] at hm
          simp [hm]
        · rfl
      rw [List.cons_append, deepest, hd, ih, Nat.max_eq_right (le_deepest _ _ _)]

/-- A text that closes all that it opens, with `n` brackets open at once. -/
def Deep (p : Bytes) (n : Nat) : Prop := ∀ d r, deepest .code d (p ++ r) = max (d + n) (deepest .code d r)

theorem Passes.deep (h : Passes .code p .code) : Deep p 0 := fun d r => by
  rw [h.deepest_append, Nat.add_zero, Nat.max_eq_right (le_deepest _ _ _)]

theorem Deep.append (h : Deep p n) (h' : Deep p' m) : Deep (p ++ p') (max n m) := fun d r => by
  rw [List.append_assoc, h, h', ← Nat.max_assoc, Nat.add_max_add_left]

theorem Deep.bracketed (hb : isOpening b = true) (hc : Closing c) (h : Deep p n) : Deep (b :: (p ++ [c])) (n + 1) := by
  have hc' : isClosing c = true := isClosing_iff.2 hc
  have hbq : Region.next .code b = .code := next_of_isMark (by simp [isMark, hb])
  have hcq : Region.next .code c = .code := next_of_isMark (by simp [isMark, hc'])
  intro d r
  have hopen : openBehind .code d b = d + 1 := by simp [openBehind, hb]
  have hclose : openBehind .code (d + 1) c = d := by simp [openBehind, isOpening_of_closing hc, hc']
  have hle := le_deepest .code d r
  rw [List.cons_append, deepest, hbq, hopen, List.append_assoc, h, List.singleton_append, deepest, hcq, hclose]
  omega

/-! ## Texts with room for their brackets -/

/-- A text has room for its brackets, and `Q` is what holds of it with any room that is enough. -/
def Fit (room : Nat) (p : Bytes) (Q : Nat → Prop) : Prop := ∃ n ≤ room, Deep p n ∧ ∀ m, n ≤ m → Q m

variable {Q Q' : Nat → Prop}

/-- What opens nothing needs no room. -/
theorem Fit.of_deep (h : Deep p 0) (hQ : ∀ m, Q m) : Fit room p Q := ⟨0, Nat.zero_le _, h, fun m _ => hQ m⟩

theorem Fit.append (h : Fit room p Q) (h' : Fit room p' Q') : Fit room (p ++ p') fun m => Q m ∧ Q' m := by
  obtain ⟨n, hn, hp, hQ⟩ := h
  obtain ⟨n', hn', hp', hQ'⟩ := h'
  exact ⟨max n n', Nat.max_le.2 ⟨hn, hn'⟩, hp.append hp', fun m hm =>
    ⟨hQ m (Nat.le_trans (Nat.le_max_left _ _) hm), hQ' m (Nat.le_trans (Nat.le_max_right _ _) hm)⟩⟩

theorem Fit.mono (h : Fit room p Q) (hQ : ∀ {m}, Q m → Q' m) : Fit room p Q' := by
  obtain ⟨n, hn, hp, h⟩ := h
  exact ⟨n, hn, hp, fun m hm => hQ (h m hm)⟩

theorem Fit.append_left (h : Fit room p' Q) (hp : Deep p 0) : Fit room (p ++ p') Q :=
  ((Fit.of_deep (Q := fun _ => True) hp fun _ => trivial).append h).mono And.right

theorem Fit.append_right (h : Fit room p Q) (hp : Deep p' 0) : Fit room (p ++ p') Q :=
  (h.append (.of_deep (Q := fun _ => True) hp fun _ => trivial)).mono And.left

theorem deep_comma : Deep [comma] 0 := fun d r => by
  have hle := le_deepest .code d r
  show max d (deepest .code d r) = _
  rfl

/-- A comma with layout around it. -/
theorem deep_separator {l l' : Bytes} (hl : LayoutText l) (hl' : LayoutText l') : Deep (l ++ comma :: l') 0 :=
  hl.passes.deep.append (deep_comma.append hl'.passes.deep)

/-! ## Items -/

theorem ItemsText.fit {P : Bytes → α → Prop} {P' : Nat → Bytes → α → Prop} {as : List α}
    (ho : ∀ f, o'.contains f = o.contains f) (hP : ∀ {p a}, P p a → Fit room p fun m => P' m p a)
    (h : ItemsText o P s as) : Fit room s fun m => ItemsText o' (P' m) s as := by
  induction h with
  | last hp hl => exact ((hP hp).append_right hl.passes.deep).mono fun h => .last h hl
  | trailing htr hp hl hl' =>
      exact ((hP hp).append_right (deep_separator hl hl')).mono fun h => .trailing ((ho _).trans htr) h hl hl'
  | @cons p l l' s a as hp hl hl' _ ih =>
      have h := (hP hp).append (ih.append_left (deep_separator hl hl'))
      rw [List.append_assoc, List.cons_append] at h
      exact h.mono fun h => .cons h.1 hl hl' h.2

theorem EnclosedText.fit {P : Bytes → α → Prop} {P' : Nat → Bytes → α → Prop} {as : List α}
    (ho : ∀ f, o'.contains f = o.contains f) (hP : ∀ {p a}, P p a → Fit room p fun m => P' m p a)
    (h : EnclosedText o P s as) : Fit room s fun m => EnclosedText o' (P' m) s as := by
  cases h with
  | none hl => exact .of_deep hl.passes.deep fun _ => .none hl
  | items hl hs => exact ((hs.fit ho hP).append_left hl.passes.deep).mono fun h => .items hl h

theorem MemberText.fit {V : Bytes → Value → Prop} {V' : Nat → Bytes → Value → Prop} {a : String × Value}
    (hV : ∀ {p v}, V p v → Fit room p fun m => V' m p v) (h : MemberText V s a) :
    Fit room s fun m => MemberText (V' m) s a := by
  obtain @⟨k, t, l, l', p, v, hk, hl, hl', hv⟩ := h
  have hcolon : Passes .code [colon] .code := .cons (fun _ => rfl) .nil
  have hkey := hk.passes.deep.append (hl.passes.deep.append (hcolon.deep.append hl'.passes.deep))
  have h := (hV hv).append_left hkey
  simp only [List.append_assoc, List.cons_append, List.nil_append] at h
  exact h.mono fun h => .mk hk hl hl' h

/-! ## Values -/

theorem Fit.bracketed (hb : isOpening b = true) (hc : Closing c) (h : Fit room p Q) (hQ : ∀ {m}, Q m → Q' (m + 1)) :
    Fit (room + 1) (b :: (p ++ [c])) Q' := by
  obtain ⟨n, hn, hp, h⟩ := h
  refine ⟨n + 1, Nat.succ_le_succ hn, hp.bracketed hb hc, fun m hm => ?_⟩
  cases m with
  | zero => cases hm
  | succ m => exact hQ (h m (Nat.le_of_succ_le_succ hm))

theorem ValueText.fit (ho : ∀ f, o'.contains f = o.contains f) {v : Value} (h : ValueText o room s v) :
    Fit room s fun m => ValueText o' m s v := by
  have scalar {room : Nat} {s : Bytes} {v : Value} (h : ScalarText o s v) : Fit room s fun m => ValueText o' m s v :=
    .of_deep h.passes.deep (h.congr (ho _) (ho _)).value
  induction room generalizing s v with
  | zero => exact scalar h.scalar
  | succ room ih =>
      rcases h.cases_succ with hs | ⟨p, vs, rfl, rfl, he⟩ | ⟨p, ms, rfl, rfl, he, hk⟩
      · exact scalar hs
      · exact (he.fit ho ih).bracketed rfl (.inl rfl) fun h => .array rfl h
      · exact (he.fit ho (MemberText.fit ih)).bracketed rfl (.inr rfl) fun h =>
          .object rfl h fun hu => hk ((ho _).symm.trans hu)

/-! ## Documents -/

theorem EndLayout.deepest_eq {l : Bytes} (h : EndLayout l) (d : Nat) : deepest .code d l = d := by
  obtain ⟨q, hq⟩ := h.passes
  simpa [deepest] using hq.deepest_append d []

/-- A document has no more nesting than its limit, and the limit may be any that is not below the nesting. -/
theorem DocumentText.nesting_le {v : Value} (h : DocumentText o s v) :
    nesting s ≤ o.depthLimit.toNat ∧
    ∀ L : Int, nesting s ≤ L.toNat → DocumentText (o.withDepthLimit L) s v := by
  obtain @⟨l, p, v, l', hl, hp, hl'⟩ := h
  have hfit {o' : Options} (ho : ∀ f, o'.contains f = o.contains f) :
      nesting (l ++ (p ++ l')) ≤ o.depthLimit.toNat ∧ ∀ m, nesting (l ++ (p ++ l')) ≤ m → ValueText o' m p v := by
    obtain ⟨n, hn, hdeep, hv⟩ := ValueText.fit ho hp
    have hnesting : nesting (l ++ (p ++ l')) = n := by
      rw [nesting, hl.passes.deepest_append, hdeep, hl'.deepest_eq]
      omega
    exact ⟨hnesting ▸ hn, hnesting ▸ hv⟩
  refine ⟨(hfit fun _ => rfl).1, fun L hL => ?_⟩
  have hv := (hfit (Options.contains_withDepthLimit o L)).2 L.toNat hL
  exact .mk hl hv hl'

end JsonTree.Grammar
