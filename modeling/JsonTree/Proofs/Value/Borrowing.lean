import JsonTree.Proofs.Grammar.Place
import JsonTree.Proofs.Options
import JsonTree.Proofs.Value.Storage

/-!
# Reading without leave to borrow

Without leave to borrow, a document is read as with it and the value detached. The two readings take the same steps:
whatever is read with leave, the reading without leave has detached.
-/

namespace JsonTree

namespace Document

open Byte

variable {α β γ : Type} {o o' : Options}

/-- The second reading gives what the first one does, changed by `f`. -/
def MapsTo (f : α → β) (x : Except Fault (α × Bytes)) (y : Except Fault (β × Bytes)) : Prop :=
  y = x.map (Prod.map f id)

namespace MapsTo

variable {f : α → β}

theorem error (e : Fault) : MapsTo f (.error e) (.error e) := rfl

theorem ok (a : α) (r : Bytes) : MapsTo f (.ok (a, r)) (.ok (f a, r)) := rfl

theorem map {γ δ : Type} {x : Except Fault (α × Bytes)} {y : Except Fault (β × Bytes)} {g : α → γ} {g' : β → δ}
    {f' : γ → δ} (h : MapsTo f x y) (hg : ∀ a, g' (f a) = f' (g a)) :
    MapsTo f' (x.map (Prod.map g id)) (y.map (Prod.map g' id)) := by
  rw [MapsTo] at h
  subst h
  cases x with
  | error e => rfl
  | ok p => simp [MapsTo, Except.map, Prod.map, hg]

theorem bind {γ δ : Type} {x : Except Fault (α × Bytes)} {y : Except Fault (β × Bytes)} {f' : γ → δ}
    {k : α × Bytes → Except Fault (γ × Bytes)} {k' : β × Bytes → Except Fault (δ × Bytes)} (h : MapsTo f x y)
    (hk : ∀ a r, x = .ok (a, r) → MapsTo f' (k (a, r)) (k' (f a, r))) : MapsTo f' (x >>= k) (y >>= k') := by
  rw [MapsTo] at h
  subst h
  cases x with
  | error e => rfl
  | ok p => exact hk p.1 p.2 rfl

/-- Both readings start with the same step. -/
theorem after {γ δ : Type} {f' : γ → δ} (x : Except Fault α) {k : α → Except Fault (γ × Bytes)}
    {k' : α → Except Fault (δ × Bytes)} (hk : ∀ a, x = .ok a → MapsTo f' (k a) (k' a)) :
    MapsTo f' (x >>= k) (x >>= k') := by
  cases x with
  | error e => rfl
  | ok a => exact hk a rfl

end MapsTo

/-! ## Items -/

theorem afterItem_congr (hc : o'.contains .trailingCommas = o.contains .trailingCommas) (close : UInt8) (s : Bytes) :
    afterItem o' close s = afterItem o close s := by
  simp only [afterItem, hc]

variable {item : β → Reader β} {item' : γ → Reader γ} {f : β → γ}

theorem mapsTo_items (hc : o'.contains .trailingCommas = o.contains .trailingCommas) (close : UInt8)
    (h : ∀ acc s, MapsTo f ((item acc).read s) ((item' (f acc)).read s)) (acc : β) (s : Bytes) :
    MapsTo f (items o close item acc s) (items o' close item' (f acc) s) := by
  induction hn : s.length using Nat.strongRecOn generalizing acc s with
  | ind n ih =>
      subst hn
      rw [Grammar.items_eq o, Grammar.items_eq o']
      apply (h acc s).bind
      intro acc' r hi
      dsimp only
      rw [afterItem_congr hc]
      apply MapsTo.after
      rintro ⟨a, r'⟩ ha
      cases a with
      | nothing => exact .ok acc' r'
      | item => exact ih _ (Nat.lt_trans (length_lt_of_afterItem ha) ((item acc).shorter hi)) acc' r' rfl

theorem mapsTo_bracketed (hc : o'.contains .trailingCommas = o.contains .trailingCommas) (close : UInt8)
    (h : ∀ acc s, MapsTo f ((item acc).read s) ((item' (f acc)).read s)) (none : β) (s : Bytes) :
    MapsTo f (bracketed o close item none s) (bracketed o' close item' (f none) s) := by
  apply MapsTo.after (layout s)
  intro r _
  cases r with
  | nil => exact mapsTo_items hc close h none []
  | cons b r =>
      dsimp only
      split
      · exact .ok none r
      · exact mapsTo_items hc close h none (b :: r)

/-! ## Values -/

open Value (detach detachElements detachMembers)

theorem detach_of_numberText {p : Bytes} {v : Value} (h : Grammar.NumberText o p v) : v.detach = v := by
  obtain ⟨m, rfl⟩ | ⟨d, rfl⟩ := h.cases_kind (Grammar.Meaning.numeric_own o) <;> rfl

theorem number_congr (hn : o'.contains .nonFinite = o.contains .nonFinite) (s : Bytes) : number o' s = number o s := by
  simp only [number, numberBy, hn, Grammar.admits_congr hn]

variable {value value' : Reader Value}

/-- Nothing but leave to borrow tells the options apart, and the second ones give none. -/
structure Withdraws (o o' : Options) : Prop where
  nonFinite : o'.contains .nonFinite = o.contains .nonFinite
  trailingCommas : o'.contains .trailingCommas = o.contains .trailingCommas
  uniqueKeys : o'.contains .uniqueKeys = o.contains .uniqueKeys
  borrowing : o'.contains .borrowing = false

theorem withdraws_disable (o : Options) : Withdraws o (o.disable .borrowing) where
  nonFinite := Options.contains_disable_of_ne (by decide) o
  trailingCommas := Options.contains_disable_of_ne (by decide) o
  uniqueKeys := Options.contains_disable_of_ne (by decide) o
  borrowing := Options.contains_disable_self o .borrowing

theorem Withdraws.stored (h : Withdraws o o') (t : Text) : Document.stored o' t = (Document.stored o t).detach := by
  have hb : Document.stored o' t = t.detach := if_neg (Bool.eq_false_iff.1 h.borrowing)
  rw [hb, Document.stored]
  split <;> rfl

theorem mapsTo_array (h : Withdraws o o') (hv : ∀ s, MapsTo detach (value.read s) (value'.read s)) (s : Bytes) :
    MapsTo detach (array o value s) (array o' value' s) := by
  have hitem (acc : Elements) (s : Bytes) : MapsTo (List.map detach) ((element value acc).read s)
      ((element value' (acc.map detach)).read s) := (hv s).map fun _ => rfl
  refine (mapsTo_bracketed h.trailingCommas closeBracket hitem [] s).map fun vs => ?_
  rw [detach, Value.detachElements_eq_map, List.map_reverse]

theorem mapsTo_member (h : Withdraws o o') (hv : ∀ s, MapsTo detach (value.read s) (value'.read s)) (before : Members)
    (s : Bytes) :
    MapsTo detachMembers ((member o value before).read s) ((member o' value' (detachMembers before)).read s) := by
  simp only [member, readMember, h.uniqueKeys, Value.contains_detachMembers]
  split
  · exact .error _
  · split
    · exact .error _
    · apply MapsTo.after
      rintro ⟨key, r⟩ _
      dsimp only
      split
      · exact .error _
      · apply MapsTo.after
        intro r _
        apply (hv r).bind
        intro v r _
        rw [← Value.detachMembers_insert]
        exact .ok _ r

theorem mapsTo_object (h : Withdraws o o') (hv : ∀ s, MapsTo detach (value.read s) (value'.read s)) (s : Bytes) :
    MapsTo detach (object o value s) (object o' value' s) :=
  (mapsTo_bracketed h.trailingCommas closeBrace (mapsTo_member h hv) [] s).map fun _ => rfl

theorem mapsTo_string (h : Withdraws o o') (s : Bytes) : MapsTo detach (string o s) (string o' s) := by
  rw [MapsTo, string, string]
  cases Literal.read s with
  | error e => rfl
  | ok p => simp [Except.map, Prod.map, detach, h.stored]

theorem mapsTo_number (h : Withdraws o o') (s : Bytes) : MapsTo detach (number o s) (number o' s) := by
  rw [number_congr h.nonFinite]
  cases hn : number o s with
  | error e => exact .error e
  | ok p =>
      obtain ⟨v, r⟩ := p
      obtain ⟨q, -, hq, -⟩ := Grammar.number_eq_ok_iff.1 hn
      have hok := MapsTo.ok (f := detach) v r
      rwa [detach_of_numberText hq] at hok

theorem mapsTo_word {v : Value} (hv : v.detach = v) (w s : Bytes) :
    MapsTo detach (Word.value w v s) (Word.value w v s) := by
  rw [MapsTo, Word.value]
  cases Word.skip w s with
  | error e => rfl
  | ok r => simp [Except.map, hv]

/-- The readers of bracketed values, if there are any. -/
def InnerMapsTo : Option (Reader Value) → Option (Reader Value) → Prop :=
  Option.Rel fun value value' => ∀ s, MapsTo detach (value.read s) (value'.read s)

theorem startsNumber_congr (hn : o'.contains .nonFinite = o.contains .nonFinite) (b : UInt8) :
    startsNumber o' b = startsNumber o b := by
  simp only [startsNumber, hn]

theorem mapsTo_readValue (h : Withdraws o o') {inner inner' : Option (Reader Value)} (hi : InnerMapsTo inner inner')
    (s : Bytes) : MapsTo detach (readValue o inner s) (readValue o' inner' s) := by
  simp only [readValue, readValueBy, startsNumber_congr h.nonFinite]
  apply MapsTo.after
  intro r _
  cases r with
  | nil => exact .error _
  | cons b r =>
      dsimp only
      split
      · cases hi with
        | none => exact .error _
        | some hv => exact mapsTo_array h hv r
      · split
        · cases hi with
          | none => exact .error _
          | some hv => exact mapsTo_object h hv r
        · split
          · exact mapsTo_string h r
          · split
            · exact mapsTo_number h (b :: r)
            · split
              · exact mapsTo_word rfl _ _
              · split
                · exact mapsTo_word rfl _ _
                · split
                  · exact mapsTo_word rfl _ _
                  · exact .error _

theorem mapsTo_value (h : Withdraws o o') (room : Nat) (s : Bytes) :
    MapsTo detach ((Document.value o room).read s) ((Document.value o' room).read s) := by
  induction room generalizing s with
  | zero => exact mapsTo_readValue h .none s
  | succ room ih => exact mapsTo_readValue h (.some ih) s

theorem read_disable_borrowing (o : Options) (s : Bytes) :
    read (o.disable .borrowing) s = (read o s).map detach := by
  have hv := mapsTo_value (withdraws_disable o) o.depthLimit.toNat s
  have hlimit : (o.disable .borrowing).depthLimit = o.depthLimit := rfl
  rw [MapsTo] at hv
  rw [read_eq, read_eq, hlimit, hv]
  cases (Document.value o o.depthLimit.toNat).read s with
  | error e => rfl
  | ok p =>
      simp only [bind, Except.bind, Except.map, Prod.map]
      cases hl : layout p.2 with
      | error e => simp [hl]
      | ok r =>
          simp only [id_eq, hl]
          split <;> rfl

end Document

namespace Grammar

open Byte Document Utf8

variable {o : Options} {room : Nat} {s q : Bytes} {t : Text}

/-! ## Literals -/

/-- A string is what a literal stands for, stored as the options say. -/
theorem ValueText.literalText (h : ValueText o room q (.string t)) : ∃ t', LiteralText q t' ∧ t = stored o t' := by
  have scalar {v} (h : ScalarText o q v) (hv : v = .string t) : ∃ t', LiteralText q t' ∧ t = stored o t' := by
    cases h with
    | null | truth | falsity => cases hv
    | number h => obtain ⟨m, rfl⟩ | ⟨d, rfl⟩ := h.cases_kind (Grammar.Meaning.numeric_own o) <;> cases hv
    | string ht =>
        cases hv
        exact ⟨_, ht, rfl⟩
  cases room with
  | zero => exact scalar h.scalar rfl
  | succ room =>
      rcases h.cases_succ with h | ⟨_, _, _, ⟨⟩, _⟩ | ⟨_, _, _, ⟨⟩, _⟩
      exact scalar h rfl

theorem ContentText.eq_of_not_mem {ds : Bytes} (h : ContentText s ds) (hs : backslash ∉ s) : s = ds := by
  cases h with
  | run _ => rfl
  | escape _ he _ => exact absurd (by simp [backslash_mem_escape he]) hs

theorem LiteralText.storage_eq_borrowed_iff (h : LiteralText q t) : t.storage = .borrowed ↔ backslash ∉ q := by
  obtain @⟨s, t, -⟩ := h
  have hq : quote ≠ backslash := by decide
  have hmem : backslash ∈ quote :: (s ++ [quote]) ↔ backslash ∈ s := by simp [hq.symm]
  rw [hmem]
  dsimp only
  split <;> simp_all

/-- A literal without backslashes has its text between its quotes. -/
theorem LiteralText.eq_of_not_mem (h : LiteralText q t) (hq : backslash ∉ q) :
    q = quote :: (encode t.content ++ [quote]) := by
  obtain @⟨s, t, hs⟩ := h
  rw [hs.eq_of_not_mem fun h => hq (by simp [h])]

end Grammar

namespace Value

open Byte Document Grammar Utf8

/-- Without leave to borrow, a document is read as with it, and its value is detached. -/
theorem parse_disable_borrowing (o : Options) (s : Bytes) :
    parse (o.disable .borrowing) s = (parse o s).map detach := by
  rw [parse, parse, Document.read_disable_borrowing]
  cases Document.read o s <;> rfl

/-- Two results of reading that are the same fault, or values that are equal. -/
inductive SameResult : Except ParseError Value → Except ParseError Value → Prop where
  | ok {v w : Value} (h : (v == w) = true) : SameResult (.ok v) (.ok w)
  | error (e : ParseError) : SameResult (.error e) (.error e)

theorem sameResult_of_map_detach {x y : Except ParseError Value} (h : x.map detach = y.map detach) :
    SameResult x y := by
  cases x with
  | error e =>
      cases y with
      | error e' =>
          cases h
          exact .error e
      | ok w => cases h
  | ok v =>
      cases y with
      | error e => cases h
      | ok w => exact .ok (same_of_detach_eq (Except.ok.inj h))

theorem sameResult_set_borrowing (o : Options) (on : Bool) (s : Bytes) :
    SameResult (parse (o.set .borrowing on) s) (parse o s) := by
  apply sameResult_of_map_detach
  rw [← parse_disable_borrowing, ← parse_disable_borrowing, Options.disable_set]

/-- Without leave to borrow, what is read has nothing to detach. -/
theorem detach_of_parse {o : Options} {s : Bytes} {v : Value} (hv : parse o s = .ok v)
    (ho : o.contains .borrowing = false) : v.detach = v := by
  have hd := parse_disable_borrowing o s
  rw [Options.disable_eq_self ho, hv] at hd
  exact (Except.ok.inj hd).symm

/-- Leave to borrow changes nothing that is seen in a result. With it, the strings that borrow are those whose literal
has no backslash, and their bytes are the bytes of the document between the quotes. Without it no string borrows, and
none does in a detached value, which is seen as the same. -/
theorem parse_set_borrowing (o : Options) (s : Bytes) :
    (∀ on, SameResult (parse (o.set .borrowing on) s) (parse o s)) ∧
    (∀ v, parse o s = .ok v → o.contains .borrowing = true → ∀ xs t, v.descend? xs = some (.string t) →
      (∃ q, DocumentPlace o xs s q) ∧ ∀ q, DocumentPlace o xs s q →
        q <:+: s ∧ LiteralText q t ∧ (t.storage = .borrowed ↔ backslash ∉ q) ∧
        (t.storage = .borrowed → q = quote :: (encode t.content ++ [quote]))) ∧
    (∀ v, parse o s = .ok v → o.contains .borrowing = false → ∀ x ∈ v.storages, x = .owned) ∧
    ∀ v : Value, (v.detach == v) = true ∧ v.detach.hashWords = v.hashWords ∧ v.detach.text = v.text ∧
      (∀ x ∈ v.detach.storages, x = .owned) ∧ v.detach.detach = v.detach := by
  refine ⟨fun on => sameResult_set_borrowing o on s, ?_, ?_, fun v => ?_⟩
  · intro v hv ho xs t ht
    refine ⟨exists_documentPlace hv ht, fun q hq => ?_⟩
    obtain ⟨room, w, hw, hqw⟩ := hq.descend? hv
    obtain rfl := Option.some.inj (ht.symm.trans hw)
    obtain ⟨t', hlit, rfl⟩ := hqw.literalText
    rw [Document.stored, if_pos ho]
    have hiff := hlit.storage_eq_borrowed_iff
    exact ⟨hq.isInfix, hlit, hiff, fun hb => hlit.eq_of_not_mem (hiff.1 hb)⟩
  · intro v hv ho
    rw [← detach_of_parse hv ho]
    exact eq_owned_of_mem_storages_detach v
  · exact ⟨same_detach v, hashWords_detach v, text_detach v, eq_owned_of_mem_storages_detach v, detach_detach v⟩

/-- An object with a key that comes twice, and an array at the second one. -/
def repeatedKey : Bytes :=
  Word.spell ['\x7b', '"', 'a', '"', ':', '"', 'x', '"', ',', '"', 'a', '"', ':', '[', '"', '\\', 't', '"', ',', '"',
    'y', '"', ']', '\x7d']

theorem parse_set_borrowing_repeatedKey :
    parse (Options.enable {} .borrowing) repeatedKey =
      .ok (.object [("a", .array [.string ⟨"\t", .owned⟩, .string ⟨"y", .borrowed⟩])]) ∧
    DocumentPlace (Options.enable {} .borrowing) [.member "a", .element 1] repeatedKey (Word.spell ['"', 'y', '"']) ∧
    ∃ q, DocumentPlace (Options.enable {} .borrowing) [.member "a", .element 0] repeatedKey q ∧ backslash ∈ q := by
  have hok : parse (Options.enable {} .borrowing) repeatedKey =
      .ok (.object [("a", .array [.string ⟨"\t", .owned⟩, .string ⟨"y", .borrowed⟩])]) := by with_unfolding_all rfl
  obtain ⟨-, hplaces, -, -⟩ := parse_set_borrowing (Options.enable {} .borrowing) repeatedKey
  refine ⟨hok, ?_, ?_⟩
  · obtain ⟨⟨q, hq⟩, hall⟩ := hplaces _ hok (by decide) [.member "a", .element 1] _ rfl
    have hqy := (hall q hq).2.2.2 rfl
    rw [hqy] at hq
    exact hq
  · obtain ⟨⟨q, hq⟩, hall⟩ := hplaces _ hok (by decide) [.member "a", .element 0] _ rfl
    refine ⟨q, hq, ?_⟩
    by_contra hn
    cases (hall q hq).2.2.1.2 hn

end Value

end JsonTree
