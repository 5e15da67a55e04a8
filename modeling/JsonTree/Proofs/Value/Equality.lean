import JsonTree.Elements.Basic
import JsonTree.Proofs.Number.Equality
import JsonTree.Proofs.Value.Storage

/-!
# Equality of values is lawful

Every value has a plain form: strings of its own, and for each double the bits that name its number. Values are equal
just if they have the same plain form, so equality is an equivalence. A hash is fed the words of the plain form, so it
is fed the same words for equal values. All that is asked of the doubles is that those are equal that count as the same
number, and that these feed a hash alike.
-/

namespace JsonTree

namespace Value

/-! ## Plain forms -/

mutual

/-- The value with what equality does not look at taken away. -/
def plain : Value → Value
  | .null => .null
  | .boolean b => .boolean b
  | .integer n => .integer n
  | .double d => .double ⟨d.key⟩
  | .string t => .string t.detach
  | .array vs => .array (plainElements vs)
  | .object ms => .object (plainMembers ms)

def plainElements : List Value → List Value
  | [] => []
  | v :: vs => v.plain :: plainElements vs

def plainMembers : List (String × Value) → List (String × Value)
  | [] => []
  | (k, v) :: ms => (k, v.plain) :: plainMembers ms

end

theorem kind_plain (v : Value) : v.plain.kind = v.kind := by cases v <;> rfl

theorem length_plainElements (vs : List Value) : (plainElements vs).length = vs.length := by
  induction vs with
  | nil => rfl
  | cons v vs ih => rw [plainElements, List.length_cons, List.length_cons, ih]

theorem length_plainMembers (ms : List (String × Value)) : (plainMembers ms).length = ms.length := by
  induction ms with
  | nil => rfl
  | cons m ms ih => rw [plainMembers, List.length_cons, List.length_cons, ih]

theorem detach_eq_detach_iff {t u : Text} : t.detach = u.detach ↔ t.content = u.content := by
  cases t
  cases u
  simp [Text.detach]

end Value

namespace DoubleEquality

/-- Doubles are equal just if they count as the same number, and then feed the same word to a hash. -/
structure Lawful (doubles : DoubleEquality) : Prop where
  same_iff {d e : Double} : doubles.same d e = true ↔ Double.SameNumber d e
  word_eq {d e : Double} (h : Double.SameNumber d e) : doubles.word d = doubles.word e

theorem lawful_byKey : byKey.Lawful where
  same_iff := by
    intro d e
    rw [byKey, beq_iff_eq, Double.key_eq_key_iff]
  word_eq h := h.key_eq

end DoubleEquality

namespace Value

section

/-! ## Equality by plain forms -/

variable {doubles : DoubleEquality}

mutual

/-- Values are equal just if they have the same plain form. -/
theorem sameBy_iff (hd : doubles.Lawful) : (v w : Value) → (v.sameBy doubles w = true ↔ v.plain = w.plain)
  | .array vs, w => by
      cases w with
      | array ws => rw [sameBy, plain, plain, array.injEq, sameElements_iff hd vs ws]
      | null | boolean _ | integer _ | double _ | string _ | object _ => simp [sameBy, plain]
  | .object ms, w => by
      cases w with
      | object ns => rw [sameBy, plain, plain, object.injEq, sameMembers_iff hd ms ns]
      | null | boolean _ | integer _ | double _ | string _ | array _ => simp [sameBy, plain]
  | .double d, w => by cases w <;> simp [sameBy, plain, hd.same_iff, Double.key_eq_key_iff]
  | .string t, w => by cases w <;> simp [sameBy, plain, detach_eq_detach_iff]
  | .null, w | .boolean _, w | .integer _, w => by cases w <;> simp [sameBy, plain]

theorem sameElements_iff (hd : doubles.Lawful) :
    (vs ws : List Value) → (sameElements doubles vs ws = true ↔ plainElements vs = plainElements ws)
  | [], [] => by simp [sameElements]
  | [], _ :: _ => by simp [sameElements, plainElements]
  | _ :: _, [] => by simp [sameElements, plainElements]
  | v :: vs, w :: ws => by
      rw [sameElements, plainElements, plainElements, Bool.and_eq_true, List.cons.injEq, sameBy_iff hd v w,
        sameElements_iff hd vs ws]

theorem sameMembers_iff (hd : doubles.Lawful) :
    (ms ns : List (String × Value)) → (sameMembers doubles ms ns = true ↔ plainMembers ms = plainMembers ns)
  | [], [] => by simp [sameMembers]
  | [], _ :: _ => by simp [sameMembers, plainMembers]
  | _ :: _, [] => by simp [sameMembers, plainMembers]
  | (k, v) :: ms, (l, w) :: ns => by
      rw [sameMembers, plainMembers, plainMembers, Bool.and_eq_true, Bool.and_eq_true, beq_iff_eq, List.cons.injEq,
        Prod.mk.injEq, sameBy_iff hd v w, sameMembers_iff hd ms ns]

end

mutual

/-- A hash is fed the words of the plain form. -/
theorem hashWordsBy_plain (hd : doubles.Lawful) : (v : Value) → v.plain.hashWordsBy doubles = v.hashWordsBy doubles
  | .null | .boolean _ | .integer _ | .string _ => rfl
  | .double d => by rw [plain, hashWordsBy, hashWordsBy, ← hd.word_eq (Double.sameNumber_key d)]
  | .array vs => by rw [plain, hashWordsBy, hashWordsBy, hashElements_plain hd vs, length_plainElements]
  | .object ms => by rw [plain, hashWordsBy, hashWordsBy, hashMembers_plain hd ms, length_plainMembers]

theorem hashElements_plain (hd : doubles.Lawful) :
    (vs : List Value) → hashElements doubles (plainElements vs) = hashElements doubles vs
  | [] => rfl
  | v :: vs => by rw [plainElements, hashElements, hashElements, hashWordsBy_plain hd v, hashElements_plain hd vs]

theorem hashMembers_plain (hd : doubles.Lawful) :
    (ms : List (String × Value)) → hashMembers doubles (plainMembers ms) = hashMembers doubles ms
  | [] => rfl
  | (k, v) :: ms => by rw [plainMembers, hashMembers, hashMembers, hashWordsBy_plain hd v, hashMembers_plain hd ms]

end

theorem beq_iff_plain_eq {v w : Value} : (v == w) = true ↔ v.plain = w.plain :=
  sameBy_iff DoubleEquality.lawful_byKey v w

variable (hd : doubles.Lawful)
include hd

theorem sameBy_symm (v w : Value) : v.sameBy doubles w = w.sameBy doubles v := by
  rw [Bool.eq_iff_iff, sameBy_iff hd, sameBy_iff hd, eq_comm]

theorem sameBy_of_kind_ne {v w : Value} (h : v.kind ≠ w.kind) : v.sameBy doubles w = false := by
  rw [← Bool.not_eq_true, sameBy_iff hd]
  intro he
  rw [← kind_plain v, he, kind_plain w] at h
  exact h rfl

theorem hashWordsBy_eq {v w : Value} (h : v.sameBy doubles w = true) :
    v.hashWordsBy doubles = w.hashWordsBy doubles := by
  rw [← hashWordsBy_plain hd v, (sameBy_iff hd v w).1 h, hashWordsBy_plain hd w]

theorem containsBy_iff {vs : Elements} {w : Value} :
    Elements.containsBy doubles vs w = true ↔ ∃ v ∈ vs, w.sameBy doubles v = true := by
  rw [Elements.containsBy, List.any_eq_true]
  simp only [sameBy_symm hd]

end

/-! ## Laws -/

/-- Equality is an equivalence that keeps the kinds apart. Doubles are equal if they count as the same number, strings
if their contents are. A hash is fed the same words for equal values, and an array contains what is equal to an
element. -/
structure EqualityLaws (same : Value → Value → Bool) (hashWords : Value → List HashWord)
    (contains : Elements → Value → Bool) : Prop where
  refl (a : Value) : same a a = true
  symm {a b : Value} (h : same a b = true) : same b a = true
  trans {a b c : Value} (h : same a b = true) (h' : same b c = true) : same a c = true
  kinds {a b : Value} (h : a.kind ≠ b.kind) : same a b = false
  hash {a b : Value} (h : same a b = true) : hashWords a = hashWords b
  doubles (d e : Double) : same (.double d) (.double e) = true ↔ Double.SameNumber d e
  strings (t u : Text) : same (.string t) (.string u) = true ↔ t.content = u.content
  elements (vs : Elements) (a : Value) : contains vs a = true ↔ ∃ v ∈ vs, same a v = true

theorem equalityLaws_by {doubles : DoubleEquality} (hd : doubles.Lawful) :
    EqualityLaws (sameBy doubles) (hashWordsBy doubles) (Elements.containsBy doubles) where
  refl a := (sameBy_iff hd a a).2 rfl
  symm h := sameBy_symm hd _ _ ▸ h
  trans h h' := (sameBy_iff hd _ _).2 (((sameBy_iff hd _ _).1 h).trans ((sameBy_iff hd _ _).1 h'))
  kinds := sameBy_of_kind_ne hd
  hash := hashWordsBy_eq hd
  doubles d e := by rw [sameBy, hd.same_iff]
  strings t u := by rw [sameBy, beq_iff_eq]
  elements _ _ := containsBy_iff hd

/-- The laws hold of equality, whichever lawful way doubles are compared. -/
theorem equality_laws :
    EqualityLaws (· == ·) hashWords Elements.contains ∧
    ∀ doubles : DoubleEquality, doubles.Lawful →
      EqualityLaws (sameBy doubles) (hashWordsBy doubles) (Elements.containsBy doubles) :=
  ⟨equalityLaws_by DoubleEquality.lawful_byKey, fun _ hd => equalityLaws_by hd⟩

/-- A NaN, a zero and a string, each of another make in the three arrays. -/
theorem equality_laws_nested :
    let a : Value := .array [.double ⟨0x7FF0000000000001⟩, .object [("k", .double ⟨0x8000000000000000⟩)],
      .string ⟨"x", .borrowed⟩]
    let b : Value := .array [.double .nan, .object [("k", .double ⟨0⟩)], .string ⟨"x", .owned⟩]
    let c : Value := .array [.double ⟨0xFFF8000000000000⟩, .object [("k", .double ⟨0⟩)], .string ⟨"x", .borrowed⟩]
    (b == a) = true ∧ (a == c) = true ∧ a.hashWords = b.hashWords ∧ Elements.contains [b, .null] a = true ∧
      (integer 1 == double (.ofInt 1)) = false := by
  intro a b c
  obtain ⟨laws, lawsBy⟩ := equality_laws
  have hab : (a == b) = true := by decide
  have hhash := (lawsBy .byKey DoubleEquality.lawful_byKey).hash hab
  exact ⟨laws.symm hab, laws.trans hab (by decide), hhash, (laws.elements _ a).2 ⟨b, by simp, hab⟩,
    laws.kinds (by decide)⟩

end Value

end JsonTree
