import JsonTree.Portable
import JsonTree.Proofs.Entries
import JsonTree.Proofs.Number.Nearest
import JsonTree.Value.Storage

/-!
# Exchange with the portable model

Going from one model to the other and back keeps the shape of a value, its keys and its strings. Each model has numbers
that the other has not: doubles that are not finite come back as `null`, and the integers between 2 ^ 63 and 2 ^ 64 come
back as floats.
-/

namespace JsonTree

/-! ## Other numbers -/

namespace Value

mutual

/-- The same value with other values in place of its numbers. -/
def mapNumbers (integer : Int64 → Value) (real : Double → Value) : Value → Value
  | .null => .null
  | .boolean b => .boolean b
  | .integer n => integer n
  | .double d => real d
  | .string t => .string t
  | .array vs => .array (mapNumbersOfElements integer real vs)
  | .object ms => .object (mapNumbersOfMembers integer real ms)

def mapNumbersOfElements (integer : Int64 → Value) (real : Double → Value) : List Value → List Value
  | [] => []
  | v :: vs => v.mapNumbers integer real :: mapNumbersOfElements integer real vs

def mapNumbersOfMembers (integer : Int64 → Value) (real : Double → Value) :
    List (String × Value) → List (String × Value)
  | [] => []
  | (k, v) :: ms => (k, v.mapNumbers integer real) :: mapNumbersOfMembers integer real ms

end

/-- A double as a value that others can read: `null` if it is not finite. -/
def finiteDouble (d : Double) : Value := if d.isFinite then .double d else .null

end Value

namespace Portable

mutual

/-- The members of every object in the tree are sorted by key. -/
def Canonical : Portable → Prop
  | .array ps => CanonicalElements ps
  | .object ms => Entries.Sorted ms ∧ CanonicalMembers ms
  | _ => True

def CanonicalElements : List Portable → Prop
  | [] => True
  | p :: ps => p.Canonical ∧ CanonicalElements ps

def CanonicalMembers : List (String × Portable) → Prop
  | [] => True
  | (_, p) :: ms => p.Canonical ∧ CanonicalMembers ms

end

theorem natAbs_le (n : PortableInt) : n.1.natAbs ≤ 2 ^ 64 := by
  have h := n.2
  omega

/-- The float for an integer. -/
def floatOfInt (n : PortableInt) : PortableDouble := ⟨.ofInt n, Double.isFinite_ofInt (natAbs_le n)⟩

mutual

/-- The same value with floats for the integers that do not fit 64 bits with a sign. -/
def narrow : Portable → Portable
  | .null => .null
  | .boolean b => .boolean b
  | .integer n => if 2 ^ 63 ≤ n.1 then .float (floatOfInt n) else .integer n
  | .float d => .float d
  | .string s => .string s
  | .array ps => .array (narrowElements ps)
  | .object ms => .object (narrowMembers ms)

def narrowElements : List Portable → List Portable
  | [] => []
  | p :: ps => p.narrow :: narrowElements ps

def narrowMembers : List (String × Portable) → List (String × Portable)
  | [] => []
  | (k, p) :: ms => (k, p.narrow) :: narrowMembers ms

end

end Portable

namespace Value

/-! ## Members -/

theorem membersToPortable_eq (es : Entries Portable) (ms : List (String × Value)) :
    membersToPortable es ms =
      (ms.map fun m => (m.1, m.2.toPortable)).foldl (fun es p => Entries.insert p.1 p.2 es) es := by
  induction ms generalizing es with
  | nil => rfl
  | cons m ms ih => rw [membersToPortable, ih, List.map_cons, List.foldl_cons]

theorem membersOfPortable_eq (es : Entries Value) (ps : List (String × Portable)) :
    membersOfPortable es ps =
      (ps.map fun p => (p.1, ofPortable p.2)).foldl (fun es p => Entries.insert p.1 p.2 es) es := by
  induction ps generalizing es with
  | nil => rfl
  | cons p ps ih => rw [membersOfPortable, ih, List.map_cons, List.foldl_cons]

/-- Sorted members are converted one by one. -/
theorem membersToPortable_of_sorted {ms : List (String × Value)} (h : Entries.Sorted ms) :
    membersToPortable [] ms = ms.map fun m => (m.1, m.2.toPortable) := by
  rw [membersToPortable_eq]
  exact Entries.ofList_of_sorted (h.mapValues toPortable)

theorem membersOfPortable_of_sorted {ps : List (String × Portable)} (h : Entries.Sorted ps) :
    membersOfPortable [] ps = ps.map fun p => (p.1, ofPortable p.2) := by
  rw [membersOfPortable_eq]
  exact Entries.ofList_of_sorted (h.mapValues ofPortable)

/-! ## Numbers -/

theorem int64_contains_iff {n : Int} : (IntType.mk true 64).contains n = true ↔ -2 ^ 63 ≤ n ∧ n < 2 ^ 63 := by
  have hleast : (IntType.mk true 64).least = -2 ^ 63 := rfl
  have hgreatest : (IntType.mk true 64).greatest = 2 ^ 63 - 1 := rfl
  rw [IntType.contains, hleast, hgreatest, Bool.and_eq_true, decide_eq_true_eq, decide_eq_true_eq]
  omega

theorem ofInt_toInt (n : Int64) : ofInt n.toInt = .integer n := by
  rw [ofInt, if_pos (int64_contains_iff.2 ⟨n.le_toInt, n.toInt_lt⟩), Int64.ofInt_toInt]

theorem ofPortable_portableDouble (d : Double) : ofPortable (portableDouble d) = finiteDouble d := by
  rw [portableDouble, finiteDouble]
  split <;> rfl

theorem portableDouble_of_isFinite (d : PortableDouble) : portableDouble d = .float d := dif_pos d.2

theorem toPortable_ofInt (n : PortableInt) :
    (ofInt n).toPortable = if 2 ^ 63 ≤ n.1 then .float (Portable.floatOfInt n) else .integer n := by
  have hleast := n.2.1
  rw [ofInt]
  by_cases h : 2 ^ 63 ≤ n.1
  · rw [if_neg (fun hc => absurd (int64_contains_iff.1 hc).2 (by omega)), if_pos h]
    exact portableDouble_of_isFinite (Portable.floatOfInt n)
  · have hn : (Int64.ofInt n).toInt = n := Int64.toInt_ofInt_of_le hleast (by omega)
    rw [if_pos (int64_contains_iff.2 ⟨hleast, by omega⟩), if_neg h, toPortable]
    exact congrArg Portable.integer (Subtype.ext hn)

/-! ## There and back -/

mutual

theorem ofPortable_toPortable : (v : Value) → v.Canonical →
    ofPortable v.toPortable = (v.mapNumbers .integer finiteDouble).detach
  | .null, _ | .boolean _, _ | .string _, _ => rfl
  | .integer n, _ => ofInt_toInt n
  | .double d, _ => by
      rw [toPortable, ofPortable_portableDouble, mapNumbers, finiteDouble]
      split <;> rfl
  | .array vs, h => by
      rw [toPortable, ofPortable, mapNumbers, detach, elementsOfPortable_elementsToPortable vs h]
  | .object ms, ⟨hs, h⟩ => by
      rw [toPortable, ofPortable, mapNumbers, detach, membersToPortable_of_sorted hs,
        membersOfPortable_of_sorted (hs.mapValues toPortable), List.map_map, ← map_ofPortable_toPortable ms h]
      rfl

theorem elementsOfPortable_elementsToPortable : (vs : List Value) → CanonicalElements vs →
    elementsOfPortable (elementsToPortable vs) = detachElements (mapNumbersOfElements .integer finiteDouble vs)
  | [], _ => rfl
  | v :: vs, ⟨hv, hvs⟩ => by
      rw [elementsToPortable, elementsOfPortable, mapNumbersOfElements, detachElements, ofPortable_toPortable v hv,
        elementsOfPortable_elementsToPortable vs hvs]

theorem map_ofPortable_toPortable : (ms : List (String × Value)) → CanonicalMembers ms →
    (ms.map fun m => (m.1, ofPortable m.2.toPortable)) = detachMembers (mapNumbersOfMembers .integer finiteDouble ms)
  | [], _ => rfl
  | (k, v) :: ms, ⟨hv, hms⟩ => by
      rw [List.map_cons, mapNumbersOfMembers, detachMembers, ofPortable_toPortable v hv,
        map_ofPortable_toPortable ms hms]

end

mutual

theorem toPortable_ofPortable : (p : Portable) → p.Canonical → (ofPortable p).toPortable = p.narrow
  | .null, _ | .boolean _, _ | .string _, _ => rfl
  | .integer n, _ => toPortable_ofInt n
  | .float d, _ => portableDouble_of_isFinite d
  | .array ps, h => by
      rw [ofPortable, toPortable, Portable.narrow, elementsToPortable_elementsOfPortable ps h]
  | .object ps, ⟨hs, h⟩ => by
      rw [ofPortable, toPortable, Portable.narrow, membersOfPortable_of_sorted hs,
        membersToPortable_of_sorted (hs.mapValues ofPortable), List.map_map, ← map_toPortable_ofPortable ps h]
      rfl

theorem elementsToPortable_elementsOfPortable : (ps : List Portable) → Portable.CanonicalElements ps →
    elementsToPortable (elementsOfPortable ps) = Portable.narrowElements ps
  | [], _ => rfl
  | p :: ps, ⟨hp, hps⟩ => by
      rw [elementsOfPortable, elementsToPortable, Portable.narrowElements, toPortable_ofPortable p hp,
        elementsToPortable_elementsOfPortable ps hps]

theorem map_toPortable_ofPortable : (ps : List (String × Portable)) → Portable.CanonicalMembers ps →
    (ps.map fun p => (p.1, (ofPortable p.2).toPortable)) = Portable.narrowMembers ps
  | [], _ => rfl
  | (k, p) :: ps, ⟨hp, hps⟩ => by
      rw [List.map_cons, Portable.narrowMembers, toPortable_ofPortable p hp, map_toPortable_ofPortable ps hps]

end

end Value

/-- A value that goes to the portable model and back keeps all but its doubles that are not finite, which become `null`,
and the storage of its strings. A portable value that goes the other way keeps all but its integers of 2 ^ 63 and more,
for which it has the nearest floats. -/
theorem portable_exchange :
    (∀ v : Value, v.Canonical →
      Value.ofPortable v.toPortable = (v.mapNumbers .integer Value.finiteDouble).detach) ∧
    (∀ p : Portable, p.Canonical → (Value.ofPortable p).toPortable = p.narrow) ∧
    ∀ n : PortableInt, (Portable.floatOfInt n).1.Nearest n.1 :=
  ⟨Value.ofPortable_toPortable, Value.toPortable_ofPortable, fun n => Double.nearest_ofInt (Portable.natAbs_le n)⟩

/-- Numbers of one model that the other has not, inside of arrays and objects. -/
theorem portable_exchange_narrow :
    let v (nan : Value) (storage : Storage) : Value := .object [("k", .array [nan, .double ⟨0x8000000000000000⟩,
      .integer (-9223372036854775808), .string ⟨"x", storage⟩])]
    let p (n : Portable) : Portable := .array [n, .object [("k", .integer ⟨0x7FFFFFFFFFFFFFFF, by decide⟩)]]
    Value.ofPortable (v (.double .nan) .borrowed).toPortable = v .null .owned ∧
      (Value.ofPortable (p (.integer ⟨0xFFFFFFFFFFFFFFFF, by decide⟩))).toPortable =
        p (.float ⟨⟨0x43F0000000000000⟩, by decide⟩) := by
  intro v p
  obtain ⟨hv, hp, -⟩ := portable_exchange
  refine ⟨?_, ?_⟩
  · rw [hv _ (by simp [v, Value.Canonical, Value.CanonicalMembers, Value.CanonicalElements, Entries.Sorted])]
    rfl
  · rw [hp _ (by simp [p, Portable.Canonical, Portable.CanonicalMembers, Portable.CanonicalElements, Entries.Sorted])]
    rfl

end JsonTree
