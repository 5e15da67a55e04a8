import JsonTree.Elements.Basic
import Mathlib.Algebra.Group.Nat.Defs

/-!
# Laws of arrays

What storing and removing do to the places of an array. The operations are also given as calls, which count in machine
words, need memory, and may stop and leave the array as it is then. A call does what the operation does, and stops where
the operation fails.
-/

namespace JsonTree

namespace Elements

variable {vs : Elements} {i j n : Nat} {v w : Value}

/-! ## Storing -/

theorem length_store (vs : Elements) (i : Nat) (v : Value) : (store vs i v).length = max vs.length (i + 1) := by
  rw [store]
  split <;> simp <;> omega

/-- A place has the value, or what it had, or a null if it is one in between. -/
theorem get?_store (vs : Elements) (i : Nat) (v : Value) (k : Nat) : get? (store vs i v) k =
    if k = i then some v else if k < vs.length then get? vs k else if k < i then some .null else none := by
  unfold get? store
  split
  · rename_i hi
    rw [List.getElem?_set]
    by_cases hk : k = i
    · simp [hk, hi]
    · by_cases hlt : k < vs.length
      · simp [hk, Ne.symm hk, hlt]
      · have hki : ¬ k < i := by omega
        simp [hk, Ne.symm hk, hlt, hki]
  · rename_i hi
    simp only [List.getElem?_append, List.length_append, List.length_replicate, List.getElem?_replicate]
    grind

theorem store_comm (vs : Elements) (v w : Value) (h : i ≠ j) :
    store (store vs i v) j w = store (store vs j w) i v := by
  apply List.ext_getElem?
  intro k
  change get? _ k = get? _ k
  rw [get?_store, get?_store, get?_store, get?_store, length_store, length_store]
  grind

/-! ## Removing -/

theorem removeAt_of_lt (h : i < vs.length) : removeAt vs i = .ok (vs[i], vs.take i ++ vs.drop (i + 1)) := by
  simp [removeAt, get, get?, require, h, List.eraseIdx_eq_take_drop_succ, Except.map]

theorem removeAt_of_le (h : vs.length ≤ i) : removeAt vs i = .error (.indexOutOfRange i vs.length) := by
  simp [removeAt, get, get?, require, h, Except.map]

end Elements

/-! ## Calls -/

/-- What stops a call. -/
inductive ArrayStop where
  | violation (v : Violation)
  /-- A number that no word holds. -/
  | overflow
  /-- Places that the array does not have. -/
  | outOfBounds
  /-- More elements than there is memory for. -/
  | outOfMemory

/-- A call on an array. Where it stops, the array stays as it is. -/
abbrev ArrayCall := EStateM ArrayStop Elements

namespace ArrayCall

open Elements (greatestIndex)

variable {room : Nat} {vs : Elements} {i j n : UInt64} {v w : Value}

/-! ### Words -/

def addSaturating (a b : UInt64) : UInt64 := if a.toNat + b.toNat ≤ greatestIndex then a + b else .ofNat greatestIndex

def subSaturating (a b : UInt64) : UInt64 := if b ≤ a then a - b else 0

def add (a b : UInt64) : ArrayCall UInt64 := if a.toNat + b.toNat ≤ greatestIndex then pure (a + b) else throw .overflow

def sub (a b : UInt64) : ArrayCall UInt64 := if b ≤ a then pure (a - b) else throw .overflow

theorem toNat_addSaturating (a b : UInt64) : (addSaturating a b).toNat = min (a.toNat + b.toNat) greatestIndex := by
  unfold addSaturating
  split
  · rename_i h
    rw [UInt64.toNat_add, Nat.min_eq_left h]
    exact Nat.mod_eq_of_lt (Nat.lt_succ_of_le h)
  · rename_i h
    rw [Nat.min_eq_right (by omega)]
    rfl

theorem toNat_subSaturating (a b : UInt64) : (subSaturating a b).toNat = a.toNat - b.toNat := by
  unfold subSaturating
  split
  · rename_i h
    rw [UInt64.toNat_sub_of_le _ _ h]
  · rename_i h
    rw [UInt64.le_iff_toNat_le] at h
    rw [Nat.sub_eq_zero_of_le (by omega)]
    rfl

/-! ### Elements -/

def length : ArrayCall UInt64 := do return .ofNat (← get).length

/-- Puts a value in the place of another. -/
def assign (i : UInt64) (v : Value) : ArrayCall Unit := do
  if i.toNat < (← get).length then modify fun vs => vs.set i.toNat v else throw .outOfBounds

/-- Makes sure that there is memory for so many elements more. -/
def reserve (room : Nat) (n : UInt64) : ArrayCall Unit := do
  if (← get).length + n.toNat ≤ room then pure () else throw .outOfMemory

/-- Adds copies of a value up to a length, or takes away what is behind it. -/
def resize (room : Nat) (n : UInt64) (v : Value) : ArrayCall Unit := do
  let len ← length
  if n ≤ len then modify fun vs => vs.take n.toNat
  else do
    reserve room (n - len)
    modify fun vs => vs ++ List.replicate (n - len).toNat v

def push (room : Nat) (v : Value) : ArrayCall Unit := do
  reserve room 1
  modify fun vs => vs ++ [v]

/-- Takes out the element at a place. -/
def take (i : UInt64) : ArrayCall Value := do
  match (← get)[i.toNat]? with
  | some v => do
      modify fun vs => vs.eraseIdx i.toNat
      return v
  | none => throw .outOfBounds

/-- Takes out the elements from one place to another. -/
def drain (start stop : UInt64) : ArrayCall Unit := do
  if start ≤ stop ∧ stop.toNat ≤ (← get).length then modify fun vs => vs.take start.toNat ++ vs.drop stop.toNat
  else throw .outOfBounds

/-! ### Operations -/

/-- Makes the array longer with nulls up to a place behind its end. -/
def fillTo (room : Nat) (i : UInt64) : ArrayCall Unit := do
  let n ← add i 1
  let extra ← sub n (← length)
  reserve room extra
  resize room i .null

def store (room : Nat) (i : UInt64) (v : Value) : ArrayCall Unit := do
  let len ← length
  if i < len then assign i v
  else do
    if len < i then fillTo room i
    push room v

def removeAt (i : UInt64) : ArrayCall Value := do
  let len ← length
  if len ≤ i then throw (.violation (.indexOutOfRange i.toNat len.toNat)) else take i

def removeRange (i n : UInt64) : ArrayCall Unit := do
  let stop := addSaturating i n
  let len ← length
  if len < stop then throw (.violation (.indexOutOfRange (subSaturating stop 1).toNat len.toNat)) else drain i stop

/-- Removes the element at a place, so many times. -/
def removeEach (i : UInt64) : Nat → ArrayCall Unit
  | 0 => pure ()
  | n + 1 => do
      let _ ← removeAt i
      removeEach i n

/-! ### Runs -/

theorem toNat_length (h : vs.length < 2 ^ 63) : (UInt64.ofNat vs.length).toNat = vs.length :=
  UInt64.toNat_ofNat_of_lt (Nat.lt_trans h (by decide))

theorem toNat_sub_length (h : vs.length < 2 ^ 63) (hn : vs.length ≤ n.toNat) : UInt64.ofNat vs.length ≤ n ∧
    (n - UInt64.ofNat vs.length).toNat = n.toNat - vs.length := by
  have hle : UInt64.ofNat vs.length ≤ n := UInt64.le_iff_toNat_le.2 (by rwa [toNat_length h])
  exact ⟨hle, by rw [UInt64.toNat_sub_of_le _ _ hle, toNat_length h]⟩

@[simp] theorem run_length (vs : Elements) : length.run vs = .ok (.ofNat vs.length) vs := rfl

theorem run_assign (h : i.toNat < vs.length) (v : Value) : (assign i v).run vs = .ok () (vs.set i.toNat v) := by
  simp [assign, h]

theorem run_reserve (h : vs.length + n.toNat ≤ room) : (reserve room n).run vs = .ok () vs := by
  simp [reserve, h]

theorem run_push (h : vs.length < room) (v : Value) : (push room v).run vs = .ok () (vs ++ [v]) := by
  simp [push, run_reserve (n := 1) h]

theorem run_resize (hroom : room < 2 ^ 63) (h : vs.length < n.toNat) (hn : n.toNat ≤ room) (v : Value) :
    (resize room n v).run vs = .ok () (vs ++ List.replicate (n.toNat - vs.length) v) := by
  have hvs : vs.length < 2 ^ 63 := by omega
  have hlt : ¬ n ≤ UInt64.ofNat vs.length := by
    rw [UInt64.le_iff_toNat_le, toNat_length hvs]
    exact Nat.not_le.2 h
  obtain ⟨-, hsub⟩ := toNat_sub_length hvs (Nat.le_of_lt h)
  have hreserve : (reserve room (n - UInt64.ofNat vs.length)).run vs = .ok () vs := run_reserve (by omega)
  simp [resize, hlt, hsub, hreserve]

theorem run_fillTo (hroom : room < 2 ^ 63) (h : vs.length < i.toNat) (hi : i.toNat < room) :
    (fillTo room i).run vs = .ok () (vs ++ List.replicate (i.toNat - vs.length) .null) := by
  have hadd : add i 1 = pure (i + 1) := if_pos (by simp [greatestIndex]; omega)
  have hnext : (i + 1).toNat = i.toNat + 1 := by
    rw [UInt64.toNat_add]
    exact Nat.mod_eq_of_lt (by simp; omega)
  have hlen : vs.length ≤ (i + 1).toNat := by omega
  obtain ⟨hle, hextra⟩ := toNat_sub_length (by omega) hlen
  have hreserve : (reserve room (i + 1 - UInt64.ofNat vs.length)).run vs = .ok () vs := run_reserve (by omega)
  simp [fillTo, sub, hadd, hle, hreserve, run_resize hroom h (Nat.le_of_lt hi)]

theorem run_take (h : i.toNat < vs.length) : (take i).run vs = .ok vs[i.toNat] (vs.eraseIdx i.toNat) := by
  simp only [take, EStateM.run_bind, EStateM.run_get, List.getElem?_eq_getElem h]
  rfl

theorem run_drain (h : i ≤ j) (hj : j.toNat ≤ vs.length) :
    (drain i j).run vs = .ok () (vs.take i.toNat ++ vs.drop j.toNat) := by
  simp [drain, h, hj]

theorem run_store (hroom : room < 2 ^ 63) (hvs : vs.length ≤ room) (hi : i.toNat < room) (v : Value) :
    (store room i v).run vs = .ok () (Elements.store vs i.toNat v) := by
  have hlen : (UInt64.ofNat vs.length).toNat = vs.length := toNat_length (by omega)
  simp only [store, Elements.store, EStateM.run_bind, run_length, UInt64.lt_iff_toNat_lt, hlen]
  split
  · rename_i h
    exact run_assign h v
  · rename_i h
    split
    · rename_i hgap
      have hfilled : (vs ++ List.replicate (i.toNat - vs.length) Value.null).length < room := by simp; omega
      simp [run_fillTo hroom hgap hi, run_push hfilled]
    · have hend : i.toNat - vs.length = 0 := by omega
      have hfree : vs.length < room := by omega
      simp [hend, run_push hfree]

theorem run_removeAt (hvs : vs.length < 2 ^ 63) (i : UInt64) : (removeAt i).run vs =
    match Elements.removeAt vs i.toNat with
    | .ok (v, left) => .ok v left
    | .error e => .error (.violation e) vs := by
  have hlen := toNat_length hvs
  simp only [removeAt, EStateM.run_bind, run_length, UInt64.le_iff_toNat_le, hlen]
  split
  · rename_i h
    rw [Elements.removeAt_of_le h]
    rfl
  · rename_i h
    have h := Nat.lt_of_not_le h
    rw [Elements.removeAt_of_lt h, run_take h, List.eraseIdx_eq_take_drop_succ]

/-- Also where the sum is greater than all words. -/
theorem run_removeRange (hvs : vs.length < 2 ^ 63) (i n : UInt64) : (removeRange i n).run vs =
    match Elements.removeRange vs i.toNat n.toNat with
    | .ok left => .ok () left
    | .error e => .error (.violation e) vs := by
  have hlen := toNat_length hvs
  have hstop := toNat_addSaturating i n
  have hi := UInt64.toNat_lt i
  rw [greatestIndex] at hstop
  simp only [removeRange, Elements.removeRange, EStateM.run_bind, run_length, UInt64.lt_iff_toNat_lt, hlen]
  by_cases h : i.toNat + n.toNat ≤ vs.length
  · have hsum : (addSaturating i n).toNat = i.toNat + n.toNat := by omega
    rw [if_neg (by omega), if_pos h, run_drain (UInt64.le_iff_toNat_le.2 (by omega)) (by omega), hsum]
  · rw [if_pos (by omega), if_neg h, toNat_subSaturating, toNat_addSaturating]
    rfl

theorem run_removeEach (hvs : vs.length < 2 ^ 63) {n : Nat} (h : i.toNat + n ≤ vs.length) :
    (removeEach i n).run vs = .ok () (vs.take i.toNat ++ vs.drop (i.toNat + n)) := by
  induction n generalizing vs with
  | zero => simp [removeEach]
  | succ n ih =>
      have hlt : i.toNat < vs.length := by omega
      have hfront : (vs.take i.toNat).length = i.toNat := List.length_take_of_le (Nat.le_of_lt hlt)
      have hlength : (vs.take i.toNat ++ vs.drop (i.toNat + 1)).length = vs.length - 1 := by simp; omega
      have hback : (vs.take i.toNat ++ vs.drop (i.toNat + 1)).drop (i.toNat + n) = vs.drop (i.toNat + (n + 1)) := by
        rw [List.drop_append, List.drop_eq_nil_of_le (by omega), hfront, Nat.add_sub_cancel_left, List.nil_append,
          List.drop_drop, Nat.add_assoc, Nat.add_comm 1 n]
      rw [removeEach, EStateM.run_bind, run_removeAt hvs, Elements.removeAt_of_lt hlt]
      dsimp only
      rw [ih (by omega) (by omega), List.take_left' hfront, hback]

/-- Let there be memory for `room` elements. Storing where there is memory for a place stops for nothing; it makes the
array as long as it must be, gives the place the value, and changes no other place but those in between, which get
nulls. At two places it does not matter where a value is stored first. Taking out a range stops just if not all of it
is there, also if its end is no machine word, and then nothing is taken out. Else the elements in front of it and
behind it are left, as if so many elements had been removed at its start one by one. -/
theorem run_store_removeRange (hroom : room < 2 ^ 63) (hvs : vs.length ≤ room) :
    (∀ (i : UInt64) v, i.toNat < room →
      let after := Elements.store vs i.toNat v
      (store room i v).run vs = .ok () after ∧
      after.length = max vs.length (i.toNat + 1) ∧
      Elements.get? after i.toNat = some v ∧
      (∀ k < vs.length, k ≠ i.toNat → Elements.get? after k = Elements.get? vs k) ∧
      ∀ k, vs.length ≤ k → k < i.toNat → Elements.get? after k = some .null) ∧
    (∀ (i j : UInt64) v w, i ≠ j → i.toNat < room → j.toNat < room →
      ∃ after, (do store room i v; store room j w : ArrayCall Unit).run vs = .ok () after ∧
        (do store room j w; store room i v : ArrayCall Unit).run vs = .ok () after) ∧
    ∀ i n : UInt64,
      (vs.length < i.toNat + n.toNat → (removeRange i n).run vs =
        .error (.violation (.indexOutOfRange (min (i.toNat + n.toNat) greatestIndex - 1) vs.length)) vs) ∧
      (i.toNat + n.toNat ≤ vs.length →
        let left := vs.take i.toNat ++ vs.drop (i.toNat + n.toNat)
        (removeRange i n).run vs = .ok () left ∧ (removeEach i n.toNat).run vs = .ok () left) := by
  have hlen : vs.length < 2 ^ 63 := Nat.lt_of_le_of_lt hvs hroom
  refine ⟨fun i v hi => ?store, fun i j v w hij hi hj => ?comm, fun i n => ⟨fun h => ?stops, fun h => ?removes⟩⟩
  case store =>
    refine ⟨run_store hroom hvs hi v, Elements.length_store vs _ v, ?_, fun k hk hne => ?_, fun k hk hlt => ?_⟩
    · simp [Elements.get?_store]
    · simp [Elements.get?_store, hk, hne]
    · have hne : k ≠ i.toNat := Nat.ne_of_lt hlt
      simp [Elements.get?_store, hne, Nat.not_lt.2 hk, hlt]
  case comm =>
    have hne : i.toNat ≠ j.toNat := fun h => hij (UInt64.toNat_inj.1 h)
    have hstored (k : UInt64) (u : Value) (hk : k.toNat < room) :
        (Elements.store vs k.toNat u).length ≤ room := by
      rw [Elements.length_store]
      omega
    refine ⟨Elements.store (Elements.store vs i.toNat v) j.toNat w, ?_, ?_⟩
    · rw [EStateM.run_bind, run_store hroom hvs hi]
      exact run_store hroom (hstored i v hi) hj w
    · rw [EStateM.run_bind, run_store hroom hvs hj, Elements.store_comm vs v w hne]
      exact run_store hroom (hstored j w hj) hi v
  case stops => rw [run_removeRange hlen, Elements.removeRange, if_neg (Nat.not_le.2 h)]
  case removes =>
    refine ⟨?_, run_removeEach hlen h⟩
    rw [run_removeRange hlen, Elements.removeRange, if_pos h]

/-- A store that leaves a gap, and a range whose end is no word. -/
theorem run_store_removeRange_pastEnd :
    let vs : Elements := [.boolean true, .integer 1]
    (store 8 4 .null).run vs = .ok () [.boolean true, .integer 1, .null, .null, .null] ∧
    (∃ after, (do store 8 5 .null; store 8 3 (.integer 2) : ArrayCall Unit).run vs = .ok () after ∧
      (do store 8 3 (.integer 2); store 8 5 .null : ArrayCall Unit).run vs = .ok () after) ∧
    (removeRange 1 0xFFFFFFFFFFFFFFFF).run vs =
      .error (.violation (.indexOutOfRange 0xFFFFFFFFFFFFFFFE 2)) vs ∧
    (removeRange 0 1).run vs = .ok () [.integer 1] := by
  intro vs
  obtain ⟨hstore, hcomm, hremove⟩ := run_store_removeRange (show 8 < 2 ^ 63 by decide) (show vs.length ≤ 8 by decide)
  obtain ⟨hrun, -⟩ := hstore 4 .null (by decide)
  obtain ⟨hstops, -⟩ := hremove 1 0xFFFFFFFFFFFFFFFF
  obtain ⟨-, hremoves⟩ := hremove 0 1
  exact ⟨hrun, hcomm 5 3 .null (.integer 2) (by decide) (by decide) (by decide), hstops (by decide),
    (hremoves (by decide)).1⟩

end ArrayCall

end JsonTree
