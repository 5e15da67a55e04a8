import JsonTree.Members.Basic
import JsonTree.Path

/-!
# Paths into objects

A path leads from an object through the objects in it. Reading and removing need all of them to be there; storing
makes those that are missing, and puts objects in the place of other values that stand in its way.
-/

namespace JsonTree

/-! ## Reading -/

/-- The value that a list of keys leads to. -/
def Value.at? : List String → Value → Option Value
  | [], v => some v
  | k :: ks, .object ms => (Entries.get? k ms).bind (Value.at? ks)
  | _ :: _, _ => none

namespace Members

/-- The value that a path leads to. -/
def getPath? (ms : Members) (p : Path) : Option Value := Value.at? p.segments (.object ms)

def getPath (ms : Members) (path : String) : Except Violation Value :=
  require path (getPath? ms (.ofString path))

/-! ## Slots -/

/-- The place that the keys `k :: ks` lead to. -/
def slotAlong? (k : String) : List String → Members → Option (Slot Members)
  | [], ms => slot? ms k
  | k' :: ks, ms =>
      match Entries.get? k ms with
      | some (.object inner) =>
          (slotAlong? k' ks inner).map fun s => s.within fun inner => Entries.insert k (.object inner) ms
      | _ => none

def slotPath? (ms : Members) (p : Path) : Option (Slot Members) := slotAlong? p.first p.rest ms

def slotPath (ms : Members) (path : String) : Except Violation (Slot Members) :=
  require path (slotPath? ms (.ofString path))

/-! ## Storing -/

/-- The members of a value that has members. -/
def ofValue : Option Value → Members
  | some (.object ms) => ms
  | _ => []

/-- Stores a value where the keys `k :: ks` lead. -/
def storeAlong (v : Value) (k : String) : List String → Members → Members
  | [], ms => Entries.insert k v ms
  | k' :: ks, ms => Entries.insert k (.object (storeAlong v k' ks (ofValue (Entries.get? k ms)))) ms

def storePath (ms : Members) (p : Path) (v : Value) : Members := storeAlong v p.first p.rest ms

/-! ## Removing -/

/-- What is done with objects that a removal leaves empty. -/
inductive EmptyObjects where
  | leave
  | erase
  deriving DecidableEq, Repr

/-- Removes the value that the keys `k :: ks` lead to; gives the value and the other members. -/
def removeAlong? (mode : EmptyObjects) (k : String) : List String → Members → Option (Value × Members)
  | [], ms => (Entries.get? k ms).map fun v => (v, Entries.erase k ms)
  | k' :: ks, ms =>
      match Entries.get? k ms with
      | some (.object inner) =>
          (removeAlong? mode k' ks inner).map fun (v, left) =>
            if mode = .erase ∧ left.isEmpty then (v, Entries.erase k ms)
            else (v, Entries.insert k (.object left) ms)
      | _ => none

/-- Removes the value that a path leads to. Objects on the way that become empty may be removed with it, but never
the object that the path starts from. -/
def removePath (ms : Members) (p : Path) (mode : EmptyObjects) : Option Value × Members :=
  match removeAlong? mode p.first p.rest ms with
  | some (v, left) => (some v, left)
  | none => (none, ms)

end Members

end JsonTree
