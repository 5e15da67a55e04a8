import JsonTree.Value.Basic

/-!
# Room for elements

An array has room for some number of elements, and takes more when they no longer fit. Room is no part of what
an array says.
-/

namespace JsonTree

/-- How many elements there are, and how many there is room for. -/
structure Room where
  size : Nat
  capacity : Nat
  size_le : size ≤ capacity

namespace Room

/-- Just enough room. -/
def exact (vs : Elements) : Room := ⟨vs.length, vs.length, Nat.le_refl _⟩

/-- Room for at least `n` elements. -/
def ensure (r : Room) (n : Nat) : Room :=
  ⟨r.size, max r.capacity n, Nat.le_trans r.size_le (Nat.le_max_left ..)⟩

/-- Whether `n` more elements would not fit. -/
def willGrow (r : Room) (n : Nat) : Bool := r.capacity < r.size + n

/-- The number of elements that can be added before the array has to grow. -/
def free (r : Room) : Nat := r.capacity - r.size

/-- Gives up the room that is not needed. -/
def shrink (r : Room) : Room := ⟨r.size, r.size, Nat.le_refl _⟩

end Room

end JsonTree
