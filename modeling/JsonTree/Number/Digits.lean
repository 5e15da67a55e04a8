/-!
# Digits

The number that a list of digits stands for. Long lists are read by joining neighbours, which squares the base and
halves the list, so that the effort stays close to that of a few large products.
-/

namespace JsonTree.Digits

/-- The number with the given digits, the last of them first. -/
def number (base : Nat) (ds : List Nat) : Nat := ds.foldr (fun d n => d + base * n) 0

/-- The digits of the same number in the squared base. -/
def joined (base : Nat) : List Nat → List Nat
  | d :: d' :: ds => (d + base * d') :: joined base ds
  | ds => ds

theorem length_joined (base : Nat) (ds : List Nat) : (joined base ds).length = (ds.length + 1) / 2 := by
  fun_induction joined base ds with
  | case1 d d' ds ih => simp only [List.length_cons, ih]; omega
  | case2 ds h => match ds, h with
    | [], _ => rfl
    | [_], _ => simp
    | d :: d' :: ds, h => exact absurd rfl (h d d' ds)

theorem number_joined (base : Nat) (ds : List Nat) :
    number (base * base) (joined base ds) = number base ds := by
  fun_induction joined base ds with
  | case1 d d' ds ih =>
      simp only [number, List.foldr_cons] at ih ⊢
      rw [ih, Nat.mul_add, Nat.mul_assoc, Nat.add_assoc]
  | case2 ds h => match ds, h with
    | [], _ => rfl
    | [_], _ => simp [number]
    | d :: d' :: ds, h => exact absurd rfl (h d d' ds)

/-- The number with the given digits, for long lists. -/
def join (base : Nat) (ds : List Nat) : Nat :=
  match ds with
  | [] => 0
  | [d] => d
  | d :: d' :: ds => join (base * base) (joined base (d :: d' :: ds))
termination_by ds.length
decreasing_by simp only [length_joined, List.length_cons]; omega

theorem join_eq_number (base : Nat) (ds : List Nat) : join base ds = number base ds := by
  fun_induction join base ds with
  | case1 => rfl
  | case2 base d => simp [number]
  | case3 base d d' ds ih => rw [ih, number_joined]

end JsonTree.Digits
