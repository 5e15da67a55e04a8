import JsonTree.Document.Layout
import JsonTree.Options

/-!
# Items between brackets

Arrays and objects have the same frame: nothing, or items with commas between them. A comma in front of the closing
bracket is an option.
-/

namespace JsonTree.Document

open Byte

/-- What stands behind an item. -/
inductive After where
  | item
  | nothing
  deriving DecidableEq, Repr

/-- The rest at the next item, or behind the closing bracket. -/
def afterItem (o : Options) (close : UInt8) (s : Bytes) : Except Fault (After × Bytes) := do
  let s ← layout s
  match s with
  | [] => .error ⟨.malformed, []⟩
  | b :: r =>
      if b = close then return (.nothing, r)
      else if b = comma then
        let s ← layout r
        match s with
        | [] => return (.item, [])
        | c :: r =>
            if c ≠ close then return (.item, s)
            else if o.contains .trailingCommas then return (.nothing, r)
            else .error ⟨.trailingComma, s⟩
      else .error ⟨.malformed, s⟩

theorem length_lt_of_afterItem {o : Options} {close : UInt8} {s r : Bytes} {a : After}
    (h : afterItem o close s = .ok (a, r)) : r.length < s.length := by
  obtain ⟨t, ht, h⟩ := bind_eq_ok.1 h
  refine Nat.lt_of_lt_of_le ?_ (length_le_of_layout ht)
  split at h
  · cases h
  · refine Nat.lt_succ_of_le ?_
    split at h
    · cases h
      exact Nat.le_refl _
    · split at h
      · obtain ⟨u, hu, h⟩ := bind_eq_ok.1 h
        refine Nat.le_trans ?_ (length_le_of_layout hu)
        split at h
        · cases h
          exact Nat.le_refl _
        · split at h
          · cases h
            exact Nat.le_refl _
          · split at h
            · cases h
              exact Nat.le_succ _
            · cases h
      · cases h

/-- Reads items up to the closing bracket. Each of them adds to what those before it gave. -/
def items {β : Type} (o : Options) (close : UInt8) (item : β → Reader β) (acc : β) (s : Bytes) :
    Except Fault (β × Bytes) :=
  match hi : (item acc).read s with
  | .error f => .error f
  | .ok (acc', r) =>
      match ha : afterItem o close r with
      | .error f => .error f
      | .ok (.nothing, r') => .ok (acc', r')
      | .ok (.item, r') =>
          have := Nat.lt_trans (length_lt_of_afterItem ha) ((item acc).shorter hi)
          items o close item acc' r'
termination_by s.length

/-- Reads what stands behind an opening bracket. -/
def bracketed {β : Type} (o : Options) (close : UInt8) (item : β → Reader β) (none : β) (s : Bytes) :
    Except Fault (β × Bytes) := do
  let s ← layout s
  match s with
  | [] => items o close item none []
  | b :: r => if b = close then return (none, r) else items o close item none s

theorem length_lt_of_items {β : Type} {o : Options} {close : UInt8} {item : β → Reader β} {acc acc' : β}
    {s r : Bytes} (h : items o close item acc s = .ok (acc', r)) : r.length < s.length := by
  fun_induction items o close item acc s with
  | case1 => cases h
  | case2 => cases h
  | case3 acc s acc'' r' hi r'' ha =>
      cases h
      exact Nat.lt_trans (length_lt_of_afterItem ha) ((item acc).shorter hi)
  | case4 acc s acc'' r' hi r'' ha hlt ih => exact Nat.lt_trans (ih h) hlt

theorem length_lt_of_bracketed {β : Type} {o : Options} {close : UInt8} {item : β → Reader β} {none acc : β}
    {s r : Bytes} (h : bracketed o close item none s = .ok (acc, r)) : r.length < s.length := by
  obtain ⟨t, ht, h⟩ := bind_eq_ok.1 h
  refine Nat.lt_of_lt_of_le ?_ (length_le_of_layout ht)
  split at h
  · exact length_lt_of_items h
  · split at h
    · cases h
      exact Nat.lt_succ_self _
    · exact length_lt_of_items h

end JsonTree.Document
