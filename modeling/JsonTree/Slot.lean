import JsonTree.Value.Basic

/-!
# Slots

A slot is one place inside a larger thing: the value that is there, and the larger thing with another value put
there.
-/

namespace JsonTree

structure Slot (α : Type) where
  value : Value
  put : Value → α

namespace Slot

/-- A value as the only place in itself. -/
def whole (v : Value) : Slot Value := ⟨v, id⟩

/-- The same place seen from a thing around `α`. -/
def within {α β : Type} (s : Slot α) (wrap : α → β) : Slot β := ⟨s.value, fun v => wrap (s.put v)⟩

end Slot

end JsonTree
