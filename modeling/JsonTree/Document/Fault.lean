import JsonTree.Bytes
import JsonTree.Failure

/-!
# Faults

While a document is read, the place of a fault is the rest of the document from the fault on. Only the whole
document turns it into a line and a column.
-/

namespace JsonTree

/-- What is wrong, and the rest of the document from there on. -/
structure Fault where
  code : ErrorCode
  rest : Bytes
  deriving DecidableEq, Repr

namespace Position

def next (p : Position) (b : UInt8) : Position :=
  if b = Byte.lineFeed then ⟨p.line + 1, 1⟩ else ⟨p.line, p.column + 1⟩

/-- The position behind some bytes of a document. -/
def behind (s : Bytes) : Position := s.foldl next {}

end Position

/-- The fault of reading `document`, with its position. -/
def Fault.toError (f : Fault) (document : Bytes) : ParseError :=
  ⟨f.code, .behind (document.take (document.length - f.rest.length))⟩

/-! ## Readers -/

/-- A way to read one thing off the head of some bytes. It gives the thing and the bytes behind it, of which there
are fewer. -/
structure Reader (α : Type) where
  read : Bytes → Except Fault (α × Bytes)
  shorter : ∀ {s a r}, read s = .ok (a, r) → r.length < s.length

/-- A reading in two steps succeeds if both steps do. -/
theorem bind_eq_ok {α β : Type} {x : Except Fault α} {f : α → Except Fault β} {b : β} :
    x >>= f = .ok b ↔ ∃ a, x = .ok a ∧ f a = .ok b := by
  cases x <;> simp [bind, Except.bind]

theorem map_eq_ok {α β : Type} {x : Except Fault α} {f : α → β} {b : β} :
    x.map f = .ok b ↔ ∃ a, x = .ok a ∧ f a = b := by
  cases x <;> simp [Except.map]

theorem pure_eq_ok {α : Type} {a b : α} : (pure a : Except Fault α) = .ok b ↔ a = b := by
  simp [pure, Except.pure]

theorem length_lt_of_map {α β : Type} {x : Except Fault (α × Bytes)} {f : α → β} {b : β} {s r : Bytes}
    (hx : ∀ {a r}, x = .ok (a, r) → r.length < s.length) (h : x.map (Prod.map f id) = .ok (b, r)) :
    r.length < s.length := by
  obtain ⟨⟨a, r'⟩, ha, h⟩ := map_eq_ok.1 h
  simp only [Prod.map, id_eq, Prod.mk.injEq] at h
  exact h.2 ▸ hx ha

end JsonTree
