import JsonTree.Bytes

/-!
# UTF-8

Text as bytes and back. `scan` takes the longest well-formed start of a run of bytes, so the length of that
start is where an ill-formed run goes wrong.
-/

namespace JsonTree.Utf8

def encode (t : String) : Bytes := t.toList.flatMap String.utf8EncodeChar

/-- The character that a run of bytes starts with, and the bytes behind it. -/
def decodeChar? (s : Bytes) : Option (Char × Bytes) :=
  ((s.take 4).toByteArray.utf8DecodeChar? 0).map fun c => (c, s.drop c.utf8Size)

theorem decodeChar?_nil : decodeChar? [] = none := rfl

theorem length_lt_of_decodeChar? {s r : Bytes} {c : Char} (h : decodeChar? s = some (c, r)) :
    r.length < s.length := by
  cases s with
  | nil => simp [decodeChar?_nil] at h
  | cons b s =>
      simp only [decodeChar?, Option.map_eq_some_iff, Prod.mk.injEq] at h
      obtain ⟨c, _, _, rfl⟩ := h
      have := c.utf8Size_pos
      simp only [List.length_drop, List.length_cons]
      omega

/-- The characters of the longest well-formed start of `s`, and the bytes from there on. -/
def scan (s : Bytes) : List Char × Bytes := go [] s
where
  go (acc : List Char) (s : Bytes) : List Char × Bytes :=
    match h : decodeChar? s with
    | some (c, r) =>
      have := length_lt_of_decodeChar? h
      go (c :: acc) r
    | none => (acc.reverse, s)
  termination_by s.length

def validLength (s : Bytes) : Nat := s.length - (scan s).2.length

/-- The text that well-formed bytes stand for; ill-formed bytes give the length of their longest
well-formed start. -/
def decode (s : Bytes) : Except Nat String :=
  match scan s with
  | (cs, []) => .ok (String.ofList cs)
  | (_, _ :: _) => .error (validLength s)

end JsonTree.Utf8
