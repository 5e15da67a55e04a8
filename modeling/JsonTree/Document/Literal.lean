import JsonTree.Document.Fault
import JsonTree.Text.Builder
import JsonTree.Text.Utf16

/-!
# String literals

Between the quotes of a string literal stand runs of plain bytes and escapes. A run is UTF-8 by itself. An escape
stands for bytes, and the `\x` escapes for any bytes, so that the whole has to be UTF-8 again.

A text borrows the document if its literal is a single run.
-/

namespace JsonTree.Document.Literal

open Byte

/-! ## Escapes -/

/-- The byte that a letter stands for behind a backslash. -/
def simple? (letter : UInt8) : Option UInt8 :=
  if letter = quote ∨ letter = backslash ∨ letter = slash then some letter
  else if letter = letterB then some backspace
  else if letter = letterF then some formFeed
  else if letter = letterN then some lineFeed
  else if letter = letterR then some carriageReturn
  else if letter = letterT then some tab
  else if letter = letterV then some verticalTab
  else none

/-- The number that the next `n` hexadecimal digits stand for, behind digits that stand for `acc`. -/
def hex : Nat → Nat → Bytes → Except Fault (Nat × Bytes)
  | 0, acc, s => .ok (acc, s)
  | _ + 1, _, [] => .error ⟨.invalidEscape, []⟩
  | n + 1, acc, b :: s =>
      match hexValue? b with
      | some d => hex n (16 * acc + d) s
      | none => .error ⟨.invalidEscape, b :: s⟩

def codeUnit (s : Bytes) : Except Fault (UInt16 × Bytes) := (hex 4 0 s).map fun (n, r) => (.ofNat n, r)

/-- The character of an escape `\u`, read behind the `u`. A lead surrogate goes with the escape behind it. `start`
is the whole escape. -/
def character (start s : Bytes) : Except Fault (Char × Bytes) := do
  let (unit, s) ← codeUnit s
  if Utf16.isLead unit then
    match s with
    | b :: c :: r =>
        if b = backslash ∧ c = letterU then
          let (trail, r) ← codeUnit r
          if Utf16.isTrail trail then return (Utf16.pairChar unit trail, r) else .error ⟨.invalidEscape, s⟩
        else .error ⟨.invalidEscape, start⟩
    | _ => .error ⟨.invalidEscape, start⟩
  else
    match Utf16.char? unit with
    | some c => return (c, s)
    | none => .error ⟨.invalidEscape, start⟩

/-- The bytes of an escape, read behind its backslash. `start` is the whole escape. -/
def escape (start : Bytes) : Bytes → Except Fault (Bytes × Bytes)
  | [] => .error ⟨.invalidEscape, []⟩
  | letter :: s =>
      if letter = letterU then (character start s).map fun (c, r) => (String.utf8EncodeChar c, r)
      else if letter = letterX then (hex 2 0 s).map fun (n, r) => ([.ofNat n], r)
      else
        match simple? letter with
        | some b => .ok ([b], s)
        | none => .error ⟨.invalidEscape, start⟩

theorem length_le_of_hex {n acc m : Nat} {s r : Bytes} (h : hex n acc s = .ok (m, r)) :
    r.length ≤ s.length := by
  fun_induction hex n acc s <;> grind

theorem length_le_of_codeUnit {s r : Bytes} {u : UInt16} (h : codeUnit s = .ok (u, r)) :
    r.length ≤ s.length := by
  obtain ⟨⟨n, r'⟩, hn, h⟩ := map_eq_ok.1 h
  cases h
  exact length_le_of_hex hn

theorem length_le_of_character {start s r : Bytes} {c : Char} (h : character start s = .ok (c, r)) :
    r.length ≤ s.length := by
  obtain ⟨⟨unit, t⟩, hu, h⟩ := bind_eq_ok.1 h
  refine Nat.le_trans ?_ (length_le_of_codeUnit hu)
  dsimp only at h
  split at h
  · split at h
    · split at h
      · obtain ⟨⟨trail, t'⟩, ht, h⟩ := bind_eq_ok.1 h
        have := length_le_of_codeUnit ht
        dsimp only at h
        split at h
        · simp only [pure_eq_ok, Prod.mk.injEq] at h
          simp only [List.length_cons, ← h.2]
          omega
        · cases h
      · cases h
    · cases h
  · split at h
    · simp only [pure_eq_ok, Prod.mk.injEq] at h
      simp only [← h.2, Nat.le_refl]
    · cases h

theorem length_lt_of_escape {start s r bs : Bytes} (h : escape start s = .ok (bs, r)) :
    r.length < s.length := by
  unfold escape at h
  split at h
  · cases h
  · refine Nat.lt_succ_of_le ?_
    split at h
    · obtain ⟨⟨c, r'⟩, hc, h⟩ := map_eq_ok.1 h
      cases h
      exact length_le_of_character hc
    · split at h
      · obtain ⟨⟨n, r'⟩, hn, h⟩ := map_eq_ok.1 h
        cases h
        exact length_le_of_hex hn
      · split at h
        · cases h
          exact Nat.le_refl _
        · cases h

/-! ## Literals -/

/-- A run of plain bytes has to be UTF-8. -/
def checkRun (s : Bytes) : Except Fault Bytes :=
  let run := s.takeWhile isPlain
  if Utf8.validLength run = run.length then .ok run
  else .error ⟨.malformed, s.drop (Utf8.validLength run)⟩

theorem length_lt_of_dropWhile {p : UInt8 → Bool} {s r : Bytes} {c : UInt8}
    (h : s.dropWhile p = c :: r) : r.length < s.length := by
  have := congrArg List.length (List.takeWhile_append_dropWhile (p := p) (l := s))
  simp only [h, List.length_append, List.length_cons] at this
  omega

/-- The rest of a literal, behind what the builder holds. -/
def content (b : TextBuilder) (s : Bytes) : Except Fault (Text × Bytes) :=
  match hs : s.dropWhile isPlain with
  | [] => .error ⟨.malformed, []⟩
  | c :: r =>
      if c = quote then do
        let run ← checkRun s
        match (b.appendRun run).finish with
        | .ok t => return (t, r)
        | .error _ => .error ⟨.invalidEscape, c :: r⟩
      else if c = backslash then
        match checkRun s with
        | .error f => .error f
        | .ok run =>
            match he : escape (c :: r) r with
            | .error f => .error f
            | .ok (bs, r') =>
                have := Nat.lt_trans (length_lt_of_escape he) (length_lt_of_dropWhile hs)
                content ((b.appendRun run).append bs) r'
      else .error ⟨.malformed, c :: r⟩
termination_by s.length

theorem length_lt_of_content {b : TextBuilder} {s r : Bytes} {t : Text} (h : content b s = .ok (t, r)) :
    r.length < s.length := by
  fun_induction content b s with
  | case2 b s r' hs =>
      obtain ⟨run, _, h⟩ := bind_eq_ok.1 h
      split at h
      · cases h
        exact length_lt_of_dropWhile hs
      · cases h
  | case5 b s r' run hrun bs r'' hs hq he hlt ih => exact Nat.lt_trans (ih h) hlt
  | case1 => cases h
  | case3 => cases h
  | case4 => cases h
  | case6 => cases h

/-- The text of the literal whose opening quote is in front of `s`. -/
def read (s : Bytes) : Except Fault (Text × Bytes) := content (.before s) s

theorem length_lt_of_read {s r : Bytes} {t : Text} (h : read s = .ok (t, r)) : r.length < s.length :=
  length_lt_of_content h

end JsonTree.Document.Literal
