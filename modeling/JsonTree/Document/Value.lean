import JsonTree.Document.Items
import JsonTree.Document.Literal
import JsonTree.Document.Numeral

/-!
# Values in documents

The nesting limit is the room that is left: each bracket takes one of it, and a bracket without room is a fault.
-/

namespace JsonTree.Document

open Byte

/-! ## Items -/

/-- Reads an element in front of those before it. -/
def element (value : Reader Value) (before : Elements) : Reader Elements where
  read s := (value.read s).map (Prod.map (· :: before) id)
  shorter h := length_lt_of_map value.shorter h

/-- The rest behind a colon, which must be there. -/
def skipColon (s : Bytes) : Except Fault Bytes := do
  let s ← layout s
  match s with
  | [] => .error ⟨.malformed, []⟩
  | b :: r => if b = colon then return r else .error ⟨.malformed, s⟩

theorem length_lt_of_skipColon {s r : Bytes} (h : skipColon s = .ok r) : r.length < s.length := by
  obtain ⟨t, ht, h⟩ := bind_eq_ok.1 h
  refine Nat.lt_of_lt_of_le ?_ (length_le_of_layout ht)
  split at h
  · cases h
  · split at h
    · cases h
      exact Nat.lt_succ_self _
    · cases h

/-- Reads a key, a colon and a value into the members before them. -/
def readMember (o : Options) (value : Reader Value) (before : Members) (s : Bytes) :
    Except Fault (Members × Bytes) :=
  match s with
  | [] => .error ⟨.malformed, []⟩
  | b :: r =>
      if b ≠ quote then .error ⟨.unquotedKey, s⟩
      else do
        let (key, r) ← Literal.read r
        if o.contains .uniqueKeys && Entries.contains key.content before then .error ⟨.malformed, s⟩
        else
          let r ← skipColon r
          let (v, r) ← value.read r
          return (Entries.insert key.content v before, r)

theorem length_lt_of_readMember {o : Options} {value : Reader Value} {before ms : Members} {s r : Bytes}
    (h : readMember o value before s = .ok (ms, r)) : r.length < s.length := by
  unfold readMember at h
  split at h
  · cases h
  · split at h
    · cases h
    · obtain ⟨⟨key, t⟩, hk, h⟩ := bind_eq_ok.1 h
      dsimp only at h
      split at h
      · cases h
      · obtain ⟨u, hu, h⟩ := bind_eq_ok.1 h
        obtain ⟨⟨v, r'⟩, hv, h⟩ := bind_eq_ok.1 h
        cases h
        have := Literal.length_lt_of_read hk
        have := length_lt_of_skipColon hu
        have := value.shorter hv
        simp only [List.length_cons]
        omega

def member (o : Options) (value : Reader Value) (before : Members) : Reader Members :=
  ⟨readMember o value before, length_lt_of_readMember⟩

/-! ## Values -/

/-- The text of a literal as the options want it stored. -/
def stored (o : Options) (t : Text) : Text := if o.contains .borrowing then t else t.detach

def array (o : Options) (value : Reader Value) (s : Bytes) : Except Fault (Value × Bytes) :=
  (bracketed o closeBracket (element value) [] s).map (Prod.map (fun vs => .array vs.reverse) id)

def object (o : Options) (value : Reader Value) (s : Bytes) : Except Fault (Value × Bytes) :=
  (bracketed o closeBrace (member o value) [] s).map (Prod.map .object id)

def string (o : Options) (s : Bytes) : Except Fault (Value × Bytes) :=
  (Literal.read s).map (Prod.map (fun t => .string (stored o t)) id)

theorem length_lt_of_array {o : Options} {value : Reader Value} {s r : Bytes} {v : Value}
    (h : array o value s = .ok (v, r)) : r.length < s.length :=
  length_lt_of_map length_lt_of_bracketed h

theorem length_lt_of_object {o : Options} {value : Reader Value} {s r : Bytes} {v : Value}
    (h : object o value s = .ok (v, r)) : r.length < s.length :=
  length_lt_of_map length_lt_of_bracketed h

theorem length_lt_of_string {o : Options} {s r : Bytes} {v : Value} (h : string o s = .ok (v, r)) :
    r.length < s.length :=
  length_lt_of_map Literal.length_lt_of_read h

/-- Reads a value, where numerals stand for what `value?` says. Brackets need `inner`, which reads the values between
them. -/
def readValueBy (value? : Interpretation) (o : Options) (inner : Option (Reader Value)) (s : Bytes) :
    Except Fault (Value × Bytes) := do
  let s ← layout s
  match s with
  | [] => .error ⟨.malformed, []⟩
  | b :: r =>
      if b = openBracket then
        match inner with
        | some value => array o value r
        | none => .error ⟨.tooMuchNesting, s⟩
      else if b = openBrace then
        match inner with
        | some value => object o value r
        | none => .error ⟨.tooMuchNesting, s⟩
      else if b = quote then string o r
      else if startsNumber o b then numberBy value? o s
      else if b = letterN then Word.value Word.null .null s
      else if b = letterT then Word.value Word.truth (.boolean true) s
      else if b = letterF then Word.value Word.falsity (.boolean false) s
      else .error ⟨.malformed, s⟩

theorem length_lt_of_readValueBy {value? : Interpretation} {o : Options} {inner : Option (Reader Value)} {s r : Bytes}
    {v : Value} (h : readValueBy value? o inner s = .ok (v, r)) : r.length < s.length := by
  obtain ⟨t, ht, h⟩ := bind_eq_ok.1 h
  refine Nat.lt_of_lt_of_le ?_ (length_le_of_layout ht)
  split at h
  · cases h
  · split at h
    · split at h
      · exact Nat.lt_succ_of_lt (length_lt_of_array h)
      · cases h
    · split at h
      · split at h
        · exact Nat.lt_succ_of_lt (length_lt_of_object h)
        · cases h
      · split at h
        · exact Nat.lt_succ_of_lt (length_lt_of_string h)
        · split at h
          · exact length_lt_of_numberBy h
          · split at h
            · exact Word.length_lt_of_value (by decide) h
            · split at h
              · exact Word.length_lt_of_value (by decide) h
              · split at h
                · exact Word.length_lt_of_value (by decide) h
                · cases h

/-- Reads a value with room for `room` arrays and objects inside one another. -/
def valueBy (value? : Interpretation) (o : Options) : Nat → Reader Value
  | 0 => ⟨readValueBy value? o none, length_lt_of_readValueBy⟩
  | room + 1 => ⟨fun s => readValueBy value? o (some (valueBy value? o room)) s, length_lt_of_readValueBy⟩

def readValue (o : Options) (inner : Option (Reader Value)) (s : Bytes) : Except Fault (Value × Bytes) :=
  readValueBy .own o inner s

def value (o : Options) (room : Nat) : Reader Value := valueBy .own o room

end JsonTree.Document
