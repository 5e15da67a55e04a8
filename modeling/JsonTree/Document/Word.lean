import JsonTree.Document.Fault
import JsonTree.Value.Basic

/-!
# Words

Some values are written as words. A word, like a number, ends where no letter, digit or dot follows.
-/

namespace JsonTree.Document

/-- The rest of a document at which a word or a number may end. -/
def tokenEnd (s : Bytes) : Except Fault Bytes :=
  match s with
  | [] => .ok []
  | b :: r => if Byte.continuesToken b then .error ⟨.malformed, b :: r⟩ else .ok (b :: r)

theorem eq_of_tokenEnd {s r : Bytes} (h : tokenEnd s = .ok r) : r = s := by
  cases s <;> grind [tokenEnd]

namespace Word

/-- The bytes of a word of ASCII letters. -/
def spell (cs : List Char) : Bytes := cs.map fun c => c.toUInt8

def null : Bytes := spell ['n', 'u', 'l', 'l']
def truth : Bytes := spell ['t', 'r', 'u', 'e']
def falsity : Bytes := spell ['f', 'a', 'l', 's', 'e']
def nan : Bytes := spell ['N', 'a', 'N']
def infinity : Bytes := spell ['I', 'n', 'f', 'i', 'n', 'i', 't', 'y']
def inf : Bytes := spell ['i', 'n', 'f']

/-- The rest behind a word that must be there. -/
def skip : Bytes → Bytes → Except Fault Bytes
  | [], s => tokenEnd s
  | w :: ws, b :: s => if b = w then skip ws s else .error ⟨.malformed, b :: s⟩
  | _ :: _, [] => .error ⟨.malformed, []⟩

/-- The rest behind a word that may be there. -/
def drop? : Bytes → Bytes → Option Bytes
  | [], s => some s
  | w :: ws, b :: s => if b = w then drop? ws s else none
  | _ :: _, [] => none

theorem length_of_skip {w s r : Bytes} (h : skip w s = .ok r) : r.length + w.length = s.length := by
  fun_induction skip w s with
  | case1 s => simp [eq_of_tokenEnd h]
  | case2 ws b s ih => simp [← ih h]; omega
  | case3 => cases h
  | case4 => cases h

theorem length_of_drop? {w s r : Bytes} (h : drop? w s = some r) : r.length + w.length = s.length := by
  fun_induction drop? w s with
  | case1 s => simp_all
  | case2 ws b s ih => simp [← ih h]; omega
  | case3 => cases h
  | case4 => cases h

/-- A word that stands for a value. -/
def value (word : Bytes) (v : Value) (s : Bytes) : Except Fault (Value × Bytes) :=
  (skip word s).map fun r => (v, r)

theorem length_lt_of_value {word s r : Bytes} {v v' : Value} (hw : 0 < word.length)
    (h : value word v s = .ok (v', r)) : r.length < s.length := by
  obtain ⟨t, ht, h⟩ := map_eq_ok.1 h
  cases h
  have := length_of_skip ht
  omega

end Word

end JsonTree.Document
