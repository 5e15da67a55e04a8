import JsonTree.Proofs.Checked.Safety
import JsonTree.Proofs.Text.Quoted

/-!
# Literals written byte by byte

A writer goes over the bytes of a text and holds back those that stand for themselves, until a byte has to be escaped
or the text ends. Then it writes what it has held back, as a slice of the text. A slice that does not start and end
between two characters stops the writer: no text has one. What is written is the literal of the text, which is read back
wherever it stands.
-/

namespace JsonTree.Escaper

open Byte Document Grammar Quoted Utf8

/-! ## The writer -/

/-- A place where a character starts, or the end. -/
def isBoundary (s : Bytes) (i : Nat) : Bool :=
  match s[i]? with
  | some b => i == 0 || b < 0x80 || 0xC0 ≤ b
  | none => i == s.length

/-- The bytes from one place to another, if both are between characters. -/
def slice? (s : Bytes) (start stop : Nat) : Option Bytes :=
  if start ≤ stop && isBoundary s start && isBoundary s stop then some ((s.drop start).take (stop - start)) else none

/-- What a byte is escaped as. Control bytes without an escape of their own are escaped by number; they give nothing. -/
def escaped? (b : UInt8) : Option Bytes :=
  if b = quote then some [backslash, quote]
  else if b = backslash then some [backslash, backslash]
  else if b = lineFeed then some [backslash, letterN]
  else if b = carriageReturn then some [backslash, letterR]
  else if b = tab then some [backslash, letterT]
  else if b = backspace then some [backslash, letterB]
  else if b = formFeed then some [backslash, letterF]
  else if b < 0x20 then some []
  else none

/-- A byte escaped by its number, in four hexadecimal digits. -/
def numbered (b : UInt8) : Bytes := ofChars ('\\' :: 'u' :: (Nat.toDigits 16 b.toNat).leftpad 4 '0')

/-- Where the bytes that are held back start, and what has been written. -/
structure State where
  start : Nat := 0
  out : Bytes := [quote]

/-- Writes the bytes that are held back, up to a place. -/
def State.flush (s : Bytes) (i : Nat) (st : State) : Option Bytes :=
  if st.start < i then (slice? s st.start i).map (st.out ++ ·) else some st.out

def step (s : Bytes) (i : Nat) (b : UInt8) (st : State) : Option State :=
  match escaped? b with
  | none => some st
  | some e => (st.flush s i).map fun out => ⟨i + 1, out ++ if e.isEmpty then numbered b else e⟩

/-- Goes over the rest of the bytes, from a place on. -/
def run (s : Bytes) : Nat → Bytes → State → Option State
  | _, [], st => some st
  | i, b :: r, st => (step s i b st).bind (run s (i + 1) r)

/-- The literal of a text that is given by its bytes. -/
def write (s : Bytes) : Option Bytes :=
  (run s 0 s {}).bind fun st => (st.flush s s.length).map (· ++ [quote])

/-! ## Boundaries -/

/-- The first byte of a character is no continuation byte. -/
theorem exists_utf8EncodeChar_eq_cons (c : Char) :
    ∃ b r, String.utf8EncodeChar c = b :: r ∧ (b < 0x80 || 0xC0 ≤ b) = true := by
  have high (x y : UInt8) (hy : 0xC0 ≤ y) : (x ||| y < 0x80 || 0xC0 ≤ x ||| y) = true := by
    have hor : 0xC0 ≤ x ||| y := by
      rw [UInt8.le_iff_toNat_le, UInt8.toNat_or]
      exact Nat.le_trans (UInt8.le_iff_toNat_le.1 hy) Nat.right_le_or
    rw [decide_eq_true hor, Bool.or_true]
  rcases encodeChar_cases c with ⟨hc, he⟩ | ⟨hc, -⟩
  · refine ⟨_, [], he, ?_⟩
    have hlt : UInt8.ofNat c.toNat < 0x80 := by
      rw [UInt8.lt_iff_toNat_lt, UInt8.toNat_ofNat_of_lt' (by change c.toNat < 256; omega)]
      exact hc
    rw [decide_eq_true hlt, Bool.true_or]
  · have hpos := c.utf8Size_pos
    have hle := c.utf8Size_le_four
    have hone : c.utf8Size ≠ 1 := by
      rw [ne_eq, Char.utf8Size_eq_one_iff, UInt32.not_le, UInt32.lt_iff_toNat_lt]
      exact hc
    obtain h | h | h : c.utf8Size = 2 ∨ c.utf8Size = 3 ∨ c.utf8Size = 4 := by omega
    · exact ⟨_, _, String.utf8EncodeChar_eq_cons_cons h, high _ _ (by decide)⟩
    · exact ⟨_, _, String.utf8EncodeChar_eq_cons_cons_cons h, high _ _ (by decide)⟩
    · exact ⟨_, _, String.utf8EncodeChar_eq_cons_cons_cons_cons h, high _ _ (by decide)⟩

theorem isBoundary_ofChars (cs ds : List Char) : isBoundary (ofChars (cs ++ ds)) (ofChars cs).length = true := by
  rw [isBoundary, ofChars_append, List.getElem?_append_right (Nat.le_refl _), Nat.sub_self]
  cases ds with
  | nil => simp
  | cons d ds =>
      obtain ⟨b, r, he, hb⟩ := exists_utf8EncodeChar_eq_cons d
      rw [ofChars_cons, he]
      simp only [List.cons_append, List.getElem?_cons_zero, Bool.or_assoc, hb, Bool.or_true]

theorem slice?_ofChars (cs ds es : List Char) :
    slice? (ofChars (cs ++ (ds ++ es))) (ofChars cs).length (ofChars (cs ++ ds)).length = some (ofChars ds) := by
  have hle : (ofChars cs).length ≤ (ofChars (cs ++ ds)).length := by rw [ofChars_append, List.length_append]; omega
  have hstop := isBoundary_ofChars (cs ++ ds) es
  rw [List.append_assoc] at hstop
  have htake : ((ofChars (cs ++ (ds ++ es))).drop (ofChars cs).length).take
      ((ofChars (cs ++ ds)).length - (ofChars cs).length) = ofChars ds := by
    rw [ofChars_append cs, ofChars_append cs, ofChars_append ds, List.drop_left, List.length_append,
      Nat.add_sub_cancel_left, List.take_left]
  rw [slice?, isBoundary_ofChars, hstop, decide_eq_true hle, htake]
  rfl

/-! ## Escapes -/

theorem escaped?_of_isPlain {b : UInt8} (hb : isPlain b = true) : escaped? b = none := by
  simp only [isPlain, Bool.and_eq_true, bne_iff_ne, decide_eq_true_eq] at hb
  obtain ⟨⟨hle, hquote⟩, hbackslash⟩ := hb
  have hne {c : UInt8} (hc : c < 0x20) : b ≠ c := fun h => absurd hc (UInt8.not_lt.2 (h ▸ hle))
  rw [escaped?, if_neg hquote, if_neg hbackslash, if_neg (hne (by decide)), if_neg (hne (by decide)),
    if_neg (hne (by decide)), if_neg (hne (by decide)), if_neg (hne (by decide)), if_neg (UInt8.not_lt.2 hle)]

theorem escape_eq_singleton_iff {c : Char} : escape c = [c] ↔ PlainChar c := by
  constructor
  · intro h
    rcases escape_cases c with ⟨-, hc⟩ | ⟨hne, -⟩
    · exact hc
    · exact absurd h hne
  · rintro ⟨hle, hquote, hbackslash⟩
    have hne {d : Char} (hd : d.toNat < 0x20) : c ≠ d := fun h => Nat.not_lt.2 hle (h ▸ hd)
    rw [escape, if_neg hquote, if_neg hbackslash, if_neg (hne (by decide)), if_neg (hne (by decide)),
      if_neg (hne (by decide)), if_neg (hne (by decide)), if_neg (hne (by decide)), if_neg (Nat.not_lt.2 hle)]

theorem not_plainChar_cases {c : Char} (hc : ¬ PlainChar c) : c.toNat < 0x20 ∨ c = '"' ∨ c = '\\' := by
  by_cases hlt : c.toNat < 0x20
  · exact .inl hlt
  · by_cases hquote : c = '"'
    · exact .inr (.inl hquote)
    · exact .inr (.inr (Decidable.byContradiction fun hbackslash => hc ⟨Nat.not_lt.1 hlt, hquote, hbackslash⟩))

/-- Other characters are single bytes, and their escapes are those of the bytes. -/
theorem escaped?_of_not_plainChar {c : Char} (hc : ¬ PlainChar c) : ∃ b e, String.utf8EncodeChar c = [b] ∧
    escaped? b = some e ∧ (if e.isEmpty then numbered b else e) = ofChars (escape c) := by
  have hcontrol : ∀ n < 0x20, String.utf8EncodeChar (Char.ofNat n) = [.ofNat n] ∧
      ∃ e ∈ escaped? (.ofNat n), (if e.isEmpty then numbered (.ofNat n) else e) = ofChars (escape (Char.ofNat n)) := by
    decide
  rcases not_plainChar_cases hc with hlt | rfl | rfl
  · obtain ⟨he, e, hmem, hout⟩ := hcontrol c.toNat hlt
    rw [Char.ofNat_toNat] at he hout
    exact ⟨_, e, he, hmem, hout⟩
  · exact ⟨quote, _, rfl, rfl, rfl⟩
  · exact ⟨backslash, _, rfl, rfl, rfl⟩

/-- No escape has a control byte. -/
theorem le_of_mem_escape {c : Char} {b : UInt8} (hb : b ∈ ofChars (escape c)) : 0x20 ≤ b := by
  have hcontrol : ∀ n < 0x20, ∀ b ∈ ofChars (escape (Char.ofNat n)), 0x20 ≤ b := by decide +kernel
  by_cases hc : PlainChar c
  · have hplain : isPlain b = true := by
      rw [escape_eq_singleton_iff.2 hc, ofChars_cons, ofChars_nil, List.append_nil] at hb
      exact (plainChar_iff c).1 hc b hb
    simp only [isPlain, Bool.and_eq_true, decide_eq_true_eq] at hplain
    exact hplain.1.1
  · rcases not_plainChar_cases hc with hlt | rfl | rfl
    · exact hcontrol c.toNat hlt b (by rwa [Char.ofNat_toNat])
    · exact List.forall_mem_cons.2 ⟨by decide, List.forall_mem_singleton.2 (by decide)⟩ b hb
    · exact List.forall_mem_cons.2 ⟨by decide, List.forall_mem_singleton.2 (by decide)⟩ b hb

theorem flatMap_escape_of_plainChar {cs : List Char} (h : ∀ c ∈ cs, PlainChar c) : cs.flatMap escape = cs := by
  induction cs with
  | nil => rfl
  | cons c cs ih =>
      obtain ⟨hc, hcs⟩ := List.forall_mem_cons.1 h
      rw [List.flatMap_cons, escape_eq_singleton_iff.2 hc, ih hcs, List.singleton_append]

/-! ## Runs -/

/-- The writer behind some characters, with nothing held back. -/
def behind (cs : List Char) : State := ⟨(ofChars cs).length, quote :: ofChars (cs.flatMap escape)⟩

theorem behind_nil : behind [] = {} := rfl

/-- What is written and what is held back make up the literal so far. -/
theorem flush_behind (kept : List Char) {held : List Char} (h : ∀ c ∈ held, PlainChar c) (rest : List Char) :
    (behind kept).flush (ofChars (kept ++ (held ++ rest))) (ofChars (kept ++ held)).length =
      some (quote :: ofChars ((kept ++ held).flatMap escape)) := by
  have hlength : (ofChars (kept ++ held)).length = (ofChars kept).length + (ofChars held).length := by
    rw [ofChars_append, List.length_append]
  rw [State.flush, behind, slice?_ofChars, List.flatMap_append, flatMap_escape_of_plainChar h,
    ofChars_append (kept.flatMap escape)]
  split
  · rfl
  · rename_i hnot
    dsimp only at hnot ⊢
    have hnil : (ofChars held).length = 0 := by omega
    rw [List.eq_nil_of_length_eq_zero hnil, List.append_nil]

theorem run_plain {s p : Bytes} (hp : ∀ b ∈ p, isPlain b = true) (i : Nat) (r : Bytes) (st : State) :
    run s i (p ++ r) st = run s (i + p.length) r st := by
  induction p generalizing i with
  | nil => rfl
  | cons b p ih =>
      obtain ⟨hb, hp⟩ := List.forall_mem_cons.1 hp
      rw [List.cons_append, run, step, escaped?_of_isPlain hb, Option.bind_some, ih hp, List.length_cons, Nat.add_assoc,
        Nat.add_comm 1]

/-- Characters are held back while they are plain. Any other one is written behind those. -/
theorem run_behind (kept held : List Char) (h : ∀ c ∈ held, PlainChar c) (rest : List Char) :
    ∃ kept' held', kept' ++ held' = kept ++ (held ++ rest) ∧ (∀ c ∈ held', PlainChar c) ∧
      run (ofChars (kept ++ (held ++ rest))) (ofChars (kept ++ held)).length (ofChars rest) (behind kept) =
        some (behind kept') := by
  induction rest generalizing kept held with
  | nil => exact ⟨kept, held, by rw [List.append_nil], h, rfl⟩
  | cons c rest ih =>
      have hmore : kept ++ (held ++ c :: rest) = kept ++ ((held ++ [c]) ++ rest) := by simp
      by_cases hc : PlainChar c
      · obtain ⟨kept', held', heq, hheld, hrun⟩ :=
          ih kept (held ++ [c]) (List.forall_mem_append.2 ⟨h, List.forall_mem_singleton.2 hc⟩)
        refine ⟨kept', held', heq.trans hmore.symm, hheld, ?_⟩
        have hplace : (ofChars (kept ++ (held ++ [c]))).length =
            (ofChars (kept ++ held)).length + (String.utf8EncodeChar c).length := by
          rw [← List.append_assoc, ofChars_append, List.length_append, ofChars_cons, ofChars_nil, List.append_nil]
        rw [ofChars_cons, run_plain ((plainChar_iff c).1 hc), hmore, ← hrun, hplace]
      · obtain ⟨b, e, he, hescaped, hout⟩ := escaped?_of_not_plainChar hc
        obtain ⟨kept', held', heq, hheld, hrun⟩ := ih (kept ++ held ++ [c]) [] (List.forall_mem_nil _)
        have hmore' : kept ++ (held ++ c :: rest) = (kept ++ held ++ [c]) ++ ([] ++ rest) := by simp
        refine ⟨kept', held', heq.trans hmore'.symm, hheld, ?_⟩
        have hstep : step (ofChars (kept ++ (held ++ c :: rest))) (ofChars (kept ++ held)).length b (behind kept) =
            some (behind (kept ++ held ++ [c])) := by
          rw [step, hescaped]
          dsimp only
          rw [flush_behind kept h, hout, Option.map_some, behind, ofChars_append _ [c], List.length_append,
            ofChars_cons, he, List.flatMap_append, ofChars_append (List.flatMap escape _)]
          simp
        rw [ofChars_cons, he, List.singleton_append, run, hstep, Option.bind_some, hmore', ← hrun, List.append_nil,
          ofChars_append _ [c], List.length_append, ofChars_cons, he]
        rfl

/-- The writer writes the literal of a text. -/
theorem write_encode (t : String) : write (encode t) = some (ofChars (literal t)) := by
  obtain ⟨kept, held, heq, hheld, hrun⟩ := run_behind [] [] (List.forall_mem_nil _) t.toList
  have hflush := flush_behind kept hheld []
  rw [List.append_nil, heq] at hflush
  rw [write, encode_eq_ofChars]
  simp only [List.nil_append, ofChars_nil, List.length_nil, behind_nil] at hrun hflush
  rw [hrun, Option.bind_some, hflush, literal, ofChars_cons, ofChars_append]
  rfl

/-! ## Reading back -/

theorem le_of_mem_literal {t : String} {b : UInt8} (hb : b ∈ ofChars (literal t)) : 0x20 ≤ b := by
  have hquote : b ∈ String.utf8EncodeChar '"' → 0x20 ≤ b :=
    List.forall_mem_singleton.2 (show (0x20 : UInt8) ≤ quote by decide) b
  rw [literal, ofChars_cons, ofChars_append, ofChars_cons, ofChars_nil, List.append_nil] at hb
  rcases List.mem_append.1 hb with hb | hb
  · exact hquote hb
  · rcases List.mem_append.1 hb with hb | hb
    · obtain ⟨d, hd, hb⟩ := List.mem_flatMap.1 hb
      obtain ⟨c, -, hd⟩ := List.mem_flatMap.1 hd
      exact le_of_mem_escape (List.mem_flatMap.2 ⟨d, hd, hb⟩)
    · exact hquote hb

theorem storage_eq_borrowed_iff (t : String) : storage t = .borrowed ↔ ∀ c ∈ t.toList, PlainChar c := by
  have hany : (t.toList.any fun c => escape c != [c]) = false ↔ ∀ c ∈ t.toList, PlainChar c := by
    simp only [List.any_eq_false, bne_iff_ne, ne_eq, escape_eq_singleton_iff, Classical.not_not]
  rw [← hany, storage]
  cases t.toList.any fun c => escape c != [c] <;> decide

theorem forall_plainChar_iff (cs : List Char) :
    (∀ c ∈ cs, PlainChar c) ↔ '"' ∉ cs ∧ '\\' ∉ cs ∧ ∀ c ∈ cs, 0x20 ≤ c.toNat := by
  constructor
  · intro h
    exact ⟨fun hmem => (h _ hmem).2.1 rfl, fun hmem => (h _ hmem).2.2 rfl, fun c hc => (h c hc).1⟩
  · rintro ⟨hquote, hbackslash, hle⟩ c hc
    exact ⟨hle c hc, fun heq => hquote (heq ▸ hc), fun heq => hbackslash (heq ▸ hc)⟩

theorem storage_stored_eq_borrowed_iff (t : String) (o : Options) :
    (stored o ⟨t, storage t⟩).storage = .borrowed ↔
      o.contains .borrowing = true ∧ '"' ∉ t.toList ∧ '\\' ∉ t.toList ∧ ∀ c ∈ t.toList, 0x20 ≤ c.toNat := by
  rw [← forall_plainChar_iff, ← storage_eq_borrowed_iff, stored]
  cases o.contains .borrowing with
  | true => exact (and_iff_right rfl).symm
  | false => exact iff_of_false Storage.noConfusion fun h => Bool.false_ne_true h.1

theorem string_literal (t : String) (o : Options) :
    ∃ p, ofChars (literal t) = quote :: p ∧
      ∀ rest, Document.string o (p ++ rest) = .ok (.string (stored o ⟨t, storage t⟩), rest) := by
  refine ⟨_, rfl, fun rest => ?_⟩
  rw [Document.string, read_append (literalText_literal t) rest]
  rfl

/-- The scanner reads a literal in the middle of a document as by itself, and stops behind its closing quote. -/
theorem string_of_read {before p rest : Bytes} {s : Checked.State} {o : Options} {v : Value}
    (h : Checked.Good (before ++ (quote :: p ++ rest)) s) (hidx : s.idx = before.length)
    (hread : Document.string o (p ++ rest) = .ok (v, rest)) :
    Checked.string (before ++ (quote :: p ++ rest)) o s = .ok (v, s.at (before.length + (quote :: p).length)) := by
  have hlt : s.idx < (before ++ (quote :: p ++ rest)).length := by
    rw [hidx, List.length_append, List.cons_append, List.length_cons]
    omega
  have hreads := h.reads_string hlt o
  have hdrop : (before ++ (quote :: p ++ rest)).drop (s.idx + 1) = p ++ rest := by
    rw [hidx, ← List.drop_drop, List.drop_left, List.cons_append, List.drop_one, List.tail_cons]
  rw [hdrop, hread] at hreads
  generalize hx : (Except.ok (v, rest) : Except Fault (Value × Bytes)) = x at hreads
  generalize hy : Checked.string (before ++ (quote :: p ++ rest)) o s = y at hreads
  cases hreads with
  | error => cases hx
  | @ok a i hlo hhi =>
      obtain ⟨rfl, hrest⟩ := Prod.mk.inj (Except.ok.inj hx)
      have hlength := congrArg List.length hrest
      rw [List.length_drop] at hlength
      simp only [List.length_append, List.length_cons] at hlength hhi
      have hi : i = before.length + (quote :: p).length := by
        rw [List.length_cons]
        omega
      rw [hi]

/-- Every text is read back from what the writer writes, whatever stands behind it: the scanner stops behind the closing
quote. The literal is UTF-8 without control bytes, and the text borrows the document if nothing in it is escaped. -/
theorem string_write (t : String) (o : Options) :
    ∃ p u, write (encode t) = some (quote :: p) ∧
      (∀ b ∈ quote :: p, 0x20 ≤ b) ∧ (∃ cs, decode (quote :: p) = .ok cs) ∧
      u.content = t ∧
      (u.storage = .borrowed ↔
        o.contains .borrowing = true ∧ '"' ∉ t.toList ∧ '\\' ∉ t.toList ∧ ∀ c ∈ t.toList, 0x20 ≤ c.toNat) ∧
      (∀ rest, Document.string o (p ++ rest) = .ok (.string u, rest)) ∧
      ∀ before rest s, Checked.Good (before ++ (quote :: p ++ rest)) s → s.idx = before.length →
        Checked.string (before ++ (quote :: p ++ rest)) o s =
          .ok (.string u, s.at (before.length + (quote :: p).length)) := by
  obtain ⟨p, hp, hread⟩ := string_literal t o
  have hcontent : (stored o ⟨t, storage t⟩).content = t := by
    rw [stored]
    cases o.contains .borrowing <;> rfl
  refine ⟨p, stored o ⟨t, storage t⟩, hp ▸ write_encode t, fun b hb => ?_, ⟨.ofList (literal t), ?_⟩, hcontent,
    storage_stored_eq_borrowed_iff t o, hread, fun before rest s h hidx => string_of_read h hidx (hread rest)⟩
  · exact le_of_mem_literal (hp ▸ hb)
  · rw [← hp, decode_eq_ok_iff, encode_eq_ofChars, String.toList_ofList]

theorem string_write_inArray :
    ∃ p, write (encode "é\"\\\n\x01") = some (quote :: p) ∧
      Checked.string ([openBracket] ++ (quote :: p ++ [comma])) (.enable {} .borrowing) { idx := 1 } =
        .ok (.string ⟨"é\"\\\n\x01", .owned⟩, { idx := 17 }) := by
  obtain ⟨p, ⟨content, storage⟩, hwrite, -, -, rfl, hstorage, -, hread⟩ :=
    string_write "é\"\\\n\x01" (.enable {} .borrowing)
  have howned : storage = .owned := by
    cases storage with
    | borrowed => exact absurd (hstorage.1 rfl).2.1 (by decide)
    | owned => rfl
  have hlength : (quote :: p).length = 16 := congrArg (fun lit : Option Bytes => (lit.getD []).length) hwrite.symm
  have hdoc : ([openBracket] ++ (quote :: p ++ [comma])).length = 18 := by
    rw [List.length_append, List.length_append, hlength]
    rfl
  have hgood : Checked.Good ([openBracket] ++ (quote :: p ++ [comma])) { idx := 1 } :=
    ⟨by omega, by dsimp only; omega, Nat.zero_le _, Nat.le_refl _⟩
  refine ⟨p, hwrite, ?_⟩
  rw [hread _ _ _ hgood rfl, hlength, howned]
  rfl

end JsonTree.Escaper
