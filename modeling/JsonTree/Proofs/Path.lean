import JsonTree.Path

/-!
# Key paths

A text is a path in one way, and a list of keys without dots is the list of segments of one text. A reader that takes
runs of characters with dots between them finds these segments, and it does not give up on any text.
-/

namespace JsonTree.Path

variable {α β : Type} {cs : List Char}

/-! ## Segments -/

theorem split_eq_splitOn (cs : List Char) : (split cs).1 :: (split cs).2 = cs.splitOn '.' := by
  induction cs with
  | nil => rfl
  | cons c cs ih =>
      rw [List.splitOn_cons_eq_if_modifyHead, ← ih, split]
      by_cases hc : c = '.' <;> simp [hc]

theorem map_toList_segments (s : String) : (ofString s).segments.map String.toList = s.toList.splitOn '.' := by
  rw [← split_eq_splitOn]
  simp [ofString, segments, Function.comp_def]

theorem segments_ofString (s : String) : (ofString s).segments = (s.toList.splitOn '.').map String.ofList := by
  simp [← map_toList_segments, Function.comp_def]

theorem not_mem_of_mem_splitOn {run : List Char} (h : run ∈ cs.splitOn '.') : '.' ∉ run := by
  induction cs generalizing run with
  | nil => simp_all
  | cons c cs ih =>
      rw [List.splitOn_cons_eq_if_modifyHead] at h
      split at h
      · rcases List.mem_cons.1 h with rfl | h
        · exact List.not_mem_nil
        · exact ih h
      · rename_i hc
        obtain ⟨first, runs, hs⟩ := List.exists_cons_of_ne_nil (List.splitOn_ne_nil '.' cs)
        rw [hs, List.modifyHead_cons] at h
        rcases List.mem_cons.1 h with rfl | h
        · have hfirst : '.' ∉ first := ih (hs ▸ List.mem_cons_self)
          rw [List.mem_cons, not_or]
          exact ⟨fun h => hc (beq_iff_eq.2 h.symm), hfirst⟩
        · exact ih (hs ▸ List.mem_cons_of_mem _ h)

theorem length_splitOn (cs : List Char) : (cs.splitOn '.').length = cs.count '.' + 1 := by
  induction cs with
  | nil => rfl
  | cons c cs ih =>
      rw [List.splitOn_cons_eq_if_modifyHead]
      by_cases hc : c = '.' <;> simp [hc, ih]

theorem toList_text (p : Path) : p.text.toList = ['.'].intercalate (p.segments.map String.toList) := by
  obtain ⟨first, rest⟩ := p
  simp only [text, segments, String.toList_ofList, List.map_cons]
  induction rest generalizing first with
  | nil => simp
  | cons k rest ih => simp [List.intercalate_cons_cons, ← ih]

theorem text_eq_intercalate (p : Path) : p.text = ".".intercalate p.segments := by
  rw [← String.toList_inj, toList_text]
  simp [String.toList_intercalate]

theorem text_ofString (s : String) : (ofString s).text = s := by
  rw [← String.toList_inj, toList_text, map_toList_segments, List.intercalate_splitOn]

theorem segments_ofString_intercalate {ks : List String} (hne : ks ≠ []) (hks : ∀ k ∈ ks, '.' ∉ k.toList) :
    (ofString (".".intercalate ks)).segments = ks := by
  have hs : (".".intercalate ks).toList.splitOn '.' = ks.map String.toList := by
    rw [String.toList_intercalate]
    exact List.splitOn_intercalate '.' (by simpa using hks) (by simpa using hne)
  rw [segments_ofString, hs]
  simp [Function.comp_def]

theorem segments_eq_parents_append (p : Path) : p.segments = p.parents ++ [p.leaf] := by
  obtain ⟨first, rest⟩ := p
  rw [segments, parents, leaf, ← List.getLast_eq_getLastD (List.cons_ne_nil first rest)]
  exact (List.dropLast_concat_getLast _).symm

/-- The last segment, and the segments before it. -/
def splitLast (ks : List String) : String × List String :=
  match ks.getLast? with
  | some k => (k, ks.dropLast)
  | none => ("", [])

theorem splitLast_segments (p : Path) : splitLast p.segments = (p.leaf, p.parents) := by
  rw [splitLast, segments_eq_parents_append, List.getLast?_concat, List.dropLast_concat]

/-! ## Readers -/

/-- How a reader gives up. After an error something else may be read in its place, after a failure not. -/
inductive Halt where
  | error
  | failure

/-- A way to read one thing off the head of a text. It gives the thing and what is behind it. -/
structure TextReader (α : Type) where
  read : List Char → Except Halt (α × List Char)
  suffix : ∀ {s a r}, read s = .ok (a, r) → r <:+ s

/-- What there is behind an element if separators and elements are read in turn. A separator is left where it is if no
element is behind it. -/
inductive Alternates (separator : TextReader β) (element : TextReader α) : List Char → List α → List Char → Prop where
  | noSeparator {s} (h : separator.read s = .error .error) : Alternates separator element s [] s
  | noElement {s b t} (h : separator.read s = .ok (b, t)) (hlt : t.length < s.length)
      (h' : element.read t = .error .error) : Alternates separator element s [] s
  | more {s b t a u as r} (h : separator.read s = .ok (b, t)) (hlt : t.length < s.length)
      (h' : element.read t = .ok (a, u)) (hmore : Alternates separator element u as r) :
      Alternates separator element s (a :: as) r

/-- The readers, and the ways to make readers, that paths are read with. -/
structure Combinators where
  takeTill : (Char → Bool) → TextReader (List Char)
  char : Char → TextReader Char
  separatedList1 {α β : Type} : TextReader β → TextReader α → TextReader (List α)
  allConsuming {α : Type} : TextReader α → TextReader α

namespace Combinators

/-- What the readers are documented to do. -/
structure Documented (c : Combinators) : Prop where
  /-- Gives the longest start of the text, maybe an empty one, in which the condition is not met. -/
  takeTill : ∀ p s, (c.takeTill p).read s = .ok (s.takeWhile (!p ·), s.dropWhile (!p ·))
  /-- Reads one character. -/
  char : ∀ x s, (c.char x).read (x :: s) = .ok (x, s)
  char_nil : ∀ x, (c.char x).read [] = .error .error
  /-- Reads an element, and then separators and elements until an error. -/
  separatedList1 : ∀ {α β} (separator : TextReader β) (element : TextReader α) {s a t as r},
    element.read s = .ok (a, t) → Alternates separator element t as r →
    (c.separatedList1 separator element).read s = .ok (a :: as, r)
  /-- Reads what is the whole text. -/
  allConsuming : ∀ {α} (reader : TextReader α) {s a}, reader.read s = .ok (a, []) →
    (c.allConsuming reader).read s = .ok (a, [])

def isDot (x : Char) : Bool := x == '.'

variable (c : Combinators)

/-- Reads runs of characters with dots between them. -/
def runs : TextReader (List (List Char)) := c.separatedList1 (c.char '.') (c.takeTill isDot)

/-- The segments of a text: the runs that are read, or the text as one segment if reading gives up. -/
def keys (s : String) : List String :=
  match (c.allConsuming c.runs).read s.toList with
  | .ok (runs, _) => runs.map String.ofList
  | .error _ => [s]

/-! ## Reading -/

theorem splitOn_eq_takeWhile (cs : List Char) : cs.splitOn '.' =
    cs.takeWhile (!isDot ·) :: match cs.dropWhile (!isDot ·) with | [] => [] | _ :: r => r.splitOn '.' := by
  induction cs with
  | nil => rfl
  | cons c cs ih =>
      rw [List.splitOn_cons_eq_if_modifyHead]
      by_cases hc : c = '.' <;> simp [isDot, hc, ih]

variable {c : Combinators}

/-- Each dot is a separator, and a run of characters follows, be it empty. -/
theorem Documented.alternates (hc : c.Documented) (cs : List Char) :
    Alternates (c.char '.') (c.takeTill isDot) (cs.dropWhile (!isDot ·)) (cs.splitOn '.').tail [] := by
  rw [splitOn_eq_takeWhile, List.tail_cons]
  cases hd : cs.dropWhile (!isDot ·) with
  | nil => exact .noSeparator (hc.char_nil '.')
  | cons d r =>
      have hlt : r.length < cs.length := by
        have hle : (d :: r).length ≤ cs.length := hd ▸ (List.dropWhile_suffix (!isDot ·)).length_le
        exact hle
      have hdot : isDot d = true := by simpa [hd] using List.head?_dropWhile_not (!isDot ·) cs
      rw [isDot, beq_iff_eq] at hdot
      subst hdot
      have hr := alternates hc r
      dsimp only
      rw [splitOn_eq_takeWhile] at hr ⊢
      exact .more (hc.char '.' r) (by simp) (hc.takeTill isDot r) hr
termination_by cs.length

theorem Documented.read_runs (hc : c.Documented) (cs : List Char) :
    (c.allConsuming c.runs).read cs = .ok (cs.splitOn '.', []) := by
  have h := hc.separatedList1 _ _ (hc.takeTill isDot cs) (hc.alternates cs)
  rw [splitOn_eq_takeWhile] at h ⊢
  exact hc.allConsuming _ h

theorem Documented.keys_eq (hc : c.Documented) (s : String) : c.keys s = (ofString s).segments := by
  rw [keys, hc.read_runs, segments_ofString]

end Combinators

/-! ## Paths -/

/-- Let the readers do what they are documented to do. Then they never give up, and what they read of a text are the
segments of the path that it is. There is one more than the text has dots, none has a dot in it, and with dots between
them they are the text again. The keys of a path are its last segment and those before it. And from any keys without
dots, if there is one, a path comes that has just these segments. -/
theorem keys_of_documented (c : Combinators) (hc : c.Documented) :
    (∀ s, let p := ofString s
      (∃ runs, (c.allConsuming c.runs).read s.toList = .ok (runs, [])) ∧
      c.keys s = p.segments ∧
      c.keys s ≠ [] ∧
      (∀ k ∈ c.keys s, '.' ∉ k.toList) ∧
      (c.keys s).length = s.toList.count '.' + 1 ∧
      p.text = s ∧
      ".".intercalate (c.keys s) = s ∧
      splitLast (c.keys s) = (p.leaf, p.parents) ∧
      c.keys s = p.parents ++ [p.leaf]) ∧
    ∀ ks, ks ≠ [] → (∀ k ∈ ks, '.' ∉ k.toList) →
      c.keys (".".intercalate ks) = ks ∧ (ofString (".".intercalate ks)).segments = ks := by
  refine ⟨fun s => ?text, fun ks hne hks => ?keys⟩
  case text =>
    intro p
    have hkeys : c.keys s = p.segments := hc.keys_eq s
    have htext : p.text = s := text_ofString s
    have hdots : ∀ k ∈ p.segments, '.' ∉ k.toList := by
      intro k hk
      have hmem : k.toList ∈ p.segments.map String.toList := List.mem_map_of_mem hk
      rw [map_toList_segments] at hmem
      exact not_mem_of_mem_splitOn hmem
    have hlength : p.segments.length = s.toList.count '.' + 1 := by
      rw [← length_splitOn, ← map_toList_segments, List.length_map]
    rw [hkeys, ← text_eq_intercalate]
    exact ⟨⟨_, hc.read_runs s.toList⟩, rfl, List.cons_ne_nil _ _, hdots, hlength, htext, htext, splitLast_segments p,
      segments_eq_parents_append p⟩
  case keys =>
    have h := segments_ofString_intercalate hne hks
    exact ⟨(hc.keys_eq _).trans h, h⟩

/-! ## Plain readers -/

namespace TextReader

def takeTill (p : Char → Bool) : TextReader (List Char) where
  read s := .ok (s.takeWhile (!p ·), s.dropWhile (!p ·))
  suffix := by
    intro s a r h
    cases h
    exact List.dropWhile_suffix _

def char (x : Char) : TextReader Char where
  read
    | [] => .error .error
    | y :: s => if x = y then .ok (y, s) else .error .error
  suffix := by
    intro s a r h
    cases s with
    | nil => cases h
    | cons y s =>
        dsimp only at h
        split at h
        · cases h
          exact List.suffix_cons _ _
        · cases h

theorem suffix_of_map {x : Except Halt (α × List Char)} {f : α → β} {b : β} {s r : List Char}
    (hx : ∀ {a r}, x = .ok (a, r) → r <:+ s) (h : x.map (Prod.map f id) = .ok (b, r)) : r <:+ s := by
  cases x with
  | error _ => cases h
  | ok y =>
      cases h
      exact hx rfl

/-- Reads separators and elements in turn. -/
def readMore (separator : TextReader β) (element : TextReader α) (s : List Char) :
    Except Halt (List α × List Char) :=
  match separator.read s with
  | .error .error => .ok ([], s)
  | .error .failure => .error .failure
  | .ok (_, t) =>
      match element.read t with
      | .error .error => .ok ([], s)
      | .error .failure => .error .failure
      | .ok (a, u) =>
          if u.length < s.length then (readMore separator element u).map (Prod.map (a :: ·) id) else .error .error
termination_by s.length

theorem suffix_of_readMore {separator : TextReader β} {element : TextReader α} {s r : List Char} {as : List α}
    (h : readMore separator element s = .ok (as, r)) : r <:+ s := by
  fun_induction readMore separator element s generalizing as r with
  | case1 | case3 =>
      cases h
      exact List.suffix_rfl
  | case2 | case4 | case6 => cases h
  | case5 s b t hb a u ha _ ih =>
      have hu : u <:+ s := (element.suffix ha).trans (separator.suffix hb)
      exact suffix_of_map (fun h => (ih h).trans hu) h

theorem readMore_of_alternates {separator : TextReader β} {element : TextReader α} {s r : List Char} {as : List α}
    (h : Alternates separator element s as r) : readMore separator element s = .ok (as, r) := by
  induction h with
  | noSeparator h => simp [readMore, h]
  | noElement h _ h' => simp [readMore, h, h']
  | more h hlt h' _ ih =>
      have hle := (element.suffix h').length_le
      rw [readMore]
      simp [h, h', ih, Nat.lt_of_le_of_lt hle hlt, Except.map]

def separatedList1 (separator : TextReader β) (element : TextReader α) : TextReader (List α) where
  read s :=
    match element.read s with
    | .error e => .error e
    | .ok (a, t) => (readMore separator element t).map (Prod.map (a :: ·) id)
  suffix := by
    intro s as r h
    split at h
    · cases h
    · rename_i a t ha
      exact suffix_of_map (fun h => (suffix_of_readMore h).trans (element.suffix ha)) h

def allConsuming (reader : TextReader α) : TextReader α where
  read s :=
    match reader.read s with
    | .error e => .error e
    | .ok (a, []) => .ok (a, [])
    | .ok (_, _ :: _) => .error .error
  suffix := by
    intro s a r h
    split at h <;> cases h
    exact List.nil_suffix

end TextReader

/-- Readers that do as documented. -/
def Combinators.plain : Combinators where
  takeTill := .takeTill
  char := .char
  separatedList1 := .separatedList1
  allConsuming := .allConsuming

theorem Combinators.documented_plain : Combinators.plain.Documented where
  takeTill _ _ := rfl
  char x s := by simp [plain, TextReader.char]
  char_nil _ := rfl
  separatedList1 separator element := by
    intro s a t as r h hmore
    simp [plain, TextReader.separatedList1, h, TextReader.readMore_of_alternates hmore, Except.map]
  allConsuming reader := by
    intro s a h
    simp [plain, TextReader.allConsuming, h]

/-- Keys that are empty, at both ends too. -/
theorem keys_of_documented_emptyKeys :
    let ks := ["", "a", "", "é", ""]
    Combinators.plain.Documented ∧ ks ≠ [] ∧ (∀ k ∈ ks, '.' ∉ k.toList) ∧
    Combinators.plain.keys ".a..é." = ks ∧ Combinators.plain.keys "" = [""] := by
  intro ks
  obtain ⟨htext, hkeys⟩ := keys_of_documented .plain Combinators.documented_plain
  have hks : ∀ k ∈ ks, '.' ∉ k.toList := by decide
  obtain ⟨-, hempty, -⟩ := htext ""
  exact ⟨Combinators.documented_plain, by decide, hks, (hkeys ks (by decide) hks).1, hempty⟩

end JsonTree.Path
