import JsonTree.Proofs.Options

/-!
# Options as machine words

Options are also given as a word of flags, with a bit for each, and a word for the limit. What a run of operations makes
of the options of an option string can be told from the string and the operations: of those that name a flag, the last
one counts. No bit is ever set but those of flags, so the options can be written as an option string again.
-/

namespace JsonTree

/-! ## Flags -/

namespace Flag

/-- The word with the bit of a flag only. -/
def mask (f : Flag) : UInt32 := 1 <<< UInt32.ofNat f.place

/-- The letters of option strings in their order, each with the flag that it names. -/
def table : List (Char × Flag) :=
  [('R', .borrowing), ('C', .trailingCommas), ('K', .uniqueKeys), ('N', .nonFinite), ('P', .pretty),
    ('U', .escapeNonAscii), ('L', .lossless), ('I', .integersForDoubles), ('E', .stopAtError)]

/-- The flag in the first row with a letter. -/
def lookUp? (c : Char) : Option Flag := (table.find? fun e => e.1 == c).map Prod.snd

/-- The letter in the first row with a flag. -/
def tableLetter (f : Flag) : Char := ((table.find? fun e => e.2 == f).map Prod.fst).getD '?'

theorem table_eq : table = all.map fun f => (f.letter, f) := rfl

theorem mem_all (f : Flag) : f ∈ all := by cases f <;> decide

theorem letter_mem (f : Flag) : f.letter ∈ "RCKNPULIE".toList := List.mem_map_of_mem (mem_all f)

theorem place_lt (f : Flag) : f.place < 9 := by cases f <;> decide

theorem lookUp?_eq_ofLetter? (c : Char) : lookUp? c = ofLetter? c := by
  rw [lookUp?, table_eq, List.find?_map, Option.map_map]
  exact Option.map_id'

theorem tableLetter_eq_letter (f : Flag) : f.tableLetter = f.letter := by cases f <;> rfl

/-- Letters and flags name each other. -/
theorem lookUp?_eq_some_iff {c : Char} {f : Flag} : lookUp? c = some f ↔ c = f.letter := by
  constructor
  · intro h
    rw [lookUp?_eq_ofLetter?] at h
    have := List.find?_some h
    exact (beq_iff_eq.1 this).symm
  · rintro rfl
    cases f <;> rfl

theorem letter_inj {f g : Flag} : f.letter = g.letter ↔ f = g := by
  constructor
  · intro h
    have hf := lookUp?_eq_some_iff.2 h
    rw [lookUp?_eq_some_iff.2 rfl] at hf
    exact Option.some.inj hf
  · exact congrArg letter

theorem lookUp?_eq_none_iff {c : Char} : lookUp? c = none ↔ c ∉ "RCKNPULIE".toList := by
  rw [Option.eq_none_iff_forall_ne_some]
  simp only [ne_eq, lookUp?_eq_some_iff]
  constructor
  · intro h hc
    obtain ⟨f, -, hf⟩ := List.mem_map.1 (show c ∈ all.map letter from hc)
    exact h f hf.symm
  · rintro h f rfl
    exact h f.letter_mem

end Flag

/-! ## Options -/

structure OptionWords where
  flags : UInt32 := 0
  depthLimit : Int32 := 100
  deriving DecidableEq, Repr

namespace OptionWords

def contains (w : OptionWords) (f : Flag) : Bool := w.flags &&& f.mask != 0

def enable (w : OptionWords) (f : Flag) : OptionWords := { w with flags := w.flags ||| f.mask }

def disable (w : OptionWords) (f : Flag) : OptionWords := { w with flags := w.flags &&& ~~~f.mask }

def set (w : OptionWords) (f : Flag) (on : Bool) : OptionWords := if on then w.enable f else w.disable f

def withDepthLimit (w : OptionWords) (limit : Int32) : OptionWords := { w with depthLimit := limit }

def bits (w : OptionWords) : Nat := w.flags.toNat

/-- Turns on the flags that the letters name, up to the first letter that names none. -/
def setLetters (w : OptionWords) : List Char → Except Failure OptionWords
  | [] => .ok w
  | c :: cs =>
      match Flag.lookUp? c with
      | some f => (w.set f true).setLetters cs
      | none => .error (.unknownFlag c)

def ofString (s : String) : Except Failure OptionWords := setLetters {} s.toList

def letters (w : OptionWords) : String := String.ofList ((Flag.table.filter fun e => w.contains e.2).map Prod.fst)

/-- The same options. -/
def toOptions (w : OptionWords) : Options := ⟨w.flags.toBitVec.setWidth 9, w.depthLimit.toInt⟩

variable {w w' : OptionWords} {f g : Flag} {on : Bool}

/-! ## Bits -/

theorem toBitVec_mask (f : Flag) : f.mask.toBitVec = BitVec.twoPow 32 f.place := by cases f <;> rfl

theorem contains_eq (w : OptionWords) (f : Flag) : w.contains f = w.flags.toBitVec.getLsbD f.place := by
  have hlt : f.place < 32 := Nat.lt_trans f.place_lt (by decide)
  have hne : BitVec.twoPow 32 f.place ≠ 0#32 := by cases f <;> decide
  have hzero : w.contains f = (w.flags.toBitVec &&& BitVec.twoPow 32 f.place != 0#32) := by
    rw [contains, Bool.eq_iff_iff, bne_iff_ne, bne_iff_ne, ne_eq, ne_eq, ← UInt32.toBitVec_inj, UInt32.toBitVec_and,
      toBitVec_mask, UInt32.toBitVec_zero]
  rw [hzero, BitVec.and_twoPow]
  cases w.flags.toBitVec.getLsbD f.place <;> simp [hne]

theorem contains_eq_testBit (w : OptionWords) (f : Flag) : w.contains f = w.bits.testBit f.place := contains_eq w f

/-- The places of flags are apart, so an operation changes no other flag. -/
theorem contains_set (w : OptionWords) (f g : Flag) (on : Bool) :
    (w.set f on).contains g = if g = f then on else w.contains g := by
  have hbit : (BitVec.twoPow 32 f.place).getLsbD g.place = decide (g = f) := by cases f <;> cases g <;> rfl
  have hlt : g.place < 32 := Nat.lt_trans g.place_lt (by decide)
  rw [contains_eq, contains_eq]
  cases on
  · simp only [set, disable, Bool.false_eq_true, if_false, UInt32.toBitVec_and, UInt32.toBitVec_not, toBitVec_mask,
      BitVec.getLsbD_and, BitVec.getLsbD_not, hbit, hlt]
    by_cases h : g = f <;> simp [h]
  · simp only [set, enable, if_true, UInt32.toBitVec_or, toBitVec_mask, BitVec.getLsbD_or, hbit]
    by_cases h : g = f <;> simp [h]

theorem bits_set_lt (h : w.bits < 512) (f : Flag) (on : Bool) : (w.set f on).bits < 512 := by
  cases on
  · refine Nat.lt_of_le_of_lt ?_ h
    rw [set, if_neg Bool.false_ne_true, disable, bits, UInt32.toNat_and]
    exact Nat.and_le_left
  · have hmask : f.mask.toNat < 2 ^ 9 := by cases f <;> decide
    rw [set, if_pos rfl, enable, bits, UInt32.toNat_or]
    exact Nat.or_lt_two_pow h hmask

/-- Where no other bit is set, the flags are the word. -/
theorem flags_eq_iff (h : w.bits < 512) (h' : w'.bits < 512) :
    w.flags = w'.flags ↔ ∀ f, w.contains f = w'.contains f := by
  constructor
  · intro hf f
    rw [contains, contains, hf]
  · refine fun hf => UInt32.toNat_inj.1 (Nat.eq_of_testBit_eq fun i => ?_)
    by_cases hi : i < 9
    · obtain ⟨f, rfl⟩ := Flag.exists_place_eq hi
      have := hf f
      rwa [contains_eq_testBit, contains_eq_testBit] at this
    · have hle : 2 ^ 9 ≤ 2 ^ i := Nat.pow_le_pow_right (by decide) (Nat.not_lt.1 hi)
      have hfalse := Nat.testBit_lt_two_pow (Nat.lt_of_lt_of_le h hle)
      have hfalse' := Nat.testBit_lt_two_pow (Nat.lt_of_lt_of_le h' hle)
      exact hfalse.trans hfalse'.symm

/-! ## The same options -/

theorem contains_toOptions (w : OptionWords) (f : Flag) : w.toOptions.contains f = w.contains f := by
  rw [contains_eq, Options.contains, toOptions, BitVec.getLsbD_setWidth, decide_eq_true f.place_lt, Bool.true_and]

theorem toOptions_set (w : OptionWords) (f : Flag) (on : Bool) : (w.set f on).toOptions = w.toOptions.set f on := by
  apply Options.eq_of_contains
  · intro g
    rw [contains_toOptions, contains_set, Options.contains_set, contains_toOptions]
  · cases on <;> rfl

theorem setLetters_toOptions (w : OptionWords) (cs : List Char) :
    w.toOptions.enableLetters cs = (w.setLetters cs).map toOptions := by
  induction cs generalizing w with
  | nil => rfl
  | cons c cs ih =>
      rw [Options.enableLetters, setLetters, ← Flag.lookUp?_eq_ofLetter?]
      cases Flag.lookUp? c with
      | none => rfl
      | some f =>
          dsimp only
          rw [← ih, toOptions_set]
          rfl

theorem letters_toOptions (w : OptionWords) : w.toOptions.letters = w.letters := by
  rw [Options.letters, letters, Flag.table_eq, List.filter_map, List.map_map, funext (contains_toOptions w)]
  rfl

theorem bits_toOptions (h : w.bits < 512) : w.toOptions.bits = w.bits := by
  rw [Options.bits, toOptions, BitVec.toNat_setWidth]
  exact Nat.mod_eq_of_lt h

/-! ## Option strings -/

theorem setLetters_eq_error_iff {cs : List Char} {e : Failure} : w.setLetters cs = .error e ↔
    ∃ c, cs.find? (fun c => c ∉ "RCKNPULIE".toList) = some c ∧ e = .unknownFlag c := by
  induction cs generalizing w with
  | nil => simp [setLetters]
  | cons c cs ih =>
      rw [setLetters, List.find?_cons]
      cases h : Flag.lookUp? c with
      | none =>
          rw [decide_eq_true (Flag.lookUp?_eq_none_iff.1 h)]
          simp [eq_comm]
      | some f =>
          have hc : c ∈ "RCKNPULIE".toList := Flag.lookUp?_eq_some_iff.1 h ▸ f.letter_mem
          rw [decide_eq_false (not_not_intro hc)]
          exact ih

/-- Letters of flags are all read, and turn on the flags that they name. -/
theorem exists_setLetters_eq_ok (hw : w.bits < 512) {cs : List Char} (h : ∀ c ∈ cs, c ∈ "RCKNPULIE".toList) :
    ∃ w', w.setLetters cs = .ok w' ∧ w'.bits < 512 ∧ w'.depthLimit = w.depthLimit ∧
      ∀ f, w'.contains f = true ↔ f.letter ∈ cs ∨ w.contains f = true := by
  induction cs generalizing w with
  | nil => exact ⟨w, rfl, hw, rfl, by simp⟩
  | cons c cs ih =>
      obtain ⟨hc, hcs⟩ := List.forall_mem_cons.1 h
      obtain ⟨f, -, rfl⟩ := List.mem_map.1 (show c ∈ Flag.all.map Flag.letter from hc)
      obtain ⟨w', hw', hlt, hdepth, hcontains⟩ := ih (bits_set_lt hw f true) hcs
      refine ⟨w', ?_, hlt, hdepth, fun g => ?_⟩
      · rw [setLetters, Flag.lookUp?_eq_some_iff.2 rfl]
        exact hw'
      · rw [hcontains, contains_set, List.mem_cons, Flag.letter_inj]
        by_cases hg : g = f <;> simp [hg]

theorem ofString_eq_ok_iff {s : String} : ofString s = .ok w ↔
    (∀ c ∈ s.toList, c ∈ "RCKNPULIE".toList) ∧ w.bits < 512 ∧ w.depthLimit = 100 ∧
      ∀ f, w.contains f = true ↔ f.letter ∈ s.toList := by
  have hnone (f : Flag) : ({} : OptionWords).contains f = false := by cases f <;> rfl
  have hread (h : ∀ c ∈ s.toList, c ∈ "RCKNPULIE".toList) := exists_setLetters_eq_ok (w := {}) (by decide) h
  simp only [hnone, Bool.false_eq_true, or_false] at hread
  rw [ofString]
  constructor
  · intro hw
    have h : ∀ c ∈ s.toList, c ∈ "RCKNPULIE".toList := by
      refine fun c hc => Decidable.byContradiction fun hne => ?_
      have hfind : (s.toList.find? fun c => c ∉ "RCKNPULIE".toList).isSome :=
        List.find?_isSome.2 ⟨c, hc, decide_eq_true hne⟩
      obtain ⟨d, hd⟩ := Option.isSome_iff_exists.1 hfind
      rw [setLetters_eq_error_iff.2 ⟨d, hd, rfl⟩] at hw
      cases hw
    obtain ⟨w', hw', hprops⟩ := hread h
    rw [hw] at hw'
    cases hw'
    exact ⟨h, hprops⟩
  · rintro ⟨h, hlt, hdepth, hcontains⟩
    obtain ⟨w', hw', hlt', hdepth', hcontains'⟩ := hread h
    have hflags : w.flags = w'.flags := (flags_eq_iff hlt hlt').2 fun f => by
      rw [Bool.eq_iff_iff, hcontains, hcontains']
    rw [hw']
    cases w
    cases w'
    simp_all

/-- The letters of the flags in the set, each once and in the order of the table. -/
theorem sublist_letters (w : OptionWords) : w.letters.toList.Sublist "RCKNPULIE".toList := by
  rw [letters, String.toList_ofList]
  exact (List.filter_sublist (l := Flag.table)).map Prod.fst

theorem letter_mem_letters_iff : f.letter ∈ w.letters.toList ↔ w.contains f = true := by
  rw [letters, String.toList_ofList, Flag.table_eq]
  simp only [List.filter_map, List.map_map, List.mem_map, List.mem_filter, Function.comp_apply, Flag.letter_inj]
  constructor
  · rintro ⟨g, ⟨-, hg⟩, rfl⟩
    exact hg
  · exact fun hf => ⟨f, ⟨f.mem_all, hf⟩, rfl⟩

theorem ofString_letters (h : w.bits < 512) : ofString w.letters = .ok { w with depthLimit := 100 } :=
  ofString_eq_ok_iff.2 ⟨fun _ hc => (sublist_letters w).subset hc, h, rfl, fun _ => letter_mem_letters_iff.symm⟩

/-! ## Edits -/

/-- An operation on options. -/
inductive Edit where
  | enable (f : Flag)
  | disable (f : Flag)
  | set (f : Flag) (on : Bool)
  | withDepthLimit (limit : Int32)

namespace Edit

def apply (w : OptionWords) : Edit → OptionWords
  | .enable f => w.enable f
  | .disable f => w.disable f
  | .set f on => w.set f on
  | .withDepthLimit limit => w.withDepthLimit limit

def applyToOptions (o : Options) : Edit → Options
  | .enable f => o.enable f
  | .disable f => o.disable f
  | .set f on => o.set f on
  | .withDepthLimit limit => o.withDepthLimit limit.toInt

/-- What edits make of options, one after the other. -/
def run (w : OptionWords) (es : List Edit) : OptionWords := es.foldl apply w

/-- An edit that turns the flag on, or off. -/
def Turns (f : Flag) (on : Bool) : Edit → Prop
  | .enable g => g = f ∧ on = true
  | .disable g => g = f ∧ on = false
  | .set g on' => g = f ∧ on = on'
  | .withDepthLimit _ => False

/-- An edit that does not name the flag. -/
def Spares (f : Flag) : Edit → Prop
  | .enable g | .disable g | .set g _ => g ≠ f
  | .withDepthLimit _ => True

/-- The last edit that names the flag turns it on, or off. -/
def Settles (es : List Edit) (f : Flag) (on : Bool) : Prop :=
  ∃ before e after, es = before ++ e :: after ∧ e.Turns f on ∧ ∀ e' ∈ after, e'.Spares f

def limit? : Edit → Option Int32
  | .withDepthLimit limit => some limit
  | .enable _ | .disable _ | .set .. => none

variable {es : List Edit}

/-! ### One edit -/

theorem contains_apply_eq_iff (w : OptionWords) (e : Edit) :
    (e.apply w).contains f = on ↔ e.Turns f on ∨ (w.contains f = on ∧ e.Spares f) := by
  have hset (g : Flag) (on' : Bool) : (w.set g on').contains f = on ↔
      (g = f ∧ on = on') ∨ (w.contains f = on ∧ g ≠ f) := by
    rw [contains_set]
    by_cases h : f = g
    · simp [h, eq_comm]
    · simp [h, Ne.symm h]
  cases e with
  | enable g => exact hset g true
  | disable g => exact hset g false
  | set g on' => exact hset g on'
  | withDepthLimit limit =>
      have hkeep : (apply w (.withDepthLimit limit)).contains f = w.contains f := rfl
      simp [hkeep, Turns, Spares]

theorem bits_apply_lt (h : w.bits < 512) (e : Edit) : (e.apply w).bits < 512 := by
  cases e with
  | enable f => exact bits_set_lt h f true
  | disable f => exact bits_set_lt h f false
  | set f on => exact bits_set_lt h f on
  | withDepthLimit limit => exact h

theorem depthLimit_apply (w : OptionWords) (e : Edit) : (e.apply w).depthLimit = e.limit?.getD w.depthLimit := by
  cases e with
  | set f on => cases on <;> rfl
  | enable _ | disable _ | withDepthLimit _ => rfl

theorem toOptions_apply (w : OptionWords) (e : Edit) : (e.apply w).toOptions = e.applyToOptions w.toOptions := by
  cases e with
  | enable f => exact toOptions_set w f true
  | disable f => exact toOptions_set w f false
  | set f on => exact toOptions_set w f on
  | withDepthLimit limit => rfl

/-! ### Runs -/

theorem settles_cons_iff {e : Edit} :
    Settles (e :: es) f on ↔ Settles es f on ∨ (e.Turns f on ∧ ∀ e' ∈ es, e'.Spares f) := by
  constructor
  · rintro ⟨before, e', after, h, ht, hs⟩
    cases before with
    | nil =>
        cases h
        exact .inr ⟨ht, hs⟩
    | cons _ before =>
        cases h
        exact .inl ⟨before, e', after, rfl, ht, hs⟩
  · rintro (⟨before, e', after, rfl, ht, hs⟩ | ⟨ht, hs⟩)
    · exact ⟨e :: before, e', after, rfl, ht, hs⟩
    · exact ⟨[], e, es, rfl, ht, hs⟩

theorem contains_run_eq_iff (w : OptionWords) (es : List Edit) :
    (run w es).contains f = on ↔ Settles es f on ∨ (w.contains f = on ∧ ∀ e ∈ es, e.Spares f) := by
  induction es generalizing w with
  | nil => simp [run, Settles]
  | cons e es ih =>
      have hrun : run w (e :: es) = run (e.apply w) es := rfl
      rw [hrun, ih, contains_apply_eq_iff, settles_cons_iff, List.forall_mem_cons]
      grind

theorem bits_run_lt (h : w.bits < 512) (es : List Edit) : (run w es).bits < 512 := by
  induction es generalizing w with
  | nil => exact h
  | cons e es ih => exact ih (bits_apply_lt h e)

theorem depthLimit_run (w : OptionWords) (es : List Edit) :
    (run w es).depthLimit = (es.filterMap limit?).getLast?.getD w.depthLimit := by
  induction es generalizing w with
  | nil => rfl
  | cons e es ih =>
      have hrun : run w (e :: es) = run (e.apply w) es := rfl
      rw [hrun, ih, depthLimit_apply, List.filterMap_cons]
      cases e.limit? with
      | none => rfl
      | some limit => simp [List.getLast?_cons]

theorem toOptions_run (w : OptionWords) (es : List Edit) :
    (run w es).toOptions = es.foldl applyToOptions w.toOptions := by
  induction es generalizing w with
  | nil => rfl
  | cons e es ih =>
      rw [List.foldl_cons, ← toOptions_apply]
      exact ih _

/-- Limits change no flag. -/
theorem flags_run_filter (h : w.flags = w'.flags) (es : List Edit) :
    (run w es).flags = (run w' (es.filter fun e => e.limit? = none)).flags := by
  induction es generalizing w w' with
  | nil => exact h
  | cons e es ih =>
      cases e with
      | withDepthLimit limit => exact ih h
      | enable f => exact ih (congrArg (· ||| f.mask) h)
      | disable f => exact ih (congrArg (· &&& ~~~f.mask) h)
      | set f on =>
          cases on with
          | false => exact ih (congrArg (· &&& ~~~f.mask) h)
          | true => exact ih (congrArg (· ||| f.mask) h)

/-- Options that edits make of the options of an option string. -/
def Reaches (w : OptionWords) : Prop := ∃ s start es, ofString s = .ok start ∧ w = run start es

theorem Reaches.bits_lt (h : Reaches w) : w.bits < 512 := by
  obtain ⟨s, start, es, hs, rfl⟩ := h
  exact bits_run_lt (ofString_eq_ok_iff.1 hs).2.1 es

end Edit

open Edit

/-- Letters and flags name each other. An option string has the first letter that names no flag against it, or it gives
the flags that its letters name. Of the edits of these options that name a flag the last one counts, and if there is
none, the string does. The bits are a number below 512 that tells just which flags are in the set. Edits of flags leave
the limit, and limits leave the flags. The letters of the flags in the set are written once and in order, and read back
as the same set. -/
theorem run_ofString (s : String) :
    (∀ c f, Flag.lookUp? c = some f ↔ f.tableLetter = c) ∧
    Options.ofString s = (ofString s).map toOptions ∧
    (∀ e, ofString s = .error e ↔
      ∃ c, s.toList.find? (fun c => c ∉ "RCKNPULIE".toList) = some c ∧ e = .unknownFlag c) ∧
    (∀ start, ofString s = .ok start ↔
      (∀ c ∈ s.toList, c ∈ "RCKNPULIE".toList) ∧ start.bits < 512 ∧ start.depthLimit = 100 ∧
        ∀ f, start.contains f = true ↔ f.letter ∈ s.toList) ∧
    ∀ start es, ofString s = .ok start →
      let w := run start es
      (∀ f on, w.contains f = on ↔ Settles es f on ∨ (start.contains f = on ∧ ∀ e ∈ es, e.Spares f)) ∧
      w.bits < 512 ∧ (∀ f, w.contains f = w.bits.testBit f.place) ∧
      (∀ w', Reaches w' → (w.bits = w'.bits ↔ ∀ f, w.contains f = w'.contains f)) ∧
      w.depthLimit = (es.filterMap limit?).getLast?.getD 100 ∧
      w.flags = (run start (es.filter fun e => e.limit? = none)).flags ∧
      w.letters.toList.Sublist "RCKNPULIE".toList ∧
      (∀ f, f.letter ∈ w.letters.toList ↔ w.contains f = true) ∧
      ofString w.letters = .ok { w with depthLimit := 100 } ∧
      let o := es.foldl applyToOptions start.toOptions
      w.toOptions = o ∧ o.bits = w.bits ∧ o.letters = w.letters ∧ ∀ f, o.contains f = w.contains f := by
  refine ⟨fun c f => ?table, setLetters_toOptions {} s.toList, fun e => setLetters_eq_error_iff,
    fun start => ofString_eq_ok_iff, fun start es hs => ?run⟩
  case table => rw [Flag.lookUp?_eq_some_iff, Flag.tableLetter_eq_letter, eq_comm]
  obtain ⟨-, hlt, hdepth, -⟩ := ofString_eq_ok_iff.1 hs
  have hw := bits_run_lt hlt es
  refine ⟨fun f on => contains_run_eq_iff start es, hw, contains_eq_testBit _, fun w' h => ?bits, ?depth,
    flags_run_filter rfl es, sublist_letters _, fun f => letter_mem_letters_iff, ofString_letters hw,
    toOptions_run start es, ?same⟩
  case bits => exact UInt32.toNat_inj.trans (flags_eq_iff hw h.bits_lt)
  case depth => rw [depthLimit_run, hdepth]
  case same =>
    rw [← toOptions_run]
    exact ⟨bits_toOptions hw, letters_toOptions _, contains_toOptions _⟩

/-- Letters out of order and repeated, and edits that turn a flag on and off again. -/
theorem run_ofString_turnedOff :
    let es : List Edit := [.enable .pretty, .withDepthLimit 8, .set .trailingCommas true, .disable .nonFinite,
      .set .pretty false]
    ofString "NRxN" = .error (.unknownFlag 'x') ∧
    ∃ start, ofString "NRN" = .ok start ∧ (run start es).letters = "RC" ∧ (run start es).bits = 6 ∧
      (run start es).contains .pretty = false ∧ (run start es).depthLimit = 8 ∧
      ofString "RC" = .ok { run start es with depthLimit := 100 } := by
  intro es
  obtain ⟨-, -, herror, -⟩ := run_ofString "NRxN"
  obtain ⟨-, -, -, hok, hrun⟩ := run_ofString "NRN"
  have hstart : ofString "NRN" = .ok ⟨5, 100⟩ := by
    refine (hok _).2 ⟨by simp, by decide, rfl, fun f => ?_⟩
    cases f <;> decide
  obtain ⟨hcontains, -, -, -, hdepth, -, -, -, hletters, -⟩ := hrun _ es hstart
  have htext : (run ⟨5, 100⟩ es).letters = "RC" := by decide
  have hoff : Settles es .pretty false := ⟨[.enable .pretty, .withDepthLimit 8, .set .trailingCommas true,
    .disable .nonFinite], .set .pretty false, [], rfl, ⟨rfl, rfl⟩, List.forall_mem_nil _⟩
  exact ⟨(herror _).2 ⟨'x', rfl, rfl⟩, ⟨5, 100⟩, hstart, htext, by decide, (hcontains .pretty false).2 (.inl hoff),
    hdepth, htext ▸ hletters⟩

end OptionWords

end JsonTree
