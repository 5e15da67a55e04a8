import JsonTree.Proofs.Number.Equality
import JsonTree.Value.Text

/-!
# Serializers that write compact documents

A serializer that writes has an output, and each call on it appends a text. What the calls append in a compact document
is fixed but for the digits of doubles. Whatever else such a serializer does, a value that is handed to it is written as
its text, in which numbers that are not finite are `null`.
-/

namespace JsonTree

variable {ε σ ρ τ β γ : Type} {output : σ → List Char}

/-! ## Actions that write -/

/-- The action appends this text, whatever has been written, and gives this result. -/
def Puts (output : σ → List Char) (act : EStateM ε σ β) (b : β) (t : List Char) : Prop :=
  ∀ s, ∃ s', act s = .ok b s' ∧ output s' = output s ++ t

theorem Puts.pure (b : β) : Puts output (pure b : EStateM ε σ β) b [] :=
  fun s => ⟨s, rfl, (List.append_nil _).symm⟩

theorem Puts.bind {act : EStateM ε σ β} {f : β → EStateM ε σ γ} {b : β} {c : γ} {t t' : List Char}
    (h : Puts output act b t) (h' : Puts output (f b) c t') : Puts output (act >>= f) c (t ++ t') := by
  intro s
  obtain ⟨s', hs', ho'⟩ := h s
  obtain ⟨s'', hs'', ho''⟩ := h' s'
  refine ⟨s'', ?_, by rw [ho'', ho', List.append_assoc]⟩
  rw [← hs'']
  change EStateM.bind act f s = _
  rw [EStateM.bind, hs']

/-! ## Compact documents -/

/-- Numbers in decimal, with the digits of `shortest`, and `null` for those that are not finite. -/
def NumberWriter.strict (shortest : Double → Decimal) : NumberWriter :=
  ⟨fun n => Value.integerText n.toInt, DoubleStyle.strict.finite shortest, fun _ => ['n', 'u', 'l', 'l']⟩

/-- The serializer writes compact documents: no blanks, short escapes and escapes by number in lower case, and decimal
numbers with the digits of `shortest`. -/
structure Serializer.WritesCompact (z : Serializer (EStateM ε σ) ρ τ Unit) (output : σ → List Char)
    (shortest : Double → Decimal) : Prop where
  unit : Puts output z.unit () ['n', 'u', 'l', 'l']
  boolean : ∀ b, Puts output (z.boolean b) () (if b then ['t', 'r', 'u', 'e'] else ['f', 'a', 'l', 's', 'e'])
  integer : ∀ n, Puts output (z.integer n) () (Value.integerText n.toInt)
  finite : ∀ {d}, d.isFinite = true → Puts output (z.double d) () (DoubleStyle.strict.finite shortest d)
  nonFinite : ∀ {d}, d.isFinite = false → Puts output (z.double d) () ['n', 'u', 'l', 'l']
  string : ∀ s, Puts output (z.string s) () (Compact.quoted s)
  /-- Elements stand between brackets, with commas between them. -/
  array : ∀ {acts ts}, List.Forall₂ (fun act t => Puts output act () t) acts ts →
    Puts output (do z.closeArray (← acts.foldlM z.element (← z.openArray (some acts.length)))) ()
      ('[' :: ([','].intercalate ts ++ [']']))
  /-- Members stand between braces, with commas between them and a colon behind each key. -/
  object : ∀ {acts : List (String × EStateM ε σ Unit)} {ts},
    List.Forall₂ (fun act t => ∃ u, Puts output act.2 () u ∧ t = Compact.quoted act.1 ++ ':' :: u) acts ts →
    Puts output (do
        z.closeObject (← acts.foldlM (fun a act => z.entry a act.1 act.2) (← z.openObject (some acts.length)))) ()
      ('\x7b' :: ([','].intercalate ts ++ ['\x7d']))

theorem DoubleStyle.text_strict {d : Double} (hd : d.isFinite = false) :
    DoubleStyle.strict.text d = ['n', 'u', 'l', 'l'] := by
  rw [text, if_neg (Bool.eq_false_iff.1 hd), name]
  split
  · rfl
  · split <;> rfl

/-! ## Strings -/

namespace Compact

theorem drop_toDigits : ∀ n < 0x20, (Nat.toDigits 16 (0x10000 + n)).drop 1 =
    ['0', '0', Quoted.hexDigit (n / 16), Quoted.hexDigit (n % 16)] := by decide

theorem escape_eq (c : Char) : escape c = Quoted.escape c := by
  unfold Quoted.escape
  iterate 7
    split
    next h => rw [h]; rfl
  rename_i hq hs hn hr ht hb hf
  have hnone : shortEscape? c = none := by
    simp [shortEscape?, List.lookup_cons, beq_false_of_ne, hq, hs, hn, hr, ht, hb, hf]
  have hlt : c < ' ' ↔ c.toNat < 0x20 := Iff.rfl
  rw [escape, hnone]
  by_cases hc : c.toNat < 0x20
  · rw [if_pos hc, if_pos (hlt.2 hc), drop_toDigits _ hc]
  · rw [if_neg hc, if_neg (hlt.not.2 hc)]

theorem quoted_eq_literal (s : String) : quoted s = Quoted.literal s := by
  rw [quoted, Quoted.literal, funext escape_eq]
  rfl

end Compact

/-! ## Values -/

namespace Value

variable {z : Serializer (EStateM ε σ) ρ τ Unit} {shortest : Double → Decimal}

theorem serializeElements_eq_foldlM (a : ρ) (vs : List Value) :
    serializeElements z a vs = (vs.map (serialize z)).foldlM z.element a := by
  induction vs generalizing a with
  | nil => rfl
  | cons v vs ih =>
      rw [serializeElements, List.map_cons, List.foldlM_cons]
      exact congrArg _ (funext ih)

theorem serializeMembers_eq_foldlM (a : τ) (ms : List (String × Value)) :
    serializeMembers z a ms =
      (ms.map (Prod.map id (serialize z))).foldlM (fun a act => z.entry a act.1 act.2) a := by
  induction ms generalizing a with
  | nil => rfl
  | cons m ms ih =>
      rw [serializeMembers, List.map_cons, List.foldlM_cons]
      exact congrArg _ (funext ih)

mutual

theorem puts_serialize (hz : z.WritesCompact output shortest) : (v : Value) →
    Puts output (v.serialize z) () (v.textIn (.strict shortest))
  | .null => hz.unit
  | .boolean b => hz.boolean b
  | .integer n => hz.integer n
  | .double d => by
      rw [serialize, textIn, NumberWriter.double]
      split
      · exact hz.finite ‹_›
      · exact hz.nonFinite (Bool.eq_false_iff.2 ‹_›)
  | .string t => by
      rw [serialize, textIn, ← Compact.quoted_eq_literal]
      exact hz.string t.content
  | .array vs => by
      have h := hz.array (forall₂_elements hz vs)
      rw [List.length_map] at h
      simpa only [serialize, textIn, elementsTextIn_eq_intercalate, serializeElements_eq_foldlM] using h
  | .object ms => by
      have h := hz.object (forall₂_members hz ms)
      rw [List.length_map] at h
      simpa only [serialize, textIn, membersTextIn_eq_intercalate, serializeMembers_eq_foldlM] using h

theorem forall₂_elements (hz : z.WritesCompact output shortest) : (vs : List Value) →
    List.Forall₂ (fun act t => Puts output act () t) (vs.map (serialize z)) (vs.map (textIn (.strict shortest)))
  | [] => .nil
  | v :: vs => .cons (puts_serialize hz v) (forall₂_elements hz vs)

theorem forall₂_members (hz : z.WritesCompact output shortest) : (ms : List (String × Value)) →
    List.Forall₂ (fun act t => ∃ u, Puts output act.2 () u ∧ t = Compact.quoted act.1 ++ ':' :: u)
      (ms.map (Prod.map id (serialize z))) (ms.map (memberTextIn (.strict shortest)))
  | [] => .nil
  | (k, v) :: ms =>
      .cons ⟨_, puts_serialize hz v, by rw [Compact.quoted_eq_literal]; rfl⟩ (forall₂_members hz ms)

end

end Value

/-! ## The serializer that writes -/

namespace Compact

variable {α : Type} {act : Writer Unit} {t : List Char}

theorem puts_write (t : List Char) : Puts String.toList (write t) () t :=
  fun s => ⟨s ++ String.ofList t, rfl, by simp⟩

theorem puts_separate (b : Brackets) : Puts String.toList (separate b) () (if b = .first then [] else [',']) := by
  rw [separate]
  split
  · exact .pure ()
  · exact puts_write [',']

/-- An item has a comma in front of it if it is not the first one. -/
theorem puts_item (b : Brackets) (h : Puts String.toList act () t) :
    Puts String.toList (do separate b; act; return Brackets.rest) Brackets.rest
      ((if b = .first then [] else [',']) ++ t) := by
  have hrest := h.bind (f := fun _ => (pure Brackets.rest : Writer Brackets)) (.pure Brackets.rest)
  rw [List.append_nil] at hrest
  exact (puts_separate b).bind hrest

section

variable {item : Brackets → α → Writer Brackets} {text : α → List Char → Prop} {as : List α} {ts : List (List Char)}

theorem puts_foldlM_rest (h : ∀ {b a t}, text a t →
      Puts String.toList (item b a) .rest ((if b = .first then [] else [',']) ++ t)) (hs : List.Forall₂ text as ts) :
    Puts String.toList (as.foldlM item .rest) .rest (ts.flatMap (',' :: ·)) := by
  induction hs with
  | nil => exact .pure Brackets.rest
  | cons ha _ ih =>
      rw [List.foldlM_cons, List.flatMap_cons]
      exact (h ha).bind ih

theorem intercalate_cons (t : List Char) (ts : List (List Char)) :
    [','].intercalate (t :: ts) = t ++ ts.flatMap (',' :: ·) := by
  induction ts generalizing t with
  | nil => simp
  | cons u ts ih => rw [List.intercalate_cons_cons, ih, List.flatMap_cons, List.append_assoc]; rfl

/-- Items between brackets, with commas between them. -/
theorem puts_bracketed (bracket close : Char) (h : ∀ {b a t}, text a t →
      Puts String.toList (item b a) .rest ((if b = .first then [] else [',']) ++ t)) (hs : List.Forall₂ text as ts) :
    Puts String.toList (do closing close (← as.foldlM item (← opening bracket close (some as.length)))) ()
      (bracket :: ([','].intercalate ts ++ [close])) := by
  cases hs with
  | nil =>
      intro s
      exact ⟨s ++ String.ofList [bracket] ++ String.ofList [close], rfl, by simp⟩
  | @cons a t as ts ha hs =>
      have hopen : Puts String.toList (opening bracket close (some (as.length + 1))) .first [bracket] :=
        (puts_write [bracket]).bind (.pure Brackets.first)
      have hitems : Puts String.toList ((a :: as).foldlM item .first) .rest (t ++ ts.flatMap (',' :: ·)) :=
        (h ha).bind (puts_foldlM_rest h hs)
      have hclose : Puts String.toList (closing close .rest) () [close] := puts_write [close]
      rw [intercalate_cons]
      exact hopen.bind (hitems.bind hclose)

end

/-- The serializer that writes documents does so, with the shortest digits that read back. -/
theorem writesCompact_serializer : serializer.WritesCompact String.toList (Shortest.decimal .even) where
  unit := puts_write _
  boolean _ := puts_write _
  integer _ := puts_write _
  finite {d} hd := by
    have ht : DoubleStyle.strict.text d = DoubleStyle.strict.finite (Shortest.decimal .even) d := if_pos hd
    exact ht ▸ puts_write (DoubleStyle.strict.text d)
  nonFinite {d} hd := DoubleStyle.text_strict hd ▸ puts_write (DoubleStyle.strict.text d)
  string _ := puts_write _
  array h := puts_bracketed '[' ']' (puts_item _) h
  object h := by
    refine puts_bracketed '\x7b' '\x7d' (fun {b act t} ht => ?_) h
    obtain ⟨u, hu, rfl⟩ := ht
    have hmember := (puts_write (quoted act.1)).bind (f := fun _ => do write [':']; act.2)
      ((puts_write [':']).bind (f := fun _ => act.2) hu)
    have hitem := puts_item b hmember
    simp only [bind_assoc] at hitem
    exact hitem

end Compact

end JsonTree
