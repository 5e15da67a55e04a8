import JsonTree.Proofs.Locality.Code
import JsonTree.Proofs.Position.Tracking

/-!
# What the codes of errors say

The code of an error says something of the text in front of its position and of the byte that stands there. A reader can
say it because it knows where it is: it starts outside string literals and comments and comes to the outside again, and
the reader of an item starts behind the opening bracket or behind a comma.
-/

namespace JsonTree

open Byte Document

variable {α β : Type} {o : Options} {d l p q r s : Bytes} {close first : UInt8}

/-! ## Outside string literals and comments -/

namespace Grammar

/-- Behind the text one is outside string literals and comments, as one was in front of it. -/
def Outside (p : Bytes) : Prop := p.foldl Region.next .code = .code

theorem Outside.append (h : Outside p) (h' : Outside q) : Outside (p ++ q) := by
  rw [Outside, List.foldl_append, h, h']

theorem Passes.foldl_next {q q' : Region} (h : Passes q s q') : s.foldl Region.next q = q' := by
  induction h with
  | nil => rfl
  | cons _ _ ih => exact ih

theorem Passes.outside (h : Passes .code p .code) : Outside p := h.foldl_next

theorem outside_of_isMark {b : UInt8} (hb : isMark b = true) : Outside [b] := next_of_isMark hb

theorem outside_separator {l' : Bytes} (hl : LayoutText l) (hl' : LayoutText l') : Outside (l ++ comma :: l') :=
  hl.passes.outside.append ((outside_of_isMark (b := comma) rfl).append hl'.passes.outside)

theorem ItemsText.outside {P : Bytes → α → Prop} {as : List α} (hP : ∀ {p a}, P p a → Outside p)
    (h : ItemsText o P s as) : Outside s := by
  induction h with
  | last hp hl => exact (hP hp).append hl.passes.outside
  | trailing _ hp hl hl' => exact (hP hp).append (outside_separator hl hl')
  | cons hp hl hl' _ ih =>
      have := (hP hp).append ((outside_separator hl hl').append ih)
      rwa [List.append_assoc] at this

theorem EnclosedText.outside {P : Bytes → α → Prop} {as : List α} (hP : ∀ {p a}, P p a → Outside p)
    (h : EnclosedText o P s as) : Outside s := by
  cases h with
  | none hl => exact hl.passes.outside
  | items hl hs => exact hl.passes.outside.append (hs.outside hP)

/-- A key and the colon behind it. -/
theorem LiteralText.outside_colon {t : Text} (hs : LiteralText s t) (hl : LayoutText l) :
    Outside (s ++ (l ++ [colon])) :=
  hs.passes.outside.append (hl.passes.outside.append rfl)

theorem MemberText.outside {V : Bytes → Value → Prop} {m : String × Value} (hV : ∀ {p v}, V p v → Outside p)
    (h : MemberText V s m) : Outside s := by
  obtain ⟨hk, hl, hl', hv⟩ := h
  have := (hk.outside_colon hl).append (hl'.passes.outside.append (hV hv))
  simpa using this

theorem Outside.bracketed {b c : UInt8} (hb : isOpening b = true) (hc : Closing c) (h : Outside p) :
    Outside (b :: (p ++ [c])) :=
  (outside_of_isMark (by simp [isMark, hb])).append
    (h.append (outside_of_isMark (by simp [isMark, isClosing_iff.2 hc])))

theorem ValueText.outside {room : Nat} {v : Value} (h : ValueText o room s v) : Outside s := by
  induction room generalizing s v with
  | zero => exact h.scalar.passes.outside
  | succ room ih =>
      rcases h.cases_succ with hs | ⟨p, vs, rfl, -, he⟩ | ⟨p, ms, rfl, -, he, -⟩
      · exact hs.passes.outside
      · exact (he.outside ih).bracketed rfl (.inl rfl)
      · exact (he.outside (MemberText.outside ih)).bracketed rfl (.inr rfl)

end Grammar

namespace Locality

open Grammar Position

/-! ## Grounds -/

/-- What the code of an error says of the text in front of the error, and of the text from there on. -/
inductive Grounds (o : Options) : ErrorCode → Bytes → Bytes → Prop where
  /-- Behind a document stands something that is no layout. -/
  | dataAfterRoot {p b r v} (hp : Value.parse o p = .ok v) (hb : isBlank b = false) (hs : b ≠ slash) :
      Grounds o .dataAfterRoot p (b :: r)
  /-- Where a member may start, behind an opening brace or a comma, stands neither a key nor a closing brace. -/
  | unquotedKey {p b l c r} (hp : Outside p) (hb : b = openBrace ∨ b = comma) (hl : LayoutText l) (hq : c ≠ quote)
      (hc : c ≠ closeBrace) : Grounds o .unquotedKey (p ++ b :: l) (c :: r)
  /-- A literal is open, and a backslash stands in it or comes next. -/
  | invalidEscape {p c r} (hp : Outside p) (hc : Unclosed c) (hb : backslash ∈ c ∨ r.head? = some backslash) :
      Grounds o .invalidEscape (p ++ quote :: c) r
  /-- The other codes say nothing here. -/
  | other {code p r} (hc : code = .malformed ∨ code = .tooMuchNesting ∨ code = .trailingComma) : Grounds o code p r

/-- A fault of reading in the document `d`, if there is one, has grounds there. -/
def Explained (o : Options) (d : Bytes) (x : Except Fault α) : Prop :=
  ∀ f, x = .error f → ∃ p, d = p ++ f.rest ∧ Grounds o f.code p f.rest

theorem Explained.ok (a : α) : Explained o d (.ok a) := by
  rintro _ ⟨⟩

theorem Explained.error {f : Fault} (hd : d = p ++ f.rest) (h : Grounds o f.code p f.rest) :
    Explained o d (.error f : Except Fault α) := by
  rintro _ ⟨⟩
  exact ⟨p, hd, h⟩

theorem Explained.malformed (hd : d = p ++ r) : Explained o d (.error ⟨.malformed, r⟩ : Except Fault α) :=
  .error hd (.other (.inl rfl))

theorem Explained.bind {x : Except Fault α} {g : α → Except Fault β} (h : Explained o d x)
    (h' : ∀ a, x = .ok a → Explained o d (g a)) : Explained o d (x >>= g) := by
  cases x with
  | ok a => exact h' a rfl
  | error f => exact fun f' hf => h f' (by cases hf; rfl)

theorem Explained.map {x : Except Fault α} (h : Explained o d x) (g : α → β) : Explained o d (x.map g) := by
  cases x with
  | ok a => exact .ok (g a)
  | error f => exact fun f' hf => h f' (by cases hf; rfl)

/-- Readers that read locally have their faults in the document. -/
theorem explained_of_local {P : UInt8 → Prop} {R : Bytes → Except Fault (α × Bytes)} (hd : d = p ++ s)
    (hl : LocalAt o P R s) (hf : Fails (fun c => c = .malformed ∨ c = .trailingComma) (R s)) : Explained o d (R s) := by
  intro f h
  obtain ⟨q, rfl, -⟩ := hl.error h
  exact ⟨p ++ q, by rw [hd, List.append_assoc], .other ((hf f h).imp_right .inr)⟩

theorem explained_of_skipping {P : UInt8 → Prop} {R : Bytes → Except Fault Bytes} (hd : d = p ++ s)
    (hl : LocalAt o P (skipping R) s) (hf : Fails (· = .malformed) (R s)) : Explained o d (R s) := by
  intro f h
  exact explained_of_local hd hl ((hf.mono .inl).map _) f (by rw [skipping, h]; rfl)

theorem explained_layout (hd : d = p ++ s) : Explained o d (layout s) :=
  explained_of_skipping hd (local_layout s) (fails_layout s)

/-! ## Literals -/

theorem mem_or_head?_eq_of_append {b : UInt8} {t : Bytes} (h : p ++ r = q ++ b :: t) (hr : r <:+ b :: t) :
    b ∈ p ∨ r.head? = some b := by
  obtain ⟨u, hu⟩ := hr
  rw [← hu, ← List.append_assoc] at h
  obtain rfl := List.append_cancel_right h
  cases u with
  | nil =>
      rw [← List.nil_append r, hu]
      exact .inr rfl
  | cons c u =>
      obtain ⟨rfl, -⟩ := List.cons.inj hu
      exact .inl (by simp)

theorem checkRun_malformed {f : Fault} (h : Literal.checkRun s = .error f) : f.code = .malformed :=
  Fails.ite (p := (· = .malformed)) (fun _ => .ok _) (fun _ => .error rfl) f h

/-- A faulty escape has a backslash: runs alone make a text, so that a fault at the closing quote has an escape in front
of it. -/
theorem exists_backslash_of_invalidEscape {f : Fault} (h : Literal.read s = .error f) (hs : s = p ++ f.rest)
    (hf : f.code = .invalidEscape) : backslash ∈ p ∨ f.rest.head? = some backslash := by
  have hread := h
  rw [Literal.read] at h
  generalize TextBuilder.before s = b at h
  fun_induction Literal.content b s with
  | case1 =>
      cases h
      cases hf
  | case2 b s r hd =>
      cases hr : Literal.checkRun s with
      | error f' =>
          rw [hr] at h
          cases h
          rw [checkRun_malformed hr] at hf
          cases hf
      | ok run =>
          obtain ⟨cs, -, hcs, hplain⟩ := eq_of_checkRun hr
          have hc : ContentText (Utf8.ofChars cs) (Utf8.encode (String.ofList cs)) := by
            rw [Utf8.encode_eq_ofChars, String.toList_ofList]
            exact .run hplain
          have hok := read_append (.mk hc) r
          rw [List.append_assoc, List.singleton_append, ← hd, ← hcs, hread] at hok
          cases hok
  | case3 b s r f' hr =>
      cases h
      rw [checkRun_malformed hr] at hf
      cases hf
  | case4 b s r run hr f' hd _ he =>
      cases h
      obtain ⟨cs, -, hcs, -⟩ := eq_of_checkRun hr
      obtain ⟨q, hq, -⟩ := escape_error (o := {}) he
      rw [hs, ← hs, hd] at hcs
      exact mem_or_head?_eq_of_append (hs.symm.trans hcs) ⟨q, hq.symm⟩
  | case5 b s r run hr bs r' hd hne he hlt =>
      obtain ⟨cs, -, hcs, -⟩ := eq_of_checkRun hr
      obtain ⟨q, hq, -⟩ := content_error (o := {}) h
      rw [hd] at hcs
      obtain ⟨e, rfl, -⟩ := eq_of_escape he
      exact mem_or_head?_eq_of_append (hs.symm.trans hcs) ⟨backslash :: (e ++ q), by simp [hq]⟩
  | case6 =>
      cases h
      cases hf

theorem explained_literal (hd : d = p ++ quote :: s) (hp : Outside p) : Explained o d (Literal.read s) := by
  intro f h
  obtain ⟨q, hs, hq, -⟩ := content_error (o := o) h
  have hd : d = (p ++ quote :: q) ++ f.rest := by rw [hd, hs, List.append_assoc, List.cons_append]
  refine ⟨p ++ quote :: q, hd, ?_⟩
  obtain ⟨code, rest⟩ := f
  rcases fails_literal s _ h with hc | hc
  · exact .other (.inl hc)
  · obtain rfl : code = .invalidEscape := hc
    exact .invalidEscape hp hq (exists_backslash_of_invalidEscape h hs rfl)

/-! ## Items -/

/-- Where an item may start: behind the opening bracket `first` or behind a comma, with layout between them. -/
inductive ItemPlace (first : UInt8) : Bytes → Prop where
  | mk {p b l} (hp : Outside p) (hb : b = first ∨ b = comma) (hl : LayoutText l) : ItemPlace first (p ++ b :: l)

theorem ItemPlace.outside (hf : isOpening first = true) (h : ItemPlace first p) : Outside p := by
  obtain ⟨hp, hb, hl⟩ := h
  refine hp.append ((outside_of_isMark ?_).append hl.passes.outside)
  rcases hb with rfl | rfl
  · simp [isMark, hf]
  · rfl

/-- The faults of items that start where items may have grounds. -/
structure ExplainsItems (o : Options) (first close : UInt8) (item : β → Reader β) : Prop where
  atEnd : ∀ acc, (item acc).read [] = .error ⟨.malformed, []⟩
  inPlace : ∀ {acc d p s}, d = p ++ s → ItemPlace first p → (∀ b ∈ s.head?, b ≠ close) →
    Explained o d ((item acc).read s)

section

variable {item : β → Reader β} {P : Bytes → α → Prop} {step : β → α → Option β} {acc : β}

theorem ExplainsItems.items_nil (he : ExplainsItems o first close item) :
    Explained o d (items o close item acc []) := by
  rw [items_eq, he.atEnd]
  exact .malformed (List.append_nil d).symm

theorem ExplainsItems.items (he : ExplainsItems o first close item) (hf : isOpening first = true)
    (hr : Reads item P step) (hP : ∀ {p a}, P p a → Outside p) (hd : d = p ++ s) (hp : ItemPlace first p)
    (hs : Stops s) (hc : ∀ b ∈ s.head?, b ≠ close) : Explained o d (Document.items o close item acc s) := by
  induction hn : s.length using Nat.strongRecOn generalizing acc p s with
  | ind n ih =>
      subst hn
      rw [items_eq]
      refine (he.inPlace hd hp hc).bind fun x hx => ?_
      obtain ⟨acc', t⟩ := x
      obtain ⟨q, a, rfl, hq, -, -⟩ := hr.sound hs hx
      have hd' : d = (p ++ q) ++ t := by rw [hd, List.append_assoc]
      refine (explained_of_local hd' (local_afterItem close t) (fails_afterItem o close t)).bind fun y hy => ?_
      obtain ⟨after, u⟩ := y
      cases after with
      | nothing => exact .ok _
      | item =>
          rcases eq_of_afterItem_item hy with rfl | ⟨hs', hc', l, l', rfl, hl, hl'⟩
          · exact he.items_nil
          · have hlt := Nat.lt_trans (length_lt_of_afterItem hy) ((item acc).shorter hx)
            have hplace : ItemPlace first (((p ++ q) ++ l) ++ comma :: l') :=
              .mk (((hp.outside hf).append (hP hq)).append hl.passes.outside) (.inr rfl) hl'
            exact ih _ hlt (by simp [hd']) hplace hs' hc' rfl

theorem ExplainsItems.bracketed (he : ExplainsItems o first close item) (hf : isOpening first = true)
    (hr : Reads item P step) (hP : ∀ {p a}, P p a → Outside p) (hd : d = p ++ first :: s) (hp : Outside p) {none : β} :
    Explained o d (Document.bracketed o close item none s) := by
  have hd' : d = (p ++ [first]) ++ s := by simp [hd]
  refine (explained_layout hd').bind fun t ht => ?_
  cases t with
  | nil => exact he.items_nil
  | cons b t =>
      obtain ⟨l, rfl, hl, hs⟩ := eq_of_layout_ok_cons ht
      dsimp only
      split
      · exact .ok _
      · rename_i hb
        refine he.items hf hr hP (p := p ++ first :: l) (by simp [hd]) (.mk hp (.inl rfl) hl) hs ?_
        rintro _ ⟨⟩
        exact hb

end

/-! ## Elements and members -/

section

variable {value : Reader Value}

/-- The faults of values that start outside string literals and comments have grounds. -/
structure ExplainsValue (o : Options) (value : Reader Value) : Prop where
  atEnd : value.read [] = .error ⟨.malformed, []⟩
  inPlace : ∀ {d p s}, d = p ++ s → Outside p → Explained o d (value.read s)

theorem explainsItems_element (he : ExplainsValue o value) :
    ExplainsItems o openBracket closeBracket (element value) where
  atEnd before := by
    change (value.read []).map _ = _
    rw [he.atEnd]
    rfl
  inPlace hd hp _ := (he.inPlace hd (hp.outside rfl)).map _

theorem explainsItems_member (he : ExplainsValue o value) :
    ExplainsItems o openBrace closeBrace (member o value) where
  atEnd before := rfl
  inPlace {before d p s} hd hp hc := by
    change Explained o d (readMember o value before s)
    cases s with
    | nil => exact .malformed hd
    | cons b s =>
        by_cases hb : b = quote
        · subst hb
          have hout := hp.outside rfl
          rw [readMember_quote]
          refine (explained_literal hd hout).bind fun x hx => ?_
          obtain ⟨key, t⟩ := x
          obtain ⟨k, rfl, hk⟩ := eq_of_read hx
          dsimp only
          split
          · exact .malformed hd
          · have hd' : d = (p ++ quote :: k) ++ t := by simp [hd]
            refine (explained_of_skipping hd' (local_skipColon t) (fails_skipColon t)).bind fun u hu => ?_
            obtain ⟨l, rfl, hl⟩ := eq_of_skipColon hu
            refine (he.inPlace (p := p ++ (quote :: k ++ (l ++ [colon]))) (by simp [hd]) ?_).map _
            exact hout.append (hk.outside_colon hl)
        · have heq : readMember o value before (b :: s) = .error ⟨.unquotedKey, b :: s⟩ := by simp [readMember, hb]
          rw [heq]
          obtain ⟨hp, hfirst, hl⟩ := hp
          exact .error hd (.unquotedKey hp hfirst hl hb (hc b rfl))

end

/-! ## Values -/

theorem explained_wordValue {w : Bytes} (hw : lineFeed ∉ w) (hd : d = p ++ s) (v : Value) :
    Explained o d (Word.value w v s) :=
  explained_of_local hd (local_wordValue (inline_of_not_mem hw) v s) ((fails_wordValue w v s).mono .inl)

theorem explained_readValue {inner : Option (Reader Value)} {inner? : Option (Bytes → Value → Prop)}
    (hi : ReadsInner inner inner?) (hV : ∀ V ∈ inner?, ∀ {p v}, V p v → Outside p)
    (he : ∀ value ∈ inner, ExplainsValue o value) (hd : d = p ++ s) (hp : Outside p) :
    Explained o d (readValue o inner s) := by
  refine (explained_layout hd).bind fun t ht => ?_
  cases t with
  | nil => exact .malformed (List.append_nil d).symm
  | cons b t =>
      obtain ⟨l, rfl, hl, -⟩ := eq_of_layout_ok_cons ht
      have hd : d = (p ++ l) ++ b :: t := by rw [hd, List.append_assoc]
      have hp : Outside (p ++ l) := hp.append hl.passes.outside
      have tooMuch : Explained o d (.error ⟨.tooMuchNesting, b :: t⟩ : Except Fault (Value × Bytes)) :=
        .error hd (.other (.inr (.inl rfl)))
      dsimp only
      split
      · rename_i hb
        cases hi with
        | none => exact tooMuch
        | some hr =>
            exact ((explainsItems_element (he _ rfl)).bracketed rfl (reads_element hr) (hV _ rfl) (hb ▸ hd) hp).map _
      · split
        · rename_i hb
          cases hi with
          | none => exact tooMuch
          | some hr =>
              exact ((explainsItems_member (he _ rfl)).bracketed rfl (reads_member o hr) (MemberText.outside (hV _ rfl))
                (hb ▸ hd) hp).map _
        · split
          · rename_i hb
            exact (explained_literal (hb ▸ hd) hp).map _
          · split
            · exact explained_of_local hd (local_number _) ((fails_number o _).mono .inl)
            · split
              · exact explained_wordValue (by decide) hd _
              · split
                · exact explained_wordValue (by decide) hd _
                · split
                  · exact explained_wordValue (by decide) hd _
                  · exact .malformed hd

theorem explainsValue (o : Options) (room : Nat) : ExplainsValue o (value o room) := by
  induction room with
  | zero =>
      have hinner : ReadsInner none none := .none
      exact ⟨rfl, fun hd hp => explained_readValue hinner (by simp) (by simp) hd hp⟩
  | succ room ih =>
      refine ⟨rfl, fun hd hp => ?_⟩
      have hinner : ReadsInner (some (value o room)) (some (ValueText o room)) := .some (readsValue o room)
      refine explained_readValue hinner ?_ (by simpa using ih) hd hp
      rintro _ ⟨⟩ p v h
      exact h.outside

/-! ## Documents -/

theorem explained_read (o : Options) (s : Bytes) : Explained o s (Document.read o s) := by
  refine ((explainsValue o _).inPlace (List.nil_append s).symm rfl).bind fun x hx => ?_
  obtain ⟨v, t⟩ := x
  obtain ⟨l, p, rfl, hl, hp, -⟩ := (readsValue o _).read_eq_ok_iff.1 hx
  have hd : l ++ (p ++ t) = (l ++ p) ++ t := (List.append_assoc _ _ _).symm
  refine (explained_layout hd).bind fun u hu => ?_
  cases u with
  | nil => exact .ok v
  | cons b u =>
      obtain ⟨l', rfl, hl', hs⟩ := eq_of_layout_ok_cons hu
      obtain ⟨hb, hslash⟩ := hs b rfl
      have hdoc : DocumentText o (l ++ (p ++ l')) v := .mk hl hp (.closed hl')
      exact .error (by simp) (.dataAfterRoot hdoc.parse hb hslash)

/-- The code of an error is right about the text. Data behind the root stands behind a document that can be read alone,
and is neither blank nor a slash. An unquoted key is no quote and no closing brace, and only layout is between it and an
opening brace or a comma in front. A faulty escape lies in a literal that is open there, or at the end of it, and the
literal has a backslash up to there. A scanner that counts lines in 32 bits reports the same error, if the document is
not too long for it. -/
theorem grounds_of_parse_error {s : Bytes} {e : ParseError} (h : Value.parse o s = .error e) :
    e.position.offset s ≤ s.length ∧
    Grounds o e.code (s.take (e.position.offset s)) (s.drop (e.position.offset s)) ∧
    (s.length < UInt32.size - 1 → Scanner.parse o s = .error e) := by
  rw [← and_assoc]
  refine ⟨?_, fun hlen => (Scanner.parse_eq hlen o).trans h⟩
  cases hr : Document.read o s with
  | ok v =>
      rw [Value.parse, hr] at h
      cases h
  | error f =>
      obtain ⟨p, hs, hf⟩ := explained_read o s f hr
      rw [parse_of_read_error hr hs] at h
      cases h
      obtain ⟨code, r⟩ := f
      subst hs
      simp only [offset_behind, List.take_left, List.drop_left]
      exact ⟨by simp, hf⟩

/-- A byte that is no UTF-8 is found at the closing quote, behind the escape that stands for it. -/
theorem grounds_of_parse_error_escapedByte :
    let s := [openBracket, quote] ++ Word.spell ['\\', 'x', 'f', 'f'] ++ [quote, closeBracket]
    Value.parse {} s = .error ⟨.invalidEscape, ⟨1, 7⟩⟩ ∧ Position.offset ⟨1, 7⟩ s = 6 ∧
      Grounds {} .invalidEscape (s.take 6) (s.drop 6) := by
  intro s
  have h : Value.parse {} s = .error ⟨.invalidEscape, ⟨1, 7⟩⟩ := by with_unfolding_all rfl
  exact ⟨h, rfl, (grounds_of_parse_error h).2.1⟩

end Locality

end JsonTree
