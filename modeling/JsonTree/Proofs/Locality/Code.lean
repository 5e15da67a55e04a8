import JsonTree.Document.Value
import JsonTree.Proofs.Grammar.Layout

/-!
# The codes of faulty tokens

A fault inside a token or in front of one is malformed text, but that an escape has a code of its own. The codes of
nesting and of commas are found between tokens only.
-/

namespace JsonTree.Locality

open Byte Document

variable {α β : Type} {p : ErrorCode → Prop}

/-- A fault, if there is one, has a code with `p`. -/
def Fails (p : ErrorCode → Prop) (x : Except Fault α) : Prop := ∀ f, x = .error f → p f.code

/-- A code that is found in tokens, or where the token is none that may stand there. -/
def InToken (code : ErrorCode) : Prop := code = .malformed ∨ code = .unquotedKey ∨ code = .invalidEscape

/-- A code that is found in string literals. -/
def InLiteral (code : ErrorCode) : Prop := code = .malformed ∨ code = .invalidEscape

theorem InLiteral.inToken {code : ErrorCode} (h : InLiteral code) : InToken code := h.imp_right .inr

theorem Fails.ok (a : α) : Fails p (.ok a) := by
  rintro _ ⟨⟩

theorem Fails.error {f : Fault} (h : p f.code) : Fails p (.error f : Except Fault α) := by
  rintro _ ⟨⟩
  exact h

theorem Fails.bind {x : Except Fault α} {g : α → Except Fault β} (h : Fails p x) (h' : ∀ a, Fails p (g a)) :
    Fails p (x >>= g) := by
  cases x with
  | ok a => exact h' a
  | error f => exact .error (h f rfl)

theorem Fails.map {x : Except Fault α} (h : Fails p x) (g : α → β) : Fails p (x.map g) := by
  cases x with
  | ok a => exact .ok (g a)
  | error f => exact .error (h f rfl)

theorem Fails.mono {q : ErrorCode → Prop} {x : Except Fault α} (h : Fails p x) (hpq : ∀ {c}, p c → q c) :
    Fails q x := fun f hf => hpq (h f hf)

theorem Fails.ite {c : Prop} [Decidable c] {x y : Except Fault α} (hx : c → Fails p x) (hy : ¬ c → Fails p y) :
    Fails p (if c then x else y) := by
  split
  · exact hx ‹_›
  · exact hy ‹_›

/-! ## Layout and words -/

theorem fails_layout (s : Bytes) : Fails (· = .malformed) (layout s) := by
  have hs := Grammar.layout_cases s
  generalize layout s = x at hs ⊢
  cases hs with
  | stops _ _ => exact .ok _
  | line _ => exact .ok _
  | slash _ _ => exact .error rfl
  | block _ _ => exact .error rfl

theorem fails_skipColon (s : Bytes) : Fails (· = .malformed) (skipColon s) := by
  refine (fails_layout s).bind fun s => ?_
  cases s with
  | nil => exact .error rfl
  | cons b s => exact .ite (fun _ => .ok _) fun _ => .error rfl

theorem fails_tokenEnd (s : Bytes) : Fails (· = .malformed) (tokenEnd s) := by
  cases s with
  | nil => exact .ok _
  | cons b s => exact .ite (fun _ => .error rfl) fun _ => .ok _

theorem fails_wordValue (w : Bytes) (v : Value) (s : Bytes) : Fails (· = .malformed) (Word.value w v s) := by
  refine .map ?_ _
  fun_induction Word.skip w s with
  | case1 s => exact fails_tokenEnd s
  | case2 _ _ s ih => exact ih
  | case3 => exact .error rfl
  | case4 => exact .error rfl

/-! ## Numbers -/

theorem fails_digits (s : Bytes) : Fails (· = .malformed) (digits s) := .ite (fun _ => .error rfl) fun _ => .ok _

theorem fails_unsigned (negative : Bool) (s : Bytes) : Fails (· = .malformed) (unsigned negative s) := by
  refine .bind ?whole fun x => .bind ?fraction fun y => .bind ?exponent fun z =>
    (fails_tokenEnd z.2).bind fun s => .ok _
  case whole =>
    cases s with
    | nil => exact .error rfl
    | cons b s => exact .ite (fun _ => .ok _) fun _ => fails_digits (b :: s)
  case fraction =>
    unfold fractionPart
    split
    · exact .ok _
    · exact .ite (fun _ => (fails_digits _).map _) fun _ => .ok _
  case exponent =>
    unfold exponentPart
    split
    · exact .ok _
    · exact .ite (fun _ => (fails_digits _).map _) fun _ => .ok _

theorem fails_number (o : Options) (s : Bytes) : Fails (· = .malformed) (number o s) := by
  rw [number_eq_value]
  split
  · exact (fails_tokenEnd _).map _
  · exact (fails_unsigned _ _).bind fun x => .ite (fun _ => .ok _) fun _ => .error rfl

/-! ## Literals -/

theorem fails_hex (n acc : Nat) (s : Bytes) : Fails (· = .invalidEscape) (Literal.hex n acc s) := by
  fun_induction Literal.hex n acc s with
  | case1 => exact .ok _
  | case2 => exact .error rfl
  | case3 _ _ _ _ _ _ ih => exact ih
  | case4 => exact .error rfl

theorem fails_codeUnit (s : Bytes) : Fails (· = .invalidEscape) (Literal.codeUnit s) := (fails_hex 4 0 s).map _

theorem fails_character (start s : Bytes) : Fails (· = .invalidEscape) (Literal.character start s) := by
  refine (fails_codeUnit s).bind fun x => .ite (fun _ => ?_) fun _ => ?_
  · split
    · exact .ite (fun _ => (fails_codeUnit _).bind fun _ => .ite (fun _ => .ok _) fun _ => .error rfl)
        fun _ => .error rfl
    · exact .error rfl
  · split
    · exact .ok _
    · exact .error rfl

theorem fails_escape (start s : Bytes) : Fails (· = .invalidEscape) (Literal.escape start s) := by
  cases s with
  | nil => exact .error rfl
  | cons b s =>
      refine .ite (fun _ => (fails_character _ _).map _) fun _ => .ite (fun _ => (fails_hex _ _ _).map _) fun _ => ?_
      split
      · exact .ok _
      · exact .error rfl

theorem fails_literal (s : Bytes) : Fails InLiteral (Literal.read s) := by
  have run (s : Bytes) : Fails InLiteral (Literal.checkRun s) := .ite (fun _ => .ok _) fun _ => .error (.inl rfl)
  rw [Literal.read]
  fun_induction Literal.content (.before s) s with
  | case1 => exact .error (.inl rfl)
  | case2 b s =>
      refine (run s).bind fun _ => ?_
      split
      · exact .ok _
      · exact .error (.inr rfl)
  | case3 b s _ f hr => exact .error (run s f hr)
  | case4 b s _ _ _ f _ _ he => exact .error (.inr (fails_escape _ _ f he))
  | case5 _ _ _ _ _ _ _ _ _ _ _ ih => exact ih
  | case6 => exact .error (.inl rfl)

theorem fails_string (o : Options) (s : Bytes) : Fails InToken (string o s) :=
  ((fails_literal s).mono InLiteral.inToken).map _

/-! ## Items -/

theorem fails_afterItem (o : Options) (close : UInt8) (s : Bytes) :
    Fails (fun c => c = .malformed ∨ c = .trailingComma) (afterItem o close s) := by
  have layout (s : Bytes) := (fails_layout s).mono (q := fun c => c = .malformed ∨ c = .trailingComma) .inl
  refine (layout s).bind fun s => ?_
  cases s with
  | nil => exact .error (.inl rfl)
  | cons b s =>
      refine .ite (fun _ => .ok _) fun _ => .ite (fun _ => (layout s).bind fun s => ?_) fun _ => .error (.inl rfl)
      cases s with
      | nil => exact .ok _
      | cons c s => exact .ite (fun _ => .ok _) fun _ => .ite (fun _ => .ok _) fun _ => .error (.inr rfl)

end JsonTree.Locality
