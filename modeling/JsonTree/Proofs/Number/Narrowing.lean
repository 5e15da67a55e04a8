import JsonTree.Proofs.Number.Ties

/-!
# Rounding twice

A number can be rounded to a format by way of a wider one. If the wider one has the middles of the other, what is
rounded first stays on its side of every middle, or lands on it. Only from a middle can the second rounding go to
another number than a single one would.
-/

namespace JsonTree

namespace BinaryFormat

variable {f g : BinaryFormat} {x : ℚ} {k : Nat}

/-! ## Numbers of a format -/

/-- A number with a short count of places of the format is not rounded at all. -/
theorem value_nearestTo_place {e : Int} {q : Nat} (he : f.leastExponent ≤ e) (hq : q < 2 * f.fractions)
    (hpos : 0 < q) (hfin : f.nearestTo (q * 2 ^ e) < f.infinity) : f.value (f.nearestTo (q * 2 ^ e)) = q * 2 ^ e := by
  have hx : (0 : ℚ) < q * 2 ^ e := mul_pos (Nat.cast_pos.2 hpos) (zpow_pos two_pos e)
  have hplace : f.lastPlace (q * 2 ^ e) ≤ e := by
    have hlt : (q : ℚ) * 2 ^ e < (2 : Nat) ^ (f.fractionBits + 1 + e) := by
      have hq' : (q : ℚ) < 2 * f.fractions := by exact_mod_cast hq
      rw [Nat.cast_two, zpow_add₀ two_ne_zero, zpow_add_one₀ two_ne_zero, ← cast_fractions, mul_comm (f.fractions : ℚ)]
      exact mul_lt_mul_of_pos_right hq' (zpow_pos two_pos e)
    have hlog := (Int.lt_zpow_iff_log_lt one_lt_two hx).1 hlt
    rw [lastPlace]
    omega
  obtain ⟨j, hj⟩ := Int.eq_ofNat_of_zero_le (Int.sub_nonneg.2 hplace)
  obtain ⟨p, hp, hvalue⟩ := value_nearestTo hx hfin
  have hcount : (q : ℚ) * 2 ^ e / 2 ^ f.lastPlace (q * 2 ^ e) = (q * 2 ^ j : Nat) := by
    rw [mul_div_assoc, ← zpow_sub₀ two_ne_zero, hj, zpow_natCast, Nat.cast_mul, Nat.cast_pow, Nat.cast_two]
  have heq : p = q * 2 ^ j := by
    rw [hcount] at hp
    exact le_antisymm (hp.mono (Rounding.isNearest_natCast _) le_rfl) ((Rounding.isNearest_natCast _).mono hp le_rfl)
  rw [hvalue, heq, ← hcount, div_mul_cancel₀ _ (zpow_pos two_pos _).ne']

theorem middle_eq (k : Nat) : f.middle k = (2 * f.significand k + 1 : Nat) * 2 ^ (f.exponent k - 1) := by
  have hnext : f.value (k + 1) = (f.significand k + 1 : Nat) * 2 ^ f.exponent k := by
    have h := value_place (leastExponent_le_exponent k) (significand_lt (f := f) k) fun h =>
      (fractions_le_significand h).trans (Nat.le_succ _)
    rwa [Nat.succ_eq_add_one, ← Nat.add_assoc, place_add_significand] at h
  rw [middle, hnext, value, zpow_sub_one₀ two_ne_zero]
  push_cast
  ring

/-! ## Middles that a wider format has -/

/-- The wider format has every middle of the other. -/
def HasMiddles (g f : BinaryFormat) : Prop := ∀ k < f.infinity, g.value (g.nearestTo (f.middle k)) = f.middle k

theorem value_nearestTo_le (h : g.HasMiddles f) (hk : k < f.infinity) (hx : 0 ≤ x) (hle : x ≤ f.middle k) :
    g.value (g.nearestTo x) ≤ f.middle k := by
  rw [← h k hk]
  exact value_nearestTo_mono hx hle

theorem le_value_nearestTo (h : g.HasMiddles f) (hk : k < f.infinity) (hle : f.middle k ≤ x) :
    f.middle k ≤ g.value (g.nearestTo x) := by
  rw [← h k hk]
  exact value_nearestTo_mono (middle_nonneg k) hle

/-- The number is on one side of a middle, and is rounded first to the middle, from which it goes to the other side. -/
def Strays (g f : BinaryFormat) (x : ℚ) : Prop :=
  ∃ k < f.infinity, g.value (g.nearestTo x) = f.middle k ∧
    (Even k ∧ f.middle k < x ∨ Odd k ∧ x < f.middle k)

theorem strays_of_lt (hf : 0 < f.fractionBits) (h : g.HasMiddles f) (hx : 0 ≤ x) (hfin : f.nearestTo x < f.infinity)
    (hlt : f.nearestTo (g.value (g.nearestTo x)) < f.nearestTo x) : g.Strays f x := by
  have hy := value_nonneg (f := g) (g.nearestTo x)
  generalize heq : g.value (g.nearestTo x) = y at hy hlt
  have hk := hlt.trans hfin
  have hle : y ≤ f.middle (f.nearestTo y) :=
    le_of_not_gt fun hmiddle => (lt_nearestTo_of_middle_lt hy hk hk hmiddle).ne rfl
  have hge : f.middle (f.nearestTo y) ≤ x :=
    le_of_not_gt fun hmiddle => (nearestTo_le_of_lt_middle hx hfin hk hmiddle).not_gt hlt
  have hkept := le_value_nearestTo h hk hge
  rw [heq] at hkept
  have hmiddle := le_antisymm hle hkept
  have hround := congrArg f.nearestTo hmiddle
  refine ⟨f.nearestTo y, hk, heq.trans hmiddle, .inl ⟨?_, hge.lt_of_ne fun hx => ?_⟩⟩
  · rcases nearestTo_middle_cases hf hk (hround ▸ hk) with ⟨-, heven⟩ | ⟨hup, -⟩
    · exact heven
    · omega
  · rw [hx] at hround
    omega

theorem strays_of_gt (hf : 0 < f.fractionBits) (h : g.HasMiddles f) (hx : 0 ≤ x)
    (hfin : f.nearestTo (g.value (g.nearestTo x)) < f.infinity)
    (hlt : f.nearestTo x < f.nearestTo (g.value (g.nearestTo x))) : g.Strays f x := by
  have hy := value_nonneg (f := g) (g.nearestTo x)
  generalize heq : g.value (g.nearestTo x) = y at hy hfin hlt
  have hk := hlt.trans hfin
  have hle : x ≤ f.middle (f.nearestTo x) :=
    le_of_not_gt fun hmiddle => (lt_nearestTo_of_middle_lt hx hk hk hmiddle).ne rfl
  have hge : f.middle (f.nearestTo x) ≤ y :=
    le_of_not_gt fun hmiddle => (nearestTo_le_of_lt_middle hy hfin hk hmiddle).not_gt hlt
  have hkept := value_nearestTo_le h hk hx hle
  rw [heq] at hkept
  have hmiddle := le_antisymm hkept hge
  have hround := congrArg f.nearestTo hmiddle
  refine ⟨f.nearestTo x, hk, heq.trans hmiddle, .inr ⟨?_, hle.lt_of_ne fun hx => ?_⟩⟩
  · rcases nearestTo_middle_cases hf hk (hround ▸ hfin) with ⟨hdown, -⟩ | ⟨-, hodd⟩
    · omega
    · exact hodd
  · rw [← hx] at hround
    omega

/-- Rounding twice differs from rounding once just for the numbers that stray. -/
theorem nearestTo_value_ne_iff (hf : 0 < f.fractionBits) (h : g.HasMiddles f) (hx : 0 ≤ x)
    (hfin : f.nearestTo x < f.infinity) (hfin' : f.nearestTo (g.value (g.nearestTo x)) < f.infinity) :
    f.nearestTo (g.value (g.nearestTo x)) ≠ f.nearestTo x ↔ g.Strays f x := by
  constructor
  · intro hne
    rcases lt_or_gt_of_ne hne with hlt | hgt
    · exact strays_of_lt hf h hx hfin hlt
    · exact strays_of_gt hf h hx hfin' hgt
  · rintro ⟨k, hk, heq, hside⟩
    rw [heq] at hfin' ⊢
    rcases hside with ⟨heven, hlt⟩ | ⟨hodd, hlt⟩
    · have hup := lt_nearestTo_of_middle_lt hx hfin hk hlt
      rcases nearestTo_middle_cases hf hk hfin' with ⟨hk', -⟩ | ⟨-, hodd⟩
      · omega
      · exact absurd heven (Nat.not_even_iff_odd.2 hodd)
    · have hdown := nearestTo_le_of_lt_middle hx hfin hk hlt
      rcases nearestTo_middle_cases hf hk hfin' with ⟨-, heven⟩ | ⟨hk', -⟩
      · exact absurd heven (Nat.not_even_iff_odd.2 hodd)
      · omega

/-! ## Doubles and singles -/

theorem middle_lt_two_pow (hk : k < single.infinity) : single.middle k < 2 ^ 128 := by
  have hstep : single.value k < single.value (k + 1) := (value_lt_value_iff hk.le hk).2 (Nat.lt_succ_self k)
  have hlast : single.value (k + 1) ≤ single.value single.infinity := (value_le_value_iff hk le_rfl).2 hk
  have hinfinity : single.value single.infinity = 2 ^ 128 := by decide +kernel
  rw [middle]
  linarith

theorem hasMiddles_double_single : double.HasMiddles single := by
  intro k hk
  have hleast : single.leastExponent = -149 := by decide
  have hleast' : double.leastExponent = -1074 := by decide
  have hexponent := leastExponent_le_exponent (f := single) k
  have hsignificand := significand_lt (f := single) k
  have hfractions : single.fractions = 2 ^ 23 := rfl
  have hfractions' : double.fractions = 2 ^ 52 := rfl
  have hfin : double.nearestTo (single.middle k) < double.infinity :=
    (Double.nearestTo_lt_infinity_iff (middle_nonneg k)).2 ((middle_lt_two_pow hk).trans (by decide +kernel))
  rw [middle_eq] at hfin ⊢
  exact value_nearestTo_place (by omega) (by omega) (Nat.succ_pos _) hfin

theorem nearestTo_single_lt (hx : 0 ≤ x) (hle : x ≤ 2 ^ 64) : single.nearestTo x < single.infinity :=
  (nearestTo_mono hx hle).trans_lt (by decide +kernel)

theorem value_nearestTo_double_le (hx : 0 ≤ x) (hle : x ≤ 2 ^ 64) : double.value (double.nearestTo x) ≤ 2 ^ 64 := by
  have hexact : double.value (double.nearestTo (2 ^ 64)) = 2 ^ 64 := by decide +kernel
  rw [← hexact]
  exact value_nearestTo_mono hx hle

end BinaryFormat

namespace Single

/-! ## Parts -/

def ofParts (negative : Bool) (magnitude : Nat) : Single :=
  ⟨.ofNat ((if negative then BinaryFormat.single.signBit else 0) + magnitude)⟩

def isNegative (s : Single) : Bool := BinaryFormat.single.signBit ≤ s.bits.toNat

/-- The bits below the sign. -/
def magnitude (s : Single) : Nat := s.bits.toNat % BinaryFormat.single.signBit

theorem nearestTo_lt_signBit (x : ℚ) : BinaryFormat.single.nearestTo x < BinaryFormat.single.signBit :=
  (BinaryFormat.nearestTo_le_infinity x).trans_lt (by decide)

variable {negative : Bool} {m : Nat}

theorem toNat_ofParts (hm : m < BinaryFormat.single.signBit) :
    (ofParts negative m).bits.toNat = (if negative then BinaryFormat.single.signBit else 0) + m := by
  have hs : BinaryFormat.single.signBit + BinaryFormat.single.signBit = UInt32.size := rfl
  refine UInt32.toNat_ofNat_of_lt' ?_
  split <;> omega

theorem magnitude_ofParts (hm : m < BinaryFormat.single.signBit) : (ofParts negative m).magnitude = m := by
  rw [magnitude, toNat_ofParts hm]
  cases negative with
  | true => rw [if_pos rfl, Nat.add_mod_left, Nat.mod_eq_of_lt hm]
  | false => rw [if_neg Bool.false_ne_true, Nat.zero_add, Nat.mod_eq_of_lt hm]

theorem isNegative_ofParts (hm : m < BinaryFormat.single.signBit) : (ofParts negative m).isNegative = negative := by
  rw [isNegative, toNat_ofParts hm]
  cases negative with
  | true => simp
  | false => simpa using hm

/-- An integer as the nearest single, rounded once. -/
def ofInt (n : Int) : Single := .ofParts (n < 0) (BinaryFormat.single.round n.natAbs 1)

theorem ofInt_eq (n : Int) : ofInt n = .ofParts (n < 0) (BinaryFormat.single.nearestTo n.natAbs) := by
  rw [ofInt, BinaryFormat.round_eq_nearestTo _ one_pos, Nat.cast_one, div_one]

theorem magnitude_ofInt (n : Int) : (ofInt n).magnitude = BinaryFormat.single.nearestTo n.natAbs := by
  rw [ofInt_eq, magnitude_ofParts (nearestTo_lt_signBit _)]

theorem isNegative_ofInt (n : Int) : (ofInt n).isNegative = decide (n < 0) := by
  rw [ofInt_eq, isNegative_ofParts (nearestTo_lt_signBit _)]

theorem nearestEven_ofInt {n : Int} (hn : n.natAbs ≤ 2 ^ 64) :
    BinaryFormat.single.NearestEven n (ofInt n).isNegative (ofInt n).magnitude := by
  have hfin := BinaryFormat.nearestTo_single_lt (Nat.cast_nonneg n.natAbs) (by exact_mod_cast hn)
  rw [isNegative_ofInt, magnitude_ofInt]
  exact BinaryFormat.nearestEven_natAbs (by decide) hfin

end Single

namespace Double

/-! ## Conversions -/

theorem magnitude_ofInt (n : Int) : (ofInt n).magnitude = BinaryFormat.double.nearestTo n.natAbs := by
  rw [ofInt_eq, magnitude_ofParts _ (nearestTo_lt_signBit _)]

theorem isNegative_ofInt (n : Int) : (ofInt n).isNegative = decide (n < 0) := by
  rw [ofInt_eq, isNegative_ofParts _ (nearestTo_lt_signBit _)]

/-- An integer is taken for the double nearest to it, rounded once. -/
theorem nearestEven_ofInt {n : Int} (hn : n.natAbs ≤ 2 ^ 64) :
    BinaryFormat.double.NearestEven n (ofInt n).isNegative (ofInt n).magnitude := by
  rw [isNegative_ofInt, magnitude_ofInt]
  exact BinaryFormat.nearestEven_natAbs (by decide) (nearestTo_natAbs_lt hn)

theorem toSingle_of_isFinite {d : Double} (h : d.isFinite = true) :
    d.toSingle = .ofParts d.isNegative (BinaryFormat.single.nearestTo (BinaryFormat.double.value d.magnitude)) := by
  rw [toSingle, isNaN_of_isFinite h, isInfinite_of_isFinite h]
  simp only [Bool.false_eq_true, if_false]
  rw [BinaryFormat.round_eq_nearestTo _ d.ratio_snd_pos, ratio, BinaryFormat.ratio_div, Single.ofParts]

theorem nearestEven_toSingle {d : Double} (h : d.isFinite = true)
    (hle : BinaryFormat.double.value d.magnitude ≤ 2 ^ 64) :
    BinaryFormat.single.NearestEven d.value d.toSingle.isNegative d.toSingle.magnitude := by
  have hx := BinaryFormat.value_nonneg (f := BinaryFormat.double) d.magnitude
  rw [toSingle_of_isFinite h, Single.isNegative_ofParts (Single.nearestTo_lt_signBit _),
    Single.magnitude_ofParts (Single.nearestTo_lt_signBit _)]
  exact BinaryFormat.nearestEven_nearestTo (by decide) d.isNegative hx (BinaryFormat.nearestTo_single_lt hx hle)

/-- An integer has the single that is nearest to its double, unless it strays from a middle. -/
theorem toSingle_ofInt_ne_iff {n : Int} (hn : n.natAbs ≤ 2 ^ 64) :
    (ofInt n).toSingle ≠ Single.ofInt n ↔ BinaryFormat.double.Strays BinaryFormat.single n.natAbs := by
  have hx : (0 : ℚ) ≤ n.natAbs := Nat.cast_nonneg _
  have hle : (n.natAbs : ℚ) ≤ 2 ^ 64 := by exact_mod_cast hn
  rw [toSingle_of_isFinite (isFinite_ofInt hn), Single.ofInt_eq, isNegative_ofInt, magnitude_ofInt,
    ← BinaryFormat.nearestTo_value_ne_iff (by decide) BinaryFormat.hasMiddles_double_single hx
      (BinaryFormat.nearestTo_single_lt hx hle)
      (BinaryFormat.nearestTo_single_lt (BinaryFormat.value_nonneg _) (BinaryFormat.value_nearestTo_double_le hx hle))]
  refine not_congr ⟨fun h => ?_, fun h => by rw [h]⟩
  have hm := congrArg Single.magnitude h
  rwa [Single.magnitude_ofParts (Single.nearestTo_lt_signBit _),
    Single.magnitude_ofParts (Single.nearestTo_lt_signBit _)] at hm

end Double

end JsonTree
