import JsonTree.Options

/-!
# Flags in options

Turning a flag on or off changes no other flag and no limit.
-/

namespace JsonTree

/-- The places of the flags are all the places there are. -/
theorem Flag.exists_place_eq {i : Nat} (h : i < 9) : ∃ f : Flag, f.place = i := by
  have hall : ∀ i < 9, (all.map place).contains i = true := by decide
  obtain ⟨f, -, hf⟩ := List.mem_map.1 (List.contains_iff_mem.1 (hall i h))
  exact ⟨f, hf⟩

namespace Options

theorem eq_of_contains {o o' : Options} (hf : ∀ f, o.contains f = o'.contains f)
    (hd : o.depthLimit = o'.depthLimit) : o = o' := by
  have hflags : o.flags = o'.flags := by
    apply BitVec.eq_of_getLsbD_eq
    intro i hi
    obtain ⟨f, rfl⟩ := Flag.exists_place_eq hi
    exact hf f
  cases o
  cases o'
  simp_all

theorem contains_enable (o : Options) (f g : Flag) : (o.enable f).contains g = (o.contains g || decide (g = f)) := by
  simp only [contains, enable, Flag.bit, BitVec.getLsbD_or, BitVec.getLsbD_twoPow]
  congr 1
  cases f <;> cases g <;> rfl

theorem contains_enable_self (o : Options) (f : Flag) : (o.enable f).contains f = true := by
  simp [contains_enable]

theorem contains_enable_of_ne {f g : Flag} (h : g ≠ f) (o : Options) : (o.enable f).contains g = o.contains g := by
  simp [contains_enable, h]

theorem contains_disable (o : Options) (f g : Flag) :
    (o.disable f).contains g = (o.contains g && decide (g ≠ f)) := by
  have hlt : g.place < 9 := by cases g <;> decide
  have hbit : f.bit.getLsbD g.place = decide (g = f) := by cases f <;> cases g <;> rfl
  simp only [contains, disable, BitVec.getLsbD_and, BitVec.getLsbD_not, hbit, hlt]
  simp

theorem contains_disable_self (o : Options) (f : Flag) : (o.disable f).contains f = false := by
  simp [contains_disable]

theorem contains_disable_of_ne {f g : Flag} (h : g ≠ f) (o : Options) :
    (o.disable f).contains g = o.contains g := by
  simp [contains_disable, h]

theorem contains_set (o : Options) (f g : Flag) (on : Bool) :
    (o.set f on).contains g = if g = f then on else o.contains g := by
  cases on
  · by_cases h : g = f <;> simp [set, contains_disable, h]
  · by_cases h : g = f <;> simp [set, contains_enable, h]

theorem disable_set (o : Options) (f : Flag) (on : Bool) : (o.set f on).disable f = o.disable f := by
  apply eq_of_contains
  · intro g
    by_cases h : g = f <;> simp [contains_disable, contains_set, h]
  · cases on <;> rfl

theorem disable_eq_self {o : Options} {f : Flag} (h : o.contains f = false) : o.disable f = o := by
  apply eq_of_contains
  · intro g
    by_cases hg : g = f <;> simp [contains_disable, h, hg]
  · rfl

@[simp] theorem contains_withDepthLimit (o : Options) (limit : Int) (f : Flag) :
    (o.withDepthLimit limit).contains f = o.contains f := rfl

@[simp] theorem depthLimit_withDepthLimit (o : Options) (limit : Int) :
    (o.withDepthLimit limit).depthLimit = limit := rfl

end Options

end JsonTree
