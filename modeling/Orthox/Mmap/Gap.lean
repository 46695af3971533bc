import Orthox.Mmap.Contract

/-! The search for room of `mmap`. `mmap_find_gap` looks from the hint up to the end of the window, then from its start up to
    the hint. A gap with the hint inside it is in neither part. -/

namespace Orthox.Mmap.Sys
variable {A : Arch} {s : Sys A} {size start stop hint : Nat}

/-- A range of the window with nothing in it. -/
def Gap (s : Sys A) (size base : Nat) : Prop :=
  base % 4096 = 0 ∧ A.base ≤ base ∧ base + size ≤ A.top ∧ s.mmapRangeUnmapped base size

/-- The loop looks at one base after the other. -/
theorem gapFrom_none : ∀ {turns base : Nat}, 0 < base → s.gapFrom size stop turns base = 0 → ∀ k < turns,
    base + k * 4096 + size ≤ stop → s.mmapRangeUnmapped (base + k * 4096) size = false := by
  intro turns
  induction turns with
  | zero => exact fun _ _ k hk => absurd hk (Nat.not_lt_zero k)
  | succ turns ih =>
    intro base hpos h k hk hend
    rw [gapFrom, if_pos (by omega)] at h
    split_ifs at h with hfree
    · omega
    · rcases k with - | k
      · simpa using hfree
      · have := ih (by omega) h k (by omega) (by omega)
        rwa [show base + (k + 1) * 4096 = base + 4096 + k * 4096 by omega]

theorem mmapFindGapFrom_none (hstart : A.base ≤ start) (htop : start ≤ A.top) (h : s.mmapFindGapFrom size start stop = 0)
    {base : Nat} (hg : s.Gap size base) (hlow : start ≤ base) : stop < base + size := by
  obtain ⟨hmod, -, hend, hfree⟩ := hg
  have hpos := A.base_pos
  have hle := top_le A
  rw [mmapFindGapFrom, if_neg (by omega)] at h
  have hup := le_mmapAlignUp (v := start) (by omega)
  have hnext : mmapAlignUp start ≤ base := by rw [mmapAlignUp]; omega
  have hup_mod := mmapAlignUp_mod start
  by_contra hin
  have hno := gapFrom_none (by omega) h ((base - mmapAlignUp start) / 4096) (by omega) (by omega)
  rw [show mmapAlignUp start + (base - mmapAlignUp start) / 4096 * 4096 = base by omega, hfree] at hno
  exact Bool.noConfusion hno

end Orthox.Mmap.Sys
