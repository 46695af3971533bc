import Orthox.Journal.Log

/-! What each journal routine does to the disk, said once per routine.

    `Does v A s s'`: going from `s` to `s'` issues commands that write exactly the addresses `A`, each with the block `v` gives
    for it. The log copy writes the log slots, the installation writes the home blocks, and neither cares which buffers the LRU
    scan recycled on the way: the sources are pinned (`Holds`) or agree with the disk (`Coherent`). -/

namespace Orthox.Journal
open Schemes.Crash Function

/-! ### Buffer cache -/

namespace Sys
variable (s : Sys) (b : Nat) (v : Block)

@[simp] theorem xv6bread_disk : (s.xv6bread b).2.disk = s.disk := by unfold xv6bread; split <;> rfl
@[simp] theorem xv6bread_issued : (s.xv6bread b).2.issued = s.issued := by unfold xv6bread; split <;> rfl
@[simp] theorem xv6bread_start : (s.xv6bread b).2.start = s.start := by unfold xv6bread; split <;> rfl
@[simp] theorem xv6bread_block : (s.xv6bread b).2.block = s.block := by unfold xv6bread; split <;> rfl
@[simp] theorem xv6bread_pins : (s.xv6bread b).2.pins = s.pins := by unfold xv6bread; split <;> rfl
@[simp] theorem xv6bread_gStage : (s.xv6bread b).2.gStage = s.gStage := by unfold xv6bread; split <;> rfl
@[simp] theorem xv6bread_gStageValid : (s.xv6bread b).2.gStageValid = s.gStageValid := by
  unfold xv6bread; split <;> rfl
@[simp] theorem xv6bread_runRead : (s.xv6bread b).2.runRead = s.runRead := by unfold xv6bread; split <;> rfl

variable {s b v} {i : Nat}

theorem resident_pinned (hp : 0 < s.pins i) : s.resident i = s.cache i := by
  simp [resident, Nat.pos_iff_ne_zero.mp hp]

/-- A pinned buffer gives its data, and reading another block leaves it alone. -/
theorem xv6bread_pinned (hp : 0 < s.pins b) (hc : s.cache b = some v) : (s.xv6bread b).1 = v := by
  unfold xv6bread
  rw [resident_pinned hp, hc]

theorem xv6bread_keeps (hp : 0 < s.pins i) (hc : s.cache i = some v) : (s.xv6bread b).2.cache i = some v := by
  have hr : s.resident i = some v := by rw [resident_pinned hp, hc]
  unfold xv6bread
  split
  · exact hr
  rename_i hb
  by_cases hib : i = b
  · subst hib; rw [hr] at hb; cases hb
  · simpa [update_of_ne hib] using hr

/-- Buffers of the blocks in `A` that are there agree with the disk. -/
def Coherent (A : Set Nat) (s : Sys) : Prop := ∀ i ∈ A, ∀ v, s.cache i = some v → v = s.disk i

theorem resident_some (h : s.resident i = some v) : s.cache i = some v := by
  unfold resident at h
  split at h
  · cases h
  · exact h

variable {A : Set Nat} (h : Coherent A s)
include h

theorem Coherent.xv6bread (b : Nat) : Coherent A (s.xv6bread b).2 := by
  intro i hi v hv
  rw [xv6bread_disk]
  unfold Sys.xv6bread at hv
  split at hv
  · exact h i hi v (resident_some hv)
  by_cases hib : i = b
  · subst hib; simpa using hv.symm
  · simp only [update_of_ne hib] at hv
    exact h i hi v (resident_some hv)

variable {b : Nat}

theorem Coherent.read (hb : b ∈ A) : (s.xv6bread b).1 = s.disk b := by
  unfold Sys.xv6bread
  split
  · rename_i v hv
    exact h b hb v (resident_some hv)
  · rfl

theorem Coherent.fill (hb : b ∉ A) (v : Block) : Coherent A (s.fill b v) := by
  intro i hi w hw
  have hib : i ≠ b := fun e => hb (e ▸ hi)
  simp only [Sys.fill, update_of_ne hib] at hw
  exact h i hi w hw

/-- Writing a buffer to its own block keeps every other buffer coherent, and makes this one so. -/
theorem Coherent.xv6bwrite {v : Block} (hb : b ∈ A → s.cache b = some v) : Coherent A (s.xv6bwrite b v) := by
  intro i hi w hw
  simp only [Sys.xv6bwrite, issue, put_single]
  by_cases hib : i = b
  · subst hib
    have : s.cache i = some w := hw
    rw [hb hi] at this
    simpa using this.symm
  · rw [update_of_ne hib]
    exact h i hi w hw

theorem Coherent.xv6bunpin (b : Nat) : Coherent A (s.xv6bunpin b) := h

end Sys

/-- The blocks of `bs` are pinned and hold their new contents. -/
def Holds (new : Nat → Block) (bs : List Word) (s : Sys) : Prop :=
  ∀ b ∈ bs, 0 < s.pins b.toNat ∧ s.cache b.toNat = some (new b.toNat)

variable {new : Nat → Block} {bs : List Word} {s t u : Sys}

theorem Holds.xv6bread (h : Holds new bs s) (a : Nat) : Holds new bs (s.xv6bread a).2 := by
  intro b hb
  obtain ⟨hp, hc⟩ := h b hb
  exact ⟨by simpa using hp, Sys.xv6bread_keeps hp hc⟩

theorem Holds.fill (h : Holds new bs s) {a : Nat} (ha : ∀ b ∈ bs, b.toNat ≠ a) (v : Block) : Holds new bs (s.fill a v) := by
  intro b hb
  obtain ⟨hp, hc⟩ := h b hb
  exact ⟨hp, by simpa [Sys.fill, update_of_ne (ha b hb)] using hc⟩

/-! ### Disk effects -/

/-- The commands issued from `s` to `s'`. -/
structure Wrote (ws : List (Write Nat Block)) (s s' : Sys) : Prop where
  issued : s'.issued = s.issued ++ ws
  disk : s'.disk = applyAll ws s.disk
  start : s'.start = s.start

/-- From `s` to `s'` exactly the addresses in `A` are written, each with `v`'s block. -/
def Does (v : Nat → Block) (A : Set Nat) (s s' : Sys) : Prop :=
  ∃ ws, Wrote ws s s' ∧ Agrees v ws ∧ ∀ i, Touches ws i ↔ i ∈ A

theorem Wrote.trans {ws vs : List (Write Nat Block)} (h : Wrote ws s t) (k : Wrote vs t u) : Wrote (ws ++ vs) s u where
  issued := by rw [k.issued, h.issued, List.append_assoc]
  disk := by rw [k.disk, h.disk, applyAll_append]
  start := k.start.trans h.start

variable {v : Nat → Block}

theorem Does.of_quiet {s' : Sys} (hi : s'.issued = s.issued) (hd : s'.disk = s.disk) (hs : s'.start = s.start) : Does v ∅ s s' :=
  ⟨[], ⟨by simp [hi], hd, hs⟩, fun _ hw => by simp at hw, fun i => by simp [Touches]⟩

theorem Does.trans {A B : Set Nat} (h : Does v A s t) (k : Does v B t u) : Does v (A ∪ B) s u := by
  obtain ⟨ws, hw, hag, ht⟩ := h
  obtain ⟨vs, kw, kag, kt⟩ := k
  refine ⟨ws ++ vs, hw.trans kw, hag.append kag, fun i => ?_⟩
  rw [touches_append, ht i, kt i]
  rfl

theorem does_issue {A : Set Nat} {w : Write Nat Block}
    (hv : ∀ i x, w i = some x → x = v i) (hA : ∀ i, (∃ x, w i = some x) ↔ i ∈ A) : Does v A s (s.issue w) := by
  refine ⟨[w], ⟨rfl, rfl, rfl⟩, fun u hu => ?_, fun i => ?_⟩
  · rw [List.mem_singleton.mp hu]; exact hv
  · rw [← hA i]; simp [Touches]

theorem does_xv6bwrite {x : Block} (hx : x = v b) : Does v {b} s (s.xv6bwrite b x) := by
  refine does_issue (fun i y hy => ?_) (fun i => ?_)
  · by_cases hib : i = b
    · subst hib; simp at hy; rw [← hy, hx]
    · simp [hib] at hy
  · by_cases hib : i = b <;> simp [hib]

variable {v : Nat → Block} {A : Set Nat} {s t : Sys} (h : Does v A s t)
include h

/-- Addresses outside `A` keep their blocks. -/
theorem Does.frame {i : Nat} (hi : i ∉ A) : t.disk i = s.disk i := by
  obtain ⟨ws, hw, hag, ht⟩ := h
  rw [hw.disk]
  exact applyAll_untouched hag _ (by rwa [ht i])

/-- Rebase an effect on a state that differs from `s` only in memory. -/
theorem Does.of_eq (s₀ : Sys) (hi : s.issued = s₀.issued) (hd : s.disk = s₀.disk) (hs : s.start = s₀.start) : Does v A s₀ t := by
  have := (of_quiet hi hd hs).trans h
  rwa [Set.empty_union] at this

/-- Forget a final change of memory only. -/
theorem Does.mem_only (t' : Sys)
    (hi : t'.issued = t.issued) (hd : t'.disk = t.disk) (hs : t'.start = t.start) : Does v A s t' := by
  have := h.trans (of_quiet hi hd hs)
  rwa [Set.union_empty] at this

end Orthox.Journal
