import Orthox.Blocks.Files

/-! What `balloc` promises over many calls, next to the number `xv6fs_statfs` reports. Every call takes the head of the
    supply, so the calls together give the supply in order and then 0. This takes a bitmap that marks block 0, which is
    the answer of a failed call, and the blocks of the bitmap itself, which would be zeroed when they are handed out. -/

namespace Orthox.Blocks
open List Function

/-- `struct xv6fs_statfs` -/
structure Statfs where
  bsize : Nat
  blocks : Nat
  bfree : Nat
  files : Nat
  ffree : Nat
  namelen : Nat

namespace Vol
variable {v : Vol} {b c n : Nat}

/-- The clear bits of one bitmap block, as `xv6fs_statfs` counts them. -/
def countGroup (v : Vol) (b : Nat) : Nat := (range bpb).countP fun bi => decide (b + bi < v.sb.size) && !v.bit (b + bi)

/-- `xv6fs_statfs` of a mounted volume. -/
def xv6fsStatfs (v : Vol) : Statfs where
  bsize := bsize
  blocks := v.sb.size
  bfree := (range ((v.sb.size + bpb - 1) / bpb)).foldl (fun bfree g => bfree + v.countGroup (g * bpb)) 0
  files := v.sb.ninodes
  ffree := (range' 1 (v.sb.ninodes - 1)).countP fun i => (inodeAt v i).type = 0
  namelen := 62

/-- What `n` calls of `balloc` return, one after the other. -/
def ballocs : Nat → Vol → List Nat
  | 0, _ => []
  | n + 1, v => v.balloc.1 :: ballocs n v.balloc.2

/-- Block 0 and the blocks of the bitmap are marked, and the scan does not run over 32 bits. -/
structure Kept (v : Vol) : Prop where
  fits : v.sb.size + bpb ≤ 2 ^ 32
  zero : 0 < v.sb.size → v.bit 0 = true
  bitmap : ∀ b < v.sb.size, v.sb.bmapstart ≤ b → b < v.sb.dataStart → v.bit b = true

/-- Block `b` was free and is taken: its bit is set, its bytes are zero, and nothing else changed. -/
structure Taken (v : Vol) (b : Nat) (v' : Vol) : Prop where
  inside : b < v.sb.size
  clear : v.bit b = false
  bits : ∀ c, c / bpb ≤ v.sb.size / bpb → v'.bit c = if c = b then true else v.bit c
  zeroed : v'.mem b = fun _ => 0
  others : ∀ a, a ≠ b → a ≠ v.sb.bblock b → v'.mem a = v.mem a

/-! ### The count -/

theorem countGroup_eq (v : Vol) (b : Nat) : v.countGroup b = (v.free b (min (b + bpb) v.sb.size)).length := by
  have hmap : v.countGroup b = (range' b bpb).countP fun c => decide (c < v.sb.size) && !v.bit c := by
    rw [range'_eq_map_range, countP_map]
    rfl
  have hcomm : (fun c => decide (c < v.sb.size) && !v.bit c) = fun c => !v.bit c && decide (c < v.sb.size) := by
    funext c
    exact Bool.and_comm _ _
  rw [hmap, countP_eq_length_filter, hcomm, ← filter_filter, range'_filter_lt]
  rfl

theorem length_free_groups (v : Vol) (k : Nat) :
    (range k).foldl (fun bfree g => bfree + v.countGroup (g * bpb)) 0 = (v.free 0 (min (k * bpb) v.sb.size)).length := by
  induction k with
  | zero => simp [free]
  | succ k ih =>
    rw [range_succ, foldl_append, ih, foldl_cons, foldl_nil, countGroup_eq, Nat.succ_mul]
    rcases le_total v.sb.size (k * bpb) with hle | hle
    · have hnil : v.free (k * bpb) (min (k * bpb + bpb) v.sb.size) = [] := free_nil fun c h₁ h₂ => by omega
      rw [hnil, min_eq_right hle, min_eq_right (by omega)]
      rfl
    · rw [min_eq_left hle, ← length_append, ← free_append v 0 _ _ (Nat.zero_le _) (by omega)]

/-- The number reported is that of the blocks `balloc` has in supply. -/
theorem statfs_bfree (v : Vol) : v.xv6fsStatfs.bfree = v.supply.length := by
  have hceil := ceil_mul 0 v.sb.size (Nat.zero_le _)
  have hsplit := free_append v 0 v.scanStart v.sb.size (Nat.zero_le _) (scanStart_le v)
  rw [Nat.sub_zero, zero_add] at hceil
  rw [xv6fsStatfs, length_free_groups, min_eq_right hceil, hsplit, supply, length_append, length_append, add_comm]

/-! ### The calls -/

theorem Kept.apart (h : Kept v) (hb : b ∈ v.supply) : b ≠ 0 ∧ (b < v.sb.bmapstart ∨ v.sb.dataStart ≤ b) := by
  obtain ⟨hlt, hbit⟩ := mem_supply.mp hb
  refine ⟨?_, ?_⟩
  · rintro rfl
    rw [h.zero hlt] at hbit
    cases hbit
  · by_contra hin
    obtain ⟨h₁, h₂⟩ := not_or.mp hin
    rw [h.bitmap b hlt (not_lt.mp h₁) (not_le.mp h₂)] at hbit
    cases hbit

theorem Kept.taken (h : Kept v) (hb : b ∈ v.supply) : Taken v b (v.took b) := by
  obtain ⟨hlt, hbit⟩ := mem_supply.mp hb
  have hapart := (h.apart hb).2
  refine ⟨hlt, hbit, fun c hc => ?_, ?_, fun a hne hmap => ?_⟩
  · have hne : v.sb.bblock c ≠ b := by
      simp only [Super.dataStart, Super.bblock, bpb] at *
      omega
    rw [← bit_setBit v b c true]
    simp only [bit, took, xv6bzero, xv6logWrite, put, setBit]
    rw [update_of_ne hne]
  · exact update_self ..
  · simp only [took, xv6bzero, xv6logWrite, put, setBit]
    rw [update_of_ne hne, update_of_ne hmap]

/-- Setting bits keeps what has to be marked. -/
theorem Kept.took (h : Kept v) (hb : b ∈ v.supply) : Kept (v.took b) := by
  have hbits := (h.taken hb).bits
  have hset : ∀ c < v.sb.size, v.bit c → (v.took b).bit c := by
    intro c hc hbit
    rw [hbits c (Nat.div_le_div_right hc.le), hbit]
    exact ite_self _
  exact ⟨h.fits, fun hpos => hset 0 hpos (h.zero hpos), fun c hc h₁ h₂ => hset c hc (h.bitmap c hc h₁ h₂)⟩

/-- The calls give the supply, and 0 when it is used up. -/
theorem ballocs_eq (h : Kept v) : v.ballocs n = v.supply.take n ++ replicate (n - v.supply.length) 0 := by
  induction n generalizing v with
  | zero => simp [ballocs]
  | succ n ih =>
    rw [ballocs]
    rcases hs : v.supply with - | ⟨b, bs⟩
    · rw [balloc_nil hs, ih h, hs]
      simp [replicate_succ]
    have hb : b ∈ v.supply := hs ▸ mem_cons_self
    have htail : (v.took b).supply = bs := supply_tail hs rfl rfl fun c hc => (h.taken hb).bits c (Nat.div_le_div_right hc.le)
    rw [balloc_cons hs, ih (h.took hb), htail]
    simp

theorem bit_bfree (v : Vol) (b c : Nat) : (v.bfree b).bit c = if c = b then false else v.bit c := by
  rw [← bit_setBit v b c false]
  unfold bfree
  split <;> rfl

theorem Kept.bfree (h : Kept v) (hb : b ≠ 0) (hout : b < v.sb.bmapstart ∨ v.sb.dataStart ≤ b) : Kept (v.bfree b) := by
  have hsb : (v.bfree b).sb = v.sb := by
    unfold Vol.bfree
    split <;> rfl
  refine ⟨by rw [hsb]; exact h.fits, fun hpos => ?_, fun c hc h₁ h₂ => ?_⟩
  · rw [bit_bfree, if_neg hb.symm]
    exact h.zero (hsb ▸ hpos)
  · rw [hsb] at hc h₁ h₂
    rw [bit_bfree, if_neg (by omega)]
    exact h.bitmap c hc h₁ h₂

/-- CORRECT where block 0 and the bitmap are marked: a call fails only on a full volume and then changes nothing, one that
    succeeds takes a free block and nothing else, `n` calls succeed as often as there are free blocks, and a block that is
    freed is among the next ones. -/
theorem balloc_complete (h : Kept v) :
    (v.balloc.1 = 0 → v.balloc.2 = v ∧ ∀ b < v.sb.size, v.bit b = true) ∧ (v.balloc.1 ≠ 0 → Taken v v.balloc.1 v.balloc.2) ∧
      (∀ n, ((v.ballocs n).filter (· ≠ 0)).length = min n v.xv6fsStatfs.bfree) ∧
      ∀ b < v.sb.size, b ≠ 0 → (b < v.sb.bmapstart ∨ v.sb.dataStart ≤ b) →
        b ∈ (v.bfree b).ballocs (v.bfree b).xv6fsStatfs.bfree := by
  refine ⟨fun hz => ?_, fun hne => ?_, fun n => ?_, fun b hb hne hout => ?_⟩
  · rcases hs : v.supply with - | ⟨b, bs⟩
    · refine ⟨by rw [balloc_nil hs], fun b hb => ?_⟩
      by_contra hbit
      have : b ∈ v.supply := mem_supply.mpr ⟨hb, by simpa using hbit⟩
      rw [hs] at this
      cases this
    · rw [balloc_cons hs] at hz
      exact absurd hz (h.apart (hs ▸ mem_cons_self)).1
  · rcases hs : v.supply with - | ⟨b, bs⟩
    · rw [balloc_nil hs] at hne
      exact absurd rfl hne
    · rw [balloc_cons hs]
      exact h.taken (hs ▸ mem_cons_self)
  · have hall : (v.supply.take n).filter (· ≠ 0) = v.supply.take n :=
      filter_eq_self.mpr fun c hc => decide_eq_true (h.apart (mem_of_mem_take hc)).1
    rw [ballocs_eq h, filter_append, hall, statfs_bfree]
    simp
  · have hsb : (v.bfree b).sb = v.sb := by
      unfold bfree
      split <;> rfl
    rw [ballocs_eq (h.bfree hne hout), statfs_bfree, take_length]
    refine mem_append_left _ (mem_supply.mpr ⟨hsb ▸ hb, ?_⟩)
    rw [bit_bfree, if_pos rfl]

/-- Forty blocks, of which the first three are marked: block 2 is the bitmap. -/
def small : Vol := ⟨⟨40, 0, 0, 0, 2⟩, fun a k => if a = 2 ∧ k = 0 then 7 else 0, 0, [], false⟩

theorem balloc_complete_small : ((small.ballocs 50).filter (· ≠ 0)).length = min 50 small.xv6fsStatfs.bfree :=
  (balloc_complete ⟨by decide +kernel, by decide +kernel, by decide +kernel⟩).2.2.1 50

/-- The same volume with other marks. -/
def marked (bits : BitVec 32) : Vol := { small with mem := fun a k => if a = 2 ∧ k = 0 then bits else 0 }

/-- INCORRECT for every bitmap: with the bit of block 0 clear, block 0 is taken and the answer is that of a failure; with
    the bit of the bitmap's own block clear, that block is handed out and the other marks are lost. -/
theorem balloc_takes_zero : ((marked 0).bit 0 = false ∧ (marked 0).balloc.1 = 0 ∧ (marked 0).balloc.2.bit 0 = true) ∧
    (marked 3).bit 1 = true ∧ (marked 3).balloc.1 = 2 ∧ (marked 3).balloc.2.bit 1 = false := by decide +kernel

end Vol
end Orthox.Blocks
