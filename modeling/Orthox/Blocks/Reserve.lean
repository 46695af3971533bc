import Orthox.Blocks.Trunc

/-! Log reservations. `XV6LOG_OP_WRITE` and `xv6fs_itrunc_need` say how many blocks an operation may log; the counts of `Write`
    and `Trunc` say how many it does. They agree unless the volume is aged: every block taken from or given back to another
    bitmap block costs one more log block, and the reservations do not know about it. -/

namespace Orthox.Blocks
open Journal List Finset

/-! ### Filling the log -/

/-- `lg.lh.block` after one `xv6log_write`. -/
def absorb (lh : List Nat) (b : Nat) : List Nat := if b ∈ lh then lh else lh ++ [b]

/-- `KASSERT(lg.lh.n < XV6FS_LOGBLOCKS)` fails at one of the calls. -/
def overflows : List Nat → List Nat → Bool
  | _, [] => false
  | lh, b :: bs => decide (logBlocks ≤ lh.length) || overflows (absorb lh b) bs

theorem absorb_length (lh : List Nat) (b : Nat) : (absorb lh b).length ≤ lh.length + 1 := by
  unfold absorb
  split <;> simp

theorem mem_absorb {lh : List Nat} {a b : Nat} : a ∈ absorb lh b ↔ a ∈ lh ∨ a = b := by
  unfold absorb
  split
  · rename_i h
    exact ⟨.inl, fun h' => h'.elim id fun e => e ▸ h⟩
  · simp

/-- With one block more room than there are new blocks, another call after them is safe too. -/
theorem overflows_false (x : Nat) : ∀ (ls lh : List Nat),
    lh.length + (ls.toFinset \ lh.toFinset).card < logBlocks → overflows lh (ls ++ [x]) = false
  | [], lh, hroom => by
    have hlt : ¬ logBlocks ≤ lh.length := by simp at hroom; omega
    simp [overflows, hlt]
  | b :: ls, lh, hroom => by
    have hlt : ¬ logBlocks ≤ lh.length := by omega
    have hroom' : (absorb lh b).length + (ls.toFinset \ (absorb lh b).toFinset).card < logBlocks := by
      by_cases hb : b ∈ lh
      · rw [absorb, if_pos hb]
        refine lt_of_le_of_lt (Nat.add_le_add_left (card_le_card ?_) _) hroom
        intro y hy
        simp only [mem_sdiff, mem_toFinset] at hy ⊢
        exact ⟨mem_cons_of_mem _ hy.1, hy.2⟩
      -- a new block moves from what is to come into the log
      have hlen := absorb_length lh b
      have hsub : insert b (ls.toFinset \ (absorb lh b).toFinset) ⊆ (b :: ls).toFinset \ lh.toFinset := by
        intro y hy
        rcases mem_insert.mp hy with rfl | hy
        · simp [hb]
        · simp only [mem_sdiff, mem_toFinset, mem_absorb, not_or] at hy ⊢
          exact ⟨mem_cons_of_mem _ hy.1, hy.2.1⟩
      have hcard := card_le_card hsub
      rw [card_insert_of_notMem (by simp [mem_absorb])] at hcard
      omega
    simp only [cons_append, overflows, hlt, decide_false]
    exact overflows_false x ls (absorb lh b) hroom'

/-! ### Reservations -/

/-- The blocks `ls` fit a reservation of `need`: no more than that many are different, and started
    with `need` blocks of room the log never overflows. -/
def Fits (need : Nat) (ls : List Nat) : Prop :=
  ls.toFinset.card ≤ need ∧ ∀ lh : List Nat, lh.length + need ≤ logBlocks → overflows lh ls = false

theorem fits_nil (need : Nat) : Fits need [] := ⟨Nat.zero_le _, fun _ _ => rfl⟩

/-- An operation that ends with a block of its own fits as soon as the number does. -/
theorem fits_iff {need x : Nat} {ls : List Nat} (hx : x ∉ ls) : Fits need (ls ++ [x]) ↔ (ls ++ [x]).toFinset.card ≤ need := by
  refine ⟨fun h => h.1, fun h => ⟨h, fun lh hlh => overflows_false x ls lh ?_⟩⟩
  have hcard := card_snoc hx
  have hsub : (ls.toFinset \ lh.toFinset).card ≤ ls.toFinset.card := card_le_card sdiff_subset
  omega

/-- CORRECT (exact condition): a chunk of `writei` fits its reservation exactly when it is refused or
    its count does, and likewise a cut of `itrunc_to`. -/
theorem reservations_iff {v : Vol} {ip : Inode} (h : Sound v ip) (hl : v.logged = []) :
    (∀ (src : Nat → BitVec 8) (off n now : Nat), off < 2 ^ 32 → n ≤ writeChunkMax →
      (Fits (opWrite n) (xv6fsWritei v ip src off n now).2.2.logged ↔ 2 ^ 32 ≤ off + n ∨ writeCost v ip off n ≤ opWrite n)) ∧
    ∀ length now : Nat, length < ip.size → (Fits (itruncNeed ip.size length) (xv6fsItruncTo v ip length now).2.logged ↔
        itruncCost v ip length ≤ itruncNeed ip.size length) := by
  refine ⟨fun src off n now hoff hn => ?_, fun length now _ => ?_⟩
  · by_cases hwrap : 2 ^ 32 ≤ off + n
    · -- the offset wraps around and the call is refused
      have hlt : (off + n) % 2 ^ 32 < off := by unfold writeChunkMax at hn; omega
      have hres : (xv6fsWritei v ip src off n now).2.2.logged = [] := by
        rw [xv6fsWritei, if_pos hlt, hl]
      rw [hres]
      exact iff_of_true (fits_nil _) (.inl hwrap)
    · obtain ⟨ls, hx, hlog, hcost⟩ := writei_logged h hl src now (Nat.lt_of_not_le hwrap)
      rw [hlog, fits_iff hx, hcost, or_iff_right hwrap]
  · obtain ⟨ls, hx, hlog, hcost⟩ := itruncTo_logged h hl length now
    rw [hlog, fits_iff hx, hcost]

/-! ### An aged volume -/

/-- 64 MiB with five free blocks, the first of five bitmap blocks each. -/
def aged : Vol where
  sb := ⟨65536, 16, 2, 129, 131⟩
  mem := fun b w => if 132 ≤ b ∧ b ≤ 136 ∧ w = 0 then 0xfffffffe else 0xffffffff
  hint := 8192
  logged := []
  panic := false

/-- A sparse file of one byte, with no block yet. -/
def sparse : Inode := ⟨1, 2, 0, 0, 1, 1, 0, fun _ => 0⟩

theorem aged_bit {b : Nat} : aged.bit b = false ↔ b % 8192 = 0 ∧ 1 ≤ b / 8192 ∧ b / 8192 ≤ 5 := by
  have hfe : ∀ k : Fin 32, (0xfffffffe : Word).getLsbD k.val = decide (k.val ≠ 0) := by decide
  have hff : ∀ k : Fin 32, (0xffffffff : Word).getLsbD k.val := by decide
  have hk : b % 32 < 32 := Nat.mod_lt _ (by decide)
  have hw : Vol.wordOf b = 0 ↔ b % 8192 / 32 = 0 := by
    simp [Vol.wordOf, bpb]
  have hbit : aged.bit b = (if 132 ≤ b / 8192 + 131 ∧ b / 8192 + 131 ≤ 136 ∧ Vol.wordOf b = 0 then
      (0xfffffffe : Word) else 0xffffffff).getLsbD (b % 32) := by
    simp only [Vol.bit, aged, Super.bblock, bpb]
  rw [hbit]
  split
  · rename_i hc
    have := hfe ⟨b % 32, hk⟩
    simp only at this
    rw [this, decide_eq_false_iff_not]
    omega
  have := hff ⟨b % 32, hk⟩
  rw [this]
  simp only [Bool.true_eq_false, false_iff]
  omega

theorem sparse_cell (N : Node) : cell aged sparse N = 0 := Vol.descend_zero aged N.2

theorem aged_sound : Sound aged sparse where
  ok := ⟨by decide, by decide, by decide, by simp [Super.dataStart, aged, bpb]⟩
  inum := by decide
  marked := fun b hb => by
    by_contra h
    have h₁ := aged_bit.mp (by simpa using h)
    have : aged.sb.dataStart = 140 := by simp [Super.dataStart, aged, bpb]
    omega
  inside := fun N _ h => absurd (sparse_cell N) h
  inj := fun N _ _ _ h => absurd (sparse_cell N) h

theorem aged_supply : aged.supply.toFinset = {8192, 16384, 24576, 32768, 40960} := by
  ext b
  have hsize : aged.sb.size = 65536 := rfl
  rw [mem_toFinset, Vol.mem_supply, aged_bit]
  simp only [mem_insert, Finset.mem_singleton]
  omega

theorem aged_supply_length : aged.supply.length = 5 := by
  rw [← toFinset_card_of_nodup (Vol.supply_nodup aged), aged_supply]
  rfl

theorem sparse_hole : hole aged sparse = fun _ => true := by
  funext N
  simp [hole, sparse_cell]

/-- The cost of a chunk of the sparse file, from the holes it meets. -/
theorem sparse_writeCost {off n : Nat} {ns : List Node} (hns : missing (fun _ => true) (span off n) = ns) :
    writeCost aged sparse off n = ((aged.supply.take (ns.take 5).length).map aged.sb.bblock).toFinset.card +
      (tablesOf (ns.take 5)).card + reach (fun _ => true) 5 (span off n) + 1 := by
  rw [writeCost, sparse_hole, aged_supply_length, hns]

theorem aged_groups : (aged.supply.map aged.sb.bblock).toFinset.card = 5 := by
  have himg : (aged.supply.map aged.sb.bblock).toFinset = aged.supply.toFinset.image aged.sb.bblock := by
    ext x; simp
  have hgroup : aged.sb.bblock = fun b => b / 8192 + 131 := by
    funext b
    simp only [Super.bblock, bpb, aged]
  rw [himg, aged_supply, hgroup]
  decide

/-- INCORRECT on such a volume: two bytes across the end of the single indirect range need five
    blocks from five bitmap blocks, eleven log blocks in all, and reserve nine. -/
theorem writei_overruns : Sound aged sparse ∧ aged.logged = [] ∧
    ¬ Fits (opWrite 2) (xv6fsWritei aged sparse (fun _ => 0) 271359 2 0).2.2.logged := by
  refine ⟨aged_sound, rfl, fun hfits => ?_⟩
  obtain ⟨ls, hx, hlog, hcost⟩ := writei_logged aged_sound rfl (fun _ => 0) 0 (show 271359 + 2 < 2 ^ 32 by decide)
  rw [hlog, fits_iff hx, hcost] at hfits
  -- a table and a block on each side of the boundary, and a second table on the far side
  have hmiss : missing (fun _ => true) (span 271359 2) = [(9, []), (9, [255]), (10, []), (10, [0]), (10, [0, 0])] := by
    decide +kernel
  have hsupply : aged.supply.take 5 = aged.supply := take_of_length_le (le_of_eq aged_supply_length)
  have hfive : ∀ a b c d e : Node, ([a, b, c, d, e].take 5).length = 5 := fun _ _ _ _ _ => rfl
  rw [sparse_writeCost hmiss, hfive, hsupply, aged_groups] at hfits
  exact absurd hfits (by decide)

/-- One byte at the start of the file takes one block and fits, and so does cutting it off again. -/
theorem reservations_fit : Fits (opWrite 1) (xv6fsWritei aged sparse (fun _ => 0) 0 1 0).2.2.logged ∧
    Fits (itruncNeed sparse.size 0) (xv6fsItruncTo aged sparse 0 0).2.logged := by
  obtain ⟨hwrite, hcut⟩ := reservations_iff aged_sound rfl
  refine ⟨(hwrite (fun _ => 0) 0 1 0 (by decide) (by decide)).mpr (.inr ?_), (hcut 0 0 (by decide)).mpr ?_⟩
  · have hmiss : missing (fun _ => true) (span 0 1) = [(0, [])] := by decide +kernel
    have hreach : reach (fun _ => true) 5 (span 0 1) = 1 := by decide +kernel
    have htab : (tablesOf ([(0, [])].take 5)).card = 0 := by decide +kernel
    have hmaps : ((aged.supply.take ([((0 : Fin 12), ([] : List (Fin 256)))].take 5).length).map
        aged.sb.bblock).toFinset.card ≤ 1 := le_trans (toFinset_card_le _) (by simp)
    have hop : opWrite 1 = 9 := by decide
    rw [sparse_writeCost hmiss, htab]
    omega
  · have hslot : ∀ s, slotTree aged sparse s = .hole := fun s => readTree_zero aged (slotDepth s)
    decide

end Orthox.Blocks
