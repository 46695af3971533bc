import Orthox.Blocks.Bmap

/-! The bytes of a file. Position `p` lies in file block `p / bsize`; a hole reads as zeros (`data`). `bmap` fills holes with
    zeroed blocks and so changes no byte, and what it takes was free before: blocks of other files, and everything in front of
    the bitmap, stay as they are (`Frame`). On top of that the loop of `writei` is an overlay of the bytes it stored. -/

namespace Orthox.Blocks
open Journal List Function Vol

/-! ### Bytes of a block -/

variable {N : Node} {f : Nat} {js : List (Fin 256)} {i : Fin 256} {k : Nat}

theorem byte_ofBytes (f : Nat → BitVec 8) (hk : k < bsize) : byte (ofBytes f) k = f k := by
  unfold bsize at hk
  obtain ⟨q, r, hr, rfl⟩ : ∃ q r, r < 4 ∧ k = 4 * q + r := ⟨k / 4, k % 4, Nat.mod_lt _ (by decide), by omega⟩
  have hw : q < 256 := by omega
  have hq : (4 * q + r) / 4 = q := by omega
  have hm : (4 * q + r) % 4 = r := by omega
  simp only [byte, word, hq, dif_pos hw, ofBytes]
  apply BitVec.eq_of_getLsbD_eq
  intro i hi
  simp only [BitVec.getLsbD_extractLsb', BitVec.getLsbD_append, hi, decide_true, Bool.true_and]
  -- bit `i` of byte `r` lies behind the `r` lower bytes
  rcases (by omega : r = 0 ∨ r = 1 ∨ r = 2 ∨ r = 3) with rfl | rfl | rfl | rfl
  · simp [hi]
  · rw [if_neg (by omega), if_pos (by omega)]
    congr 1
    omega
  · rw [if_neg (by omega), if_neg (by omega), if_pos (by omega)]
    congr 1
    omega
  rw [if_neg (by omega), if_neg (by omega), if_neg (by omega)]
  congr 1
  omega

theorem byte_zero (k : Nat) : byte (fun _ => 0) k = 0 := by
  simp [byte, word]

/-! ### Contents -/

/-- The block of a data node; zeros for a hole. -/
def leaf (v : Vol) (ip : Inode) (N : Node) : Block := if cell v ip N = 0 then fun _ => 0 else v.mem (cell v ip N)

/-- The byte at position `p`, below the size or not. -/
def data (v : Vol) (ip : Inode) (p : Nat) : BitVec 8 :=
  match path (p / bsize) with
  | none => 0
  | some N => byte (leaf v ip N) (p % bsize)

variable {v v' : Vol} {ip ip' : Inode}

theorem data_of_lt {p : Nat} (h : p / bsize < maxFile) : data v ip p = byte (leaf v ip (fileNode (p / bsize))) (p % bsize) := by
  rw [data, path_some h]

/-- A node of data, not of a table. -/
def IsLeaf (N : Node) : Prop := N.2.length = slotDepth N.1

theorem IsLeaf.valid (h : IsLeaf N) : Valid N := h.le

theorem data_congr (h : ∀ N, IsLeaf N → leaf v' ip' N = leaf v ip N) (p : Nat) : data v' ip' p = data v ip p := by
  unfold data
  split
  · rfl
  · rename_i N hN
    rw [h N (path_valid hN)]

section
variable {v v' : Vol} {ip : Inode} (h : ∀ N, Valid N → cell v ip N ≠ 0 → v'.mem (cell v ip N) = v.mem (cell v ip N))
include h

/-- A file is where it was when its blocks are as they were. -/
theorem cell_congr (hN : Valid N) : cell v' ip N = cell v ip N := by
  obtain ⟨s, js⟩ := N
  induction js using reverseRecOn with
  | nil => rfl
  | append_singleton js j ih =>
    have hJ := valid_of_snoc hN
    rw [cell_snoc, cell_snoc, ih hJ]
    split_ifs with hz
    · rfl
    · rw [entry, h _ hJ hz, entry]

theorem data_of_mem (p : Nat) : data v' ip p = data v ip p := by
  refine data_congr (fun N hN => ?_) p
  rw [leaf, leaf, cell_congr h hN.valid]
  split_ifs with hz
  · rfl
  · exact h N hN.valid hz

end

/-! ### What an operation on one file leaves alone -/

/-- Node blocks are old blocks of the file or were free; blocks used elsewhere and those in front of the
    bitmap did not change. -/
structure Frame (v : Vol) (ip : Inode) (v' : Vol) (ip' : Inode) : Prop where
  sb : v'.sb = v.sb
  inum : ip'.inum = ip.inum
  own : ∀ N, Valid N → cell v' ip' N ≠ 0 → (∃ M, Valid M ∧ cell v ip M = cell v' ip' N) ∨ v.bit (cell v' ip' N) = false
  away : ∀ x, v.sb.dataStart ≤ x → x < v.sb.size → v.bit x = true → (∀ N, Valid N → cell v ip N ≠ x) →
    v'.mem x = v.mem x ∧ v'.bit x = true
  low : ∀ x, x < v.sb.bmapstart → v'.mem x = v.mem x

namespace Frame
variable {v v₁ v₂ : Vol} {ip ip₁ ip₂ jp : Inode}

theorem refl (v : Vol) (ip : Inode) : Frame v ip v ip :=
  ⟨rfl, rfl, fun N hN _ => .inl ⟨N, hN, rfl⟩, fun _ _ _ hb _ => ⟨rfl, hb⟩, fun _ _ => rfl⟩

/-- A marked block of someone else stays foreign. -/
theorem foreign (h : Frame v ip v₁ ip₁) {x : Nat} (hx : v.sb.dataStart ≤ x) (hb : v.bit x)
    (hn : ∀ N, Valid N → cell v ip N ≠ x) (hN : Valid N) : cell v₁ ip₁ N ≠ x := by
  have hpos : 0 < v.sb.dataStart := Nat.succ_pos _
  intro e
  rcases h.own N hN (by omega) with ⟨M, hM, hMN⟩ | hfree
  · exact hn M hM (hMN.trans e)
  · rw [e, hb] at hfree
    cases hfree

theorem trans (hs : Sound v₂ ip₂) (h : Frame v ip v₁ ip₁) (k : Frame v₁ ip₁ v₂ ip₂) : Frame v ip v₂ ip₂ := by
  refine ⟨k.sb.trans h.sb, k.inum.trans h.inum, fun N hN hne => ?_, fun x hx hsz hb hn => ?_, fun x hx => ?_⟩
  · rcases k.own N hN hne with ⟨M, hM, e⟩ | hfree
    · rw [← e] at hne ⊢
      exact h.own M hM hne
    -- a block that is free in between was the file's own, or free all along
    obtain ⟨h₁, h₂, -⟩ := hs.inside N hN hne
    rw [k.sb, h.sb] at h₁ h₂
    by_cases hown : ∃ M, Valid M ∧ cell v ip M = cell v₂ ip₂ N
    · exact .inl hown
    right
    by_contra hb
    rw [Bool.not_eq_false] at hb
    have := (h.away _ h₁ h₂ hb fun M hM e => hown ⟨M, hM, e⟩).2
    rw [hfree] at this
    cases this
  · obtain ⟨hm, hb₁⟩ := h.away x hx hsz hb hn
    have hk := k.away x (by rw [h.sb]; exact hx) (by rw [h.sb]; exact hsz) hb₁ fun N hN => h.foreign hx hb hn hN
    exact ⟨hk.1.trans hm, hk.2⟩
  · rw [k.low x (by rw [h.sb]; exact hx), h.low x hx]

end Frame

/-- Two files share no block. -/
def Apart (v : Vol) (ip jp : Inode) : Prop := ∀ N M, Valid N → Valid M → cell v ip N ≠ 0 → cell v ip N ≠ cell v jp M

theorem Apart.symm {jp : Inode} (h : Apart v ip jp) : Apart v jp ip :=
  fun N M hN hM hne e => h M N hM hN (e ▸ hne) e.symm

namespace Frame
variable {v v' : Vol} {ip ip' jp : Inode}

section
variable (h : Frame v ip v' ip') (hj : Sound v jp) (hd : Apart v ip jp)
include h hj hd

variable {M : Node}

/-- The other file's blocks are marked and foreign. -/
theorem keeps_block (hM : Valid M) (hne : cell v jp M ≠ 0) : v'.mem (cell v jp M) = v.mem (cell v jp M) ∧ v'.bit (cell v jp M) := by
  obtain ⟨h₁, h₂, h₃⟩ := hj.inside M hM hne
  exact h.away _ h₁ h₂ h₃ fun N hN e => hd N M hN hM (e ▸ hne) e

theorem keeps_cell (hM : Valid M) : cell v' jp M = cell v jp M :=
  cell_congr (fun _ hN hne => (h.keeps_block hj hd hN hne).1) hM

theorem keeps_data (p : Nat) : data v' jp p = data v jp p :=
  data_of_mem (fun _ hN hne => (h.keeps_block hj hd hN hne).1) p

theorem keeps_sound (hs : Sound v' ip') : Sound v' jp := by
  refine ⟨hs.ok, by rw [h.sb]; exact hj.inum, hs.marked, fun M hM hne => ?_, fun M M' hM hM' hne e => ?_⟩
  · rw [h.keeps_cell hj hd hM] at hne ⊢
    obtain ⟨h₁, h₂, -⟩ := hj.inside M hM hne
    rw [h.sb]
    exact ⟨h₁, h₂, (h.keeps_block hj hd hM hne).2⟩
  · rw [h.keeps_cell hj hd hM] at hne e
    rw [h.keeps_cell hj hd hM'] at e
    exact hj.inj M M' hM hM' hne e

theorem keeps_apart : Apart v' ip' jp := by
  intro N M hN hM hne e
  rw [h.keeps_cell hj hd hM] at e
  rcases h.own N hN hne with ⟨N', hN', eN⟩ | hfree
  · exact hd N' M hN' hM (eN ▸ hne) (eN.trans e)
  rw [e] at hne hfree
  rw [(hj.inside M hM hne).2.2] at hfree
  cases hfree

/-- Two files that are both someone else's stay apart. -/
theorem keeps_apart_others {kp : Inode} (hk : Sound v kp) (hd' : Apart v ip kp) (hjk : Apart v jp kp) : Apart v' jp kp := by
  intro N M hN hM
  rw [h.keeps_cell hj hd hN, h.keeps_cell hk hd' hM]
  exact hjk N M hN hM

end

end Frame

/-! ### `bmap` changes no byte -/

/-- All but the block addresses agree. -/
def SameRest (ip ip' : Inode) : Prop := { ip' with addrs := ip.addrs } = ip

theorem SameRest.trans {ip₁ ip₂ : Inode} (h : SameRest ip ip₁) (k : SameRest ip₁ ip₂) : SameRest ip ip₂ := by
  have := congrArg (fun q : Inode => { q with addrs := ip.addrs }) k
  exact this.trans h

theorem SameRest.fields (h : SameRest ip ip') : ip'.type = ip.type ∧ ip'.size = ip.size ∧ ip'.mtime = ip.mtime := by
  have htype := congrArg Inode.type h
  have hsize := congrArg Inode.size h
  have hmtime := congrArg Inode.mtime h
  exact ⟨htype, hsize, hmtime⟩

theorem SameRest.inum (h : SameRest ip ip') : ip'.inum = ip.inum := by
  have := congrArg Inode.inum h
  exact this

/-- A step that keeps every byte of the file. -/
structure Kept (v : Vol) (ip : Inode) (v' : Vol) (ip' : Inode) : Prop extends Frame v ip v' ip' where
  leaf : ∀ N, IsLeaf N → leaf v' ip' N = leaf v ip N
  rest : SameRest ip ip'

namespace Kept
variable {v v₁ v₂ : Vol} {ip ip₁ ip₂ : Inode}

theorem refl (v : Vol) (ip : Inode) : Kept v ip v ip := ⟨.refl v ip, fun _ _ => rfl, rfl⟩

theorem trans (hs : Sound v₂ ip₂) (h : Kept v ip v₁ ip₁) (k : Kept v₁ ip₁ v₂ ip₂) : Kept v ip v₂ ip₂ :=
  ⟨h.toFrame.trans hs k.toFrame, fun N hN => (k.leaf N hN).trans (h.leaf N hN), h.rest.trans k.rest⟩

theorem data (h : Kept v ip v₁ ip₁) (p : Nat) : data v₁ ip₁ p = data v ip p := data_congr h.leaf p

end Kept

/-- One node gets another block, or none, and reads as before; beside it only the bitmap and tables of the file are written. -/
theorem Sound.replaced {x : Nat} (h : Sound v ip) (hN : Valid N)
    (hcell : ∀ M, Valid M → cell v' ip' M = if M = N then x else cell v ip M) (hsb : v'.sb = v.sb) (hrest : SameRest ip ip')
    (hx : x ≠ 0 → v.sb.dataStart ≤ x ∧ x < v.sb.size ∧ v.bit x = false ∧ v'.bit x)
    (hbit : ∀ c < v.sb.size, v.bit c → c = 0 ∨ cell v ip N ≠ c → v'.bit c)
    (hmem : ∀ y, y < v.sb.bmapstart ∨ v.sb.dataStart ≤ y ∧ y ≠ x →
      (∀ M, Valid M → ¬ IsLeaf M → cell v ip M ≠ 0 → cell v ip M ≠ y) → v'.mem y = v.mem y)
    (hsame : IsLeaf N → leaf v' ip' N = leaf v ip N) : Sound v' ip' ∧ Kept v ip v' ip' := by
  have hinum := hrest.inum
  have hle := v.sb.bmapstart_le
  have hsize := h.ok.bitmap
  have hpos : 0 < v.sb.dataStart := Nat.succ_pos _
  have hfresh : ∀ M, Valid M → cell v ip M ≠ 0 → cell v ip M ≠ x := by
    rintro M hM hne rfl
    exact Bool.false_ne_true ((hx hne).2.2.1.symm.trans (h.inside M hM hne).2.2)
  refine ⟨⟨hsb ▸ h.ok, by rw [hsb, hinum]; exact h.inum, fun b hb => ?_, fun M hM hne => ?_, fun M M' hM hM' hne he => ?_⟩,
    ⟨hsb, hinum, fun M hM hne => ?_, fun y hy hsz hb hn => ⟨hmem y (.inr ⟨hy, ?_⟩) fun M hM _ _ => hn M hM, ?_⟩, fun y hy => ?_⟩,
    fun M hM => ?_, hrest⟩
  · rw [hsb] at hb
    refine hbit b (by omega) (h.marked b hb) (or_iff_not_imp_left.mpr fun hb0 e => ?_)
    have := (h.inside N hN (e ▸ hb0)).1
    omega
  · rw [hcell M hM] at hne ⊢
    rw [hsb]
    split_ifs at hne ⊢ with e
    · obtain ⟨h₁, h₂, -, h₃⟩ := hx hne
      exact ⟨h₁, h₂, h₃⟩
    · obtain ⟨k₁, k₂, k₃⟩ := h.inside M hM hne
      exact ⟨k₁, k₂, hbit _ k₂ k₃ (.inr fun e' => e (h.inj M N hM hN hne e'.symm))⟩
  · rw [hcell M hM] at he hne
    rw [hcell M' hM'] at he
    split_ifs at he hne with e e' e'
    · rw [e, e']
    · exact absurd he.symm (hfresh M' hM' (he ▸ hne))
    · exact absurd he (hfresh M hM hne)
    · exact h.inj M M' hM hM' hne he
  · rw [hcell M hM] at hne ⊢
    split_ifs at hne ⊢
    · exact .inr (hx hne).2.2.1
    · exact .inl ⟨M, hM, rfl⟩
  · rintro rfl
    exact Bool.false_ne_true ((hx (by omega)).2.2.1.symm.trans hb)
  · exact hbit y hsz hb (.inr (hn N hN))
  · refine hmem y (.inl hy) fun M hM _ hne e => ?_
    have := (h.inside M hM hne).1
    omega
  · by_cases e : M = N
    · exact e ▸ hsame (e ▸ hM)
    rw [leaf, leaf, hcell M hM.valid]
    split_ifs with hz
    · rfl
    · exact hmem _ (.inr ⟨(h.inside M hM.valid hz).1, hfresh M hM.valid hz⟩) fun K hK hk hne e' =>
        hk (h.inj K M hK hM.valid hne e' ▸ hM)

theorem Vol.took_low (v : Vol) {b a : Nat} (hb : b < v.sb.size) (hd : v.sb.dataStart ≤ b) (ha : a < v.sb.bmapstart) :
    (v.took b).mem a = v.mem a := by
  have h₁ := (bblock_lt hb).1
  have h₂ := v.sb.bmapstart_le
  simp only [took, xv6bzero, xv6logWrite, put, setBit]
  rw [update_of_ne (by omega), update_of_ne (by omega)]

theorem Vol.took_zero (v : Vol) (b : Nat) : (v.took b).mem b = fun _ => 0 := by
  simp [took, xv6bzero, xv6logWrite, put]

theorem not_leaf_of_snoc {s : Fin 12} (h : Valid (s, js ++ [i])) : ¬ IsLeaf (s, js) := by
  simp only [IsLeaf, Valid, length_append, length_singleton] at h ⊢
  omega

/-- A hole gets the first block of the supply, zeroed. -/
theorem Sound.fill {fs : List Nat} (h : Sound v ip) (hN : Valid N) (hs : v.supply = f :: fs)
    (hz : cell v ip N = 0) (hcell : ∀ M, Valid M → cell v' ip' M = if M = N then f else cell v ip M)
    (hsb : v'.sb = v.sb) (hrest : SameRest ip ip') (hh : v'.hint = f) (hbit : ∀ c < v.sb.size, v'.bit c = (v.took f).bit c)
    (hmem : ∀ y, (∀ M, Valid M → ¬ IsLeaf M → cell v ip M ≠ 0 → cell v ip M ≠ y) → v'.mem y = (v.took f).mem y) :
    Filled v ip N f v' ip' ∧ Kept v ip v' ip' := by
  have hf : f ∈ v.supply := hs ▸ mem_cons_self
  obtain ⟨h₁, h₂, h₃, h₄⟩ := h.of_supply hf
  have hbit : ∀ c < v.sb.size, v'.bit c = if c = f then true else v.bit c := fun c hc => (hbit c hc).trans (took_bit h₁ hc)
  have hboth : Sound v' ip' ∧ Kept v ip v' ip' := by
    refine h.replaced hN hcell hsb hrest (fun _ => ⟨h₁, h₂, h₃, by rw [hbit f h₂, if_pos rfl]⟩)
      (fun c hc hb _ => by rw [hbit c hc, hb, ite_self]) (fun y hy hn => ?_) fun _ => ?_
    · rw [hmem y hn]
      rcases hy with hy | ⟨hy, hne⟩
      · exact v.took_low h₂ h₁ hy
      · exact took_mem h₂ hy hne
    · rw [leaf, leaf, hcell N hN, if_pos rfl, if_neg (h.supply_pos hf), if_pos hz, hmem f fun M hM _ _ => h₄ M hM, v.took_zero]
  exact ⟨⟨hcell, by rw [hs, supply_tail hs hsb hh hbit], hboth.1, hsb, hrest.inum⟩, hboth.2⟩

section
variable {v : Vol} {ip : Inode} {s : Fin 12} {fs : List Nat} (h : Sound v ip)
include h

theorem Sound.took_cells (hf : f ∈ v.supply) (M : Node) (hM : Valid M)
    (hne : cell v ip M ≠ 0) : (v.took f).mem (cell v ip M) = v.mem (cell v ip M) := by
  obtain ⟨-, h₂, -, h₄⟩ := h.of_supply hf
  exact took_mem h₂ (h.inside M hM hne).1 (h₄ M hM)

/-- Filling a slot of `addrs`. -/
theorem Sound.fill_slot (hs : v.supply = f :: fs) (hz : cell v ip (s, []) = 0) :
    let ip' := { ip with addrs := update ip.addrs s (.ofNat 32 f) }
    Filled v ip (s, []) f (v.took f) ip' ∧ Kept v ip (v.took f) ip' := by
  have hf : f ∈ v.supply := hs ▸ mem_cons_self
  have hlt := (h.of_supply hf).2.1
  have hsz := h.ok.size_lt
  refine h.fill (Nat.zero_le _) hs hz ?_ rfl rfl rfl (fun _ _ => rfl) fun _ _ => rfl
  exact cell_setSlot (by omega) (h.took_cells hf) fun i _ => ⟨hz, v.took_self f i⟩

/-- Filling an entry of a table. -/
theorem Sound.fill_entry (hs : v.supply = f :: fs) (hN : Valid (s, js ++ [i]))
    (hp : cell v ip (s, js) ≠ 0) (hz : cell v ip (s, js ++ [i]) = 0) :
    let v' := ((v.took f).setEntry (cell v ip (s, js)) i f).xv6logWrite (cell v ip (s, js))
    Filled v ip (s, js ++ [i]) f v' ip ∧ Kept v ip v' ip := by
  have hf : f ∈ v.supply := hs ▸ mem_cons_self
  obtain ⟨-, hlt, -, h₄⟩ := h.of_supply hf
  have hsz := h.ok.size_lt
  have hP := valid_of_snoc hN
  refine h.fill hN hs hz (fun M hM => ?_) rfl rfl rfl (fun c hc => ?_) fun y hn => ?_
  · refine h.cell_setEntry (by omega) (h.took_cells hf) (by rfl) hN hp (fun j _ => ⟨hz, ?_⟩) M hM
    exact (entry_setEntry_of_ne (v.took f) f (.inl (h₄ _ hP).symm)).trans (v.took_self f j)
  · exact bit_setEntry (v := v.took f) (h.inside _ hP hp).1 i f hc
  · exact update_of_ne (hn _ hP (not_leaf_of_snoc hN) hp).symm _ _

end

/-- What `bmap` did on a way to `N`: its holes are filled as far as the supply lasts, and the block is there unless the
    supply did not last. -/
structure Maps (v : Vol) (ip : Inode) (way : List Node) (N : Node) (r : Nat × Inode × Vol) : Prop where
  grown : Grown v ip ((holesOn v ip way).take v.supply.length) [] r.2.2 r.2.1
  kept : Kept v ip r.2.2 r.2.1
  block : if (holesOn v ip way).length ≤ v.supply.length then r.1 = cell r.2.2 r.2.1 N ∧ r.1 ≠ 0 else r.1 = 0

namespace Maps
variable {v v₁ : Vol} {ip ip₁ : Inode} {way : List Node} {M : Node} {r : Nat × Inode × Vol}

theorem skip (h : Maps v ip way N r) (hne : cell v ip M ≠ 0) : Maps v ip (M :: way) N r := by
  have hholes : holesOn v ip (M :: way) = holesOn v ip way := by simp [holesOn, hne]
  exact ⟨hholes ▸ h.grown, h.kept, hholes ▸ h.block⟩

theorem dry (h : Sound v ip) (hs : v.supply = []) (hz : cell v ip M = 0) : Maps v ip (M :: way) N (0, ip, v) := by
  refine ⟨?_, .refl v ip, ?_⟩
  · rw [hs, length_nil]
    exact .refl h
  · rw [hs, if_neg (by simp [holesOn, hz])]

theorem fill {is : List (Fin 256)} (h : Sound v ip) (hM : Valid (M.1, M.2 ++ is))
    (hz : cell v ip M = 0) (hf : Filled v ip M f v₁ ip₁ ∧ Kept v ip v₁ ip₁) (hone : Grown v ip [M] [] v₁ ip₁)
    (k : Maps v₁ ip₁ (below M.1 M.2 is) N r) : Maps v ip (M :: below M.1 M.2 is) N r := by
  have hlen : v.supply.length = v₁.supply.length + 1 := congrArg length hf.1.supply
  have hholes : holesOn v ip (M :: below M.1 M.2 is) = M :: holesOn v₁ ip₁ (below M.1 M.2 is) := by
    rw [holesOn_below_filled hM hz hf.1, ← holesOn_below hz]
    simp [holesOn, hz]
  refine ⟨?_, hf.2.trans k.grown.sound k.kept, ?_⟩
  · rw [hholes, hlen]
    exact hone.trans h k.grown
  · simp only [hholes, hlen, length_cons, Nat.add_le_add_iff_right]
    exact k.block

end Maps

/-- The table levels, below a table that is there. -/
theorem bmapTable_spec {s : Fin 12} : ∀ (is js : List (Fin 256)) (v : Vol), Sound v ip →
    Valid (s, js ++ is) → cell v ip (s, js) ≠ 0 →
    let r := bmapTable true is (cell v ip (s, js)) v
    Maps v ip (below s js is) (s, js ++ is) (r.1, ip, r.2)
  | [], js, v, h, hv, ha => by
    exact ⟨by simpa [bmapTable, below, holesOn] using .refl h, .refl v ip, by simpa [bmapTable, below, holesOn] using ha⟩
  | i :: is, js, v, h, hv, ha => by
    have hassoc : js ++ i :: is = js ++ [i] ++ is := by simp
    rw [hassoc] at hv ⊢
    have hN : Valid (s, js ++ [i]) := by
      simp only [Valid, length_append] at hv ⊢
      omega
    have haddr : v.entry (cell v ip (s, js)) i = cell v ip (s, js ++ [i]) := by rw [cell_snoc, if_neg ha]
    by_cases hz : cell v ip (s, js ++ [i]) = 0
    · cases hs : v.supply with
      | nil =>
        have hr : bmapTable true (i :: is) (cell v ip (s, js)) v = (0, v) := by
          simp [bmapTable, haddr, hz, balloc_nil hs]
        rw [hr]
        exact .dry h hs hz
      | cons f fs =>
        have hfill := h.fill_entry hs hN ha hz
        set a := cell v ip (s, js) with hadef
        set v₁ := ((v.took f).setEntry a i f).xv6logWrite a with hv₁
        have hf0 : f ≠ 0 := h.supply_pos (hs ▸ mem_cons_self)
        have hcell : cell v₁ ip (s, js ++ [i]) = f := by rw [hfill.1.cell _ hN, if_pos rfl]
        have hpar : cell v₁ ip (s, js) = a := by
          rw [hfill.1.cell _ (valid_of_snoc hN), if_neg (by simp)]
        have hr : bmapTable true (i :: is) a v = bmapTable true is (cell v₁ ip (s, js ++ [i])) v₁ := by
          rw [hcell]
          simp [bmapTable, haddr, hz, balloc_cons hs, hf0, hv₁]
        have hone : Grown v ip [(s, js ++ [i])] [] v₁ ip := by
          refine .of_filled hN hz hfill.1 rfl [v.sb.bblock f, f, a] ?_ fun x => ?_
          · simp [hv₁, xv6logWrite, setEntry, put]
          · have hsb : v₁.sb = v.sb := rfl
            simp only [FillLogs, hcell, mem_cons, not_mem_nil, or_false]
            refine or_congr_right (or_congr_right ⟨fun e => ⟨js, i, rfl, e.trans hpar.symm⟩, ?_⟩)
            rintro ⟨js', i', e, hx⟩
            rw [hx, ← (append_inj' e rfl).1, hpar]
        rw [hr]
        exact .fill h hv hz hfill hone (bmapTable_spec is (js ++ [i]) v₁ hfill.1.sound hv (by rw [hcell]; exact hf0))
    · have hr : bmapTable true (i :: is) (cell v ip (s, js)) v = bmapTable true is (cell v ip (s, js ++ [i])) v := by
        simp [bmapTable, haddr, hz]
      rw [hr]
      exact (bmapTable_spec is (js ++ [i]) v h hv hz).skip hz

/-- `bmap` on a sound file. -/
theorem bmapLookup_spec (bn : Nat) (h : Sound v ip) (hbn : bn < maxFile) :
    Maps v ip (prefixes bn) (fileNode bn) (bmapLookup v ip bn true) := by
  have hp := path_some hbn
  rcases hN : fileNode bn with ⟨s, is⟩
  rw [hN] at hp
  have hval : Valid (s, [] ++ is) := (path_valid hp).le
  have hroot : (ip.addrs s).toNat = cell v ip (s, []) := rfl
  have hpre : prefixes bn = (s, []) :: below s [] is := by simp [prefixes, hp]
  rw [hpre]
  by_cases hz : cell v ip (s, []) = 0
  · cases hs : v.supply with
    | nil =>
      have hr : bmapLookup v ip bn true = (0, ip, v) := by
        simp [bmapLookup, hp, hroot, hz, balloc_nil hs]
      rw [hr]
      exact .dry h hs hz
    | cons f fs =>
      have hfill := h.fill_slot hs hz
      set ip₁ : Inode := { ip with addrs := update ip.addrs s (.ofNat 32 f) } with hip₁
      have hf0 : f ≠ 0 := h.supply_pos (hs ▸ mem_cons_self)
      have hcell : cell (v.took f) ip₁ (s, []) = f := by
        rw [hfill.1.cell _ (Nat.zero_le _), if_pos rfl]
      have hr : bmapLookup v ip bn true = ((bmapTable true is (cell (v.took f) ip₁ (s, [])) (v.took f)).1, ip₁,
          (bmapTable true is (cell (v.took f) ip₁ (s, [])) (v.took f)).2) := by
        rw [hcell]
        simp [bmapLookup, hp, hroot, hz, balloc_cons hs, hf0, hip₁]
      have hone : Grown v ip [(s, [])] [] (v.took f) ip₁ := by
        refine .of_filled (Nat.zero_le _) hz hfill.1 rfl [v.sb.bblock f, f] (by simp) fun x => ?_
        simp [FillLogs, hcell]
      rw [hr]
      exact .fill h hval hz hfill hone (bmapTable_spec is [] (v.took f) hfill.1.sound hval (by rw [hcell]; exact hf0))
  · have hr : bmapLookup v ip bn true = ((bmapTable true is (cell v ip (s, [])) v).1, ip,
        (bmapTable true is (cell v ip (s, [])) v).2) := by
      simp [bmapLookup, hp, hroot, hz]
    rw [hr]
    exact (bmapTable_spec is [] v h hval hz).skip hz

end Orthox.Blocks
