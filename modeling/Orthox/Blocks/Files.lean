import Orthox.Blocks.Write

/-! All files of a volume. `inodeAt` is an inode as `xv6fs_ilock` loads it; in a well-formed volume every allocated inode heads
    a sound file and no two of them share a block (`WellFormed`). `xv6fs_writei` stores as many bytes as the free blocks allow
    (`stored`), in place, and keeps the volume well formed and every other file as it was. -/

namespace Orthox.Blocks
open Journal Function

variable {v : Vol} {ip jp : Inode} {N : Node} {off i : Nat}

/-! ### Inodes on the volume -/

/-- Word `k` of a `struct xv6fs_dinode` on the volume. -/
def dword (v : Vol) (inum : Nat) (k : Fin 16) : Word := v.mem (v.sb.iblock inum) (Fin.ofNat 256 (inum % ipb * 16 + k.val))

/-- The inode as `xv6fs_ilock` loads it. -/
def inodeAt (v : Vol) (inum : Nat) : Inode where
  inum := inum
  type := (dword v inum 0).extractLsb' 0 16
  major := (dword v inum 0).extractLsb' 16 16
  minor := (dword v inum 1).extractLsb' 0 16
  nlink := (dword v inum 1).extractLsb' 16 16
  size := (dword v inum 2).toNat
  mtime := (dword v inum 3).toNat
  addrs s := dword v inum (Fin.ofNat 16 (s.val + 4))

/-- An inode depends on its own words only. -/
theorem inodeAt_congr {v' : Vol} (h : ∀ k, dword v' i k = dword v i k) : inodeAt v' i = inodeAt v i := by
  simp only [inodeAt, h]

theorem inodeAt_size_lt (v : Vol) (i : Nat) : (inodeAt v i).size < 2 ^ 32 := BitVec.isLt _

theorem inodeAt_mtime_lt (v : Vol) (i : Nat) : (inodeAt v i).mtime < 2 ^ 32 := BitVec.isLt _

theorem dword_iupdate_self (v : Vol) (ip : Inode) (k : Fin 16) : dword (xv6fsIupdate v ip) ip.inum k = ip.dinode k := by
  have hi : ip.inum % ipb < 16 := Nat.mod_lt _ (by decide)
  have hsb : (xv6fsIupdate v ip).sb = v.sb := rfl
  have hval : (Fin.ofNat 256 (ip.inum % ipb * 16 + k.val)).val = ip.inum % ipb * 16 + k.val := by
    simp only [Fin.ofNat]
    omega
  rw [dword]
  simp only [xv6fsIupdate, Vol.xv6logWrite, Vol.put, update_self]
  rw [if_pos (by omega)]
  congr 1
  ext
  simp only [Fin.ofNat]
  omega

variable {j n now k : Nat}

theorem dword_iupdate_of_ne (v : Vol) (hj : j ≠ ip.inum) (k : Fin 16) : dword (xv6fsIupdate v ip) j k = dword v j k := by
  have hj' : j % ipb < 16 := Nat.mod_lt _ (by decide)
  have hsb : (xv6fsIupdate v ip).sb = v.sb := rfl
  have hval : (Fin.ofNat 256 (j % ipb * 16 + k.val)).val = j % ipb * 16 + k.val := by
    simp only [Fin.ofNat]
    omega
  rw [dword, dword, hsb]
  by_cases hb : v.sb.iblock j = v.sb.iblock ip.inum
  · -- the same inode block, another slot of it
    have hslot : j % ipb ≠ ip.inum % ipb := by
      intro e
      simp only [Super.iblock, ipb] at hb e
      omega
    rw [hb]
    simp only [xv6fsIupdate, Vol.xv6logWrite, Vol.put, update_self]
    rw [if_neg (by omega)]
  · simp [xv6fsIupdate, Vol.xv6logWrite, Vol.put, update_of_ne hb]

theorem inodeAt_iupdate_self (v : Vol) (hs : ip.size < 2 ^ 32) (hm : ip.mtime < 2 ^ 32) :
    inodeAt (xv6fsIupdate v ip) ip.inum = ip := by
  simp only [inodeAt, dword_iupdate_self]
  obtain ⟨inum, type, major, minor, nlink, size, mtime, addrs⟩ := ip
  simp only [Inode.mk.injEq, true_and]
  refine ⟨?_, ?_, ?_, ?_, ?_, ?_, ?_⟩
  · exact BitVec.extractLsb'_append_eq_right
  · exact BitVec.extractLsb'_append_eq_left
  · exact BitVec.extractLsb'_append_eq_right
  · exact BitVec.extractLsb'_append_eq_left
  · simpa [Inode.dinode] using Nat.mod_eq_of_lt hs
  · simpa [Inode.dinode] using Nat.mod_eq_of_lt hm
  · exact List.ofFn_inj.mp rfl

theorem inodeAt_iupdate_of_ne (v : Vol) (hj : j ≠ ip.inum) : inodeAt (xv6fsIupdate v ip) j = inodeAt v j :=
  inodeAt_congr (dword_iupdate_of_ne v hj)

section
variable (hok : v.sb.Ok) (hi : ip.inum < v.sb.ninodes)
include hok hi

/-- Storing an inode leaves all blocks behind the inode area alone. -/
theorem iupdate_mem {x : Nat} (hx : v.sb.bmapstart ≤ x) : (xv6fsIupdate v ip).mem x = v.mem x := by
  have := hok.iblock_lt hi
  simp [xv6fsIupdate, Vol.xv6logWrite, Vol.put, update_of_ne (by omega : x ≠ v.sb.iblock ip.inum)]

theorem iupdate_bit {c : Nat} (hc : c < v.sb.size) : (xv6fsIupdate v ip).bit c = v.bit c :=
  Vol.bit_put hc (.inl (hok.iblock_lt hi)) _

end

section
variable (hi : ip.inum < v.sb.ninodes)
include hi

section
variable (h : Sound v jp)
include h

theorem iupdate_block (N : Node) (hN : Valid N)
    (hne : cell v jp N ≠ 0) : (xv6fsIupdate v ip).mem (cell v jp N) = v.mem (cell v jp N) :=
  iupdate_mem h.ok hi (v.sb.bmapstart_le.trans (h.inside N hN hne).1)

/-- Storing an inode changes no file's index and no byte. -/
theorem iupdate_cell (hN : Valid N) : cell (xv6fsIupdate v ip) jp N = cell v jp N := cell_congr (iupdate_block hi h) hN

theorem iupdate_data (p : Nat) : data (xv6fsIupdate v ip) jp p = data v jp p := data_of_mem (iupdate_block hi h) p

theorem iupdate_sound : Sound (xv6fsIupdate v ip) jp := by
  refine ⟨h.ok, h.inum, fun b hb => ?_, fun N hN hne => ?_, fun N M hN hM hne e => ?_⟩
  · have hb' : b < v.sb.dataStart := hb
    have := h.ok.bitmap
    rw [iupdate_bit h.ok hi (by omega)]
    exact h.marked b hb'
  · rw [iupdate_cell hi h hN] at hne ⊢
    obtain ⟨h₁, h₂, h₃⟩ := h.inside N hN hne
    exact ⟨h₁, h₂, by rw [iupdate_bit h.ok hi h₂]; exact h₃⟩
  · rw [iupdate_cell hi h hN] at hne e
    rw [iupdate_cell hi h hM] at e
    exact h.inj N M hN hM hne e

end

theorem iupdate_apart {kp : Inode} (hj : Sound v jp) (hk : Sound v kp) (h : Apart v jp kp) : Apart (xv6fsIupdate v ip) jp kp := by
  intro N M hN hM
  rw [iupdate_cell hi hj hN, iupdate_cell hi hk hM]
  exact h N M hN hM

end

/-- Only sizes and times of an inode changed: its blocks are the same. -/
theorem Sound.of_addrs {ip' : Inode} (h : Sound v ip) (ha : ip'.addrs = ip.addrs) (hi : ip'.inum = ip.inum) : Sound v ip' := by
  have hcell : ∀ N, cell v ip' N = cell v ip N := fun N => by rw [cell, cell, ha]
  exact ⟨h.ok, by rw [hi]; exact h.inum, h.marked, by simpa only [hcell] using h.inside, by simpa only [hcell] using h.inj⟩

/-! ### Well-formed volumes -/

/-- The numbers of the allocated inodes. -/
def Live (v : Vol) (i : Nat) : Prop := i < v.sb.ninodes ∧ (inodeAt v i).type ≠ 0

/-- Every allocated inode heads a sound file, and no two files share a block. -/
structure WellFormed (v : Vol) : Prop where
  sound : ∀ i, Live v i → Sound v (inodeAt v i)
  apart : ∀ i j, Live v i → Live v j → i ≠ j → Apart v (inodeAt v i) (inodeAt v j)

/-- An operation on file `i` left `ip'` as its inode and every other file as it was. -/
structure Changed (v : Vol) (i : Nat) (v' : Vol) (ip' : Inode) : Prop where
  wf : WellFormed v'
  live : Live v' i
  inode : inodeAt v' i = ip'
  others : ∀ j < v.sb.ninodes, j ≠ i → inodeAt v' j = inodeAt v j
  bytes : ∀ j, Live v j → j ≠ i → data v' (inodeAt v' j) = data v (inodeAt v j)

/-- What is done inside the frame of a file and ends with `iupdate` leaves the other files alone. -/
theorem WellFormed.changed {v₁ : Vol} {ip₁ : Inode} (h : WellFormed v) (hi : Live v i)
    (hf : Frame v (inodeAt v i) v₁ ip₁) (hs : Sound v₁ ip₁) (ip' : Inode) (ha : ip'.addrs = ip₁.addrs) (hn : ip'.inum = ip₁.inum)
    (ht : ip'.type = (inodeAt v i).type) (hsize : ip'.size < 2 ^ 32) (hmtime : ip'.mtime < 2 ^ 32) :
    Changed v i (xv6fsIupdate v₁ ip') ip' ∧ data (xv6fsIupdate v₁ ip') ip' = data v₁ ip₁ := by
  have hinum : ip'.inum = i := hn.trans hf.inum
  have hlt : ip'.inum < v₁.sb.ninodes := by rw [hinum, hf.sb]; exact hi.1
  have hs' : Sound v₁ ip' := hs.of_addrs ha hn
  have hdata : data v₁ ip' = data v₁ ip₁ := by
    funext p
    exact data_congr (fun N _ => by rw [leaf, leaf, cell, cell, ha]) p
  have hself : inodeAt (xv6fsIupdate v₁ ip') i = ip' := by
    rw [← hinum]
    exact inodeAt_iupdate_self v₁ hsize hmtime
  have hok := (h.sound i hi).ok
  have hother : ∀ j < v.sb.ninodes, j ≠ i → inodeAt (xv6fsIupdate v₁ ip') j = inodeAt v j := by
    intro j hj hne
    rw [inodeAt_iupdate_of_ne v₁ (by rw [hinum]; exact hne)]
    refine inodeAt_congr fun k => ?_
    rw [dword, hf.sb, hf.low _ (hok.iblock_lt hj), dword]
  have hsb : (xv6fsIupdate v₁ ip').sb = v.sb := hf.sb
  have hlive : ∀ j, Live (xv6fsIupdate v₁ ip') j → j ≠ i → Live v j := by
    rintro j ⟨h₁, h₂⟩ hne
    rw [hsb] at h₁
    rw [hother j h₁ hne] at h₂
    exact ⟨h₁, h₂⟩
  have hapart : ∀ j, Live v j → j ≠ i → Apart v (inodeAt v i) (inodeAt v j) := fun j hj hne => h.apart i j hi hj hne.symm
  have hsound : ∀ j, Live v j → j ≠ i → Sound v₁ (inodeAt v j) :=
    fun j hj hne => hf.keeps_sound (h.sound j hj) (hapart j hj hne) hs
  -- the file itself against another one
  have hown : ∀ j, Live v j → j ≠ i → Apart (xv6fsIupdate v₁ ip') ip' (inodeAt v j) := by
    intro j hj hne
    refine iupdate_apart hlt hs' (hsound j hj hne) fun N M hN hM => ?_
    have := hf.keeps_apart (h.sound j hj) (hapart j hj hne) N M hN hM
    rwa [cell, ← ha] at this
  refine ⟨⟨⟨fun j hj => ?_, fun j k hj hk hjk => ?_⟩, ⟨hsb ▸ hi.1, ?_⟩, hself, hother, fun j hj hne => ?_⟩, ?_⟩
  · by_cases hne : j = i
    · rw [hne, hself]
      exact iupdate_sound hlt hs'
    · rw [hother j (hsb ▸ hj.1) hne]
      exact iupdate_sound hlt (hsound j (hlive j hj hne) hne)
  · by_cases hji : j = i
    · subst hji
      rw [hself, hother k (hsb ▸ hk.1) hjk.symm]
      exact hown k (hlive k hk hjk.symm) hjk.symm
    by_cases hki : k = i
    · subst hki
      rw [hself, hother j (hsb ▸ hj.1) hji]
      exact (hown j (hlive j hj hji) hji).symm
    have hj' := hlive j hj hji
    have hk' := hlive k hk hki
    rw [hother j hj'.1 hji, hother k hk'.1 hki]
    exact iupdate_apart hlt (hsound j hj' hji) (hsound k hk' hki) (hf.keeps_apart_others (h.sound j hj')
      (hapart j hj' hji) (h.sound k hk') (hapart k hk' hki) (h.apart j k hj' hk' hjk))
  · rw [hself, ht]
    exact hi.2
  · rw [hother j hj.1 hne]
    funext p
    rw [iupdate_data hlt (hsound j hj hne), hf.keeps_data (h.sound j hj) (hapart j hj hne)]
  · rw [← hdata]
    funext p
    exact iupdate_data hlt hs' p

/-! ### `xv6fs_writei` -/

/-- The write took place: what it stored, the size and the other files. -/
structure WroteFile (v : Vol) (i : Nat) (src : Nat → BitVec 8) (off k : Nat) (v' : Vol) (ip' : Inode) : Prop
    extends Changed v i v' ip' where
  size : ip'.size = max (inodeAt v i).size (off + k)
  data : data v' ip' = overlay (data v (inodeAt v i)) src off k

theorem writei_refused {src : Nat → BitVec 8} (h : 2 ^ 32 ≤ off + n)
    (ho : off < 2 ^ 32) (hn : n < 2 ^ 32) : xv6fsWritei v ip src off n now = (-1, ip, v) := by
  rw [xv6fsWritei, if_pos]
  omega

theorem writei_spec (h : WellFormed v) (hi : Live v i) (src : Nat → BitVec 8) (hoff : off + n < 2 ^ 32) (hnow : now < 2 ^ 32) :
    let r := xv6fsWritei v (inodeAt v i) src off n now
    let k := stored v (inodeAt v i) off n
    r.1 = toInt32 k ∧ WroteFile v i src off k r.2.2 r.2.1 := by
  obtain ⟨w, ip', hloop, hip, hcall⟩ := writei_loop (h.sound i hi) src now hoff
  have hk := stored_le v (inodeAt v i) off n
  simp only [hcall]
  set k := stored v (inodeAt v i) off n with hkdef
  obtain ⟨htype, hsize, hmtime⟩ := hloop.rest.fields
  have hlt := inodeAt_size_lt v i
  have hmlt := inodeAt_mtime_lt v i
  have hnew : ip'.size = max (inodeAt v i).size (off + k) := by
    rw [hip]
    simp only [hloop.next]
    split <;> omega
  have htime : ip'.mtime < 2 ^ 32 := by
    rw [hip]
    simp only
    split <;> omega
  obtain ⟨hch, hdata⟩ := h.changed hi hloop.frame hloop.grown.sound ip' (by rw [hip]) (by rw [hip]) (by rw [hip]; exact htype)
    (by omega) htime
  refine ⟨by rw [hloop.total, zero_add], hch, hnew, ?_⟩
  rw [hdata, hloop.data, ← hkdef]
  simp

/-! ### A small volume -/

/-- 131 blocks of metadata and `k` free blocks; inode 1 is an empty file. -/
def tiny (k : Nat) : Vol where
  sb := ⟨131 + k, 8, 2, 129, 130⟩
  mem b w :=
    if b = 130 then (if w.val < 4 then 0xffffffff else if w.val = 4 then 7 else 0)
    else if b = 129 ∧ w.val = 16 then 2 else 0
  hint := 0
  logged := []
  panic := false

theorem tiny_bit (k : Nat) {b : Nat} (hb : b < 131) : (tiny k).bit b := by
  have hall : ∀ b : Fin 131, (tiny 0).bit b.val := by decide +kernel
  exact hall ⟨b, hb⟩

theorem tiny_cell (k : Nat) (N : Node) : cell (tiny k) (inodeAt (tiny k) 1) N = 0 := by
  have haddr : ∀ s : Fin 12, (inodeAt (tiny 0) 1).addrs s = 0 := by decide +kernel
  have : ((inodeAt (tiny k) 1).addrs N.1).toNat = 0 := congrArg BitVec.toNat (haddr N.1)
  rw [cell, this, Vol.descend_zero]

theorem tiny_live (h : Live (tiny k) i) : i = 1 := by
  have hall : ∀ i : Fin 8, (inodeAt (tiny 0) i.val).type ≠ 0 → i.val = 1 := by decide +kernel
  exact hall ⟨i, h.1⟩ h.2

theorem tiny_one (k : Nat) : Live (tiny k) 1 := by
  have : (inodeAt (tiny 0) 1).type ≠ 0 := by decide +kernel
  exact ⟨show 1 < 8 by decide, this⟩

theorem tiny_wellFormed (hk : k < 8000) : WellFormed (tiny k) := by
  have hstart : (tiny k).sb.dataStart = 131 := by
    simp only [Super.dataStart, tiny, bpb]
    omega
  refine ⟨fun i hi => ?_, fun i j hi hj hne => absurd ((tiny_live hi).trans (tiny_live hj).symm) hne⟩
  rw [tiny_live hi]
  refine ⟨⟨?_, by simp [tiny, logBlocks], by simp [tiny, ipb], ?_⟩, show 1 < 8 by decide, fun b hb => tiny_bit k (hstart ▸ hb),
    fun N _ hne => absurd (tiny_cell k N) hne, fun N _ _ _ hne => absurd (tiny_cell k N) hne⟩
  · simp only [tiny]
    omega
  · rw [hstart]
    exact Nat.le_add_right 131 k

end Orthox.Blocks
