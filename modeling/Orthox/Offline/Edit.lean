import Orthox.Blocks.Chunks
import Orthox.Offline.Append

/-! Editing a file of an image that exists: `write_file_in_image` (`--write`) and `replace_file_in_image` (`--replace`).
    Both lay the new contents over the old ones. `--replace` clears the blocks it found behind the data; `--write` leaves
    what the longer file had there in its blocks, beyond the new size. -/

namespace Orthox.Offline
open Blocks Image List Option

namespace Image

/-- `_max_mtime_in_image` -/
def maxMtime (m : Image) : Nat :=
  min ((range' 1 (m.sb.ninodes - 1)).foldl
    (fun hi i => if (m.rinode i).type = 0 then hi else max hi (m.rinode i).mtime) 0) (2 ^ 32 - 2)

/-- The mtime of an edited file, from that of the host's file. -/
def stamp (m : Image) (st : Int) : Nat := min (max (m.maxMtime + 1) st.toNat) (2 ^ 32 - 1)

/-- `_allocated_file_blocks` -/
def allocatedFileBlocks (m : Image) (ip : Inode) : List Nat :=
  ((range ((ip.size + bsize - 1) / bsize)).map (m.getDataBlock ip)).takeWhile (· ≠ 0)

/-- `write_file_in_image`, for the inode the path leads to. -/
def writeFileInImage (m : Image) (i : Nat) (d : List (BitVec 8)) (st : Int) : Option Image :=
  if (m.rinode i).type = 2 then
    (m.winode { m.rinode i with size := 0 }).bind fun m =>
      (iappend allocBlockInImage m i d).bind fun m => m.winode { m.rinode i with mtime := m.stamp st }
  else none

/-- The loop of `replace_file_in_image`: whole blocks are written, with the data and zeros behind it. -/
def fill (d : List (BitVec 8)) (block : Nat → Nat) (k : Nat) (m : Image) : Image :=
  (range k).foldl (fun m k => m.put (block k) (memcpy (m.mem (block k)) 0 bsize fun j => bytes d (k * bsize + j))) m

/-- `replace_file_in_image` -/
def replaceFileInImage (m : Image) (i : Nat) (d : List (BitVec 8)) (st : Int) : Option Image :=
  let din := m.rinode i
  let blocks := m.allocatedFileBlocks din
  if din.type = 2 ∧ d.length ≤ blocks.length * bsize then
    let m := m.fill d (blocks.getD · 0) blocks.length
    m.winode { din with size := d.length, mtime := m.stamp st }
  else none

end Image

inductive Edit where
  | write (d : List (BitVec 8)) (st : Int)
  | replace (d : List (BitVec 8)) (st : Int)

namespace Edit

def run (i : Nat) (m : Image) : Edit → Option Image
  | write d st => m.writeFileInImage i d st
  | replace d st => m.replaceFileInImage i d st

def contents : Edit → List (BitVec 8)
  | write d _ => d
  | replace d _ => d

/-- How far the edit overwrites the file: to the end of the data, or of the blocks found. -/
def reach (i : Nat) (m : Image) : Edit → Nat
  | write d _ => d.length
  | replace _ _ => (m.allocatedFileBlocks (m.rinode i)).length * bsize

end Edit

/-- File `i` was overwritten up to byte `k`, with `d` and zeros behind it. -/
structure Edited (v : Vol) (i : Nat) (d : List (BitVec 8)) (k : Nat) (v' : Vol) (ip' : Inode) : Prop where
  changed : Changed v i v' ip'
  rest : ip' = { inodeAt v i with size := ip'.size, mtime := ip'.mtime, addrs := ip'.addrs }
  size : ip'.size = d.length
  fits : d.length ≤ k
  data : data v' ip' = overlay (data v (inodeAt v i)) (bytes d) 0 k

section
variable {m m' : Image} {v : Vol} {i : Nat} {d : List (BitVec 8)} {st : Int} {ip : Inode}

/-- The volume the kernel would mount. -/
theorem opened_vol (h : Sound m.vol ip) : Opened m m.vol := by
  have hstart : m.vol.scanStart = 0 := by
    rw [Vol.scanStart, show m.vol.hint = 0 from rfl, Nat.zero_div, zero_mul, ite_self]
  refine ⟨rfl, rfl, ?_⟩
  rw [Vol.supply, hstart, Vol.free_nil fun c _ hc => absurd hc (Nat.not_lt_zero c), append_nil,
    Vol.free_append _ 0 m.vol.sb.dataStart _ (Nat.zero_le _) h.ok.bitmap, Vol.free_nil fun c _ hc => h.marked c hc,
    nil_append]

theorem Opened.rinode (hR : Opened m v) (h : WellFormed v) (hi : Live v i) : m.rinode i = inodeAt v i :=
  (opened_lockstep.agree hR).inodeAt (h.sound i hi).ok hi.1

/-- `winode` of an inode with the block addresses it had, after the data of the file was written. -/
theorem Opened.winode {v₁ : Vol} (hR : Opened m v₁) (h : WellFormed v) (hi : Live v i) (hs : Sound v₁ (inodeAt v i))
    (hf : Frame v (inodeAt v i) v₁ (inodeAt v i)) (size mtime : Nat) (hm : m.winode { inodeAt v i with size, mtime } = some m') :
    ∃ v', Opened m' v' ∧ Changed v i v' { inodeAt v i with size, mtime } ∧ v'.sb = v.sb ∧
      data v' { inodeAt v i with size, mtime } = data v₁ (inodeAt v i) := by
  have hlt : (inodeAt v i).inum < v₁.sb.ninodes := hs.inum
  obtain ⟨hR', hsize, hmtime⟩ := winode_sim opened_lockstep hs.ok (show { inodeAt v i with size, mtime }.inum < _ from hlt) hR hm
  obtain ⟨hch, hdata⟩ := h.changed hi hf hs { inodeAt v i with size, mtime } rfl rfl rfl hsize hmtime
  exact ⟨_, hR', hch, hf.sb, hdata⟩

theorem writeFileInImage_spec (hR : Opened m v) (h : WellFormed v) (hi : Live v i)
    (hm : m.writeFileInImage i d st = some m') : ∃ v' ip', Opened m' v' ∧ Edited v i d d.length v' ip' := by
  rw [writeFileInImage, hR.rinode h hi] at hm
  split_ifs at hm
  obtain ⟨m₁, hm₁, hm⟩ := bind_eq_some_iff.1 hm
  obtain ⟨m₂, hm₂, hm⟩ := bind_eq_some_iff.1 hm
  obtain ⟨v₁, hR₁, hch₁, hsb₁, hdata₁⟩ := hR.winode h hi (h.sound i hi) (.refl _ _) 0 _ hm₁
  obtain ⟨v₂, ip₂, hR₂, happ⟩ := iappend_spec opened_lockstep hR₁ hch₁.wf hch₁.live hm₂
  have hch₂ := happ.changed
  rw [hR₂.rinode hch₂.wf hch₂.live] at hm
  obtain ⟨v₃, hR₃, hch₃, -, hdata₃⟩ := hR₂.winode hch₂.wf hch₂.live (hch₂.wf.sound i hch₂.live) (.refl _ _) _ _ hm
  refine ⟨v₃, _, hR₃, (hch₁.trans hsb₁ hch₂).trans (happ.sb.trans hsb₁) hch₃, ?_, ?_, le_rfl, ?_⟩
  · rw [hch₂.inode, happ.rest, hch₁.inode]
  · rw [hch₂.inode, happ.rest, hch₁.inode]
    exact zero_add _
  · rw [hdata₃, hch₂.inode, happ.data, hch₁.inode, hdata₁]

/-! ### Replacing -/

/-- The blocks of the file up to `k` are filled one after the other. -/
theorem fill_spec {block : Nat → Nat} (hR : Opened m v) (hs : Sound v ip) : ∀ k,
    (∀ j < k, j < maxFile ∧ block j ≠ 0 ∧ block j = cell v ip (fileNode j)) →
    ∃ v', Opened (m.fill d block k) v' ∧ Sound v' ip ∧ Frame v ip v' ip ∧ (∀ N, Valid N → cell v' ip N = cell v ip N) ∧
      data v' ip = overlay (data v ip) (bytes d) 0 (k * bsize)
  | 0, _ => ⟨v, hR, hs, .refl v ip, fun _ _ => rfl, by rw [zero_mul, overlay_zero]⟩
  | k + 1, hb => by
    obtain ⟨v', hR', hs', hf', hcell, hdata⟩ := fill_spec hR hs k fun j hj => hb j (Nat.lt_succ_of_lt hj)
    obtain ⟨hk, hne, hblock⟩ := hb k (Nat.lt_succ_self k)
    have hleaf : IsLeaf (fileNode k) := fileNode_length hk
    rw [← hcell _ hleaf.valid] at hblock
    rw [hblock] at hne
    have hdiv : k * bsize / bsize = k := Nat.mul_div_cancel k (by decide)
    have hmod : k * bsize % bsize = 0 := Nat.mul_mod_left k bsize
    have hwrite := hs'.write_data (fun j => bytes d (k * bsize + j)) (by rw [hdiv]; exact hk)
      (by rw [hmod, zero_add] : k * bsize % bsize + bsize ≤ bsize) (by rw [hdiv]; exact hne)
    simp only [hdiv, hmod] at hwrite
    obtain ⟨blk, hblk⟩ : ∃ blk, blk = memcpy (v'.mem (cell v' ip (fileNode k))) 0 bsize fun j => bytes d (k * bsize + j) := ⟨_, rfl⟩
    rw [← hblk] at hwrite
    have hgrow := hs'.write hleaf hne blk
    have hput := opened_lockstep.put blk hR' (.inr (hs'.inside _ hleaf.valid hne))
    have hstep : m.fill d block (k + 1) = (m.fill d block k).put (cell v' ip (fileNode k)) blk := by
      rw [hblk, hR'.mem, ← hblock, fill, range_succ, foldl_append]
      rfl
    rw [hstep]
    refine ⟨_, hput, hgrow.sound, hf'.trans hgrow.sound (hs'.write_frame hleaf hne blk), fun N hN => ?_, ?_⟩
    · rw [hgrow.keep N hN not_mem_nil, hcell N hN]
    · rw [hwrite, hdata, Nat.succ_mul, ← overlay_overlay, zero_add]

theorem allocatedFileBlocks_spec (hR : Opened m v) {j : Nat} (hj : j < (m.allocatedFileBlocks ip).length) :
    j < maxFile ∧ (m.allocatedFileBlocks ip).getD j 0 ≠ 0 ∧ (m.allocatedFileBlocks ip).getD j 0 = cell v ip (fileNode j) := by
  have hget : (m.allocatedFileBlocks ip).getD j 0 = (m.allocatedFileBlocks ip)[j] := by
    rw [getD_eq_getElem?_getD, getElem?_eq_getElem hj, getD_some]
  have hne : (m.allocatedFileBlocks ip).getD j 0 ≠ 0 := by
    rw [hget]
    simpa using mem_takeWhile_imp (getElem_mem hj)
  have hfront : (m.allocatedFileBlocks ip)[j] = m.getDataBlock ip j :=
    ((List.takeWhile_prefix _).getElem hj).trans (by rw [getElem_map, getElem_range])
  rw [hfront] at hget
  have hlt : j < maxFile := by
    by_contra hge
    rw [hget, getDataBlock, path_eq, path_none (Nat.le_of_not_lt hge)] at hne
    exact hne rfl
  refine ⟨hlt, hne, ?_⟩
  rw [hget, getDataBlock_eq m ip hlt]
  exact (cell_congr (fun N _ _ => by rw [show m.vol.mem = m.mem from rfl, hR.mem]) (fileNode_length hlt).le).symm

theorem replaceFileInImage_spec (hR : Opened m v) (h : WellFormed v) (hi : Live v i)
    (hm : m.replaceFileInImage i d st = some m') :
    ∃ v' ip', Opened m' v' ∧ Edited v i d ((m.allocatedFileBlocks (m.rinode i)).length * bsize) v' ip' := by
  rw [replaceFileInImage] at hm
  split_ifs at hm with hfile
  obtain ⟨v₁, hR₁, hs₁, hf₁, -, hdata₁⟩ := fill_spec hR (h.sound i hi) _ fun _ => allocatedFileBlocks_spec hR
  rw [hR.rinode h hi] at hm hfile ⊢
  obtain ⟨v', hR', hch, -, hdata⟩ := hR₁.winode h hi hs₁ hf₁ _ _ hm
  exact ⟨v', _, hR', hch, rfl, rfl, hfile.2, hdata.trans hdata₁⟩

end

/-! ### Bytes beyond the size -/

/-- Every byte of the file's blocks at or beyond its size is zero. -/
def Image.Clean (m : Image) (i : Nat) : Prop := ∀ p, (m.rinode i).size ≤ p → data m.vol (m.rinode i) p = 0

section
variable {m m₁ m₂ : Image} {i : Nat} {e : Edit} {es : List Edit}

theorem Edit.run_spec {v : Vol} (hR : Opened m v) (h : WellFormed v) (hi : Live v i) (he : e.run i m = some m₁) :
    ∃ v' ip', Opened m₁ v' ∧ Edited v i e.contents (e.reach i m) v' ip' := by
  cases e with
  | write d st => exact writeFileInImage_spec hR h hi he
  | replace d st => exact replaceFileInImage_spec hR h hi he

theorem edits_wellFormed {v : Vol} (hR : Opened m v) (h : WellFormed v) (hi : Live v i)
    (hes : es.foldlM (Edit.run i) m = some m₁) : ∃ v', Opened m₁ v' ∧ WellFormed v' ∧ Live v' i := by
  induction es generalizing m v with
  | nil => exact ⟨v, some.inj hes ▸ hR, h, hi⟩
  | cons e es ih =>
    obtain ⟨m', he, hes⟩ := bind_eq_some_iff.1 hes
    obtain ⟨v', ip', hR', hed⟩ := e.run_spec hR h hi he
    exact ih hR' hed.changed.wf hed.changed.live hes

/-- CORRECT WHEN the old file has no byte but zeros where the last edit does not write: behind the new data with `--write`,
    behind the blocks in front of its first hole with `--replace`. -/
theorem edits_clean_iff (h : WellFormed m.vol) (hi : Live m.vol i) (hes : es.foldlM (Edit.run i) m = some m₁)
    (he : e.run i m₁ = some m₂) : m₂.Clean i ↔ ∀ p, e.reach i m₁ ≤ p → data m₁.vol (m₁.rinode i) p = 0 := by
  obtain ⟨v₁, hR₁, h₁, hi₁⟩ := edits_wellFormed (opened_vol (h.sound i hi)) h hi hes
  obtain ⟨v₂, ip₂, hR₂, hed⟩ := e.run_spec hR₁ h₁ hi₁ he
  have hdata : ∀ {m v}, Opened m v → ∀ ip p, data m.vol ip p = data v ip p := fun hR ip p =>
    data_of_mem (fun N _ _ => by rw [hR.mem]; rfl) p
  have hzero : ∀ p, e.contents.length ≤ p → bytes e.contents p = 0 := fun p hp => by
    rw [bytes, getD_eq_getElem?_getD, getElem?_eq_none hp, getD_none]
  have hfits := hed.fits
  rw [Clean, hR₂.rinode hed.changed.wf hed.changed.live, hed.changed.inode, hR₁.rinode h₁ hi₁]
  simp only [hdata hR₂, hdata hR₁, hed.size, hed.data, overlay]
  constructor
  · intro hclean p hp
    have := hclean p (hfits.trans hp)
    rwa [if_neg (by omega)] at this
  · intro hrest p hp
    split_ifs with hin
    · exact hzero _ (by omega)
    · exact hrest p (by omega)

end

/-- An image with one empty file, inode 1, and four free blocks. -/
def emptyFile : Image := ⟨(tiny 4).sb, (tiny 4).mem, 0, 0⟩

theorem emptyFile_wellFormed : WellFormed emptyFile.vol := tiny_wellFormed (by decide)

theorem edits_clean_iff_write : ∃ m, (Edit.write [7] 0).run 1 emptyFile = some m ∧ m.Clean 1 := by
  obtain ⟨m, hm⟩ := isSome_iff_exists.1 (by decide +kernel : ((Edit.write [7] 0).run 1 emptyFile).isSome)
  refine ⟨m, hm, (edits_clean_iff emptyFile_wellFormed (tiny_one 4) (rfl : [].foldlM _ emptyFile = _) hm).2 fun p _ => ?_⟩
  have hleaf : ∀ N, leaf emptyFile.vol (emptyFile.rinode 1) N = fun _ => 0 := fun N => if_pos (tiny_cell 4 N)
  rw [data]
  split
  · rfl
  · rw [hleaf, byte_zero]

/-- INCORRECT in general: the file gets one byte and is then written empty; the byte is still in its block. -/
theorem not_edits_clean : WellFormed emptyFile.vol ∧ ∃ m, [Edit.write [7] 0, .write [] 0].foldlM (Edit.run 1) emptyFile = some m ∧
    (m.rinode 1).size = 0 ∧ data m.vol (m.rinode 1) 0 = 7 := by
  refine ⟨emptyFile_wellFormed, ?_⟩
  have hrun : ([.write [7] 0, .write [] 0].foldlM (Edit.run 1) emptyFile).map (fun m => ((m.rinode 1).size, data m.vol (m.rinode 1) 0)) =
      some (0, 7) := by decide +kernel
  obtain ⟨m, hm, heq⟩ := map_eq_some_iff.1 hrun
  obtain ⟨hsize, hbyte⟩ := Prod.mk.inj heq
  exact ⟨m, hm, hsize, hbyte⟩

end Orthox.Offline
