import Orthox.Cache.Read

/-! The image builder and editor (`scripts/build_rootfs_xv6fs.py`) and the extractor (`scripts/extract_rootfs_xv6fs.py`). Both
    work on the bytes of a whole image; blocks are the kernel's blocks of 256 little-endian words. An `assert` that fails or an
    exception ends the program before the image file is written (`none`). `iappend` takes the blocks it needs from
    `_alloc_block`, which counts up while an image is built and looks into the bitmap when an image is edited. -/

namespace Orthox.Offline
open List Function
open Journal (Block)
open Blocks

/-- The layout, the blocks of `image`, and the counters `freeblock` and `freeinode`. -/
structure Image where
  sb : Super
  mem : Nat → Block
  freeblock : Nat
  freeinode : Nat

namespace Image

/-- `wsect` -/
def put (m : Image) (b : Nat) (blk : Block) : Image := { m with mem := update m.mem b blk }

/-- The image as the kernel finds it. -/
def vol (m : Image) : Vol := ⟨m.sb, m.mem, 0, [], false⟩

/-- `rinode` -/
def rinode (m : Image) (inum : Nat) : Inode := inodeAt m.vol inum

/-- `winode`; `struct.pack` takes 32 bits. -/
def winode (m : Image) (ip : Inode) : Option Image :=
  if ip.size < 2 ^ 32 ∧ ip.mtime < 2 ^ 32 then some { m with mem := (xv6fsIupdate m.vol ip).mem } else none

/-! ### Blocks for `iappend` -/

/-- `_alloc_block` -/
def allocBlock (m : Image) : Option (Nat × Image) :=
  if m.freeblock < m.sb.size then some (m.freeblock, { m with freeblock := m.freeblock + 1 }) else none

/-- `_alloc_block_in_image` -/
def allocBlockInImage (m : Image) : Option (Nat × Image) :=
  match (range' m.sb.dataStart (m.sb.size - m.sb.dataStart)).find? fun b => !m.vol.bit b with
  | none => none
  | some b => some (b, { m with mem := ((m.vol.setBit b true).put b fun _ => 0).mem })

/-- Where the pointer to file block `fbn` stands, in the arithmetic of the script. -/
def path (fbn : Nat) : Option (Fin 12 × List (Fin 256)) :=
  if fbn < ndirect then some (Fin.ofNat 12 fbn, [])
  else if fbn < ndirect + nindirect then some (9, [Fin.ofNat 256 (fbn - ndirect)])
  else if fbn < ndirect + nindirect + ndindirect then
    let rel := fbn - ndirect - nindirect
    some (10, [Fin.ofNat 256 (rel / nindirect), Fin.ofNat 256 (rel % nindirect)])
  else if fbn < maxFile then
    let rel := fbn - ndirect - nindirect - ndindirect
    let r2 := rel % ndindirect
    some (11, [Fin.ofNat 256 (rel / ndindirect), Fin.ofNat 256 (r2 / nindirect), Fin.ofNat 256 (r2 % nindirect)])
  else none

/-- The table levels of `iappend`: a table is read, a missing entry is allocated and the table written back; a new table
    is cleared. -/
def fillTable (alloc : Image → Option (Nat × Image)) : List (Fin 256) → Nat → Image → Option (Nat × Image)
  | [], a, m => some (a, m)
  | i :: is, a, m =>
    if (m.mem a i).toNat = 0 then
      match alloc m with
      | none => none
      | some (b, m') =>
        let m' := m'.put a (update (m.mem a) i (BitVec.ofNat 32 b))
        fillTable alloc is b (if is = [] then m' else m'.put b fun _ => 0)
    else fillTable alloc is (m.mem a i).toNat m

/-- The block of file block `fbn`. -/
def blockFor (alloc : Image → Option (Nat × Image)) (m : Image) (ip : Inode) (fbn : Nat) : Option (Nat × Inode × Image) :=
  match path fbn with
  | none => none
  | some (s, is) =>
    if (ip.addrs s).toNat = 0 then
      match alloc m with
      | none => none
      | some (b, m') =>
        let ip := { ip with addrs := update ip.addrs s (BitVec.ofNat 32 b) }
        (fillTable alloc is b (if is = [] then m' else m'.put b fun _ => 0)).map fun r => (r.1, ip, r.2)
    else (fillTable alloc is (ip.addrs s).toNat m).map fun r => (r.1, ip, r.2)

/-- The loop of `iappend`; a round stores at least one byte. -/
def appendLoop (alloc : Image → Option (Nat × Image)) (src : Nat → BitVec 8) (n : Nat) :
    Nat → Nat → Nat → Inode → Image → Option (Nat × Inode × Image)
  | 0, _, off, ip, m => some (off, ip, m)
  | fuel + 1, tot, off, ip, m =>
    if tot < n then
      match blockFor alloc m ip (off / bsize) with
      | none => none
      | some (x, ip, m) =>
        let n1 := min (n - tot) (bsize - off % bsize)
        appendLoop alloc src n fuel (tot + n1) (off + n1) ip
          (m.put x (memcpy (m.mem x) (off % bsize) n1 fun k => src (tot + k)))
    else some (off, ip, m)

/-- The bytes of a list, by position. -/
def bytes (data : List (BitVec 8)) (k : Nat) : BitVec 8 := data.getD k 0

/-- `iappend` -/
def iappend (alloc : Image → Option (Nat × Image)) (m : Image) (inum : Nat) (data : List (BitVec 8)) : Option Image :=
  let din := m.rinode inum
  match appendLoop alloc (bytes data) data.length data.length 0 din.size din m with
  | none => none
  | some (off, ip, m) => m.winode { ip with size := off }

/-! ### Readers -/

/-- `_get_data_block` -/
def getDataBlock (m : Image) (ip : Inode) (fbn : Nat) : Nat :=
  match path fbn with
  | none => 0
  | some (s, is) => m.vol.descend (ip.addrs s).toNat is

/-- The first `n` bytes of a block. -/
def prefixBytes (blk : Block) (n : Nat) : List (BitVec 8) := (range n).map (byte blk)

/-- The loops of the readers, block by block from `fbn` on, with `left` bytes to go. -/
def readLoop (chunk : Nat → Nat → List (BitVec 8)) : Nat → Nat → Nat → List (BitVec 8)
  | 0, _, _ => []
  | fuel + 1, fbn, left =>
    if 0 < left then chunk fbn (min bsize left) ++ readLoop chunk fuel (fbn + 1) (left - min bsize left) else []

/-- `_read_file_data` -/
def readFileData (m : Image) (ip : Inode) : List (BitVec 8) :=
  readLoop (fun fbn k => let blk := m.getDataBlock ip fbn
    if blk = 0 then replicate k 0 else prefixBytes (m.mem blk) k) ip.size 0 ip.size

/-- Where the extractor looks for file block `bn`; there is no check for a number too large. -/
def extractPath (bn : Nat) : Fin 12 × List (Fin 256) :=
  if bn < ndirect then (Fin.ofNat 12 bn, [])
  else
    let bn := bn - ndirect
    if bn < nindirect then (9, [Fin.ofNat 256 bn])
    else
      let bn := bn - nindirect
      if bn < nindirect * nindirect then (10, [Fin.ofNat 256 (bn / nindirect), Fin.ofNat 256 (bn % nindirect)])
      else
        let bn := bn - nindirect * nindirect
        (11, [Fin.ofNat 256 (bn / (nindirect * nindirect)), Fin.ofNat 256 (bn / nindirect % nindirect),
          Fin.ofNat 256 (bn % nindirect)])

/-- `_bmap` of the extractor: tables are followed without a look whether they are there. -/
def bmap (m : Image) (ip : Inode) (bn : Nat) : Nat :=
  (extractPath bn).2.foldl (fun a i => (m.mem a i).toNat) (ip.addrs (extractPath bn).1).toNat

/-- `read_file` of the extractor. -/
def readFile (m : Image) (ip : Inode) : List (BitVec 8) :=
  readLoop (fun bn k => prefixBytes (m.mem (m.bmap ip bn)) k) ip.size 0 ip.size

/-! ### The same places -/

theorem path_eq (fbn : Nat) : path fbn = Blocks.path fbn := by
  have hmod : ∀ rel, rel % ndindirect % nindirect = rel % nindirect := fun rel =>
    Nat.mod_mod_of_dvd rel (Dvd.intro nindirect rfl)
  rw [path, Blocks.path, maxFile]
  dsimp only
  rcases lt_or_ge fbn ndirect with h | h
  · rw [if_pos h, if_pos h]
  rw [if_neg (not_lt.2 h), if_neg (not_lt.2 h)]
  rcases lt_or_ge (fbn - ndirect) nindirect with h₁ | h₁
  · rw [if_pos h₁, if_pos (by omega)]
  rw [if_neg (not_lt.2 h₁), if_neg (by omega)]
  rcases lt_or_ge (fbn - ndirect - nindirect) ndindirect with h₂ | h₂
  · rw [if_pos h₂, if_pos (by omega)]
  rw [if_neg (not_lt.2 h₂), if_neg (by omega)]
  rcases lt_or_ge (fbn - ndirect - nindirect - ndindirect) ntindirect with h₃ | h₃
  · rw [if_pos h₃, if_pos (by omega), hmod]
  · rw [if_neg (not_lt.2 h₃), if_neg (by omega)]

variable {bn fbn : Nat}

theorem extractPath_eq (h : bn < maxFile) : extractPath bn = fileNode bn := by
  have hmod : ∀ rel, rel / nindirect % nindirect = rel % ndindirect / nindirect := fun rel =>
    (Nat.mod_mul_right_div_self rel nindirect nindirect).symm
  rw [maxFile] at h
  rw [extractPath, fileNode, Blocks.path]
  dsimp only
  rcases lt_or_ge bn ndirect with h₀ | h₀
  · rw [if_pos h₀, if_pos h₀]
    rfl
  rw [if_neg (not_lt.2 h₀), if_neg (not_lt.2 h₀)]
  rcases lt_or_ge (bn - ndirect) nindirect with h₁ | h₁
  · rw [if_pos h₁, if_pos h₁]
    rfl
  rw [if_neg (not_lt.2 h₁), if_neg (not_lt.2 h₁)]
  rw [← ndindirect, hmod]
  rcases lt_or_ge (bn - ndirect - nindirect) ndindirect with h₂ | h₂
  · rw [if_pos h₂, if_pos h₂]
    rfl
  rw [if_neg (not_lt.2 h₂), if_neg (not_lt.2 h₂), if_pos (by omega)]
  rfl

/-- `_get_data_block` finds the block of the kernel's index. -/
theorem getDataBlock_eq (m : Image) (ip : Inode) (h : fbn < maxFile) : m.getDataBlock ip fbn = cell m.vol ip (fileNode fbn) := by
  rw [getDataBlock, path_eq, path_some h]
  rfl

/-- So does the extractor, which reads zeros from block 0 where there is no table. -/
theorem bmap_eq (m : Image) (ip : Inode) (hboot : m.mem 0 = fun _ => 0) (h : bn < maxFile) :
    m.bmap ip bn = cell m.vol ip (fileNode bn) := by
  have hfollow : ∀ (is : List (Fin 256)) a, is.foldl (fun a i => (m.mem a i).toNat) a = m.vol.descend a is := by
    intro is
    induction is with
    | nil => exact fun _ => rfl
    | cons i is ih =>
      intro a
      rw [Vol.descend, foldl_cons, ih]
      split_ifs with hz
      · rw [hz, hboot]
        exact Vol.descend_zero m.vol is
      · rfl
  rw [bmap, extractPath_eq h, hfollow]
  rfl

/-! ### The same bytes -/

/-- A file as a list. -/
def contents (m : Image) (ip : Inode) : List (BitVec 8) := (range ip.size).map (data m.vol ip)

/-- A byte of file block `fbn`. -/
theorem data_add (v : Vol) (ip : Inode) {k : Nat} (hfbn : fbn < maxFile) (hk : k < bsize) :
    data v ip (fbn * bsize + k) = byte (leaf v ip (fileNode fbn)) k := by
  have hdiv : (fbn * bsize + k) / bsize = fbn := by
    unfold bsize at hk ⊢
    omega
  have hmod : (fbn * bsize + k) % bsize = k := by
    unfold bsize at hk ⊢
    omega
  rw [data_of_lt (by rw [hdiv]; exact hfbn), hdiv, hmod]

/-- A reader whose chunks are the file's reads the file. -/
theorem readLoop_eq (m : Image) (ip : Inode) {chunk : Nat → Nat → List (BitVec 8)} {size : Nat} (hsize : size ≤ maxFile * bsize)
    (hchunk : ∀ fbn k, fbn * bsize < size → k ≤ bsize → chunk fbn k = (range k).map (byte (leaf m.vol ip (fileNode fbn))))
    (fuel : Nat) : ∀ fbn left, left ≤ fuel → fbn * bsize + left = size ∨ left = 0 →
    readLoop chunk fuel fbn left = (range left).map fun p => data m.vol ip (fbn * bsize + p) := by
  induction fuel with
  | zero =>
    intro fbn left hle _
    rw [Nat.le_zero.1 hle]
    rfl
  | succ fuel ih =>
    intro fbn left hle hleft
    rw [readLoop]
    split_ifs with hpos
    · have hsum := hleft.resolve_right (by omega)
      have hfbn : fbn < maxFile := Nat.lt_of_mul_lt_mul_right (by omega : fbn * bsize < maxFile * bsize)
      have hb : 0 < bsize := by decide
      rw [hchunk fbn _ (by omega) (min_le_left _ _), ih (fbn + 1) _ (by omega) (by rw [Nat.succ_mul]; omega)]
      obtain ⟨k, hk⟩ : ∃ k, k = min bsize left := ⟨_, rfl⟩
      obtain ⟨rest, rfl⟩ : ∃ rest, left = k + rest := ⟨left - k, by omega⟩
      rw [← hk, Nat.add_sub_cancel_left, range_add, map_append, map_map]
      refine congrArg₂ (· ++ ·) (map_congr_left fun j hj => ?_) (map_congr_left fun j hj => ?_)
      · have := mem_range.1 hj
        exact (data_add m.vol ip hfbn (by omega)).symm
      · have := mem_range.1 hj
        rw [comp_apply, Nat.succ_mul, show k = bsize by omega, add_assoc]
    · rw [show left = 0 by omega]
      rfl

/-- The builder's reader reads the file, holes as zeros. -/
theorem readFileData_eq (m : Image) {ip : Inode} (hsize : ip.size ≤ maxFile * bsize) : m.readFileData ip = m.contents ip := by
  rw [readFileData, readLoop_eq m ip hsize (fun fbn k hfbn _ => ?_) _ _ _ le_rfl (.inl (by omega)), contents]
  · simp
  · have hlt : fbn < maxFile := Nat.lt_of_mul_lt_mul_right (by omega : fbn * bsize < maxFile * bsize)
    dsimp only
    rw [getDataBlock_eq m ip hlt, leaf]
    split_ifs
    · refine (eq_replicate_iff.2 ⟨by simp, fun b hb => ?_⟩).symm
      obtain ⟨k, -, rfl⟩ := mem_map.1 hb
      exact byte_zero k
    · rfl

/-- The extractor reads the file, holes as block 0. -/
theorem readFile_eq (m : Image) {ip : Inode} (hboot : m.mem 0 = fun _ => 0) (hsize : ip.size ≤ maxFile * bsize) :
    m.readFile ip = m.contents ip := by
  rw [readFile, readLoop_eq m ip hsize (fun fbn k hfbn _ => ?_) _ _ _ le_rfl (.inl (by omega)), contents]
  · simp
  · have hlt : fbn < maxFile := Nat.lt_of_mul_lt_mul_right (by omega : fbn * bsize < maxFile * bsize)
    rw [bmap_eq m ip hboot hlt, leaf]
    split_ifs with hz
    · rw [hz, hboot]
      rfl
    · rfl

end Image
end Orthox.Offline
