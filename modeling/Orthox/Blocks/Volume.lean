import Orthox.Journal.Log

/-! Blocks of a mounted volume and what one task does to them inside a transaction (`kernel/xv6fs.c`).

    `mem` is the volume as the buffer cache shows it, `logged` the blocks handed to `xv6log_write` in
    the order of the calls, and `panic` is set by the first `KASSERT` that fails. File contents,
    index tables, the bitmap and the inodes are all blocks of 256 little-endian words. -/

namespace Orthox.Blocks
open Journal

/-- `XV6FS_BSIZE` -/
def bsize : Nat := 1024

/-- `XV6FS_BPB`: bits in a bitmap block. -/
@[irreducible] def bpb : Nat := 8192

/-- `XV6FS_IPB`: inodes in an inode block. -/
def ipb : Nat := 16

/-- Geometry from the superblock. -/
structure Super where
  size : Nat
  ninodes : Nat
  logstart : Nat
  inodestart : Nat
  bmapstart : Nat

namespace Super

/-- `XV6FS_BBLOCK` -/
def bblock (sb : Super) (b : Nat) : Nat := b / bpb + sb.bmapstart

/-- `XV6FS_IBLOCK` -/
def iblock (sb : Super) (inum : Nat) : Nat := inum / ipb + sb.inodestart

/-- First block behind the bitmap, as the image builder lays the volume out. -/
def dataStart (sb : Super) : Nat := sb.bmapstart + sb.size / bpb + 1

theorem bmapstart_le (sb : Super) : sb.bmapstart ≤ sb.dataStart := by
  unfold dataStart
  rw [add_assoc]
  exact Nat.le_add_right _ _

/-- Block numbers are C `int`s in the log, and the regions stand in the builder's order. -/
structure Ok (sb : Super) : Prop where
  size_lt : sb.size < 2 ^ 31
  log : sb.logstart + logBlocks < sb.inodestart
  inodes : sb.inodestart + sb.ninodes / ipb + 1 ≤ sb.bmapstart
  bitmap : sb.dataStart ≤ sb.size

end Super

/-- Byte `k` of a block. -/
def byte (blk : Block) (k : Nat) : BitVec 8 := (word blk (k / 4)).extractLsb' (8 * (k % 4)) 8

/-- The block with the given bytes. -/
def ofBytes (f : Nat → BitVec 8) : Block := fun w =>
  f (4 * w.val + 3) ++ f (4 * w.val + 2) ++ f (4 * w.val + 1) ++ f (4 * w.val)

/-- `memcpy(blk + off, src, m)` -/
def memcpy (blk : Block) (off m : Nat) (src : Nat → BitVec 8) : Block :=
  ofBytes fun k => if off ≤ k ∧ k < off + m then src (k - off) else byte blk k

structure Vol where
  sb : Super
  mem : Nat → Block
  /-- `g_balloc_hint` -/
  hint : Nat
  logged : List Nat
  panic : Bool

namespace Vol

def put (v : Vol) (b : Nat) (blk : Block) : Vol := { v with mem := Function.update v.mem b blk }

def xv6logWrite (v : Vol) (b : Nat) : Vol := { v with logged := v.logged ++ [b] }

def kassert (v : Vol) (c : Bool) : Vol := { v with panic := v.panic || !c }

/-! ### The bitmap -/

/-- Where the bit of block `b` stands in its bitmap block. -/
def wordOf (b : Nat) : Fin 256 := ⟨b % bpb / 32, by unfold bpb; omega⟩

def bit (v : Vol) (b : Nat) : Bool := (v.mem (v.sb.bblock b) (wordOf b)).getLsbD (b % 32)

/-- The bitmap block of `b` with its bit changed. -/
def setBit (v : Vol) (b : Nat) (on : Bool) : Vol :=
  let blk := v.mem (v.sb.bblock b)
  let old := blk (wordOf b)
  v.put (v.sb.bblock b) (Function.update blk (wordOf b)
    (if on then old ||| BitVec.twoPow 32 (b % 32) else old &&& ~~~ BitVec.twoPow 32 (b % 32)))

/-- `xv6bzero` -/
def xv6bzero (v : Vol) (b : Nat) : Vol := (v.put b fun _ => 0).xv6logWrite b

/-- One bitmap block of the scan of `balloc`: the first clear bit from `b` on. -/
def scanGroup (v : Vol) (b : Nat) : Option Nat :=
  ((List.range bpb).find? fun bi => decide (b + bi < v.sb.size) && !v.bit (b + bi)).map (b + ·)

/-- The bitmap blocks of one pass, `k` of them from `lo` on. -/
def scanGroups (v : Vol) : Nat → Nat → Option Nat
  | 0, _ => none
  | k + 1, lo =>
    match v.scanGroup lo with
    | some b => some b
    | none => scanGroups v k (lo + bpb)

/-- One pass of the scan. -/
def scan (v : Vol) (lo hi : Nat) : Option Nat := v.scanGroups ((hi - lo + bpb - 1) / bpb) lo

/-- Where the scan starts: the hint rounded down to its bitmap block. -/
def scanStart (v : Vol) : Nat := if v.sb.size ≤ v.hint / bpb * bpb then 0 else v.hint / bpb * bpb

/-- The two passes of `balloc`: from the start to the end of the volume, then from 0 through the starting group. -/
def found (v : Vol) : Option Nat :=
  match v.scan v.scanStart v.sb.size with
  | some b => some b
  | none => v.scan 0 (min (v.scanStart + bpb) v.sb.size)

def balloc (v : Vol) : Nat × Vol :=
  match v.found with
  | none => (0, v)
  | some b => (b, { (((v.setBit b true).xv6logWrite (v.sb.bblock b)).xv6bzero b) with hint := b })

def bfree (v : Vol) (b : Nat) : Vol :=
  let v := if b < v.hint then { v with hint := b } else v
  ((v.kassert (v.bit b)).setBit b false).xv6logWrite (v.sb.bblock b)

/-! ### Index tables -/

/-- Entry `i` of the table in block `a`. -/
def entry (v : Vol) (a : Nat) (i : Fin 256) : Nat := (v.mem a i).toNat

def setEntry (v : Vol) (a : Nat) (i : Fin 256) (addr : Nat) : Vol :=
  v.put a (Function.update (v.mem a) i (BitVec.ofNat 32 addr))

/-- `block_table_empty` -/
def tableEmpty (v : Vol) (a : Nat) : Bool := (List.finRange 256).all fun i => v.entry a i == 0

end Vol

/-- The in-memory inode of a locked file. -/
structure Inode where
  inum : Nat
  type : BitVec 16
  major : BitVec 16
  minor : BitVec 16
  nlink : BitVec 16
  size : Nat
  mtime : Nat
  addrs : Fin 12 → Word

/-- The sixteen words of `struct xv6fs_dinode`. -/
def Inode.dinode (ip : Inode) : Fin 16 → Word := fun k =>
  if k.val = 0 then ip.major ++ ip.type
  else if k.val = 1 then ip.nlink ++ ip.minor
  else if k.val = 2 then BitVec.ofNat 32 ip.size
  else if k.val = 3 then BitVec.ofNat 32 ip.mtime
  else ip.addrs (Fin.ofNat 12 (k.val - 4))

/-- `xv6fs_iupdate` -/
def xv6fsIupdate (v : Vol) (ip : Inode) : Vol :=
  let b := v.sb.iblock ip.inum
  (v.put b fun w => if w.val / 16 = ip.inum % ipb then ip.dinode (Fin.ofNat 16 w.val) else v.mem b w).xv6logWrite b

/-! ### `bmap` -/

/-- `XV6FS_NDIRECT` -/
def ndirect : Nat := 9

/-- `XV6FS_NINDIRECT` -/
def nindirect : Nat := 256

/-- `XV6FS_NDINDIRECT` -/
def ndindirect : Nat := nindirect * nindirect

/-- `XV6FS_NTINDIRECT` -/
def ntindirect : Nat := nindirect * nindirect * nindirect

/-- `XV6FS_MAXFILE` -/
def maxFile : Nat := ndirect + nindirect + ndindirect + ntindirect

instance neZero12 : NeZero 12 := ⟨by decide⟩

instance neZero16 : NeZero 16 := ⟨by decide⟩

instance neZero256 : NeZero 256 := ⟨by decide⟩

/-- The slot of `addrs` and the table indices that lead to file block `bn`. -/
def path (bn : Nat) : Option (Fin 12 × List (Fin 256)) :=
  if bn < ndirect then some (Fin.ofNat 12 bn, [])
  else
    let bn := bn - ndirect
    if bn < nindirect then some (9, [Fin.ofNat 256 bn])
    else
      let bn := bn - nindirect
      if bn < ndindirect then some (10, [Fin.ofNat 256 (bn / nindirect), Fin.ofNat 256 (bn % nindirect)])
      else
        let bn := bn - ndindirect
        if bn < ntindirect then
          some (11, [Fin.ofNat 256 (bn / ndindirect), Fin.ofNat 256 (bn % ndindirect / nindirect),
            Fin.ofNat 256 (bn % nindirect)])
        else none

/-- The table levels of `bmap_lookup`: follow or allocate one entry after the other. -/
def bmapTable (alloc : Bool) : List (Fin 256) → Nat → Vol → Nat × Vol
  | [], a, v => (a, v)
  | i :: is, a, v =>
    let addr := v.entry a i
    if addr = 0 then
      if alloc then
        let r := v.balloc
        if r.1 = 0 then (0, r.2) else bmapTable alloc is r.1 ((r.2.setEntry a i r.1).xv6logWrite a)
      else (0, v)
    else bmapTable alloc is addr v

/-- `bmap_lookup` -/
def bmapLookup (v : Vol) (ip : Inode) (bn : Nat) (alloc : Bool) : Nat × Inode × Vol :=
  match path bn with
  | none => (0, ip, v.kassert false)
  | some (s, is) =>
    let addr := (ip.addrs s).toNat
    if addr = 0 then
      if alloc then
        let r := v.balloc
        if r.1 = 0 then (0, ip, r.2)
        else
          let ip := { ip with addrs := Function.update ip.addrs s (BitVec.ofNat 32 r.1) }
          let t := bmapTable alloc is r.1 r.2
          (t.1, ip, t.2)
      else (0, ip, v)
    else
      let t := bmapTable alloc is addr v
      (t.1, ip, t.2)

/-! ### `xv6fs_writei` -/

/-- What the loop of `writei` leaves. -/
structure Wrote where
  tot : Nat
  off : Nat
  ip : Inode
  vol : Vol

/-- The loop of `writei`; a round writes at least one byte, so `n` rounds are enough. -/
def writeLoop (src : Nat → BitVec 8) (n : Nat) : Nat → Nat → Nat → Inode → Vol → Wrote
  | 0, tot, off, ip, v => ⟨tot, off, ip, v⟩
  | fuel + 1, tot, off, ip, v =>
    if tot < n then
      let r := bmapLookup v ip (off / bsize) true
      if r.1 = 0 then ⟨tot, off, r.2.1, r.2.2⟩
      else
        let m := min (n - tot) (bsize - off % bsize)
        let w := r.2.2.put r.1 (memcpy (r.2.2.mem r.1) (off % bsize) m fun k => src (tot + k))
        writeLoop src n fuel (tot + m) (off + m) r.2.1 (w.xv6logWrite r.1)
    else ⟨tot, off, ip, v⟩

/-- `(int)` of a `uint32_t`. -/
def toInt32 (n : Nat) : Int := (BitVec.ofNat 32 n).toInt

/-- `xv6fs_writei`; `off` and `n` are `uint32_t`. -/
def xv6fsWritei (v : Vol) (ip : Inode) (src : Nat → BitVec 8) (off n now : Nat) : Int × Inode × Vol :=
  if (off + n) % 2 ^ 32 < off then (-1, ip, v)
  else if off + n > maxFile * bsize then (-1, ip, v)
  else
    let w := writeLoop src n n 0 off ip v
    let ip := { w.ip with
      size := if w.ip.size < w.off then w.off else w.ip.size
      mtime := if 0 < w.tot then now else w.ip.mtime }
    (toInt32 w.tot, ip, xv6fsIupdate w.vol ip)

/-! ### `xv6fs_itrunc_to` -/

/-- Blocks a file of `len` bytes has, in `uint32_t` arithmetic. -/
def blocksOf (len : Nat) : Nat := (len + bsize - 1) % 2 ^ 32 / bsize

/-- Free what lies at or behind file block `keep` below the block `addr`, which heads a subtree of
    `depth` table levels starting at file block `base`. The result says whether `addr` itself went;
    a table goes when it ends up empty and is logged when it stays and lost an entry. -/
def truncTable (keep : Nat) : Nat → Nat → Nat → Vol → Bool × Vol
  | 0, base, addr, v => if keep ≤ base then (true, v.bfree addr) else (false, v)
  | depth + 1, base, addr, v =>
    let r := (List.finRange 256).foldl (fun (r : Bool × Vol) j =>
      let a := r.2.entry addr j
      if a = 0 then r
      else
        let t := truncTable keep depth (base + j.val * nindirect ^ depth) a r.2
        if t.1 then (true, t.2.setEntry addr j 0) else (r.1, t.2)) (false, v)
    if r.2.tableEmpty addr then (true, r.2.bfree addr)
    else (false, if r.1 then r.2.xv6logWrite addr else r.2)

/-- Table levels under a slot of `addrs` and the first file block it reaches. -/
def slotDepth (s : Fin 12) : Nat := s.val - 8

def slotBase (s : Fin 12) : Nat :=
  if s.val ≤ ndirect then s.val
  else if s.val = 10 then ndirect + nindirect
  else ndirect + nindirect + ndindirect

/-- One slot of `addrs`: a direct block, or the root of a table tree. -/
def truncSlot (keep : Nat) (r : Inode × Vol) (s : Fin 12) : Inode × Vol :=
  let a := (r.1.addrs s).toNat
  if a = 0 then r
  else
    let t := truncTable keep (slotDepth s) (slotBase s) a r.2
    (if t.1 then { r.1 with addrs := Function.update r.1.addrs s 0 } else r.1, t.2)

/-- `xv6fs_itrunc_to` -/
def xv6fsItruncTo (v : Vol) (ip : Inode) (length now : Nat) : Inode × Vol :=
  let r := (List.finRange 12).foldl (truncSlot (blocksOf length)) (ip, v)
  let ip := { r.1 with size := length, mtime := now }
  (ip, xv6fsIupdate r.2 ip)

/-! ### Reservations -/

/-- `XV6LOG_OP_WRITE` -/
def opWrite (bytes : Nat) : Nat := (bytes + bsize - 1) / bsize + 8

/-- `XV6FS_WRITE_CHUNK_MAX` -/
def writeChunkMax : Nat := 112 * 1024

/-- `xv6fs_itrunc_need` -/
def itruncNeed (size length : Nat) : Nat :=
  let freed := if blocksOf length < blocksOf size then blocksOf size - blocksOf length else 0
  if freed + 16 > logBlocks then logBlocks else freed + 16

end Orthox.Blocks
