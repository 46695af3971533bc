import Orthox.Blocks.Files

/-! The buffer cache with a device that may refuse to read (`kernel/xv6bio.c`), and `xv6fs_readi` on top of it.

    `xv6bread` marks a buffer valid whether or not the device read succeeded, so a buffer also records whether its bytes come
    from a read that failed (`good`). What the code does not decide is in `Env`: which unpinned buffers the LRU scan has
    recycled by the next `bget`, which device reads fail, and what stands in a recycled buffer then. -/

namespace Orthox.Cache
open Journal (Block)
open Blocks

/-- A valid buffer. -/
structure Buf where
  data : Block
  /-- no byte comes from a device read that failed -/
  good : Bool

structure Env where
  /-- `recycle k b`: by the `k`-th `bget`, the LRU scan has taken buffer `b` if it was free. -/
  recycle : Nat → Nat → Bool
  /-- Whether the device read behind the `k`-th `bget` fails; the flag says that the caller goes on to
      overwrite the whole buffer. -/
  fails : Bool → Nat → Bool
  /-- Whether a run read fails. -/
  failsRun : Nat → Bool
  /-- What the buffer holds after a failed read. -/
  spoiled : Nat → Block

structure Bio where
  disk : Nat → Block
  buf : Nat → Option Buf
  /-- `refcnt` held through `xv6bpin` -/
  pins : Nat → Nat
  gets : Nat

namespace Bio
variable (env : Env) (s : Bio)

/-- Buffers still there at the next `bget`. -/
def resident : Nat → Option Buf := fun i =>
  if s.pins i = 0 ∧ env.recycle s.gets i = true then none else s.buf i

def bget (b : Nat) : Option Buf × Bio := (s.resident env b, { s with buf := s.resident env, gets := s.gets + 1 })

def setBuf (b : Nat) (B : Buf) : Bio := { s with buf := Function.update s.buf b (some B) }

/-- What `xv6fs_disk_rw` leaves in the buffer of block `b`. -/
def fetch (whole : Bool) (b : Nat) : Buf :=
  if env.fails whole s.gets then ⟨env.spoiled s.gets, false⟩ else ⟨s.disk b, true⟩

/-- `xv6bread`; the result of the device read is only printed. -/
def xv6bread (whole : Bool) (b : Nat) : Buf × Bio :=
  match (s.bget env b).1 with
  | some B => (B, (s.bget env b).2)
  | none => (s.fetch env whole b, (s.bget env b).2.setBuf b (s.fetch env whole b))

/-- `xv6bio_range_cached` -/
def xv6bioRangeCached (b n : Nat) : Bool := (List.range n).any fun i => (s.buf (b + i)).isSome

/-- `xv6bio_fill_cache` with blocks that were just read from the device. -/
def xv6bioFillCache : Nat → List Block → Bio → Bio
  | _, [], s => s
  | b, d :: ds, s =>
    match (s.bget env b).1 with
    | some _ => xv6bioFillCache (b + 1) ds (s.bget env b).2
    | none => xv6bioFillCache (b + 1) ds ((s.bget env b).2.setBuf b ⟨d, true⟩)

end Bio

/-! ### `xv6fs_readi` -/

/-- The table levels of `bmap_lookup` when it only looks. -/
def bmapWalk (env : Env) : List (Fin 256) → Nat → Bio → Nat × Bio
  | [], a, s => (a, s)
  | i :: is, a, s =>
    let r := s.xv6bread env false a
    let addr := (r.1.data i).toNat
    if addr = 0 then (0, r.2) else bmapWalk env is addr r.2

/-- `bmap_lookup(ip, bn, 0)` -/
def bmapPeek (env : Env) (s : Bio) (ip : Inode) (bn : Nat) : Nat × Bio :=
  match path bn with
  | none => (0, s)
  | some (slot, is) => if (ip.addrs slot).toNat = 0 then (0, s) else bmapWalk env is (ip.addrs slot).toNat s

/-- How far the blocks behind `addr` follow it; `k` more may be looked at, `run` are in already. -/
def runLength (env : Env) (ip : Inode) (addr bn : Nat) : Nat → Nat → Bio → Nat × Bio
  | 0, run, s => (run, s)
  | k + 1, run, s =>
    let r := bmapPeek env s ip (bn + run)
    if r.1 = addr + run then runLength env ip addr bn k (run + 1) r.2 else (run, r.2)

/-- The state of the loop of `readi`: bytes done, the caller's buffer, and the buffers it was filled from. -/
structure Read where
  tot : Nat
  off : Nat
  dst : Nat → BitVec 8
  used : List Buf
  bio : Bio

namespace Read

/-- `memcpy` or `memset` of the next `m` bytes. -/
def copy (r : Read) (m : Nat) (f : Nat → BitVec 8) : Read :=
  { r with tot := r.tot + m, off := r.off + m, dst := overlay r.dst f r.tot m }

/-- `m` bytes of block `addr` through the cache. -/
def copyBlock (env : Env) (addr m : Nat) (r : Read) : Read :=
  let q := r.bio.xv6bread env false addr
  let r' := r.copy m fun j => byte q.1.data (r.off % bsize + j)
  { r' with used := q.1 :: r.used, bio := q.2 }

/-- `n` whole blocks from `addr` on, one by one. -/
def copyBlocks (env : Env) : Nat → Nat → Read → Read
  | 0, _, r => r
  | n + 1, addr, r => copyBlocks env n (addr + 1) (copyBlock env addr bsize r)

/-- `n` whole blocks from `addr` on, straight from the device and then into the cache. -/
def copyRun (env : Env) (n addr : Nat) (r : Read) : Read :=
  let r' := r.copy (n * bsize) fun j => byte (r.bio.disk (addr + j / bsize)) (j % bsize)
  { r' with bio := r.bio.xv6bioFillCache env addr ((List.range n).map fun i => r.bio.disk (addr + i)) }

/-- One round of the loop. -/
def round (env : Env) (ip : Inode) (n : Nat) (r : Read) : Read :=
  let q := bmapPeek env r.bio ip (r.off / bsize)
  let m := min (n - r.tot) (bsize - r.off % bsize)
  let r := { r with bio := q.2 }
  if q.1 = 0 then r.copy m fun _ => 0
  else if r.off % bsize = 0 ∧ bsize ≤ n - r.tot then
    let l := runLength env ip q.1 (r.off / bsize) ((n - r.tot) / bsize - 1) 1 r.bio
    let r := { r with bio := l.2 }
    if 1 < l.1 then
      if r.bio.xv6bioRangeCached q.1 l.1 = false ∧ env.failsRun r.bio.gets = false then copyRun env l.1 q.1 r
      else copyBlocks env l.1 q.1 r
    else copyBlock env q.1 m r
  else copyBlock env q.1 m r

/-- The loop; a round reads at least one byte, so `n` rounds are enough. -/
def loop (env : Env) (ip : Inode) (n : Nat) : Nat → Read → Read
  | 0, r => r
  | fuel + 1, r => if r.tot < n then loop env ip n fuel (round env ip n r) else r

end Read

/-- `xv6fs_readi`; `off` and `n` are `uint32_t`. -/
def xv6fsReadi (env : Env) (s : Bio) (ip : Inode) (dst : Nat → BitVec 8) (off n : Nat) : Int × Read :=
  if off > ip.size ∨ (off + n) % 2 ^ 32 < off then (0, ⟨0, off, dst, [], s⟩)
  else
    let n := if off + n > ip.size then ip.size - off else n
    let r := Read.loop env ip n n ⟨0, off, dst, [], s⟩
    (toInt32 r.tot, r)

end Orthox.Cache
