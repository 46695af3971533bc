import Orthox.Blocks.Write
import Orthox.Schemes.Prog

/-! The inode layer as its callers see it: directory slots, inode records on disk and in the inode cache, references, sleep
    locks, transactions.

    An action is what the source does under one lock or on one locked inode, so another task may act between any two of them.
    `exec t a fs` is action `a` by task `t`; it is `none` while the task has to wait. A failed KASSERT sets `panic`. Blocks are
    counted, not numbered: an inode has a set of nodes of its block tree, and `nfree` blocks are free. A path or a name is a
    list of bytes. -/

namespace Orthox.Namespace
open Blocks Journal Function

/-- `XV6FS_T_*`; `free` is type 0. -/
inductive Kind
  | free | dir | file | device | fifo | symlink
  deriving DecidableEq, Repr

/-- `struct xv6fs_dirent`; `inum` 0 is an empty slot. -/
structure Dirent where
  inum : Nat
  name : List Nat
  deriving DecidableEq

/-- A cleared slot. -/
def Dirent.zero : Dirent := ⟨0, []⟩

/-- The fields of `struct xv6fs_dinode` that the namespace depends on. -/
structure Dinode where
  type : Kind
  nlink : BitVec 16
  size : Nat
  deriving DecidableEq

/-- An inode in the cache. -/
structure Core where
  ref : Nat
  valid : Bool
  ip : Dinode

/-- The file system in memory: cached blocks, the inode cache, the locks and the open transactions. -/
structure Fs (Task : Type) where
  ninodes : Nat
  nfree : Nat
  disk : Nat → Dinode
  slots : Nat → Nat → Dirent
  text : Nat → Nat → Nat
  blks : Nat → List Node
  core : Nat → Core
  used : Nat
  lock : Nat → Option Task
  ops : Task → Option Nat
  outstanding : Nat
  renameLock : Option Task
  panic : Bool

/-- `XV6FS_ROOTINO` -/
def rootIno : Nat := 1

/-- `XV6FS_NINODE`, the size of the inode cache. -/
def ninode : Nat := 512

/-- How `xv6fs_iput_try` goes on after its test. -/
inductive IputRes
  | refused | dropped | last
  deriving DecidableEq

inductive Act
  | beginOp (n : Nat)
  | endOp (n : Nat)
  | lockRename
  | unlockRename
  | iget (i : Nat)
  | iputTest (i need : Nat)
  | ifree (i : Nat)
  | idone (i : Nat)
  | ilock (i : Nat)
  | iunlock (i : Nat)
  | load (i : Nat)
  | setLink (i : Nat) (n : BitVec 16)
  | addLink (i : Nat) (d : BitVec 16)
  | setSize (i n : Nat)
  | iupdate (i : Nat)
  | tryAlloc (i : Nat) (type : Kind)
  | readDir (d : Nat)
  | readText (i n : Nat)
  | bmap (i : Nat) (N : Node)
  | putEnt (d k : Nat) (e : Dirent)
  | store (i off : Nat) (bs : List Nat)
  | itruncTo (i length : Nat)
  | kassertFail
  | stop

/-- The answer to an action. -/
abbrev Resp : Act → Type
  | .iputTest .. => IputRes
  | .load _ => Core
  | .tryAlloc .. => Bool
  | .readDir _ => Nat → Dirent
  | .readText .. => List Nat
  | .bmap .. => Bool
  | _ => Unit

/-! ### Directory data as bytes -/

/-- Byte `j` of a directory entry: two bytes of inode number, then the padded name. -/
def Dirent.byte (e : Dirent) (j : Nat) : Nat :=
  if j = 0 then e.inum % 256 else if j = 1 then e.inum / 256 else e.name.getD (j - 2) 0

/-- The directory entry that 64 bytes make. -/
def Dirent.ofBytes (f : Nat → Nat) : Dirent :=
  ⟨f 0 + 256 * f 1, ((List.range 62).map fun j => f (j + 2)).takeWhile (· ≠ 0)⟩

/-- Bytes `bs` written at `off` over directory slots. -/
def overlay (slots : Nat → Dirent) (off : Nat) (bs : List Nat) (k : Nat) : Dirent :=
  if 64 * k + 64 ≤ off ∨ off + bs.length ≤ 64 * k then slots k
  else Dirent.ofBytes fun j =>
    if off ≤ 64 * k + j ∧ 64 * k + j < off + bs.length then bs.getD (64 * k + j - off) 0 else (slots k).byte j

namespace Fs
variable {Task : Type} [DecidableEq Task]

/-! ### Parts of actions -/

def setCore (fs : Fs Task) (i : Nat) (c : Core) : Fs Task := { fs with core := update fs.core i c }

def setDisk (fs : Fs Task) (i : Nat) (r : Dinode) : Fs Task := { fs with disk := update fs.disk i r }

def setLock (fs : Fs Task) (i : Nat) (t : Option Task) : Fs Task := { fs with lock := update fs.lock i t }

/-- A failed KASSERT. -/
def fail (fs : Fs Task) : Fs Task := { fs with panic := true }

/-- `xv6log_write` asserts that a transaction is open. -/
def logged (fs fs' : Fs Task) : Fs Task := if fs.outstanding = 0 then fs.fail else fs'

/-- `ip->ref--`; the cache slot is free again at 0. -/
def drop (fs : Fs Task) (i : Nat) : Fs Task :=
  let c := fs.core i
  { fs.setCore i { c with ref := c.ref - 1 } with used := if c.ref = 1 then fs.used - 1 else fs.used }

/-- `xv6fs_iget` -/
def xv6fsIget (fs : Fs Task) (i : Nat) : Fs Task :=
  let c := fs.core i
  if 0 < c.ref then fs.setCore i { c with ref := c.ref + 1 }
  else if fs.used < ninode then
    { fs.setCore i { c with ref := 1, valid := false } with used := fs.used + 1 }
  else fs.fail

/-- `xv6fs_ilock` once the lock is there: read the record unless the cached one is valid. -/
def xv6fsIlock (fs : Fs Task) (t : Task) (i : Nat) : Fs Task :=
  let c := fs.core i
  let fs := fs.setLock i (some t)
  if c.ref = 0 then fs.fail
  else if c.valid then fs
  else if (fs.disk i).type = .free then (fs.setCore i { c with valid := true, ip := fs.disk i }).fail
  else fs.setCore i { c with valid := true, ip := fs.disk i }

/-- The nodes that stay when `keep` file blocks do: those with a kept data block at or below them. -/
def keptNodes (keep : Nat) (ns : List Node) : List Node :=
  ns.filter fun N => ns.any fun M => !isTable M && decide (blockOf M < keep) && decide (M.1 = N.1) && N.2.isPrefixOf M.2

/-- The body of `xv6fs_itrunc_to`, without its last `xv6fs_iupdate`. -/
def cut (fs : Fs Task) (i length : Nat) : Fs Task :=
  let keep := blocksOf length
  let kept := keptNodes keep (fs.blks i)
  { fs with
    slots := update fs.slots i fun k => if k < 16 * keep then fs.slots i k else .zero
    text := update fs.text i fun b => if b < bsize * keep then fs.text i b else 0
    blks := update fs.blks i kept
    nfree := fs.nfree + ((fs.blks i).length - kept.length) }

/-- The record of `i` changed in the cache. -/
def modify (fs : Fs Task) (i : Nat) (f : Dinode → Dinode) : Fs Task :=
  let c := fs.core i
  fs.setCore i { c with ip := f c.ip }

/-- `xv6fs_iupdate`, without the assertion. -/
def flush (fs : Fs Task) (i : Nat) : Fs Task := fs.setDisk i (fs.core i).ip

/-- One action of task `t`; `none` while it has to wait. -/
def exec (t : Task) : (a : Act) → Fs Task → Option (Resp a × Fs Task)
  | .beginOp n, fs =>
    some ((), { fs with ops := update fs.ops t (some n), outstanding := fs.outstanding + 1 })
  | .endOp _, fs =>
    some ((), { fs with ops := update fs.ops t none, outstanding := fs.outstanding - 1 })
  | .lockRename, fs => if fs.renameLock = none then some ((), { fs with renameLock := some t }) else none
  | .unlockRename, fs => some ((), { fs with renameLock := none })
  | .iget i, fs => some ((), fs.xv6fsIget i)
  | .iputTest i need, fs =>
    let c := fs.core i
    if c.ref = 1 ∧ c.valid = true ∧ c.ip.nlink = 0 then
      if need < itruncNeed c.ip.size 0 then some (.refused, fs)
      else if fs.lock i = none then some (.last, fs.setLock i (some t)) else none
    else some (.dropped, fs.drop i)
  | .ifree i, fs =>
    let fs' := ((fs.cut i 0).modify i fun r => { r with type := .free, size := 0 }).flush i
    some ((), fs.logged (fs'.setCore i { fs'.core i with valid := false }))
  | .idone i, fs => some ((), (fs.setLock i none).drop i)
  | .ilock i, fs => if fs.lock i = none then some ((), fs.xv6fsIlock t i) else none
  | .iunlock i, fs => some ((), if (fs.core i).ref = 0 then fs.fail else fs.setLock i none)
  | .load i, fs => some (fs.core i, fs)
  | .setLink i n, fs => some ((), fs.modify i fun r => { r with nlink := n })
  | .addLink i d, fs => some ((), fs.modify i fun r => { r with nlink := r.nlink + d })
  | .setSize i n, fs => some ((), fs.modify i fun r => { r with size := n })
  | .iupdate i, fs => some ((), fs.logged (fs.flush i))
  | .tryAlloc i type, fs =>
    if (fs.disk i).type = .free then
      some (true, fs.logged { fs.setDisk i ⟨type, 0, 0⟩ with blks := update fs.blks i [] })
    else some (false, fs)
  | .readDir d, fs => some (fs.slots d, fs)
  | .readText i n, fs => some ((List.range (min n (fs.core i).ip.size)).map (fs.text i), fs)
  | .bmap i N, fs =>
    if N ∈ fs.blks i then some (true, fs)
    else if fs.nfree = 0 then some (false, fs)
    else some (true, fs.logged
      { fs with blks := update fs.blks i (N :: fs.blks i), nfree := fs.nfree - 1 })
  | .putEnt d k e, fs =>
    let fs' := fs.modify d fun r => { r with size := max r.size (64 * k + 64) }
    some ((), fs.logged
      ({ fs' with slots := update fs.slots d (update (fs.slots d) k e) }.flush d))
  | .store i off bs, fs =>
    some ((), fs.logged
      (if (fs.core i).ip.type = .dir then { fs with slots := update fs.slots i (overlay (fs.slots i) off bs) }
      else { fs with text := update fs.text i fun b =>
        if off ≤ b ∧ b < off + bs.length then bs.getD (b - off) 0 else fs.text i b }))
  | .itruncTo i length, fs =>
    some ((), fs.logged (((fs.cut i length).modify i fun r => { r with size := length }).flush i))
  | .kassertFail, fs => some ((), fs.fail)
  | .stop, _ => none

end Fs

end Orthox.Namespace
