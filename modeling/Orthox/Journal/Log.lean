import Orthox.Schemes.Crash

/-! The journal of the xv6 file system (`kernel/xv6log.c`) over its buffer cache (`kernel/xv6bio.c`).

    `commit` sorts the logged block numbers, copies the pinned buffers to the log area, writes the header (the commit point),
    installs the blocks at home and clears the header; `recoverFromLog` redoes the installation from what the header says. Both
    are written as state transformers over `Sys`, which keeps the disk, the cache and the list of device commands issued so far.
    Device writes succeed, so the branches that retry a failed `xv6bio_rw_run` write do not appear; a failed run *read* does
    (`runRead`), and so does a machine that could not get the relay buffer (`gStage = none`).

    A block is 1024 bytes, seen as 256 little-endian words: that is how the header, the only block this file looks into, is laid
    out (`n`, then `block[126]`). -/

namespace Orthox.Journal
open Schemes.Crash Function

abbrev Word := BitVec 32

abbrev Block := Fin 256 → Word

/-- `XV6FS_LOGBLOCKS`: data blocks of the log area, the header not counted. -/
def logBlocks : Nat := 126

/-- The machine as the journal sees it. -/
structure Sys where
  disk : Nat → Block
  /-- Valid buffers of `bcache`, by block number. -/
  cache : Nat → Option Block
  /-- `refcnt` held through `xv6bpin`: a pinned buffer is never recycled. -/
  pins : Nat → Nat
  /-- `recycle k b`: by the `k`-th `bget`, the LRU scan has taken buffer `b` if it was free. -/
  recycle : Nat → Nat → Bool
  gets : Nat
  /-- `lg.start`, the block of the log header. -/
  start : Nat
  /-- `lg.lh.block[0 .. lg.lh.n)`, C `int`s. -/
  block : List Word
  gStage : Option (List Block)
  gStageValid : Bool
  /-- Whether `xv6bio_rw_run` manages to read a run. -/
  runRead : Bool
  /-- Device commands issued so far. -/
  issued : List (Write Nat Block)

namespace Sys

/-- Buffers still there at the next `bget`: pinned ones, and free ones not yet recycled. -/
def resident (s : Sys) : Nat → Option Block := fun i =>
  if s.pins i = 0 ∧ s.recycle s.gets i = true then none else s.cache i

/-- `xv6bread`: the buffer's data, read from disk when no valid buffer holds the block. -/
def xv6bread (s : Sys) (b : Nat) : Block × Sys :=
  match s.resident b with
  | some v => (v, { s with cache := s.resident, gets := s.gets + 1 })
  | none => (s.disk b, { s with cache := update s.resident b (some (s.disk b)), gets := s.gets + 1 })

/-- `memcpy` into a buffer. -/
def fill (s : Sys) (b : Nat) (v : Block) : Sys := { s with cache := update s.cache b (some v) }

/-- One `storage_write_blocks` command. -/
def issue (s : Sys) (w : Write Nat Block) : Sys := { s with disk := put w s.disk, issued := s.issued ++ [w] }

/-- `xv6bwrite` of a buffer that holds `v`. -/
def xv6bwrite (s : Sys) (b : Nat) (v : Block) : Sys := s.issue (fun i => if i = b then some v else none)

def xv6bunpin (s : Sys) (b : Nat) : Sys := { s with pins := update s.pins b (s.pins b - 1) }

end Sys

/-- `xv6bio_rw_run` for writing: `data` goes to the blocks from `b` on, in one command. -/
def rwRun (b : Nat) (data : List Block) : Write Nat Block := fun i => if b ≤ i then data[i - b]? else none

/-! ### `sort_log_blocks` -/

/-- The inner `while`: over the sorted prefix from its right end, shift what is above `v`. -/
def shiftIn (v : Word) : List Word → List Word
  | [] => [v]
  | x :: xs => if v.toInt < x.toInt then x :: shiftIn v xs else v :: x :: xs

/-- `sort_log_blocks`: insertion sort by destination; the prefix is kept right end first. -/
def sortLogBlocks (bs : List Word) : List Word := (bs.foldl (fun acc v => shiftIn v acc) []).reverse

/-! ### Header -/

/-- Word `i` of a block, as an array access of the header. -/
def word (blk : Block) (i : Nat) : Word := if h : i < 256 then blk ⟨i, h⟩ else 0

/-- The header block after `hb->n = n; hb->block[i] = block[i]` for `i < n`. -/
def packHead (hb : Block) (bs : List Word) : Block := fun i =>
  if i.val = 0 then BitVec.ofNat 32 bs.length else (bs[i.val - 1]?).getD (hb i)

/-- What the header block says: the first `n` entries. -/
def unpackHead (blk : Block) : List Word := (List.range (word blk 0).toInt.toNat).map fun i => word blk (i + 1)

def readHead (s : Sys) : Sys :=
  let r := s.xv6bread s.start
  { r.2 with block := unpackHead r.1 }

def writeHead (s : Sys) : Sys :=
  let r := s.xv6bread s.start
  (r.2.fill s.start (packHead r.1 s.block)).xv6bwrite s.start (packHead r.1 s.block)

/-! ### `write_log` -/

/-- Collect the pinned buffers in log order. -/
def gather : List Word → Sys → List Block × Sys
  | [], s => ([], s)
  | b :: bs, s =>
    let r := s.xv6bread b.toNat
    let t := gather bs r.2
    (r.1 :: t.1, t.2)

/-- The loop that writes log blocks one at a time, from entry `tail` on. -/
def writeLogEach : Nat → List Word → Sys → Sys
  | _, [], s => s
  | tail, b :: bs, s =>
    let s := (s.xv6bread (s.start + tail + 1)).2
    let r := s.xv6bread b.toNat
    let s := r.2.fill (s.start + tail + 1) r.1
    writeLogEach (tail + 1) bs (s.xv6bwrite (s.start + tail + 1) r.1)

def writeLog (s : Sys) : Sys :=
  if s.gStage.isSome ∧ s.block ≠ [] then
    let r := gather s.block s
    { r.2.issue (rwRun (s.start + 1) r.1) with gStage := some r.1, gStageValid := true }
  else writeLogEach 0 s.block s

/-! ### `install_trans` -/

/-- The cache side of installing one block: `memcpy` into the home buffer, then unpin. -/
def installBuf (recovering : Bool) (b : Nat) (v : Block) (s : Sys) : Sys :=
  let s := (s.xv6bread b).2.fill b v
  if recovering then s else s.xv6bunpin b

/-- How far the run that starts at destination `base` extends, `run` blocks being in it already. -/
def runLen (base : Int) : List Word → Nat → Nat
  | [], run => run
  | b :: bs, run => if b.toInt = base + run then runLen base bs (run + 1) else run

/-- Cache side of a run. -/
def installBufs (recovering : Bool) : List Word → List Block → Sys → Sys
  | b :: bs, v :: vs, s => installBufs recovering bs vs (installBuf recovering b.toNat v s)
  | _, _, s => s

/-- The staged loop: consecutive destinations go out in one command. Every round consumes at least
    one entry, so as much fuel as there are entries is enough. -/
def installRuns (recovering : Bool) : Nat → List Word → List Block → Sys → Sys
  | _, [], _, s => s
  | 0, _ :: _, _, s => s
  | fuel + 1, b :: bs, data, s =>
    let run := runLen b.toInt bs 1
    let s := installBufs recovering ((b :: bs).take run) (data.take run) s
    installRuns recovering fuel ((b :: bs).drop run) (data.drop run) (s.issue (rwRun b.toNat (data.take run)))

/-- The unstaged loop: read each log block back and write it home. -/
def installEach (recovering : Bool) : Nat → List Word → Sys → Sys
  | _, [], s => s
  | tail, b :: bs, s =>
    let s := (s.xv6bread b.toNat).2
    let r := s.xv6bread (s.start + tail + 1)
    let s := (r.2.fill b.toNat r.1).xv6bwrite b.toNat r.1
    installEach recovering (tail + 1) bs (if recovering then s else s.xv6bunpin b.toNat)

/-- The blocks the staged loop installs from, when there are any: the relay buffer as `write_log`
    left it, or one run read of the log area. -/
def staged (recovering : Bool) (s : Sys) : Option (List Block) :=
  match s.gStage with
  | none => none
  | some data =>
    if s.block = [] then none
    else if recovering = false ∧ s.gStageValid = true then some data
    else if s.runRead then some ((List.range s.block.length).map fun k => s.disk (s.start + 1 + k))
    else none

def installTrans (recovering : Bool) (s : Sys) : Sys :=
  let s' := match staged recovering s with
    | some data => installRuns recovering s.block.length s.block data { s with gStage := some data }
    | none => installEach recovering 0 s.block s
  { s' with gStageValid := false }

/-! ### Commit and recovery -/

def recoverFromLog (s : Sys) : Sys :=
  let s := installTrans true (readHead s)
  writeHead { s with block := [] }

def commit (s : Sys) : Sys :=
  if s.block ≠ [] then
    let s := writeHead (writeLog { s with block := sortLogBlocks s.block })
    let s := installTrans false s
    writeHead { s with block := [] }
  else s

/-- What differs from one boot to the next besides the disk. -/
structure Boot where
  gotStage : Bool
  runRead : Bool
  recycle : Nat → Nat → Bool

/-- The machine when `xv6log_init` calls `recover_from_log`: `xv6bio_init` has emptied the cache. -/
def Boot.sys (m : Boot) (start : Nat) (disk : Nat → Block) : Sys where
  disk := disk
  cache := fun _ => none
  pins := fun _ => 0
  recycle := m.recycle
  gets := 0
  start := start
  block := []
  gStage := if m.gotStage then some [] else none
  gStageValid := false
  runRead := m.runRead
  issued := []

end Orthox.Journal
