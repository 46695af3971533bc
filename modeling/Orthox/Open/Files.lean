import Orthox.Files.Exact
import Orthox.Pipes.Descriptors

/-! Open files and the calls through a descriptor, in the two file layers: `kernel/fs.c`, where an open xv6fs file keeps
    its inode and a ramfs file its slot, and `kernel/riscv64/fs.c`, which keeps the path alone. Some calls go to what was
    kept, others look the path up again. What a path leads to on xv6fs is part of the state: every call that makes, moves
    or removes names may change it. -/

namespace Orthox.Open
open Blocks Files
open Pipes (oAccmode oWronly oRdwr)

/-- A path, as the bytes before its NUL. -/
abbrev Path := List Nat

/-- The two file layers. -/
inductive Layer where
  | shared
  | riscv64
deriving DecidableEq

/-! ### What there is -/

/-- `struct ramfs_file`. `id` counts the files created so far and tells this one from others that had the slot; no code
    reads it. -/
structure Slot where
  inUse : Bool
  name : Path
  mode : Nat
  mtime : Nat
  file : Ramfs
  id : Nat

/-- The part of `struct kstat` that depends on the file. -/
structure Kstat where
  dev : Nat
  ino : Nat
  mode : Nat
  size : Nat
  mtime : Nat
deriving DecidableEq

/-- The file systems. `lookup` is `xv6fs_namei`, `modules` what the boot modules say of a path. -/
structure World where
  vol : Vol
  lookup : Path → Option Nat
  heap : Heap
  slots : Nat → Slot
  modules : Path → Option Kstat

/-- `private_data` of an open file. riscv64 keeps none; there the inode is only known to the reader of this model. -/
inductive Node where
  | xv6fs (i : Nat)
  | ramfs (slot : Nat)
deriving DecidableEq

/-- `fs_file_t` -/
structure FsFile where
  node : Node
  path : Path
  offset : Nat
  size : Nat

/-- `O_APPEND` -/
def oAppend : BitVec 32 := 0x400

/-- The flags have `O_APPEND`. -/
def append (flags : BitVec 32) : Bool := flags &&& oAppend ≠ 0

/-- `riscv64_fs_flags_writable` -/
def flagsWritable (flags : BitVec 32) : Bool := flags &&& oAccmode = oWronly ∨ flags &&& oAccmode = oRdwr

/-- Error numbers, negated in answers. -/
def enoent : Int := 2
def ebadf : Int := 9
def einval : Int := 22

/-- `MAX_RAMFS_FILES` -/
def maxRamfsFiles : Nat := 256

/-- What a call answers: its result, the caller's buffer and, of `fstat`, the record. -/
structure Reply where
  res : Int
  got : Nat → BitVec 8
  stat : Option Kstat

namespace World

/-- `find_ramfs` -/
def findRamfs (w : World) (name : Path) : Option Nat :=
  (List.range maxRamfsFiles).find? fun s => (w.slots s).inUse && decide ((w.slots s).name = name)

/-- A ramfs file after a call. -/
def setFile (w : World) (s : Nat) (h : Heap) (rf : Ramfs) (mtime : Nat) : World :=
  { w with heap := h, slots := Function.update w.slots s { w.slots s with file := rf, mtime := mtime } }

/-! ### `kernel/fs.c`

    Each call is split into what it goes to (`Call.target` below) and what it does there. -/

/-- `fs_read` -/
def fsRead (c : Setting) (w : World) (f : FsFile) (count : Nat) : Option Node → Option (Reply × FsFile × World)
  | some (.xv6fs i) =>
    let r := Files.fsRead c.env c.bio w.vol i f.offset count c.dst
    some (⟨r.1, r.2, none⟩, { f with offset := if r.1 < 0 then f.offset else (f.offset + r.1.toNat) % 2 ^ 64 }, w)
  | some (.ramfs s) =>
    let rf := (w.slots s).file
    (rf.fsRead f.offset count c.dst).map fun r =>
      (⟨r.1, r.2, none⟩, { f with offset := (f.offset + min count (rf.size - f.offset)) % 2 ^ 64 }, w)
  | none => none

/-- `fs_write` -/
def fsWrite (c : Setting) (w : World) (flags : BitVec 32) (f : FsFile) (src : Nat → BitVec 8) (count : Nat) :
    Option Node → Option (Reply × FsFile × World)
  | some (.xv6fs i) =>
    let r := Files.fsWrite w.vol i ⟨f.offset, append flags⟩ src count c.clock
    let size := if count = 0 then f.size else max f.size (inodeAt r.2.2 i).size
    some (⟨r.1, c.dst, none⟩, { f with offset := r.2.1.offset, size := size }, { w with vol := r.2.2 })
  | some (.ramfs s) =>
    let slot := w.slots s
    let off := if append flags then slot.file.size else f.offset
    let tail := (off + count) % 2 ^ 64
    let grown := (Ramfs.ramfsGrow w.heap slot.file tail).1
    let longer := grown && decide (tail > slot.file.size)
    (Ramfs.fsWrite w.heap slot.file ⟨f.offset, append flags⟩ src count).map fun r =>
      (⟨r.1, c.dst, none⟩,
        { f with offset := if grown then tail else f.offset, size := if longer then tail else f.size },
        w.setFile s r.2.1 r.2.2 (if longer then c.clock 0 else slot.mtime))
  | none => some (⟨-enoent, c.dst, none⟩, f, w)

/-- `fs_ftruncate` -/
def fsFtruncate (c : Setting) (w : World) (f : FsFile) (length : Nat) : Option Node → Reply × FsFile × World
  | some (.ramfs s) =>
    let r := Ramfs.fsTruncate w.heap (w.slots s).file length
    if r.1 < 0 then (⟨r.1, c.dst, none⟩, f, w.setFile s r.2.1 r.2.2 (w.slots s).mtime)
    else (⟨0, c.dst, none⟩, { f with size := length, offset := min f.offset length }, w.setFile s r.2.1 r.2.2 (c.clock 0))
  | some (.xv6fs i) =>
    let r := xv6fsTruncateFile w.vol i length (c.clock 0)
    if r.1 < 0 then (⟨-enoent, c.dst, none⟩, f, { w with vol := r.2 })
    else (⟨0, c.dst, none⟩, { f with size := length, offset := min f.offset length }, { w with vol := r.2 })
  | none => (⟨-enoent, c.dst, none⟩, f, w)

/-- `fs_hash_name` -/
def fsHashName (s : Path) : Nat :=
  let h := s.foldl (fun (h : BitVec 64) b => (h ^^^ BitVec.ofNat 64 b) * 1099511628211) 1469598103934665603
  if h = 0 then 1 else h.toNat

/-- `xv6fs_type_mode` -/
def xv6fsTypeMode (ip : Inode) : Nat :=
  if ip.type = 3 then 0o020000 ||| 0o666
  else if ip.type = 5 then 0o120000 ||| 0o777
  else
    let type := if ip.type = 4 then 0o010000 else if ip.type = 1 then 0o040000 else 0o100000
    let perm := if ip.type = 4 then 0o644 else if ip.type = 1 then 0o555 else 0o444
    type ||| (if ip.major = 0x4f4d then ip.minor.toNat &&& 0o7777 else perm)

/-- `kstat_from_ramfs` -/
def kstatFromRamfs (rf : Slot) : Kstat := ⟨3, fsHashName rf.name, rf.mode, rf.file.size, rf.mtime⟩

/-- `fs_try_active_root_stat` on an inode. -/
def kstatOfInode (w : World) (path : Path) (i : Nat) : Kstat :=
  ⟨4, fsHashName path, xv6fsTypeMode (inodeAt w.vol i), (inodeAt w.vol i).size, (inodeAt w.vol i).mtime⟩

/-- The record `fs_fstat` makes up when the path leads nowhere. -/
def localStat (f : FsFile) : Kstat :=
  match f.node with
  | .xv6fs i => ⟨4, i, 0o100000 ||| 0o444, f.size, 0⟩
  | .ramfs _ => ⟨3, fsHashName f.path, 0o100000 ||| 0o444, f.size, 0⟩

/-- `fs_fstat`, with `fs_stat_normalized_path` -/
def fsFstat (c : Setting) (w : World) (f : FsFile) : Option Node → Reply
  | some (.ramfs s) => ⟨0, c.dst, some (kstatFromRamfs (w.slots s))⟩
  | some (.xv6fs i) => ⟨0, c.dst, some (w.kstatOfInode f.path i)⟩
  | none => ⟨0, c.dst, some (((if f.path = [] then none else w.modules f.path)).getD (localStat f))⟩

/-! ### `kernel/riscv64/fs.c` -/

/-- `riscv64_fs_refresh_xv6fs_size` -/
def refreshXv6fsSize (w : World) (f : FsFile) : Option Node → FsFile
  | some (.xv6fs i) => { f with size := (inodeAt w.vol i).size }
  | _ => f

/-- `sys_read` on an xv6fs file. -/
def sysRead (c : Setting) (w : World) (f : FsFile) (count : Nat) (o : Option Node) : Reply × FsFile × World :=
  let f := w.refreshXv6fsSize f o
  if f.offset ≥ f.size then (⟨0, c.dst, none⟩, f, w)
  else match o with
  | some (.xv6fs i) =>
    let r := Files.fsRead c.env c.bio w.vol i f.offset (min count (f.size - f.offset)) c.dst
    if r.1 < 0 then (⟨-1, r.2, none⟩, f, w)
    else (⟨r.1, r.2, none⟩, { f with offset := (f.offset + r.1.toNat) % 2 ^ 64 }, w)
  | _ => (⟨-1, c.dst, none⟩, f, w)

/-- `sys_write` on an xv6fs file. -/
def sysWrite (c : Setting) (w : World) (flags : BitVec 32) (f : FsFile) (src : Nat → BitVec 8) (count : Nat) (o : Option Node) :
    Reply × FsFile × World :=
  if ¬ flagsWritable flags then (⟨-ebadf, c.dst, none⟩, f, w)
  else if f.path = [] then (⟨-ebadf, c.dst, none⟩, f, w)
  else if count = 0 then (⟨0, c.dst, none⟩, f, w)
  else
    let f := if append flags then { w.refreshXv6fsSize f o with offset := (w.refreshXv6fsSize f o).size } else f
    match o with
    | some (.xv6fs i) =>
      let r := xv6fsWriteFile w.vol i src f.offset count c.clock
      if r.1 < 0 then (⟨-Ramfs.enospc, c.dst, none⟩, f, { w with vol := r.2 })
      else (⟨count, c.dst, none⟩, { f with offset := (f.offset + count) % 2 ^ 64, size := max f.size ((f.offset + count) % 2 ^ 64) },
        { w with vol := r.2 })
    | _ => (⟨-Ramfs.enospc, c.dst, none⟩, f, w)

/-- `sys_ftruncate` -/
def sysFtruncate (c : Setting) (w : World) (flags : BitVec 32) (f : FsFile) (length : Nat) (o : Option Node) :
    Reply × FsFile × World :=
  if f.path = [] then (⟨-einval, c.dst, none⟩, f, w)
  else if ¬ flagsWritable flags then (⟨-ebadf, c.dst, none⟩, f, w)
  else match o with
  | some (.xv6fs i) =>
    let r := xv6fsTruncateFile w.vol i length (c.clock 0)
    if r.1 < 0 then (⟨-einval, c.dst, none⟩, f, { w with vol := r.2 })
    else (⟨0, c.dst, none⟩, { f with size := length, offset := min f.offset length }, { w with vol := r.2 })
  | _ => (⟨-einval, c.dst, none⟩, f, w)

/-- `sys_fstat` on an xv6fs file, which is `sys_stat` of its path. -/
def sysFstat (c : Setting) (w : World) (f : FsFile) (o : Option Node) : Reply :=
  if f.path = [] then ⟨-ebadf, c.dst, none⟩
  else match o with
  | some (.xv6fs i) => ⟨0, c.dst, some { w.kstatOfInode f.path i with dev := 0, ino := i }⟩
  | _ =>
    match w.modules f.path with
    | some k => ⟨0, c.dst, some k⟩
    | none => ⟨-enoent, c.dst, none⟩

/-- `xv6fs_namei` of the path of an open file. -/
def named (w : World) (f : FsFile) : Option Node := if f.path = [] then none else (w.lookup f.path).map .xv6fs

end World

/-! ### Calls -/

/-- A call through a descriptor. -/
inductive Call where
  | read (count : Nat)
  | write (src : Nat → BitVec 8) (count : Nat)
  | ftruncate (length : Nat)
  | fstat

/-- What a call goes to. `kernel/fs.c` reads and writes an xv6fs file by its inode and reads a ramfs file by its slot; the
    other calls look the path up, `fs_fstat` among the ramfs files first. riscv64 looks the path up every time. -/
def Call.target (layer : Layer) (w : World) (f : FsFile) (q : Call) : Option Node :=
  match layer with
  | .riscv64 => w.named f
  | .shared =>
    match q, f.node with
    | .read _, node => some node
    | .write .., .xv6fs i => some (.xv6fs i)
    | .write .., .ramfs _ => (w.findRamfs f.path).map .ramfs
    | .ftruncate _, .ramfs _ => (w.findRamfs f.path).map .ramfs
    | .ftruncate _, .xv6fs _ => w.named f
    | .fstat, _ =>
      match (if f.path = [] then none else w.findRamfs f.path) with
      | some s => some (.ramfs s)
      | none => w.named f

/-- The call, gone to `o`; `none` is an access through a wild pointer. -/
def Call.on (layer : Layer) (c : Setting) (w : World) (flags : BitVec 32) (f : FsFile) (q : Call) (o : Option Node) :
    Option (Reply × FsFile × World) :=
  match layer, q with
  | .shared, .read count => w.fsRead c f count o
  | .shared, .write src count => w.fsWrite c flags f src count o
  | .shared, .ftruncate length => some (w.fsFtruncate c f length o)
  | .shared, .fstat => some (w.fsFstat c f o, f, w)
  | .riscv64, .read count => some (w.sysRead c f count o)
  | .riscv64, .write src count => some (w.sysWrite c flags f src count o)
  | .riscv64, .ftruncate length => some (w.sysFtruncate c flags f length o)
  | .riscv64, .fstat => some (w.sysFstat c f o, f, w)

/-- The call of a layer. -/
def Call.run (layer : Layer) (c : Setting) (w : World) (flags : BitVec 32) (f : FsFile) (q : Call) :
    Option (Reply × FsFile × World) := q.on layer c w flags f (q.target layer w f)

end Orthox.Open
