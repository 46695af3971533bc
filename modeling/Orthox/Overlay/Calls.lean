import Orthox.Images.Coherence

/-! What a path leads to in the calls of `kernel/fs.c`. Ramfs is a flat table of full paths that lies over the tree of xv6fs,
    and each call has its own order of asking the two: `open`, `stat`, `truncate` and `rename` ask the table first, `unlink`
    and `rmdir` ask xv6fs first and go on to the table when it fails, and `open` with `O_CREAT` falls back on the table when
    xv6fs cannot make the file.

        open, stat, truncate, rename   ramfs ──▶ xv6fs ──▶ modules
        unlink, rmdir                  xv6fs ──▶ ramfs
        open with O_CREAT              ramfs ──▶ xv6fs (not below /tmp) ──▶ a new file in ramfs

    The paths are the ones `resolve_task_path` and `normalize_fs_path` leave. -/

namespace Orthox.Overlay
open List
open Blocks (maxFile bsize)
open Images (wantCreat wantTrunc devKout)
open Open (Path isDir pathIsUnder pathIsUnderTmp maxRamfsFiles)
open Paths (vfsFindMountpoint)
open Pipes (oAccmode oRdonly)

/-! ### What there is -/

/-- The types of an xv6fs inode. -/
inductive Kind where
  | dir
  | file
  | device
  | fifo
  | symlink
deriving DecidableEq

/-- xv6fs as the calls by path see it. `parent` says that `xv6fs_nameiparent` finds a directory, `entry` is what
    `xv6fs_dirlookup` finds of the last element there, and `namei` is `xv6fs_namei`, which goes on behind a link. -/
structure Tree where
  kind : Nat → Kind
  size : Nat → Nat
  parent : Path → Bool
  entry : Path → Option Nat
  namei : Path → Option Nat
  parent_of_entry : ∀ {p i}, entry p = some i → parent p = true
  namei_of_entry : ∀ {p i}, entry p = some i → kind i ≠ .symlink → namei p = some i
  namei_of_parent : ∀ {p}, parent p = true → entry p = none → namei p = none
  kind_namei : ∀ {p i}, namei p = some i → kind i ≠ .symlink

/-- A slot of `ramfs_table` in use. -/
structure RamfsFile where
  name : Path
  mode : Nat
  size : Nat

/-- The file systems. `onRoot`: xv6fs is the root and mounted. `fat`: what `fat_resolve_path` finds on the stick, whether
    it is a directory and its size. `module` and `moduleDir`: what the boot modules say of a path. -/
structure State where
  ram : Nat → Option RamfsFile
  tree : Tree
  onRoot : Bool
  ready : Bool
  fat : Path → Option (Bool × Nat)
  module : Path → Option Nat
  moduleDir : Path → Bool

/-- What a path can denote. -/
inductive Obj where
  | ramfs (slot : Nat)
  | xv6fs (i : Nat)
  | usb (path : Path)
  | usbRoot
  | module (path : Path)
  | moduleDir (path : Path)
  | kout
  | root
deriving DecidableEq

namespace State
variable (st : State)

/-- `find_ramfs` -/
def findRamfs (p : Path) : Option Nat := (range maxRamfsFiles).find? fun s => (st.ram s).any (decide <| ·.name = p)

/-- The slot `create_ramfs` takes. -/
def freeSlot : Option Nat := (range maxRamfsFiles).find? fun s => (st.ram s).isNone

/-- The slot holds a directory. -/
def ramIsDir (s : Nat) : Bool := (st.ram s).any (isDir ·.mode)

/-- The size of the file in a slot. -/
def ramSize (s : Nat) : Nat := ((st.ram s).map RamfsFile.size).getD 0

/-- The inode of the root file system a path leads to. -/
def rootNode (p : Path) : Option Nat := if st.onRoot then st.tree.namei p else none

/-- The dirent of the root file system at a path. -/
def rootEntry (p : Path) : Option Nat := if st.onRoot then st.tree.entry p else none

/-! ### `open` -/

/-- What an `open` made: the object, whether it is new, and the size of the file. -/
structure Opened where
  obj : Obj
  created : Bool
  size : Nat

/-- `xv6fs_create_file`: the inode and whether it is new. `alloc` is the inode `xv6fs_ialloc` finds, if `xv6fs_dirlink` has
    room for it too. -/
def xv6fsCreateFile (p : Path) (alloc : Option Nat) : Option (Nat × Bool) :=
  if st.tree.parent p then
    match st.tree.entry p with
    | some i => if st.tree.kind i = .dir ∨ st.tree.kind i = .symlink then none else some (i, false)
    | none => alloc.map (·, true)
  else none

/-- The end of `fs_open`: the root file system, and then the modules. -/
def openRoot (p : Path) : Option Opened :=
  match st.rootNode p with
  | some i => if st.tree.kind i = .dir then none else some ⟨.xv6fs i, false, st.tree.size i⟩
  | none => (st.module p).map (⟨.module p, false, ·⟩)

/-- The part of `fs_open` for `O_CREAT`: below `/tmp`, and where xv6fs fails, the file is made in ramfs. -/
def openCreat (p : Path) (flags : BitVec 32) (alloc : Option Nat) : Option Opened :=
  match (if pathIsUnderTmp p = false ∧ st.onRoot = true then st.xv6fsCreateFile p alloc else none) with
  | some (i, true) => some ⟨.xv6fs i, true, 0⟩
  | some (i, false) =>
    some ⟨.xv6fs i, false, if st.tree.kind i = .file ∧ wantTrunc flags = true then 0 else st.tree.size i⟩
  | none =>
    match st.freeSlot with
    | some s => some ⟨.ramfs s, true, 0⟩
    | none => st.openRoot p

/-- `fs_open` of what is not asked for as a directory; `none` is an error. -/
def fsOpen (p : Path) (flags : BitVec 32) (alloc : Option Nat) : Option Opened :=
  if (vfsFindMountpoint p).isSome then
    if flags &&& oAccmode ≠ oRdonly ∨ wantCreat flags then none
    else match st.fat p with
    | some (false, size) => some ⟨.usb p, false, size⟩
    | _ => none
  else match st.findRamfs p with
  | some s => if st.ramIsDir s then none else some ⟨.ramfs s, false, if wantTrunc flags then 0 else st.ramSize s⟩
  | none =>
    if p = devKout ∨ p = devKout.tail then some ⟨.kout, false, 0⟩
    else if wantCreat flags then st.openCreat p flags alloc
    else st.openRoot p

/-! ### The other calls

    Each answers the object it succeeds on. -/

/-- `fs_stat_normalized_path`, following links -/
def fsStat (p : Path) : Option Obj :=
  if p = [] then some .root
  else if vfsFindMountpoint p = some [] then if st.ready then some .usbRoot else none
  else match st.findRamfs p with
  | some s => some (.ramfs s)
  | none =>
    if (vfsFindMountpoint p).isSome then (st.fat p).map fun _ => .usb p
    else match st.rootNode p with
    | some i => some (.xv6fs i)
    | none => if st.moduleDir p then some (.moduleDir p) else (st.module p).map fun _ => .module p

/-- `fs_truncate`, which asks xv6fs whatever the root is. `grows`: `ramfs_grow` finds the pages. -/
def fsTruncate (p : Path) (length : Nat) (grows : Bool) : Option Obj :=
  match st.findRamfs p with
  | some s => if length > st.ramSize s ∧ grows = false then none else some (.ramfs s)
  | none => if length > maxFile * bsize then none else (st.tree.namei p).map .xv6fs

/-- `fs_unlink` -/
def fsUnlink (p : Path) : Option Obj :=
  match st.rootEntry p with
  | some i => if st.tree.kind i ≠ .dir then some (.xv6fs i) else ram
  | none => ram
where
  ram := match st.findRamfs p with
    | some s => if st.ramIsDir s then none else some (.ramfs s)
    | none => none

/-- `fs_rmdir` -/
def fsRmdir (p : Path) : Option Obj :=
  if p = [] then none
  else match st.rootEntry p with
  | some i => if st.tree.kind i = .dir then some (.xv6fs i) else ram
  | none => ram
where
  ram := match st.findRamfs p with
    | some s => if st.ramIsDir s then some (.ramfs s) else none
    | none => none

/-- `ramfs_dir_has_children` -/
def ramfsDirHasChildren (dir : Path) : Bool :=
  (range maxRamfsFiles).any fun s => (st.ram s).any fun rf => pathIsUnder dir rf.name

/-- The check of `ramfs_rename_subtree`: every new name fits. -/
def subtreeFits (old new : Path) : Bool :=
  (range maxRamfsFiles).all fun s => (st.ram s).all fun rf =>
    !pathIsUnder old rf.name || rf.name.length - old.length + new.length + 1 ≤ 64

/-- The checks of `fs_rename` on the side of ramfs, for the slot of the old path and the slot it replaces. -/
def ramfsMayRename (s : Nat) (t : Option Nat) (old new : Path) : Bool :=
  !(t.any fun t => st.ramIsDir s && !st.ramIsDir t) && !(t.any fun t => !st.ramIsDir s && st.ramIsDir t) &&
    !(t.any fun t => st.ramIsDir t && st.ramfsDirHasChildren new) && decide (new.length + 1 ≤ 64) &&
    (!st.ramIsDir s || st.subtreeFits old new)

/-- `fs_rename`: what it moves and what it replaces; `none` also when the two paths are one and nothing is to do. `moves`:
    `xv6fs_rename_path` answers 0 for an entry that is there. -/
def fsRename (old new : Path) (moves : Bool) : Option (Obj × Option Obj) :=
  if old = [] ∨ new = [] ∨ old = new ∨ pathIsUnder old new then none
  else
    let newInRam := !st.onRoot || pathIsUnderTmp new || (st.findRamfs new).isSome
    match st.findRamfs old with
    | none =>
      if newInRam then none
      else match st.rootEntry old with
      | some i => if moves then some (.xv6fs i, (st.rootEntry new).map .xv6fs) else none
      | none => none
    | some s =>
      let t := (st.findRamfs new).filter (· ≠ s)
      if newInRam ∧ st.ramfsMayRename s t old new then some (.ramfs s, t.map .ramfs) else none

end State

/-- A call on a path. A rename names it as the old path or as the new one. -/
inductive Call where
  | opens (flags : BitVec 32) (alloc : Option Nat)
  | stat
  | truncate (length : Nat) (grows : Bool)
  | unlink
  | rmdir
  | renameFrom (new : Path) (moves : Bool)
  | renameOnto (old : Path) (moves : Bool)

/-- The object that is there and that the call takes the path for. -/
def Call.target (st : State) (p : Path) : Call → Option Obj
  | .opens flags alloc => ((st.fsOpen p flags alloc).filter (!·.created)).map State.Opened.obj
  | .stat => st.fsStat p
  | .truncate length grows => st.fsTruncate p length grows
  | .unlink => st.fsUnlink p
  | .rmdir => st.fsRmdir p
  | .renameFrom new moves => (st.fsRename p new moves).map Prod.fst
  | .renameOnto old moves => (st.fsRename old p moves).bind Prod.snd

end Orthox.Overlay
