import Orthox.Paths.Complete

/-! Directory listings of `kernel/fs.c`. An `open` with `O_DIRECTORY` captures the whole directory into one array of
    `orth_dirent`, merged from the ramfs table, the root file system and the USB stick, and `fs_getdents64` re-encodes the
    array from the offset of the description on, as many records a call as the buffer holds.

        open:        ramfs_table ─┐
                     xv6fs / boot ┼─▶ dirents[1024]
                     USB FAT     ─┘
        getdents64:  dirents[index ..] ─▶ records, index moves

    Paths are the ones `resolve_task_path` and `normalize_fs_path` leave. -/

namespace Orthox.Listing
open Open
open Namespace (slash dot dotdot)
open Paths (normalizeFsPath vfsFindMountpoint usb)

/-- `KSTAT_MODE_DIR`, `KSTAT_MODE_FILE` and `KSTAT_MODE_CHR` -/
def modeDir : Nat := 0o040000
def modeFile : Nat := 0o100000
def modeChr : Nat := 0o020000

/-- `struct orth_dirent`; the name has room for 247 bytes and the terminator. -/
structure Dirent where
  mode : Nat
  size : Nat
  name : Path
  name_le : name.length ≤ 247
deriving DecidableEq

/-- A dirent with as much of the name as fits. -/
def Dirent.of (name : Path) (mode size : Nat) : Dirent := ⟨mode, size, name.take 247, by simp⟩

/-- The names of an array of dirents. -/
def names (ents : List Dirent) : List Path := ents.map Dirent.name

/-- `DIR_BUF_BYTES / sizeof(struct orth_dirent)` -/
def maxEntries : Nat := 64 * 4096 / 256

/-! ### Building the array -/

/-- What a builder hands to `dirent_append`. -/
structure Item where
  name : Path
  mode : Nat
  size : Nat

/-- `dirent_append`; `none` is the answer -1. -/
def direntAppend (ents : List Dirent) (it : Item) : Option (List Dirent) :=
  if it.name = [] then none
  else if it.name ∈ names ents then some ents
  else if maxEntries ≤ ents.length then none
  else some (ents ++ [Dirent.of it.name it.mode it.size])

/-- A loop of `dirent_append`, left at the first failure. -/
def appendAll (ents : List Dirent) (its : List Item) : Option (List Dirent) := its.foldlM direntAppend ents

/-- A slot of `ramfs_table` that is in use. -/
structure RamfsFile where
  name : Path
  mode : Nat
  size : Nat
  name_lt : name.length < 64

/-- The rest of a path below a directory: what follows the directory and one slash. -/
def below (d p : Path) : Option Path :=
  if (d ++ [slash]).isPrefixOf p then some (p.drop (d.length + 1)) else none

/-- The first component, cut at 247 bytes, and whether a slash follows it. -/
def firstComponent (rest : Path) : Path × Bool :=
  let child := (rest.takeWhile (· ≠ slash)).take 247
  (child, (rest.drop child.length).head? = some slash)

/-- The test of `build_ramfs_subdir_dirents` that sets `found_dir` and goes on to the next slot. `strcmp_exact` answers 1
    on equal names, so it is met by every directory of ramfs other than the one listed. -/
def setsFoundDir (norm : Path) (rf : RamfsFile) : Bool := rf.name ≠ norm && isDir rf.mode

/-- What `build_ramfs_subdir_dirents` appends for a slot. -/
def ramfsChild (norm : Path) (rf : RamfsFile) : Option Item :=
  if setsFoundDir norm rf ∨ norm = [] then none
  else match below norm rf.name with
    | none => none
    | some rest =>
      let (child, more) := firstComponent rest
      if child = [] then none
      else some ⟨child, if more || isDir rf.mode then modeDir else rf.mode, rf.size⟩

/-- The two items for the directory itself and its parent. -/
def dots : List Item := [⟨dot, modeDir, 0⟩, ⟨dotdot, modeDir, 0⟩]

/-- `build_ramfs_subdir_dirents` -/
def buildRamfsSubdirDirents (ram : List RamfsFile) (norm : Path) (ents : List Dirent) : Option (List Dirent) := do
  let children := ram.filterMap (ramfsChild norm)
  let foundDir := ram.any (setsFoundDir norm)
  let ents ← appendAll ents children
  let ents ← appendAll ents (if foundDir then dots else [])
  if foundDir || !children.isEmpty then some ents else none

/-- A dirent of an xv6fs directory with the mode and size of its inode; the name has `XV6FS_DIRSIZ` bytes. -/
structure Xv6Dirent where
  inum : Nat
  name : Path
  mode : Nat
  size : Nat
  name_le : name.length ≤ 62

/-- A dirent that is in use and is neither of the dots. -/
def Xv6Dirent.listed (de : Xv6Dirent) : Bool := de.inum ≠ 0 && de.name ≠ dot && de.name ≠ dotdot

/-- The loop of `xv6fs_list_dir` over the dirents of the directory; `none` is one that cannot be read. -/
def xv6fsListDir : List (Option Xv6Dirent) → List Dirent → List Dirent
  | [], ents => ents
  | none :: _, ents => ents
  | some de :: slots, ents =>
    if de.listed then
      if maxEntries ≤ ents.length then ents
      else xv6fsListDir slots (ents ++ [Dirent.of de.name de.mode de.size])
    else xv6fsListDir slots ents

/-- What `xv6fs_namei` finds at a path. -/
inductive Xv6Node where
  | dir (slots : List (Option Xv6Dirent))
  | other

/-- A boot module. -/
structure BootModule where
  path : Path
  size : Nat

/-- `split_child_path` for a file; `none` is an empty child. -/
def splitChildPath (fullPath dirPath : Path) : Option (Path × Nat) :=
  let norm := normalizeFsPath fullPath
  match (if dirPath = [] then some norm else below (normalizeFsPath dirPath) norm) with
  | none => none
  | some rest =>
    let (child, more) := firstComponent rest
    if child = [] then none else some (child, if more then modeDir else modeFile)

/-- What `build_module_dirents` appends for a module. -/
def moduleChild (dirPath : Path) (m : BootModule) : Option Item :=
  (splitChildPath m.path dirPath).map fun c => ⟨c.1, c.2, m.size⟩

/-- `build_module_dirents` -/
def buildModuleDirents (boot : List BootModule) (dirPath : Path) (ents : List Dirent) : Option (List Dirent) :=
  let children := boot.filterMap (moduleChild dirPath)
  if children.isEmpty then none else appendAll ents children

/-- A decoded entry of a FAT directory. -/
structure FatItem where
  name : Path
  attr : Nat
  size : Nat

/-- What `build_usb_dirents` appends for a decoded entry. -/
def usbChild (it : FatItem) : Option Item :=
  if it.name = dot ∨ it.name = dotdot then none
  else some ⟨it.name, if it.attr &&& 0x10 ≠ 0 then modeDir else modeFile, it.size⟩

/-- The file systems a listing is merged from: the ramfs slots in use in the order of the table; xv6fs, when it is the
    root and mounted; the boot modules; and the USB stick when it is ready, with the decoded entries of each directory that
    can be read. -/
structure Overlay where
  ram : List RamfsFile
  xv6 : Option (Path → Option Xv6Node)
  boot : List BootModule
  stick : Option (Path → Option (List FatItem))

namespace Overlay
variable (fs : Overlay)

/-- `build_usb_dirents` -/
def buildUsbDirents (path : Path) : Option (List Dirent) := do
  let dir ← fs.stick
  let items ← dir path
  appendAll [] (items.filterMap usbChild)

/-- The part of `build_root_dirents` that asks the root file system. -/
def rootDirents (ents : List Dirent) : Option (List Dirent) :=
  match fs.xv6 with
  | some namei =>
    match namei [slash] with
    | some (.dir slots) => some (xv6fsListDir slots ents)
    | _ => none
  | none =>
    match buildModuleDirents fs.boot [] ents with
    | some ents' => some ents'
    | none => if ents = [] ∧ fs.boot ≠ [] then none else some ents

/-- `build_root_dirents` -/
def buildRootDirents : Option (List Dirent) := do
  let ents ← appendAll [] ((fs.ram.filter fun rf => slash ∉ rf.name).map fun rf => ⟨rf.name, rf.mode, rf.size⟩)
  let ents ← fs.rootDirents ents
  if fs.stick.isSome then direntAppend ents ⟨usb, modeDir, 0⟩ else some ents

/-- The part of `build_active_root_dirents` that asks the modules; it counts only if something was added. -/
def moduleDirents (norm : Path) (ents : List Dirent) : Option (List Dirent) :=
  match buildModuleDirents fs.boot norm ents with
  | some ents' => if ents.length < ents'.length then some ents' else none
  | none => none

/-- `build_active_root_dirents` on a path that is not empty. The lookup of the root file system answers only for xv6fs,
    so modules are asked only when ramfs found nothing. -/
def buildActiveRootDirents (norm : Path) : Option (List Dirent) :=
  let ram := buildRamfsSubdirDirents fs.ram norm []
  match fs.xv6 with
  | some namei =>
    match namei norm with
    | some (.dir slots) => some (xv6fsListDir slots (ram.getD []))
    | some .other => none
    | none => ram
  | none =>
    match ram with
    | some ents => some ents
    | none => fs.moduleDirents norm []

/-- The array an `open` of a directory captures; `none` is `-ENOENT`. -/
def openDir (path : Path) : Option (List Dirent) :=
  if path = [] then fs.buildRootDirents
  else if (vfsFindMountpoint path).isSome then fs.buildUsbDirents path
  else fs.buildActiveRootDirents path

end Overlay

/-! ### Reading it -/

/-- `struct linux_dirent_compat` -/
structure Record where
  ino : Nat
  off : Nat
  reclen : Nat
  type : Nat
  name : Path

/-- `dirent_type_from_mode` -/
def direntTypeFromMode (mode : Nat) : Nat :=
  if mode &&& 0o170000 = modeDir then 4
  else if mode &&& 0o170000 = modeFile then 8
  else if mode &&& 0o170000 = modeChr then 2
  else 0

/-- The length of the record of a name: the head, the name and its terminator, rounded up to eight bytes. -/
def reclen (name : Path) : Nat := (19 + name.length + 1 + 7) / 8 * 8

/-- The record of the dirent at an index. -/
def encode (index : Nat) (e : Dirent) : Record :=
  let name := e.name.take 255
  ⟨index + 1, (index + 1) * 256, reclen name, direntTypeFromMode e.mode, name⟩

/-- The loop of `fs_getdents64`: records while they fit, and the index it stops at. -/
def fillRecords : List Dirent → Nat → Nat → List Record × Nat
  | [], index, _ => ([], index)
  | e :: es, index, room =>
    let r := encode index e
    if r.reclen ≤ room then
      let (rs, index') := fillRecords es (index + 1) (room - r.reclen)
      (r :: rs, index')
    else ([], index)

/-- `fs_getdents64` on a description whose offset is `index * sizeof(struct orth_dirent)`, with a buffer of `count`
    bytes. It answers the length of the records, which is 0 only if there are none. -/
def getdents64 (ents : List Dirent) (index count : Nat) : List Record × Nat := fillRecords (ents.drop index) index count

/-- The records of the calls from the `k`-th on, up to the first that answers 0. -/
def drain (ents : List Dirent) (counts : Nat → Nat) : Nat → Nat → Nat → List Record
  | 0, _, _ => []
  | fuel + 1, k, index =>
    match getdents64 ents index (counts k) with
    | ([], _) => []
    | (r :: rs, index') => r :: rs ++ drain ents counts fuel (k + 1) index'

/-- Everything a caller reads who calls `getdents64` with the buffers `counts` until it answers 0. Each call before
    moves the index, so there are at most as many as dirents. -/
def readAll (ents : List Dirent) (counts : Nat → Nat) : List Record := drain ents counts (ents.length + 1) 0 0

end Orthox.Listing
