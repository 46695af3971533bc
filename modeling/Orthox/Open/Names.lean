import Orthox.Open.Files

/-! The calls of `kernel/fs.c` that make, move and remove names, on paths that are already resolved. The ramfs table is
    flat: a file is a slot with its full path. The part xv6fs plays in a call is its argument: the answer of the xv6fs
    function the call tries, and the volume and the paths after it. -/

namespace Orthox.Open
open Blocks Files List

/-- More error numbers. -/
def eexist : Int := 17
def exdev : Int := 18
def enotdir : Int := 20
def eisdir : Int := 21
def enametoolong : Int := 36
def enotempty : Int := 39

/-- `(mode & 0170000U) == KSTAT_MODE_DIR` -/
def isDir (mode : Nat) : Bool := mode &&& 0o170000 = 0o040000

/-- `path_is_under` -/
def pathIsUnder : Path → Path → Bool
  | [], child => child.head? = some 47
  | _ :: _, [] => false
  | p :: parent, c :: child => p = c && pathIsUnder parent child

/-- `path_is_under_tmp` -/
def pathIsUnderTmp (p : Path) : Bool :=
  match (if p.head? = some 47 then p.tail else p) with
  | 116 :: 109 :: 112 :: 47 :: _ :: _ => true
  | _ => false

/-- What an xv6fs function answered, and the volume and its paths afterwards. A call has none when xv6fs is not mounted. -/
structure Done where
  res : Int
  vol : Vol
  lookup : Path → Option Nat

namespace World

/-- After an xv6fs function, if there was one. -/
def after (w : World) : Option Done → World
  | none => w
  | some d => { w with vol := d.vol, lookup := d.lookup }

def setSlot (w : World) (s : Nat) (slot : Slot) : World := { w with slots := Function.update w.slots s slot }

/-- The first free slot. -/
def freeSlot (w : World) : Option Nat := (range maxRamfsFiles).find? fun s => !(w.slots s).inUse

/-- `create_ramfs`; `none` is a full table. -/
def createRamfs (w : World) (name : Path) (mode now id : Nat) : Option World :=
  w.freeSlot.map fun s => w.setSlot s ⟨true, name.take 63, 0o100000 ||| (mode &&& 0o7777), now, .empty, id⟩

/-- `create_ramfs_dir`, which leaves the capacity. -/
def createRamfsDir (w : World) (name : Path) (mode now id : Nat) : Option World :=
  w.freeSlot.map fun s => w.setSlot s ⟨true, name.take 63, 0o040000 ||| (mode &&& 0o7777), now,
    { Ramfs.empty with capacity := (w.slots s).file.capacity }, id⟩

/-- `ramfs_free_entry` -/
def ramfsFreeEntry (w : World) (s : Nat) : World :=
  w.setSlot s { w.slots s with inUse := false, name := [], mode := 0, mtime := 0, file := .empty }

/-- `fs_open` with `O_CREAT`: the file is made unless there is one. -/
def fsOpenCreat (w : World) (path : Path) (mode now id : Nat) (create : Option Done) : World :=
  if (w.findRamfs path).isSome then w
  else if pathIsUnderTmp path then (w.createRamfs path mode now id).getD w
  else if create.any (·.res = 0) then w.after create
  else ((w.after create).createRamfs path mode now id).getD (w.after create)

/-- `fs_unlink` -/
def fsUnlink (w : World) (path : Path) (unlink : Option Done) : Int × World :=
  let w := w.after unlink
  if unlink.any (·.res = 0) then (0, w)
  else match w.findRamfs path with
  | none => (-enoent, w)
  | some s => if isDir (w.slots s).mode then (-eisdir, w) else (0, w.ramfsFreeEntry s)

/-- `fs_mkdir`; `there` says that the root file system has the path. -/
def fsMkdir (w : World) (path : Path) (mode now id : Nat) (there : Bool) (mkdir : Option Done) : Int × World :=
  if path = [] then (-eexist, w)
  else if (w.findRamfs path).isSome then (-eexist, w)
  else match (if pathIsUnderTmp path then none else mkdir) with
  | some d => if there then (-eexist, w) else (if d.res = 0 then 0 else -enoent, w.after (some d))
  | none =>
    match w.createRamfsDir path mode now id with
    | some w' => (0, w')
    | none => (-enoent, w)

/-- `fs_rmdir` -/
def fsRmdir (w : World) (path : Path) (rmdir : Option Done) : Int × World :=
  if path = [] then (-enoent, w)
  else
    let w := w.after rmdir
    if rmdir.any (·.res = 0) then (0, w)
    else match w.findRamfs path with
    | none => (-enoent, w)
    | some s =>
      if !isDir (w.slots s).mode then (-enotdir, w)
      else (0, w.setSlot s { w.slots s with
        inUse := false, name := [], mode := 0, mtime := 0,
        file := { Ramfs.empty with capacity := (w.slots s).file.capacity } })

/-- `ramfs_dir_has_children` -/
def ramfsDirHasChildren (w : World) (dir : Path) : Bool :=
  (range maxRamfsFiles).any fun s => (w.slots s).inUse && pathIsUnder dir (w.slots s).name

/-- The check of `ramfs_rename_subtree`: every new name fits. -/
def subtreeFits (w : World) (old new : Path) : Bool :=
  (range maxRamfsFiles).all fun s =>
    !((w.slots s).inUse && pathIsUnder old (w.slots s).name) ||
      (w.slots s).name.length - old.length + new.length + 1 ≤ 64

/-- `ramfs_rename_subtree` -/
def ramfsRenameSubtree (w : World) (old new : Path) : World :=
  { w with slots := fun s =>
      if s < maxRamfsFiles ∧ (w.slots s).inUse ∧ pathIsUnder old (w.slots s).name then
        { w.slots s with name := new ++ (w.slots s).name.drop old.length }
      else w.slots s }

/-- `fs_rename` -/
def fsRename (w : World) (old new : Path) (rename : Option Done) : Int × World :=
  if old = [] ∨ new = [] then (-enoent, w)
  else if old = new then (0, w)
  else if pathIsUnder old new then (-einval, w)
  else
    let newInRam := rename.isNone || pathIsUnderTmp new || (w.findRamfs new).isSome
    match w.findRamfs old with
    | none => if newInRam then (-exdev, w) else (rename.elim (-enoent) Done.res, w.after rename)
    | some s =>
      if !newInRam then (-exdev, w)
      else
        let dir := isDir (w.slots s).mode
        let target := (w.findRamfs new).filter (· ≠ s)
        if target.any fun t => dir && !isDir (w.slots t).mode then (-enotdir, w)
        else if target.any fun t => !dir && isDir (w.slots t).mode then (-eisdir, w)
        else if target.any fun t => isDir (w.slots t).mode && w.ramfsDirHasChildren new then (-enotempty, w)
        else if new.length + 1 > 64 then (-enametoolong, w)
        else if dir && !w.subtreeFits old new then (-enametoolong, w)
        else
          let w := target.elim w w.ramfsFreeEntry
          let w := if dir then w.ramfsRenameSubtree old new else w
          (0, w.setSlot s { w.slots s with name := new })

end World

end Orthox.Open
