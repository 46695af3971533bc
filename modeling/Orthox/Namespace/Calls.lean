import Orthox.Namespace.Inodes

/-! The calls of `xv6fs.c` as programs over the inode actions, step by step as the source takes them.

    A call returns its result code and, when it hands out an inode, the reference it keeps. -/

namespace Orthox.Namespace
open Schemes Blocks Journal List

/-- A program of the inode layer. -/
abbrev P := Prog Act Resp

/-! ### Single actions -/

def xv6logBeginOp (n : Nat) : P Unit := Prog.act (Act.beginOp n) Prog.ret
def xv6logEndOp (n : Nat) : P Unit := Prog.act (Act.endOp n) Prog.ret
def lockRename : P Unit := Prog.act Act.lockRename Prog.ret
def unlockRename : P Unit := Prog.act Act.unlockRename Prog.ret
def xv6fsIget (i : Nat) : P Unit := Prog.act (Act.iget i) Prog.ret
def iputTest (i need : Nat) : P IputRes := Prog.act (Act.iputTest i need) Prog.ret
def ifree (i : Nat) : P Unit := Prog.act (Act.ifree i) Prog.ret
def idone (i : Nat) : P Unit := Prog.act (Act.idone i) Prog.ret
def xv6fsIlock (i : Nat) : P Unit := Prog.act (Act.ilock i) Prog.ret
def xv6fsIunlock (i : Nat) : P Unit := Prog.act (Act.iunlock i) Prog.ret
def xv6fsIupdate (i : Nat) : P Unit := Prog.act (Act.iupdate i) Prog.ret
def load (i : Nat) : P Core := Prog.act (Act.load i) Prog.ret
def setLink (i : Nat) (n : BitVec 16) : P Unit := Prog.act (Act.setLink i n) Prog.ret
def addLink (i : Nat) (d : BitVec 16) : P Unit := Prog.act (Act.addLink i d) Prog.ret
def setSize (i n : Nat) : P Unit := Prog.act (Act.setSize i n) Prog.ret
def tryAlloc (i : Nat) (type : Kind) : P Bool := Prog.act (Act.tryAlloc i type) Prog.ret
def readDir (d : Nat) : P (Nat → Dirent) := Prog.act (Act.readDir d) Prog.ret
def readText (i n : Nat) : P (List Nat) := Prog.act (Act.readText i n) Prog.ret
def bmap (i : Nat) (N : Node) : P Bool := Prog.act (Act.bmap i N) Prog.ret
def putEnt (d k : Nat) (e : Dirent) : P Unit := Prog.act (Act.putEnt d k e) Prog.ret
def store (i off : Nat) (bs : List Nat) : P Unit := Prog.act (Act.store i off bs) Prog.ret
def xv6fsItruncTo (i length : Nat) : P Unit := Prog.act (Act.itruncTo i length) Prog.ret
def kassertFail : P Unit := Prog.act Act.kassertFail Prog.ret
def stop : P Unit := Prog.act Act.stop Prog.ret

/-- `XV6LOG_OP_SMALL` -/
def opSmall : Nat := 16

/-- `XV6LOG_OP_FULL` -/
def opFull : Nat := logBlocks

/-- `XV6FS_DIRSIZ` -/
def dirsiz : Nat := 62

/-! ### References -/

/-- `xv6fs_iput_try` -/
def xv6fsIputTry (ip need : Nat) : P Bool := do
  match ← iputTest ip need with
  | .refused => return false
  | .dropped => return true
  | .last =>
    ifree ip
    idone ip
    return true

/-- `xv6fs_iput` -/
def xv6fsIput (ip : Nat) : P Unit := do
  let _ ← xv6fsIputTry ip logBlocks

/-- `xv6fs_iput_op`. The second round cannot be refused: no inode needs more than the whole log. -/
def xv6fsIputOp (ip : Nat) : P Unit := do
  let c ← load ip
  let need := if c.ref = 1 ∧ c.valid = true ∧ c.ip.nlink = 0 then itruncNeed c.ip.size 0 else opSmall
  xv6logBeginOp need
  if ← xv6fsIputTry ip need then
    xv6logEndOp need
  else
    xv6logEndOp need
    xv6logBeginOp logBlocks
    let _ ← xv6fsIputTry ip logBlocks
    xv6logEndOp logBlocks

/-- `xv6fs_iunlockput` -/
def xv6fsIunlockput (ip : Nat) : P Unit := do
  xv6fsIunlock ip
  xv6fsIput ip

/-- The loop of `xv6fs_ialloc` over the inode numbers still to be looked at. -/
def iallocFrom (type : Kind) : List Nat → P (Option Nat)
  | [] => return none
  | inum :: inums => do
    if ← tryAlloc inum type then
      xv6fsIget inum
      return some inum
    else iallocFrom type inums

/-- `xv6fs_ialloc` -/
def xv6fsIalloc (ninodes : Nat) (type : Kind) : P (Option Nat) := iallocFrom type (range' 1 (ninodes - 1))

/-! ### Writing -/

/-- `bmap`: give every node on the way a block. -/
def bmapPath (ip : Nat) : List Node → P Bool
  | [] => return true
  | N :: Ns => do
    if ← bmap ip N then bmapPath ip Ns else return false

/-- `xv6fs_writei` of one directory entry at slot `k`. -/
def writeEnt (dp k : Nat) (de : Dirent) : P Int := do
  if 2 ^ 32 ≤ 64 * k + 64 then return -1
  else if ← bmapPath dp (prefixes (k / 16)) then
    putEnt dp k de
    return 64
  else
    xv6fsIupdate dp
    return 0

/-- The loop of `xv6fs_writei`; it returns the offset reached. -/
def writeLoop (ip : Nat) : Nat → Nat → List Nat → P Nat
  | 0, off, _ => return off
  | fuel + 1, off, bs =>
    if bs = [] then return off
    else do
      if ← bmapPath ip (prefixes (off / bsize)) then
        let m := min bs.length (bsize - off % bsize)
        store ip off (bs.take m)
        writeLoop ip fuel (off + m) (bs.drop m)
      else return off

/-- `xv6fs_writei` -/
def xv6fsWritei (ip off : Nat) (bs : List Nat) : P Int := do
  if 2 ^ 32 ≤ off + bs.length then return -1
  else
    let reached ← writeLoop ip bs.length off bs
    let c ← load ip
    if c.ip.size < reached then
      setSize ip reached
      xv6fsIupdate ip
      return (reached - off : Nat)
    else
      xv6fsIupdate ip
      return (reached - off : Nat)

/-! ### Directories -/

/-- The slot of a name among the first `n`. -/
def findEnt (ents : Nat → Dirent) (name : List Nat) (n : Nat) : Option Nat :=
  (range n).find? fun k => decide ((ents k).inum ≠ 0) && decide ((ents k).name = name)

/-- The slot a new entry goes to; `none` if the directory ends in half an entry. -/
def freeSlot (ents : Nat → Dirent) (size : Nat) : Option Nat :=
  match (range (size / 64)).find? fun k => decide ((ents k).inum = 0) with
  | some k => some k
  | none => if size % 64 = 0 then some (size / 64) else none

/-- `xv6fs_dirlookup`: the inode, referenced, and its slot. -/
def xv6fsDirlookup (dp : Nat) (name : List Nat) : P (Option (Nat × Nat)) := do
  let c ← load dp
  if c.ip.type ≠ .dir then return none
  else
    let ents ← readDir dp
    match findEnt ents name (c.ip.size / 64) with
    | none => return none
    | some k =>
      xv6fsIget (ents k).inum
      return some ((ents k).inum, k)

/-- `xv6fs_dirlink` -/
def xv6fsDirlink (dp : Nat) (name : List Nat) (inum : Nat) : P Int := do
  match ← xv6fsDirlookup dp name with
  | some (ip, _) =>
    xv6fsIput ip
    return -1
  | none =>
    let c ← load dp
    let ents ← readDir dp
    match freeSlot ents c.ip.size with
    | none =>
      kassertFail
      return -1
    | some k =>
      if (← writeEnt dp k ⟨inum % 2 ^ 16, name⟩) ≠ 64 then return -1
      else return 0

/-! ### Paths -/

/-- `'/'` -/
def slash : Nat := 47

def dot : List Nat := [46]
def dotdot : List Nat := [46, 46]

/-- `skipelem`: the first element of a path, cut to `XV6FS_DIRSIZ` bytes, and what follows it. -/
def skipelem (path : List Nat) : Option (List Nat × List Nat) :=
  let path := path.dropWhile (· = slash)
  if path = [] then none
  else some ((path.takeWhile (· ≠ slash)).take dirsiz, (path.dropWhile (· ≠ slash)).dropWhile (· = slash))

/-- `xv6fs_read_symlink_target`: the text up to its first NUL. -/
def xv6fsReadSymlinkTarget (ip bufsiz : Nat) : P (List Nat) := do
  xv6fsIlock ip
  let buf ← readText ip (bufsiz - 1)
  xv6fsIunlockput ip
  return buf.takeWhile (· ≠ 0)

/-- The path that replaces a link met at `resolved` with `rest` still to walk; `none` if it does not
    fit the 256 bytes of `combined`. -/
def combine (resolved target rest : List Nat) : Option (List Nat) :=
  let join (head : List Nat) :=
    if rest = [] then some head
    else if 256 ≤ head.length + 1 + rest.length then none else some (head ++ slash :: rest)
  if target.head? = some slash then
    if 256 ≤ target.length then none else join target
  else if 256 ≤ resolved.length + 1 + target.length then none
  else join (resolved ++ slash :: target)

/-- `resolved` with one more element, if it fits. -/
def extend (resolved name : List Nat) : List Nat :=
  if resolved.length + 1 + name.length < 256 then resolved ++ slash :: name else resolved

/-- The loop of `namex_depth`; `again` is the call for the path a link gives. Every round takes an
    element off the path, so `fuel` beyond its length never runs out. -/
def namexLoop (again : List Nat → P (Option (Nat × List Nat))) (nameiparent followFinal : Bool) :
    Nat → Nat → List Nat → List Nat → List Nat → P (Option (Nat × List Nat))
  | 0, _, _, _, _ => do
    stop
    return none
  | fuel + 1, ip, path, resolved, name =>
    match skipelem path with
    | none =>
      if nameiparent then do
        xv6fsIput ip
        return none
      else return some (ip, name)
    | some (name, path) => do
      xv6fsIlock ip
      let c ← load ip
      if c.ip.type ≠ .dir then
        xv6fsIunlockput ip
        return none
      else if nameiparent && path.isEmpty then
        xv6fsIunlock ip
        return some (ip, name)
      else
        let found ← xv6fsDirlookup ip name
        xv6fsIunlockput ip
        match found with
        | none => return none
        | some (next, _) =>
          xv6fsIlock next
          let cn ← load next
          xv6fsIunlock next
          if cn.ip.type = .symlink ∧ (path ≠ [] ∨ followFinal = true) then
            let target ← xv6fsReadSymlinkTarget next 256
            match combine resolved target path with
            | none => return none
            | some combined => again combined
          else namexLoop again nameiparent followFinal fuel next path (extend resolved name) name

/-- `XV6FS_SYMLOOP_MAX` -/
def symloopMax : Nat := 16

/-- `namex_depth`, by the number of calls still allowed. -/
def namexDepth (nameiparent followFinal : Bool) : Nat → List Nat → P (Option (Nat × List Nat))
  | 0, _ => return none
  | left + 1, path =>
    if path.head? = some slash then do
      xv6fsIget rootIno
      namexLoop (namexDepth nameiparent followFinal left) nameiparent followFinal (path.length + 1) rootIno path [] []
    else return none

/-- `xv6fs_namei` -/
def xv6fsNamei (path : List Nat) : P (Option Nat) := do
  return (← namexDepth false true (symloopMax + 1) path).map Prod.fst

/-- `xv6fs_namei_nofollow` -/
def xv6fsNameiNofollow (path : List Nat) : P (Option Nat) := do
  return (← namexDepth false false (symloopMax + 1) path).map Prod.fst

/-- `xv6fs_nameiparent` -/
def xv6fsNameiparent (path : List Nat) : P (Option (Nat × List Nat)) := namexDepth true true (symloopMax + 1) path

/-! ### Calls that read -/

/-- What a call leaves with its caller. -/
structure Ret where
  rc : Int
  keep : Option Nat := none

/-- `(path && path[0]) ? path : "/"` -/
def orRoot (path : List Nat) : List Nat := if path = [] then [slash] else path

/-- Look at an inode under its lock and let go of it. -/
def look (ip : Nat) : P Ret := do
  xv6fsIlock ip
  let _ ← load ip
  xv6fsIunlock ip
  xv6fsIput ip
  return ⟨0, none⟩

/-- `xv6fs_ino_path` -/
def xv6fsInoPath (path : List Nat) : P Ret := do
  match ← xv6fsNamei (orRoot path) with
  | none => return ⟨-1, none⟩
  | some ip => look ip

/-- `xv6fs_stat_path` -/
def xv6fsStatPath (path : List Nat) : P Ret := do
  match ← xv6fsNamei (orRoot path) with
  | none => return ⟨-1, none⟩
  | some ip => look ip

/-- `xv6fs_lstat_path` -/
def xv6fsLstatPath (path : List Nat) : P Ret := do
  match ← xv6fsNameiNofollow (orRoot path) with
  | none => return ⟨-1, none⟩
  | some ip => look ip

/-- `xv6fs_readlink_path` -/
def xv6fsReadlinkPath (path : List Nat) (bufsiz : Nat) : P Ret := do
  match ← xv6fsNameiNofollow path with
  | none => return ⟨-1, none⟩
  | some ip =>
    xv6fsIlock ip
    let c ← load ip
    if c.ip.type ≠ .symlink then
      xv6fsIunlock ip
      xv6fsIput ip
      return ⟨-1, none⟩
    else
      let buf ← readText ip bufsiz
      xv6fsIunlock ip
      xv6fsIput ip
      return ⟨buf.length, none⟩

/-- The loop of `xv6fs_list_dir` over the slots left, with room for `max` entries. -/
def listLoop (ents : Nat → Dirent) : Nat → List Nat → P Unit
  | _, [] => return ()
  | max, k :: ks =>
    if (ents k).inum = 0 ∨ (ents k).name = dot ∨ (ents k).name = dotdot then listLoop ents max ks
    else if max = 0 then return ()
    else do
      xv6fsIget (ents k).inum
      xv6fsIlock (ents k).inum
      let _ ← load (ents k).inum
      xv6fsIunlock (ents k).inum
      xv6fsIput (ents k).inum
      listLoop ents (max - 1) ks

/-- `xv6fs_list_dir` -/
def xv6fsListDir (path : List Nat) (maxEntries : Nat) : P Ret := do
  match ← xv6fsNamei (orRoot path) with
  | none => return ⟨-1, none⟩
  | some dp =>
    xv6fsIlock dp
    let c ← load dp
    if c.ip.type ≠ .dir then
      xv6fsIunlock dp
      xv6fsIput dp
      return ⟨-1, none⟩
    else
      let ents ← readDir dp
      listLoop ents maxEntries (range (c.ip.size / 64))
      xv6fsIunlock dp
      xv6fsIput dp
      return ⟨0, none⟩

/-! ### Calls on the data of a file -/

/-- The loop of `xv6fs_write_file`, one transaction a chunk. -/
def writeChunks (ip : Nat) : Nat → Nat → List Nat → P Ret
  | 0, _, _ => do
    stop
    return ⟨-1, none⟩
  | fuel + 1, off, bs => do
    let chunk := bs.take writeChunkMax
    let opBlocks := opWrite chunk.length
    xv6logBeginOp opBlocks
    xv6fsIlock ip
    let r ← xv6fsWritei ip (off % 2 ^ 32) chunk
    xv6fsIunlock ip
    xv6logEndOp opBlocks
    if r ≠ chunk.length then
      xv6fsIput ip
      return ⟨-1, none⟩
    else if bs.drop writeChunkMax = [] then
      xv6fsIput ip
      return ⟨0, none⟩
    else writeChunks ip fuel (off + chunk.length) (bs.drop writeChunkMax)

/-- `xv6fs_write_file` -/
def xv6fsWriteFile (path : List Nat) (offset : Nat) (buf : List Nat) : P Ret := do
  match ← xv6fsNamei path with
  | none => return ⟨-1, none⟩
  | some ip => writeChunks ip (buf.length + 1) offset buf

/-- The retry loop of `xv6fs_truncate_file`; it goes round again when the file grew meanwhile, and
    `fuel` bounds the rounds looked at. -/
def truncateLoop (ip length : Nat) : Nat → Nat → P Ret
  | 0, _ => do
    stop
    return ⟨-1, none⟩
  | fuel + 1, need => do
    xv6logBeginOp need
    xv6fsIlock ip
    let c ← load ip
    if maxFile * bsize < length then
      xv6fsIunlock ip
      xv6logEndOp need
      xv6fsIput ip
      return ⟨-1, none⟩
    else if length < c.ip.size then
      if need < itruncNeed c.ip.size length then
        xv6fsIunlock ip
        xv6logEndOp need
        truncateLoop ip length fuel (itruncNeed c.ip.size length)
      else
        xv6fsItruncTo ip length
        xv6fsIunlock ip
        xv6logEndOp need
        xv6fsIput ip
        return ⟨0, none⟩
    else
      setSize ip (length % 2 ^ 32)
      xv6fsIupdate ip
      xv6fsIunlock ip
      xv6logEndOp need
      xv6fsIput ip
      return ⟨0, none⟩

/-- `xv6fs_truncate_file` -/
def xv6fsTruncateFile (path : List Nat) (length rounds : Nat) : P Ret := do
  match ← xv6fsNamei path with
  | none => return ⟨-1, none⟩
  | some ip =>
    let c ← load ip
    truncateLoop ip length rounds (if length < c.ip.size then itruncNeed c.ip.size length else opSmall)

/-! ### Calls that make a name -/

/-- Leave the directory of a call, and the transaction of `n` blocks that it runs in. -/
def leave (n dp : Nat) (r : Ret) : P Ret := do
  xv6fsIunlock dp
  xv6logEndOp n
  xv6fsIput dp
  return r

/-- A new inode of the given type with one name, under the lock of its directory: the part that
    `xv6fs_create_file`, `xv6fs_mknod_fifo` and `xv6fs_symlink_path` share. On success the inode is
    returned, referenced, with all locks and the transaction released. -/
def makeNode (ninodes dp : Nat) (name : List Nat) (type : Kind) : P (Option Nat) := do
  match ← xv6fsIalloc ninodes type with
  | none =>
    let _ ← leave opSmall dp ⟨-1, none⟩
    return none
  | some ip =>
    xv6fsIlock ip
    setLink ip 1
    xv6fsIupdate ip
    if (← xv6fsDirlink dp name ip) < 0 then
      setLink ip 0
      xv6fsIupdate ip
      xv6fsIunlock ip
      xv6fsIput ip
      let _ ← leave opSmall dp ⟨-1, none⟩
      return none
    else
      xv6fsIunlock ip
      let _ ← leave opSmall dp ⟨0, none⟩
      return some ip

/-- `xv6fs_mknod_fifo` -/
def xv6fsMknodFifo (ninodes : Nat) (path : List Nat) : P Ret :=
  if path = [] then return ⟨-1, none⟩
  else do
    xv6logBeginOp opSmall
    match ← xv6fsNameiparent path with
    | none =>
      xv6logEndOp opSmall
      return ⟨-1, none⟩
    | some (dp, name) =>
      xv6fsIlock dp
      match ← xv6fsDirlookup dp name with
      | some (ip, _) =>
        xv6fsIput ip
        leave opSmall dp ⟨-17, none⟩
      | none =>
        match ← makeNode ninodes dp name .fifo with
        | none => return ⟨-1, none⟩
        | some ip =>
          xv6fsIput ip
          return ⟨0, none⟩

/-- Hand the inode to the caller, or let go of it. -/
def handOut (ip : Nat) (out : Bool) : P Ret :=
  if out then return ⟨0, some ip⟩
  else do
    xv6fsIput ip
    return ⟨0, none⟩

/-- `xv6fs_create_file`; `out` says whether the caller wants the inode. -/
def xv6fsCreateFile (ninodes : Nat) (path : List Nat) (out : Bool) : P Ret :=
  if path = [] then return ⟨-1, none⟩
  else do
    xv6logBeginOp opSmall
    match ← xv6fsNameiparent path with
    | none =>
      xv6logEndOp opSmall
      return ⟨-1, none⟩
    | some (dp, name) =>
      xv6fsIlock dp
      match ← xv6fsDirlookup dp name with
      | some (ip, _) =>
        xv6fsIlock ip
        let c ← load ip
        if c.ip.type ≠ .file ∧ c.ip.type ≠ .device ∧ c.ip.type ≠ .fifo then
          xv6fsIunlock ip
          xv6fsIput ip
          leave opSmall dp ⟨-1, none⟩
        else
          xv6fsIunlock ip
          let _ ← leave opSmall dp ⟨0, none⟩
          handOut ip out
      | none =>
        match ← makeNode ninodes dp name .file with
        | none => return ⟨-1, none⟩
        | some ip => handOut ip out

/-- `xv6fs_symlink_path` -/
def xv6fsSymlinkPath (ninodes : Nat) (target linkpath : List Nat) : P Ret :=
  if linkpath = [] then return ⟨-1, none⟩
  else if target.length = 0 ∨ bsize ≤ target.length then return ⟨-1, none⟩
  else do
    xv6logBeginOp opSmall
    match ← xv6fsNameiparent linkpath with
    | none =>
      xv6logEndOp opSmall
      return ⟨-1, none⟩
    | some (dp, name) =>
      xv6fsIlock dp
      match ← xv6fsDirlookup dp name with
      | some (ip, _) =>
        xv6fsIput ip
        leave opSmall dp ⟨-1, none⟩
      | none =>
        match ← makeNode ninodes dp name .symlink with
        | none => return ⟨-1, none⟩
        | some ip =>
          xv6logBeginOp (opWrite target.length)
          xv6fsIlock ip
          let n ← xv6fsWritei ip 0 target
          xv6fsIunlock ip
          xv6logEndOp (opWrite target.length)
          xv6fsIput ip
          return ⟨if n = target.length then 0 else -1, none⟩

/-- `xv6fs_mkdir_path` -/
def xv6fsMkdirPath (ninodes : Nat) (path : List Nat) : P Ret := do
  match ← xv6fsNameiparent path with
  | none => return ⟨-1, none⟩
  | some (dp, name) =>
    xv6logBeginOp opSmall
    xv6fsIlock dp
    match ← xv6fsIalloc ninodes .dir with
    | none => leave opSmall dp ⟨-1, none⟩
    | some ip =>
      xv6fsIlock ip
      setLink ip 1
      xv6fsIupdate ip
      let _ ← xv6fsDirlink ip dot ip
      let _ ← xv6fsDirlink ip dotdot dp
      let _ ← xv6fsDirlink dp name ip
      addLink dp 1
      xv6fsIupdate dp
      xv6fsIunlock ip
      xv6fsIput ip
      leave opSmall dp ⟨0, none⟩

/-- The exit of `xv6fs_link_path` after a failure: take the link back. -/
def linkBad (ip : Nat) : P Ret := do
  xv6fsIlock ip
  addLink ip (-1)
  xv6fsIupdate ip
  xv6fsIunlock ip
  xv6logEndOp opFull
  xv6fsIput ip
  return ⟨-1, none⟩

/-- `xv6fs_link_path`; there is one device. -/
def xv6fsLinkPath (oldpath newpath : List Nat) : P Ret := do
  match ← xv6fsNamei oldpath with
  | none => return ⟨-1, none⟩
  | some ip =>
    xv6logBeginOp opFull
    xv6fsIlock ip
    let c ← load ip
    if c.ip.type = .dir then
      xv6fsIunlock ip
      xv6logEndOp opFull
      xv6fsIput ip
      return ⟨-1, none⟩
    else
      addLink ip 1
      xv6fsIupdate ip
      xv6fsIunlock ip
      match ← xv6fsNameiparent newpath with
      | none => linkBad ip
      | some (dp, name) =>
        xv6fsIlock dp
        let n ← xv6fsDirlink dp name ip
        xv6fsIunlock dp
        xv6fsIput dp
        if n < 0 then linkBad ip
        else
          xv6logEndOp opFull
          xv6fsIput ip
          return ⟨0, none⟩

/-! ### Calls that take a name away -/

/-- `xv6fs_unlink_path` -/
def xv6fsUnlinkPath (path : List Nat) : P Ret := do
  match ← xv6fsNameiparent path with
  | none => return ⟨-1, none⟩
  | some (dp, name) =>
    xv6logBeginOp opFull
    xv6fsIlock dp
    match ← xv6fsDirlookup dp name with
    | none => leave opFull dp ⟨-1, none⟩
    | some (ip, k) =>
      xv6fsIlock ip
      let c ← load ip
      if c.ip.type = .dir then
        xv6fsIunlock ip
        xv6fsIput ip
        leave opFull dp ⟨-1, none⟩
      else
        let _ ← writeEnt dp k .zero
        addLink ip (-1)
        xv6fsIupdate ip
        xv6fsIunlock ip
        xv6fsIput ip
        leave opFull dp ⟨0, none⟩

/-- `xv6fs_rmdir_path` -/
def xv6fsRmdirPath (path : List Nat) : P Ret := do
  match ← xv6fsNameiparent path with
  | none => return ⟨-1, none⟩
  | some (dp, name) =>
    xv6logBeginOp opFull
    xv6fsIlock dp
    match ← xv6fsDirlookup dp name with
    | none => leave opFull dp ⟨-1, none⟩
    | some (ip, k) =>
      xv6fsIlock ip
      let c ← load ip
      if c.ip.type ≠ .dir then
        xv6fsIunlock ip
        xv6fsIput ip
        leave opFull dp ⟨-1, none⟩
      else
        let _ ← writeEnt dp k .zero
        addLink dp (-1)
        xv6fsIupdate dp
        setLink ip 0
        xv6fsIupdate ip
        xv6fsIunlock ip
        xv6fsIput ip
        leave opFull dp ⟨0, none⟩

/-! ### Rename -/

/-- `dir_is_empty` on the slots of a directory. -/
def dirIsEmpty (ents : Nat → Dirent) (size : Nat) : Bool :=
  ((range (size / 64)).all fun k =>
    decide ((ents k).inum = 0 ∨ (ents k).name = dot ∨ (ents k).name = dotdot)) && decide (size % 64 = 0)

/-- `dir_reparent` -/
def dirReparent (dp parentInum : Nat) : P Int := do
  let c ← load dp
  let ents ← readDir dp
  match findEnt ents dotdot (c.ip.size / 64) with
  | none => return -1
  | some k =>
    if (← writeEnt dp k ⟨parentInum % 2 ^ 16, dotdot⟩) = 64 then return 0
    else return -1

/-- The label `out` of `xv6fs_rename_path`. -/
def renameOut (dpOld dpNew : Nat) (ip ipNew : Option Nat) (ipLocked ipNewLocked : Bool) (rc : Int) : P Ret := do
  if let some j := ipNew then
    if ipNewLocked then xv6fsIunlock j
    xv6fsIput j
  if let some i := ip then
    if ipLocked then xv6fsIunlock i
    xv6fsIput i
  xv6fsIunlock dpOld
  if dpOld ≠ dpNew then xv6fsIunlock dpNew
  xv6logEndOp opFull
  unlockRename
  xv6fsIput dpOld
  xv6fsIput dpNew
  return ⟨rc, none⟩

/-- `xv6fs_rename_path` from the update of the link counts on. -/
def renameCounts (dpOld dpNew ip : Nat) (ipNew : Option Nat) (isDir : Bool) : P Ret := do
  if let some j := ipNew then
    let c ← load j
    if c.ip.type = .dir then
      addLink dpNew (-1)
      setLink j 0
    else
      addLink j (-1)
    xv6fsIupdate j
  if isDir && decide (dpOld ≠ dpNew) then
    if (← dirReparent ip dpNew) < 0 then
      renameOut dpOld dpNew (some ip) ipNew true ipNew.isSome (-5)
    else
      addLink dpOld (-1)
      addLink dpNew 1
      xv6fsIupdate ip
      xv6fsIupdate dpOld
      if dpOld ≠ dpNew then xv6fsIupdate dpNew
      renameOut dpOld dpNew (some ip) ipNew true ipNew.isSome 0
  else
    xv6fsIupdate ip
    xv6fsIupdate dpOld
    if dpOld ≠ dpNew then xv6fsIupdate dpNew
    renameOut dpOld dpNew (some ip) ipNew true ipNew.isSome 0

/-- `xv6fs_rename_path` from its first write on. `new` is the inode and slot that are replaced. -/
def renameWrite (dpOld dpNew ip offOld : Nat) (newName : List Nat) (new : Option (Nat × Nat)) (isDir : Bool) :
    P Ret := do
  match new with
  | some (j, offNew) =>
    if (← writeEnt dpNew offNew ⟨ip % 2 ^ 16, newName⟩) ≠ 64 then
      renameOut dpOld dpNew (some ip) (some j) true true (-5)
    else
      let _ ← writeEnt dpOld offOld .zero
      renameCounts dpOld dpNew ip (some j) isDir
  | none =>
    if (← xv6fsDirlink dpNew newName ip) < 0 then
      renameOut dpOld dpNew (some ip) none true false (-28)
    else
      let _ ← writeEnt dpOld offOld .zero
      renameCounts dpOld dpNew ip none isDir

/-- `xv6fs_rename_path` once both parents are locked. -/
def renameLocked (dpOld dpNew : Nat) (oldName newName : List Nat) : P Ret := do
  match ← xv6fsDirlookup dpOld oldName with
  | none => renameOut dpOld dpNew none none false false (-2)
  | some (ip, offOld) =>
    let new ← xv6fsDirlookup dpNew newName
    let ipNew := new.map Prod.fst
    if ipNew = some ip then renameOut dpOld dpNew (some ip) ipNew false false 0
    else if ip = dpNew then renameOut dpOld dpNew (some ip) ipNew false false (-22)
    else if ipNew = some dpOld ∨ ipNew = some dpNew then
      renameOut dpOld dpNew (some ip) ipNew false false (-39)
    else
      xv6fsIlock ip
      let c ← load ip
      let isDir := decide (c.ip.type = .dir)
      match new with
      | none => renameWrite dpOld dpNew ip offOld newName none isDir
      | some (j, offNew) =>
        xv6fsIlock j
        let cj ← load j
        if isDir = true ∧ cj.ip.type ≠ .dir then
          renameOut dpOld dpNew (some ip) (some j) true true (-20)
        else if isDir = false ∧ cj.ip.type = .dir then
          renameOut dpOld dpNew (some ip) (some j) true true (-21)
        else if cj.ip.type = .dir then
          let ents ← readDir j
          if dirIsEmpty ents cj.ip.size = false then
            renameOut dpOld dpNew (some ip) (some j) true true (-39)
          else renameWrite dpOld dpNew ip offOld newName (some (j, offNew)) isDir
        else renameWrite dpOld dpNew ip offOld newName (some (j, offNew)) isDir

/-- `xv6fs_rename_path`. The parents are locked in the order of their inode numbers. -/
def xv6fsRenamePath (oldpath newpath : List Nat) : P Ret := do
  match ← xv6fsNameiparent oldpath with
  | none => return ⟨-2, none⟩
  | some (dpOld, oldName) =>
    match ← xv6fsNameiparent newpath with
    | none =>
      xv6fsIput dpOld
      return ⟨-2, none⟩
    | some (dpNew, newName) =>
      lockRename
      xv6logBeginOp opFull
      if dpOld = dpNew then
        xv6fsIlock dpOld
        renameLocked dpOld dpNew oldName newName
      else if dpOld < dpNew then
        xv6fsIlock dpOld
        xv6fsIlock dpNew
        renameLocked dpOld dpNew oldName newName
      else
        xv6fsIlock dpNew
        xv6fsIlock dpOld
        renameLocked dpOld dpNew oldName newName

/-! ### Open files -/

/-- An open without `O_CREAT`: the reference stays with the descriptor. -/
def openPath (path : List Nat) : P Ret := do
  match ← xv6fsNamei path with
  | none => return ⟨-1, none⟩
  | some ip => return ⟨0, some ip⟩

/-- `fs_read` on an xv6fs descriptor. -/
def fsRead (ip : Nat) : P Ret := do
  xv6fsIlock ip
  let _ ← load ip
  xv6fsIunlock ip
  return ⟨0, none⟩

/-- The loop of `fs_write` on an xv6fs descriptor. -/
def fsWriteLoop (ip : Nat) : Nat → Nat → List Nat → P Ret
  | 0, _, _ => return ⟨0, none⟩
  | fuel + 1, off, bs =>
    if bs = [] then return ⟨0, none⟩
    else do
      let chunk := bs.take writeChunkMax
      let opBlocks := opWrite chunk.length
      xv6logBeginOp opBlocks
      xv6fsIlock ip
      let n ← xv6fsWritei ip (off % 2 ^ 32) chunk
      xv6fsIunlock ip
      xv6logEndOp opBlocks
      if n < chunk.length then return ⟨0, none⟩
      else fsWriteLoop ip fuel (off + chunk.length) (bs.drop writeChunkMax)

/-- `fs_release_xv6fs_file`: the close of a descriptor. -/
def fsClose (ip : Nat) : P Ret := do
  xv6fsIputOp ip
  return ⟨0, none⟩

/-! ### All calls -/

inductive Call
  | ino (path : List Nat)
  | stat (path : List Nat)
  | lstat (path : List Nat)
  | readlink (path : List Nat) (bufsiz : Nat)
  | listDir (path : List Nat) (maxEntries : Nat)
  | writeFile (path : List Nat) (offset : Nat) (buf : List Nat)
  | truncate (path : List Nat) (length rounds : Nat)
  | mknod (path : List Nat)
  | create (path : List Nat) (out : Bool)
  | symlink (target linkpath : List Nat)
  | mkdir (path : List Nat)
  | link (oldpath newpath : List Nat)
  | unlink (path : List Nat)
  | rmdir (path : List Nat)
  | rename (oldpath newpath : List Nat)
  | openFile (path : List Nat)
  | read (ip : Nat)
  | write (ip off : Nat) (buf : List Nat)
  | close (ip : Nat)

/-- The program of a call. -/
def Call.code (ninodes : Nat) : Call → P Ret
  | .ino path => xv6fsInoPath path
  | .stat path => xv6fsStatPath path
  | .lstat path => xv6fsLstatPath path
  | .readlink path bufsiz => xv6fsReadlinkPath path bufsiz
  | .listDir path maxEntries => xv6fsListDir path maxEntries
  | .writeFile path offset buf => xv6fsWriteFile path offset buf
  | .truncate path length rounds => xv6fsTruncateFile path length rounds
  | .mknod path => xv6fsMknodFifo ninodes path
  | .create path out => xv6fsCreateFile ninodes path out
  | .symlink target linkpath => xv6fsSymlinkPath ninodes target linkpath
  | .mkdir path => xv6fsMkdirPath ninodes path
  | .link oldpath newpath => xv6fsLinkPath oldpath newpath
  | .unlink path => xv6fsUnlinkPath path
  | .rmdir path => xv6fsRmdirPath path
  | .rename oldpath newpath => xv6fsRenamePath oldpath newpath
  | .openFile path => openPath path
  | .read ip => fsRead ip
  | .write ip off buf => fsWriteLoop ip (buf.length + 1) off buf
  | .close ip => fsClose ip

end Orthox.Namespace
