import Orthox.Images.Cache
import Orthox.Open.Denotes

/-! `fs_get_file_data` of `kernel/fs.c` with its cache of executable images, and the calls that change files. An open for
    writing, `truncate`, `ftruncate`, `unlink`, `symlink` and `rename` drop the images of the paths they are given; writes
    through a descriptor drop none, and no call drops the images of the other paths of the file it changes. An image is
    served as long as the size fits. -/

namespace Orthox.Images
open Orthox.Blocks Orthox.Files Orthox.Open List Option
open Orthox.Cache (xv6fsReadi readi_spec)
open Orthox.Namespace (slash orRoot)
open Orthox.Paths (normalizeFsPath resolveTaskPath vfsFindMountpoint)
open Orthox.Pipes (oAccmode oRdonly)

/-! ### Loads -/

/-- `struct boot_module` -/
structure BootModule where
  path : Path
  file : View

/-- The file systems, the boot modules and the cache. -/
structure System where
  world : World
  boot : List BootModule
  cache : Cache

/-- What a load ends with; `wild` is an access to memory that was not allocated. -/
inductive Loaded where
  | failed
  | image (v : View)
  | wild

/-- `(mode & 0170000U) == KSTAT_MODE_FILE` of an inode. -/
def regular (ip : Inode) : Bool := World.xv6fsTypeMode ip &&& 0o170000 = 0o100000

/-- The pages a file needs, one at least. -/
def pagesOf (size : Nat) : Nat := if (size + pageSize - 1) / pageSize = 0 then 1 else (size + pageSize - 1) / pageSize

/-- `strcmp_suffix_fs` -/
def strcmpSuffixFs (fullPath suffix : Path) : Bool := suffix.isSuffixOf fullPath

namespace System

/-- The module whose path ends in this one. -/
def moduleAt (s : System) (path : Path) : Option BootModule := s.boot.find? fun m => strcmpSuffixFs m.path path

/-- `fs_get_file_data` on a normalized path. `pages` is where `pmm_alloc` finds the pages; on xv6fs nobody notices that it
    finds none, nor that a read fails. Paths lead nowhere while xv6fs is not mounted. -/
def getFileData (s : System) (c : Setting) (path : Path) (pages : Option Nat) : Loaded × Cache :=
  match s.world.findRamfs path with
  | some t =>
    let rf := (s.world.slots t).file
    if pages.isNone then (.failed, s.cache)
    else (((rf.readPages 0 rf.size rf.size 0 c.dst).elim .wild fun d => .image ⟨rf.size, d⟩), s.cache)
  | none =>
    match s.world.lookup (orRoot path) with
    | some i =>
      let size := (inodeAt s.world.vol i).size
      if !regular (inodeAt s.world.vol i) then (.failed, s.cache)
      else match s.cache.execCacheLookup path size with
      | (some image, cache) => (.image ⟨size, image⟩, cache)
      | (none, cache) =>
        match pages, s.world.lookup path with
        | none, _ => (.wild, cache)
        | some _, none => (.failed, cache)
        | some buf, some j =>
          let image := (xv6fsReadi c.env c.bio (inodeAt s.world.vol j) c.dst 0 (size % 2 ^ 32)).2.dst
          (.image ⟨size, image⟩, (cache.execCacheInsert path buf size (pagesOf size) image).2)
    | none => ((s.moduleAt path).elim .failed fun m => .image m.file, s.cache)

/-- `fs_get_file_data` -/
def fsGetFileData (s : System) (c : Setting) (cwd path : Path) (pages : Option Nat) : Loaded × System :=
  let r := s.getFileData c (normalPath cwd path) pages
  (r.1, { s with cache := r.2 })

/-- The load has to go to the disk. -/
def Misses (s : System) (path : Path) : Prop :=
  s.world.findRamfs path = none ∧ ∃ i, s.world.lookup (orRoot path) = some i ∧ regular (inodeAt s.world.vol i) = true ∧
    s.cache.hit path (inodeAt s.world.vol i).size = none

end System

/-- The regular file a path leads to on xv6fs. -/
def diskFile (w : World) (path : Path) : Option View :=
  (w.lookup path).bind fun i => if regular (inodeAt w.vol i) then some (viewOf w.vol i) else none

/-- The file at a path: in the ramfs, on xv6fs, or else a boot module. -/
def System.contents (s : System) (path : Path) : Option View :=
  match s.world.findRamfs path with
  | some t => some (s.world.slots t).file.view
  | none => if (s.world.lookup (orRoot path)).isSome then diskFile s.world (orRoot path) else (s.moduleAt path).map BootModule.file

/-- The load gave what the file contains; it may fail when there is none, or no memory. -/
def Loaded.Exact (want : Option View) (pages : Option Nat) : Loaded → Prop
  | .failed => want = none ∨ pages = none
  | .image v => ∃ u, want = some u ∧ u.Same v
  | .wild => False

/-! ### Calls -/

/-- `flags & O_CREAT` -/
def wantCreat (flags : BitVec 32) : Bool := flags &&& 0x40 ≠ 0

/-- `flags & O_TRUNC` -/
def wantTrunc (flags : BitVec 32) : Bool := flags &&& 0x200 ≠ 0

/-- `flags & (O_DIRECTORY | O_DIRECTORY_ARM | ORTH_LEGACY_O_DIRECTORY)` -/
def wantDir (flags : BitVec 32) : Bool := flags &&& 0x214000 ≠ 0

/-- The opens that invalidate. -/
def opensForWriting (flags : BitVec 32) : Bool := flags &&& oAccmode ≠ oRdonly || wantCreat flags || wantTrunc flags

/-- `/dev/kout` -/
def devKout : Path := [47, 100, 101, 118, 47, 107, 111, 117, 116]

/-- `xv6fs_truncate_file` by the path, after `xv6fs_create_file`; a device or a FIFO is not truncated. -/
def truncated (w : World) (path : Path) (now : Nat) : World :=
  match w.lookup path with
  | some i =>
    if (inodeAt w.vol i).type = 3 ∨ (inodeAt w.vol i).type = 4 then w
    else { w with vol := (xv6fsTruncateFile w.vol i 0 now).2 }
  | none => w

/-- `fs_open`: the file systems after it. -/
def fsOpen (w : World) (path : Path) (flags : BitVec 32) (mode now : Nat) (create : Option Done) : World :=
  if wantDir flags ∨ (vfsFindMountpoint path).isSome then w
  else match w.findRamfs path with
  | some t =>
    if isDir (w.slots t).mode ∨ ¬ wantTrunc flags then w
    else w.setSlot t { w.slots t with file := { (w.slots t).file with size := 0 }, mtime := now }
  | none =>
    if path = devKout ∨ path = devKout.tail ∨ ¬ wantCreat flags then w
    else if wantTrunc flags ∧ ¬ pathIsUnderTmp path ∧ create.any (·.res = 0) then truncated (w.after create) path now
    else w.fsOpenCreat path mode now 0 create

/-- The descriptor `fs_open` makes of an xv6fs file. -/
def installed (w : World) (path : Path) : Option FsFile :=
  (w.lookup path).map fun i => ⟨.xv6fs i, path.take 63, 0, (inodeAt w.vol i).size⟩

/-- `fs_truncate` -/
def fsTruncate (c : Setting) (w : World) (path : Path) (length : Nat) : World :=
  match w.findRamfs path with
  | some t =>
    let r := Ramfs.fsTruncate w.heap (w.slots t).file length
    w.setFile t r.2.1 r.2.2 (if r.1 < 0 then (w.slots t).mtime else c.clock 0)
  | none =>
    match w.lookup path with
    | some i => { w with vol := (xv6fsTruncateFile w.vol i length (c.clock 0)).2 }
    | none => w

/-- `fs_symlink`, after its checks `xv6fs_symlink_path`. -/
def fsSymlink (w : World) (path : Path) (symlink : Option Done) : World :=
  if pathIsUnderTmp path ∨ (w.findRamfs path).isSome then w else w.after symlink

/-- A call that may change a file or a name, by a task whose directory is `cwd`. -/
inductive Op where
  | opens (cwd path : Path) (flags : BitVec 32) (mode now : Nat) (create : Option Done)
  /-- A call through a descriptor. `pwrite64` is a write through one whose offset was set. -/
  | through (c : Setting) (cwd : Path) (flags : BitVec 32) (f : FsFile) (q : Call)
  | truncate (c : Setting) (cwd path : Path) (length : Nat)
  | unlink (cwd path : Path) (d : Option Done)
  | symlink (cwd path : Path) (d : Option Done)
  | rename (cwd old new : Path) (d : Option Done)
  | mkdir (cwd path : Path) (mode now : Nat) (there : Bool) (d : Option Done)
  | rmdir (cwd path : Path) (d : Option Done)
  /-- `mknod`, `chmod`, a link, and whatever else goes to xv6fs alone. -/
  | xv6fs (d : Done)

namespace Op

/-- The file systems after the call; `none` is an access through a wild pointer. -/
def run (w : World) : Op → Option World
  | .opens cwd path flags mode now create => some (fsOpen w (normalPath cwd path) flags mode now create)
  | .through c _ flags f q => (q.run .shared c w flags f).map fun r => r.2.2
  | .truncate c cwd path length => some (fsTruncate c w (normalPath cwd path) length)
  | .unlink cwd path d => some (w.fsUnlink (normalPath cwd path) d).2
  | .symlink cwd path d => some (fsSymlink w (normalPath cwd path) d)
  | .rename cwd old new d => some (w.fsRename (normalPath cwd old) (normalPath cwd new) d).2
  | .mkdir cwd path mode now there d => some (w.fsMkdir (normalPath cwd path) mode now 0 there d).2
  | .rmdir cwd path d => some (w.fsRmdir (normalPath cwd path) d).2
  | .xv6fs d => some (w.after (some d))

/-- The paths whose images the call names, of those it goes on with. -/
def named : Op → Option (Path × Path)
  | .opens cwd path flags .. => if opensForWriting flags then some (cwd, normalPath cwd path) else none
  | .through _ cwd _ f (.ftruncate _) => some (cwd, f.path)
  | .truncate _ cwd path _ => some (cwd, normalPath cwd path)
  | .unlink cwd path _ => some (cwd, normalPath cwd path)
  | .symlink cwd path _ => some (cwd, normalPath cwd path)
  | _ => none

/-- The checks of `fs_rename` before it invalidates. -/
def renames (old new : Path) : Bool := old ≠ [] && new ≠ [] && old ≠ new && !pathIsUnder old new

/-- The cache after the call. -/
def spoil (c : Cache) (o : Op) : Cache :=
  match o with
  | .rename cwd old new _ =>
    if renames (normalPath cwd old) (normalPath cwd new) then
      (((c.execCacheInvalidate cwd (normalPath cwd old)).execCacheInvalidate cwd (normalPath cwd new)).execCacheInvalidateTree
        (normalPath cwd old)).execCacheInvalidateTree (normalPath cwd new)
    else c
  | _ => o.named.elim c fun (cwd, raw) => c.execCacheInvalidate cwd raw

/-- The call invalidates the images of this path. -/
def Spoils (o : Op) (p : Path) : Prop :=
  match o with
  | .rename cwd old new _ => renames (normalPath cwd old) (normalPath cwd new) = true ∧
      (p = normalPath cwd (normalPath cwd old) ∨ p = normalPath cwd (normalPath cwd new) ∨
        pathIsUnder (normalPath cwd old) p = true ∨ pathIsUnder (normalPath cwd new) p = true)
  | _ => ∃ x, o.named = some x ∧ x.2 ≠ [] ∧ p = normalPath x.1 x.2

end Op

/-! ### Runs -/

/-- A load that was made, what it found and what it gave. -/
structure Load where
  sys : System
  path : Path
  pages : Option Nat
  res : Loaded

/-- The load gave what the file contained at the time. -/
def Load.Exact (l : Load) : Prop := l.res.Exact (l.sys.contents l.path) l.pages

/-- A run, with the loads so far. -/
structure Run extends System where
  log : List Load

/-- What happens: a load, the end of one, or another call. -/
inductive Event where
  | load (c : Setting) (cwd path : Path) (pages : Option Nat)
  | release (buf size : Nat)
  | op (o : Op)

/-- `none` is an access through a wild pointer in another call. -/
def Run.step (r : Run) : Event → Option Run
  | .load c cwd path pages =>
    let x := r.fsGetFileData c cwd path pages
    some ⟨x.2, ⟨r.toSystem, normalPath cwd path, pages, x.1⟩ :: r.log⟩
  | .release buf size => some { r with cache := r.cache.fsFreeExecBuffer buf size }
  | .op o => (o.run r.world).map fun w => { r with world := w, cache := o.spoil r.cache }

/-- The volume is well formed, paths lead to allocated inodes and the empty path nowhere, and `/` is no regular file. -/
structure WorldInOrder (w : World) : Prop where
  wf : WellFormed w.vol
  live : ∀ p i, w.lookup p = some i → Live w.vol i
  rooted : w.lookup [] = none
  root : ∀ i, w.lookup [slash] = some i → regular (inodeAt w.vol i) = false

/-- What the call finds is in order: open files are allocated, times fit, ramfs files have their pages, and the buffers of
    the disk show the volume. -/
def InOrder (s : System) : Event → Prop
  | .load c _ _ _ => c.bio.Shows s.world.vol.mem ∧ ∀ t, (s.world.slots t).file.Ok
  | .release .. => True
  | .op (.through c _ _ f q) =>
    (∀ i, q.target .shared s.world f = some (.xv6fs i) → Live s.world.vol i) ∧ ∀ k, c.clock k < 2 ^ 32
  | .op (.truncate c ..) => ∀ k, c.clock k < 2 ^ 32
  | .op (.opens _ _ _ _ now create) => WorldInOrder (s.world.after create) ∧ now < 2 ^ 32
  | .op _ => True

/-- The runs from boot in which every event meets `ok`. -/
inductive Reaches (ok : System → Event → Prop) : Run → Prop where
  | boot {s : System} (h : s.cache = .empty) : Reaches ok ⟨s, []⟩
  | step {r r' : Run} (h : Reaches ok r) (e : Event) (world : WorldInOrder r.world) (order : InOrder r.toSystem e)
    (hok : ok r.toSystem e) (hs : r.step e = some r') : Reaches ok r'

/-! ### When images stay right -/

/-- Afterwards the path leads to a file that has not the bytes of the one before. -/
def Alters (w w' : World) (p : Path) : Prop := ∃ v', diskFile w' p = some v' ∧ ∀ v, diskFile w p = some v → ¬ v.Same v'

/-- The call changes the file the path leads to, or what it leads to. -/
def Op.Touches (w : World) (p : Path) : Op → Prop
  | .opens cwd path flags _ _ create => wantCreat flags = true ∧ (Alters w (w.after create) p ∨
      wantTrunc flags = true ∧ ∃ i, (w.after create).lookup (normalPath cwd path) = some i ∧ (w.after create).lookup p = some i)
  | .through _ _ _ _ (.read _) => False
  | .through _ _ _ _ .fstat => False
  | .through _ _ _ f q => ∃ i, q.target .shared w f = some (.xv6fs i) ∧ w.lookup p = some i
  | .truncate _ cwd path _ => w.findRamfs (normalPath cwd path) = none ∧
      ∃ i, w.lookup (normalPath cwd path) = some i ∧ w.lookup p = some i
  | .unlink _ _ d => Alters w (w.after d) p
  | .symlink _ _ d => Alters w (w.after d) p
  | .rename _ _ _ d => Alters w (w.after d) p
  | .mkdir _ _ _ _ _ d => Alters w (w.after d) p
  | .rmdir _ _ d => Alters w (w.after d) p
  | .xv6fs d => Alters w (w.after (some d)) p

/-- No call changes a file whose image it leaves in the cache, and a load that has to go to the disk gets its pages and can
    read. -/
def Careful (s : System) : Event → Prop
  | .load c cwd path pages => s.Misses (normalPath cwd path) → pages.isSome = true ∧ c.env.Reads
  | .release .. => True
  | .op o => ∀ k, s.cache.Keeps k → ¬ o.Spoils (s.cache.slots k).path → ¬ o.Touches s.world (s.cache.slots k).path

/-- Every image the cache would serve is that of the file its path leads to. -/
def Coherent (s : System) : Prop :=
  ∀ k, s.cache.Keeps k → ∀ v, diskFile s.world (s.cache.slots k).path = some v → v.size = (s.cache.slots k).size →
    v.Same ⟨(s.cache.slots k).size, (s.cache.slots k).image⟩

/-- What is kept along a run. -/
structure Holds (r : Run) : Prop where
  accounted : r.cache.Accounted
  coherent : Coherent r.toSystem
  log : ∀ l ∈ r.log, l.Exact

/-! ### Loads are exact -/

variable {c : Setting} {i now : Nat} {path cwd : Path} {pages : Option Nat}

theorem same_trans {a b c : View} (h : a.Same b) (h' : b.Same c) : a.Same c :=
  ⟨h'.1.trans h.1, fun p hp => (h'.2 p (h.1 ▸ hp)).trans (h.2 p hp)⟩

theorem same_symm {a b : View} (h : a.Same b) : b.Same a := ⟨h.1.symm, fun p hp => (h.2 p (h.1 ▸ hp)).symm⟩

variable {p : Path}

theorem diskFile_of_lookup {w : World} (h : w.lookup p = some i) :
    diskFile w p = if regular (inodeAt w.vol i) then some (viewOf w.vol i) else none := by
  rw [diskFile, h, bind_some]

section
variable {s : System} {d : Cache}

theorem Coherent.part (h : Coherent s) (hp : s.cache.Part d) : Coherent { s with cache := d } := by
  intro k hk v hv hsize
  obtain ⟨hold, hpath, hsz, himage⟩ := hp.kept k hk
  rw [hpath] at hv
  rw [hsz] at hsize
  rw [hsz, himage]
  exact h k hold v hv hsize

/-- A right image may be inserted. -/
theorem Coherent.inserted {size : Nat} {image : Nat → BitVec 8} (h : Coherent s) (hlen : path.length ≤ 255)
    (hnew : ∀ v, diskFile s.world path = some v → v.Same ⟨size, image⟩) (hi : Cache.Inserted path size image s.cache d) :
    Coherent { s with cache := d } := by
  intro k hk v hv hsize
  rcases hi.kept k hk with ⟨hold, hpath, hsz, himage⟩ | ⟨hpath, hsz, himage⟩
  · rw [hpath] at hv
    rw [hsz] at hsize
    rw [hsz, himage]
    exact h k hold v hv hsize
  · rw [hpath, Cache.execCacheSetPath, take_of_length_le hlen] at hv
    rw [hsz, himage]
    exact hnew v hv

/-- What a load gives, and the cache after it. -/
structure LoadedRight (s : System) (path : Path) (pages : Option Nat) (r : Loaded × Cache) : Prop where
  exact : r.1.Exact (s.contents path) pages
  coherent : Coherent { s with cache := r.2 }
  accounted : s.cache.Accounted → r.2.Accounted

/-- The copy of a ramfs file. -/
theorem ramfs_loaded {t : Nat} (ht : s.world.findRamfs path = some t)
    (hok : (s.world.slots t).file.Ok) (hcoh : Coherent s) : LoadedRight s path pages (s.getFileData c path pages) := by
  have hcontents : s.contents path = some (s.world.slots t).file.view := by rw [System.contents, ht]
  have hsize := hok.size
  have hfits := hok.fits
  have hwhole := hok.whole
  have hpages : ∀ p, 0 ≤ p → p < 0 + (s.world.slots t).file.size → ((s.world.slots t).file.pages (p / pageSize)).isSome := by
    intro p _ hp
    rw [hok.pages]
    unfold pageSize at *
    omega
  obtain ⟨d, hd, hbytes⟩ := Ramfs.readPages_spec (by omega) hpages (s.world.slots t).file.size 0 c.dst (by omega) (Nat.zero_le _)
    fun j hj => (Nat.not_lt_zero j hj).elim
  simp only [System.getFileData, ht]
  rcases pages with _ | buf
  · exact ⟨.inr rfl, hcoh, id⟩
  rw [hd]
  refine ⟨⟨_, hcontents, rfl, fun p hp => ?_⟩, hcoh, id⟩
  have hbyte := hbytes p hp
  rw [zero_add] at hbyte
  exact hbyte

theorem pagesOf_ne_zero (size : Nat) : pagesOf size ≠ 0 := by
  unfold pagesOf
  split
  · exact one_ne_zero
  · assumption

/-- A file of xv6fs, from the cache or from the disk. -/
theorem disk_loaded (hram : s.world.findRamfs path = none)
    (hi : s.world.lookup (orRoot path) = some i) (hw : WorldInOrder s.world) (hshows : c.bio.Shows s.world.vol.mem)
    (hlen : path.length ≤ 255) (hcare : s.Misses path → pages.isSome ∧ c.env.Reads) (hcoh : Coherent s) :
    LoadedRight s path pages (s.getFileData c path pages) := by
  have hcontents : s.contents path = if regular (inodeAt s.world.vol i) then some (viewOf s.world.vol i) else none := by
    rw [System.contents, hram]
    simp only [hi, isSome_some]
    exact diskFile_of_lookup hi
  simp only [System.getFileData, hram, hi]
  rcases hreg : regular (inodeAt s.world.vol i) with _ | _
  · rw [hreg] at hcontents
    exact ⟨.inl hcontents, hcoh, id⟩
  rw [hreg] at hcontents
  -- not `/`, so not the empty path
  have hpath : orRoot path = path := by
    rcases eq_or_ne path [] with rfl | hne
    · rw [hw.root i hi] at hreg
      cases hreg
    · exact if_neg hne
  rw [hpath] at hi
  have hfile : diskFile s.world path = some (viewOf s.world.vol i) := by rw [diskFile_of_lookup hi, hreg, if_pos rfl]
  obtain ⟨hpart, hhit⟩ := s.cache.lookup_spec path (inodeAt s.world.vol i).size
  simp only [Bool.not_true, Bool.false_eq_true, if_false]
  split
  · rename_i image cache hlook
    rw [hlook] at hpart hhit
    obtain ⟨k, hk, hsize, hname, himage⟩ := hhit image rfl
    have hsame := hcoh k hk _ (hname ▸ hfile) hsize.symm
    rw [hsize, himage] at hsame
    exact ⟨⟨_, hcontents, hsame⟩, hcoh.part hpart, hpart.accounted⟩
  rename_i cache hlook
  rw [hlook] at hpart
  have hmiss : s.cache.hit path (inodeAt s.world.vol i).size = none := by
    simp only [Cache.execCacheLookup] at hlook
    split at hlook
    · cases hlook
    · assumption
  obtain ⟨hpages, hreads⟩ := hcare ⟨hram, i, by rw [hpath]; exact hi, hreg, hmiss⟩
  obtain ⟨buf, rfl⟩ := isSome_iff_exists.mp hpages
  have hlt := inodeAt_size_lt s.world.vol i
  obtain ⟨-, hbytes, -⟩ := readi_spec hshows hreads c.dst (Nat.zero_le (inodeAt s.world.vol i).size)
    (by rw [zero_add]; exact Nat.mod_lt _ (by decide) : 0 + (inodeAt s.world.vol i).size % 2 ^ 32 < 2 ^ 32)
  simp only [hi]
  rw [Nat.mod_eq_of_lt hlt] at hbytes ⊢
  set image := (xv6fsReadi c.env c.bio (inodeAt s.world.vol i) c.dst 0 (inodeAt s.world.vol i).size).2.dst with himage
  have hsame : (viewOf s.world.vol i).Same ⟨(inodeAt s.world.vol i).size, image⟩ := by
    refine ⟨rfl, fun p hp => ?_⟩
    have := hbytes p (by rw [Nat.sub_zero, min_self]; exact hp)
    rw [zero_add] at this
    exact this
  have hins : Cache.Inserted path (inodeAt s.world.vol i).size image cache (cache.execCacheInsert path buf _ _ image).2 :=
    Cache.insert_inserted cache (pagesOf_ne_zero (inodeAt s.world.vol i).size)
  refine ⟨⟨_, hcontents, hsame⟩, hcoh.inserted hlen (fun v hv => ?_) (hpart.then_inserted hins), hins.accounted ∘ hpart.accounted⟩
  obtain rfl := some.inj (hfile.symm.trans hv)
  exact hsame

theorem getFileData_loaded (hw : WorldInOrder s.world)
    (hshows : c.bio.Shows s.world.vol.mem) (hok : ∀ t, (s.world.slots t).file.Ok) (hlen : path.length ≤ 255)
    (hcare : s.Misses path → pages.isSome ∧ c.env.Reads) (hcoh : Coherent s) :
    LoadedRight s path pages (s.getFileData c path pages) := by
  rcases hram : s.world.findRamfs path with _ | t
  · rcases hi : s.world.lookup (orRoot path) with _ | i
    · have hcontents : s.contents path = (s.moduleAt path).map BootModule.file := by
        rw [System.contents, hram]
        simp only [hi, isSome_none, Bool.false_eq_true, if_false]
      simp only [System.getFileData, hram, hi]
      refine ⟨?_, hcoh, id⟩
      rw [hcontents]
      rcases s.moduleAt path with _ | m
      · exact .inl rfl
      · exact ⟨_, rfl, .refl _⟩
    · exact disk_loaded hram hi hw hshows hlen hcare hcoh
  · exact ramfs_loaded hram (hok t) hcoh

end

/-! ### What a call leaves alone -/

/-- If the path leads to a file afterwards, it did before, and to the same bytes. -/
def Quiet (w w' : World) (p : Path) : Prop := ∀ v', diskFile w' p = some v' → ∃ v, diskFile w p = some v ∧ v.Same v'

theorem quiet_of_not_alters {w w' : World} (h : ¬ Alters w w' p) : Quiet w w' p := by
  intro v' hv'
  by_contra hno
  exact h ⟨v', hv', fun v hv hsame => hno ⟨v, hv, hsame⟩⟩

namespace Quiet
variable {w w' w'' : World} {p : Path}

/-- Nothing on xv6fs was touched. -/
theorem of_eq (hvol : w'.vol = w.vol) (hlookup : w'.lookup = w.lookup) : Quiet w w' p := by
  intro v' hv'
  rw [diskFile, hvol, hlookup] at hv'
  exact ⟨v', hv', .refl v'⟩

theorem refl (w : World) (p : Path) : Quiet w w p := of_eq rfl rfl

theorem trans (h : Quiet w w' p) (h' : Quiet w' w'' p) : Quiet w w'' p := by
  intro v'' hv''
  obtain ⟨v', hv', hsame'⟩ := h' v'' hv''
  obtain ⟨v, hv, hsame⟩ := h v' hv'
  exact ⟨v, hv, same_trans hsame hsame'⟩

/-- A call that goes to one object leaves the files of other paths alone. -/
theorem of_onlyOn {o : Open.Node} (hw : WorldInOrder w) (h : OnlyOn o w w') (hne : ∀ i, o = .xv6fs i → w.lookup p ≠ some i) :
    Quiet w w' p := by
  intro v' hv'
  rw [diskFile, h.lookup] at hv'
  rcases hp : w.lookup p with _ | j
  · rw [hp] at hv'
    cases hv'
  rw [hp, bind_some] at hv'
  obtain ⟨hinode, hdata⟩ := h.xv6fs j (hw.live p j hp) fun ho => hne j ho hp
  have hview : viewOf w'.vol j = viewOf w.vol j := by rw [viewOf, viewOf, hdata, hinode]
  rw [hinode, hview] at hv'
  exact ⟨v', (diskFile_of_lookup hp).trans hv', .refl v'⟩

end Quiet

/-- The part of the file systems that is xv6fs. -/
def disk (w : World) : Vol × (Path → Option Nat) := (w.vol, w.lookup)

/-- `w'` has xv6fs as it was, or as an xv6fs function left it. -/
def DiskOf (w : World) (d : Option Done) (w' : World) : Prop := disk w' = disk w ∨ disk w' = disk (w.after d)

namespace DiskOf
variable {w w' : World} {d : Option Done}

theorem quiet (h : DiskOf w d w') (hd : ¬ Alters w (w.after d) p) : Quiet w w' p := by
  rcases h with h | h
  · exact .of_eq (congrArg Prod.fst h) (congrArg Prod.snd h)
  · exact (quiet_of_not_alters hd).trans (.of_eq (congrArg Prod.fst h) (congrArg Prod.snd h))

theorem fsUnlink (path : Path) : DiskOf w d (w.fsUnlink path d).2 := by
  simp only [World.fsUnlink]
  split
  · exact .inr rfl
  split
  · exact .inr rfl
  split
  · exact .inr rfl
  · exact .inr rfl

theorem fsRmdir (path : Path) : DiskOf w d (w.fsRmdir path d).2 := by
  simp only [World.fsRmdir]
  split
  · exact .inl rfl
  split
  · exact .inr rfl
  split
  · exact .inr rfl
  split
  · exact .inr rfl
  · exact .inr rfl

theorem fsMkdir (path : Path) (mode now id : Nat) (there : Bool) : DiskOf w d (w.fsMkdir path mode now id there d).2 := by
  simp only [World.fsMkdir]
  split
  · exact .inl rfl
  split
  · exact .inl rfl
  split
  · rename_i x hx
    split
    · exact .inl rfl
    split at hx
    · cases hx
    · exact hx ▸ .inr rfl
  · split
    · rename_i w' hw'
      obtain ⟨t, -, rfl⟩ := map_eq_some_iff.mp hw'
      exact .inl rfl
    · exact .inl rfl

theorem createRamfs {w₀ : World} (h : disk w₀ = disk w ∨ disk w₀ = disk (w.after d)) (path : Path) (mode now id : Nat) :
    DiskOf w d ((w₀.createRamfs path mode now id).getD w₀) := by
  rcases hc : w₀.createRamfs path mode now id with _ | w₁
  · exact h
  · obtain ⟨t, -, rfl⟩ := map_eq_some_iff.mp hc
    exact h

theorem fsOpenCreat (path : Path) (mode now id : Nat) : DiskOf w d (w.fsOpenCreat path mode now id d) := by
  unfold World.fsOpenCreat
  split
  · exact .inl rfl
  split
  · exact .createRamfs (.inl rfl) ..
  split
  · exact .inr rfl
  · exact .createRamfs (.inr rfl) ..

theorem fsSymlink (path : Path) : DiskOf w d (fsSymlink w path d) := by
  unfold Images.fsSymlink
  split
  · exact .inl rfl
  · exact .inr rfl

/-- The ramfs part of a rename. -/
theorem setSlot_renamed (t : Nat) (target : Option Nat) (dir : Bool) (old new : Path) (f : World → Slot) :
    let w₁ := target.elim w w.ramfsFreeEntry
    let w₂ := if dir then w₁.ramfsRenameSubtree old new else w₁
    DiskOf w d (w₂.setSlot t (f w₂)) := by
  intro w₁ w₂
  rcases target with _ | u
  · cases dir <;> exact .inl rfl
  · cases dir <;> exact .inl rfl

theorem ite {x y : Int × World} {c : Prop} [Decidable c] (hx : DiskOf w d x.2) (hy : DiskOf w d y.2) :
    DiskOf w d (if c then x else y).2 := by
  split
  · exact hx
  · exact hy

theorem fsRename (old new : Path) : DiskOf w d (w.fsRename old new d).2 := by
  refine .ite (.inl rfl) (.ite (.inl rfl) (.ite (.inl rfl) ?_))
  rcases w.findRamfs old with _ | t
  · exact .ite (.inl rfl) (.inr rfl)
  · exact .ite (.inl rfl) (.ite (.inl rfl) (.ite (.inl rfl) (.ite (.inl rfl) (.ite (.inl rfl) (.ite (.inl rfl)
      (setSlot_renamed t _ _ old new fun w => { w.slots t with name := new }))))))

end DiskOf

section
variable {w w' : World} {p : Path} {flags : BitVec 32} {length : Nat}

theorem truncate_quiet (hw : WorldInOrder w) (hi : Live w.vol i) (hn : now < 2 ^ 32)
    (hne : w.lookup p ≠ some i) : Quiet w { w with vol := (xv6fsTruncateFile w.vol i length now).2 } p := by
  refine .of_onlyOn hw (.vol (truncate_within hw.wf hi length hn)) fun j hj => ?_
  obtain rfl := Open.Node.xv6fs.inj hj
  exact hne

theorem truncated_quiet (hw : WorldInOrder w) (hn : now < 2 ^ 32)
    (hne : ∀ i, w.lookup path = some i → w.lookup p ≠ some i) : Quiet w (truncated w path now) p := by
  unfold truncated
  split
  · rename_i i hi
    split
    · exact .refl w p
    · exact truncate_quiet hw (hw.live path i hi) hn (hne i hi)
  · exact .refl w p

theorem fsOpen_quiet {mode : Nat} {create : Option Done}
    (hw : WorldInOrder (w.after create)) (hn : now < 2 ^ 32) (h : ¬ (Op.opens cwd path flags mode now create).Touches w p) :
    Quiet w (fsOpen w (normalPath cwd path) flags mode now create) p := by
  unfold fsOpen
  split
  · exact .refl w p
  split
  · split
    · exact .refl w p
    · exact .of_eq rfl rfl
  split
  · exact .refl w p
  rename_i hcreat
  have hwant : wantCreat flags := by
    rcases hc : wantCreat flags with _ | _
    · exact (hcreat (.inr (.inr (by rw [hc]; decide)))).elim
    · rfl
  have hquiet : ¬ Alters w (w.after create) p := fun ha => h ⟨hwant, .inl ha⟩
  split
  · rename_i htrunc
    refine (quiet_of_not_alters hquiet).trans (truncated_quiet hw hn fun i hi hp => ?_)
    exact h ⟨hwant, .inr ⟨htrunc.1, i, hi, hp⟩⟩
  · exact (DiskOf.fsOpenCreat _ _ _ _).quiet hquiet

theorem fsTruncate_quiet (hw : WorldInOrder w) (hn : ∀ k, c.clock k < 2 ^ 32)
    (h : ¬ (Op.truncate c cwd path length).Touches w p) : Quiet w (fsTruncate c w (normalPath cwd path) length) p := by
  unfold fsTruncate
  split
  · exact .of_eq rfl rfl
  rename_i hram
  split
  · rename_i i hi
    exact truncate_quiet hw (hw.live _ i hi) (hn 0) fun hp => h ⟨hram, i, hi, hp⟩
  · exact .refl w p

/-- A call through a descriptor goes to one object. -/
theorem through_quiet {f : FsFile} {q : Call} {x : Reply × FsFile × World}
    (hw : WorldInOrder w) (hlive : ∀ i, q.target .shared w f = some (.xv6fs i) → Live w.vol i) (hn : ∀ k, c.clock k < 2 ^ 32)
    (hx : q.run .shared c w flags f = some x) (h : ¬ (Op.through c cwd flags f q).Touches w p) : Quiet w x.2.2 p := by
  unfold Call.run at hx
  rcases ho : q.target .shared w f with _ | o
  · rw [ho] at hx
    cases q with
    | read => cases hx
    | write | ftruncate | fstat => exact some.inj hx ▸ .refl w p
  rw [ho] at hx
  cases q with
  | read count =>
    cases o with
    | xv6fs i => exact some.inj hx ▸ .refl w p
    | ramfs t =>
      obtain ⟨y, -, rfl⟩ := map_eq_some_iff.mp hx
      exact .refl w p
  | fstat => exact some.inj hx ▸ .refl w p
  | write | ftruncate =>
    exact .of_onlyOn hw (on_kept hw.wf (fun i hi => hlive i (ho.trans (congrArg some hi))) hn hx).only fun i hi hp =>
      h ⟨i, ho.trans (congrArg some hi), hp⟩

variable {s : System}

/-- A call that does not touch a path's file leaves it as it was. -/
theorem run_quiet {o : Op} (hw : WorldInOrder s.world) (order : InOrder s (.op o)) (hrun : o.run s.world = some w')
    (h : ¬ o.Touches s.world p) : Quiet s.world w' p := by
  cases o with
  | opens cwd path flags mode now create => exact some.inj hrun ▸ fsOpen_quiet order.1 order.2 h
  | through c cwd flags f q =>
    obtain ⟨x, hx, rfl⟩ := map_eq_some_iff.mp hrun
    exact through_quiet hw order.1 order.2 hx h
  | truncate c cwd path length => exact some.inj hrun ▸ fsTruncate_quiet hw order h
  | unlink => exact some.inj hrun ▸ (DiskOf.fsUnlink _).quiet h
  | symlink => exact some.inj hrun ▸ (DiskOf.fsSymlink _).quiet h
  | rename => exact some.inj hrun ▸ (DiskOf.fsRename _ _).quiet h
  | mkdir => exact some.inj hrun ▸ (DiskOf.fsMkdir ..).quiet h
  | rmdir => exact some.inj hrun ▸ (DiskOf.fsRmdir _).quiet h
  | xv6fs d => exact some.inj hrun ▸ quiet_of_not_alters h

end

/-- An invalidation, or none, keeps a part of the images, and none of the path it is for. -/
theorem spoil_named (c : Cache) (x : Option (Path × Path)) :
    let d := x.elim c fun y => c.execCacheInvalidate y.1 y.2
    c.Part d ∧ (c.Accounted → ∀ k, d.Keeps k → ¬ ∃ y, x = some y ∧ y.2 ≠ [] ∧ (d.slots k).path = normalPath y.1 y.2) := by
  rcases x with _ | y
  · exact ⟨.refl c, fun _ _ _ => by rintro ⟨y, hy, -⟩; cases hy⟩
  obtain ⟨hpart, hall⟩ := c.invalidate_spec y.1 y.2
  refine ⟨hpart, fun hc k hk => ?_⟩
  rintro ⟨z, hz, hne, hpath⟩
  obtain rfl := some.inj hz
  exact hall hne hc k hk hpath

theorem spoil_rename {c : Cache} {old new : Path} (d : Option Done) :
    c.Part ((Op.rename cwd old new d).spoil c) ∧ (c.Accounted → ∀ k, ((Op.rename cwd old new d).spoil c).Keeps k →
      ¬ (Op.rename cwd old new d).Spoils (((Op.rename cwd old new d).spoil c).slots k).path) := by
  simp only [Op.spoil, Op.Spoils]
  rcases hr : Op.renames (normalPath cwd old) (normalPath cwd new) with _ | _
  · exact ⟨.refl c, fun _ _ _ h => by cases h.1⟩
  rw [if_pos rfl]
  simp only [Op.renames, Bool.and_eq_true, decide_eq_true_eq] at hr
  obtain ⟨⟨⟨hold, hnew⟩, -⟩, -⟩ := hr
  obtain ⟨p₁, h₁⟩ := c.invalidate_spec cwd (normalPath cwd old)
  obtain ⟨p₂, h₂⟩ := (c.execCacheInvalidate cwd (normalPath cwd old)).invalidate_spec cwd (normalPath cwd new)
  set c₂ := (c.execCacheInvalidate cwd (normalPath cwd old)).execCacheInvalidate cwd (normalPath cwd new)
  obtain ⟨p₃, h₃⟩ := c₂.invalidateTree_spec (normalPath cwd old)
  obtain ⟨p₄, h₄⟩ := (c₂.execCacheInvalidateTree (normalPath cwd old)).invalidateTree_spec (normalPath cwd new)
  refine ⟨((p₁.trans p₂).trans p₃).trans p₄, fun hc k hk => ?_⟩
  -- what is kept was kept by every round, under one path
  obtain ⟨k₃, e₃, -⟩ := p₄.kept k hk
  obtain ⟨k₂, e₂, -⟩ := p₃.kept k k₃
  obtain ⟨k₁, e₁, -⟩ := p₂.kept k k₂
  have a₁ := p₁.accounted hc
  have a₂ := p₂.accounted a₁
  have a₃ := p₃.accounted a₂
  rintro ⟨-, h | h | h | h⟩
  · exact h₁ hold hc k k₁ ((e₁.symm.trans (e₂.symm.trans e₃.symm)).trans h)
  · exact h₂ hnew a₁ k k₂ ((e₂.symm.trans e₃.symm).trans h)
  · have := h₃ hold a₂ k k₃
    rw [e₃, this] at h
    cases h
  · have := h₄ hnew a₃ k hk
    rw [this] at h
    cases h

/-- The call keeps a part of the images, and none of those it invalidates. -/
theorem spoil_spec (c : Cache) (o : Op) :
    c.Part (o.spoil c) ∧ (c.Accounted → ∀ k, (o.spoil c).Keeps k → ¬ o.Spoils ((o.spoil c).slots k).path) := by
  have hnamed := spoil_named c o.named
  cases o with
  | rename cwd old new d => exact spoil_rename d
  | _ => exact hnamed

/-! ### Whole runs -/

variable {v : Vol} {r : Run}

theorem Holds.op {o : Op} {w : World} (h : Holds r) (hw : WorldInOrder r.world) (order : InOrder r.toSystem (.op o))
    (hok : Careful r.toSystem (.op o)) (hrun : o.run r.world = some w) :
    Holds { r with world := w, cache := o.spoil r.cache } := by
  obtain ⟨hpart, hspoils⟩ := spoil_spec r.cache o
  refine ⟨hpart.accounted h.accounted, fun k hk v hv hsize => ?_, h.log⟩
  have hnot := hspoils h.accounted k hk
  obtain ⟨hold, hpath, hsz, himage⟩ := hpart.kept k hk
  rw [hpath] at hv hnot
  rw [hsz] at hsize
  rw [hsz, himage]
  obtain ⟨u, hu, hsame⟩ := run_quiet hw order hrun (hok k hold hnot) v hv
  exact same_trans (same_symm hsame) (h.coherent k hold u hu (hsame.1.symm.trans hsize))

theorem normalPath_length_le (cwd path : Path) : (normalPath cwd path).length ≤ 255 := by
  have hle := Paths.length_resolveTaskPath_le cwd path
  unfold normalPath normalizeFsPath
  split
  · have hdrop := length_dropWhile_le (fun c => decide (c = slash)) ((resolveTaskPath cwd path).drop 2)
    rw [length_drop] at hdrop
    omega
  · exact hle

theorem Holds.step {r' : Run} {e : Event} (h : Holds r) (hw : WorldInOrder r.world) (order : InOrder r.toSystem e)
    (hok : Careful r.toSystem e) (hs : r.step e = some r') : Holds r' := by
  cases e with
  | load c cwd path pages =>
    obtain rfl := some.inj hs
    have hload := getFileData_loaded hw order.1 order.2 (normalPath_length_le cwd path) hok h.coherent
    refine ⟨hload.accounted h.accounted, hload.coherent, fun l hl => ?_⟩
    rcases mem_cons.mp hl with rfl | hl
    · exact hload.exact
    · exact h.log l hl
  | release buf size =>
    obtain rfl := some.inj hs
    have hpart := r.cache.free_part buf size
    exact ⟨hpart.accounted h.accounted, h.coherent.part hpart, h.log⟩
  | op o =>
    obtain ⟨w, hrun, rfl⟩ := map_eq_some_iff.mp hs
    exact h.op hw order hok hrun

/-- CORRECT as far as it goes: in every run in which no call changes a file whose image it leaves in the cache, and loads
    that have to go to the disk find memory and can read, every load gives the bytes the file has at that time. -/
theorem loads_are_exact {r : Run} (h : Reaches Careful r) : ∀ l ∈ r.log, l.Exact := by
  have hr : Holds r := by
    induction h with
    | boot h =>
      refine ⟨?_, fun k hk => ?_, nofun⟩
      · rw [h]
        exact Cache.empty_accounted
      · rw [h] at hk
        cases hk.valid
    | step _ e world order hok hs ih => exact ih.step world order hok hs
  exact hr.log

/-! ### Small runs -/

/-- `/a` -/
def pathA : Path := [47, 97]

/-- A volume on which `/a` leads to inode 1, and no ramfs file. -/
def oneFile (v : Vol) : World where
  vol := v
  lookup := fun p => if p = pathA then some 1 else none
  heap := ⟨fun _ _ => false, 0⟩
  slots := fun _ => ⟨false, [], 0, 0, .empty, 0⟩
  modules := fun _ => none

theorem oneFile_inOrder (hwf : WellFormed v) (hlive : Live v 1) : WorldInOrder (oneFile v) where
  wf := hwf
  live := by
    intro p i hi
    simp only [oneFile] at hi
    split at hi
    · obtain rfl := some.inj hi
      exact hlive
    · cases hi
  rooted := rfl
  root := nofun

/-- A byte of zero in `/a`, and nothing in the cache. -/
def Run.start : Run := ⟨⟨oneFile tinyOne, [], .empty⟩, []⟩

/-- `/a` is opened with `O_RDWR`. -/
def Event.openA : Event := .op (.opens [47] pathA 2 0 0 none)

/-- `/a` is loaded. -/
def Event.loadA (v : Vol) (buf : Nat) : Event := .load (.plain v) [47] pathA (some buf)

/-- What the open makes. -/
def fileA : FsFile := ⟨.xv6fs 1, pathA, 0, 1⟩

/-- A byte is written through it. -/
def Event.writeA : Event := .op (.through (.plain tinyOne) [47] 2 fileA (.write (fun _ => 7) 1))

/-- The volume after that. -/
def written : Vol := (Files.fsWrite tinyOne 1 ⟨0, false⟩ (fun _ => 7) 1 (Setting.plain tinyOne).clock).2.2

theorem tinyOne_changed : ∃ ip, Changed (tiny 9) 1 tinyOne ip :=
  ⟨_, (resize_spec (tiny_wellFormed (by decide)) (tiny_one 9) (by decide) (Nat.two_pow_pos 32)).1⟩

theorem tinyOne_inOrder : WorldInOrder (oneFile tinyOne) := by
  obtain ⟨ip, hc⟩ := tinyOne_changed
  exact oneFile_inOrder hc.wf hc.live

theorem written_changed : ∃ ip, Changed tinyOne 1 written ip := by
  obtain ⟨ip, hc⟩ := tinyOne_changed
  have hclock : ∀ k, (Setting.plain tinyOne).clock k < 2 ^ 32 := fun _ => Nat.two_pow_pos 32
  have hspec := fsWrite_spec hc.wf hc.live ⟨0, false⟩ (fun _ => 7) 1 hclock
  obtain ⟨ip', hw⟩ := hspec.2.2 (by decide)
  exact ⟨ip', hw.toChanged⟩

theorem written_inOrder : WorldInOrder (oneFile written) := by
  obtain ⟨ip, hc⟩ := written_changed
  exact oneFile_inOrder hc.wf hc.live

theorem openA_inOrder : InOrder Run.start.toSystem .openA := ⟨tinyOne_inOrder, by decide⟩

theorem writeA_inOrder (h : s.world = oneFile tinyOne) : InOrder s .writeA := by
  refine ⟨fun i hi => ?_, fun _ => Nat.two_pow_pos 32⟩
  obtain rfl := Open.Node.xv6fs.inj (some.inj hi)
  rw [h]
  exact tinyOne_inOrder.live pathA 1 rfl

theorem loadA_inOrder (h : s.world = oneFile v) (buf : Nat) : InOrder s (.loadA v buf) := by
  refine ⟨?_, fun t => ?_⟩
  · rw [h]
    exact plain_shows v
  · rw [h]
    exact Ramfs.empty_ok

/-- A write before the first load: both loads give the byte that was written. -/
theorem loads_are_exact_written :
    ∃ r, [Event.openA, .writeA, .loadA written 1, .loadA written 2].foldlM Run.step Run.start = some r ∧ r.log.length = 2 ∧
      ∀ l ∈ r.log, l.Exact := by
  have hopen : Reaches Careful .start :=
    .step (.boot rfl) .openA tinyOne_inOrder openA_inOrder (fun k hk => by cases hk.valid) rfl
  have hwrite : Reaches Careful { Run.start with world := oneFile written } :=
    hopen.step .writeA tinyOne_inOrder (writeA_inOrder rfl) (fun k hk => by cases hk.valid) rfl
  have hload := hwrite.step (.loadA written 1) written_inOrder (loadA_inOrder rfl 1) (fun _ => ⟨rfl, fun _ => rfl⟩) rfl
  have hagain := hload.step (.loadA written 2) written_inOrder (loadA_inOrder rfl 2) (fun _ => ⟨rfl, fun _ => rfl⟩) rfl
  exact ⟨_, rfl, rfl, loads_are_exact hagain⟩

/-- The first byte a load gave. -/
def Loaded.first : Loaded → Option (BitVec 8)
  | .image v => some (v.data 0)
  | _ => none

theorem Loaded.Exact.first {want : Option View} {r : Loaded} (h : r.Exact want pages) {b : BitVec 8}
    (hb : r.first = some b) : ∃ u, want = some u ∧ (0 < u.size → u.data 0 = b) := by
  cases r with
  | failed | wild => cases hb
  | image v =>
    obtain ⟨u, hu, hsame⟩ := h
    exact ⟨u, hu, fun hpos => (hsame.2 0 hpos).symm.trans (some.inj hb)⟩

/-- After the first load. -/
def Run.loaded : Run := ⟨(Run.start.fsGetFileData (.plain tinyOne) [47] pathA (some 1)).2,
  [⟨Run.start.toSystem, pathA, some 1, (Run.start.fsGetFileData (.plain tinyOne) [47] pathA (some 1)).1⟩]⟩

/-- After the write. -/
def Run.rewritten : Run := { Run.loaded with world := oneFile written }

/-- INCORRECT in general: `/a` is opened for writing and loaded; a byte is written over its only one through the
    descriptor. The next load still gives the old byte. -/
theorem load_after_write_stale : installed (oneFile tinyOne) pathA = some fileA ∧
    ∃ r, [Event.openA, .loadA tinyOne 1, .writeA, .loadA written 2].foldlM Run.step Run.start = some r ∧
      Reaches (fun _ _ => True) r ∧ ∃ l ∈ r.log, ¬ l.Exact := by
  have hopen : Reaches (fun _ _ => True) .start := .step (.boot rfl) .openA tinyOne_inOrder openA_inOrder trivial rfl
  have hload : Reaches (fun _ _ => True) .loaded :=
    hopen.step (.loadA tinyOne 1) tinyOne_inOrder (loadA_inOrder rfl 1) trivial rfl
  have hwrite : Reaches (fun _ _ => True) .rewritten := hload.step .writeA tinyOne_inOrder (writeA_inOrder rfl) trivial rfl
  have hagain := hwrite.step (.loadA written 2) written_inOrder (loadA_inOrder rfl 2) trivial rfl
  have hinstalled : installed (oneFile tinyOne) pathA = some fileA := by
    rfl
  refine ⟨hinstalled, _, rfl, hagain, _, mem_cons_self, fun hexact => ?_⟩
  have hgot : (Run.rewritten.fsGetFileData (.plain written) [47] pathA (some 2)).1.first = some 0 := by decide +kernel
  have hfile : (Run.rewritten.contents (normalPath [47] pathA)).map (fun v => (v.size, v.data 0)) = some (1, 7) := by
    decide +kernel
  obtain ⟨u, hu, hbyte⟩ := hexact.first hgot
  rw [show Run.rewritten.contents (normalPath [47] pathA) = some u from hu] at hfile
  obtain ⟨hone, hseven⟩ := Prod.mk.inj (some.inj hfile)
  have := (hbyte (by omega)).symm.trans hseven
  exact absurd this (by decide)

end Orthox.Images
