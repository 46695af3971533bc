import Orthox.Paths.Resolve

/-! What the calls that take a path ask the file systems for, next to what the complete path names. A call asks one
    file system after the other; each takes the string its own way: xv6fs by elements of at most 62 bytes, ramfs as a
    whole, of which a new file keeps 63 bytes, the USB disk 127 bytes behind its mount point. Symbolic links are part
    of what a name leads to. The root file system is xv6fs. -/

namespace Orthox.Paths
open Schemes List Option
open Namespace (slash dirsiz dot)
open Open (Path Layer pathIsUnder pathIsUnderTmp)

/-! ### Directories -/

/-- A directory by the path it was opened or entered with. -/
structure Dir where
  path : Path
  rooted : path.head? = some slash
  short : path.length ≤ 255

/-- What an open directory keeps of it. -/
def Dir.name (d : Dir) : Path := d.path.take 63

/-- How a task came to its current directory. -/
inductive Cwd where
  | start
  | chdir (d : Dir)
  | fchdir (d : Dir)

/-- The path of the directory. -/
def Cwd.complete : Cwd → Path
  | .start => [slash]
  | .chdir d | .fchdir d => d.path

/-- What the task keeps of it: `fs_chdir` and `fs_fchdir` put a `/` before the path, which has one. -/
def Cwd.stored (layer : Layer) : Cwd → Path
  | .start => [slash]
  | .chdir d =>
    match layer with
    | .shared => copy [slash] d.path
    | .riscv64 => copy [] d.path
  | .fchdir d =>
    match layer with
    | .shared => copy [slash] d.name
    | .riscv64 => copy [] (riscv64FsNormalizePath d.name)

/-- `AT_FDCWD`, or a descriptor, which may not be an open directory. -/
inductive From where
  | cwd
  | fd (d : Option Dir)

def From.kept : From → At
  | .cwd => .cwd
  | .fd d => .fd (d.map Dir.name)

/-- The complete path. -/
def complete (cwd : Cwd) (dir : From) (path : Path) : Path :=
  if path.head? = some slash then path
  else match dir with
  | .cwd => join cwd.complete path
  | .fd (some d) => join d.path path
  | .fd none => path

/-! ### Questions -/

/-- Who is asked: a file system, the boot modules and devices the kernel knows by path, or the root it makes up for the
    empty path. -/
inductive Place where
  | xv6fs
  | ramfs
  | usb
  | builtin
  | root
deriving DecidableEq

/-- A question: the names asked for, and those of the complete path. -/
structure Ask where
  place : Place
  names : List Path
  whole : List Path
deriving DecidableEq

/-- `"usb"` -/
def usb : Path := [117, 115, 98]

/-- `normalize_fs_path` -/
def normalizeFsPath (path : Path) : Path := if path.take 2 = [46, slash] then (path.drop 2).dropWhile (· = slash) else path

/-- `normalize_vfs_path` -/
def normalizeVfsPath (path : Path) : Path := normalizeFsPath (path.dropWhile (· = slash))

/-- `vfs_find_mountpoint`, where `usb` is the only one: the path behind it. -/
def vfsFindMountpoint (path : Path) : Option Path :=
  let norm := normalizeVfsPath path
  if norm.takeWhile (· ≠ slash) = usb then some ((norm.drop 3).drop 1) else none

/-- `fat_resolve_path`: the names it looks for. -/
def fatResolvePath (path : Path) : Option (List Path) :=
  let path := path.dropWhile (· = slash)
  if path.take 4 ≠ usb ++ [slash] ∨ path.drop 4 = [] then none else some (usb :: elements ((path.drop 4).take 127))

section
variable (s : Path) (whole : List Path)

/-- `xv6fs_namei` and the like, which take paths from the root only. -/
def askXv6fs : List Ask := if s.head? = some slash then [⟨.xv6fs, walked s.length s, whole⟩] else []

/-- `find_ramfs` -/
def askRamfs : List Ask := [⟨.ramfs, elements s, whole⟩]

/-- `create_ramfs` and `create_ramfs_dir` -/
def askNewRamfs : List Ask := [⟨.ramfs, elements (s.take 63), whole⟩]

def askBuiltin : List Ask := [⟨.builtin, elements s, whole⟩]

def askRoot : List Ask := [⟨.root, [], whole⟩]

def askUsb : List Ask := (fatResolvePath s).toList.map fun names => ⟨.usb, names, whole⟩

/-- `build_usb_dirents`, for the path behind the mount point. -/
def askUsbDir (sub : Path) : List Ask :=
  if sub = [] then [⟨.usb, [usb], whole⟩] else askUsb ((usb ++ slash :: sub).take 319) whole

end

/-! ### Calls -/

/-- The calls with one path. -/
inductive Op where
  | open (dir write creat : Bool)
  | stat
  | unlink
  | rmdir
  | mkdir
  | truncate
  | chdir

/-- The plain call, or the one with a directory. -/
inductive Form where
  | plain
  | at (dir : From)

/-- Where the path starts. -/
def Form.dir : Form → From
  | .plain => .cwd
  | .at dir => dir

/-- A call; `dirs` are the two directories of `renameat`. -/
inductive Call where
  | one (op : Op) (form : Form) (path : Path)
  | rename (dirs : Option (From × From)) (old new : Path)
  | link (olddir newdir : From) (old new : Path)

/-- What `kernel/fs.c` asks for, given the resolved path. -/
def Op.shared (s : Path) (whole : List Path) : Op → List Ask
  | .open true _ _ =>
    if s = [] then askRoot whole
    else match vfsFindMountpoint s with
    | some sub => askUsbDir whole sub
    | none => askRamfs s whole ++ askXv6fs s whole
  | .open false write creat =>
    match vfsFindMountpoint s with
    | some _ => if write || creat then [] else askUsb s whole
    | none =>
      askRamfs s whole ++ askBuiltin s whole ++ askXv6fs s whole ++ (if creat then askNewRamfs s whole else [])
  | .stat => stat
  | .chdir => if s = [] then [] else stat
  | .unlink | .truncate => askRamfs s whole ++ askXv6fs s whole
  | .rmdir => if s = [] then [] else askRamfs s whole ++ askXv6fs s whole
  | .mkdir => if s = [] then [] else if pathIsUnderTmp s then askNewRamfs s whole else askXv6fs s whole
where
  /-- `fs_stat_normalized_path` -/
  stat : List Ask :=
    if s = [] then askRoot whole
    else match vfsFindMountpoint s with
    | some sub => if sub = [] then [⟨.usb, [usb], whole⟩] else askRamfs s whole ++ askUsb s whole
    | none => askRamfs s whole ++ askXv6fs s whole ++ askBuiltin s whole

/-- The path as it reaches the file systems in `kernel/fs.c`. The calls with a directory resolve the path and hand it to
    the plain call, which resolves it again; `fs_fstatat` does not. There is no `truncateat` and no `chdirat`. -/
def Form.sharedPath (cwd path : Path) : Form → Op → Option Path
  | .plain, _ => some (normalizeFsPath (resolveTaskPath cwd path))
  | .at _, .truncate | .at _, .chdir => none
  | .at dir, .stat => (resolveDirfdPath cwd dir.kept path).map normalizeFsPath
  | .at dir, _ => (resolveDirfdPath cwd dir.kept path).map fun r => normalizeFsPath (resolveTaskPath cwd r)

/-- What riscv64 asks for, given the resolved path; a stat that finds nothing resolves it once more. -/
def Op.riscv64 (cwd s : Path) (whole : List Path) : Op → List Ask
  | .open .. => askBuiltin s whole ++ askXv6fs s whole
  | .stat | .chdir =>
    askBuiltin s whole ++ askXv6fs s whole ++
      ((riscv64FsResolvePath cwd s).toList.flatMap fun t => askXv6fs t (fold whole))
  | _ => askXv6fs s whole

/-- Whether riscv64 hands the path of a call with a directory to the plain call. -/
def Op.again : Op → Bool
  | .open .. | .mkdir => true
  | _ => false

/-- The path as it reaches the file systems on riscv64. -/
def Form.riscv64Path (cwd path : Path) : Form → Op → Option Path
  | .plain, _ => riscv64FsResolvePath cwd path
  | .at _, .truncate | .at _, .chdir => none
  | .at dir, op =>
    let r := riscv64FsResolveDirfdPath cwd dir.kept path
    if op.again then r.bind (riscv64FsResolvePath cwd) else r

/-- Calls of riscv64 that refuse the empty path at once. -/
def Op.refusesEmpty : Op → Bool
  | .open .. | .stat => false
  | _ => true

/-- Whether riscv64 leaves `.` and `..` in the path: relative to a descriptor, unless the plain call folds them. -/
def unfolded (dir : From) (path : Path) : Bool :=
  match dir with
  | .cwd => false
  | .fd _ => path.head? ≠ some slash

/-- The names of the complete path, folded where the layer folds. -/
def wholeNames (layer : Layer) (cwd : Cwd) (dir : From) (path : Path) (again : Bool) : List Path :=
  if layer = .riscv64 ∧ unfolded dir path ∧ ¬ again then elements (complete cwd dir path)
  else fold (elements (complete cwd dir path))

/-- The questions about the two paths of a rename, unless the call fails before. -/
def askRename (layer : Layer) (cwd : Cwd) (olddir newdir : From) (old new s t : Path) : List Ask :=
  let wholeOld := wholeNames layer cwd olddir old false
  let wholeNew := wholeNames layer cwd newdir new false
  if pathIsUnder s t then []
  else match layer with
  | .shared => askRamfs s wholeOld ++ askXv6fs s wholeOld ++ (askRamfs t wholeNew ++ askXv6fs t wholeNew)
  | .riscv64 => askXv6fs s wholeOld ++ askXv6fs t wholeNew

/-- What a call asks for. Nothing, if it fails before. -/
def Call.asks (layer : Layer) (cwd : Cwd) : Call → List Ask
  | .one op form path =>
    match layer with
    | .shared =>
      match form.sharedPath (cwd.stored .shared) path op with
      | some s => op.shared s (wholeNames .shared cwd form.dir path false)
      | none => []
    | .riscv64 =>
      if op.refusesEmpty ∧ path = [] then []
      else match form.riscv64Path (cwd.stored .riscv64) path op with
      | some s => op.riscv64 (cwd.stored .riscv64) s (wholeNames .riscv64 cwd form.dir path op.again)
      | none => []
  | .rename dirs old new =>
    let olddir := dirs.elim .cwd Prod.fst
    let newdir := dirs.elim .cwd Prod.snd
    match layer with
    | .shared =>
      -- `fs_renameat` resolves both and hands them to `fs_rename`
      let form := fun dir => if dirs.isSome then Form.at dir else .plain
      match (form olddir).sharedPath (cwd.stored .shared) old .unlink, (form newdir).sharedPath (cwd.stored .shared) new .unlink with
      | some s, some t => if s = [] ∨ t = [] then [] else askRename .shared cwd olddir newdir old new s t
      | _, _ => []
    | .riscv64 =>
      -- there is `renameat` only
      if dirs.isNone ∨ old = [] ∨ new = [] then []
      else match riscv64FsResolveDirfdPath (cwd.stored .riscv64) olddir.kept old,
          riscv64FsResolveDirfdPath (cwd.stored .riscv64) newdir.kept new with
      | some s, some t => askRename .riscv64 cwd olddir newdir old new s t
      | _, _ => []
  | .link olddir newdir old new =>
    if old = [] ∨ new = [] then []
    else match layer with
    | .shared =>
      -- `sys_linkat` looks at neither directory and hands the paths on as they are
      if old.head? = some slash ∧ new.head? = some slash then askXv6fs old (elements old) ++ askXv6fs new (elements new)
      else []
    | .riscv64 =>
      let path := fun dir p => Form.riscv64Path (cwd.stored .riscv64) p (.at dir) .mkdir
      match path olddir old, path newdir new with
      | some s, some t =>
        askXv6fs s (wholeNames .riscv64 cwd olddir old true) ++ askXv6fs t (wholeNames .riscv64 cwd newdir new true)
      | _, _ => []

/-! ### Complete paths -/

/-- Whatever the file systems have, an object the call comes to is the one the complete path leads to. -/
def NamesComplete (layer : Layer) (cwd : Cwd) (call : Call) : Prop :=
  ∀ files : Place → List Path → Option Nat, ∀ a ∈ call.asks layer cwd, ∀ o,
    files a.place a.names = some o → files a.place a.whole = some o

/-- The cuts at 255, 127, 63 and 62 bytes leave the names of the complete path. -/
def Uncut (layer : Layer) (cwd : Cwd) (call : Call) : Prop := ∀ a ∈ call.asks layer cwd, a.names = a.whole

instance (layer : Layer) (cwd : Cwd) (call : Call) : Decidable (Uncut layer cwd call) :=
  inferInstanceAs (Decidable (∀ a ∈ _, _))

variable {cwd : Cwd} {p b path r : Path} {base : Path} {layer : Layer} {call : Call} {dir : From} {op : Op}

theorem namesComplete_iff : NamesComplete layer cwd call ↔ Uncut layer cwd call := by
  constructor
  · intro h a ha
    -- a file system with this one object
    have hone := h (fun _ names => if names = a.names then some 0 else none) a ha 0 (if_pos rfl)
    exact (ite_none_right_eq_some.mp hone).1.symm
  · intro h files a ha o ho
    rw [← h a ha]
    exact ho

/-! ### Short paths -/

/-- The paths of a call, and where they start. -/
def Call.paths : Call → List (From × Path)
  | .one _ form path => [(form.dir, path)]
  | .rename dirs old new => [(dirs.elim .cwd Prod.fst, old), (dirs.elim .cwd Prod.snd, new)]
  | .link olddir newdir old new => [(olddir, old), (newdir, new)]

/-- No path is empty, and complete each has at most 62 bytes. -/
def Short (cwd : Cwd) (call : Call) : Prop := ∀ x ∈ call.paths, x.2 ≠ [] ∧ (complete cwd x.1 x.2).length ≤ 62

/-- A string that reached the file systems uncut. -/
structure Exact (s : Path) (whole : List Path) : Prop where
  rooted : s.head? = some slash
  short : s.length ≤ 63
  named : elements s = whole

theorem length_le_of_mem_spell {st : List Path} {x : Path} (h : x ∈ st) : x.length + 1 ≤ (spell slash st).length := by
  induction st with
  | nil => cases h
  | cons y st ih =>
    have hcons : (spell slash (y :: st)).length = y.length + 1 + (spell slash st).length := by
      simp [spell]
      omega
    rcases mem_cons.mp h with rfl | h
    · omega
    · have := ih h
      omega

namespace Exact

variable {s : Path} {whole : List Path}

section
variable (h : Exact s whole)
include h

theorem ne_nil : s ≠ [] := by
  rintro rfl
  cases h.rooted

theorem walked : walked s.length s = whole := by
  rw [walked_eq (le_refl _), h.named]
  refine (map_congr_left fun x hx => ?_).trans (map_id whole)
  have hle := length_spell_elements_le (.inr h.rooted)
  have hx := length_le_of_mem_spell (h.named.symm ▸ hx)
  have hshort := h.short
  exact take_of_length_le (by unfold dirsiz; omega)

theorem askXv6fs : ∀ a ∈ askXv6fs s whole, a.names = a.whole := by
  rw [Paths.askXv6fs, if_pos h.rooted]
  exact forall_mem_singleton.mpr h.walked

theorem askRamfs : ∀ a ∈ askRamfs s whole, a.names = a.whole := forall_mem_singleton.mpr h.named

theorem askBuiltin : ∀ a ∈ askBuiltin s whole, a.names = a.whole := forall_mem_singleton.mpr h.named

theorem askNewRamfs : ∀ a ∈ askNewRamfs s whole, a.names = a.whole := by
  refine forall_mem_singleton.mpr ?_
  rw [take_of_length_le h.short]
  exact h.named

theorem normalizeFsPath : normalizeFsPath s = s := by
  obtain ⟨l, rfl⟩ := head?_eq_some_iff.mp h.rooted
  rw [normalizeFsPath]
  simp [slash]

end

end Exact

theorem usb_piece : Piece slash usb := by
  refine ⟨nofun, ?_⟩
  decide

/-- What the USB disk is asked for. -/
theorem fatResolvePath_names {names : List Path} (hlen : p.length ≤ 67) (h : fatResolvePath p = some names) :
    names = elements p := by
  obtain ⟨hnot, h⟩ := ite_none_left_eq_some.mp h
  obtain ⟨hpre, -⟩ := not_or.mp hnot
  have hq : p.dropWhile (· = slash) = usb ++ slash :: (p.dropWhile (· = slash)).drop 4 := by
    conv_lhs => rw [← take_append_drop 4 (p.dropWhile (· = slash)), not_not.mp hpre]
    simp
  have hle := length_dropWhile_le (fun c => decide (c = slash)) p
  have hrest : ((p.dropWhile (· = slash)).drop 4).length ≤ 127 := by
    rw [length_drop]
    omega
  rw [take_of_length_le hrest] at h
  obtain rfl := some.inj h
  conv_rhs => rw [elements, ← segments_dropWhile, hq, usb_piece.segments_append (.inr rfl)]
  rfl

variable {whole : List Path}

theorem askUsb_uncut (hlen : p.length ≤ 67) (h : elements p = whole) : ∀ a ∈ askUsb p whole, a.names = a.whole := by
  intro a ha
  obtain ⟨names, hnames, rfl⟩ := mem_map.mp ha
  exact (fatResolvePath_names hlen (mem_toList.mp hnames)).trans h

variable {s : Path}

/-- The mount point is the first element. -/
theorem vfsFindMountpoint_elements {sub : Path} (hdot : dot ∉ elements s) (h : vfsFindMountpoint s = some sub) :
    elements s = usb :: elements sub ∧ sub.length ≤ s.length := by
  obtain ⟨hmatch, h⟩ := ite_none_right_eq_some.mp h
  have hne : s.dropWhile (· = slash) ≠ [] := by
    intro hnil
    rw [normalizeVfsPath, hnil] at hmatch
    exact absurd hmatch (by decide)
  obtain ⟨x, rest, hq, hx, -, hrest, hel, hle⟩ := segments_next hne
  have hnorm : normalizeVfsPath s = s.dropWhile (· = slash) := by
    rw [normalizeVfsPath, normalizeFsPath, if_neg]
    intro htake
    -- the path would begin with `./`
    have hsplit : s.dropWhile (· = slash) = dot ++ slash :: (s.dropWhile (· = slash)).drop 2 := by
      conv_lhs => rw [← take_append_drop 2 (s.dropWhile (· = slash)), htake]
      rfl
    have hdotx : x = dot := by
      rw [← hx, hsplit]
      rfl
    exact hdot (by rw [elements, hel, hdotx]; exact mem_cons_self)
  rw [hnorm, hx] at hmatch
  obtain rfl := some.inj h
  subst hmatch
  have hthree : (usb ++ rest).drop 3 = rest := rfl
  rw [hnorm, hq, hthree, elements_drop_one hrest, length_drop]
  exact ⟨hel, by omega⟩

/-- `kernel/fs.c` asks for the whole names of a string that came through uncut. -/
theorem Exact.shared (h : Exact s whole) (hdot : dot ∉ whole) (op : Op) : ∀ a ∈ op.shared s whole, a.names = a.whole := by
  have hboth : ∀ a ∈ Paths.askRamfs s whole ++ Paths.askXv6fs s whole, a.names = a.whole :=
    forall_mem_append.mpr ⟨h.askRamfs, h.askXv6fs⟩
  have hshort := h.short
  have husb : ∀ sub, vfsFindMountpoint s = some sub → whole = usb :: elements sub ∧ sub.length ≤ 63 := by
    intro sub hsub
    obtain ⟨hel, hlen⟩ := vfsFindMountpoint_elements (h.named ▸ hdot) hsub
    exact ⟨h.named ▸ hel, hlen.trans hshort⟩
  have hfat : ∀ a ∈ askUsb s whole, a.names = a.whole := askUsb_uncut (by omega) h.named
  have hstat : ∀ a ∈ Op.shared.stat s whole, a.names = a.whole := by
    rw [Op.shared.stat, if_neg h.ne_nil]
    split
    · rename_i sub hsub
      split
      · rename_i hnil
        subst hnil
        exact forall_mem_singleton.mpr (husb [] hsub).1.symm
      · exact forall_mem_append.mpr ⟨h.askRamfs, hfat⟩
    · exact forall_mem_append.mpr ⟨hboth, h.askBuiltin⟩
  cases op with
  | stat => exact hstat
  | chdir => rw [Op.shared, if_neg h.ne_nil]; exact hstat
  | unlink | truncate => exact hboth
  | rmdir => rw [Op.shared, if_neg h.ne_nil]; exact hboth
  | mkdir =>
    rw [Op.shared, if_neg h.ne_nil]
    split
    · exact h.askNewRamfs
    · exact h.askXv6fs
  | «open» dir write creat =>
    cases dir with
    | true =>
      rw [Op.shared, if_neg h.ne_nil]
      split
      · rename_i sub hsub
        obtain ⟨hwhole, hlen⟩ := husb sub hsub
        have hlong : (usb ++ slash :: sub).length ≤ 67 := by
          rw [length_append]
          exact add_le_add (le_refl 3) (Nat.succ_le_succ hlen)
        rw [askUsbDir]
        split
        · rename_i hnil
          subst hnil
          exact forall_mem_singleton.mpr hwhole.symm
        rw [take_of_length_le (by omega)]
        refine askUsb_uncut hlong ?_
        rw [hwhole]
        rfl
      · exact hboth
    | false =>
      rw [Op.shared]
      split
      · split
        · exact nofun
        · exact hfat
      refine forall_mem_append.mpr ⟨forall_mem_append.mpr ⟨forall_mem_append.mpr ⟨h.askRamfs, h.askBuiltin⟩, h.askXv6fs⟩, ?_⟩
      split
      · exact h.askNewRamfs
      · exact nofun

theorem fold_fold (es : List Path) : fold (fold es) = fold es := climbed_idem es

theorem fold_append (es fs : List Path) : fold (fold es ++ fs) = fold (es ++ fs) := by
  have h := fold_fold es
  simp only [fold, climbed, foldl_append] at h ⊢
  rw [h]

/-- A string with the folded names of a path of at most 62 bytes. -/
theorem Names.exact (h : Names s (fold (elements p))) (hp : p.head? = some slash) (hlen : p.length ≤ 62) :
    Exact s (fold (elements p)) := by
  have hle := length_fold_le hp
  refine ⟨h.rooted, ?_, h.named⟩
  rcases h.shows with rfl | rfl
  · omega
  · rw [length_append, length_singleton]
    omega

theorem length_rendered_le (st : List Path) : (rendered st).length ≤ max 1 (spell slash st).length := by
  rw [rendered]
  split
  · exact le_max_left 1 _
  · exact le_max_right 1 _

theorem rendered_exact (hp : p.head? = some slash) (hlen : p.length ≤ 63) :
    Exact (rendered (fold (elements p))) (fold (elements p)) := by
  have hle := length_fold_le hp
  have hlong := length_rendered_le (fold (elements p))
  exact ⟨head?_rendered _, by omega, elements_rendered (pieces_fold p)⟩

/-- The directory `base` is kept of `b`, and its copy with the path is short. -/
structure Keeps (base b : Path) : Prop where
  stored : Stored base
  rooted : b.head? = some slash
  length : b.length ≤ 61 → base.length ≤ 63
  folds : b.length ≤ 61 → fold (elements base) = fold (elements b)

theorem head?_join (h : b.head? = some slash) (path : Path) : (join b path).head? = some slash := by
  obtain ⟨l, rfl⟩ := head?_eq_some_iff.mp h
  rfl

theorem length_join (b path : Path) : (join b path).length = b.length + 1 + path.length := by
  rw [join, length_append, length_cons]
  omega

theorem length_joined_le (b path : Path) : (joined b path).length ≤ b.length + 1 + path.length := by
  rw [joined, length_append]
  split <;> simp

/-- The names of both, folded. -/
theorem Keeps.joins (h : Keeps base b) (hlen : (join b path).length ≤ 62) :
    fold (elements (join base path)) = fold (elements (join b path)) := by
  rw [length_join] at hlen
  rw [elements_join, elements_join, ← fold_append, h.folds (by omega), fold_append]

/-- A copy of both in `kernel/fs.c`. -/
theorem Keeps.exact {b path : Path} (h : Keeps base b) (hlen : (join b path).length ≤ 62)
    (hs : Names s (fold (elements ((joined base path).take 255)))) : Exact s (fold (elements (join b path))) := by
  have hjoin := length_join b path
  have hle := length_joined_le base path
  have hbase := h.length (by omega)
  rw [take_of_length_le (by omega), elements_joined, h.joins hlen] at hs
  exact hs.exact (head?_join h.rooted path) hlen

theorem Dir.keeps (d : Dir) : Keeps d.name d.path where
  stored := ⟨head?_take d.rooted (by decide), (length_take_le 63 _).trans (by decide)⟩
  rooted := d.rooted
  length := fun _ => length_take_le 63 _
  folds := fun h => by rw [name, take_of_length_le (by omega)]

/-- A `/` before a directory that has one. -/
theorem Dir.keeps_slash (d : Dir) (n : Nat) (hn : 61 ≤ n) : Keeps (copy [slash] (d.path.take n)) d.path where
  stored := ⟨rfl, by rw [copy, length_append, length_take, length_singleton]; omega⟩
  rooted := d.rooted
  length := fun h => by
    rw [copy, length_append, length_take, length_take, length_singleton]
    omega
  folds := fun h => by
    rw [copy, length_singleton, take_of_length_le (by omega : d.path.length ≤ n), take_of_length_le (by omega)]
    exact congrArg fold (segments_sep_cons d.path)

/-- What a task keeps of its directory. -/
theorem Cwd.keeps (layer : Layer) (cwd : Cwd) : Keeps (cwd.stored layer) cwd.complete := by
  cases cwd with
  | start => cases layer <;> exact ⟨⟨rfl, by decide⟩, rfl, fun _ => by decide, fun _ => rfl⟩
  | chdir d =>
    have hpath : d.path.take 255 = d.path := take_of_length_le d.short
    cases layer with
    | shared =>
      have h := d.keeps_slash 255 (by decide)
      rw [hpath] at h
      exact h
    | riscv64 =>
      have hcopy : copy [] d.path = d.path := hpath
      simp only [stored, complete, hcopy]
      exact ⟨⟨d.rooted, d.short⟩, d.rooted, fun h => by omega, fun _ => rfl⟩
  | fchdir d =>
    cases layer with
    | shared => exact d.keeps_slash 63 (by decide)
    | riscv64 =>
      have hname : d.name.head? = some slash := d.keeps.stored.rooted
      have hcopy : copy [] (riscv64FsNormalizePath d.name) = (rendered (fold (elements d.name))).take 255 := by
        rw [copy_nil, normalize_eq hname]
      simp only [stored, complete, hcopy]
      refine ⟨⟨head?_take (head?_rendered _) (by decide), length_take_le _ _⟩, d.rooted, fun h => ?_, fun h => ?_⟩
      all_goals
        have hall : d.name = d.path := take_of_length_le (by omega)
        have hex := rendered_exact d.rooted (by omega)
        have hshort := hex.short
        rw [hall, take_of_length_le (by omega)]
      · exact hshort
      · rw [hex.named, fold_fold]

/-! ### Strings that reach the file systems -/

theorem taskPath_exact (hk : Keeps base b) (hne : path ≠ [])
    (hlen : (if path.head? = some slash then path else join b path).length ≤ 62) :
    Exact (resolveTaskPath base path) (fold (elements (if path.head? = some slash then path else join b path))) := by
  split at hlen
  · rename_i h
    have hnames := resolveTaskPath_rooted base h
    rw [take_of_length_le (by omega)] at hnames
    rw [if_pos h]
    exact hnames.exact h hlen
  · rename_i h
    rw [if_neg h]
    exact hk.exact hlen (resolveTaskPath_relative hk.stored hne h)

/-- Resolving twice is resolving once. -/
theorem Exact.again {c : Path} (h : Exact r (fold (elements c))) (hc : c.head? = some slash) (hlen : c.length ≤ 62)
    (base : Path) : Exact (resolveTaskPath base r) (fold (elements c)) := by
  have hnames := resolveTaskPath_rooted base h.rooted
  have hshort := h.short
  rw [take_of_length_le (by omega), h.named, fold_fold] at hnames
  exact hnames.exact hc hlen

theorem dirfdPath_exact (hne : path ≠ [])
    (hlen : (complete cwd dir path).length ≤ 62) (h : resolveDirfdPath (cwd.stored .shared) dir.kept path = some r) :
    Exact r (fold (elements (complete cwd dir path))) ∧ (complete cwd dir path).head? = some slash := by
  unfold resolveDirfdPath at h
  split at h
  · rename_i hroot
    have hall : complete cwd dir path = path := if_pos hroot
    obtain rfl := some.inj h
    rw [hall] at hlen ⊢
    have hex := taskPath_exact (cwd.keeps .shared) hne (by rwa [if_pos hroot])
    rw [if_pos hroot] at hex
    exact ⟨hex, hroot⟩
  · rename_i hrel
    rcases dir with - | (- | d)
    · obtain rfl := some.inj h
      have hall : complete cwd .cwd path = join cwd.complete path := if_neg hrel
      rw [hall] at hlen ⊢
      have hex := taskPath_exact (cwd.keeps .shared) hne (by rwa [if_neg hrel])
      rw [if_neg hrel] at hex
      exact ⟨hex, head?_join (cwd.keeps .shared).rooted path⟩
    · cases h
    · have hall : complete cwd (.fd (some d)) path = join d.path path := if_neg hrel
      rw [hall] at hlen ⊢
      obtain ⟨-, h⟩ := ite_none_left_eq_some.mp h
      obtain rfl := some.inj h
      exact ⟨d.keeps.exact hlen (copied_names d.keeps.stored path), head?_join d.rooted path⟩

/-- In `kernel/fs.c` a short path comes through uncut. -/
theorem sharedPath_exact (form : Form) (hne : path ≠ [])
    (hlen : (complete cwd form.dir path).length ≤ 62) (h : form.sharedPath (cwd.stored .shared) path op = some s) :
    Exact s (fold (elements (complete cwd form.dir path))) := by
  cases form with
  | plain =>
    have hex := taskPath_exact (cwd.keeps .shared) hne hlen
    obtain rfl := some.inj h
    rw [hex.normalizeFsPath]
    exact hex
  | «at» dir =>
    have hone : ∀ r, resolveDirfdPath (cwd.stored .shared) dir.kept path = some r →
        Exact (normalizeFsPath r) (fold (elements (complete cwd dir path))) := fun r hr => by
      obtain ⟨hex, -⟩ := dirfdPath_exact hne hlen hr
      rw [hex.normalizeFsPath]
      exact hex
    have htwo : ∀ r, resolveDirfdPath (cwd.stored .shared) dir.kept path = some r →
        Exact (normalizeFsPath (resolveTaskPath (cwd.stored .shared) r)) (fold (elements (complete cwd dir path))) :=
      fun r hr => by
        obtain ⟨hex, hroot⟩ := dirfdPath_exact hne hlen hr
        have hex := hex.again hroot hlen (cwd.stored .shared)
        rw [hex.normalizeFsPath]
        exact hex
    cases op <;> simp only [Form.sharedPath, reduceCtorEq] at h
    case stat =>
      obtain ⟨r, hr, rfl⟩ := map_eq_some_iff.mp h
      exact hone r hr
    all_goals
      obtain ⟨r, hr, rfl⟩ := map_eq_some_iff.mp h
      exact htwo r hr

/-! ### riscv64 -/

theorem riscv64Path_cwd (hlen : (complete cwd .cwd path).length ≤ 62)
    (h : riscv64FsResolvePath (cwd.stored .riscv64) path = some s) : Exact s (fold (elements (complete cwd .cwd path))) := by
  rcases eq_or_ne path.head? (some slash) with hroot | hrel
  · have hall : complete cwd .cwd path = path := if_pos hroot
    rw [hall] at hlen ⊢
    rw [riscv64FsResolvePath_rooted hroot h]
    exact rendered_exact hroot (by omega)
  have hall : complete cwd .cwd path = join cwd.complete path := if_neg hrel
  have hk := cwd.keeps .riscv64
  rw [hall] at hlen ⊢
  rw [riscv64FsResolvePath_relative hk.stored hrel h, hk.joins hlen]
  exact rendered_exact (head?_join hk.rooted path) (by omega)

/-- Relative to a descriptor the path is not folded. -/
theorem riscv64Path_dirfd (hlen : (complete cwd dir path).length ≤ 62)
    (h : riscv64FsResolveDirfdPath (cwd.stored .riscv64) dir.kept path = some r) :
    Exact r (wholeNames .riscv64 cwd dir path false) := by
  unfold riscv64FsResolveDirfdPath at h
  split at h
  · rename_i hroot
    have hall : complete cwd dir path = complete cwd .cwd path := (if_pos hroot).trans (if_pos hroot).symm
    have hfold : unfolded dir path = false := by
      unfold unfolded
      split
      · rfl
      · simpa using hroot
    rw [wholeNames, if_neg (by simp [hfold]), hall]
    exact riscv64Path_cwd (hall ▸ hlen) h
  · rename_i hrel
    rcases dir with - | (- | d)
    · rw [wholeNames]
      exact riscv64Path_cwd hlen h
    · cases h
    have hall : complete cwd (.fd (some d)) path = join d.path path := if_neg hrel
    obtain ⟨hname, h⟩ := ite_none_left_eq_some.mp h
    obtain rfl := some.inj h
    rw [wholeNames, if_pos (by simp [unfolded, hrel]), hall]
    rw [hall, length_join] at hlen
    have hsame : d.name = d.path := take_of_length_le (by omega)
    have hle := length_joined_le d.path path
    rw [hsame] at hname ⊢
    rw [copy_separate hname d.short, take_of_length_le (by omega)]
    exact ⟨head?_joined d.rooted path, by omega, elements_joined d.path path⟩

theorem fold_wholeNames (layer : Layer) (cwd : Cwd) (dir : From) (path : Path) (again : Bool) :
    fold (wholeNames layer cwd dir path again) = wholeNames layer cwd dir path true := by
  rw [wholeNames, wholeNames, if_neg (by simp : ¬ (layer = .riscv64 ∧ unfolded dir path ∧ ¬ true))]
  split
  · rfl
  · exact fold_fold _

/-- On riscv64 a short path comes through uncut. -/
theorem riscv64Path_exact (form : Form) (hlen : (complete cwd form.dir path).length ≤ 62)
    (h : form.riscv64Path (cwd.stored .riscv64) path op = some s) : Exact s (wholeNames .riscv64 cwd form.dir path op.again) := by
  cases form with
  | plain =>
    have hwhole : wholeNames .riscv64 cwd .cwd path op.again = fold (elements (complete cwd .cwd path)) :=
      if_neg (by simp [unfolded])
    exact hwhole ▸ riscv64Path_cwd hlen h
  | «at» dir =>
    have htwo : ∀ r, riscv64FsResolveDirfdPath (cwd.stored .riscv64) dir.kept path = some r →
        riscv64FsResolvePath (cwd.stored .riscv64) r = some s → Exact s (wholeNames .riscv64 cwd dir path true) := by
      intro r hr hs
      have hex : Exact r (wholeNames .riscv64 cwd dir path false) := riscv64Path_dirfd hlen hr
      have hfold := rendered_exact hex.rooted hex.short
      rw [riscv64FsResolvePath_rooted hex.rooted hs, ← fold_wholeNames .riscv64 cwd dir path false, ← hex.named]
      exact hfold
    cases op <;> simp only [Form.riscv64Path, reduceCtorEq] at h
    case «open» | mkdir =>
      obtain ⟨r, hr, hs⟩ := bind_eq_some_iff.mp h
      exact htwo r hr hs
    all_goals exact riscv64Path_dirfd hlen h

theorem Exact.riscv64 {cwd : Path} (h : Exact s whole) (op : Op) : ∀ a ∈ op.riscv64 cwd s whole, a.names = a.whole := by
  have hboth : ∀ a ∈ Paths.askBuiltin s whole ++ Paths.askXv6fs s whole, a.names = a.whole :=
    forall_mem_append.mpr ⟨h.askBuiltin, h.askXv6fs⟩
  have hstat : ∀ a ∈ Op.riscv64 cwd s whole .stat, a.names = a.whole := by
    refine forall_mem_append.mpr ⟨hboth, fun a ha => ?_⟩
    obtain ⟨t, ht, ha⟩ := mem_flatMap.mp ha
    have hex := rendered_exact h.rooted h.short
    rw [h.named] at hex
    rw [riscv64FsResolvePath_rooted h.rooted (mem_toList.mp ht), h.named] at ha
    exact hex.askXv6fs a ha
  cases op with
  | «open» => exact hboth
  | stat | chdir => exact hstat
  | unlink | rmdir | mkdir | truncate => exact h.askXv6fs

/-! ### Calls -/

theorem askRename_uncut {olddir newdir : From} {old new t : Path}
    (hs : Exact s (wholeNames layer cwd olddir old false)) (ht : Exact t (wholeNames layer cwd newdir new false)) :
    ∀ a ∈ askRename layer cwd olddir newdir old new s t, a.names = a.whole := by
  unfold askRename
  split
  · exact nofun
  cases layer with
  | shared =>
    exact forall_mem_append.mpr ⟨forall_mem_append.mpr ⟨hs.askRamfs, hs.askXv6fs⟩,
      forall_mem_append.mpr ⟨ht.askRamfs, ht.askXv6fs⟩⟩
  | riscv64 => exact forall_mem_append.mpr ⟨hs.askXv6fs, ht.askXv6fs⟩

/-- Calls with paths that are short when complete ask for nothing else. -/
theorem Short.uncut (h : Short cwd call) (layer : Layer) : Uncut layer cwd call := by
  have hshared : ∀ dir path again, wholeNames .shared cwd dir path again = fold (elements (complete cwd dir path)) :=
    fun dir path again => if_neg (by simp)
  unfold Uncut
  cases call with
  | one op form path =>
    obtain ⟨hne, hlen⟩ := h (form.dir, path) (mem_singleton.mpr rfl)
    cases layer with
    | shared =>
      simp only [Call.asks]
      split
      · rename_i s hs
        exact (sharedPath_exact form hne hlen hs).shared ((fun h => (mem_climbed h).2.1 rfl)) op
      · exact nofun
    | riscv64 =>
      simp only [Call.asks]
      split
      · exact nofun
      split
      · rename_i s hs
        exact (riscv64Path_exact form hlen hs).riscv64 op
      · exact nofun
  | rename dirs old new =>
    obtain ⟨⟨hne, hlen⟩, hnew⟩ := forall_mem_cons.mp h
    obtain ⟨hne', hlen'⟩ := forall_mem_singleton.mp hnew
    cases layer with
    | shared =>
      have hform : ∀ dir path s, (dirs = none → dir = .cwd) → path ≠ [] → (complete cwd dir path).length ≤ 62 →
          (if dirs.isSome then Form.at dir else .plain).sharedPath (cwd.stored .shared) path .unlink = some s →
          Exact s (wholeNames .shared cwd dir path false) := by
        intro dir path s hdir hpath hshort hs
        cases dirs with
        | none =>
          obtain rfl := hdir rfl
          exact sharedPath_exact .plain hpath hshort hs
        | some => exact sharedPath_exact (.at dir) hpath hshort hs
      simp only [Call.asks]
      split
      · rename_i s t hs ht
        split
        · exact nofun
        · exact askRename_uncut (hform _ _ _ (fun h => by rw [h]; rfl) hne hlen hs)
            (hform _ _ _ (fun h => by rw [h]; rfl) hne' hlen' ht)
      · exact nofun
    | riscv64 =>
      simp only [Call.asks]
      split
      · exact nofun
      split
      · rename_i s t hs ht
        exact askRename_uncut (riscv64Path_dirfd hlen hs) (riscv64Path_dirfd hlen' ht)
      · exact nofun
  | link olddir newdir old new =>
    obtain ⟨⟨-, hlen⟩, hnew⟩ := forall_mem_cons.mp h
    obtain ⟨-, hlen'⟩ := forall_mem_singleton.mp hnew
    cases layer with
    | shared =>
      simp only [Call.asks]
      split
      · exact nofun
      split
      · rename_i hroot
        have hall : ∀ dir p, p.head? = some slash → (complete cwd dir p).length ≤ 62 → Exact p (elements p) := by
          intro dir p hp hlen
          have hp' : complete cwd dir p = p := if_pos hp
          rw [hp'] at hlen
          exact ⟨hp, by omega, rfl⟩
        exact forall_mem_append.mpr ⟨(hall _ _ hroot.1 hlen).askXv6fs, (hall _ _ hroot.2 hlen').askXv6fs⟩
      · exact nofun
    | riscv64 =>
      simp only [Call.asks]
      split
      · exact nofun
      split
      · rename_i s t hs ht
        exact forall_mem_append.mpr ⟨(riscv64Path_exact (.at olddir) hlen hs).askXv6fs,
          (riscv64Path_exact (.at newdir) hlen' ht).askXv6fs⟩
      · exact nofun

/-- `/` and `n` times `a`. -/
def longName (n : Nat) : Path := slash :: replicate n 97

/-- A directory with a path of 80 bytes. -/
def deepDir : Dir := ⟨longName 39 ++ longName 39, rfl, by decide⟩

end Orthox.Paths
