import Orthox.Open.Files

/-! Access modes. The mode of an open stays with the descriptor through `dup`, `fork` and `F_SETFL`, but only riscv64's
    `sys_write` on a file looks at it. Every other call in the wrong direction is refused only when the same call in the
    right direction would be. -/

namespace Orthox.Open
open Blocks Files Schemes Function Option World Ramfs List
open Pipes (Pipe oAccmode oRdonly oWronly oRdwr pipeBufSize epipe)

variable {T : Type} [DecidableEq T]

/-! ### Descriptors -/

/-- What a descriptor leads to: a file, or an end of a pipe or FIFO. -/
inductive Obj where
  | file (f : FsFile)
  | pipe (p : Nat)

/-- A file object; `mode` are the flags it was opened with, which no code reads. -/
structure Opened where
  obj : Obj
  mode : BitVec 32

structure Fd where
  file : Nat
  flags : BitVec 32

/-- `F_SETFL` -/
def Fd.setfl (fd : Fd) (arg : BitVec 32) : Fd := { fd with flags := (fd.flags &&& oAccmode) ||| (arg &&& ~~~oAccmode) }

/-- The descriptors of all tasks, and what they lead to. -/
structure Table (T : Type) where
  world : World
  pipes : Nat → Pipe T
  files : Nat → Option Opened
  fds : T → Nat → Option Fd

namespace Table

def setFd (tab : Table T) (t : T) (n : Nat) (fd : Option Fd) : Table T :=
  { tab with fds := update tab.fds t (update (tab.fds t) n fd) }

/-- A new object behind a new descriptor; both keep the flags. -/
def install (tab : Table T) (t : T) (n k : Nat) (obj : Obj) (flags : BitVec 32) : Table T :=
  { tab with files := update tab.files k (some ⟨obj, flags⟩) }.setFd t n (some ⟨k, flags⟩)

/-- What can happen to the table. -/
inductive Step : Table T → Table T → Prop where
  /-- `fs_open`, `fs_open_install_fifo`, and `fs_pipe` once for each end. -/
  | opens {tab : Table T} (t : T) (n k : Nat) (obj : Obj) (flags : BitVec 32) (free : tab.fds t n = none)
    (new : tab.files k = none) : Step tab (tab.install t n k obj flags)
  /-- `fs_dup2` and `F_DUPFD` (`u = t`), and `fork` for each descriptor. -/
  | share {tab : Table T} (t : T) (n : Nat) (u : T) (m : Nat) {fd : Fd} (old : tab.fds t n = some fd) (free : tab.fds u m = none) :
    Step tab (tab.setFd u m (some fd))
  | setfl {tab : Table T} (t : T) (n : Nat) (arg : BitVec 32) {fd : Fd} (old : tab.fds t n = some fd) :
    Step tab (tab.setFd t n (some (fd.setfl arg)))
  | close {tab : Table T} (t : T) (n : Nat) : Step tab (tab.setFd t n none)
  /-- The object goes with its last descriptor. -/
  | put {tab : Table T} (k : Nat) (last : ∀ t n fd, tab.fds t n = some fd → fd.file ≠ k) :
    Step tab { tab with files := update tab.files k none }
  /-- Any other call: files, pipes and what the objects remember may change, not the mode of an open. -/
  | call {tab : Table T} (world : World) (pipes : Nat → Pipe T) (files : Nat → Option Opened)
    (same : ∀ k, (files k).map Opened.mode = (tab.files k).map Opened.mode) :
    Step tab { tab with world := world, pipes := pipes, files := files }

/-- The tables reached from one without descriptors. -/
inductive Reaches : Table T → Prop where
  | empty (world : World) (pipes : Nat → Pipe T) : Reaches ⟨world, pipes, fun _ => none, fun _ _ => none⟩
  | step {tab tab' : Table T} (h : Reaches tab) (hs : Step tab tab') : Reaches tab'

/-- Every descriptor has the access mode its object was opened with. -/
def ModesKept (tab : Table T) : Prop :=
  ∀ t n fd, tab.fds t n = some fd → ∃ o, tab.files fd.file = some o ∧ fd.flags &&& oAccmode = o.mode &&& oAccmode

/-- A descriptor after one entry of the table was set. -/
theorem setFd_fds {tab : Table T} {t u : T} {n m : Nat} {x : Option Fd} {fd : Fd} (h : (tab.setFd t n x).fds u m = some fd) :
    x = some fd ∨ tab.fds u m = some fd := by
  simp only [setFd] at h
  rcases eq_or_ne u t with rfl | hne
  · rw [update_self] at h
    exact (update_cases h).imp And.right And.right
  · rw [update_of_ne hne] at h
    exact .inr h

theorem setfl_accmode (fd : Fd) (arg : BitVec 32) : (fd.setfl arg).flags &&& oAccmode = fd.flags &&& oAccmode := by
  ext i
  simp [Fd.setfl]
  grind

theorem ModesKept.step {tab tab' : Table T} (h : tab.ModesKept) (hs : Step tab tab') : tab'.ModesKept := by
  cases hs with
  | opens t n k obj flags free new =>
    intro u m fd hfd
    rcases setFd_fds hfd with hnew | hold
    · obtain rfl := some.inj hnew
      exact ⟨_, update_self .., rfl⟩
    obtain ⟨o, ho, hmode⟩ := h u m fd hold
    have hne : fd.file ≠ k := fun hk => by
      rw [hk, new] at ho
      cases ho
    exact ⟨o, (update_of_ne hne ..).trans ho, hmode⟩
  | share t n u m old free =>
    intro v l fd hfd
    rcases setFd_fds hfd with hnew | hold
    · exact h t n fd (some.inj hnew ▸ old)
    · exact h v l fd hold
  | setfl t n arg old =>
    intro v l fd hfd
    rcases setFd_fds hfd with hnew | hold
    · obtain rfl := some.inj hnew
      obtain ⟨o, ho, hmode⟩ := h t n _ old
      exact ⟨o, ho, (setfl_accmode _ arg).trans hmode⟩
    · exact h v l fd hold
  | close t n =>
    intro v l fd hfd
    rcases setFd_fds hfd with hnew | hold
    · cases hnew
    · exact h v l fd hold
  | put k last =>
    intro v l fd hfd
    obtain ⟨o, ho, hmode⟩ := h v l fd hfd
    exact ⟨o, (update_of_ne (last v l fd hfd) ..).trans ho, hmode⟩
  | call world pipes files same =>
    intro v l fd hfd
    obtain ⟨o, ho, hmode⟩ := h v l fd hfd
    have hk := same fd.file
    rw [ho] at hk
    obtain ⟨o', ho', heq⟩ := map_eq_some_iff.mp hk
    exact ⟨o', ho', hmode.trans (congrArg (· &&& oAccmode) heq.symm)⟩

theorem Reaches.modesKept {tab : Table T} (h : Reaches tab) : tab.ModesKept := by
  induction h with
  | empty => exact nofun
  | step _ hs ih => exact ih.step hs

end Table

/-! ### Calls on pipes -/

/-- How a call on a pipe goes when nobody else acts meanwhile. -/
inductive PipeEnd (T : Type) where
  | answered (res : Int) (pipe : Pipe T)
  | asleep (pipe : Pipe T)

/-- The loop of `fs_write` on a pipe; a turn that stores leaves fewer bytes. -/
def pipeWrite (t : T) : Nat → Nat → List UInt8 → Pipe T → PipeEnd T
  | 0, written, _, p => .answered written p
  | fuel + 1, written, src, p =>
    if src = [] then .answered written p
    else match p.write t src with
    | .refused => .answered (if 0 < written then written else -epipe) p
    | .blocked p => .asleep p
    | .stored p rest _ => pipeWrite t fuel (written + (src.length - rest.length)) rest p

/-- `fs_read` on a pipe. -/
def pipeRead (t : T) (count : Nat) (p : Pipe T) : PipeEnd T :=
  match p.read t count with
  | .eof => .answered 0 p
  | .blocked p => .asleep p
  | .taken p bytes _ => .answered bytes.length p

/-- The bytes of a buffer. -/
def bytesOf (src : Nat → BitVec 8) (count : Nat) : List UInt8 := (range count).map fun j => UInt8.ofBitVec (src j)

/-- A call on a pipe; `fs_ftruncate` refuses pipes, `fs_fstat` does not look inside. -/
def Call.onPipe (t : T) (p : Pipe T) : Call → PipeEnd T
  | .read count => pipeRead t count p
  | .write src count => pipeWrite t (count + 1) 0 (bytesOf src count) p
  | .ftruncate _ => .answered (-einval) p
  | .fstat => .answered 0 p

/-! ### Refusals -/

/-- A write through an object opened for reading, or a read through one opened for writing. -/
def Call.Against (mode : BitVec 32) : Call → Prop
  | .write .. => mode &&& oAccmode = oRdonly
  | .read _ => mode &&& oAccmode = oWronly
  | _ => False

/-- No file has changed. -/
structure SameFiles (w w' : World) : Prop where
  xv6fs : ∀ i, (viewOf w.vol i).Same (viewOf w'.vol i)
  ramfs : ∀ s, (w.slots s).file.view.Same (w'.slots s).file.view

/-- The call fails and changes no file, pipe or offset. -/
def Denied (layer : Layer) (c : Setting) (tab : Table T) (t : T) (flags : BitVec 32) (q : Call) : Obj → Prop
  | .file f => ∃ r f' w', q.run layer c tab.world flags f = some (r, f', w') ∧ r.res < 0 ∧ f'.offset = f.offset ∧
      SameFiles tab.world w'
  | .pipe p => ∃ res, q.onPipe t (tab.pipes p) = .answered res (tab.pipes p) ∧ res < 0

/-- When riscv64's read of a file fails. -/
def SysReadFails (w : World) (f : FsFile) (count : Nat) : Option Node → Prop
  | some (.xv6fs i) =>
    let size := (inodeAt w.vol i).size
    f.offset < size ∧ 2 ^ 31 ≤ readable size (f.offset % 2 ^ 32) (min count (size - f.offset) % 2 ^ 32)
  | _ => f.offset < f.size

/-- When a call fails and changes nothing, whatever its direction. On xv6fs: a write whose first chunk ends at or behind
    2^32, a read of 2^31 bytes or more. On ramfs: a write when the file is not found by its path or the memory for it
    cannot be had. On a pipe: a write without a reader. On riscv64: any write in the wrong direction, and a read that finds
    no file by its path, or 2^31 bytes or more. -/
def Shut (layer : Layer) (tab : Table T) (flags : BitVec 32) : Call → Obj → Prop
  | .write _ count, .pipe p => 0 < count ∧ (tab.pipes p).readers = 0
  | .write _ count, .file f =>
    match layer with
    | .riscv64 => True
    | .shared =>
      match f.node with
      | .xv6fs i => 0 < count ∧
        2 ^ 32 ≤ Files.Fd.start ⟨f.offset, append flags⟩ tab.world.vol i % 2 ^ 32 + min count writeChunkMax
      | .ramfs _ =>
        match tab.world.findRamfs f.path with
        | none => True
        | some s =>
          let rf := (tab.world.slots s).file
          ¬ rf.CanGrow tab.world.heap ((Files.Fd.named ⟨f.offset, append flags⟩ rf.view + count) % 2 ^ 64)
  | .read count, .file f =>
    match layer with
    | .shared =>
      match f.node with
      | .xv6fs i => 2 ^ 31 ≤ readable (inodeAt tab.world.vol i).size (f.offset % 2 ^ 32) (count % 2 ^ 32)
      | .ramfs _ => False
    | .riscv64 => SysReadFails tab.world f count (tab.world.named f)
  | _, _ => False

/-- The file systems are in order, the disk can be read, and no offset or slot is out of range. -/
structure World.Sound (c : Setting) (w : World) (f : FsFile) : Prop where
  wf : WellFormed w.vol
  live : ∀ i, f.node = .xv6fs i → Live w.vol i
  shows : c.bio.Shows w.vol.mem
  reads : c.env.Reads
  clock : ∀ k, c.clock k < 2 ^ 32
  ok : ∀ s, (w.slots s).file.Ok
  memory : ∀ s needed, (Ramfs.ramfsGrow w.heap (w.slots s).file needed).2.2.capacity < 2 ^ 63
  offset : f.offset < 2 ^ 64

theorem SameFiles.refl (w : World) : SameFiles w w := ⟨fun _ => .refl _, fun _ => .refl _⟩

/-! ### Each kind of object -/

variable {i count : Nat} {f : FsFile} {src : Nat → BitVec 8} {c : Setting} {tab : Table T} {t : T} {flags : BitVec 32}

/-- A write that fails on xv6fs leaves the descriptor's offset. -/
theorem fsWrite_failed_offset {v : Vol} {f : Files.Fd} {clock : Nat → Nat}
    (h : (fsWrite v i f src count clock).1 < 0) : (fsWrite v i f src count clock).2.1 = f := by
  simp only [Files.fsWrite] at h ⊢
  split
  · rename_i hnone
    rw [hnone] at h
    exact absurd h (not_lt.mpr (Int.natCast_nonneg _))
  rename_i n hsome
  rw [hsome] at h
  split
  · rfl
  rename_i hn
  simp only [if_neg hn] at h
  omega

section
variable (hs : tab.world.Sound c f) (hnode : f.node = .xv6fs i)
include hs hnode

theorem xv6fs_write_denied :
    Denied .shared c tab t flags (.write src count) (.file f) ↔ Shut .shared tab flags (.write src count) (.file f) := by
  obtain ⟨hret, hsame, -⟩ := fsWrite_spec hs.wf (hs.live i hnode) ⟨f.offset, append flags⟩ src count hs.clock
  have ho : Files.Fd.start ⟨f.offset, append flags⟩ tab.world.vol i % 2 ^ 32 < 2 ^ 32 := Nat.mod_lt _ (by decide)
  simp only [Denied, Call.run, Call.on, Call.target, World.fsWrite, Shut, hnode, some.injEq, Prod.mk.injEq]
  constructor
  · rintro ⟨r, f', w', ⟨rfl, rfl, rfl⟩, hneg, -, -⟩
    simp only [hret] at hneg
    by_cases hz : accepted (Files.Fd.start ⟨f.offset, append flags⟩ tab.world.vol i % 2 ^ 32) count = 0 ∧ 0 < count
    · exact ⟨hz.2, ((accepted_eq_zero ho).mp hz.1).resolve_left (ne_of_gt hz.2)⟩
    · rw [if_neg hz] at hneg
      exact absurd hneg (not_lt.mpr (Int.natCast_nonneg _))
  · rintro ⟨hpos, hover⟩
    have hz := (accepted_eq_zero ho).mpr (.inr hover)
    rw [if_pos ⟨hz, hpos⟩] at hret
    have hneg : (fsWrite tab.world.vol i ⟨f.offset, append flags⟩ src count c.clock).1 < 0 := by
      rw [hret]
      decide
    refine ⟨_, _, _, ⟨rfl, rfl, rfl⟩, hneg, ?_, ?_⟩
    · simp only [fsWrite_failed_offset hneg]
    · rw [hsame hz]
      exact .refl _

theorem xv6fs_read_denied :
    Denied .shared c tab t flags (.read count) (.file f) ↔ Shut .shared tab flags (.read count) (.file f) := by
  obtain ⟨hret, -⟩ := fsRead_spec hs.shows hs.reads i f.offset count c.dst
  simp only [Denied, Call.run, Call.on, Call.target, World.fsRead, Shut, hnode, some.injEq, Prod.mk.injEq]
  constructor
  · rintro ⟨r, f', w', ⟨rfl, rfl, rfl⟩, hneg, -, -⟩
    simp only [hret] at hneg
    by_contra hsmall
    rw [if_neg hsmall] at hneg
    exact absurd hneg (not_lt.mpr (Int.natCast_nonneg _))
  · intro hbig
    rw [if_pos hbig] at hret
    have hneg : (fsRead c.env c.bio tab.world.vol i f.offset count c.dst).1 < 0 := by
      rw [hret]
      decide
    exact ⟨_, _, _, ⟨rfl, rfl, rfl⟩, hneg, if_pos hneg, .refl _⟩

end

/-- A write to a ramfs file fails only for want of memory. -/
theorem ramfs_write_neg {h : Heap} {rf : Ramfs} (hok : rf.Ok) (hmem : ∀ needed, (ramfsGrow h rf needed).2.2.capacity < 2 ^ 63)
    {f : Files.Fd} (hf : f.offset < 2 ^ 64) (src : Nat → BitVec 8) {r : Int × Heap × Ramfs}
    (hr : fsWrite h rf f src count = some r) (hneg : r.1 < 0) : ¬ rf.CanGrow h ((f.named rf.view + count) % 2 ^ 64) := by
  intro hcan
  have hstart := named_lt hok hf
  rcases eq_zero_or_pos count with rfl | hpos
  · obtain ⟨h', rf', hcall, -⟩ := ramfs_write_empty hok f src hstart hcan
    rw [hcall] at hr
    obtain rfl := some.inj hr
    exact absurd hneg (lt_irrefl 0)
  rcases lt_or_ge (f.named rf.view + count + pageSize - 1) (2 ^ 64) with hfit | hover
  · obtain ⟨h', rf', hcall, hok', hsz, -, hcap⟩ := fsWrite_stored hok h f src hfit hcan
    have hbound := hmem ((f.named rf.view + count) % 2 ^ 64)
    have hle := hok'.size
    rw [hcall, toInt_of_lt (by omega)] at hr
    obtain rfl := some.inj hr
    exact absurd hneg (not_lt.mpr (Int.natCast_nonneg _))
  · rw [ramfs_write_wild hok f src hpos hstart hover hcan] at hr
    cases hr

theorem ramfs_write_denied {s₀ : Nat} (hs : tab.world.Sound c f) (hnode : f.node = .ramfs s₀) :
    Denied .shared c tab t flags (.write src count) (.file f) ↔ Shut .shared tab flags (.write src count) (.file f) := by
  simp only [Denied, Call.run, Call.target, Shut, hnode]
  rcases hfind : tab.world.findRamfs f.path with - | s
  · exact iff_of_true ⟨_, _, _, rfl, show -enoent < 0 by decide, rfl, .refl _⟩ trivial
  simp only [map_some]
  constructor
  · rintro ⟨r, f', w', hcall, hneg, -, -⟩
    obtain ⟨x, hx, heq⟩ := map_eq_some_iff.mp hcall
    obtain ⟨rfl, -, -⟩ : _ = r ∧ _ = f' ∧ _ = w' := by simpa only [Prod.mk.injEq] using heq
    exact ramfs_write_neg (hs.ok s) (hs.memory s) hs.offset src hx hneg
  · intro hno
    obtain ⟨h', rf', hcall, -, hsz, hdata⟩ := fsWrite_failed (hs.ok s) tab.world.heap ⟨f.offset, append flags⟩ src hno
    rw [← grow_iff (hs.ok s), Bool.not_eq_true] at hno
    refine ⟨_, _, _, map_eq_some_iff.mpr ⟨_, hcall, rfl⟩, show -enospc < 0 by decide, ?_, fun _ => .refl _, fun u => ?_⟩
    · exact if_neg (by rw [← Bool.not_eq_true] at hno; exact hno)
    · rcases eq_or_ne u s with rfl | hne
      · simp only [setFile, update_self]
        exact ⟨hsz, fun p _ => congrFun hdata p⟩
      · simp only [setFile, update_of_ne hne]
        exact .refl _

theorem ramfs_read_denied {s : Nat}
    (hs : tab.world.Sound c f) (hnode : f.node = .ramfs s) : ¬ Denied .shared c tab t flags (.read count) (.file f) := by
  simp only [Denied, Call.run, Call.target, hnode]
  rintro ⟨r, f', w', hcall, hneg, -, -⟩
  obtain ⟨x, hx, heq⟩ := map_eq_some_iff.mp hcall
  obtain ⟨rfl, -, -⟩ : _ = r ∧ _ = f' ∧ _ = w' := by simpa only [Prod.mk.injEq] using heq
  obtain ⟨dst', hread, -⟩ := fsRead_spec (hs.ok s) f.offset count c.dst
  have hle := (hs.ok s).size
  have hcap : (tab.world.slots s).file.capacity < 2 ^ 63 := by simpa [ramfsGrow] using hs.memory s 0
  rw [toInt_of_lt (by omega)] at hread
  obtain rfl := some.inj (hread.symm.trans hx)
  exact absurd hneg (not_lt.mpr (Int.natCast_nonneg _))

/-- A read on riscv64 that finds no file by the path. -/
theorem sysRead_missing {w : World} {o : Option Node} (hread : w.sysRead c f count o =
      if f.offset ≥ f.size then (⟨0, c.dst, none⟩, f, w) else (⟨-1, c.dst, none⟩, f, w)) (hfails : SysReadFails w f count o ↔ f.offset < f.size) :
    ((w.sysRead c f count o).1.res < 0 ↔ SysReadFails w f count o) ∧
      ((w.sysRead c f count o).1.res < 0 → (w.sysRead c f count o).2.1.offset = f.offset) ∧ (w.sysRead c f count o).2.2 = w := by
  rw [hread, hfails]
  rcases lt_or_ge f.offset f.size with hlt | hge
  · rw [if_neg (not_le.mpr hlt)]
    exact ⟨iff_of_true (show (-1) < 0 by decide) hlt, fun _ => rfl, rfl⟩
  · rw [if_pos hge]
    exact ⟨iff_of_false (lt_irrefl 0) (not_lt.mpr hge), fun _ => rfl, rfl⟩

/-- A read that fails on riscv64 moves nothing. -/
theorem sysRead_failed {w : World} (hs : w.Sound c f) (count : Nat) : ∀ o : Option Node,
    ((w.sysRead c f count o).1.res < 0 ↔ SysReadFails w f count o) ∧
      ((w.sysRead c f count o).1.res < 0 → (w.sysRead c f count o).2.1.offset = f.offset) ∧ (w.sysRead c f count o).2.2 = w
  | some (.xv6fs i) => by
    obtain ⟨hret, -⟩ := fsRead_spec hs.shows hs.reads i f.offset (min count ((inodeAt w.vol i).size - f.offset)) c.dst
    rcases lt_or_ge f.offset (inodeAt w.vol i).size with hlt | hge
    swap
    · rw [show w.sysRead c f count (some (.xv6fs i)) = _ from if_pos hge]
      exact ⟨iff_of_false (lt_irrefl 0) fun h => absurd h.1 (not_lt.mpr hge), fun _ => rfl, rfl⟩
    rw [SysReadFails, and_iff_right hlt]
    rcases lt_or_ge (readable (inodeAt w.vol i).size (f.offset % 2 ^ 32)
      (min count ((inodeAt w.vol i).size - f.offset) % 2 ^ 32)) (2 ^ 31) with hsmall | hbig
    · rw [if_neg (not_le.mpr hsmall)] at hret
      have hnn := not_lt.mpr (hret ▸ Int.natCast_nonneg _)
      rw [show w.sysRead c f count (some (.xv6fs i)) = _ from (if_neg (not_le.mpr hlt)).trans (if_neg hnn)]
      exact ⟨iff_of_false hnn (not_le.mpr hsmall), fun h => absurd h hnn, rfl⟩
    rw [if_pos hbig] at hret
    have hneg := hret.trans_lt (by decide : -eio < 0)
    rw [show w.sysRead c f count (some (.xv6fs i)) = _ from (if_neg (not_le.mpr hlt)).trans (if_pos hneg)]
    exact ⟨iff_of_true (show (-1) < 0 by decide) hbig, fun _ => rfl, rfl⟩
  | some (.ramfs s) => sysRead_missing rfl .rfl
  | none => sysRead_missing rfl .rfl

/-- The loop of a write on a pipe answers with a number of bytes unless its first turn finds no reader. -/
theorem pipeWrite_answer (t : T) : ∀ (fuel written : Nat) (src : List UInt8) (p : Pipe T) {res : Int} {p' : Pipe T},
    pipeWrite t fuel written src p = .answered res p' → res < 0 → written = 0 ∧ src ≠ [] ∧ p.readers = 0 := by
  intro fuel
  induction fuel with
  | zero =>
    intro written src p res p' h hneg
    cases h
    exact absurd hneg (not_lt.mpr (Int.natCast_nonneg _))
  | succ fuel ih =>
    intro written src p res p' h hneg
    rw [pipeWrite] at h
    rcases eq_or_ne src [] with rfl | hsrc
    · rw [if_pos rfl] at h
      cases h
      exact absurd hneg (not_lt.mpr (Int.natCast_nonneg _))
    rw [if_neg hsrc] at h
    rcases eq_or_ne p.readers 0 with hr | hr
    · simp only [Pipe.write, if_pos hr] at h
      cases h
      refine ⟨?_, hsrc, hr⟩
      by_contra hw
      rw [if_pos (pos_of_ne_zero hw)] at hneg
      exact absurd hneg (not_lt.mpr (Int.natCast_nonneg _))
    rcases eq_or_ne p.ring.count pipeBufSize with hfull | hfull
    · simp only [Pipe.write, if_neg hr, if_pos hfull] at h
      cases h
    · simp only [Pipe.write, if_neg hr, if_neg hfull] at h
      exact absurd (ih _ _ _ h hneg).2.2 hr

theorem bytesOf_ne_nil : bytesOf src count ≠ [] ↔ 0 < count := by
  rw [bytesOf, ne_eq, map_eq_nil_iff, range_eq_nil]
  omega

theorem pipe_denied {layer : Layer} {p : Nat} {q : Call} {mode : BitVec 32}
    (hq : q.Against mode) : Denied layer c tab t flags q (.pipe p) ↔ Shut layer tab flags q (.pipe p) := by
  cases q with
  | ftruncate | fstat => exact hq.elim
  | write src count =>
    constructor
    · rintro ⟨res, hcall, hneg⟩
      obtain ⟨-, hsrc, hr⟩ := pipeWrite_answer t _ _ _ _ hcall hneg
      exact ⟨bytesOf_ne_nil.mp hsrc, hr⟩
    · rintro ⟨hpos, hr⟩
      refine ⟨-epipe, ?_, by decide⟩
      simp only [Call.onPipe, pipeWrite, if_neg (bytesOf_ne_nil.mpr hpos), Pipe.write, if_pos hr, lt_irrefl, if_false]
  | read count =>
    refine iff_of_false ?_ id
    rintro ⟨res, hcall, hneg⟩
    simp only [Call.onPipe, pipeRead] at hcall
    rcases hread : (tab.pipes p).read t count with - | p' | ⟨p', bytes, wake⟩ <;> rw [hread] at hcall <;> cases hcall
    · exact absurd hneg (by decide)
    · exact absurd hneg (not_lt.mpr (Int.natCast_nonneg _))

/-! ### All calls -/

/-- CORRECT exactly when the call is shut: after any sequence of opens, `dup`s, forks and `fcntl`s, a call through a
    descriptor against the mode it was opened with fails and changes nothing just when a call in either direction
    would, riscv64's writes to files apart, which are always refused. -/
theorem against_mode_denied_iff (layer : Layer) {c : Setting} {tab : Table T} (h : tab.Reaches) {t : T} {n : Nat} {fd : Fd} {o : Opened}
    (hfd : tab.fds t n = some fd) (ho : tab.files fd.file = some o) (hs : ∀ f, o.obj = .file f → tab.world.Sound c f) {q : Call}
    (hq : q.Against o.mode) : Denied layer c tab t fd.flags q o.obj ↔ Shut layer tab fd.flags q o.obj := by
  obtain ⟨o', ho', hmode⟩ := h.modesKept t n fd hfd
  obtain rfl := some.inj (ho.symm.trans ho')
  rcases hobj : o.obj with f | p
  swap
  · exact pipe_denied hq
  have hsound := hs f hobj
  cases q with
  | ftruncate | fstat => exact hq.elim
  | read count =>
    cases layer with
    | riscv64 =>
      obtain ⟨hneg, hoff, hworld⟩ := sysRead_failed hsound count (tab.world.named f)
      refine trans ?_ hneg
      constructor
      · rintro ⟨r, f', w', hcall, hres, -⟩
        rw [Call.run, Call.target] at hcall
        rwa [some.inj hcall]
      · intro hres
        exact ⟨_, _, _, rfl, hres, hoff hres, hworld.symm ▸ .refl _⟩
    | shared =>
      rcases hnode : f.node with i | s
      · exact xv6fs_read_denied hsound hnode
      · refine iff_of_false (ramfs_read_denied hsound hnode) ?_
        simp only [Shut, hnode, not_false_eq_true]
  | write src count =>
    cases layer with
    | riscv64 =>
      -- the one place that looks at the mode
      have hflags : flagsWritable fd.flags = false := by
        have hro : fd.flags &&& oAccmode = oRdonly := hmode.trans hq
        simp only [flagsWritable, hro]
        decide
      have hcall : tab.world.sysWrite c fd.flags f src count (tab.world.named f) = (⟨-ebadf, c.dst, none⟩, f, tab.world) := by
        rw [sysWrite, if_pos (by rw [hflags]; decide)]
      exact iff_of_true ⟨_, f, tab.world, congrArg some hcall, show -ebadf < 0 by decide, rfl, .refl _⟩ trivial
    | shared =>
      rcases hnode : f.node with i | s
      · exact xv6fs_write_denied hsound hnode
      · exact ramfs_write_denied hsound hnode

/-! ### Small tables -/

/-- A volume with one empty file, which every path leads to, no ramfs file and no memory for one. -/
def World.small : World where
  vol := tiny 9
  lookup := fun _ => some 1
  heap := ⟨fun _ _ => false, 0⟩
  slots := fun _ => ⟨false, [], 0, 0, .empty, 0⟩
  modules := fun _ => none

/-- An empty pipe with one end of each kind. -/
def freshPipe : Pipe Nat := ⟨Ring.empty (fun _ => 0) Pipes.pipeBufSize_pos, 2, 1, 1, .init, .init⟩

/-- The file of the small world, just opened. -/
def smallFile : FsFile := ⟨.xv6fs 1, [47, 97], 0, 0⟩

theorem World.small_sound : small.Sound (.plain (tiny 9)) smallFile where
  wf := tiny_wellFormed (by decide)
  live := by
    rintro i ⟨⟩
    exact tiny_one 9
  shows := plain_shows _
  reads := fun _ => rfl
  clock := fun _ => Nat.two_pow_pos 32
  ok := fun _ => empty_ok
  memory := by
    intro s needed
    have hcap : (ramfsGrow ⟨fun _ _ => false, 0⟩ .empty needed).2.2.capacity = 0 := by
      simp only [ramfsGrow, ramfsGrowTable, Heap.pmmAlloc, empty]
      split
      · rfl
      split
      · rename_i hneed
        rw [Nat.le_zero.mp hneed]
        rfl
      · simp
    exact hcap.trans_lt (by decide)
  offset := by decide

/-- The table without descriptors. -/
def Table.start : Table Nat := ⟨.small, fun _ => freshPipe, fun _ => none, fun _ _ => none⟩

/-- On riscv64 a file opened for reading stays so when `F_SETFL` asks for `O_RDWR`, and the write is refused. -/
theorem against_mode_denied_riscv64 :
    ∃ tab fd, Table.Reaches tab ∧ tab = (Table.start.install 0 3 0 (.file smallFile) oRdonly).setFd 0 3 (some fd) ∧
      fd = Fd.setfl ⟨0, oRdonly⟩ oRdwr ∧ Denied .riscv64 (.plain (tiny 9)) tab 0 fd.flags (.write (fun _ => 7) 1) (.file smallFile) := by
  have hopen := Table.Reaches.step (.empty small fun _ => freshPipe) (.opens 0 3 0 (.file smallFile) oRdonly rfl rfl)
  have hset := hopen.step (.setfl 0 3 oRdwr rfl)
  have hagainst : (Call.write (fun _ => 7) 1).Against oRdonly := rfl
  have hsound : ∀ f, Obj.file smallFile = .file f → small.Sound (.plain (tiny 9)) f := by
    rintro f ⟨⟩
    exact small_sound
  refine ⟨_, _, hset, rfl, rfl, Iff.mpr (against_mode_denied_iff .riscv64 hset (t := 0) (n := 3) rfl rfl hsound hagainst) trivial⟩

/-- INCORRECT in general: in `kernel/fs.c` a byte written through a file opened with `O_RDONLY` is stored, and a byte
    written to the read end of a pipe goes into it. -/
theorem against_mode_served : ∃ tab : Table Nat, tab.Reaches ∧ tab.fds 0 3 = some ⟨0, oRdonly⟩ ∧ tab.fds 0 4 = some ⟨1, oRdonly⟩ ∧
      tab.files 0 = some ⟨.file smallFile, oRdonly⟩ ∧ tab.files 1 = some ⟨.pipe 0, oRdonly⟩ ∧
      (∃ r f' w', (Call.write (fun _ => 7) 1).run .shared (.plain (tiny 9)) tab.world oRdonly smallFile = some (r, f', w') ∧
        r.res = 1 ∧ (inodeAt w'.vol 1).size = 1) ∧
      ¬ Denied .shared (.plain (tiny 9)) tab 0 oRdonly (.write (fun _ => 7) 1) (.file smallFile) ∧
      ¬ Denied .shared (.plain (tiny 9)) tab 0 oRdonly (.write (fun _ => 7) 1) (.pipe 0) := by
  have hfile := Table.Reaches.step (.empty small fun _ => freshPipe) (.opens 0 3 0 (.file smallFile) oRdonly rfl rfl)
  have hpipe := hfile.step (.opens 0 4 1 (.pipe 0) oRdonly rfl rfl)
  refine ⟨_, hpipe, rfl, rfl, rfl, rfl, ⟨_, _, _, rfl, ?_, ?_⟩, fun h => ?_, fun h => ?_⟩
  · decide +kernel
  · decide +kernel
  · have hshut := (xv6fs_write_denied small_sound rfl).mp h
    exact absurd hshut.2 (by decide +kernel)
  · have hshut := (pipe_denied (show (Call.write (fun _ => 7) 1).Against oRdonly from rfl)).mp h
    exact absurd hshut.2 (by decide)

end Orthox.Open
