import Orthox.Namespace.Calls
import Orthox.Open.Names

/-! What a descriptor denotes. After an open, names are made, moved and removed by anybody while the descriptor is used. A
    call that looks its path up again goes to whatever the path leads to by then; one that kept the slot of a ramfs file
    goes to whatever is in the slot. Reads and writes of an xv6fs file in `kernel/fs.c` keep the inode. -/

namespace Orthox.Open
open Blocks Files List Option Function

/-! ### Runs -/

/-- The file systems and an open file. `gen` counts how often each inode was allocated, which no code knows. -/
structure Scene where
  world : World
  gen : Nat → Nat
  file : FsFile

/-- A call that was made, and what it found. -/
structure Made extends Scene where
  setting : Setting
  flags : BitVec 32
  call : Call

/-- A run around one open file: `id` tells which file was opened from others that have its inode or slot later, `made`
    numbers the ramfs files. -/
structure Session extends Scene where
  id : Nat
  made : Nat
  log : List Made

/-- A call of some task that changes names, or data. -/
inductive Act where
  | creat (path : Path) (mode now : Nat) (d : Option Done)
  | unlink (path : Path) (d : Option Done)
  | mkdir (path : Path) (mode now : Nat) (there : Bool) (d : Option Done)
  | rmdir (path : Path) (d : Option Done)
  | rename (old new : Path) (d : Option Done)
  /-- `link`, `symlink`, `mknod` and every call of riscv64, which has no ramfs. -/
  | xv6fs (d : Done)
  /-- Writes and truncations through other descriptors. -/
  | data (vol : Vol) (heap : Heap) (file : Nat → Ramfs)

/-- The file systems after it; a ramfs file that is made gets number `id`. -/
def Act.run (w : World) (id : Nat) : Act → World
  | .creat path mode now d => w.fsOpenCreat path mode now id d
  | .unlink path d => (w.fsUnlink path d).2
  | .mkdir path mode now there d => (w.fsMkdir path mode now id there d).2
  | .rmdir path d => (w.fsRmdir path d).2
  | .rename old new d => (w.fsRename old new d).2
  | .xv6fs d => w.after (some d)
  | .data vol heap file => { w with vol := vol, heap := heap, slots := fun s => { w.slots s with file := file s } }

namespace Session

/-- Somebody acts. -/
def act (s : Session) (a : Act) (gen : Nat → Nat) : Session :=
  { s with world := a.run s.world s.made, gen := gen, made := s.made + 1 }

/-- A call through the descriptor. -/
def call (s : Session) (layer : Layer) (c : Setting) (flags : BitVec 32) (q : Call) : Session :=
  let s' := { s with log := ⟨s.toScene, c, flags, q⟩ :: s.log }
  match q.run layer c s.world flags s.file with
  | some (_, f, w) => { s' with world := w, file := f }
  | none => s'

/-- Just opened by a path, of which 63 bytes are kept. -/
structure Opened (s : Session) : Prop where
  path : ∃ path, s.file.path = path.take 63 ∧
    match s.file.node with
    | .xv6fs i => s.world.lookup path = some i ∧ s.id = s.gen i
    | .ramfs t => s.world.findRamfs path = some t ∧ s.id = (s.world.slots t).id
  log : s.log = []

end Session

/-- The volume is well formed, the file the call goes to is allocated, and times fit. -/
structure Scene.InOrder (s : Scene) (layer : Layer) (c : Setting) (q : Call) : Prop where
  wf : WellFormed s.world.vol
  live : ∀ i, q.target layer s.world s.file = some (.xv6fs i) → Live s.world.vol i
  clock : ∀ k, c.clock k < 2 ^ 32

/-- The runs in which every call meets `ok`. In `kernel/fs.c` an open file holds a reference to its inode, which is not
    allocated again meanwhile. -/
inductive Reaches (layer : Layer) (ok : Scene → Nat → Call → Prop) : Session → Prop where
  | opened {s : Session} (h : s.Opened) : Reaches layer ok s
  | act {s : Session} (h : Reaches layer ok s) (a : Act) (gen : Nat → Nat)
    (held : layer = .shared → ∀ i, s.file.node = .xv6fs i → gen i = s.gen i) : Reaches layer ok (s.act a gen)
  | call {s : Session} (h : Reaches layer ok s) (c : Setting) (flags : BitVec 32) (q : Call)
    (order : s.InOrder layer c q) (hok : ok s.toScene s.id q) : Reaches layer ok (s.call layer c flags q)

/-! ### The opened object -/

/-- `o` is the file that was opened. -/
def Scene.Denotes (s : Scene) (id : Nat) : Node → Prop
  | .xv6fs i => s.file.node = .xv6fs i ∧ s.gen i = id
  | .ramfs t => (∃ u, s.file.node = .ramfs u) ∧ (s.world.slots t).inUse = true ∧ (s.world.slots t).id = id

/-- Everything but `o` is as it was. -/
structure OnlyOn (o : Node) (w w' : World) : Prop where
  xv6fs : ∀ j, Live w.vol j → o ≠ .xv6fs j →
    inodeAt w'.vol j = inodeAt w.vol j ∧ data w'.vol (inodeAt w'.vol j) = data w.vol (inodeAt w.vol j)
  ramfs : ∀ t, o ≠ .ramfs t → w'.slots t = w.slots t
  lookup : w'.lookup = w.lookup

/-- A call that ended with `x` touched `o` at most, and the descriptor remembers the same file. -/
structure Kept (o : Node) (w : World) (f : FsFile) (x : Reply × FsFile × World) : Prop where
  node : x.2.1.node = f.node
  path : x.2.1.path = f.path
  only : OnlyOn o w x.2.2

/-- The call did what it does on the opened object, and touched no other. -/
def Made.Faithful (m : Made) (layer : Layer) (id : Nat) : Prop :=
  ∃ o, m.Denotes id o ∧
    m.call.run layer m.setting m.world m.flags m.file = m.call.on layer m.setting m.world m.flags m.file (some o) ∧
    ∀ x, m.call.run layer m.setting m.world m.flags m.file = some x → Kept o m.world m.file x

/-- What the call looks up leads to the opened file: the kept path does, or the kept slot still has it. A call that goes
    by the kept inode, as reads and writes of xv6fs files in `kernel/fs.c`, is always led right. -/
def Led (layer : Layer) (s : Scene) (id : Nat) (q : Call) : Prop :=
  match q.target layer s.world s.file with
  | none => False
  | some (.xv6fs i) => s.file.node = .xv6fs i ∧ (layer = .riscv64 → s.gen i = id)
  | some (.ramfs t) => (∃ u, s.file.node = .ramfs u) ∧ (s.world.slots t).inUse = true ∧ (s.world.slots t).id = id

/-! ### What a call touches -/

/-- `v'` differs from `v` in file `i` at most. -/
def Within (v : Vol) (i : Nat) (v' : Vol) : Prop := v' = v ∨ ∃ ip', Changed v i v' ip'

variable {i : Nat} {clock : Nat → Nat} {v : Vol}

section
variable (h : WellFormed v) (hi : Live v i)
include h hi

theorem fsWrite_within (f : Files.Fd) (src : Nat → BitVec 8) (count : Nat)
    (hclock : ∀ k, clock k < 2 ^ 32) : Within v i (fsWrite v i f src count clock).2.2 := by
  obtain ⟨-, hsame, hwrote⟩ := fsWrite_spec h hi f src count hclock
  rcases eq_or_ne (accepted (f.start v i % 2 ^ 32) count) 0 with hz | hz
  · exact .inl (hsame hz)
  · obtain ⟨ip', hw⟩ := hwrote hz
    exact .inr ⟨ip', hw.toChanged⟩

theorem writeFile_within (src : Nat → BitVec 8) (offset : Nat) {n : Nat} (hn : n ≠ 0) (hclock : ∀ k, clock k < 2 ^ 32) :
    Within v i (xv6fsWriteFile v i src offset n clock).2 := by
  obtain ⟨-, hsame, hwrote⟩ := writeFile_spec h hi src offset hn hclock
  rcases eq_or_ne (accepted (offset % 2 ^ 32) n) 0 with hz | hz
  · exact .inl (hsame hz)
  · obtain ⟨ip', hw⟩ := hwrote hz
    exact .inr ⟨ip', hw.toChanged⟩

theorem truncate_within (length : Nat) {now : Nat} (hn : now < 2 ^ 32) : Within v i (xv6fsTruncateFile v i length now).2 := by
  have hl : length % 2 ^ 32 < 2 ^ 32 := Nat.mod_lt _ (by decide)
  simp only [xv6fsTruncateFile]
  split
  · exact .inl rfl
  split
  · exact .inr ⟨_, (itruncTo_spec h hi hl hn).1⟩
  · exact .inr ⟨_, (resize_spec h hi hl hn).1⟩

end

namespace OnlyOn

theorem refl (o : Node) (w : World) : OnlyOn o w w := ⟨fun _ _ _ => ⟨rfl, rfl⟩, fun _ _ => rfl, rfl⟩

theorem vol {w : World} {v' : Vol} (h : Within w.vol i v') : OnlyOn (.xv6fs i) w { w with vol := v' } := by
  refine ⟨fun j hj hne => ?_, fun _ _ => rfl, rfl⟩
  have hne : j ≠ i := fun hji => hne (by rw [hji])
  rcases h with rfl | ⟨ip', hc⟩
  · exact ⟨rfl, rfl⟩
  · exact ⟨hc.others j hj.1 hne, hc.bytes j hj hne⟩

theorem setFile (w : World) (s : Nat) (h : Heap) (rf : Ramfs) (mtime : Nat) : OnlyOn (.ramfs s) w (w.setFile s h rf mtime) :=
  ⟨fun _ _ _ => ⟨rfl, rfl⟩, fun _ hne => update_of_ne (fun h => hne (by rw [h])) .., rfl⟩

end OnlyOn

theorem Kept.ite {o : Node} {w : World} {f : FsFile} {x y : Reply × FsFile × World} {p : Prop} [Decidable p]
    (hx : p → Kept o w f x) (hy : ¬ p → Kept o w f y) : Kept o w f (if p then x else y) := by
  split
  · exact hx ‹_›
  · exact hy ‹_›

section
variable {c : Setting} {w : World} {f : FsFile} {x : Reply × FsFile × World} {o : Node} {flags : BitVec 32}
  {src : Nat → BitVec 8} {count : Nat}

theorem fsRead_kept (h : w.fsRead c f count (some o) = some x) : Kept o w f x := by
  cases o with
  | xv6fs i =>
    obtain rfl := some.inj h
    exact ⟨rfl, rfl, .refl _ _⟩
  | ramfs s =>
    obtain ⟨y, -, rfl⟩ := map_eq_some_iff.mp h
    exact ⟨rfl, rfl, .refl _ _⟩

theorem sysRead_kept : Kept o w f (w.sysRead c f count (some o)) := by
  cases o with
  | xv6fs i => exact .ite (fun _ => ⟨rfl, rfl, .refl _ _⟩) fun _ => .ite (fun _ => ⟨rfl, rfl, .refl _ _⟩) fun _ => ⟨rfl, rfl, .refl _ _⟩
  | ramfs t => exact .ite (fun _ => ⟨rfl, rfl, .refl _ _⟩) fun _ => ⟨rfl, rfl, .refl _ _⟩

variable (hwf : WellFormed w.vol) (hlive : ∀ i, o = .xv6fs i → Live w.vol i) (hclock : ∀ k, c.clock k < 2 ^ 32)
include hwf hlive hclock

theorem fsWrite_kept (h : w.fsWrite c flags f src count (some o) = some x) : Kept o w f x := by
  cases o with
  | xv6fs i =>
    obtain rfl := some.inj h
    exact ⟨rfl, rfl, .vol (fsWrite_within hwf (hlive i rfl) _ _ _ hclock)⟩
  | ramfs s =>
    obtain ⟨y, -, rfl⟩ := map_eq_some_iff.mp h
    exact ⟨rfl, rfl, .setFile ..⟩

theorem fsFtruncate_kept : Kept o w f (w.fsFtruncate c f count (some o)) := by
  cases o with
  | xv6fs i =>
    have hin := OnlyOn.vol (truncate_within hwf (hlive i rfl) count (hclock 0))
    exact .ite (fun _ => ⟨rfl, rfl, hin⟩) fun _ => ⟨rfl, rfl, hin⟩
  | ramfs s => exact .ite (fun _ => ⟨rfl, rfl, .setFile ..⟩) fun _ => ⟨rfl, rfl, .setFile ..⟩

theorem sysFtruncate_kept : Kept o w f (w.sysFtruncate c flags f count (some o)) := by
  refine .ite (fun _ => ⟨rfl, rfl, .refl _ _⟩) fun _ => .ite (fun _ => ⟨rfl, rfl, .refl _ _⟩) fun _ => ?_
  cases o with
  | ramfs t => exact ⟨rfl, rfl, .refl _ _⟩
  | xv6fs i =>
    have hin := OnlyOn.vol (truncate_within hwf (hlive i rfl) count (hclock 0))
    exact .ite (fun _ => ⟨rfl, rfl, hin⟩) fun _ => ⟨rfl, rfl, hin⟩

theorem sysWrite_kept : Kept o w f (w.sysWrite c flags f src count (some o)) := by
  refine .ite (fun _ => ⟨rfl, rfl, .refl _ _⟩) fun _ => .ite (fun _ => ⟨rfl, rfl, .refl _ _⟩) fun _ =>
    .ite (fun _ => ⟨rfl, rfl, .refl _ _⟩) fun hcount => ?_
  -- the descriptor as `O_APPEND` leaves it
  obtain ⟨g, hg, hnode, hpath⟩ : ∃ g, g = (if append flags then
      { w.refreshXv6fsSize f (some o) with offset := (w.refreshXv6fsSize f (some o)).size } else f) ∧
      g.node = f.node ∧ g.path = f.path := by
    refine ⟨_, rfl, ?_⟩
    cases append flags with
    | false => exact ⟨rfl, rfl⟩
    | true => cases o <;> exact ⟨rfl, rfl⟩
  simp only [← hg]
  cases o with
  | ramfs t => exact ⟨hnode, hpath, .refl _ _⟩
  | xv6fs i =>
    have hin := OnlyOn.vol (writeFile_within hwf (hlive i rfl) src g.offset hcount hclock)
    exact .ite (fun _ => ⟨hnode, hpath, hin⟩) fun _ => ⟨hnode, hpath, hin⟩

/-- A call on `o` touches nothing else. -/
theorem on_kept {layer : Layer} {q : Call} (h : q.on layer c w flags f (some o) = some x) : Kept o w f x := by
  cases layer <;> cases q <;> simp only [Call.on, some.injEq] at h
  case shared.read => exact fsRead_kept h
  case shared.write => exact fsWrite_kept hwf hlive hclock h
  case shared.ftruncate => exact h ▸ fsFtruncate_kept hwf hlive hclock
  case riscv64.read => exact h ▸ sysRead_kept
  case riscv64.write => exact h ▸ sysWrite_kept hwf hlive hclock
  case riscv64.ftruncate => exact h ▸ sysFtruncate_kept hwf hlive hclock
  all_goals exact h ▸ ⟨rfl, rfl, .refl _ _⟩

end

/-! ### Whole runs -/

/-- What is kept along a run: an inode that is open is the one that was opened, and the calls so far were faithful. -/
structure Holds (layer : Layer) (s : Session) : Prop where
  gen : layer = .shared → ∀ i, s.file.node = .xv6fs i → s.gen i = s.id
  log : ∀ m ∈ s.log, m.Faithful layer s.id

section
variable {layer : Layer} {s : Session} {q : Call} (hs : Holds layer s)
include hs

/-- A call that is led right goes to the opened object. -/
theorem Led.target (h : Led layer s.toScene s.id q) : ∃ o, q.target layer s.world s.file = some o ∧ s.Denotes s.id o := by
  unfold Led at h
  split at h
  · exact h.elim
  · rename_i i htarget
    refine ⟨.xv6fs i, htarget, h.1, ?_⟩
    cases layer with
    | shared => exact hs.gen rfl i h.1
    | riscv64 => exact h.2 rfl
  · rename_i t htarget
    exact ⟨.ramfs t, htarget, h⟩

theorem Holds.call {c : Setting} {flags : BitVec 32} (order : s.InOrder layer c q) (hled : Led layer s.toScene s.id q) : Holds layer (s.call layer c flags q) := by
  obtain ⟨o, htarget, hden⟩ := hled.target hs
  have hrun : q.run layer c s.world flags s.file = q.on layer c s.world flags s.file (some o) := by rw [Call.run, htarget]
  have hkept : ∀ x, q.run layer c s.world flags s.file = some x → Kept o s.world s.file x := fun x hx =>
    on_kept order.wf (fun i hi => order.live i (by rw [htarget, hi])) order.clock (hrun ▸ hx)
  have hlog : ∀ m ∈ (⟨s.toScene, c, flags, q⟩ : Made) :: s.log, m.Faithful layer s.id := by
    intro m hm
    rcases mem_cons.mp hm with rfl | hm
    · exact ⟨o, hden, hrun, hkept⟩
    · exact hs.log m hm
  unfold Session.call
  split
  · rename_i r f w hsome
    refine ⟨fun hl i hi => hs.gen hl i ?_, hlog⟩
    exact (hkept _ hsome).node ▸ hi
  · exact ⟨hs.gen, hlog⟩

end

/-- `/tmp/a` -/
def tmpA : Path := [47, 116, 109, 112, 47, 97]

/-- `/tmp/b` -/
def tmpB : Path := [47, 116, 109, 112, 47, 98]

/-- One ramfs file, which is empty, and plenty of memory. -/
def World.oneRamfs : World where
  vol := tiny 9
  lookup := fun _ => none
  heap := ⟨fun _ _ => true, 0⟩
  slots := update (fun _ => ⟨false, [], 0, 0, .empty, 0⟩) 0 ⟨true, tmpA, 0o100644, 0, .empty, 0⟩
  modules := fun _ => none

/-- It has been opened. -/
def Session.start : Session := ⟨⟨.oneRamfs, fun _ => 0, ⟨.ramfs 0, tmpA, 0, 0⟩⟩, 0, 1, []⟩

theorem Session.start_opened : start.Opened := ⟨⟨tmpA, rfl, by decide +kernel, rfl⟩, rfl⟩

/-- Somebody makes `/tmp/b`. -/
def Session.other : Session := Session.start.act (.creat tmpB 0o644 5 none) fun _ => 0

/-- A byte to write. -/
def Call.byte : Call := .write (fun _ => 7) 1

/-- `/tmp/a` is renamed to `/tmp/b`, and a new `/tmp/a` is made. -/
def Session.replaced : Session :=
  (Session.start.act (.rename tmpA tmpB none) fun _ => 0).act (.creat tmpA 0o644 5 none) fun _ => 0

/-- A root directory with one file, `/a`, which is inode 2. -/
def oneName : Namespace.Fs Unit where
  ninodes := 8
  nfree := 4
  disk := fun i => if i = 1 then ⟨.dir, 1, 192⟩ else if i = 2 then ⟨.file, 1, 1⟩ else ⟨.free, 0, 0⟩
  slots := fun i k =>
    if i ≠ 1 then .zero
    else if k = 0 then ⟨1, Namespace.dot⟩ else if k = 1 then ⟨1, Namespace.dotdot⟩ else if k = 2 then ⟨2, [97]⟩ else .zero
  text := fun _ _ => 0
  blks := fun i => if i = 1 then [(0, [])] else []
  core := fun _ => ⟨0, false, ⟨.free, 0, 0⟩⟩
  used := 0
  lock := fun _ => none
  ops := fun _ => none
  outstanding := 0
  renameLock := none
  panic := false

/-- What the paths lead to, by `xv6fs_namei`. -/
def paths (fs : Namespace.Fs Unit) (p : Path) : Option Nat := ((Namespace.xv6fsNamei p).run (Namespace.Fs.exec ()) fs).1.join

/-- `/a` is renamed to `/b`, and a new `/a` is made. -/
def twoNames : Namespace.Fs Unit :=
  (((Namespace.Call.create [47, 97] false).code 8).run (Namespace.Fs.exec ())
    (((Namespace.Call.rename [47, 97] [47, 98]).code 8).run (Namespace.Fs.exec ()) oneName).2).2

end Orthox.Open
