import Orthox.Open.Denotes

/-! Where `SEEK_END` leads. `sys_lseek` takes the size that the open file has cached. Writes and truncations through this
    open file keep it up to date; those through another one, or by a path, do not. riscv64 takes the size anew before it
    looks at it. -/

namespace Orthox.Open
open Blocks Files Option

/-- The size of a file. -/
def Node.size (w : World) : Node → Nat
  | .xv6fs i => (inodeAt w.vol i).size
  | .ramfs s => (w.slots s).file.size

/-- `sys_lseek` on a file; what the path leads to is looked up by riscv64 only. -/
def sysLseek (layer : Layer) (w : World) (flags : BitVec 32) (f : FsFile) (o : Option Node) (offset : Int) (whence : Nat) :
    Int × FsFile :=
  let f := match layer with
    | .riscv64 => w.refreshXv6fsSize f o
    | .shared => f
  if 2 < whence then (-einval, f)
  else
    let next := (if whence = 0 then 0 else if whence = 1 then (BitVec.ofNat 64 f.offset).toInt else (BitVec.ofNat 64 f.size).toInt) + offset
    if next < 0 then (-einval, f)
    else if next > f.size ∧ ¬ flagsWritable flags then (-einval, f)
    else (next, { f with offset := next.toNat })

/-! ### Runs -/

/-- The file system is in order, as far as this file goes. -/
structure Node.InOrder (o : Node) (v : Vol) : Prop where
  wf : WellFormed v
  live : ∀ i, o = .xv6fs i → Live v i

/-- A truncation of an xv6fs file is below 4 GiB. -/
def Call.Narrow (o : Node) : Call → Prop
  | .ftruncate length => (∃ s, o = .ramfs s) ∨ length < 2 ^ 32
  | _ => True

/-- What an open file of `kernel/fs.c` and the file system come to from the time it was opened: calls go through it, and
    others change the file system in between, but not the size of this file. -/
inductive Uses (o : Node) : FsFile → World → Prop where
  | opened {f : FsFile} {w : World} (order : o.InOrder w.vol) (size : f.size = o.size w) : Uses o f w
  | call {f f' : FsFile} {w w' : World} (h : Uses o f w) (c : Setting) (clock : ∀ k, c.clock k < 2 ^ 32)
    (flags : BitVec 32) {q : Call} {r : Reply} (narrow : q.Narrow o) (hq : q.on .shared c w flags f (some o) = some (r, f', w')) :
    Uses o f' w'
  | lseek {f : FsFile} {w : World} (h : Uses o f w) (flags : BitVec 32) (offset : Int) (whence : Nat) :
    Uses o (sysLseek .shared w flags f (some o) offset whence).2 w
  | others {f : FsFile} {w : World} (h : Uses o f w) (w' : World) (order : o.InOrder w'.vol) (size : o.size w' = o.size w) :
    Uses o f w'

/-- `SEEK_END` leads to the end, and a position up to there is not refused. -/
def SeeksEnd (layer : Layer) (flags : BitVec 32) (o : Node) (f : FsFile) (w : World) : Prop :=
  (sysLseek layer w flags f (some o) 0 2).1 = o.size w ∧ ∀ p ≤ o.size w, (sysLseek layer w flags f (some o) p 0).1 = p

/-! ### The cached size -/

theorem growPages_size (need fuel : Nat) : ∀ (i : Nat) (h : Heap) (rf : Ramfs),
    (Ramfs.growPages need fuel i h rf).2.2.size = rf.size := by
  induction fuel with
  | zero => exact fun _ _ _ => rfl
  | succ fuel ih =>
    intro i h rf
    simp only [Ramfs.growPages]
    split_ifs <;> simp [ih]

theorem ramfsGrow_size (h : Heap) (rf : Ramfs) (needed : Nat) : (Ramfs.ramfsGrow h rf needed).2.2.size = rf.size := by
  simp only [Ramfs.ramfsGrow, Ramfs.ramfsGrowTable]
  split_ifs <;> simp [growPages_size]

theorem fsTruncate_size (h : Heap) (rf : Ramfs) (length : Nat) :
    ((Ramfs.fsTruncate h rf length).1 < 0 ∧ (Ramfs.fsTruncate h rf length).2.2.size = rf.size) ∨
    (¬ (Ramfs.fsTruncate h rf length).1 < 0 ∧ (Ramfs.fsTruncate h rf length).2.2.size = length) := by
  simp only [Ramfs.fsTruncate]
  split_ifs <;> simp [ramfsGrow_size, Ramfs.enospc]

section
variable {o : Node} {w w' : World} {f f' : FsFile} {c : Setting} {r : Reply} {flags : BitVec 32} (order : o.InOrder w.vol)
  (hsize : f.size = o.size w)
include order hsize

theorem fsWrite_cached (hclock : ∀ k, c.clock k < 2 ^ 32) {src : Nat → BitVec 8} {count : Nat}
    (h : w.fsWrite c flags f src count (some o) = some (r, f', w')) : o.InOrder w'.vol ∧ f'.size = o.size w' := by
  cases o with
  | xv6fs i =>
    obtain ⟨-, hsame, hwrote⟩ := fsWrite_spec order.wf (order.live i rfl) ⟨f.offset, append flags⟩ src count hclock
    cases h
    simp only [Node.size] at hsize ⊢
    rcases eq_or_ne (accepted (Fd.start ⟨f.offset, append flags⟩ w.vol i % 2 ^ 32) count) 0 with hz | hz
    · rw [hsame hz, ← hsize]
      exact ⟨order, by simp⟩
    · obtain ⟨ip', hw⟩ := hwrote hz
      have hcount : count ≠ 0 := by
        rintro rfl
        exact hz (accepted_zero (Nat.mod_lt _ (by decide)))
      refine ⟨⟨hw.wf, fun j hj => ?_⟩, ?_⟩
      · cases hj
        exact hw.live
      · rw [if_neg hcount, hw.inode, hw.size, hsize]
        omega
  | ramfs s =>
    obtain ⟨x, hx, heq⟩ := map_eq_some_iff.mp h
    cases heq
    refine ⟨order, ?_⟩
    simp only [Node.size, World.setFile, Function.update_self] at hsize ⊢
    simp only [Ramfs.fsWrite] at hx
    generalize (if append flags then (w.slots s).file.size else f.offset) = off at hx ⊢
    generalize (off + count) % 2 ^ 64 = tail at hx ⊢
    split at hx
    · rename_i hgrown
      split at hx
      · cases hx
      · cases hx
        simp [hgrown, hsize]
    · rename_i hgrown
      cases hx
      simp [hgrown, ramfsGrow_size, hsize]

theorem fsFtruncate_cached (hclock : ∀ k, c.clock k < 2 ^ 32) {length : Nat} (hown : (Call.ftruncate length).Narrow o)
    (h : w.fsFtruncate c f length (some o) = (r, f', w')) : o.InOrder w'.vol ∧ f'.size = o.size w' := by
  cases o with
  | xv6fs i =>
    have hlen : length < 2 ^ 32 := by simpa [Call.Narrow] using hown
    rcases truncate_spec order.wf (order.live i rfl) length (hclock 0) with ⟨-, hr⟩ | ⟨-, hr, hwf, hlive, hsz, -⟩
    · simp only [World.fsFtruncate, hr] at h
      cases h
      exact ⟨order, hsize⟩
    · simp only [World.fsFtruncate, hr] at h
      cases h
      refine ⟨⟨hwf, fun j hj => ?_⟩, (hsz.trans (Nat.mod_eq_of_lt hlen)).symm⟩
      cases hj
      exact hlive
  | ramfs s =>
    rcases fsTruncate_size w.heap (w.slots s).file length with ⟨hr, hsz⟩ | ⟨hr, hsz⟩
    · simp only [World.fsFtruncate, if_pos hr] at h
      cases h
      exact ⟨order, by simp [Node.size, World.setFile, hsz, hsize]⟩
    · simp only [World.fsFtruncate, if_neg hr] at h
      cases h
      exact ⟨order, by simp [Node.size, World.setFile, hsz]⟩

/-- A call of `kernel/fs.c` through the open file keeps its size up to date. -/
theorem call_cached (hclock : ∀ k, c.clock k < 2 ^ 32) {q : Call} (hown : q.Narrow o)
    (h : q.on .shared c w flags f (some o) = some (r, f', w')) : o.InOrder w'.vol ∧ f'.size = o.size w' := by
  cases q with
  | read count =>
    cases o with
    | xv6fs i =>
      cases h
      exact ⟨order, hsize⟩
    | ramfs s =>
      obtain ⟨x, -, hx⟩ := map_eq_some_iff.mp h
      cases hx
      exact ⟨order, hsize⟩
  | write src count => exact fsWrite_cached order hsize hclock h
  | ftruncate length => exact fsFtruncate_cached order hsize hclock hown (some.inj h)
  | fstat =>
    cases h
    exact ⟨order, hsize⟩

end

theorem lseek_size (w : World) (flags : BitVec 32) (f : FsFile) (o : Option Node) (offset : Int) (whence : Nat) :
    (sysLseek .shared w flags f o offset whence).2.size = f.size := by
  simp only [sysLseek]
  split_ifs <;> rfl

theorem Uses.cached {o : Node} {f : FsFile} {w : World} (h : Uses o f w) : o.InOrder w.vol ∧ f.size = o.size w := by
  induction h with
  | opened order size => exact ⟨order, size⟩
  | call _ c clock flags narrow hq ih => exact call_cached ih.1 ih.2 clock narrow hq
  | lseek _ flags offset whence ih => exact ⟨ih.1, (lseek_size ..).trans ih.2⟩
  | others _ w' order size ih => exact ⟨order, ih.2.trans size.symm⟩

/-- The file of `World.oneRamfs`, just opened. -/
def FsFile.fresh : FsFile := ⟨.ramfs 0, tmpA, 0, 0⟩

/-- A byte is written to it. -/
def grow : Option (Reply × FsFile × World) := Call.byte.on .shared (.plain (tiny 9)) .oneRamfs 0 .fresh (some (.ramfs 0))

theorem grow_size : grow.map (fun x => (Node.ramfs 0).size x.2.2) = some 1 := by decide +kernel

end Orthox.Open
