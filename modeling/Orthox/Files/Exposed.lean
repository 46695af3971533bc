import Orthox.Files.Exact

/-! Bytes that come into a file without being written. A trace carries, beside the file, the positions that lay at or behind the
    end at some moment and were not written since (`fresh`); when the size passes them they must read as zero. Cutting a file
    keeps the rest of its last block, or of all its pages in memory, so this holds only for cuts that hide nothing but zeros. -/

namespace Orthox.Files
open Blocks Option File Ramfs

/-- What is done to a file: a request by descriptor or path, or `xv6fs_write_file`. -/
inductive Op
  | request (q : Request)
  | writeFile (offset : Nat) (src : Nat → BitVec 8) (n : Nat)

/-- The positions a request with this result has written, as the caller named them. -/
def Request.wrote (a : View) (res : Int) : Request → Nat → Prop
  | .write f _ _ => fun p => f.named a ≤ p ∧ p < f.named a + res.toNat
  | _ => fun _ => False

/-- The file after the operation and the positions that were written; `none` is a wild access. There is no
    `writeFile` on ramfs. -/
def Op.exec (c : Setting) (file : File) : Op → Option (File × (Nat → Prop))
  | .request q => (file.serve c q).map fun o => (o.file, q.wrote file.view o.res)
  | .writeFile offset src n => match file with
    | .xv6fs v i => some (.xv6fs (xv6fsWriteFile v i src offset n c.clock).2 i, fun p =>
        offset ≤ p ∧ p < offset + stored v (inodeAt v i) (offset % 2 ^ 32) (accepted (offset % 2 ^ 32) n))
    | .ramfs h rf => some (.ramfs h rf, fun _ => False)

variable {src : Nat → BitVec 8} {k length : Nat} {c : Setting}

theorem exec_request {file : File} {q : Request} {o : Outcome} (h : file.serve c q = some o) :
    Op.exec c file (.request q) = some (o.file, q.wrote file.view o.res) := by
  rw [Op.exec, h]
  rfl

/-- A file and the positions behind its end, now or earlier, that were not written since. -/
structure Trace where
  file : File
  fresh : Nat → Prop

namespace Trace

def start (file : File) : Trace := ⟨file, fun p => file.view.size ≤ p⟩

def step (c : Setting) (t : Trace) (op : Op) : Option Trace :=
  (op.exec c t.file).map fun r => ⟨r.1, fun p => r.1.view.size ≤ p ∨ (t.fresh p ∧ ¬ r.2 p)⟩

def run (c : Setting) : List Op → Trace → Option Trace
  | [], t => some t
  | op :: ops, t => (t.step c op).bind (run c ops)

/-- Bytes that came into the file unwritten read as zero. -/
def Zeroed (t : Trace) : Prop := ∀ p < t.file.view.size, t.fresh p → t.file.view.data p = 0

end Trace

/-- The bytes of the file that are not cut off though they lie behind the new end are zeros. -/
def HidesZeros (a : View) (length : Nat) (keeps : Nat → Prop) : Prop :=
  ∀ p, length ≤ p → p < a.size → keeps p → a.data p = 0

/-- The operation keeps hidden bytes zero: a write names a position the file system can hold, and a cut leaves no
    byte behind the new end but zeros, neither in the last block it keeps nor in the pages of a ramfs file. -/
def Op.Careful (file : File) : Op → Prop
  | .request (.read ..) => True
  | .request (.write f _ count) => match file with
    | .xv6fs .. => f.named file.view < 2 ^ 32
    | .ramfs h rf => f.named rf.view + count + pageSize - 1 < 2 ^ 63 ∨
        ¬ rf.CanGrow h ((f.named rf.view + count) % 2 ^ 64)
  | .request (.truncate length) => match file with
    | .xv6fs .. => maxFile * bsize < length ∨
        HidesZeros file.view (length % 2 ^ 32) fun p => length < file.view.size → p / bsize < blocksOf length
    | .ramfs _ rf => HidesZeros rf.view length (fun _ => True) ∧ length + pageSize - 1 < 2 ^ 64
  | .writeFile offset _ _ => match file with
    | .xv6fs .. => offset < 2 ^ 32
    | .ramfs .. => True

/-- Every operation of the run is careful where it happens. -/
def AllCareful (c : Setting) : List Op → Trace → Prop
  | [], _ => True
  | op :: ops, t => op.Careful t.file ∧ ∀ t', t.step c op = some t' → AllCareful c ops t'

/-! ### One step -/

/-- The file as its file system keeps it. -/
def File.Whole : File → Prop
  | .xv6fs v i => WellFormed v ∧ Live v i
  | .ramfs _ rf => rf.Ok

/-- The file is whole, all positions behind its end are fresh, and fresh positions hold zeros. -/
structure Trace.Clean (t : Trace) : Prop where
  whole : t.file.Whole
  behind : ∀ p, t.file.view.size ≤ p → t.fresh p
  zero : ∀ p, t.fresh p → t.file.view.data p = 0

namespace Trace.Clean
variable {c : Setting} {t : Trace} {op : Op} {file' : File} {w : Nat → Prop}

theorem zeroed (h : t.Clean) : t.Zeroed := fun p _ hp => h.zero p hp

section
variable (ht : t.Clean) (he : op.exec c t.file = some (file', w)) (hwhole : file'.Whole)
include ht he hwhole

/-- A step that stores `k` bytes at `off`, inside the file it leaves, and nothing else. -/
theorem write {off : Nat} (hsize : t.file.view.size ≤ file'.view.size) (hend : k = 0 ∨ off + k ≤ file'.view.size)
    (hdata : file'.view.data = overlay t.file.view.data src off k) (hw : ∀ p, off ≤ p → p < off + k → w p) :
    ∃ t', t.step c op = some t' ∧ t'.Clean := by
  refine ⟨_, by rw [step, he]; rfl, hwhole, fun p hp => Or.inl hp, fun p hp => ?_⟩
  have hold : t.fresh p ∧ ¬ (off ≤ p ∧ p < off + k) := by
    rcases hp with hp | ⟨hfresh, hnot⟩
    · exact ⟨ht.behind p (hsize.trans hp), fun hin => by simp only at hp; omega⟩
    · exact ⟨hfresh, fun hin => hnot (hw p hin.1 hin.2)⟩
  simp only [hdata, overlay]
  rw [if_neg hold.2]
  exact ht.zero p hold.1

/-- A step that only clears bytes, and has cleared all that fall behind the end. -/
theorem cut (hdata : ∀ p, file'.view.data p = 0 ∨ file'.view.data p = t.file.view.data p)
    (hhid : ∀ p, file'.view.size ≤ p → p < t.file.view.size → file'.view.data p = 0) :
    ∃ t', t.step c op = some t' ∧ t'.Clean := by
  refine ⟨_, by rw [step, he]; rfl, hwhole, fun p hp => Or.inl hp, fun p hp => ?_⟩
  have hfresh : t.fresh p → file'.view.data p = 0 := fun hf => (hdata p).elim id fun h => h.trans (ht.zero p hf)
  rcases hp with hp | ⟨hf, -⟩
  · rcases lt_or_ge p t.file.view.size with hlt | hge
    · exact hhid p hp hlt
    · exact hfresh (ht.behind p hge)
  · exact hfresh hf

end

end Trace.Clean

section xv6fs
variable {c : Setting} {v v' : Vol} {i : Nat} {fresh : Nat → Prop}

/-- What a write that stores `k` bytes does to the bytes of the file. -/
theorem WroteFile.view {o : Nat} {ip' : Inode} (h : WroteFile v i src o k v' ip') :
    (viewOf v' i).size = max (viewOf v i).size (o + k) ∧ (viewOf v' i).data = overlay (viewOf v i).data src o k := by
  rw [viewOf, h.inode]
  exact ⟨h.size, h.data⟩

/-- Writing in chunks is clean when the caller's position is the one written to. -/
theorem chunks_clean (ht : Trace.Clean ⟨.xv6fs v i, fresh⟩) {op : Op} {o n : Nat} {w : Nat → Prop}
    (he : op.exec c (.xv6fs v i) = some (.xv6fs v' i, w)) (hk : k = stored v (inodeAt v i) o (accepted o n))
    (hnone : accepted o n = 0 → v' = v) (hsome : accepted o n ≠ 0 → ∃ ip', WroteFile v i src o k v' ip')
    (hw : ∀ p, o ≤ p → p < o + k → w p) : ∃ t', Trace.step c ⟨.xv6fs v i, fresh⟩ op = some t' ∧ t'.Clean := by
  rcases Nat.eq_zero_or_pos (accepted o n) with hz | hpos
  · obtain rfl := hnone hz
    have hk0 : k = 0 := hk.trans (Nat.eq_zero_of_le_zero ((stored_le ..).trans hz.le))
    subst hk0
    exact ht.write he ht.whole le_rfl (.inl rfl) (overlay_zero _ src o).symm hw
  obtain ⟨ip', hwrote⟩ := hsome (ne_of_gt hpos)
  obtain ⟨hsize, hdata⟩ := WroteFile.view hwrote
  refine ht.write he ⟨hwrote.wf, hwrote.live⟩ ?_ (.inr ?_) hdata hw
  · exact hsize ▸ le_max_left ..
  · exact hsize ▸ le_max_right ..

section
variable (hclock : ∀ w, c.clock w < 2 ^ 32) (ht : Trace.Clean ⟨.xv6fs v i, fresh⟩)
include hclock ht

theorem xv6fs_write_clean (f : Fd) (src : Nat → BitVec 8) (count : Nat) (hnamed : f.named (viewOf v i) < 2 ^ 32) :
    ∃ t', Trace.step c ⟨.xv6fs v i, fresh⟩ (.request (.write f src count)) = some t' ∧ t'.Clean := by
  have hspec := fsWrite_spec ht.whole.1 ht.whole.2 f src count hclock
  rw [show f.start v i = f.named (viewOf v i) from rfl, Nat.mod_eq_of_lt hnamed] at hspec
  obtain ⟨hres, hnone, hsome⟩ := hspec
  refine chunks_clean ht rfl rfl hnone hsome fun p hp hlt => ⟨hp, ?_⟩
  -- the call returns what it stored; it fails only when no chunk is accepted, and then stores nothing
  have hk := stored_le v (inodeAt v i) (f.named (viewOf v i)) (accepted (f.named (viewOf v i)) count)
  refine hlt.trans_le (Nat.add_le_add_left ?_ _)
  rw [hres]
  split
  · omega
  · exact le_rfl

theorem writeFile_clean (src : Nat → BitVec 8) {offset : Nat} (n : Nat) (hnamed : offset < 2 ^ 32) :
    ∃ t', Trace.step c ⟨.xv6fs v i, fresh⟩ (.writeFile offset src n) = some t' ∧ t'.Clean := by
  have hmod : offset % 2 ^ 32 = offset := Nat.mod_eq_of_lt hnamed
  rcases Nat.eq_zero_or_pos n with rfl | hn
  · obtain ⟨-, hwrote⟩ := writei_spec ht.whole.1 ht.whole.2 src (n := 0) hnamed (hclock 0)
    have hcall : (xv6fsWriteFile v i src offset 0 c.clock).2 = (xv6fsWritei v (inodeAt v i) src offset 0 (c.clock 0)).2.2 := by
      rw [xv6fsWriteFile, if_pos rfl, hmod]
    rw [← hcall] at hwrote
    obtain ⟨hsize, hdata⟩ := WroteFile.view hwrote
    refine ht.write rfl ⟨hwrote.wf, hwrote.live⟩ ?_ (.inl rfl) hdata fun p hp hlt => ?_
    · exact hsize ▸ le_max_left ..
    · omega
  · obtain ⟨-, hnone, hsome⟩ := writeFile_spec ht.whole.1 ht.whole.2 src offset (ne_of_gt hn) hclock
    rw [hmod] at hnone hsome
    refine chunks_clean ht rfl rfl hnone hsome fun p hp hlt => ⟨hp, ?_⟩
    rwa [hmod]

theorem xv6fs_truncate_clean (hhid : maxFile * bsize < length ∨
      HidesZeros (viewOf v i) (length % 2 ^ 32) fun p => length < (viewOf v i).size → p / bsize < blocksOf length) :
    ∃ t', Trace.step c ⟨.xv6fs v i, fresh⟩ (.request (.truncate length)) = some t' ∧ t'.Clean := by
  rcases truncate_spec ht.whole.1 ht.whole.2 length (hclock 0) with ⟨-, hr⟩ | ⟨hle, -, hwf, hlive, hsize, hdata⟩
  · have hserve : serve c (.xv6fs v i) (.truncate length) = some ⟨-1, c.dst, .xv6fs v i⟩ := by rw [serve, hr]
    exact ht.cut (exec_request hserve) ht.whole (fun p => .inr rfl) fun p hp hlt => absurd hlt (not_lt.mpr hp)
  refine ht.cut rfl ⟨hwf, hlive⟩ (fun p => ?_) fun p hp hlt => ?_
  · refine (ite_eq_or_eq _ _ _).imp (hdata p).trans (hdata p).trans
  · refine (hdata p).trans ?_
    split
    · rfl
    rename_i hkept
    refine (hhid.resolve_left (not_lt.mpr hle)) p (hsize ▸ hp) hlt fun hcut => ?_
    exact Nat.lt_of_not_le fun hblock => hkept ⟨hcut, hblock⟩

end

end xv6fs

section ramfs
variable {c : Setting} {h : Heap} {rf : Ramfs} {fresh : Nat → Prop}

section
variable (ht : Trace.Clean ⟨.ramfs h rf, fresh⟩)
include ht

theorem ramfs_write_clean (f : Fd) (src : Nat → BitVec 8) {count : Nat}
    (hnamed : f.named rf.view + count + pageSize - 1 < 2 ^ 63 ∨ ¬ rf.CanGrow h ((f.named rf.view + count) % 2 ^ 64)) :
    ∃ t', Trace.step c ⟨.ramfs h rf, fresh⟩ (.request (.write f src count)) = some t' ∧ t'.Clean := by
  rcases em (rf.CanGrow h ((f.named rf.view + count) % 2 ^ 64)) with hcan | hno
  · have hfit := hnamed.resolve_right (not_not.mpr hcan)
    obtain ⟨h', rf', hcall, hok', hsize, hdata, -⟩ := fsWrite_stored ht.whole h f src (hfit.trans (by decide)) hcan
    have hserve : serve c (.ramfs h rf) (.write f src count) = some ⟨count, c.dst, .ramfs h' rf'⟩ := by
      rw [serve, hcall, toInt_of_lt (by unfold pageSize at hfit; omega)]
      rfl
    have hold : rf.size ≤ rf'.size := hsize ▸ le_max_left ..
    have hend : f.named rf.view + count ≤ rf'.size := hsize ▸ le_max_right ..
    exact ht.write (exec_request hserve) hok' hold (.inr hend) hdata fun p hp hlt => ⟨hp, hlt⟩
  · obtain ⟨h', rf', hcall, hok', hsize, hdata⟩ := fsWrite_failed ht.whole h f src hno
    have hserve : serve c (.ramfs h rf) (.write f src count) = some ⟨-enospc, c.dst, .ramfs h' rf'⟩ := by
      rw [serve, hcall]
      rfl
    refine ht.cut (exec_request hserve) hok' (fun p => .inr (congrFun hdata p)) fun p hp hlt => ?_
    exact absurd (hsize.symm.trans_le hp) (not_le.mpr hlt)

theorem ramfs_truncate_clean (hhid : HidesZeros rf.view length fun _ => True) (hfit : length + pageSize - 1 < 2 ^ 64) :
    ∃ t', Trace.step c ⟨.ramfs h rf, fresh⟩ (.request (.truncate length)) = some t' ∧ t'.Clean := by
  have hok : rf.Ok := ht.whole
  rcases lt_or_ge rf.size length with hlt | hge
  · obtain ⟨hok', hsize, hdata, hcover, -⟩ := grow_spec hok h (by unfold pageSize at hfit; omega : length < 2 ^ 64)
    rcases hg : ramfsGrow h rf length with ⟨_ | _, h', rf'⟩
    · have hserve : serve c (.ramfs h rf) (.truncate length) = some ⟨-enospc, c.dst, .ramfs h' rf'⟩ := by
        simp only [serve, fsTruncate, if_pos hlt, hg, Bool.false_eq_true, if_false]
      rw [hg] at hok' hsize hdata
      refine ht.cut (exec_request hserve) hok' (fun p => .inr (congrFun hdata p)) fun p hp hlt => ?_
      exact absurd (hsize.symm.trans_le hp) (not_le.mpr hlt)
    have hserve : serve c (.ramfs h rf) (.truncate length) = some ⟨0, c.dst, .ramfs h' { rf' with size := length }⟩ := by
      simp only [serve, fsTruncate, if_pos hlt, hg, if_true]
    rw [hg] at hok' hdata hcover
    have hwhole : Ramfs.Ok { rf' with size := length } :=
      ⟨hok'.pages, hok'.whole, hok'.fits, hok'.table, hok'.slots, hcover hfit rfl⟩
    refine ht.cut (exec_request hserve) hwhole (fun p => .inr (congrFun hdata p)) fun p hp hlt' => ?_
    exact absurd (hlt.le.trans hp) (not_le.mpr hlt')
  · have hserve : serve c (.ramfs h rf) (.truncate length) = some ⟨0, c.dst, .ramfs h { rf with size := length }⟩ := by
      simp only [serve, fsTruncate, if_neg (not_lt.mpr hge)]
    have hwhole : Ramfs.Ok { rf with size := length } :=
      ⟨hok.pages, hok.whole, hok.fits, hok.table, hok.slots, hge.trans hok.size⟩
    exact ht.cut (exec_request hserve) hwhole (fun p => .inr rfl) fun p hp hlt => hhid p hp hlt trivial

end

end ramfs

variable {t : Trace}

/-- One careful operation: it is served, and keeps fresh positions zero. -/
theorem step_clean (hclock : ∀ w, c.clock w < 2 ^ 32) (ht : t.Clean) {op : Op} (hop : op.Careful t.file) :
    ∃ t', t.step c op = some t' ∧ t'.Clean := by
  obtain ⟨file, fresh⟩ := t
  rcases file with ⟨v, i⟩ | ⟨h, rf⟩
  · rcases op with (⟨off, count⟩ | ⟨f, src, count⟩ | ⟨length⟩) | ⟨offset, src, n⟩
    · exact ht.write rfl ht.whole le_rfl (.inl rfl) (overlay_zero _ (fun _ => 0) 0).symm fun p _ hlt => by omega
    · exact xv6fs_write_clean hclock ht f src count hop
    · exact xv6fs_truncate_clean hclock ht hop
    · exact writeFile_clean hclock ht src n hop
  rcases op with (⟨off, count⟩ | ⟨f, src, count⟩ | ⟨length⟩) | ⟨offset, src, n⟩
  · obtain ⟨dst', hread, -⟩ := Ramfs.fsRead_spec ht.whole off count c.dst
    have hserve : serve c (.ramfs h rf) (.read off count) =
        some ⟨(BitVec.ofNat 64 (min count (rf.size - off))).toInt, dst', .ramfs h rf⟩ := by
      rw [serve, hread]
      rfl
    exact ht.cut (exec_request hserve) ht.whole (fun p => .inr rfl) fun p hp hlt => absurd hlt (not_lt.mpr hp)
  · exact ramfs_write_clean ht f src hop
  · exact ramfs_truncate_clean ht hop.1 hop.2
  · exact ht.write rfl ht.whole le_rfl (.inl rfl) (overlay_zero _ (fun _ => 0) 0).symm fun p _ hlt => by omega

/-! ### A run -/

/-- From a clean trace, careful operations are all served and every state they reach is clean. -/
theorem run_clean (hclock : ∀ w, c.clock w < 2 ^ 32) : ∀ (ops : List Op) {t : Trace}, t.Clean → AllCareful c ops t →
    ∃ t', t.run c ops = some t' ∧ t'.Clean
  | [], t, ht, _ => ⟨t, rfl, ht⟩
  | op :: ops, t, ht, hall => by
      obtain ⟨t₁, hstep, hclean⟩ := step_clean hclock ht hall.1
      obtain ⟨t', hrun, hclean'⟩ := run_clean hclock ops hclean (hall.2 t₁ hstep)
      exact ⟨t', by rw [Trace.run, hstep]; exact hrun, hclean'⟩

theorem AllCareful.take : ∀ (ops : List Op) (n : Nat) {t : Trace}, AllCareful c ops t → AllCareful c (ops.take n) t
  | _, 0, _, _ => trivial
  | [], _ + 1, _, _ => trivial
  | _ :: ops, n + 1, _, hall => ⟨hall.1, fun t' hstep => take ops n (hall.2 t' hstep)⟩

/-- CORRECT for careful operations: from a file with nothing but zeros behind its end, every state that the run
    passes through has zeros in all bytes that came into the file unwritten. -/
theorem exposed_zero {c : Setting} (hclock : ∀ w, c.clock w < 2 ^ 32) {file : File} (hwhole : file.Whole)
    (hback : ∀ p, file.view.size ≤ p → file.view.data p = 0) {ops : List Op} (hall : AllCareful c ops (.start file)) (n : Nat) :
    ∃ t, (Trace.start file).run c (ops.take n) = some t ∧ t.Zeroed := by
  have hclean : (Trace.start file).Clean := ⟨hwhole, fun _ hp => hp, hback⟩
  obtain ⟨t, hrun, ht⟩ := run_clean hclock (ops.take n) hclean (hall.take ops n)
  exact ⟨t, hrun, ht.zeroed⟩

/-! ### Cuts that are not careful -/

/-- Cutting a file and extending it again over a byte that the cut left in place. -/
theorem exposed_of_cut {n p : Nat} {o₁ o₂ : Outcome}
    (h₁ : t.file.serve c (.truncate length) = some o₁) (h₂ : o₁.file.serve c (.truncate n) = some o₂)
    (hcut : o₁.file.view.size ≤ p) (hin : p < o₂.file.view.size) (hdata : o₂.file.view.data p ≠ 0) :
    ∃ t', t.run c [.request (.truncate length), .request (.truncate n)] = some t' ∧ ¬ t'.Zeroed := by
  refine ⟨⟨o₂.file, fun p => o₂.file.view.size ≤ p ∨ ((o₁.file.view.size ≤ p ∨ (t.fresh p ∧ ¬ False)) ∧ ¬ False)⟩, ?_, ?_⟩
  · simp only [Trace.run, Trace.step, exec_request h₁, exec_request h₂, map_some, bind_some]
    rfl
  · exact fun hz => hdata (hz p hin (.inr ⟨.inl hcut, id⟩))

/-- A cut that is not careful is undone by extending the file to its old size: what it hid is read again. -/
theorem careless_cut_exposes (hclock : ∀ w, c.clock w < 2 ^ 32) (hwhole : t.file.Whole)
    (hfit : length + pageSize - 1 < 2 ^ 64) (hcut : ¬ (Op.request (.truncate length)).Careful t.file) :
    ∃ t', t.run c [.request (.truncate length), .request (.truncate t.file.view.size)] = some t' ∧ ¬ t'.Zeroed := by
  obtain ⟨file, fresh⟩ := t
  rcases file with ⟨v, i⟩ | ⟨h, rf⟩
  · obtain ⟨hle, hhid⟩ := not_or.mp hcut
    simp only [HidesZeros, not_forall] at hhid
    obtain ⟨p, hp, hin, hkeep, hne⟩ := hhid
    have hsize : (viewOf v i).size < 2 ^ 32 := inodeAt_size_lt v i
    have hmax : 2 ^ 32 ≤ maxFile * bsize := by decide
    rcases truncate_spec hwhole.1 hwhole.2 length (hclock 0) with ⟨hbig, -⟩ | ⟨-, -, hwf, hlive, hsz₁, hdata₁⟩
    · exact absurd hbig hle
    rcases truncate_spec hwf hlive (viewOf v i).size (hclock 0) with ⟨hbig, -⟩ | ⟨-, -, -, -, hsz₂, hdata₂⟩
    · omega
    rw [Nat.mod_eq_of_lt hsize] at hsz₂
    refine exposed_of_cut rfl rfl (hsz₁.trans_le hp) (hin.trans_eq hsz₂.symm) fun hzero => hne ?_
    have hlow : ¬ (viewOf v i).size < (viewOf (xv6fsTruncateFile v i length (c.clock 0)).2 i).size := by
      rw [hsz₁]
      exact not_lt.mpr (hp.trans hin.le)
    refine trans ?_ hzero
    refine trans ?_ (hdata₂ p).symm
    rw [if_neg (fun h => hlow h.1), hdata₁ p, if_neg fun h => not_lt.mpr h.2 (hkeep h.1)]
    rfl
  · simp only [Op.Careful, not_and_or, HidesZeros, not_forall] at hcut
    obtain ⟨p, hp, hin, -, hne⟩ := hcut.resolve_right (not_not.mpr hfit)
    have hgrow : ramfsGrow h { rf with size := length } rf.size = (true, h, { rf with size := length }) := if_pos hwhole.size
    have hin' : p < rf.size := hin
    have h₁ : serve c (.ramfs h rf) (.truncate length) = some ⟨0, c.dst, .ramfs h { rf with size := length }⟩ := by
      simp only [serve, fsTruncate, if_neg (show ¬ length > rf.size by omega)]
    have h₂ : serve c (.ramfs h { rf with size := length }) (.truncate rf.size) = some ⟨0, c.dst, .ramfs h rf⟩ := by
      simp only [serve, fsTruncate, if_pos (show rf.size > length by omega), hgrow, if_true]
    exact exposed_of_cut h₁ h₂ hp hin hne

/-- A page allocator that always has memory. -/
def Heap.rich : Heap := ⟨fun _ _ => true, 0⟩

/-- Two bytes written to an empty file in memory. -/
theorem empty_write (c : Setting) (off : Nat) (hoff : off < 2 ^ 32) (hcan : empty.CanGrow .rich ((off + 2) % 2 ^ 64)) :
    ∃ h' rf', serve c (.ramfs .rich .empty) (.write ⟨off, false⟩ (fun _ => 7) 2) = some ⟨2, c.dst, .ramfs h' rf'⟩ ∧
      rf'.Ok ∧ rf'.size = off + 2 ∧ rf'.data = overlay empty.data (fun _ => 7) off 2 := by
  have hfit : off + 2 + pageSize - 1 < 2 ^ 64 := by
    unfold pageSize
    omega
  obtain ⟨h', rf', hcall, hok, hsize, hdata, -⟩ := fsWrite_stored empty_ok .rich ⟨off, false⟩ (fun _ => 7) hfit hcan
  refine ⟨h', rf', by rw [serve, hcall]; rfl, hok, hsize.trans ?_, hdata⟩
  exact max_eq_right (Nat.zero_le _)

/-- Two bytes at 3, then an extension to 5000: the gap and the tail read as zero. -/
theorem exposed_zero_sparse : ∃ t, (Trace.start (.ramfs .rich .empty)).run (.plain (tiny 9))
    (List.take 2 [.request (.write ⟨3, false⟩ (fun _ => 7) 2), .request (.truncate 5000)]) = some t ∧ t.Zeroed := by
  have hwhole : File.Whole (.ramfs .rich .empty) := empty_ok
  refine exposed_zero (fun _ => Nat.two_pow_pos 32) hwhole (fun _ _ => rfl) ?_ 2
  refine ⟨.inl (by decide), fun t' hstep => ⟨?_, fun _ _ => trivial⟩⟩
  obtain ⟨h', rf', hserve, -, hsize, -⟩ := empty_write (.plain (tiny 9)) 3 (by decide) (.inr (by decide))
  have hexec : (Trace.start (.ramfs .rich .empty)).step (.plain (tiny 9)) _ = some _ :=
    congrArg (Option.map _) (exec_request hserve)
  obtain rfl := some.inj (hexec.symm.trans hstep)
  refine ⟨fun p hp hlt => ?_, by decide⟩
  have : p < 5 := hlt.trans_eq hsize
  omega

/-- INCORRECT after a cut inside a block or a page: two bytes are written, the file is cut to one and extended to two,
    and the second byte is there again. -/
theorem exposed_nonzero : (∃ t, (Trace.start (.xv6fs (tiny 9) 1)).run (.plain (tiny 9))
      [.request (.write ⟨0, false⟩ (fun _ => 7) 2), .request (.truncate 1), .request (.truncate 2)] = some t ∧ ¬ t.Zeroed) ∧
    ∃ t, (Trace.start (.ramfs .rich .empty)).run (.plain (tiny 9))
      [.request (.write ⟨0, false⟩ (fun _ => 7) 2), .request (.truncate 1), .request (.truncate 2)] = some t ∧ ¬ t.Zeroed := by
  have hclock : ∀ w, (Setting.plain (tiny 9)).clock w < 2 ^ 32 := fun _ => Nat.two_pow_pos 32
  -- once the two bytes are there, the rest of the run is a careless cut
  have hrest : ∀ {t : Trace} {o : Outcome}, t.file.serve (.plain (tiny 9)) (.write ⟨0, false⟩ (fun _ => 7) 2) = some o →
      o.file.Whole → o.file.view.size = 2 → ¬ (Op.request (.truncate 1)).Careful o.file →
      ∃ t', t.run (.plain (tiny 9)) [.request (.write ⟨0, false⟩ (fun _ => 7) 2), .request (.truncate 1),
        .request (.truncate 2)] = some t' ∧ ¬ t'.Zeroed := by
    intro t o hserve hwhole hsize hcut
    have hstep : t.step (.plain (tiny 9)) _ = some _ := congrArg (Option.map _) (exec_request hserve)
    obtain ⟨t', hrun, hbad⟩ := careless_cut_exposes (t := ⟨o.file, _⟩) hclock hwhole (by decide) hcut
    rw [hsize] at hrun
    exact ⟨t', by rw [Trace.run, hstep]; exact hrun, hbad⟩
  constructor
  · have hwf : WellFormed (tiny 9) := tiny_wellFormed (by decide)
    have hsize : (inodeAt (tiny 9) 1).size = 0 := by decide +kernel
    have hk : stored (tiny 9) (inodeAt (tiny 9) 1) 0 2 = 2 := by decide +kernel
    obtain ⟨-, -, hsome⟩ := fsWrite_spec hwf (tiny_one 9) ⟨0, false⟩ (fun _ => 7) 2 hclock
    rw [show Fd.start ⟨0, false⟩ (tiny 9) 1 % 2 ^ 32 = 0 from rfl, show accepted 0 2 = 2 by decide, hk] at hsome
    obtain ⟨ip', hwrote⟩ := hsome (by decide)
    obtain ⟨hsz, hdata⟩ := WroteFile.view hwrote
    have hsz' : (viewOf (fsWrite (tiny 9) 1 ⟨0, false⟩ (fun _ => 7) 2 (Setting.plain (tiny 9)).clock).2.2 1).size = 2 := by
      rw [hsz, viewOf]
      rfl
    refine hrest rfl ⟨hwrote.wf, hwrote.live⟩ hsz' ?_
    rintro (hbig | hhid)
    · exact absurd hbig (by decide)
    · have hzero := hhid 1 le_rfl (hsz'.symm ▸ (by decide)) fun _ => by decide
      have hbyte : (viewOf (fsWrite (tiny 9) 1 ⟨0, false⟩ (fun _ => 7) 2 (Setting.plain (tiny 9)).clock).2.2 1).data 1 = 7 :=
        congrFun hdata 1
      exact absurd (hzero.symm.trans hbyte) (by decide)
  · obtain ⟨h', rf', hserve, hok, hsize, hdata⟩ := empty_write (.plain (tiny 9)) 0 (by decide) (.inr (by decide))
    refine hrest hserve hok hsize fun hcut => ?_
    have hzero : rf'.data 1 = 0 := hcut.1 1 le_rfl (lt_of_lt_of_eq (by decide) hsize.symm) trivial
    rw [hdata] at hzero
    exact absurd hzero (by decide)

end Orthox.Files
