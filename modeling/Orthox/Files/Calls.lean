import Orthox.Blocks.Chunks

/-! Writing to an xv6fs file: `fs_write` (`kernel/fs.c`) by descriptor and `xv6fs_write_file`
    (`kernel/xv6fs.c`) by path. Both cut the bytes into chunks, hand each to `xv6fs_writei` at a 32-bit
    offset and stop at the first one that is not stored whole. -/

namespace Orthox.Files
open Blocks

/-- How the loop over the chunks ended: bytes of the chunks stored whole, the result of the chunk that
    stopped it, and the volume. -/
structure Chunked where
  written : Nat
  last : Option Int
  vol : Vol

/-- The loop over the chunks; a chunk has at least one byte, so `count` rounds are enough. -/
def writeChunks (src : Nat → BitVec 8) (count off : Nat) (clock : Nat → Nat) (i : Nat) : Nat → Nat → Vol → Chunked
  | 0, written, v => ⟨written, none, v⟩
  | fuel + 1, written, v =>
    if written < count then
      let chunk := min (count - written) writeChunkMax
      let r := xv6fsWritei v (inodeAt v i) (fun j => src (written + j)) ((off + written) % 2 ^ 32) chunk (clock written)
      if r.1 = chunk then writeChunks src count off clock i fuel (written + chunk) r.2.2
      else ⟨written, some r.1, r.2.2⟩
    else ⟨written, none, v⟩

/-- The part of a descriptor that a write uses. -/
structure Fd where
  offset : Nat
  /-- `O_APPEND` -/
  append : Bool

/-- Where a write through the descriptor starts. -/
def Fd.start (f : Fd) (v : Vol) (i : Nat) : Nat := if f.append then (inodeAt v i).size else f.offset

/-- `EIO` -/
def eio : Int := 5

/-- `fs_write` on an xv6fs descriptor. -/
def fsWrite (v : Vol) (i : Nat) (f : Fd) (src : Nat → BitVec 8) (count : Nat) (clock : Nat → Nat) : Int × Fd × Vol :=
  let off := f.start v i
  let c := writeChunks src count off clock i count 0 v
  match c.last with
  | none => (c.written, { f with offset := (off + c.written) % 2 ^ 64 }, c.vol)
  | some n =>
    if n < 0 then (if c.written = 0 then -eio else c.written, f, c.vol)
    else (c.written + n, { f with offset := (off + c.written + n.toNat) % 2 ^ 64 }, c.vol)

/-- `xv6fs_write_file` on the inode its path names. -/
def xv6fsWriteFile (v : Vol) (i : Nat) (src : Nat → BitVec 8) (offset n : Nat) (clock : Nat → Nat) : Int × Vol :=
  if n = 0 then
    -- `writei` is called once even then
    let r := xv6fsWritei v (inodeAt v i) src (offset % 2 ^ 32) 0 (clock 0)
    (if r.1 = 0 then 0 else -1, r.2.2)
  else
    let c := writeChunks src n offset clock i n 0 v
    (if c.last = none then 0 else -1, c.vol)

/-! ### What the loop does -/

/-- The bytes of the chunks before the first one that ends at or behind 2^32 and is refused. -/
def accepted (o count : Nat) : Nat :=
  if o + count < 2 ^ 32 then count else writeChunkMax * ((2 ^ 32 - 1 - o) / writeChunkMax)

variable {o count n i : Nat} {clock : Nat → Nat} {v : Vol}

theorem accepted_zero (ho : o < 2 ^ 32) : accepted o 0 = 0 := if_pos ho

/-- No chunk is accepted when the first one is refused. -/
theorem accepted_refused (h : 2 ^ 32 ≤ o + min count writeChunkMax) : accepted o count = 0 := by
  unfold accepted writeChunkMax at *
  rw [if_neg (by omega)]
  omega

theorem accepted_step (h : o + min count writeChunkMax < 2 ^ 32) : accepted o count = min count writeChunkMax +
      accepted (o + min count writeChunkMax) (count - min count writeChunkMax) := by
  unfold accepted writeChunkMax at *
  split
  · rw [if_pos (by omega)]
    omega
  · rw [if_neg (by omega)]
    omega

/-- The state and the end of the loop from a volume `v` on, with `count` bytes to go at offset `o`. -/
structure ChunksDone (v : Vol) (i : Nat) (src : Nat → BitVec 8) (o count written : Nat) (c : Chunked) : Prop where
  refused : accepted o count = 0 → c.vol = v
  wrote : accepted o count ≠ 0 → ∃ ip', WroteFile v i src o (stored v (inodeAt v i) o (accepted o count)) c.vol ip'
  stop : (c.last = none ∧ c.written = written + count ∧ stored v (inodeAt v i) o (accepted o count) = count) ∨
    (c.last = some (-1) ∧ c.written = written + stored v (inodeAt v i) o (accepted o count) ∧
      stored v (inodeAt v i) o (accepted o count) = accepted o count ∧ accepted o count < count) ∨
    ∃ m : Nat, c.last = some (m : Int) ∧ c.written + m = written + stored v (inodeAt v i) o (accepted o count) ∧
      stored v (inodeAt v i) o (accepted o count) < accepted o count

theorem accepted_le (ho : o < 2 ^ 32) : accepted o count ≤ count := by
  unfold accepted writeChunkMax
  split
  · exact le_rfl
  · omega

theorem toInt32_of_lt (h : n < 2 ^ 31) : toInt32 n = n := by
  rw [toInt32, BitVec.toInt_eq_toNat_cond, BitVec.toNat_ofNat, Nat.mod_eq_of_lt (by omega), if_pos (by omega)]

theorem toInt32_neg (h : 2 ^ 31 ≤ n) (h' : n < 2 ^ 32) : toInt32 n < 0 := by
  rw [toInt32, BitVec.toInt_eq_toNat_cond, BitVec.toNat_ofNat, Nat.mod_eq_of_lt h']
  omega

theorem writeChunks_spec (src : Nat → BitVec 8) (count off : Nat) (hclock : ∀ w, clock w < 2 ^ 32) (i : Nat) :
    ∀ (fuel written : Nat) (v : Vol), WellFormed v → Live v i → written ≤ count → count - written ≤ fuel →
      ChunksDone v i (fun j => src (written + j)) ((off + written) % 2 ^ 32) (count - written) written
        (writeChunks src count off clock i fuel written v) := by
  intro fuel
  induction fuel with
  | zero =>
    intro written v _ _ hle hfuel
    have hn : count - written = 0 := by omega
    have ho : (off + written) % 2 ^ 32 < 2 ^ 32 := Nat.mod_lt _ (by decide)
    rw [hn]
    refine ⟨fun _ => rfl, fun h => absurd (accepted_zero ho) h, .inl ⟨rfl, rfl, ?_⟩⟩
    rw [accepted_zero ho, stored, Nat.zero_min]
  | succ fuel ih =>
    intro written v hwf hi hle hfuel
    have ho : (off + written) % 2 ^ 32 < 2 ^ 32 := Nat.mod_lt _ (by decide)
    obtain ⟨o, hodef⟩ : ∃ o, o = (off + written) % 2 ^ 32 := ⟨_, rfl⟩
    rw [← hodef] at ho ⊢
    rcases lt_or_ge written count with hlt | hge
    swap
    · have hn : count - written = 0 := by omega
      rw [writeChunks, if_neg (by omega), hn]
      refine ⟨fun _ => rfl, fun h => absurd (accepted_zero ho) h, .inl ⟨rfl, rfl, ?_⟩⟩
      rw [accepted_zero ho, stored, Nat.zero_min]
    obtain ⟨chunk, hchunk⟩ : ∃ chunk, chunk = min (count - written) writeChunkMax := ⟨_, rfl⟩
    have hmax : chunk ≤ 114688 := hchunk ▸ min_le_right _ _
    have hpos : 0 < chunk := by
      have : 0 < writeChunkMax := by decide
      omega
    rw [writeChunks, if_pos hlt, ← hchunk, ← hodef]
    dsimp only
    rcases lt_or_ge (o + chunk) (2 ^ 32) with hfit | hwrap
    swap
    · -- the chunk ends at or behind 2^32
      have hzero : accepted o (count - written) = 0 := accepted_refused (hchunk ▸ hwrap)
      rw [writei_refused hwrap ho (by omega)]
      refine ⟨fun _ => rfl, fun h => absurd hzero h, .inr (.inl ⟨rfl, ?_, ?_, by omega⟩)⟩ <;>
        rw [hzero, stored, Nat.zero_min]
      rfl
    obtain ⟨hret, hw⟩ := writei_spec hwf hi (fun j => src (written + j)) hfit (hclock written)
    have hstep : accepted o (count - written) = chunk + accepted (o + chunk) (count - (written + chunk)) := by
      rw [Nat.sub_add_eq, hchunk]
      exact accepted_step (hchunk ▸ hfit)
    have hk := stored_le v (inodeAt v i) o chunk
    rw [toInt32_of_lt (by omega)] at hret
    rcases hk.lt_or_eq with hshort | hfull
    · -- out of space inside the chunk
      have hall : stored v (inodeAt v i) o (accepted o (count - written)) = stored v (inodeAt v i) o chunk := by
        rw [hstep]
        exact storedIn_short _ hshort
      rw [if_neg (by rw [hret]; omega), hret]
      refine ⟨fun h => by omega, fun _ => ⟨_, hall ▸ hw⟩, .inr (.inr ⟨_, rfl, by rw [hall], by omega⟩)⟩
    rw [if_pos (by rw [hret, hfull])]
    have hsb := writei_sb hwf hi (fun j => src (written + j)) (clock written) hfit
    have hrest := stored_chunk hwf hi (fun j => src (written + j)) (accepted (o + chunk) (count - (written + chunk)))
      hfit hpos (hclock written) hfull
    set v₁ := (xv6fsWritei v (inodeAt v i) (fun j => src (written + j)) o chunk (clock written)).2.2 with hv₁
    have hnext : (off + (written + chunk)) % 2 ^ 32 = o + chunk := by omega
    have hdone := ih (written + chunk) v₁ hw.wf hw.live (by omega) (by omega)
    rw [hnext] at hdone
    rw [← hstep] at hrest
    rw [hfull] at hw
    refine ⟨fun h => by omega, fun _ => ?_, ?_⟩
    · rcases Nat.eq_zero_or_pos (accepted (o + chunk) (count - (written + chunk))) with hz | hp
      · rw [hdone.refused hz, hrest, hz, stored, Nat.zero_min]
        exact ⟨_, hw⟩
      obtain ⟨ip', hw'⟩ := hdone.wrote (by omega)
      rw [hrest]
      refine ⟨ip', hw.trans hsb ?_⟩
      simpa only [add_assoc] using hw'
    · rw [hrest]
      rcases hdone.stop with ⟨h₁, h₂, h₃⟩ | ⟨h₁, h₂, h₃, h₄⟩ | ⟨m, h₁, h₂, h₃⟩
      · exact .inl ⟨h₁, by omega, by omega⟩
      · exact .inr (.inl ⟨h₁, by omega, by omega, by omega⟩)
      · exact .inr (.inr ⟨m, h₁, by omega, by omega⟩)

/-! ### What the calls report -/

theorem accepted_eq_zero (ho : o < 2 ^ 32) : accepted o count = 0 ↔ count = 0 ∨ 2 ^ 32 ≤ o + min count writeChunkMax := by
  refine ⟨fun h => ?_, ?_⟩
  · rcases lt_or_ge (o + min count writeChunkMax) (2 ^ 32) with hfit | hwrap
    · rw [accepted_step hfit] at h
      have : 0 < writeChunkMax := by decide
      exact .inl (by omega)
    · exact .inr hwrap
  · rintro (rfl | h)
    · exact accepted_zero ho
    · exact accepted_refused h

theorem fsWrite_spec (h : WellFormed v) (hi : Live v i) (f : Fd) (src : Nat → BitVec 8) (count : Nat)
    (hclock : ∀ w, clock w < 2 ^ 32) :
    let o := f.start v i % 2 ^ 32
    let k := stored v (inodeAt v i) o (accepted o count)
    let r := fsWrite v i f src count clock
    r.1 = (if accepted o count = 0 ∧ 0 < count then -eio else k) ∧ (accepted o count = 0 → r.2.2 = v) ∧
      (accepted o count ≠ 0 → ∃ ip', WroteFile v i src o k r.2.2 ip') := by
  intro o k r
  have hdone := writeChunks_spec src count (f.start v i) hclock i count 0 v h hi (Nat.zero_le _) (by omega)
  simp only [zero_add, add_zero, Nat.sub_zero] at hdone
  have hvol : r.2.2 = (writeChunks src count (f.start v i) clock i count 0 v).vol := by
    simp only [r, fsWrite]
    split
    · rfl
    · split <;> rfl
  have hk : k ≤ accepted o count := stored_le ..
  refine ⟨?_, fun hz => hvol.trans (hdone.refused hz), fun hz => by rw [hvol]; exact hdone.wrote hz⟩
  rcases hdone.stop with ⟨h₁, h₂, h₃⟩ | ⟨h₁, h₂, h₃, h₄⟩ | ⟨m, h₁, h₂, h₃⟩
  · have hk' : k = count := h₃
    rw [if_neg (by omega)]
    simp only [r, fsWrite, h₁, h₂, zero_add, hk']
  · have hk' : k = accepted o count := h₃
    have hw : (writeChunks src count (f.start v i) clock i count 0 v).written = k := by rw [h₂, zero_add]
    simp only [r, fsWrite, h₁, hw, if_pos (by decide : (-1) < 0)]
    rcases Nat.eq_zero_or_pos k with hz | hp
    · rw [if_pos hz, if_pos ⟨by omega, by omega⟩]
    · rw [if_neg (by omega), if_neg (by omega)]
  · have hw : (writeChunks src count (f.start v i) clock i count 0 v).written + m = k := by rw [h₂, zero_add]
    have hlt : k < accepted o count := h₃
    rw [if_neg (by omega), ← hw]
    simp only [r, fsWrite, h₁, if_neg (by omega : ¬ (m : Int) < 0), Nat.cast_add]

theorem writeFile_spec (h : WellFormed v) (hi : Live v i) (src : Nat → BitVec 8) (offset : Nat)
    (hn : n ≠ 0) (hclock : ∀ w, clock w < 2 ^ 32) :
    let o := offset % 2 ^ 32
    let k := stored v (inodeAt v i) o (accepted o n)
    let r := xv6fsWriteFile v i src offset n clock
    r.1 = (if k = n then 0 else -1) ∧ (accepted o n = 0 → r.2 = v) ∧
      (accepted o n ≠ 0 → ∃ ip', WroteFile v i src o k r.2 ip') := by
  intro o k r
  have hdone := writeChunks_spec src n offset hclock i n 0 v h hi (Nat.zero_le _) (by omega)
  simp only [zero_add, add_zero] at hdone
  have hr : r = (if (writeChunks src n offset clock i n 0 v).last = none then 0 else -1,
      (writeChunks src n offset clock i n 0 v).vol) := if_neg hn
  have ho : o < 2 ^ 32 := Nat.mod_lt _ (by decide)
  have hle : accepted o n ≤ n := accepted_le ho
  refine ⟨?_, fun hz => by rw [hr]; exact hdone.refused hz, fun hz => by rw [hr]; exact hdone.wrote hz⟩
  rw [hr]
  rcases hdone.stop with ⟨h₁, -, h₃⟩ | ⟨h₁, -, h₃, h₄⟩ | ⟨m, h₁, -, h₃⟩
  · have hk : k = n := h₃
    simp only [h₁, if_true, if_pos hk]
  · have hk : k = accepted o n := h₃
    have hlt : accepted o n < n := h₄
    simp only [h₁, if_neg (by omega : ¬ k = n), reduceCtorEq, if_false]
  · have hk : k < accepted o n := h₃
    simp only [h₁, if_neg (by omega : ¬ k = n), reduceCtorEq, if_false]

/-! ### Writes that store nothing -/

/-- Size and contents of file `i` are the same. -/
def SameFile (v : Vol) (i : Nat) (v' : Vol) : Prop :=
  (inodeAt v' i).size = (inodeAt v i).size ∧ ∀ p < (inodeAt v i).size, data v' (inodeAt v' i) p = data v (inodeAt v i) p

theorem SameFile.refl (v : Vol) (i : Nat) : SameFile v i v := ⟨rfl, fun _ _ => rfl⟩

/-- A write leaves the file alone when it lies inside it and writes what is there. -/
theorem sameFile_iff {v' : Vol} {src : Nat → BitVec 8} {k : Nat} {ip' : Inode} (h : WroteFile v i src o k v' ip') :
    SameFile v i v' ↔ o + k ≤ (inodeAt v i).size ∧ ∀ j < k, src j = data v (inodeAt v i) (o + j) := by
  rw [SameFile, h.inode, h.size, h.data]
  constructor
  · rintro ⟨hsize, hbytes⟩
    refine ⟨by omega, fun j hj => ?_⟩
    have := hbytes (o + j) (by omega)
    rwa [overlay, if_pos (by omega), Nat.add_sub_cancel_left] at this
  · rintro ⟨hsize, hbytes⟩
    refine ⟨by omega, fun p _ => ?_⟩
    rw [overlay]
    split
    · rename_i hp
      rw [hbytes (p - o) (by omega), Nat.add_sub_cancel' hp.1]
    · rfl

/-- There are enough free blocks to reach the file block of offset `o`. -/
def FirstFits (v : Vol) (i o : Nat) : Prop :=
  ((prefixes (o / bsize)).filter (hole v (inodeAt v i))).length ≤ v.supply.length

instance (v : Vol) (i o : Nat) : Decidable (FirstFits v i o) := inferInstanceAs (Decidable (_ ≤ _))

/-- When `fs_write` of `count` bytes at the 32-bit offset `o` cannot store nothing and yet grow the file: there is nothing
    to write, the first chunk is refused, its first block can be had, or it does not lie behind the end. -/
def FsWriteQuiet (v : Vol) (i o count : Nat) : Prop :=
  count = 0 ∨ 2 ^ 32 ≤ o + min count writeChunkMax ∨ FirstFits v i o ∨ o ≤ (inodeAt v i).size

/-- When `xv6fs_write_file` cannot fail and yet change the file: all bytes fit, the first chunk is refused, or the
    bytes that fit lie inside the file and are there already. An empty write must not lie behind the end. -/
def WriteFileQuiet (v : Vol) (i : Nat) (src : Nat → BitVec 8) (o n : Nat) : Prop :=
  if n = 0 then o ≤ (inodeAt v i).size
  else stored v (inodeAt v i) o (accepted o n) = n ∨ accepted o n = 0 ∨
    (o + stored v (inodeAt v i) o (accepted o n) ≤ (inodeAt v i).size ∧
      ∀ j < stored v (inodeAt v i) o (accepted o n), src j = data v (inodeAt v i) (o + j))

theorem fsWrite_quiet (h : WellFormed v) (hi : Live v i) (f : Fd) (src : Nat → BitVec 8) (count : Nat)
    (hclock : ∀ w, clock w < 2 ^ 32) :
    ((fsWrite v i f src count clock).1 ≤ 0 → SameFile v i (fsWrite v i f src count clock).2.2) ↔
      FsWriteQuiet v i (f.start v i % 2 ^ 32) count := by
  have ho : f.start v i % 2 ^ 32 < 2 ^ 32 := Nat.mod_lt _ (by decide)
  obtain ⟨hret, hsame, hwrote⟩ := fsWrite_spec h hi f src count hclock
  generalize f.start v i % 2 ^ 32 = o at *
  rcases Nat.eq_zero_or_pos (accepted o count) with hz | hp
  · exact iff_of_true (fun _ => by rw [hsame hz]; exact .refl v i) (((accepted_eq_zero ho).mp hz).imp_right .inl)
  obtain ⟨ip', hw⟩ := hwrote (by omega)
  have hne : ¬ (count = 0 ∨ 2 ^ 32 ≤ o + min count writeChunkMax) := fun h => by
    have := (accepted_eq_zero ho).mpr h
    omega
  have hfits : FirstFits v i o ↔ 0 < stored v (inodeAt v i) o (accepted o count) := (storedIn_pos hp).symm
  rw [if_neg (by omega)] at hret
  rw [hret, FsWriteQuiet, ← or_assoc, or_iff_right hne, hfits, sameFile_iff hw]
  rcases Nat.eq_zero_or_pos (stored v (inodeAt v i) o (accepted o count)) with hk | hk
  · rw [hk]
    simp
  · exact iff_of_true (fun hle => by omega) (.inl hk)

theorem writeFile_quiet (h : WellFormed v) (hi : Live v i) (src : Nat → BitVec 8) (offset n : Nat)
    (hclock : ∀ w, clock w < 2 ^ 32) :
    ((xv6fsWriteFile v i src offset n clock).1 < 0 ∨ n = 0 → SameFile v i (xv6fsWriteFile v i src offset n clock).2) ↔
      WriteFileQuiet v i src (offset % 2 ^ 32) n := by
  have ho : offset % 2 ^ 32 < 2 ^ 32 := Nat.mod_lt _ (by decide)
  rcases Nat.eq_zero_or_pos n with rfl | hn
  · have hr : (xv6fsWriteFile v i src offset 0 clock).2 =
        (xv6fsWritei v (inodeAt v i) src (offset % 2 ^ 32) 0 (clock 0)).2.2 := rfl
    rw [hr]
    generalize offset % 2 ^ 32 = o at *
    obtain ⟨-, hw⟩ := writei_spec h hi src (by omega : o + 0 < 2 ^ 32) (hclock 0)
    rw [stored] at hw
    rw [WriteFileQuiet, sameFile_iff hw]
    simp
  · obtain ⟨hret, hsame, hwrote⟩ := writeFile_spec h hi src offset (ne_of_gt hn) hclock
    generalize offset % 2 ^ 32 = o at *
    rw [WriteFileQuiet, if_neg (ne_of_gt hn), hret]
    rcases eq_or_ne (stored v (inodeAt v i) o (accepted o n)) n with hk | hk
    · refine iff_of_true (fun hbad => ?_) (.inl hk)
      omega
    rw [if_neg hk, or_iff_right hk]
    rcases Nat.eq_zero_or_pos (accepted o n) with hz | hp
    · exact iff_of_true (fun _ => by rw [hsame hz]; exact .refl v i) (.inl hz)
    obtain ⟨ip', hw⟩ := hwrote (by omega)
    rw [or_iff_right (ne_of_gt hp), sameFile_iff hw]
    exact ⟨fun hsame => hsame (.inl (by decide)), fun hsame _ => hsame⟩

/-- CORRECT exactly on quiet requests: then a write that reports an error or no bytes leaves size and contents. -/
theorem write_nothing_iff {v : Vol} {i : Nat} (h : WellFormed v) (hi : Live v i) (f : Fd) (src : Nat → BitVec 8)
    (offset count : Nat) {clock : Nat → Nat} (hclock : ∀ w, clock w < 2 ^ 32) :
    (((fsWrite v i f src count clock).1 ≤ 0 → SameFile v i (fsWrite v i f src count clock).2.2) ↔
      FsWriteQuiet v i (f.start v i % 2 ^ 32) count) ∧ (((xv6fsWriteFile v i src offset count clock).1 < 0 ∨ count = 0 →
        SameFile v i (xv6fsWriteFile v i src offset count clock).2) ↔ WriteFileQuiet v i src (offset % 2 ^ 32) count) :=
  ⟨fsWrite_quiet h hi f src count hclock, writeFile_quiet h hi src offset count hclock⟩

/-- A byte behind the end of the empty file, with free blocks for it. -/
theorem write_nothing_tiny : FirstFits (tiny 9) 1 5 ∧ (((fsWrite (tiny 9) 1 ⟨5, false⟩ (fun _ => 7) 1 (fun _ => 0)).1 ≤ 0 →
        SameFile (tiny 9) 1 (fsWrite (tiny 9) 1 ⟨5, false⟩ (fun _ => 7) 1 (fun _ => 0)).2.2) ↔ FsWriteQuiet (tiny 9) 1 5 1) :=
  ⟨by decide +kernel, (write_nothing_iff (tiny_wellFormed (by decide)) (tiny_one 9) ⟨5, false⟩ (fun _ => 7) 5 1
    (fun _ => Nat.two_pow_pos 32)).1⟩

/-- INCORRECT on a full volume: one byte at offset 5 of an empty file cannot be stored, `fs_write` reports no bytes and
    `xv6fs_write_file` an error, and the file has grown. With one free block, `xv6fs_write_file` of two blocks
    fails and leaves the first one in the file. -/
theorem write_nothing_grows : ((fsWrite (tiny 0) 1 ⟨5, false⟩ (fun _ => 7) 1 (fun _ => 0)).1 ≤ 0 ∧
      ¬ SameFile (tiny 0) 1 (fsWrite (tiny 0) 1 ⟨5, false⟩ (fun _ => 7) 1 (fun _ => 0)).2.2) ∧
    ((xv6fsWriteFile (tiny 0) 1 (fun _ => 7) 5 1 (fun _ => 0)).1 < 0 ∧
      ¬ SameFile (tiny 0) 1 (xv6fsWriteFile (tiny 0) 1 (fun _ => 7) 5 1 (fun _ => 0)).2) ∧
    ((xv6fsWriteFile (tiny 1) 1 (fun _ => 7) 0 2048 (fun _ => 0)).1 < 0 ∧
      ¬ SameFile (tiny 1) 1 (xv6fsWriteFile (tiny 1) 1 (fun _ => 7) 0 2048 (fun _ => 0)).2) := by
  have hclock : ∀ w : Nat, (fun _ : Nat => 0) w < 2 ^ 32 := fun _ => Nat.two_pow_pos 32
  have hsize : (inodeAt (tiny 0) 1).size = 0 ∧ (inodeAt (tiny 1) 1).size = 0 := by decide +kernel
  have hfull : ¬ FirstFits (tiny 0) 1 5 ∧ stored (tiny 0) (inodeAt (tiny 0) 1) 5 1 = 0 := by decide +kernel
  have hpart : stored (tiny 1) (inodeAt (tiny 1) 1) 0 2048 = 1024 := by decide +kernel
  have h₁ := not_congr (fsWrite_quiet (tiny_wellFormed (by decide)) (tiny_one 0) ⟨5, false⟩ (fun _ => 7) 1 hclock)
  have h₂ := not_congr (writeFile_quiet (tiny_wellFormed (by decide)) (tiny_one 0) (fun _ => 7) 5 1 hclock)
  have h₃ := not_congr (writeFile_quiet (tiny_wellFormed (by decide)) (tiny_one 1) (fun _ => 7) 0 2048 hclock)
  refine ⟨Classical.not_imp.mp (h₁.mpr ?_), ?_, ?_⟩
  · rintro (h | h | h | h)
    · cases h
    · exact absurd h (by decide)
    · exact hfull.1 h
    · rw [hsize.1] at h
      exact absurd h (by decide)
  · obtain ⟨hret, hne⟩ := Classical.not_imp.mp (h₂.mpr fun h => by
      rw [WriteFileQuiet, if_neg (by decide), show accepted (5 % 2 ^ 32) 1 = 1 by decide] at h
      rw [show (5 % 2 ^ 32) = 5 by decide] at h
      omega)
    exact ⟨hret.resolve_right (by decide), hne⟩
  · obtain ⟨hret, hne⟩ := Classical.not_imp.mp (h₃.mpr fun h => by
      rw [WriteFileQuiet, if_neg (by decide), show accepted (0 % 2 ^ 32) 2048 = 2048 by decide] at h
      rw [show (0 % 2 ^ 32) = 0 by decide] at h
      omega)
    exact ⟨hret.resolve_right (by decide), hne⟩

end Orthox.Files
