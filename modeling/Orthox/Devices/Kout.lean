import Orthox.Blocks.Write

/-! The raw output device: `virtio_kout_write_raw` of `kernel/x86_64/virtio_blk.c` and the `FT_RAWDEV` branch of `fs_write`.
    Bytes go out in whole sectors, through a staging buffer that is zeroed first when they do not fill the sector. Nothing
    is read back, so the rest of the first and of the last sector becomes zero. A write is exact if it was zero before. -/

namespace Orthox.Devices
open Blocks List

/-- How the device answers a request; one that failed, or that nobody waits for any more, may have been carried out. -/
inductive Answer where
  | done
  | failed (written : Bool)

/-- The staging buffer, the bytes of the device, the offset of the open file, and whether the device was found. -/
structure Kout where
  staging : Nat → BitVec 8
  disk : Nat → BitVec 8
  offset : Nat := 0
  ready : Bool := true

namespace Kout

/-- `kout_do_write_sector`; the answers are those to the sectors of one call. -/
def koutDoWriteSector (answer : Nat → Answer) (k : Kout) (lba : Nat) : Bool × Kout :=
  let written := { k with disk := fun p => if p / 512 = lba then k.staging (p % 512) else k.disk p }
  match answer lba with
  | .done => (true, written)
  | .failed w => (false, if w then written else k)

/-- What a turn of the loop puts into the staging buffer. -/
def stage (k : Kout) (src : Nat → BitVec 8) (sectorPos chunk : Nat) : Kout :=
  let cleared := if 0 < sectorPos ∨ chunk < 512 then fun _ => 0 else k.staging
  { k with staging := overlay cleared src sectorPos chunk }

/-- The loop of `virtio_kout_write_raw`; every turn takes a byte at least. -/
def writeLoop (answer : Nat → Answer) : Nat → (Nat → BitVec 8) → Nat → Nat → Nat → Kout → Bool × Kout
  | 0, _, _, _, _, k => (true, k)
  | fuel + 1, src, lba, sectorPos, remaining, k =>
    if remaining = 0 then (true, k)
    else
      let chunk := min (512 - sectorPos) remaining
      let r := koutDoWriteSector answer (k.stage src sectorPos chunk) lba
      if r.1 then writeLoop answer fuel (fun i => src (chunk + i)) (lba + 1) 0 (remaining - chunk) r.2 else r

def virtioKoutWriteRaw (answer : Nat → Answer) (k : Kout) (byteOffset : Nat) (src : Nat → BitVec 8) (count : Nat) : Bool × Kout :=
  if k.ready then writeLoop answer count src (byteOffset / 512) (byteOffset % 512) count k else (false, k)

/-- `fs_write` on the device; `none` is `-EIO`. -/
def fsWrite (answer : Nat → Answer) (k : Kout) (buf : List (BitVec 8)) : Option Kout :=
  let r := k.virtioKoutWriteRaw answer k.offset (buf.getD · 0) buf.length
  if r.1 then some { r.2 with offset := (k.offset + buf.length) % 2 ^ 64 } else none

/-- The byte is not in `[o, o + n)`, but in a sector of the range. -/
abbrev Beside (o n p : Nat) : Prop := 0 < n ∧ (p < o ∨ o + n ≤ p) ∧ o / 512 ≤ p / 512 ∧ p / 512 ≤ (o + n - 1) / 512

/-- The bytes after a write of the range: the rest of the sectors is zero. -/
def padded (d src : Nat → BitVec 8) (o n p : Nat) : BitVec 8 := if Beside o n p then 0 else overlay d src o n p

/-- One sector, and then the rest of the range. -/
theorem padded_sector (d src s : Nat → BitVec 8) {lba pos n c : Nat} (hpos : pos < 512) (hn : 0 < n) (hc : c = min (512 - pos) n) :
    padded (fun p => if p / 512 = lba then overlay (if 0 < pos ∨ c < 512 then fun _ => 0 else s) src pos c (p % 512) else d p)
      (fun i => src (c + i)) ((lba + 1) * 512) (n - c) = padded d src (lba * 512 + pos) n := by
  funext p
  simp only [padded, overlay]
  rcases lt_trichotomy (p / 512) lba with hlt | rfl | hgt
  · simp (disch := omega) only [if_neg]
  · rw [if_neg (by omega)]
    split_ifs <;> first | omega | rfl | (congr 1; omega)
  · have hsrc : c + (p - (lba + 1) * 512) = p - (lba * 512 + pos) ∨ lba * 512 + pos + n ≤ p := by omega
    split_ifs <;> first | omega | rfl | (congr 1; omega)

variable {answer : Nat → Answer}

/-- A write that succeeds leaves its bytes, and zeros around them. -/
theorem writeLoop_padded {fuel : Nat} {src : Nat → BitVec 8} {lba pos n : Nat} {k : Kout} (hn : n ≤ fuel)
    (hpos : pos < 512) (h : (writeLoop answer fuel src lba pos n k).1) :
    (writeLoop answer fuel src lba pos n k).2.disk = padded k.disk src (lba * 512 + pos) n := by
  have hzero : ∀ (d src : Nat → BitVec 8) (o : Nat), padded d src o 0 = d := fun d src o => by
    funext p
    rw [padded, if_neg (by simp), overlay_zero]
  induction fuel generalizing src lba pos n k with
  | zero =>
    obtain rfl := Nat.le_zero.mp hn
    exact (hzero ..).symm
  | succ fuel ih =>
    rw [writeLoop] at h ⊢
    rcases Nat.eq_zero_or_pos n with rfl | hpos'
    · exact (hzero ..).symm
    rw [if_neg hpos'.ne'] at h ⊢
    rcases ha : answer lba with - | w
    · simp only [koutDoWriteSector, ha, if_true] at h ⊢
      rw [ih (by omega) (by decide) h, add_zero]
      exact padded_sector k.disk src k.staging hpos hpos' rfl
    · simp [koutDoWriteSector, ha] at h

/-- Beside the range there are zeros, and it ends below 2^64. -/
def Clean (k : Kout) (n : Nat) : Prop := (∀ p, Beside k.offset n p → k.disk p = 0) ∧ k.offset + n < 2 ^ 64

/-- Successful writes one after another that meet `ok`. -/
inductive Writes (ok : Kout → Nat → Prop) : Kout → List (List (BitVec 8)) → Kout → Prop
  | nil (k : Kout) : Writes ok k [] k
  | cons {k k₁ k₂ : Kout} {buf : List (BitVec 8)} {bufs : List (List (BitVec 8))} (answer : Nat → Answer) (hok : ok k buf.length)
    (hw : k.fsWrite answer buf = some k₁) (h : Writes ok k₁ bufs k₂) : Writes ok k (buf :: bufs) k₂

theorem fsWrite_exact {k k₁ : Kout} {buf : List (BitVec 8)} (hok : k.Clean buf.length) (hw : k.fsWrite answer buf = some k₁) :
    k₁.disk = overlay k.disk (buf.getD · 0) k.offset buf.length ∧ k₁.offset = k.offset + buf.length := by
  obtain ⟨hr, heq⟩ := Option.ite_none_right_eq_some.mp hw
  obtain rfl := Option.some.inj heq
  refine ⟨?_, Nat.mod_eq_of_lt hok.2⟩
  rw [virtioKoutWriteRaw] at hr ⊢
  split_ifs at hr ⊢ with hready
  refine (writeLoop_padded le_rfl (Nat.mod_lt _ (by decide)) hr).trans ?_
  funext p
  rw [Nat.div_add_mod', padded]
  split_ifs with hp
  · rw [overlay, if_neg (by omega), hok.1 p hp]
  · rfl

/-- CORRECT when there are zeros beside every range: consecutive writes leave their buffers behind one another, and every other
    byte as it was. -/
theorem raw_writes_exact {k k' : Kout} {bufs : List (List (BitVec 8))} (h : Writes Clean k bufs k') :
    k'.disk = overlay k.disk (bufs.flatten.getD · 0) k.offset bufs.flatten.length := by
  induction h with
  | nil k => exact (overlay_zero ..).symm
  | @cons k k₁ k₂ buf bufs answer hok hw h ih =>
    obtain ⟨hdisk, hoff⟩ := fsWrite_exact hok hw
    rw [ih, hdisk, flatten_cons, length_append, ← overlay_overlay]
    congr 1
    · funext p
      simp only [overlay]
      split_ifs with hp
      · rw [getD_append _ _ _ _ (by omega)]
      · rfl
    · funext i
      rw [getD_append_right _ _ _ _ (by omega), Nat.add_sub_cancel_left]

/-- An empty device, to the first two bytes of which one call writes. -/
theorem raw_writes_exact_once : ∃ k, Writes Clean ⟨fun _ => 0, fun _ => 0, 0, true⟩ [[1, 2]] k ∧
    k.disk = overlay (fun _ => 0) ([1, 2].getD · 0) 0 2 := by
  have h : Writes Clean ⟨fun _ => 0, fun _ => 0, 0, true⟩ [[1, 2]] _ := .cons (fun _ => .done) ⟨fun _ _ => rfl, by decide⟩ rfl (.nil _)
  exact ⟨_, h, raw_writes_exact h⟩

/-- INCORRECT in general: of two writes of one byte, the second zeroes the first. -/
theorem raw_write_zeroes : ∃ k, Writes (fun _ _ => True) ⟨fun _ => 0, fun _ => 0, 0, true⟩ [[1], [2]] k ∧ k.disk 0 = 0 ∧
    overlay (fun _ => 0) ([1, 2].getD · 0) 0 2 0 = 1 :=
  ⟨_, .cons (fun _ => .done) trivial rfl (.cons (fun _ => .done) trivial rfl (.nil _)), by decide, by decide⟩

end Kout
end Orthox.Devices
