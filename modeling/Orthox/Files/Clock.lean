import Mathlib

/-! The clock behind `mtime` (`xv6fs_now_sec`, `xv6fs_mount_storage` in `kernel/xv6fs.c`).

    The machine has no wall clock, only milliseconds since power on. The superblock therefore keeps a base that every mount
    moves forward and writes back before any file is written, and an `mtime` is that base plus the seconds of uptime. `Clock` is
    what survives and what is lost at a power cut, with the `mtime`s handed out so far. -/

namespace Orthox.Files
open List

/-- `XV6FS_MOUNT_ADVANCE_SEC` -/
@[irreducible] def mountAdvanceSec : BitVec 32 := 86400

/-- `xv6fs_now_sec` -/
def xv6fsNowSec (base : BitVec 32) (nowMs : Nat) : BitVec 32 := base + BitVec.ofNat 32 (nowMs / 1000)

structure Clock where
  /-- `mtime_base` in the superblock on disk -/
  sbBase : BitVec 32
  /-- `g_mtime_base`, from the mount on -/
  base : Option (BitVec 32)
  /-- `arch_time_now_ms` -/
  nowMs : Nat
  /-- inode and new `mtime` of every write, latest first -/
  stamps : List (Nat × BitVec 32)

inductive Event
  /-- power is lost or the machine is shut down, and it starts again with this uptime -/
  | boot (ms : Nat)
  | tick (ms : Nat)
  | mount
  | write (inum : Nat)

namespace Clock

def step (c : Clock) : Event → Clock
  | .boot ms => { c with base := none, nowMs := ms }
  | .tick ms => { c with nowMs := c.nowMs + ms }
  | .mount =>
    -- the superblock goes to disk at once, not through the log
    { c with base := some (c.sbBase + mountAdvanceSec), sbBase := c.sbBase + mountAdvanceSec }
  | .write inum =>
    match c.base with
    | none => c
    | some b => { c with stamps := (inum, xv6fsNowSec b c.nowMs) :: c.stamps }

def run (c : Clock) (es : List Event) : Clock := es.foldl step c

/-- Later writes got no smaller `mtime`. -/
def Monotone (stamps : List (Nat × BitVec 32)) : Prop := stamps.Pairwise fun later earlier => earlier.2 ≤ later.2

instance (stamps : List (Nat × BitVec 32)) : Decidable (Monotone stamps) :=
  inferInstanceAs (Decidable (List.Pairwise _ _))

/-- A write falls into the first day of uptime, and neither it nor a mount passes the 32-bit second. -/
def Timely (c : Clock) : Event → Prop
  | .boot _ | .tick _ => True
  | .mount => c.sbBase.toNat + mountAdvanceSec.toNat < 2 ^ 32
  | .write _ => c.nowMs / 1000 ≤ mountAdvanceSec.toNat ∧ c.sbBase.toNat + c.nowMs / 1000 < 2 ^ 32

instance (c : Clock) (e : Event) : Decidable (c.Timely e) := by
  cases e <;> simp only [Timely] <;> infer_instance

/-- Every step of the run is timely where it happens. -/
def AllTimely (c : Clock) : List Event → Prop
  | [] => True
  | e :: es => c.Timely e ∧ AllTimely (c.step e) es

instance decAllTimely (c : Clock) : (es : List Event) → Decidable (c.AllTimely es)
  | [] => .isTrue trivial
  | e :: es => @instDecidableAnd _ _ _ (decAllTimely (c.step e) es)

/-! ### Timely runs -/

/-- Every stamp lies within a day of the stored base, and while the volume is mounted not behind the clock. -/
structure Ahead (c : Clock) : Prop where
  monotone : Monotone c.stamps
  day : ∀ s ∈ c.stamps, s.2.toNat ≤ c.sbBase.toNat + mountAdvanceSec.toNat
  base : ∀ b, c.base = some b → b = c.sbBase
  now : c.base ≠ none → ∀ s ∈ c.stamps, s.2.toNat ≤ c.sbBase.toNat + c.nowMs / 1000

variable {b : BitVec 32} {ms : Nat}

theorem Ahead.of_no_stamps {c : Clock} (h : c.stamps = []) (hb : c.base = none) : c.Ahead where
  monotone := by simp [Monotone, h]
  day := by simp [h]
  base := by simp [hb]
  now := by simp [h]

theorem nowSec_toNat (h : b.toNat + ms / 1000 < 2 ^ 32) : (xv6fsNowSec b ms).toNat = b.toNat + ms / 1000 := by
  rw [xv6fsNowSec, BitVec.toNat_add, BitVec.toNat_ofNat, Nat.add_mod_mod, Nat.mod_eq_of_lt h]

theorem Ahead.mount {sbBase : BitVec 32} {base : Option (BitVec 32)} {stamps : List (Nat × BitVec 32)}
    (h : Ahead ⟨sbBase, base, ms, stamps⟩) (ht : sbBase.toNat + mountAdvanceSec.toNat < 2 ^ 32)
    (hb : b = sbBase + mountAdvanceSec) : Ahead ⟨b, some b, ms, stamps⟩ := by
  have hadd : b.toNat = sbBase.toNat + mountAdvanceSec.toNat := by
    rw [hb, BitVec.toNat_add, Nat.mod_eq_of_lt ht]
  -- what was within a day of the old base is not ahead of the new one
  have hold : ∀ s ∈ stamps, s.2.toNat ≤ b.toNat := fun s hs => (h.day s hs).trans hadd.ge
  refine ⟨h.monotone, fun s hs => ?_, fun _ e => (Option.some.inj e).symm, fun _ s hs => ?_⟩
  · exact (hold s hs).trans (Nat.le_add_right _ _)
  · exact (hold s hs).trans (Nat.le_add_right _ _)

theorem Ahead.step {c : Clock} (h : c.Ahead) : ∀ {e : Event}, c.Timely e → (c.step e).Ahead
  | .boot _, _ => ⟨h.monotone, h.day, by simp [Clock.step], by simp [Clock.step]⟩
  | .tick ms, _ => by
    refine ⟨h.monotone, h.day, h.base, fun hb s hs => (h.now hb s hs).trans ?_⟩
    exact Nat.add_le_add_left (Nat.div_le_div_right (Nat.le_add_right _ ms)) _
  | .mount, ht => mount h ht rfl
  | .write inum, ⟨hday, hfit⟩ => by
    rcases hb : c.base with - | b
    · simpa [Clock.step, hb] using h
    obtain rfl := h.base b hb
    have hstamp := nowSec_toNat hfit
    have hnow := h.now (by simp [hb])
    simp only [Clock.step, hb]
    refine ⟨pairwise_cons.mpr ⟨fun s hs => ?_, h.monotone⟩, ?_, fun b e => ?_, ?_⟩
    · exact BitVec.le_def.mpr ((hnow s hs).trans hstamp.ge)
    · rintro s (_ | ⟨_, hs⟩)
      · exact hstamp.le.trans (Nat.add_le_add_left hday _)
      · exact h.day s hs
    · exact (Option.some.inj e).symm
    · rintro - s (_ | ⟨_, hs⟩)
      · exact hstamp.le
      · exact hnow s hs

theorem Ahead.run {c : Clock} (h : c.Ahead) : ∀ {es : List Event}, c.AllTimely es → (c.run es).Ahead
  | [], _ => h
  | _ :: _, ⟨he, hes⟩ => run (h.step he) hes

/-- CORRECT. Over any number of boots, crashes and mounts, `mtime`s never run backwards as long as every
    write falls into the first day of its boot and the stored base stays below 2^32 seconds. -/
theorem mtime_never_backwards (sbBase : BitVec 32) (ms : Nat) (es : List Event)
    (h : (Clock.mk sbBase none ms []).AllTimely es) : Monotone ((Clock.mk sbBase none ms []).run es).stamps :=
  (Ahead.run (.of_no_stamps rfl rfl) h).monotone

/-- A day of work, a power cut, and work in the next boot. -/
theorem mtime_over_reboot : (Clock.mk 0 none 0 []).AllTimely [.mount, .tick 86400000, .write 5, .boot 0, .mount, .write 6] ∧
      Monotone ((Clock.mk 0 none 0 []).run [.mount, .tick 86400000, .write 5, .boot 0, .mount, .write 6]).stamps :=
  ⟨by decide +kernel, mtime_never_backwards 0 0 _ (by decide +kernel)⟩

/-! ### Boots longer than a day -/

/-- INCORRECT without the bound: written one second into the second day, then again right after a reboot. -/
theorem mtime_runs_backwards :
    ¬ Monotone ((Clock.mk 0 none 0 []).run [.mount, .tick 86401000, .write 5, .boot 0, .mount, .write 6]).stamps := by
  decide +kernel

end Clock
end Orthox.Files
