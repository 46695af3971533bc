import Mathlib

/-! Waits with a time-out: `sys_nanosleep` (`kernel/sys_task.c`), `linux_ppoll_wait` and `linux_sys_pselect6`
    (`kernel/linux_syscall.c`) and `sys_pselect6` of x86-64 (`kernel/sys_fs.c`). Each makes milliseconds of the timespec,
    adds them to the clock, and looks again whenever its task is woken, by `task_poll_sleep_wakeups` or by anything else,
    whether the deadline is past. All of it is arithmetic modulo 2^64. -/

namespace Orthox.Poll.Timeouts
open List Option

/-- The error numbers. -/
def eintr : Int := 4
def efault : Int := 14
def einval : Int := 22

/-- `struct linux_timespec` -/
structure Timespec where
  sec : BitVec 64
  nsec : BitVec 64

namespace Timespec

/-- The check of `sys_nanosleep` and of both `pselect6`. -/
def refused (ts : Timespec) : Bool := ts.sec.toInt < 0 || ts.nsec.toInt < 0 || 1000000000 ≤ ts.nsec.toInt

def Negative (ts : Timespec) : Prop := ts.sec.toInt < 0 ∨ ts.nsec.toInt < 0

def Valid (ts : Timespec) : Prop := 0 ≤ ts.sec.toInt ∧ 0 ≤ ts.nsec.toInt ∧ ts.nsec.toInt < 1000000000

/-- The time asked for, in nanoseconds and in full milliseconds. -/
def nanoseconds (ts : Timespec) : Nat := ts.sec.toNat * 1000000000 + ts.nsec.toNat
def milliseconds (ts : Timespec) : Nat := ts.sec.toNat * 1000 + (ts.nsec.toNat + 999999) / 1000000

end Timespec

/-- A call and its other arguments; `pselect6` is the one of x86-64. -/
inductive Call where
  | nanosleep
  | ppoll (nfds : BitVec 64) (null : Bool)
  | pselect6 (nfds : BitVec 32)
  | linuxPselect6 (nfds : BitVec 32) (maskLen : Option (BitVec 64))

/-- What a wait sees in one turn of its loop: descriptors that are ready, a signal, and the clock. -/
structure Turn where
  ready : Nat
  interrupted : Bool
  now : BitVec 64

namespace Call

/-- The checks of the other arguments. -/
def badArgs : Call → Option Int
  | nanosleep => none
  | ppoll nfds null => if 256 < nfds then some einval else if nfds ≠ 0 ∧ null then some efault else none
  | pselect6 nfds => if nfds.toInt < 0 then some einval else none
  | linuxPselect6 nfds maskLen =>
    if maskLen.any (· ≠ 8) then some einval else if nfds.toInt < 0 then some einval else none

/-- Whether the timespec is checked. -/
def checks : Call → Bool
  | ppoll .. => false
  | _ => true

def refused (c : Call) (ts : Timespec) : Option Int :=
  c.badArgs.orElse fun _ => if c.checks && ts.refused then some einval else none

/-- The milliseconds to wait. -/
def ms (c : Call) (ts : Timespec) : BitVec 64 :=
  match c with
  | pselect6 _ => ts.sec * 1000 + (ts.nsec + 999999).sdiv 1000000
  | _ => ts.sec * 1000 + (ts.nsec + 999999) / 1000000

/-- The loops; `ppoll` is not ended by signals. The answer and the time when it is given, or `none` while it waits. -/
def loop (c : Call) (deadline : BitVec 64) : List Turn → Option (Int × BitVec 64)
  | [] => none
  | t :: ts =>
    match c with
    | nanosleep => if t.now < deadline then loop c deadline ts else some (0, t.now)
    | ppoll .. =>
      if 0 < t.ready then some (t.ready, t.now) else if deadline ≤ t.now then some (0, t.now) else loop c deadline ts
    | pselect6 .. | linuxPselect6 .. =>
      if 0 < t.ready then some (t.ready, t.now)
      else if t.interrupted then some (-eintr, t.now)
      else if deadline ≤ t.now then some (0, t.now)
      else loop c deadline ts

/-- The wait from `start` on. `sys_nanosleep` only yields when there are no milliseconds to wait. -/
def wait (c : Call) (ts : Timespec) (start : BitVec 64) (turns : List Turn) : Option (Int × BitVec 64) :=
  match c with
  | nanosleep => if c.ms ts = 0 then turns.head?.map fun t => (0, t.now) else c.loop (start + c.ms ts) turns
  | ppoll .. | pselect6 .. | linuxPselect6 .. => c.loop (start + c.ms ts) turns

/-- A call made at `start`. -/
def run (c : Call) (ts : Timespec) (start : BitVec 64) (turns : List Turn) : Option (Int × BitVec 64) :=
  match c.refused ts with
  | some e => some (-e, start)
  | none => c.wait ts start turns

end Call

/-- Nothing is ready and no signal comes; the clock does not go back. -/
def Quiet (start : BitVec 64) (turns : List Turn) : Prop :=
  ∀ t ∈ turns, t.ready = 0 ∧ t.interrupted = false ∧ start ≤ t.now

/-- A call with a valid time-out ends by itself only when the time is over, and one with a negative field fails at once. -/
def Punctual (c : Call) (ts : Timespec) (start : BitVec 64) : Prop :=
  (ts.Valid → ∀ turns t, Quiet start turns → c.run ts start turns = some (0, t) →
    ts.nanoseconds ≤ (t.toNat - start.toNat) * 1000000) ∧
  (ts.Negative → ∀ turns, ∃ e > 0, c.run ts start turns = some (-e, start))

/-! ### Milliseconds -/

variable {ts : Timespec} {c : Call} {start : BitVec 64}

theorem Timespec.Valid.bounds (h : ts.Valid) : ts.sec.toNat < 2 ^ 63 ∧ ts.nsec.toNat < 1000000000 := by
  obtain ⟨hsec, hnsec, hlt⟩ := h
  rw [BitVec.toInt_eq_toNat_cond] at hsec hnsec hlt
  split_ifs at hsec hnsec hlt <;> omega

/-- The milliseconds of a call are those of the timespec, modulo 2^64. -/
theorem ms_toNat (c : Call) (h : ts.Valid) : (c.ms ts).toNat = ts.milliseconds % 2 ^ 64 := by
  obtain ⟨-, hnsec⟩ := h.bounds
  have hsum : (ts.nsec + 999999).toNat = ts.nsec.toNat + 999999 := by
    rw [BitVec.toNat_add, show BitVec.toNat 999999 = 999999 from rfl]
    omega
  have hsigned : (ts.nsec + 999999).sdiv 1000000 = (ts.nsec + 999999) / 1000000 := by
    have hmsb : (ts.nsec + 999999).msb = false := by
      rw [BitVec.msb_eq_false_iff_two_mul_lt]
      omega
    rw [BitVec.sdiv_eq, hmsb]
    rfl
  have hms : c.ms ts = ts.sec * 1000 + (ts.nsec + 999999) / 1000000 := by
    cases c with
    | pselect6 _ => rw [Call.ms, hsigned]
    | _ => rfl
  rw [hms, BitVec.toNat_add, BitVec.toNat_mul, BitVec.toNat_udiv, Timespec.milliseconds,
    show BitVec.toNat 1000 = 1000 from rfl, show BitVec.toNat 1000000 = 1000000 from rfl]
  omega

theorem refused_of_valid (h : ts.Valid) (c : Call) : c.refused ts = c.badArgs := by
  have hno : ts.refused = false := by
    obtain ⟨hsec, hnsec, hlt⟩ := h
    simp only [Timespec.refused, Bool.or_eq_false_iff, decide_eq_false_iff_not]
    omega
  rw [Call.refused, hno, Bool.and_false]
  cases c.badArgs <;> rfl

/-- An error is a positive number. -/
theorem pos_of_refused {e : Int} (h : c.refused ts = some e) : 0 < e := by
  have hargs : ∀ e ∈ c.badArgs, 0 < e := by
    intro e he
    cases c with
    | nanosleep => exact nomatch he
    | _ =>
      simp only [Call.badArgs] at he
      split_ifs at he <;> cases he <;> decide
  rw [Call.refused] at h
  rcases hb : c.badArgs with _ | e'
  · rw [hb] at h
    simp only [orElse_none] at h
    split_ifs at h
    obtain rfl := some.inj h
    decide
  · rw [hb] at h
    obtain rfl := some.inj h
    exact hargs _ hb

/-! ### The loops -/

/-- A turn in which nothing is ready and no signal came. -/
theorem loop_quiet (c : Call) {x : Turn} (hready : x.ready = 0) (hsignal : x.interrupted = false) (deadline : BitVec 64)
    (turns : List Turn) : c.loop deadline (x :: turns) = if x.now < deadline then c.loop deadline turns else some (0, x.now) := by
  have hnone : ¬ 0 < x.ready := by omega
  cases c <;>
    simp only [Call.loop, hnone, hsignal, Bool.false_eq_true, if_false, ← BitVec.not_lt, ite_not]

/-- A loop that sees nothing ready ends at a reading of the clock past its deadline. -/
theorem loop_due {deadline t : BitVec 64} {turns : List Turn} (hquiet : Quiet start turns)
    (h : c.loop deadline turns = some (0, t)) : deadline.toNat ≤ t.toNat ∧ start.toNat ≤ t.toNat := by
  induction turns with
  | nil => cases c <;> exact nomatch h
  | cons x turns ih =>
    obtain ⟨hready, hsignal, hnow⟩ := hquiet x mem_cons_self
    rw [loop_quiet c hready hsignal] at h
    split_ifs at h with hlt
    · exact ih (fun y hy => hquiet y (mem_cons_of_mem x hy)) h
    · obtain ⟨-, rfl⟩ := Prod.mk.inj (some.inj h)
      exact ⟨Nat.le_of_not_lt hlt, hnow⟩

/-- An accepted call ends when the time is over that its arithmetic makes of the timespec. -/
theorem run_due {t : BitVec 64} {turns : List Turn} (hno : c.refused ts = none)
    (hquiet : Quiet start turns) (h : c.run ts start turns = some (0, t)) :
    c.ms ts = 0 ∧ start.toNat ≤ t.toNat ∨ (start + c.ms ts).toNat ≤ t.toNat ∧ start.toNat ≤ t.toNat := by
  rw [Call.run, hno] at h
  cases c with
  | nanosleep =>
    dsimp only [Call.wait] at h
    split_ifs at h with hz
    · obtain ⟨x, hx, heq⟩ := map_eq_some_iff.1 h
      obtain ⟨-, rfl⟩ := Prod.mk.inj heq
      exact .inl ⟨hz, (hquiet x (mem_of_head? hx)).2.2⟩
    · exact .inr (loop_due hquiet h)
  | _ => exact .inr (loop_due hquiet h)

/-- It does end then. -/
theorem run_past {now : BitVec 64} (hno : c.refused ts = none)
    (hpast : (start + c.ms ts).toNat ≤ now.toNat) : c.run ts start [⟨0, false, now⟩] = some (0, now) := by
  have hloop : c.loop (start + c.ms ts) [⟨0, false, now⟩] = some (0, now) := by
    rw [loop_quiet c rfl rfl, if_neg]
    exact Nat.not_lt_of_le hpast
  rw [Call.run, hno]
  cases c with
  | nanosleep =>
    dsimp only [Call.wait]
    split_ifs
    · rfl
    · exact hloop
  | _ => exact hloop

/-! ### When a wait is in time -/

/-- The deadline does not pass 2^64, and a negative timespec is not left to `ppoll`, which does not look at it. -/
def InRange (c : Call) (ts : Timespec) (start : BitVec 64) : Prop :=
  (ts.Valid → c.badArgs = none → start.toNat + ts.milliseconds < 2 ^ 64) ∧
    (ts.Negative → c.checks = true ∨ c.badArgs ≠ none)

/-- CORRECT exactly when the deadline does not wrap and a negative timespec is given to a call that checks it. -/
theorem punctual_iff (c : Call) (ts : Timespec) (start : BitVec 64) : Punctual c ts start ↔ InRange c ts start := by
  have hround : ts.nanoseconds ≤ ts.milliseconds * 1000000 ∧ ts.milliseconds * 1000000 < ts.nanoseconds + 1000000 := by
    rw [Timespec.nanoseconds, Timespec.milliseconds]
    omega
  constructor
  · rintro ⟨htime, hneg⟩
    refine ⟨fun hvalid hargs => Nat.lt_of_not_le fun hwrap => ?_, fun hnegative => ?_⟩
    · have hno : c.refused ts = none := (refused_of_valid hvalid c).trans hargs
      -- the clock is read once, at the wrapped deadline or at the start
      have hearly : ∀ now : BitVec 64, start.toNat ≤ now.toNat → (start + c.ms ts).toNat ≤ now.toNat →
          ts.nanoseconds ≤ (now.toNat - start.toNat) * 1000000 := by
        intro now hlow hpast
        refine htime hvalid _ now (fun x hx => ?_) (run_past hno hpast)
        rw [mem_singleton.1 hx]
        exact ⟨rfl, rfl, hlow⟩
      rcases Nat.le_total start.toNat (start + c.ms ts).toNat with hle | hle
      · have := hearly _ hle (Nat.le_refl _)
        omega
      · have := hearly start (Nat.le_refl _) hle
        omega
    · rcases hc : c.badArgs with _ | e
      · refine .inl (Bool.not_eq_false _ ▸ fun hunchecked => ?_)
        obtain ⟨e, -, hrun⟩ := hneg hnegative []
        have hno : c.refused ts = none := by
          rw [Call.refused, hc, hunchecked]
          rfl
        rw [Call.run, hno] at hrun
        cases c with
        | ppoll _ _ => exact nomatch hrun
        | _ => exact nomatch hunchecked
      · exact .inr nofun
  · rintro ⟨hrange, hneg⟩
    refine ⟨fun hvalid turns t hquiet hrun => ?_, fun hnegative turns => ?_⟩
    · rcases hno : c.refused ts with _ | e
      · have hin := hrange hvalid ((refused_of_valid hvalid c).symm.trans hno)
        have hms := ms_toNat c hvalid
        rw [Nat.mod_eq_of_lt (by omega)] at hms
        rcases run_due hno hquiet hrun with ⟨hz, hle⟩ | ⟨hpast, hle⟩
        · rw [hz] at hms
          have hzero : ts.milliseconds = 0 := hms.symm
          omega
        · rw [BitVec.toNat_add] at hpast
          omega
      · rw [Call.run, hno] at hrun
        have hpos := pos_of_refused hno
        have := (Prod.mk.inj (some.inj hrun)).1
        omega
    · obtain ⟨e, he⟩ : ∃ e, c.refused ts = some e := by
        have hbad : ts.refused := by
          simp only [Timespec.refused, Bool.or_eq_true, decide_eq_true_eq]
          exact .inl hnegative
        rw [Call.refused, hbad]
        rcases hc : c.badArgs with _ | e
        · rw [(hneg hnegative).resolve_right fun h => h hc]
          exact ⟨einval, rfl⟩
        · exact ⟨e, rfl⟩
      exact ⟨e, pos_of_refused he, by rw [Call.run, he]⟩

/-- 18446744073709552 seconds, which are 2^64 milliseconds and 384. -/
def eons : Timespec := ⟨18446744073709552, 0⟩

theorem eons_valid : eons.Valid := by
  show _ ∧ _ ∧ _
  decide

/-- They are over after 384 milliseconds. -/
theorem eons_early (hargs : c.badArgs = none) : ¬ Punctual c eons 1000 := by
  rintro ⟨htime, -⟩
  have hno : c.refused eons = none := (refused_of_valid eons_valid c).trans hargs
  have hms : (c.ms eons).toNat = 384 := (ms_toNat c eons_valid).trans (by decide)
  have hpast : (1000 + c.ms eons).toNat ≤ (1384 : BitVec 64).toNat := by
    rw [BitVec.toNat_add, hms]
    decide
  have hquiet : Quiet 1000 [⟨0, false, 1384⟩] := by
    intro t ht
    rw [mem_singleton.1 ht]
    decide
  have hshort := htime eons_valid _ _ hquiet (run_past hno hpast)
  exact absurd hshort (by decide)

/-- INCORRECT in general: such a wait is over after 384 milliseconds, in each of the calls, and `ppoll` takes a second less
    than nothing for a time that is over. -/
theorem not_punctual : ¬ Punctual .nanosleep eons 1000 ∧ ¬ Punctual (.ppoll 0 true) eons 1000 ∧
    ¬ Punctual (.pselect6 0) eons 1000 ∧ ¬ Punctual (.linuxPselect6 0 none) eons 1000 ∧ ¬ Punctual (.ppoll 0 true) ⟨-1, 0⟩ 1000 := by
  refine ⟨eons_early rfl, eons_early rfl, eons_early rfl, eons_early rfl, ?_⟩
  rintro ⟨-, hneg⟩
  obtain ⟨e, -, hrun⟩ := hneg (.inl (by decide)) []
  exact nomatch hrun

end Orthox.Poll.Timeouts
