import Orthox.Tasks.Kill

/-! What a zombie leaves behind. A task holds nothing of the kernel's while its own program runs, and `sys_exit` closes its
    descriptors. So a task that exits leaves nothing, and neither does one that is killed while its program was
    interrupted, if it has no end of a pipe open. Every other kill leaves what the task had. -/

namespace Orthox.Tasks
open Schemes List Function Option Sys
open Pipes (Ends)

variable {T : Type}

namespace Sys
variable (s : Sys T) (t : T)

/-- The task is in no wait queue, holds no sleep lock and has no log operation. -/
structure Idle : Prop where
  queue : ∀ q, t ∉ s.queue q
  lock : ∀ l, s.holder l ≠ some t
  ops : s.ops t = 0

/-- No descriptor of the task is an end of a pipe. -/
def NoPipes : Prop := ∀ n f, s.files.held (t, n) = some f → ∀ c, s.files.marks f c = false

/-- The ends of a pipe that other tasks have open. -/
def openElsewhere [Fintype T] [DecidableEq T] (c : Bool × Nat) : Nat :=
  s.files.live.countP fun f => s.files.marks f c && decide (∃ k : T × Fin maxFds, k.1 ≠ t ∧ s.files.held k = some f)

/-- Nothing of the task is left: in wait queues, in the readers and writers of pipes, in sleep locks, in the log. -/
structure LeavesNothing [Fintype T] [DecidableEq T] : Prop where
  queue : ∀ q, t ∉ s.queue q
  pipe : ∀ c, s.files.count c = s.openElsewhere t c
  lock : ∀ l, s.holder l ≠ some t
  ops : s.ops t = 0

/-- A kill does no harm: the task is a zombie already, or its program was interrupted and has no end of a pipe open. -/
def Harmless : Prop := (s.task t).state = .zombie ∨ ((s.task t).onCpu = false ∧ (s.task t).mode = .user ∧ s.NoPipes t)

end Sys

/-- Kills hit only tasks that they do not harm; a fault on x86 only a task without ends of pipes; system calls return, and
    `sys_exit` goes on to the next descriptor, with nothing held. -/
def Careful [DecidableEq T] (s : Sys T) : Ev T → Prop
  | .kill t target sig => (sig = 2 ∨ sig = 15 ∨ sig = 9) → (s.task (target.getD t)).listed = true → s.Harmless (target.getD t)
  | .intr fg _ _ => ∀ t, s.struck fg s.init t = true → s.Harmless t
  | .fault t x86 => x86 = true → s.NoPipes t
  | .sysret t => s.Idle t
  | .exitNext t _ => s.Idle t
  | _ => True

/-! ### Where tasks are -/

variable {s : Sys T} {t : T}

theorem inKernel_of_acts (h : s.acts t) : (s.task t).mode.inKernel :=
  (Bool.and_eq_true_iff.mp h).2

theorem kernel_of_calls (h : s.calls t) : (s.task t).mode = .kernel :=
  of_decide_eq_true (Bool.and_eq_true_iff.mp h).2

/-! ### Changes that harm nobody -/

/-- A task that can still be woken. -/
def Task.Alive (x : Task T) : Prop := x.state ≠ .zombie ∧ x.state ≠ .dead

/-- The task stays where it is; if its state changes, it was and is alive. -/
structure Task.Calm (x x' : Task T) : Prop where
  mode : x'.mode = x.mode
  onCpu : x'.onCpu = x.onCpu
  state : (x'.state = x.state ∧ x'.onRunq = x.onRunq) ∨ (x.Alive ∧ x'.Alive)

theorem Task.Calm.refl (x : Task T) : x.Calm x := ⟨rfl, rfl, .inl ⟨rfl, rfl⟩⟩

variable {x : Task T}

theorem Task.Calm.trans {y z : Task T} (h : x.Calm y) (h' : y.Calm z) : x.Calm z := by
  refine ⟨h'.mode.trans h.mode, h'.onCpu.trans h.onCpu, ?_⟩
  rcases h.state with ⟨hs, hq⟩ | ⟨ha, ha'⟩
  · rcases h'.state with ⟨hs', hq'⟩ | ⟨hb, hb'⟩
    · exact .inl ⟨hs'.trans hs, hq'.trans hq⟩
    · exact .inr ⟨⟨hs ▸ hb.1, hs ▸ hb.2⟩, hb'⟩
  rcases h'.state with ⟨hs', hq'⟩ | ⟨-, hb'⟩
  · exact .inr ⟨ha, hs'.symm ▸ ha'.1, hs'.symm ▸ ha'.2⟩
  · exact .inr ⟨ha, hb'⟩

/-- Only states of tasks change, and wait queues get shorter. -/
structure Calm (s s' : Sys T) : Prop where
  task : ∀ t, (s.task t).Calm (s'.task t)
  queue : ∀ q, s'.queue q ⊆ s.queue q
  holder : s'.holder = s.holder
  ops : s'.ops = s.ops
  files : s'.files = s.files

namespace Calm
variable {s s' s'' : Sys T}

theorem refl (s : Sys T) : Calm s s := ⟨fun _ => .refl _, fun _ => List.Subset.refl _, rfl, rfl, rfl⟩

theorem trans (h : Calm s s') (h' : Calm s' s'') : Calm s s'' :=
  ⟨fun t => (h.task t).trans (h'.task t), fun q => List.Subset.trans (h'.queue q) (h.queue q), h'.holder.trans h.holder,
    h'.ops.trans h.ops, h'.files.trans h.files⟩

theorem idle (h : Calm s s') (hi : s.Idle t) : s'.Idle t :=
  ⟨fun q hq => hi.queue q (h.queue q hq), fun l => h.holder ▸ hi.lock l, h.ops ▸ hi.ops⟩

theorem noPipes (h : Calm s s') (hi : s.NoPipes t) : s'.NoPipes t := by
  intro n f hf c
  rw [h.files] at hf ⊢
  exact hi n f hf c

variable [DecidableEq T]

theorem setTask (h : (s.task t).Calm x) : Calm s (s.setTask t x) := by
  refine ⟨fun u => ?_, fun _ => List.Subset.refl _, rfl, rfl, rfl⟩
  simp only [Sys.setTask]
  rcases eq_or_ne u t with rfl | hne
  · rw [update_self]
    exact h
  · rw [update_of_ne hne]
    exact .refl _

theorem wake (s : Sys T) (t : T) : Calm s (s.taskWakeLocked t) := by
  unfold taskWakeLocked
  split
  · exact .refl s
  · rename_i halive
    exact .setTask ⟨rfl, rfl, .inr ⟨not_or.mp halive, nofun, nofun⟩⟩

theorem pend (s : Sys T) (t : T) (sig : Nat) : Calm s (s.pend t sig) := .setTask ⟨rfl, rfl, .inl ⟨rfl, rfl⟩⟩

theorem raise (s : Sys T) (t : T) (sig : Nat) : Calm s (s.raise t sig) := by
  unfold Sys.raise
  split
  · exact .refl s
  split
  · exact (pend s t sig).trans (wake _ t)
  · exact pend s t sig

theorem tellParent (s : Sys T) (p : T) : Calm s (s.tellParent p) := by
  have hpend : Calm s (if (s.task p).ignores linuxSigchld then s else s.pend p linuxSigchld) := by
    split
    · exact .refl s
    · exact pend s p _
  simp only [Sys.tellParent]
  split
  · exact hpend.trans (wake _ p)
  · exact hpend

omit [DecidableEq T] in
theorem setQueue {q : Queue} {ts : List T} (h : ts ⊆ s.queue q) : Calm s (s.setQueue q ts) := by
  refine ⟨fun _ => .refl _, fun r => ?_, rfl, rfl, rfl⟩
  simp only [Sys.setQueue]
  rcases eq_or_ne r q with rfl | hne
  · rw [update_self]
    exact h
  · rw [update_of_ne hne]
    exact List.Subset.refl _

theorem wakes (s : Sys T) (ts : List T) : Calm s (ts.foldl .taskWakeLocked s) := by
  induction ts generalizing s with
  | nil => exact .refl s
  | cons t ts ih => exact (wake s t).trans (ih _)

theorem wakeUpAll (s : Sys T) (q : Queue) : Calm s (s.wakeUpAll q) := (setQueue (nil_subset _)).trans (wakes _ _)

theorem wakeUpOne (s : Sys T) (q : Queue) : Calm s (s.wakeUpOne q) := by
  unfold Sys.wakeUpOne
  split
  · exact .refl s
  · rename_i t ts hq
    exact (setQueue (by rw [hq]; exact subset_cons_self t ts)).trans (wake _ t)

omit [DecidableEq T] in
theorem reparent (s : Sys T) (dying : T → Bool) : Calm s (s.reparent dying) := by
  refine ⟨fun t => ?_, fun _ => List.Subset.refl _, rfl, rfl, rfl⟩
  simp only [Sys.reparent]
  split
  · exact ⟨rfl, rfl, .inl ⟨rfl, rfl⟩⟩
  · exact .refl _

/-- Closing a descriptor wakes those who wait at the other end. -/
theorem releaseFd (s : Sys T) (t : T) (n : Fin maxFds) : Calm { s with files := s.files.drop (t, n) } (s.fsReleaseFd t n) := by
  simp only [fsReleaseFd]
  split
  · exact (wakeUpAll _ _).trans (wakeUpAll _ _)
  · exact .refl _

end Calm

/-! ### The invariant -/

variable [Fintype T]

/-- What holds in every state. -/
structure Inv (s : Sys T) : Prop where
  files : s.files.Sound
  /-- Outside the kernel a task holds nothing of it. -/
  idle : ∀ t, (s.task t).mode.inKernel = false → s.Idle t
  unborn : ∀ t, (s.task t).mode = .unborn → (s.task t).state = .dead ∧ (s.task t).onCpu = false ∧ (s.task t).onRunq = false
  /-- `sys_exit` has closed the descriptors below the next one. -/
  closed : ∀ t k, (s.task t).mode = .exiting k → ∀ n : Fin maxFds, n.val < k → s.files.held (t, n) = none
  /-- A zombie does not come back. -/
  zombie : ∀ t, (s.task t).state = .zombie → ((s.task t).mode = .gone ∨ ((s.task t).mode = .user ∧ (s.task t).onCpu = false)) ∧
    (s.task t).onRunq = false ∧ s.NoPipes t

namespace Inv
variable {s s' : Sys T} (h : Inv s)
include h

/-- What a zombie leaves. -/
theorem leavesNothing [DecidableEq T] (ht : (s.task t).state = .zombie) : s.LeavesNothing t := by
  obtain ⟨hmode, -, hpipes⟩ := h.zombie t ht
  have hidle : s.Idle t := h.idle t (by rcases hmode with hm | ⟨hm, -⟩ <;> rw [hm] <;> rfl)
  refine ⟨hidle.queue, fun c => h.files.count_eq fun k f hk hf => ?_, hidle.lock, hidle.ops⟩
  obtain rfl : k.1 = t := not_not.mp hk
  exact hpipes k.2 f hf c

theorem calm (hc : Calm s s') : Inv s' where
  files := hc.files ▸ h.files
  idle t ht := hc.idle (h.idle t ((hc.task t).mode ▸ ht))
  unborn t ht := by
    obtain ⟨hstate, hcpu, hrunq⟩ := h.unborn t ((hc.task t).mode ▸ ht)
    rcases (hc.task t).state with ⟨hs, hq⟩ | ⟨ha, -⟩
    · exact ⟨hs.trans hstate, (hc.task t).onCpu.trans hcpu, hq.trans hrunq⟩
    · exact (ha.2 hstate).elim
  closed t k ht n hn := by
    rw [hc.files]
    exact h.closed t k ((hc.task t).mode ▸ ht) n hn
  zombie t ht := by
    rcases (hc.task t).state with ⟨hs, hq⟩ | ⟨-, ha⟩
    · obtain ⟨hmode, hrunq, hpipes⟩ := h.zombie t (hs ▸ ht)
      rw [(hc.task t).mode, (hc.task t).onCpu]
      exact ⟨hmode, hq.trans hrunq, hc.noPipes hpipes⟩
    · exact (ha.1 ht).elim

/-- A task in the kernel is no zombie. -/
theorem not_zombie (ht : (s.task t).mode.inKernel) : (s.task t).state ≠ .zombie := by
  intro hz
  rcases (h.zombie t hz).1 with hm | ⟨hm, -⟩ <;> rw [hm] at ht <;> cases ht

/-- Nor is one whose program runs. -/
theorem not_zombie_of_runs (ht : s.runs t) : (s.task t).state ≠ .zombie := by
  simp only [runs, Bool.and_eq_true, decide_eq_true_eq] at ht
  intro hz
  rcases (h.zombie t hz).1 with hm | ⟨-, hcpu⟩
  · rw [ht.2] at hm
    cases hm
  · rw [ht.1] at hcpu
    cases hcpu

/-- What one task has in the kernel may change while it is there. -/
theorem possess (ht : (s.task t).mode.inKernel) (htask : s'.task = s.task) (hfiles : s'.files = s.files)
    (hidle : ∀ u, u ≠ t → s.Idle u → s'.Idle u) : Inv s' where
  files := hfiles ▸ h.files
  idle u hu := by
    rw [htask] at hu
    refine hidle u ?_ (h.idle u hu)
    rintro rfl
    rw [ht] at hu
    cases hu
  unborn u hu := by
    rw [htask] at hu ⊢
    exact h.unborn u hu
  closed u k hu n hn := by
    rw [htask] at hu
    rw [hfiles]
    exact h.closed u k hu n hn
  zombie u hu := by
    rw [htask] at hu ⊢
    obtain ⟨hmode, hrunq, hpipes⟩ := h.zombie u hu
    exact ⟨hmode, hrunq, fun n f hf c => by rw [hfiles] at hf ⊢; exact hpipes n f hf c⟩

/-- Descriptors may change of tasks that neither exit nor are zombies. -/
theorem setFiles {x : Shared (T × Fin maxFds) (Bool × Nat)} (y : Nat → Option (Nat × Ends)) (hx : x.Sound)
    (hclosed : ∀ t k, (s.task t).mode = .exiting k → ∀ n, s.files.held (t, n) = none → x.held (t, n) = none)
    (hpipes : ∀ t, (s.task t).state = .zombie → s.NoPipes t → ∀ n f, x.held (t, n) = some f → ∀ c, x.marks f c = false) :
    Inv { s with files := x, file := y } where
  files := hx
  idle t ht := ⟨(h.idle t ht).queue, (h.idle t ht).lock, (h.idle t ht).ops⟩
  unborn := h.unborn
  closed t k ht n hn := hclosed t k ht n (h.closed t k ht n hn)
  zombie t ht := ⟨(h.zombie t ht).1, (h.zombie t ht).2.1, hpipes t ht (h.zombie t ht).2.2⟩

variable [DecidableEq T]

/-- One task changes. -/
theorem setTask (hidle : x.mode.inKernel = false → s.Idle t)
    (hunborn : x.mode = .unborn → x.state = .dead ∧ x.onCpu = false ∧ x.onRunq = false)
    (hclosed : ∀ k, x.mode = .exiting k → ∀ n : Fin maxFds, n.val < k → s.files.held (t, n) = none)
    (hzombie : x.state = .zombie → (x.mode = .gone ∨ (x.mode = .user ∧ x.onCpu = false)) ∧ x.onRunq = false ∧ s.NoPipes t) :
    Inv (s.setTask t x) := by
  have hidle' : ∀ u, s.Idle u → (s.setTask t x).Idle u := fun u hu => ⟨hu.queue, hu.lock, hu.ops⟩
  refine ⟨h.files, fun u hu => ?_, fun u hu => ?_, fun u k hu n hn => ?_, fun u hu => ?_⟩
  all_goals
    simp only [Sys.setTask] at hu ⊢
    rcases eq_or_ne u t with rfl | hne
  · rw [update_self] at hu
    exact hidle' u (hidle hu)
  · rw [update_of_ne hne] at hu
    exact hidle' u (h.idle u hu)
  · rw [update_self] at hu ⊢
    exact hunborn hu
  · rw [update_of_ne hne] at hu ⊢
    exact h.unborn u hu
  · rw [update_self] at hu
    exact hclosed k hu n hn
  · rw [update_of_ne hne] at hu
    exact h.closed u k hu n hn
  · rw [update_self] at hu ⊢
    exact hzombie hu
  · rw [update_of_ne hne] at hu ⊢
    exact h.zombie u hu

/-- A task that does nothing and has no end of a pipe may become a zombie, at its end, -/
theorem finish (hidle : s.Idle t) (hpipes : s.NoPipes t) (status : Int) :
    Inv ((s.taskMarkZombieLocked t status).setMode t .gone) := by
  have hset : (s.taskMarkZombieLocked t status).setMode t .gone =
      s.setTask t { s.task t with onRunq := false, exitStatus := status, state := .zombie, mode := .gone } := by
    simp only [setMode, taskMarkZombieLocked, Sys.setTask, update_self, update_idem]
  rw [hset]
  exact h.setTask (fun _ => hidle) nofun nofun fun _ => ⟨.inl rfl, rfl, hpipes⟩

/-- or when somebody kills it. -/
theorem markZombie (ht : s.Harmless t) (status : Int) : Inv (s.taskMarkZombieLocked t status) := by
  rcases ht with hz | ⟨hcpu, hmode, hpipes⟩
  · obtain ⟨hm, -, hpipes⟩ := h.zombie t hz
    refine h.setTask (h.idle t) (fun hu => ?_) (fun k hk => ?_) fun _ => ⟨hm, rfl, hpipes⟩
    · rcases hm with hm | ⟨hm, -⟩ <;> rw [hm] at hu <;> cases hu
    · rcases hm with hm | ⟨hm, -⟩ <;> rw [hm] at hk <;> cases hk
  refine h.setTask (h.idle t) (fun hu => ?_) (fun k hk => ?_) fun _ => ⟨.inr ⟨hmode, hcpu⟩, rfl, hpipes⟩
  · rw [hmode] at hu
    cases hu
  · rw [hmode] at hk
    cases hk

/-! ### Descriptors -/

variable {n : Fin maxFds} {f sig : Nat} {u : T}

theorem openFd (o : Option (Nat × Ends)) (ht : (s.task t).mode = .kernel)
    (hn : s.files.held (t, n) = none) (hf : f ∉ s.files.live) : Inv (s.openFd t n f o) := by
  refine h.setFiles _ (h.files.make hn hf _) (fun u k hu m hm => ?_) fun u hu hpipes m g hg c => ?_
  · have hne : (u, m) ≠ (t, n) := by
      rintro ⟨⟩
      rw [ht] at hu
      cases hu
    exact (update_of_ne hne ..).trans hm
  · have hne : (u, m) ≠ (t, n) := by
      rintro ⟨⟩
      exact h.not_zombie (by rw [ht]; rfl) hu
    have hg' : s.files.held (u, m) = some g := (update_of_ne hne ..).symm.trans hg
    have hgf : g ≠ f := by
      rintro rfl
      exact h.files.not_held hf _ hg'
    simp only [Shared.make, update_of_ne hgf]
    exact hpipes m g hg' c

/-- Another descriptor for a file object, for a task in a call or one that is being made. -/
theorem share {k : T × Fin maxFds} (hk : s.files.held k = some f)
    (hu : (s.task u).mode = .kernel ∨ (s.task u).mode = .unborn) (hn : s.files.held (u, n) = none) :
    Inv { s with files := s.files.share (u, n) f } := by
  have hexit : ∀ j, (s.task u).mode ≠ .exiting j := fun j hj => by rcases hu with hu | hu <;> rw [hu] at hj <;> cases hj
  have hzombie : (s.task u).state ≠ .zombie := by
    rcases hu with hu | hu
    · exact h.not_zombie (by rw [hu]; rfl)
    · rw [(h.unborn u hu).1]
      exact nofun
  refine h.setFiles s.file (h.files.share hk hn) (fun v j hv m hm => ?_) fun v hv hpipes m g hg c => ?_
  · have hne : (v, m) ≠ (u, n) := by
      rintro ⟨⟩
      exact hexit j hv
    exact (update_of_ne hne ..).trans hm
  · have hne : (v, m) ≠ (u, n) := by
      rintro ⟨⟩
      exact hzombie hv
    exact hpipes m g ((update_of_ne hne ..).symm.trans hg) c

theorem releaseFd (t : T) (n : Fin maxFds) : Inv (s.fsReleaseFd t n) := by
  have hdrop : Inv { s with files := s.files.drop (t, n) } := by
    refine h.setFiles s.file (h.files.drop _) (fun u k _ m hm => ?_) fun u _ hpipes m g hg c => ?_
    · rw [Shared.drop_held, hm, ite_self]
    · rw [Shared.drop_held] at hg
      split at hg
      · cases hg
      · rw [Shared.drop_marks]
        exact hpipes m g hg c
  exact hdrop.calm (.releaseFd s t n)

/-! ### Exits and kills -/

/-- One turn of the loop of `sys_exit`. -/
theorem exitNext {fd : Nat} (ht : (s.task t).mode = .exiting fd) (hidle : s.Idle t) (status : Int) :
    Inv (s.exitNext t fd status) := by
  unfold Sys.exitNext
  split
  · rename_i hlt
    have hcalm := Calm.releaseFd s t ⟨fd, hlt⟩
    have hnot := h.not_zombie (by rw [ht]; rfl : (s.task t).mode.inKernel)
    refine (h.releaseFd t ⟨fd, hlt⟩).setTask nofun nofun (fun k hk n hn => ?_) fun hz => ?_
    · obtain rfl : fd + 1 = k := Mode.exiting.inj hk
      rw [hcalm.files]
      simp only [Shared.drop_held]
      split
      · rfl
      rename_i hne
      refine h.closed t fd ht n ?_
      have : n.val ≠ fd := fun he => hne (by rw [Prod.mk.injEq]; exact ⟨rfl, Fin.ext he⟩)
      omega
    · rcases (hcalm.task t).state with ⟨hs, -⟩ | ⟨-, ha⟩
      · exact (hnot (hs.symm.trans hz)).elim
      · exact (ha.1 hz).elim
  · rename_i hge
    have hnone : ∀ n : Fin maxFds, s.files.held (t, n) = none := fun n => h.closed t fd ht n (by omega)
    have hre := Calm.reparent s (· = t)
    have hend : Inv (((s.reparent (· = t)).taskMarkZombieLocked t status).setMode t .gone) :=
      (h.calm hre).finish (hre.idle hidle) (fun n f hf => by
        rw [hre.files, hnone n] at hf
        cases hf) status
    set s₁ := ((s.reparent (· = t)).taskMarkZombieLocked t status).setMode t .gone
    refine (calm ?_ (.wakeUpAll _ _))
    rcases (s₁.task t).ppid with _ | p
    · exact hend
    · exact hend.calm (.tellParent s₁ p)

theorem kill {current : T} {target : Option T}
    (hok : (sig = 2 ∨ sig = 15 ∨ sig = 9) → (s.task (target.getD current)).listed → s.Harmless (target.getD current)) :
    Inv (s.sysKill current target sig) := by
  set v := target.getD current
  simp only [sysKill, taskSignalPid]
  split
  · rename_i hlisted
    have hraise := Calm.raise s v sig
    split
    · rename_i hterm
      have hharm : (s.raise v sig).Harmless v := by
        rcases hok (of_decide_eq_true hterm) hlisted.1 with hz | ⟨hcpu, hmode, hpipes⟩
        · rcases (hraise.task v).state with ⟨hs, -⟩ | ⟨ha, -⟩
          · exact .inl (hs.trans hz)
          · exact (ha.1 hz).elim
        · exact .inr ⟨(hraise.task v).onCpu.trans hcpu, (hraise.task v).mode.trans hmode, hraise.noPipes hpipes⟩
      have hmark := (h.calm hraise).markZombie hharm (128 + sig)
      split
      · split
        · exact hmark.calm (.raise _ _ _)
        · exact hmark
      · exact hmark
    · exact h.calm hraise
  · exact h

theorem killPgrp {fg : Nat} {status : Int} (hok : ∀ t, s.struck fg s.init t → s.Harmless t) :
    Inv (s.taskKillPgrp fg s.init sig status) where
  files := h.files
  idle t ht := by
    have hmode : ((s.taskKillPgrp fg s.init sig status).task t).mode = (s.task t).mode := by
      simp only [taskKillPgrp]
      split <;> rfl
    have hi := h.idle t (hmode ▸ ht)
    exact ⟨hi.queue, hi.lock, hi.ops⟩
  unborn t ht := by
    simp only [taskKillPgrp] at ht ⊢
    split at ht
    · rename_i hs
      have hdead := (h.unborn t ht).1
      simp [struck, hdead] at hs
    rename_i hs
    rw [if_neg hs]
    exact h.unborn t ht
  closed t k ht n hn := by
    simp only [taskKillPgrp] at ht
    split at ht
    · exact h.closed t k ht n hn
    · exact h.closed t k ht n hn
  zombie t ht := by
    simp only [taskKillPgrp] at ht ⊢
    split
    · rename_i hs
      rcases hok t hs with hz | ⟨hcpu, hmode, hpipes⟩
      · exact ⟨(h.zombie t hz).1, rfl, (h.zombie t hz).2.2⟩
      · exact ⟨.inr ⟨hmode, hcpu⟩, rfl, hpipes⟩
    · rename_i hs
      rw [if_neg hs] at ht
      exact h.zombie t ht

theorem intr {fg : Nat} {reaps : Bool} (hok : ∀ t, s.struck fg s.init t → s.Harmless t) :
    Inv (s.consoleDeliverIntr fg sig reaps) := by
  simp only [consoleDeliverIntr]
  split
  · exact (h.killPgrp hok).calm (.reparent _ _)
  · exact h.killPgrp hok

/-! ### What a task does in the kernel -/

section
variable {t : T} (ht : (s.task t).mode.inKernel = true)
include ht

omit [DecidableEq T] in
theorem setQueue {q : Queue} {ts : List T} (hts : ∀ u, u ≠ t → u ∈ ts → u ∈ s.queue q) : Inv (s.setQueue q ts) := by
  refine h.possess ht rfl rfl fun u hne hu => ⟨fun r hr => ?_, hu.lock, hu.ops⟩
  simp only [Sys.setQueue] at hr
  rcases eq_or_ne r q with rfl | hrq
  · rw [update_self] at hr
    exact hu.queue r (hts u hne hr)
  · rw [update_of_ne hrq] at hr
    exact hu.queue r hr

theorem waitQueueAdd (q : Queue) : Inv (s.waitQueueAdd q t) := by
  unfold Sys.waitQueueAdd
  split
  · exact h
  · exact h.setQueue ht fun u hne hu => (mem_cons.mp hu).resolve_left hne

theorem fsWaitqAdd (q : Queue) : Inv (s.fsWaitqAdd q t) := by
  unfold Sys.fsWaitqAdd
  split
  · exact h
  · exact h.setQueue ht fun u hne hu => (mem_cons.mp hu).resolve_left hne

theorem markWaiting {state : TaskState} (hstate : state ≠ .zombie) : Inv (s.markWaiting t state) := by
  refine h.setTask (h.idle t) (fun hu => ?_) (h.closed t) fun hz => (hstate hz).elim
  rw [show (s.task t).mode = .unborn from hu] at ht
  cases ht

omit [DecidableEq T] in
theorem setHolder (l : Nat) {o : Option T} (ho : o = some t ∨ o = none) : Inv { s with holder := update s.holder l o } := by
  refine h.possess ht rfl rfl fun u hne hu => ⟨hu.queue, fun m hm => ?_, hu.ops⟩
  rcases update_cases hm with ⟨-, rfl⟩ | ⟨-, hm⟩
  · exact ho.elim (fun e => hne (some.inj e)) nofun
  · exact hu.lock m hm

theorem setOps (n k : Nat) : Inv { s with outstanding := n, ops := update s.ops t k } :=
  h.possess ht rfl rfl fun _ hne hu => ⟨hu.queue, hu.lock, (update_of_ne hne ..).trans hu.ops⟩

end

/-- A task goes to another mode. -/
theorem setMode {m : Mode} (hnot : (s.task t).state ≠ .zombie) (hidle : m.inKernel = false → s.Idle t)
    (hm : m ≠ .unborn) (hfd : ∀ k, m = .exiting k → k = 0) : Inv (s.setMode t m) :=
  h.setTask hidle (fun hu => (hm hu).elim) (fun k hk n hn => by rw [hfd k hk] at hn; exact (Nat.not_lt_zero _ hn).elim)
    fun hz => (hnot hz).elim

/-! ### Scheduling -/

theorem start (ht : (s.task t).onRunq) :
    Inv (s.setTask t { s.task t with onRunq := false, state := .running, onCpu := true }) := by
  refine h.setTask (h.idle t) (fun hu => ?_) (h.closed t) nofun
  rw [(h.unborn t hu).2.2] at ht
  cases ht

theorem stop (ht : (s.task t).onCpu) :
    Inv (s.setTask t (if (s.task t).state = .running then { s.task t with onCpu := false, state := .ready, onRunq := true }
      else { s.task t with onCpu := false })) := by
  have hborn : (s.task t).mode ≠ .unborn := fun hu => by
    rw [(h.unborn t hu).2.1] at ht
    cases ht
  split
  · exact h.setTask (h.idle t) (fun hu => (hborn hu).elim) (h.closed t) nofun
  refine h.setTask (h.idle t) (fun hu => (hborn hu).elim) (h.closed t) fun hz => ?_
  obtain ⟨hmode, hrunq, hpipes⟩ := h.zombie t hz
  exact ⟨hmode.imp_right fun hm => ⟨hm.1, rfl⟩, hrunq, hpipes⟩

theorem reap (ht : (s.task t).state = .zombie) : Inv (s.taskReapLocked t) := by
  refine h.setTask (h.idle t) (fun hu => ?_) (h.closed t) nofun
  rw [(h.unborn t hu).1] at ht
  cases ht

/-! ### Every event -/

theorem step {e : Ev T} (hok : Careful s e) (hs : s.step e = some s') : Inv s' := by
  cases e with
  | lock t l =>
    obtain ⟨ha, rfl⟩ := guarded hs
    exact h.setHolder (inKernel_of_acts ha.1) l (.inl rfl)
  | unlock t l =>
    obtain ⟨ha, rfl⟩ := guarded hs
    exact (h.setHolder (inKernel_of_acts ha) l (.inr rfl)).calm (.wakeUpOne _ _)
  | beginOp t =>
    obtain ⟨ha, rfl⟩ := guarded hs
    exact h.setOps (inKernel_of_acts ha) _ _
  | endOp t =>
    obtain ⟨ha, rfl⟩ := guarded hs
    exact (h.setOps (inKernel_of_acts ha) _ _).calm (.wakeUpAll _ _)
  | wait t q =>
    obtain ⟨ha, rfl⟩ := guarded hs
    have hk := inKernel_of_acts ha
    refine (h.waitQueueAdd hk q).markWaiting ?_ nofun
    unfold Sys.waitQueueAdd
    split <;> exact hk
  | waitPipe t p w =>
    obtain ⟨ha, rfl⟩ := guarded hs
    have hk := inKernel_of_acts ha
    have hwaits : TaskState.sleeping ≠ .zombie := nofun
    refine (h.markWaiting hk hwaits).fsWaitqAdd ?_ _
    simp only [Sys.markWaiting, Sys.setTask, update_self]
    exact hk
  | unwait t q =>
    obtain ⟨-, rfl⟩ := guarded hs
    exact h.calm (.setQueue erase_subset)
  | wakeOne t q =>
    obtain ⟨-, rfl⟩ := guarded hs
    exact h.calm (.wakeUpOne s q)
  | wakeAll t q =>
    obtain ⟨-, rfl⟩ := guarded hs
    exact h.calm (.wakeUpAll s q)
  | openFd t n f o =>
    obtain ⟨⟨ha, hn, hf⟩, rfl⟩ := guarded hs
    exact h.openFd o (kernel_of_calls ha) hn hf
  | dup t n m =>
    obtain ⟨⟨ha, hm⟩, hs⟩ := ite_none_right_eq_some.mp hs
    obtain ⟨f, hf, rfl⟩ := map_eq_some_iff.mp hs
    exact h.share hf (.inl (kernel_of_calls ha)) hm
  | close t n =>
    obtain ⟨-, rfl⟩ := guarded hs
    exact h.releaseFd t n
  | fork t u =>
    obtain ⟨-, rfl⟩ := guarded hs
    exact h.calm (.setTask ⟨rfl, rfl, .inl ⟨rfl, rfl⟩⟩)
  | inherit t u n =>
    obtain ⟨⟨-, hu, hn⟩, hs⟩ := ite_none_right_eq_some.mp hs
    obtain ⟨f, hf, rfl⟩ := map_eq_some_iff.mp hs
    exact h.share hf (.inr hu) hn
  | disown t u n =>
    obtain ⟨-, rfl⟩ := guarded hs
    exact h.releaseFd u n
  | publish t u =>
    obtain ⟨⟨-, hu⟩, rfl⟩ := guarded hs
    exact h.setTask (fun _ => h.idle u (by rw [hu]; rfl)) nofun nofun nofun
  | kill t target sig =>
    obtain ⟨-, rfl⟩ := guarded hs
    exact h.kill hok
  | enter t =>
    obtain ⟨ha, rfl⟩ := guarded hs
    exact h.setMode (h.not_zombie_of_runs ha) nofun nofun nofun
  | sysret t =>
    obtain ⟨ha, rfl⟩ := guarded hs
    exact h.setMode (h.not_zombie (by rw [kernel_of_calls ha]; rfl)) (fun _ => hok) nofun nofun
  | exit t =>
    obtain ⟨ha, rfl⟩ := guarded hs
    exact h.setMode (h.not_zombie_of_runs ha.1) nofun nofun fun _ hk => (Mode.exiting.inj hk).symm
  | exitNext t status =>
    simp only [Sys.step] at hs
    split at hs
    · rename_i fd hmode
      obtain ⟨-, rfl⟩ := guarded hs
      exact h.exitNext hmode hok status
    · cases hs
  | fault t x86 =>
    obtain ⟨ha, hs⟩ := ite_none_right_eq_some.mp hs
    split at hs
    · rename_i hx
      obtain rfl := some.inj hs
      exact h.finish (h.idle t (by rw [(of_decide_eq_true (Bool.and_eq_true_iff.mp ha).2)]; rfl)) (hok hx) 139
    · obtain ⟨-, rfl⟩ := guarded hs
      exact h.setMode (h.not_zombie_of_runs ha) nofun nofun fun _ hk => (Mode.exiting.inj hk).symm
  | intr fg sig reaps =>
    obtain rfl := some.inj hs
    exact h.intr hok
  | start t =>
    obtain ⟨ht, rfl⟩ := guarded hs
    exact h.start ht
  | stop t =>
    obtain ⟨ht, rfl⟩ := guarded hs
    exact h.stop ht
  | tick t =>
    obtain rfl := some.inj hs
    exact h.calm (.wake s t)
  | reap t =>
    obtain ⟨ht, rfl⟩ := guarded hs
    exact h.reap ht.1

omit h in
theorem boot (t : T) : Inv (.boot t) where
  files := .empty
  idle _ _ := ⟨fun _ => not_mem_nil, fun _ => nofun, rfl⟩
  unborn u hu := by
    simp only [Sys.boot] at hu ⊢
    rcases eq_or_ne u t with rfl | hne
    · rw [update_self] at hu
      cases hu
    · rw [update_of_ne hne]
      exact ⟨rfl, rfl, rfl⟩
  closed _ _ _ _ _ := rfl
  zombie u hu := by
    simp only [Sys.boot, update_apply] at hu
    split at hu <;> cases hu

end Inv

theorem Reaches.inv [DecidableEq T] (h : Reaches Careful s) : Inv s := by
  induction h with
  | boot t => exact .boot t
  | step _ hok hs ih => exact ih.step hok hs

/-- CORRECT as far as it goes: in every run whose kills hit only tasks that were interrupted in their own program and have
    no end of a pipe open, and whose system calls return with nothing held, a zombie leaves nothing behind. -/
theorem zombie_leaves_nothing [DecidableEq T] {s : Sys T} (h : Reaches Careful s) (t : T) (ht : (s.task t).state = .zombie) :
    s.LeavesNothing t := h.inv.leavesNothing ht

/-! ### Small runs -/

local instance neZero2 : NeZero 2 := ⟨by decide⟩

/-- A child is killed while its program is interrupted. -/
def killedOutside : List (Ev (Fin 2)) := [.enter 0, .fork 0 1, .publish 0 1, .start 1, .stop 1, .kill 0 (some 1) 9]

theorem zombie_leaves_nothing_outside :
    ∃ s, (Sys.boot (0 : Fin 2)).run killedOutside = some s ∧ (s.task 1).state = .zombie ∧ s.LeavesNothing 1 := by
  have hboot : Reaches Careful (boot (0 : Fin 2)) := .boot 0
  have hfork := (hboot.step (e := .enter 0) trivial rfl).step (e := .fork 0 1) trivial rfl
  have hstop := ((hfork.step (e := .publish 0 1) trivial rfl).step (e := .start 1) trivial rfl).step (e := .stop 1) trivial rfl
  have hkill := hstop.step (e := .kill 0 (some 1) 9) (fun _ _ => .inr ⟨rfl, rfl, nofun⟩) rfl
  exact ⟨_, rfl, rfl, zombie_leaves_nothing hkill 1 rfl⟩

omit [Fintype T] in
theorem Reaches.run [DecidableEq T] {s' : Sys T} {es : List (Ev T)} (h : Reaches (fun _ _ => True) s) (hs : s.run es = some s') :
    Reaches (fun _ _ => True) s' := by
  induction es generalizing s with
  | nil => exact some.inj hs ▸ h
  | cons e es ih =>
    obtain ⟨s₁, hstep, hrest⟩ := bind_eq_some_iff.mp hs
    exact ih (h.step trivial hstep) hrest

def fd0 : Fin maxFds := ⟨0, by decide⟩

def fd1 : Fin maxFds := ⟨1, by decide⟩

/-- The first task makes a pipe, leaves the writing end to a child, and kills the child while it waits for the disk with a
    log operation begun and an inode locked. -/
def killedInside : List (Ev (Fin 2)) :=
  [.enter 0, .openFd 0 fd0 0 (some (0, ⟨true, false⟩)), .openFd 0 fd1 1 (some (0, ⟨false, true⟩)), .fork 0 1, .inherit 0 1 fd1,
    .publish 0 1, .close 0 fd1, .sysret 0, .start 1, .enter 1, .beginOp 1, .lock 1 5, .wait 1 (.other 0), .stop 1, .enter 0,
    .kill 0 (some 1) 9]

/-- INCORRECT in general: the zombie is still in the wait queue, counted as a writer of the pipe nobody else has open,
    holds the lock, and its log operation is outstanding. -/
theorem zombie_keeps_what_it_had :
    ∃ s, (Sys.boot (0 : Fin 2)).run killedInside = some s ∧ Reaches (fun _ _ => True) s ∧ (s.task 1).state = .zombie ∧
      1 ∈ s.queue (.other 0) ∧ s.files.count (true, 0) = 1 ∧ s.openElsewhere 1 (true, 0) = 0 ∧ s.holder 5 = some 1 ∧ s.ops 1 = 1 ∧
      ¬ s.LeavesNothing 1 := by
  have hrun : ((boot 0).run killedInside).isSome := by decide +kernel
  obtain ⟨s, hs⟩ := isSome_iff_exists.mp hrun
  have hfacts : ∀ s ∈ (boot 0).run killedInside, (s.task 1).state = .zombie ∧ 1 ∈ s.queue (.other 0) ∧
      s.files.count (true, 0) = 1 ∧ s.openElsewhere 1 (true, 0) = 0 ∧ s.holder 5 = some 1 ∧ s.ops 1 = 1 := by
    decide +kernel
  obtain ⟨hzombie, hqueue, hcount, helse, hlock, hops⟩ := hfacts s hs
  exact ⟨s, hs, (Reaches.boot 0).run hs, hzombie, hqueue, hcount, helse, hlock, hops, fun h => h.queue _ hqueue⟩

end Orthox.Tasks
