import Orthox.Pipes.Pipe
import Orthox.Schemes.Shared

/-! Tasks that exit and tasks that are killed. `sys_exit` closes the descriptors of its own task and then makes it a
    zombie. `task_signal_pid`, behind `kill`, and `task_kill_pgrp`, behind the interrupt key, make another task a zombie
    wherever it is: running on another processor, or asleep in a wait queue with sleep locks held and a log operation
    begun. A task that is killed while it runs goes on until it next gives up the processor.

    One event is one section under a lock. What a task in the kernel does there is left open: it may take and give back
    any lock, begin and end log operations, wait in any queue, open and close descriptors, in any order. -/

namespace Orthox.Tasks
open Schemes Function
open Pipes (Ends fsWaitqMax)

/-- `MAX_FDS` -/
def maxFds : Nat := 256

/-- `task_state_t` -/
inductive TaskState where
  | running
  | ready
  | sleeping
  | ioWait
  | zombie
  | dead
deriving DecidableEq

/-- Where a task executes, which no code keeps. -/
inductive Mode where
  | unborn
  | user
  | kernel
  /-- in the loop of `sys_exit`, before it closes this descriptor -/
  | exiting (fd : Nat)
  /-- behind `task_mark_zombie`, where it only yields -/
  | gone
deriving DecidableEq

/-- It executes kernel code that may hold something. -/
def Mode.inKernel : Mode → Bool
  | .kernel | .exiting _ => true
  | _ => false

variable {T : Type}

/-- `struct task`; `listed` says that it is in `task_list`, `ignores` where `sig_handlers` is `SIG_IGN`. -/
structure Task (T : Type) where
  listed : Bool
  state : TaskState
  onRunq : Bool
  onCpu : Bool
  ppid : Option T
  pgid : Nat
  ignores : Nat → Bool
  sigPending : BitVec 64
  exitStatus : Int
  mode : Mode

/-- The wait queues: of a sleep lock, of the log, of parents, of the ends of a pipe, and others. -/
inductive Queue where
  | lock (l : Nat)
  | log
  | childExit
  | pipe (p : Nat) (write : Bool)
  | other (k : Nat)
deriving DecidableEq

/-- The tasks and what they may have. `files` are the file objects behind the descriptors, `file` which are ends of a pipe
    (by `private_data` and `aux0`); the totals are `readers` (`false`) and `writers` (`true`) of each pipe. `holder` is
    `holder_pid` of a sleep lock that is locked; `ops` says how many of the `outstanding` log operations are whose. -/
structure Sys (T : Type) where
  task : T → Task T
  queue : Queue → List T
  files : Shared (T × Fin maxFds) (Bool × Nat)
  file : Nat → Option (Nat × Ends)
  holder : Nat → Option T
  outstanding : Nat
  ops : T → Nat
  init : T

namespace Sys
variable [DecidableEq T]

def setTask (s : Sys T) (t : T) (x : Task T) : Sys T := { s with task := update s.task t x }

def setQueue (s : Sys T) (q : Queue) (ts : List T) : Sys T := { s with queue := update s.queue q ts }

/-! ### `kernel/task.c` -/

/-- `task_mark_zombie_locked` -/
def taskMarkZombieLocked (s : Sys T) (t : T) (exitStatus : Int) : Sys T :=
  s.setTask t { s.task t with onRunq := false, exitStatus := exitStatus, state := .zombie }

/-- `task_wake_locked` -/
def taskWakeLocked (s : Sys T) (t : T) : Sys T :=
  if (s.task t).state = .zombie ∨ (s.task t).state = .dead then s
  else s.setTask t { s.task t with state := .ready, onRunq := true }

/-- `task_mark_sleeping_locked` and `task_mark_io_wait_locked`, which do not look at the state. -/
def markWaiting (s : Sys T) (t : T) (state : TaskState) : Sys T := s.setTask t { s.task t with onRunq := false, state := state }

/-- `sig_pending |= 1ULL << sig` -/
def pend (s : Sys T) (t : T) (sig : Nat) : Sys T :=
  s.setTask t { s.task t with sigPending := (s.task t).sigPending ||| (1#64 <<< sig) }

/-- A signal that is not ignored becomes pending, and wakes a task that sleeps. -/
def raise (s : Sys T) (t : T) (sig : Nat) : Sys T :=
  if sig < 32 ∧ (s.task t).ignores sig then s
  else if (s.task t).state = .sleeping then (s.pend t sig).taskWakeLocked t
  else s.pend t sig

/-- `task_signal_pid` -/
def taskSignalPid (s : Sys T) (pid : T) (sig : Nat) (terminate : Bool) (exitStatus : Int) (parentSig : Nat) : Sys T :=
  if (s.task pid).listed ∧ 0 < sig ∧ sig < 64 then
    let s := s.raise pid sig
    if terminate then
      let s := s.taskMarkZombieLocked pid exitStatus
      match (s.task pid).ppid with
      | some p => if (s.task p).listed ∧ 0 < parentSig ∧ parentSig < 64 then s.raise p parentSig else s
      | none => s
    else s
  else s

/-- The members of the group that `task_kill_pgrp` ends. -/
def struck (s : Sys T) (pgid : Nat) (exclude t : T) : Bool :=
  (s.task t).listed && (s.task t).pgid = pgid && t ≠ exclude && (s.task t).state ≠ .zombie && (s.task t).state ≠ .dead

/-- `task_kill_pgrp` -/
def taskKillPgrp (s : Sys T) (pgid : Nat) (exclude : T) (sig : Nat) (exitStatus : Int) : Sys T :=
  { s with task := fun t =>
      if s.struck pgid exclude t then
        { s.task t with
          sigPending := (s.task t).sigPending ||| (1#64 <<< sig)
          onRunq := false, exitStatus := exitStatus, state := .zombie }
      else s.task t }

/-- The first loop of `task_reap_orphans_of`: children that live go to `init`. -/
def reparent (s : Sys T) (dying : T → Bool) : Sys T :=
  { s with task := fun t =>
      if (s.task t).ppid.any dying ∧ (s.task t).state ≠ .zombie then { s.task t with ppid := some s.init } else s.task t }

/-- `task_reap_locked`. Nothing here closes descriptors. -/
def taskReapLocked (s : Sys T) (t : T) : Sys T :=
  s.setTask t { s.task t with listed := false, state := .dead, onRunq := false }

/-! ### `kernel/wait.c` and the queues of pipes -/

/-- `wait_queue_add_current_locked` -/
def waitQueueAdd (s : Sys T) (q : Queue) (t : T) : Sys T := if t ∈ s.queue q then s else s.setQueue q (t :: s.queue q)

/-- `fs_waitq_add`, which has four slots. -/
def fsWaitqAdd (s : Sys T) (q : Queue) (t : T) : Sys T :=
  if t ∈ s.queue q ∨ fsWaitqMax ≤ (s.queue q).length then s else s.setQueue q (t :: s.queue q)

/-- `wait_queue_remove_locked` and `fs_waitq_remove` -/
def waitQueueRemove (s : Sys T) (q : Queue) (t : T) : Sys T := s.setQueue q ((s.queue q).erase t)

/-- `wake_up_one` -/
def wakeUpOne (s : Sys T) (q : Queue) : Sys T :=
  match s.queue q with
  | [] => s
  | t :: ts => (s.setQueue q ts).taskWakeLocked t

/-- `wake_up_all`, and `fs_waitq_take_all` with the wakeups after it. -/
def wakeUpAll (s : Sys T) (q : Queue) : Sys T := (s.queue q).foldl taskWakeLocked (s.setQueue q [])

/-! ### Files -/

/-- The totals that a file object is counted in. -/
def marks (o : Option (Nat × Ends)) (c : Bool × Nat) : Bool :=
  o.any fun x => x.1 = c.2 && (if c.1 then x.2.writes else x.2.reads)

/-- `fs_alloc_file` behind a descriptor. `fs_pipe` is two of these, for the ends of a new pipe. -/
def openFd (s : Sys T) (t : T) (n : Fin maxFds) (f : Nat) (o : Option (Nat × Ends)) : Sys T :=
  { s with files := s.files.make (t, n) f (marks o), file := update s.file f o }

/-- `fs_release_fd`, with `fs_file_put` and `fs_release_pipe_file` -/
def fsReleaseFd (s : Sys T) (t : T) (n : Fin maxFds) : Sys T :=
  let s' := { s with files := s.files.drop (t, n) }
  match (s.files.held (t, n)).filter (fun f => f ∉ s'.files.live) |>.bind s.file with
  | some (p, _) => (s'.wakeUpAll (.pipe p false)).wakeUpAll (.pipe p true)
  | none => s'

/-! ### Calls -/

/-- `LINUX_SIGCHLD` -/
def linuxSigchld : Nat := 17

/-- `sys_kill`; `none` is `pid == 0`. -/
def sysKill (s : Sys T) (current : T) (target : Option T) (sig : Nat) : Sys T :=
  s.taskSignalPid (target.getD current) sig (sig = 2 ∨ sig = 15 ∨ sig = 9) (128 + sig) linuxSigchld

/-- `send_sigint_to_foreground_pgrp` of x86 and, with `reaps`, `linux_console_deliver_intr` of the others. -/
def consoleDeliverIntr (s : Sys T) (fg sig : Nat) (reaps : Bool) : Sys T :=
  let s' := s.taskKillPgrp fg s.init sig (128 + sig)
  if reaps then s'.reparent (s.struck fg s.init) else s'

/-- The parent learns of an exit; unlike a signal that is ignored, this wakes it. -/
def tellParent (s : Sys T) (p : T) : Sys T :=
  let s' := if (s.task p).ignores linuxSigchld then s else s.pend p linuxSigchld
  if (s.task p).state = .sleeping ∨ (s.task p).state = .ioWait then s'.taskWakeLocked p else s'

def setMode (s : Sys T) (t : T) (m : Mode) : Sys T := s.setTask t { s.task t with mode := m }

/-- The end of `sys_exit`: the children are given away, the task becomes a zombie, and its parent is told. -/
def exitEnd (s : Sys T) (t : T) (status : Int) : Sys T :=
  let s' := ((s.reparent (· = t)).taskMarkZombieLocked t status).setMode t .gone
  ((s'.task t).ppid.elim s' s'.tellParent).wakeUpAll .childExit

/-- One turn of the loop of `sys_exit`, or what comes behind it. -/
def exitNext (s : Sys T) (t : T) (fd : Nat) (status : Int) : Sys T :=
  if h : fd < maxFds then (s.fsReleaseFd t ⟨fd, h⟩).setMode t (.exiting (fd + 1))
  else s.exitEnd t status

end Sys

/-! ### Events -/

/-- What can happen. -/
inductive Ev (T : Type) where
  /-- What a task does in the kernel: `xv6_sleep_lock` and `xv6_sleep_unlock`, -/
  | lock (t : T) (l : Nat)
  | unlock (t : T) (l : Nat)
  /-- `xv6log_begin_op` and `xv6log_end_op`, -/
  | beginOp (t : T)
  | endOp (t : T)
  /-- the sections of `wait_event` and of a pipe's loop that put it to sleep, and the one that takes it out again, -/
  | wait (t : T) (q : Queue)
  | waitPipe (t : T) (p : Nat) (write : Bool)
  | unwait (t : T) (q : Queue)
  | wakeOne (t : T) (q : Queue)
  | wakeAll (t : T) (q : Queue)
  /-- descriptors, -/
  | openFd (t : T) (n : Fin maxFds) (f : Nat) (o : Option (Nat × Ends))
  | dup (t : T) (n m : Fin maxFds)
  | close (t : T) (n : Fin maxFds)
  /-- `task_fork`: the child, its descriptors one by one, and its entry into `task_list`, -/
  | fork (t u : T)
  | inherit (t u : T) (n : Fin maxFds)
  | disown (t u : T) (n : Fin maxFds)
  | publish (t u : T)
  /-- and `sys_kill`. -/
  | kill (t : T) (target : Option T) (sig : Nat)
  /-- A system call begins and returns. -/
  | enter (t : T)
  | sysret (t : T)
  /-- `sys_exit` -/
  | exit (t : T)
  | exitNext (t : T) (status : Int)
  /-- A fault of a program that nothing can mend: x86 makes it a zombie on the spot, aarch64 goes to `sys_exit`. riscv64
      stops the processor. -/
  | fault (t : T) (x86 : Bool)
  /-- The interrupt key. -/
  | intr (fg sig : Nat) (reaps : Bool)
  /-- `schedule`, the timer, and `task_reap` by somebody. -/
  | start (t : T)
  | stop (t : T)
  | tick (t : T)
  | reap (t : T)

namespace Sys
variable [DecidableEq T]

/-- The task executes kernel code. A zombie on a processor does so, too. -/
def acts (s : Sys T) (t : T) : Bool := (s.task t).onCpu && (s.task t).mode.inKernel

/-- It executes a system call other than `sys_exit`. -/
def calls (s : Sys T) (t : T) : Bool := (s.task t).onCpu && (s.task t).mode = .kernel

/-- It executes its program. -/
def runs (s : Sys T) (t : T) : Bool := (s.task t).onCpu && (s.task t).mode = .user

/-- The effect of an event; `none` when it cannot happen. -/
def step (s : Sys T) : Ev T → Option (Sys T)
  | .lock t l => if s.acts t ∧ s.holder l = none then some { s with holder := update s.holder l (some t) } else none
  | .unlock t l =>
    if s.acts t then some ({ s with holder := update s.holder l none }.wakeUpOne (.lock l)) else none
  | .beginOp t =>
    if s.acts t then some { s with outstanding := s.outstanding + 1, ops := update s.ops t (s.ops t + 1) } else none
  | .endOp t =>
    if s.acts t then
      some ({ s with outstanding := s.outstanding - 1, ops := update s.ops t (s.ops t - 1) }.wakeUpAll .log)
    else none
  | .wait t q => if s.acts t then some ((s.waitQueueAdd q t).markWaiting t .ioWait) else none
  | .waitPipe t p w => if s.acts t then some ((s.markWaiting t .sleeping).fsWaitqAdd (.pipe p w) t) else none
  | .unwait t q => if s.acts t then some (s.waitQueueRemove q t) else none
  | .wakeOne t q => if s.acts t then some (s.wakeUpOne q) else none
  | .wakeAll t q => if s.acts t then some (s.wakeUpAll q) else none
  | .openFd t n f o => if s.calls t ∧ s.files.held (t, n) = none ∧ f ∉ s.files.live then some (s.openFd t n f o) else none
  | .dup t n m =>
    if s.calls t ∧ s.files.held (t, m) = none then
      (s.files.held (t, n)).map fun f => { s with files := s.files.share (t, m) f }
    else none
  | .close t n => if s.calls t then some (s.fsReleaseFd t n) else none
  | .fork t u =>
    if s.calls t ∧ (s.task u).mode = .unborn then
      some (s.setTask u { s.task u with
        ppid := some t, pgid := (s.task t).pgid, ignores := (s.task t).ignores, sigPending := 0 })
    else none
  | .inherit t u n =>
    if s.calls t ∧ (s.task u).mode = .unborn ∧ s.files.held (u, n) = none then
      (s.files.held (t, n)).map fun f => { s with files := s.files.share (u, n) f }
    else none
  | .disown t u n => if s.calls t ∧ (s.task u).mode = .unborn then some (s.fsReleaseFd u n) else none
  | .publish t u =>
    if s.calls t ∧ (s.task u).mode = .unborn then
      some (s.setTask u { s.task u with listed := true, state := .ready, onRunq := true, mode := .user })
    else none
  | .kill t target sig => if s.calls t then some (s.sysKill t target sig) else none
  | .enter t => if s.runs t then some (s.setMode t .kernel) else none
  | .sysret t => if s.calls t then some (s.setMode t .user) else none
  | .exit t => if s.runs t ∧ (s.task t).ppid.isSome then some (s.setMode t (.exiting 0)) else none
  | .exitNext t status =>
    match (s.task t).mode with
    | .exiting fd => if (s.task t).onCpu then some (s.exitNext t fd status) else none
    | _ => none
  | .fault t x86 =>
    if s.runs t then
      if x86 then some ((s.taskMarkZombieLocked t 139).setMode t .gone)
      else if (s.task t).ppid.isSome then some (s.setMode t (.exiting 0)) else none
    else none
  | .intr fg sig reaps => some (s.consoleDeliverIntr fg sig reaps)
  | .start t =>
    if (s.task t).onRunq then some (s.setTask t { s.task t with onRunq := false, state := .running, onCpu := true }) else none
  | .stop t =>
    if (s.task t).onCpu then
      let x := { s.task t with onCpu := false }
      some (s.setTask t (if x.state = .running then { x with state := .ready, onRunq := true } else x))
    else none
  | .tick t => some (s.taskWakeLocked t)
  | .reap t => if (s.task t).state = .zombie ∧ ¬ (s.task t).onCpu then some (s.taskReapLocked t) else none

/-- The run of a list of events. -/
def run (s : Sys T) : List (Ev T) → Option (Sys T)
  | [] => some s
  | e :: es => (s.step e).bind fun s' => s'.run es

/-- A task that is not there yet. -/
def unborn : Task T := ⟨false, .dead, false, false, none, 0, fun _ => false, 0, 0, .unborn⟩

/-- The first task runs, without descriptors. -/
def boot (t : T) : Sys T where
  task := update (fun _ => unborn) t ⟨true, .running, false, true, none, 1, fun _ => false, 0, 0, .user⟩
  queue := fun _ => []
  files := .empty
  file := fun _ => none
  holder := fun _ => none
  outstanding := 0
  ops := fun _ => 0
  init := t

end Sys

/-- The states reached by events that all meet `ok`. -/
inductive Reaches [DecidableEq T] (ok : Sys T → Ev T → Prop) : Sys T → Prop where
  | boot (t : T) : Reaches ok (.boot t)
  | step {s s' : Sys T} {e : Ev T} (h : Reaches ok s) (hok : ok s e) (hs : s.step e = some s') : Reaches ok s'

end Orthox.Tasks
