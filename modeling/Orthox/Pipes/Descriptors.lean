import Orthox.Pipes.Wakeups

/-! Descriptors over a pipe. Each task numbers its descriptors; one holds the file object and a copy of the status flags,
    which `pipe2`, the opening of a FIFO and `F_SETFL` set and `dup` and `fork` copy. -/

namespace Orthox.Pipes
open Option Function

/-! ### Flags -/

/-- `ORTH_O_ACCMODE` -/
def oAccmode : BitVec 32 := 3
def oRdonly : BitVec 32 := 0
def oWronly : BitVec 32 := 1
def oRdwr : BitVec 32 := 2
/-- `ORTH_LINUX_O_NONBLOCK` -/
def oNonblock : BitVec 32 := 0x800
/-- `ORTH_LINUX_O_CLOEXEC` -/
def oCloexec : BitVec 32 := 0x80000

/-- The flags ask for `O_NONBLOCK`. -/
def nonblock (flags : BitVec 32) : Bool := flags &&& oNonblock ≠ 0

/-- `want_r` and `want_w` of `fs_open_install_fifo`. -/
def wantEnds (flags : BitVec 32) : Ends where
  reads := flags &&& oAccmode = oRdonly ∨ flags &&& oAccmode = oRdwr
  writes := flags &&& oAccmode = oWronly ∨ flags &&& oAccmode = oRdwr

/-- A descriptor; `asked` tells whether `O_NONBLOCK` was last requested for it, which no code reads. -/
structure Fd (F : Type) where
  file : F
  flags : BitVec 32
  asked : Bool

/-- `F_SETFL` -/
def Fd.setfl {F : Type} (fd : Fd F) (arg : BitVec 32) : Fd F :=
  { fd with flags := (fd.flags &&& oAccmode) ||| (arg &&& ~~~oAccmode), asked := nonblock arg }

/-! ### The descriptors of all tasks -/

/-- The pipe with the descriptors. `opening` are the flags of an open in progress, `call` whether the read or write in
    progress came through a descriptor on which `O_NONBLOCK` was requested. -/
structure Desk (T F : Type) where
  sys : Sys T F
  fds : T → Nat → Option (Fd F)
  opening : T → BitVec 32
  call : T → Bool

/-- What can happen next. -/
inductive Act (T F : Type) where
  | write (t : T) (n : Nat) (src : List UInt8)
  | read (t : T) (n : Nat) (count : Nat)
  | openFifo (t : T) (flags : BitVec 32)
  | install (t : T) (f : F) (n : Nat)
  /-- `dup` (`u = t`) or `fork`, one descriptor at a time. -/
  | share (t : T) (n : Nat) (u : T) (m : Nat)
  | setfl (t : T) (n : Nat) (arg : BitVec 32)
  | close (t : T) (n : Nat)
  /-- An event of the pipe that names no descriptor. -/
  | turn (e : Ev T F)

/-- The event names no descriptor and makes none. -/
def Ev.inner {T F : Type} : Ev T F → Bool
  | .go _ | .wake _ | .rouse _ | .meet _ | .refuse _ | .poll .. | .unpoll _ | .reuse _ => true
  | _ => false

variable {T F : Type} [DecidableEq T] [DecidableEq F]

namespace Desk

/-- One entry of the table of a task. -/
def setFd (d : Desk T F) (t : T) (n : Nat) (fd : Option (Fd F)) : Desk T F :=
  { d with fds := update d.fds t (update (d.fds t) n fd) }

/-- `fs_pipe2`: of the flags it accepts, `O_NONBLOCK` goes nowhere. -/
def pipe2 (flags : BitVec 32) (buffer : Fin pipeBufSize → UInt8) (t : T) (r w : F) (a b : Nat) : Desk T F where
  sys := .pipe₀ buffer t r w
  fds := update (fun _ _ => none) t
    (update (update (fun _ => none) a (some ⟨r, oRdonly, nonblock flags⟩)) b
      (some ⟨w, oWronly, nonblock flags⟩))
  opening := fun _ => 0
  call := fun _ => false

/-- The pipe of a FIFO nobody has opened yet. -/
def fifo (buffer : Fin pipeBufSize → UInt8) : Desk T F := ⟨.fifo₀ buffer, fun _ _ => none, fun _ => 0, fun _ => false⟩

/-- The effect of an action; `none` when it cannot happen. -/
def step (d : Desk T F) : Act T F → Option (Desk T F)
  | .write t n src =>
    (d.fds t n).bind fun fd => (d.sys.step (.write t fd.file src)).map fun s =>
      { d with sys := s, call := update d.call t fd.asked }
  | .read t n count =>
    (d.fds t n).bind fun fd => (d.sys.step (.read t fd.file count)).map fun s =>
      { d with sys := s, call := update d.call t fd.asked }
  | .openFifo t flags =>
    (d.sys.step (.openFifo t (wantEnds flags) (nonblock flags))).map fun s =>
      { d with sys := s, opening := update d.opening t flags }
  | .install t f n =>
    if (d.fds t n).isSome then none
    else (d.sys.step (.join t f)).map fun s =>
      { d with sys := s }.setFd t n (some ⟨f, d.opening t, nonblock (d.opening t)⟩)
  | .share t n u m =>
    if (d.fds u m).isSome then none
    else (d.fds t n).bind fun fd => (d.sys.step (.share t u fd.file)).map fun s => { d with sys := s }.setFd u m (some fd)
  | .setfl t n arg => if (d.sys.ops t).isSome then none else (d.fds t n).map fun fd => d.setFd t n (some (fd.setfl arg))
  | .close t n => (d.fds t n).bind fun fd => (d.sys.step (.close t fd.file)).map fun s => { d with sys := s }.setFd t n none
  | .turn e => if e.inner then (d.sys.step e).map fun s => { d with sys := s } else none

/-- The run of a list of actions. -/
def run (d : Desk T F) : List (Act T F) → Option (Desk T F)
  | [] => some d
  | a :: as => (d.step a).bind fun d' => d'.run as

/-- A new pipe or FIFO. -/
inductive Fresh : Desk T F → Prop where
  | pipe2 {flags : BitVec 32} (accepted : flags &&& ~~~(oCloexec ||| oNonblock) = 0) (buffer : Fin pipeBufSize → UInt8)
    (t : T) {r w : F} (ends : r ≠ w) {a b : Nat} (numbers : a ≠ b) : Fresh (.pipe2 flags buffer t r w a b)
  | fifo (buffer : Fin pipeBufSize → UInt8) : Fresh (.fifo buffer)

/-- The states reached from a new pipe by actions that all meet a condition. -/
inductive Reaches (ok : Desk T F → Act T F → Prop) : Desk T F → Prop where
  | fresh {d : Desk T F} (h : Fresh d) : Reaches ok d
  | step {d d' : Desk T F} {a : Act T F} (h : Reaches ok d) (hok : ok d a) (hs : d.step a = some d') : Reaches ok d'

/-! ### What an action does to the pipe -/

variable {d d' : Desk T F}

/-- The event of the pipe that an action is. -/
def event (d : Desk T F) : Act T F → Option (Ev T F)
  | .write t n src => (d.fds t n).map fun fd => .write t fd.file src
  | .read t n count => (d.fds t n).map fun fd => .read t fd.file count
  | .openFifo t flags => some (.openFifo t (wantEnds flags) (nonblock flags))
  | .install t f _ => some (.join t f)
  | .share t n u _ => (d.fds t n).map fun fd => .share t u fd.file
  | .setfl .. => none
  | .close t n => (d.fds t n).map fun fd => .close t fd.file
  | .turn e => some e

omit [DecidableEq F] in
/-- A read or write that begins notes the descriptor it came through; the task was in no call. -/
theorem begins_call {t : T} {b : Bool} (idle : d.sys.ops t = none) (u : T) :
    update d.call t b u = d.call u ∨ d.sys.ops u = none := by
  rcases eq_or_ne u t with rfl | hne
  · exact .inr idle
  · exact .inl (update_of_ne hne ..)

/-- An action is one event of the pipe, or `F_SETFL`, which leaves it alone; what is known of the call of a task
    changes only when the task was in none. -/
theorem step_sys {a : Act T F} (h : d.step a = some d') :
    ((∃ t n arg, a = .setfl t n arg) ∧ d'.sys = d.sys ∨ ∃ e, d.event a = some e ∧ d.sys.step e = some d'.sys) ∧
      ∀ t, d'.call t = d.call t ∨ d.sys.ops t = none := by
  cases a with
  | write t n src =>
    obtain ⟨fd, hfd, h⟩ := bind_eq_some_iff.mp h
    obtain ⟨s, hs, rfl⟩ := map_eq_some_iff.mp h
    refine ⟨.inr ⟨_, map_eq_some_iff.mpr ⟨fd, hfd, rfl⟩, hs⟩, ?_⟩
    cases step_moves hs with
    | write idle => exact begins_call idle
  | read t n count =>
    obtain ⟨fd, hfd, h⟩ := bind_eq_some_iff.mp h
    obtain ⟨s, hs, rfl⟩ := map_eq_some_iff.mp h
    refine ⟨.inr ⟨_, map_eq_some_iff.mpr ⟨fd, hfd, rfl⟩, hs⟩, ?_⟩
    cases step_moves hs with
    | read idle => exact begins_call idle
  | openFifo t flags =>
    obtain ⟨s, hs, rfl⟩ := map_eq_some_iff.mp h
    exact ⟨.inr ⟨_, rfl, hs⟩, fun _ => .inl rfl⟩
  | install t f n =>
    obtain ⟨-, h⟩ := ite_none_left_eq_some.mp h
    obtain ⟨s, hs, rfl⟩ := map_eq_some_iff.mp h
    exact ⟨.inr ⟨_, rfl, hs⟩, fun _ => .inl rfl⟩
  | share t n u m =>
    obtain ⟨-, h⟩ := ite_none_left_eq_some.mp h
    obtain ⟨fd, hfd, h⟩ := bind_eq_some_iff.mp h
    obtain ⟨s, hs, rfl⟩ := map_eq_some_iff.mp h
    exact ⟨.inr ⟨_, map_eq_some_iff.mpr ⟨fd, hfd, rfl⟩, hs⟩, fun _ => .inl rfl⟩
  | setfl t n arg =>
    obtain ⟨-, h⟩ := ite_none_left_eq_some.mp h
    obtain ⟨fd, -, rfl⟩ := map_eq_some_iff.mp h
    exact ⟨.inl ⟨⟨t, n, arg, rfl⟩, rfl⟩, fun _ => .inl rfl⟩
  | close t n =>
    obtain ⟨fd, hfd, h⟩ := bind_eq_some_iff.mp h
    obtain ⟨s, hs, rfl⟩ := map_eq_some_iff.mp h
    exact ⟨.inr ⟨_, map_eq_some_iff.mpr ⟨fd, hfd, rfl⟩, hs⟩, fun _ => .inl rfl⟩
  | turn e =>
    obtain ⟨-, h⟩ := ite_none_right_eq_some.mp h
    obtain ⟨s, hs, rfl⟩ := map_eq_some_iff.mp h
    exact ⟨.inr ⟨_, rfl, hs⟩, fun _ => .inl rfl⟩

end Desk

end Orthox.Pipes
