import Orthox.Pipes.Pipe
import Orthox.Sockets.Calls

/-! `ppoll` of `kernel/linux_syscall.c`. The call looks at its descriptors one by one; when nothing is ready it puts its
    task into the wait queues of the objects, marks it asleep, looks once more and gives the processor away. Consoles
    and pipes have wait queues of four slots, and a pipe's two queues are entered for `POLLIN` and `POLLOUT` only;
    sockets have none. Who changes an object takes the waiters off under the object's lock and wakes them afterwards,
    if they are asleep by then. One event here is one section under the lock of one object. -/

namespace Orthox.Poll
open Schemes Pipes Sockets Function

/-- `MAX_FDS` -/
def maxFds : Nat := 256

/-- The error numbers of the call. -/
def eintr : Int := 4
def einval : Int := 22

/-- `LINUX_PPOLL_SLICE_MS` -/
def ppollSliceMs : Nat := 100

/-! ### Readiness -/

/-- `LINUX_POLLIN` and the others. -/
def pollin : UInt16 := 0x001
def pollout : UInt16 := 0x004
def pollerr : UInt16 := 0x008
def pollhup : UInt16 := 0x010
def pollnval : UInt16 := 0x020

/-- A bit that is set where a condition holds. -/
def flag (b : Bool) (bit : UInt16) : UInt16 := if b then bit else 0

/-- `struct linux_pollfd` without its answer. -/
structure PollFd where
  fd : Int
  events : UInt16
deriving DecidableEq

def PollFd.asks (x : PollFd) (bit : UInt16) : Bool := decide (x.events &&& bit ≠ 0)

/-- What a descriptor stands for; a pipe or socket whose data is missing has no number. -/
inductive Obj (P K : Type) where
  | console
  | pipe (p : Option P)
  | socket (k : Option K)
  | other

/-- The console: characters in its ring of 256 bytes, and the waiters. -/
structure Console (T : Type) where
  input : Nat
  wq : WaitQueue T fsWaitqMax

/-- One place of the console's ring stays free. -/
def consoleRoom : Nat := 255

/-- `net_socket_poll_state` -/
def netSocketPollState (k : Calls.Sock) : UInt16 :=
  flag (!k.rx.queue.isEmpty) 1 ||| flag (k.listening && k.backlog ≠ 0) 1 ||| flag k.rx.eof (1 ||| 4) |||
    flag (k.rx.error ≠ .ok) 8 |||
    (if k.stream then flag k.connected 2 ||| flag (k.rx.error ≠ .ok) 2 else 2)

/-- The readiness of a pipe in `linux_poll_fd_revents`. -/
def pipeReady {T : Type} (p : Pipe T) (x : PollFd) : UInt16 :=
  flag (0 < p.ring.count) pollin ||| flag (p.ring.count < pipeBufSize) pollout ||| flag (p.writers = 0) pollhup |||
    flag (p.readers = 0 && x.asks pollout) pollerr

/-- The readiness of a socket. -/
def socketReady (st : UInt16) : UInt16 :=
  flag (st &&& 1 ≠ 0) pollin ||| flag (st &&& 2 ≠ 0) pollout ||| flag (st &&& 4 ≠ 0) pollhup |||
    flag (st &&& 8 ≠ 0) pollerr

/-- Errors and hang-ups are reported even where they were not asked for. -/
def masked (ready : UInt16) (x : PollFd) : UInt16 := ready &&& (x.events ||| (pollerr ||| pollhup ||| pollnval))

/-! ### The system -/

/-- The two kernels that have this call; only the console differs. -/
inductive Arch where
  | riscv64 | aarch64

/-- The arguments of a call. -/
structure Wait where
  fds : List PollFd
  deadline : Option Nat
deriving DecidableEq

/-- Where a task stands in the call. -/
inductive Phase where
  | out
  | scanning (w : Wait) (revents : List UInt16) (rest : List PollFd)
  | registering (w : Wait) (now : Nat) (all : Bool) (rest : List PollFd)
  | rescanning (w : Wait) (revents : List UInt16) (rest : List PollFd)
  | yielded (w : Wait)
  | clearing (w : Wait) (rest : List PollFd)
  | back (value : Int) (revents : List UInt16)
deriving DecidableEq

/-- How a task sleeps. -/
inductive Sleep where
  | awake
  | forever
  | deadline (ms : Nat)
deriving DecidableEq

/-- The objects, the descriptors of the tasks, and the tasks. `due` are the waiters that somebody has taken off a queue
    and has yet to wake. -/
structure Sys (T P K : Type) where
  arch : Arch
  console : Console T
  pipes : P → Pipe T
  socks : K → Calls.Sys T
  fds : T → Nat → Option (Obj P K)
  phase : T → Phase
  sleep : T → Sleep
  due : List T

/-- What a step of the call is told: the time, and `linux_ppoll_interrupted`. -/
structure Env where
  now : Nat
  interrupted : Bool

variable {T P K : Type}

namespace Sys

/-- The object of a descriptor. -/
def obj (s : Sys T P K) (t : T) (fd : Int) : Option (Obj P K) :=
  if 0 ≤ fd ∧ fd < maxFds then s.fds t fd.toNat else none

/-- `linux_poll_fd_revents` -/
def pollFdRevents (s : Sys T P K) (t : T) (x : PollFd) : UInt16 :=
  match s.obj t x.fd with
  | none => pollnval
  | some .console => masked (flag (0 < s.console.input) pollin ||| pollout) x
  | some (.pipe none) | some (.socket none) => masked pollerr x
  | some (.pipe (some p)) => masked (pipeReady (s.pipes p) x) x
  | some (.socket (some k)) => masked (socketReady (netSocketPollState (s.socks k).sock)) x
  | some .other => masked (pollin ||| pollout) x

/-- One turn of `linux_ppoll_scan`; negative descriptors are left out. -/
def revents (s : Sys T P K) (t : T) (x : PollFd) : UInt16 := if x.fd < 0 then 0 else s.pollFdRevents t x

variable [DecidableEq T] [DecidableEq P] [DecidableEq K]

def goto (s : Sys T P K) (t : T) (p : Phase) : Sys T P K := { s with phase := update s.phase t p }

def setPipe (s : Sys T P K) (p : P) (q : Pipe T) : Sys T P K := { s with pipes := update s.pipes p q }

/-- A registration in a queue, or none where the event was not asked for. -/
def join (asked : Bool) (q : WaitQueue T fsWaitqMax) (t : T) : WaitQueue T fsWaitqMax × Bool :=
  if asked then q.add t else (q, true)

/-- One turn of `linux_ppoll_register_waiters`. The console of aarch64 has one waiter, which it does not wake from
    `ppoll`, and answers that it could not register. -/
def register (s : Sys T P K) (t : T) (x : PollFd) : Sys T P K × Bool :=
  match s.obj t x.fd with
  | some .console =>
    match s.arch with
    | .riscv64 => ({ s with console := { s.console with wq := (s.console.wq.add t).1 } }, (s.console.wq.add t).2)
    | .aarch64 => (s, false)
  | some (.pipe (some p)) =>
    let r := join (x.asks pollin) (s.pipes p).readWq t
    let w := join (x.asks pollout) (s.pipes p).writeWq t
    (s.setPipe p { s.pipes p with readWq := r.1, writeWq := w.1 }, r.2 && w.2)
  | _ => (s, true)

/-- One turn of `linux_ppoll_clear_waiters`. -/
def unregister (s : Sys T P K) (t : T) (x : PollFd) : Sys T P K :=
  match s.obj t x.fd with
  | some .console => { s with console := { s.console with wq := s.console.wq.remove t } }
  | some (.pipe (some p)) =>
    s.setPipe p { s.pipes p with readWq := (s.pipes p).readWq.remove t, writeWq := (s.pipes p).writeWq.remove t }
  | _ => s

/-- The number of descriptors that are ready. -/
def readyCount (revents : List UInt16) : Nat := (revents.filter (· ≠ 0)).length

/-- The next step of `linux_ppoll_wait`; a task in `kernel_yield` goes on when it is awake. -/
def go (s : Sys T P K) (t : T) (env : Env) : Option (Sys T P K) :=
  match s.phase t with
  | .out => none
  | .scanning w revents (x :: rest) => some (s.goto t (.scanning w (revents ++ [s.revents t x]) rest))
  | .scanning w revents [] =>
    some (s.goto t (if 0 < readyCount revents then .back (readyCount revents) revents
      else if env.interrupted then .back (-eintr) revents
      else if w.deadline.any (· ≤ env.now) then .back 0 revents
      else .registering w env.now true w.fds))
  | .registering w now all (x :: rest) =>
    some ((s.register t x).1.goto t (.registering w now (all && (s.register t x).2) rest))
  | .registering w now all [] =>
    let sleep := match w.deadline with
      | some d => .deadline d
      | none => if all then .forever else .deadline (now + ppollSliceMs)
    some ({ s with sleep := update s.sleep t sleep }.goto t (.rescanning w [] w.fds))
  | .rescanning w revents (x :: rest) => some (s.goto t (.rescanning w (revents ++ [s.revents t x]) rest))
  | .rescanning w revents [] =>
    let sleep := if 0 < readyCount revents ∨ env.interrupted then .awake else s.sleep t
    some ({ s with sleep := update s.sleep t sleep }.goto t (.yielded w))
  | .yielded w => if s.sleep t = .awake then some (s.goto t (.clearing w w.fds)) else none
  | .clearing w (x :: rest) => some ((s.unregister t x).goto t (.clearing w rest))
  | .clearing w [] => some (s.goto t (.scanning w [] w.fds))
  | .back .. => some (s.goto t .out)

end Sys

/-! ### Events -/

/-- What can happen. -/
inductive Ev (T P K : Type) where
  | ppoll (t : T) (fds : List PollFd) (timeout : Option (Nat × Nat)) (now : Nat)
  /-- The next step of a `ppoll` in progress. -/
  | go (t : T) (env : Env)
  /-- A task opens or closes a descriptor of its own. -/
  | setFd (t : T) (fd : Nat) (o : Option (Obj P K))
  /-- The sections of `fs_write`, `fs_read`, `fs_release_pipe_file` and `fs_open_install_fifo`, and a reader or writer
      that leaves its queue. -/
  | write (u : T) (p : P) (src : List UInt8)
  | read (u : T) (p : P) (count : Nat)
  | leave (u : T) (p : P)
  | release (p : P) (e : Ends)
  | openEnd (p : P) (e : Ends)
  /-- Characters arrive at the console; a task reads it, or leaves its queue. -/
  | input (n : Nat)
  | readConsole (u : T) (count : Nat)
  | leaveConsole (u : T)
  /-- Anything that happens to a socket. -/
  | net (k : K) (e : Calls.Ev T)
  /-- A waiter that was taken off a queue is woken; something else wakes a task. -/
  | wake (t : T)
  | rouse (t : T)

namespace Sys

variable [DecidableEq T] [DecidableEq P] [DecidableEq K]

/-- The waiters an event takes off the queues. -/
def taken (s : Sys T P K) : Ev T P K → List T
  | .write u p src =>
    match (s.pipes p).write u src with
    | .stored _ _ wake => wake
    | _ => []
  | .read u p count =>
    match (s.pipes p).read u count with
    | .taken _ _ wake => wake
    | _ => []
  | .release p e => ((s.pipes p).release e).2
  | .input n => if min n (consoleRoom - s.console.input) = 0 then [] else s.console.wq.takeAll.1
  | _ => []

/-- `riscv64_console_poll_input` -/
def input (s : Sys T P K) (n : Nat) : Console T :=
  let pushed := min n (consoleRoom - s.console.input)
  if pushed = 0 then s.console else ⟨s.console.input + pushed, s.console.wq.takeAll.2⟩

/-- `riscv64_console_read_or_wait` -/
def readConsole (s : Sys T P K) (u : T) (count : Nat) : Console T :=
  if s.console.input = 0 then { s.console with wq := (s.console.wq.add u).1 }
  else { s.console with input := s.console.input - count }

/-- What an event does to the pipe. -/
def written (p : Pipe T) (u : T) (src : List UInt8) : Pipe T :=
  match p.write u src with
  | .refused => p
  | .blocked q => q
  | .stored q _ _ => q

def readFrom (p : Pipe T) (u : T) (count : Nat) : Pipe T :=
  match p.read u count with
  | .eof => p
  | .blocked q => q
  | .taken q _ _ => q

def left (p : Pipe T) (u : T) : Pipe T := { p with readWq := p.readWq.remove u, writeWq := p.writeWq.remove u }

/-- The effect of an event; `none` when it cannot happen. A task in `ppoll` does nothing else. -/
def step (s : Sys T P K) : Ev T P K → Option (Sys T P K)
  | .ppoll t fds timeout now =>
    if s.phase t = .out then
      some (s.goto t (if maxFds < fds.length then .back (-einval) []
        else .scanning ⟨fds, timeout.map fun x => now + (x.1 * 1000 + (x.2 + 999999) / 1000000)⟩ [] fds))
    else none
  | .go t env => s.go t env
  | .setFd t fd o =>
    if s.phase t = .out then some { s with fds := update s.fds t (update (s.fds t) fd o) } else none
  | .write u p src =>
    if s.phase u = .out then
      some { s.setPipe p (written (s.pipes p) u src) with due := s.due ++ s.taken (.write u p src) }
    else none
  | .read u p count =>
    if s.phase u = .out then
      some { s.setPipe p (readFrom (s.pipes p) u count) with due := s.due ++ s.taken (.read u p count) }
    else none
  | .leave u p => if s.phase u = .out then some (s.setPipe p (left (s.pipes p) u)) else none
  | .release p e => some { s.setPipe p ((s.pipes p).release e).1 with due := s.due ++ s.taken (.release p e) }
  | .openEnd p e => some (s.setPipe p ((s.pipes p).join e))
  | .input n => some { s with console := s.input n, due := s.due ++ s.taken (.input n) }
  | .readConsole u count => if s.phase u = .out then some { s with console := s.readConsole u count } else none
  | .leaveConsole u =>
    if s.phase u = .out then some { s with console := { s.console with wq := s.console.wq.remove u } } else none
  | .net k e => ((s.socks k).step e).map fun x => { s with socks := update s.socks k x }
  | .wake t => if t ∈ s.due then some { s with due := s.due.erase t, sleep := update s.sleep t .awake } else none
  | .rouse t => some { s with sleep := update s.sleep t .awake }

/-- The run of a list of events. -/
def run (s : Sys T P K) : List (Ev T P K) → Option (Sys T P K)
  | [] => some s
  | e :: es => (s.step e).bind fun s' => s'.run es

end Sys

variable [DecidableEq T] [DecidableEq P] [DecidableEq K]

/-- The states reached by events that all meet a condition, from any state in which nobody is in `ppoll`. -/
inductive Reaches (ok : Sys T P K → Ev T P K → Prop) : Sys T P K → Prop where
  | start {s : Sys T P K} (h : ∀ t, s.phase t = .out) : Reaches ok s
  | step {s s' : Sys T P K} {e : Ev T P K} (h : Reaches ok s) (hok : ok s e) (hs : s.step e = some s') : Reaches ok s'

theorem run_reaches {ok : Sys T P K → Ev T P K → Prop} (es : List (Ev T P K)) (hall : ∀ s, ∀ e ∈ es, ok s e) :
    ∀ {s s' : Sys T P K}, Reaches ok s → s.run es = some s' → Reaches ok s' := by
  induction es with
  | nil =>
    rintro s s' h ⟨⟩
    exact h
  | cons e es ih =>
    intro s s' h hrun
    obtain ⟨s₁, hstep, hrest⟩ := Option.bind_eq_some_iff.mp hrun
    exact ih (fun s e' he' => hall s e' (List.mem_cons_of_mem _ he')) (h.step (hall s e List.mem_cons_self) hstep) hrest

end Orthox.Poll
