import Orthox.Sockets.Datagrams
import Orthox.Sockets.Send
import Orthox.Sockets.Stream

/-! The blocking calls of `kernel/net_socket.c` on one socket that any number of tasks share. A call that has to wait
    marks its task asleep, puts it into the slot of the socket that belongs to this kind of waiting, looks at its
    condition once more and gives the processor away; lwIP's callbacks change the socket and wake the task they find
    in a slot. One event here is one access of a task to the socket, one callback, or a wake-up from elsewhere, so a
    callback may come between any two accesses. The kernel switches tasks only where one gives the processor away. -/

namespace Orthox.Sockets.Calls
open Function

/-! ### The socket -/

/-- The waiter slots of a socket. -/
inductive Slot where
  | rx | tx | connect | accept
deriving DecidableEq

/-- The fields of `net_socket_backend_t` the calls and callbacks use, and the send buffer of the protocol block.
    `attached` says that the callbacks of the block are set. -/
structure Sock where
  stream : Bool
  connected : Bool
  connecting : Bool
  listening : Bool
  rx : Stream.Socket
  pcb : Bool
  attached : Bool
  sndbuf : UInt16
  backlog : Nat

/-- `TCP_SND_BUF` -/
def tcpSndBuf : UInt16 := 4 * 1460

/-- A socket from `net_socket_socket`, and one that `tcp_listener_accept` made. -/
def Sock.fresh (stream : Bool) : Sock := ⟨stream, false, false, false, ⟨[], false, .ok⟩, true, false, tcpSndBuf, 0⟩
def Sock.child : Sock := ⟨true, true, false, false, ⟨[], false, .ok⟩, true, true, tcpSndBuf, 0⟩

/-! ### Callbacks -/

/-- What lwIP calls. -/
inductive Callback where
  | connected (e : Err)
  | err (e : Err)
  | received (p : Option Pbuf) (e : Err) (pages : Nat)
  | sent (sndbuf : UInt16)
  | accepted (page : Bool)
  | datagram (d : Datagrams.Datagram) (pages : Nat)

/-- lwIP calls back on a connection only while its block exists. -/
def Sock.hears (k : Sock) : Callback → Bool
  | .connected _ | .received .. | .sent _ => k.stream && k.pcb && k.attached && !k.listening
  | .err e => k.stream && k.pcb && k.attached && !k.listening && decide (e ≠ .ok)
  | .accepted _ => k.listening
  | .datagram .. => !k.stream

/-- `tcp_client_connected`, `tcp_stream_err`, `tcp_stream_recv`, `tcp_stream_sent`, `tcp_listener_accept` and
    `udp_socket_recv`: the socket afterwards and the slots whose waiters are woken. -/
def Sock.callback (k : Sock) : Callback → Sock × List Slot
  | .connected e =>
    if e ≠ .ok then ({ k with connecting := false, rx := { k.rx with error := e } }, [.connect])
    else ({ k with connecting := false, connected := true }, [.connect])
  | .err e => ({ k with pcb := false, rx := { k.rx with eof := true, error := e } }, [.rx, .tx, .connect])
  | .received p e pages => ({ k with rx := (Stream.tcpStreamRecv k.rx p e pages).sock }, if e ≠ .ok then [] else [.rx])
  | .sent sndbuf => ({ k with sndbuf := sndbuf }, [.tx])
  | .accepted page => if page then ({ k with backlog := k.backlog + 1 }, [.accept]) else (k, [])
  | .datagram d pages =>
    let (queue, queued) := Datagrams.udpSocketRecv k.rx.queue d pages
    ({ k with rx := { k.rx with queue := queue } }, if queued then [.rx] else [])

/-! ### Calls -/

/-- A blocking call; `sent` counts the bytes a send has handed over. -/
inductive Call where
  | recv (len : Nat) (nonblock : Bool)
  | send (len sent : Nat) (nonblock : Bool)
  | connect
  | accept (nonblock : Bool)
deriving DecidableEq

/-- The slot a call waits in. -/
def Call.slot : Call → Slot
  | .recv .. => .rx
  | .send .. => .tx
  | .connect => .connect
  | .accept _ => .accept

/-- Where a task stands. -/
inductive Phase where
  | out
  | head (c : Call)
  /-- A send is about to call `tcp_write`, or `tcp_output` after a write. -/
  | writing (len sent : Nat) (chunk : UInt16) (nonblock : Bool)
  | flushing (len sent : Nat) (nonblock : Bool)
  /-- Marked asleep; in the slot; in `kernel_yield`. -/
  | marked (c : Call)
  | registered (c : Call)
  | yielded (c : Call)
  | back (value : Int)
deriving DecidableEq

/-- What the rest of the kernel and lwIP answer to a step of a task: `tcp_write`, `tcp_output`, a free descriptor and a
    page for the file of an accepted connection. -/
structure Env where
  write : Err
  output : Err
  fd : Option Nat
  page : Bool

/-- How an access of a call ends: the task goes somewhere else, marks itself asleep, or has used a protocol block that
    is gone. -/
inductive Outcome where
  | goto (p : Phase)
  | sleep
  | fault

/-- The error numbers of `accept`. -/
def enomem : Int := 12
def emfile : Int := 24

/-- A receive takes bytes of a stream or one datagram. -/
def Sock.take (k : Sock) (len : Nat) : Sock × Int :=
  if k.stream then
    ({ k with rx := { k.rx with queue := (recvLoop len k.rx.queue).2 } }, (recvLoop len k.rx.queue).1.length)
  else match recvDgram len none k.rx.queue with
  | some ((bytes, _), queue) => ({ k with rx := { k.rx with queue := queue } }, bytes.length)
  | none => (k, 0)

/-- The condition a call waits for, as it is read before and after the task is registered. -/
def Sock.ready (k : Sock) : Slot → Bool
  | .rx => !k.rx.queue.isEmpty || k.stream && k.rx.eof
  | .tx => decide (k.sndbuf ≠ 0)
  | .connect => !k.connecting
  | .accept => decide (k.backlog ≠ 0)

/-- The head of the loop of a call. -/
def Sock.head (k : Sock) (env : Env) : Call → Sock × Outcome
  | .recv len nonblock =>
    if !k.rx.queue.isEmpty then ((k.take len).1, .goto (.back (k.take len).2))
    else if k.stream && k.rx.eof then (k, .goto (.back 0))
    else if nonblock then (k, .goto (.back (-eagain)))
    else (k, .sleep)
  | .send len sent nonblock =>
    if len ≤ sent then (k, .goto (.back sent))
    else if k.pcb = false then (k, .fault)
    else if k.sndbuf = 0 then
      if nonblock then (k, .goto (.back (if sent ≠ 0 then sent else -eagain))) else (k, .sleep)
    else (k, .goto (.writing len sent (chunkOf len sent k.sndbuf) nonblock))
  | .connect =>
    if k.connecting then (k, .sleep)
    else (k, .goto (.back (if k.connected then 0 else -socketErrnoFromLwip k.rx.error)))
  | .accept nonblock =>
    if k.backlog = 0 then if nonblock then (k, .goto (.back (-eagain))) else (k, .sleep)
    else match env.fd with
    | none => (k, .goto (.back (-emfile)))
    | some fd => ({ k with backlog := k.backlog - 1 }, .goto (.back (if env.page then fd else -enomem)))

/-- `tcp_write` in a send; lwIP answers `ERR_MEM` to more than the room it has. -/
def Sock.write (k : Sock) (env : Env) (len sent : Nat) (chunk : UInt16) (nonblock : Bool) : Sock × Outcome :=
  if k.pcb = false then (k, .fault)
  else match if k.sndbuf < chunk then .mem else env.write with
  | .mem => if nonblock then (k, .goto (.back (if sent ≠ 0 then sent else -eagain))) else (k, .sleep)
  | .ok => ({ k with sndbuf := k.sndbuf - chunk }, .goto (.flushing len (sent + chunk.toNat) nonblock))
  | e => (k, .goto (.back (socketSendError e sent)))

/-- `tcp_output` after a write. -/
def Sock.flush (k : Sock) (env : Env) (len sent : Nat) (nonblock : Bool) : Outcome :=
  if k.pcb = false then .fault
  else match env.output with
  | .ok => .goto (.head (.send len sent nonblock))
  | e => .goto (.back (socketSendError e sent))

/-- `net_socket_connect` before its loop, with the answer of `tcp_connect` or `udp_connect`. -/
def Sock.connect (k : Sock) (r : Err) : Sock × Phase :=
  if k.stream then
    if k.listening then (k, .back (-eopnotsupp))
    else if k.pcb = false then (k, .back (-enotconn))
    else if k.connected then (k, .back 0)
    else if r ≠ .ok then
      ({ k with rx := { k.rx with eof := false, error := r }, connecting := false, attached := true },
        .back (-socketErrnoFromLwip r))
    else ({ k with rx := { k.rx with eof := false, error := .ok }, connecting := true, attached := true }, .head .connect)
  else if r ≠ .ok then (k, .back (-einval))
  else ({ k with connected := true }, .back 0)

/-! ### The system -/

/-- The socket, its slots, and the tasks. `fault` says that a call used a protocol block that is gone. -/
structure Sys (T : Type) where
  sock : Sock
  waiter : Slot → Option T
  asleep : T → Bool
  phase : T → Phase
  fault : Bool

/-- What can happen. -/
inductive Ev (T : Type) where
  | recv (t : T) (len : Nat) (nonblock : Bool)
  | send (t : T) (len : Nat) (nonblock : Bool)
  | connect (t : T) (r : Err)
  | listen (t : T) (r : Err)
  | accept (t : T) (nonblock : Bool)
  /-- `getsockopt(SO_ERROR)` reads the error and clears it. -/
  | soError (t : T)
  /-- The next access of a call in progress. -/
  | go (t : T) (env : Env)
  /-- Something outside the socket wakes a task. -/
  | rouse (t : T)
  | callback (c : Callback)

variable {T : Type} [DecidableEq T]

namespace Sys

/-- A socket nobody has used. -/
def start (k : Sock) : Sys T := ⟨k, fun _ => none, fun _ => false, fun _ => .out, false⟩

def goto (s : Sys T) (t : T) (p : Phase) : Sys T := { s with phase := update s.phase t p }

/-- `socket_wake_waiter` -/
def wake (s : Sys T) (l : Slot) : Sys T :=
  { s with
    asleep := (s.waiter l).elim s.asleep fun t => update s.asleep t false
    waiter := update s.waiter l none }

/-- `socket_set_waiter` -/
def setWaiter (s : Sys T) (l : Slot) (t : T) : Sys T := { s with waiter := update s.waiter l (some t) }

/-- `socket_clear_waiter` -/
def clearWaiter (s : Sys T) (l : Slot) (t : T) : Sys T :=
  if s.waiter l = some t then { s with waiter := update s.waiter l none } else s

def rouse (s : Sys T) (t : T) : Sys T := { s with asleep := update s.asleep t false }

/-- What an access of a task comes to. -/
def settle (s : Sys T) (t : T) (c : Call) : Sock × Outcome → Sys T
  | (k, .goto p) => { s with sock := k }.goto t p
  | (k, .sleep) => { s with sock := k, asleep := update s.asleep t true }.goto t (.marked c)
  | (k, .fault) => { s with sock := k, fault := true }

/-- The next access of the call a task is in; a task in `kernel_yield` goes on when it is awake. -/
def go (s : Sys T) (t : T) (env : Env) : Option (Sys T) :=
  match s.phase t with
  | .out => none
  | .head c => some (s.settle t c (s.sock.head env c))
  | .writing len sent chunk nonblock =>
    some (s.settle t (.send len sent nonblock) (s.sock.write env len sent chunk nonblock))
  | .flushing len sent nonblock => some (s.settle t (.send len sent nonblock) (s.sock, s.sock.flush env len sent nonblock))
  | .marked c => some ((s.setWaiter c.slot t).goto t (.registered c))
  | .registered c =>
    if c.slot = .tx ∧ s.sock.pcb = false then some { s with fault := true }
    else if s.sock.ready c.slot then some (((s.clearWaiter c.slot t).rouse t).goto t (.head c))
    else some (s.goto t (.yielded c))
  | .yielded c => if s.asleep t then none else some ((s.clearWaiter c.slot t).goto t (.head c))
  | .back _ => some (s.goto t .out)

/-- A callback changes the socket and wakes. -/
def callback (s : Sys T) (c : Callback) : Sys T :=
  (s.sock.callback c).2.foldl wake { s with sock := (s.sock.callback c).1 }

/-- The effect of an event; `none` when it cannot happen. -/
def step (s : Sys T) : Ev T → Option (Sys T)
  | .recv t len nonblock => if s.phase t = .out then some (s.goto t (.head (.recv len nonblock))) else none
  | .send t len nonblock =>
    if s.phase t = .out ∧ s.sock.stream = true then
      some (s.goto t (if s.sock.pcb then .head (.send len 0 nonblock) else .back (-enotconn)))
    else none
  | .connect t r =>
    if s.phase t = .out then some ({ s with sock := (s.sock.connect r).1 }.goto t (s.sock.connect r).2) else none
  | .listen t r =>
    if s.phase t = .out ∧ s.sock.stream = true ∧ s.sock.listening = false ∧ s.sock.pcb = true ∧ r = .ok then
      some { s with sock := { s.sock with listening := true } }
    else none
  | .accept t nonblock =>
    if s.phase t = .out ∧ s.sock.listening = true then some (s.goto t (.head (.accept nonblock))) else none
  | .soError t =>
    if s.phase t = .out then some { s with sock := { s.sock with rx := { s.sock.rx with error := .ok } } } else none
  | .go t env => s.go t env
  | .rouse t => some (s.rouse t)
  | .callback c => if s.sock.hears c then some (s.callback c) else none

/-- The run of a list of events. -/
def run (s : Sys T) : List (Ev T) → Option (Sys T)
  | [] => some s
  | e :: es => (s.step e).bind fun s' => s'.run es

end Sys

/-- A socket as it begins: from `socket` or accepted. -/
inductive Fresh : Sys T → Prop where
  | new (stream : Bool) : Fresh (.start (.fresh stream))
  | child : Fresh (.start .child)

/-- The states reached from a fresh socket by events that all meet a condition. -/
inductive Reaches (ok : Sys T → Ev T → Prop) : Sys T → Prop where
  | fresh {s : Sys T} (h : Fresh s) : Reaches ok s
  | step {s s' : Sys T} {e : Ev T} (h : Reaches ok s) (hok : ok s e) (hs : s.step e = some s') : Reaches ok s'

/-- The condition along a run. -/
def Meets (ok : Sys T → Ev T → Prop) (s : Sys T) : List (Ev T) → Prop
  | [] => True
  | e :: es => ok s e ∧ ∀ s' ∈ s.step e, Meets ok s' es

theorem run_reaches {ok : Sys T → Ev T → Prop} (es : List (Ev T)) :
    ∀ {s s' : Sys T}, Reaches ok s → Meets ok s es → s.run es = some s' → Reaches ok s' := by
  induction es with
  | nil =>
    rintro s s' h - ⟨⟩
    exact h
  | cons e es ih =>
    intro s s' h hall hrun
    obtain ⟨s₁, hstep, hrest⟩ := Option.bind_eq_some_iff.mp hrun
    exact ih (h.step hall.1 hstep) (hall.2 s₁ hstep) hrest

theorem meets_true (es : List (Ev T)) : ∀ s : Sys T, Meets (fun _ _ => True) s es := by
  induction es with
  | nil => exact fun _ => trivial
  | cons e es ih => exact fun s => ⟨trivial, fun s' _ => ih s'⟩

end Orthox.Sockets.Calls
