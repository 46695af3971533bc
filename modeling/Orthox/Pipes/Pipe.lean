import Orthox.Schemes.Ring
import Orthox.Schemes.WaitQueue

/-! Pipes and FIFOs of `kernel/fs.c`. A pipe is a page pair with a ring of bytes, the number of open read and write ends, a
    count of the references that keep the pages, and two wait queues of four slots. Reads and writes are loops of sections under
    the pipe's lock; a section stores or takes what it can, or puts the caller to sleep, and the waiters it took off a queue are
    woken after the lock is released. A FIFO is found through a table entry that counts its openers; an opener counts itself
    there first and in the pipe only after it met the other end. One event here is one section under a lock. -/

namespace Orthox.Pipes
open Schemes Function

/-- `PIPE_BUF_SIZE` -/
def pipeBufSize : Nat := 4096

theorem pipeBufSize_pos : 0 < pipeBufSize := by decide

/-- `FS_WAITQ_MAX` -/
def fsWaitqMax : Nat := 4

/-- The error numbers the calls answer with, negated. -/
def epipe : Int := 32
def enxio : Int := 6

/-- The ends a file object stands for: the bits of `aux0`. -/
structure Ends where
  reads : Bool
  writes : Bool
deriving DecidableEq

/-- How many references the object adds to the pipe when it is opened. -/
def Ends.weight (e : Ends) : Nat := e.reads.toNat + e.writes.toNat

structure Pipe (T : Type) where
  ring : Ring UInt8 pipeBufSize
  refCount : Int
  readers : UInt16
  writers : UInt16
  readWq : WaitQueue T fsWaitqMax
  writeWq : WaitQueue T fsWaitqMax

variable {T F : Type} [DecidableEq T] [DecidableEq F]

/-! ### The sections under the pipe's lock -/

/-- How one turn of the loop of `fs_write` ends. -/
inductive WriteTurn (T : Type) where
  | refused
  | blocked (pipe : Pipe T)
  | stored (pipe : Pipe T) (rest : List UInt8) (wake : List T)

/-- One turn of the loop of `fs_write`, with the bytes still to be written. The answer of `fs_waitq_add` is not used. -/
def Pipe.write (p : Pipe T) (current : T) (src : List UInt8) : WriteTurn T :=
  if p.readers = 0 then .refused
  else if p.ring.count = pipeBufSize then .blocked { p with writeWq := (p.writeWq.add current).1 }
  else .stored { p with ring := (p.ring.fill src).1, readWq := p.readWq.takeAll.2 } (p.ring.fill src).2 p.readWq.takeAll.1

/-- How one turn of the loop of `fs_read` ends. -/
inductive ReadTurn (T : Type) where
  | eof
  | blocked (pipe : Pipe T)
  | taken (pipe : Pipe T) (bytes : List UInt8) (wake : List T)

/-- One turn of the loop of `fs_read`. -/
def Pipe.read (p : Pipe T) (current : T) (count : Nat) : ReadTurn T :=
  if p.ring.count = 0 ∧ p.writers = 0 then .eof
  else if p.ring.count = 0 then .blocked { p with readWq := (p.readWq.add current).1 }
  else
    let toRead := if count > p.ring.count then p.ring.count else count
    .taken { p with ring := (p.ring.drain toRead).2, writeWq := p.writeWq.takeAll.2 } (p.ring.drain toRead).1 p.writeWq.takeAll.1

/-- The last section of `fs_open_install_fifo`: the ends are counted in sixteen bits. -/
def Pipe.join (p : Pipe T) (e : Ends) : Pipe T :=
  { p with
    refCount := p.refCount + e.weight
    readers := p.readers + (if e.reads then 1 else 0)
    writers := p.writers + (if e.writes then 1 else 0) }

/-- The section of `fs_release_pipe_file`, with the waiters of both queues. -/
def Pipe.release (p : Pipe T) (e : Ends) : Pipe T × List T :=
  ({ p with
     refCount := p.refCount - 1
     writers := if e.writes ∧ p.writers > 0 then p.writers - 1 else p.writers
     readers := if e.reads ∧ p.readers > 0 then p.readers - 1 else p.readers
     readWq := p.readWq.takeAll.2
     writeWq := p.writeWq.takeAll.2 },
   p.readWq.takeAll.1 ++ p.writeWq.takeAll.1)

/-! ### The table of open FIFOs -/

/-- The entry of this pipe in `g_fifo_table`. -/
structure FifoEntry where
  inUse : Bool
  readers : Int
  writers : Int
  opens : Int

/-- An opener counts itself. -/
def FifoEntry.enter (x : FifoEntry) (e : Ends) : FifoEntry :=
  { x with opens := x.opens + 1, readers := x.readers + e.reads.toNat, writers := x.writers + e.writes.toNat }

/-- An opener that gives up, or an object that is closed, takes itself off; the last one gives the entry back. -/
def FifoEntry.leave (x : FifoEntry) (e : Ends) : FifoEntry :=
  { inUse := if x.opens - 1 ≤ 0 then false else x.inUse
    readers := x.readers - e.reads.toNat
    writers := x.writers - e.writes.toNat
    opens := x.opens - 1 }

/-- `ENXIO`: opening for writing without waiting and without a reader. -/
def FifoEntry.noReader (x : FifoEntry) (e : Ends) (nonblock : Bool) : Bool :=
  nonblock && e.writes && !e.reads && decide (x.readers ≤ 0)

/-- `fs_fifo_counterpart_hint`, asked only by an opener of one end that may wait. -/
def FifoEntry.met (x : FifoEntry) (e : Ends) (nonblock : Bool) : Bool :=
  if nonblock then !x.noReader e nonblock
  else if e.reads = e.writes then true
  else if e.reads then decide (x.writers > 0)
  else decide (x.readers > 0)

/-! ### The system around one pipe -/

/-- A file object of the pipe; `held` is how many of the pipe's references are its own. -/
structure File (F : Type) where
  id : F
  ends : Ends
  held : Nat
deriving DecidableEq

/-- Where a task stands in a call on the pipe. A write carries its number, which no code reads. -/
inductive Op (F : Type) where
  | writing (file : F) (src : List UInt8) (written id : Nat)
  | writeSlept (file : F) (src : List UInt8) (written id : Nat)
  | reading (file : F) (count : Nat)
  | readSlept (file : F) (count : Nat)
  | answered (value : Int)
  | opening (ends : Ends) (nonblock : Bool)
  | admitted (ends : Ends)
  | releasing (file : F) (ends : Ends) (extra : Bool)
  | released (free : Bool)
  | polling

/-- One pipe with everything that refers to it. `sent`, `got` and `calls` are the history: the bytes stored with the
    number of their write, the bytes handed to readers, and the buffers of all writes. -/
structure Sys (T F : Type) where
  pipe : Pipe T
  fifo : Option FifoEntry
  files : List (File F)
  fds : List (T × F)
  freed : Bool
  ops : T → Option (Op F)
  asleep : T → Bool
  toWake : T → List T
  sent : List (Nat × UInt8)
  got : List UInt8
  calls : List (List UInt8)

/-- The pipe of `fs_pipe`: one object for each end, both with the caller. -/
def Sys.pipe₀ (buffer : Fin pipeBufSize → UInt8) (t : T) (r w : F) : Sys T F where
  pipe := ⟨.empty buffer pipeBufSize_pos, 2, 1, 1, .init, .init⟩
  fifo := none
  files := [⟨r, ⟨true, false⟩, 1⟩, ⟨w, ⟨false, true⟩, 1⟩]
  fds := [(t, r), (t, w)]
  freed := false
  ops := fun _ => none
  asleep := fun _ => false
  toWake := fun _ => []
  sent := []
  got := []
  calls := []

/-- The pipe that `fs_open_install_fifo` makes for a new entry, before the first opener counts itself. -/
def Sys.fifo₀ (buffer : Fin pipeBufSize → UInt8) : Sys T F where
  pipe := ⟨.empty buffer pipeBufSize_pos, 0, 0, 0, .init, .init⟩
  fifo := some ⟨true, 0, 0, 0⟩
  files := []
  fds := []
  freed := false
  ops := fun _ => none
  asleep := fun _ => false
  toWake := fun _ => []
  sent := []
  got := []
  calls := []

namespace Sys

/-- Moves a task to another place in its call. -/
def setOp (s : Sys T F) (t : T) (o : Option (Op F)) : Sys T F := { s with ops := update s.ops t o }

/-- The entry after a change to it, if the pipe has one. -/
def onEntry (s : Sys T F) (f : FifoEntry → FifoEntry) : Sys T F := { s with fifo := s.fifo.map f }

/-- One turn of `fs_write`. -/
def writeTurn (s : Sys T F) (t : T) (f : F) (src : List UInt8) (written id : Nat) : Sys T F :=
  if written < src.length then
    match s.pipe.write t (src.drop written) with
    | .refused => s.setOp t (some (.answered (if 0 < written then written else -epipe)))
    | .blocked p =>
      { s.setOp t (some (.writeSlept f src written id)) with pipe := p, asleep := update s.asleep t true }
    | .stored p rest wake =>
      let stored := src.length - rest.length
      { s.setOp t (some (.writing f src stored id)) with
        pipe := p
        toWake := update s.toWake t wake
        sent := s.sent ++ ((src.take stored).drop written).map (id, ·) }
  else s.setOp t (some (.answered written))

/-- One turn of `fs_read`. -/
def readTurn (s : Sys T F) (t : T) (f : F) (count : Nat) : Sys T F :=
  match s.pipe.read t count with
  | .eof => s.setOp t (some (.answered 0))
  | .blocked p => { s.setOp t (some (.readSlept f count)) with pipe := p, asleep := update s.asleep t true }
  | .taken p bytes wake =>
    { s.setOp t (some (.answered bytes.length)) with
      pipe := p
      toWake := update s.toWake t wake
      got := s.got ++ bytes }

/-- The object's own count of the pipe's references after it gave one back. -/
def giveBack (files : List (File F)) (f : F) : List (File F) :=
  files.map fun x => if x.id = f then { x with held := x.held - 1 } else x

/-- `fs_release_pipe_file` up to the wake-ups. -/
def releaseTurn (s : Sys T F) (t : T) (f : F) (e : Ends) : Sys T F :=
  { s.setOp t (some (.released (decide ((s.pipe.release e).1.refCount = 0)))) with
    pipe := (s.pipe.release e).1
    toWake := update s.toWake t (s.pipe.release e).2
    files := s.files.eraseP fun x => x.id = f }

/-- The next section of the call a task is in. Waiters it took are woken first; a sleeper goes on only when woken. -/
def go (s : Sys T F) (t : T) : Option (Sys T F) :=
  if s.toWake t ≠ [] then none
  else match s.ops t with
  | some (.writing f src written id) => some (s.writeTurn t f src written id)
  | some (.writeSlept f src written id) =>
    if s.asleep t then none
    else some { s.setOp t (some (.writing f src written id)) with
      pipe := { s.pipe with writeWq := s.pipe.writeWq.remove t } }
  | some (.reading f count) => some (s.readTurn t f count)
  | some (.readSlept f count) =>
    if s.asleep t then none
    else some { s.setOp t (some (.reading f count)) with pipe := { s.pipe with readWq := s.pipe.readWq.remove t } }
  | some (.answered _) => some (s.setOp t none)
  | some (.releasing f e true) =>
    some { s.setOp t (some (.releasing f e false)) with
      pipe := { s.pipe with refCount := s.pipe.refCount - 1 }
      files := giveBack s.files f }
  | some (.releasing f e false) => some (s.releaseTurn t f e)
  | some (.released free) => some { s.setOp t none with freed := s.freed || free }
  | _ => none

end Sys

/-! ### Events -/

/-- What can happen next. -/
inductive Ev (T F : Type) where
  /-- `fs_write` and `fs_read` are entered; neither looks at the access mode of the descriptor. -/
  | write (t : T) (f : F) (src : List UInt8)
  | read (t : T) (f : F) (count : Nat)
  /-- The next section of a call in progress. -/
  | go (t : T)
  /-- A task wakes the next of the waiters it took. -/
  | wake (t : T)
  /-- Something outside the pipe wakes a task. -/
  | rouse (t : T)
  /-- `dup` or `fork`: one more descriptor of the same object. -/
  | share (t u : T) (f : F)
  | close (t : T) (f : F)
  /-- `fs_open_install_fifo`: counted in the table, let through, given up, counted in the pipe. -/
  | openFifo (t : T) (e : Ends) (nonblock : Bool)
  | meet (t : T)
  | refuse (t : T)
  | join (t : T) (f : F)
  /-- The `ppoll` loop registers in the queues it was asked for and clears both afterwards. -/
  | poll (t : T) (f : F) (pollin pollout : Bool)
  | unpoll (t : T)
  /-- The pages of a freed pipe are the allocator's: anything may be found there. -/
  | reuse (p : Pipe T)

namespace Sys

/-- An object whose last descriptor is gone starts to be released. -/
def closeFile (s : Sys T F) (t : T) (x : File F) : Sys T F :=
  (s.onEntry fun y => y.leave x.ends).setOp t
    (some (.releasing x.id x.ends (s.fifo.isSome && x.ends.reads && x.ends.writes)))

/-- The effect of an event; `none` when it cannot happen. -/
def step (s : Sys T F) : Ev T F → Option (Sys T F)
  | .write t f src =>
    if (s.ops t).isNone ∧ (t, f) ∈ s.fds then
      some { s.setOp t (some (.writing f src 0 s.calls.length)) with calls := s.calls ++ [src] }
    else none
  | .read t f count => if (s.ops t).isNone ∧ (t, f) ∈ s.fds then some (s.setOp t (some (.reading f count))) else none
  | .go t => s.go t
  | .wake t =>
    match s.toWake t with
    | [] => none
    | u :: us => some { s with asleep := update s.asleep u false, toWake := update s.toWake t us }
  | .rouse t => some { s with asleep := update s.asleep t false }
  | .share t u f =>
    if (s.ops t).isNone ∧ (s.ops u).isNone ∧ (t, f) ∈ s.fds then some { s with fds := (u, f) :: s.fds } else none
  | .close t f =>
    if (s.ops t).isNone ∧ (t, f) ∈ s.fds then
      let fds := s.fds.erase (t, f)
      if f ∈ fds.map Prod.snd then some { s with fds := fds }
      else (s.files.find? fun x => x.id = f).map ({ s with fds := fds }.closeFile t)
    else none
  | .openFifo t e nonblock =>
    if (s.ops t).isNone ∧ s.fifo.any FifoEntry.inUse then
      some ((s.onEntry fun x => x.enter e).setOp t (some (.opening e nonblock)))
    else none
  | .meet t =>
    match s.ops t with
    | some (.opening e nonblock) =>
      if s.fifo.any fun x => x.met e nonblock then some (s.setOp t (some (.admitted e))) else none
    | _ => none
  | .refuse t =>
    match s.ops t with
    | some (.opening e nonblock) =>
      if s.fifo.any fun x => x.noReader e nonblock then
        some ((s.onEntry fun x => x.leave e).setOp t (some (.answered (-enxio))))
      else none
    | some (.admitted e) => some ((s.onEntry fun x => x.leave e).setOp t (some (.answered (-1))))
    | _ => none
  | .join t f =>
    match s.ops t with
    | some (.admitted e) =>
      if f ∈ s.files.map File.id then none
      else some { s.setOp t none with
        pipe := s.pipe.join e
        files := ⟨f, e, e.weight⟩ :: s.files
        fds := (t, f) :: s.fds }
    | _ => none
  | .poll t f pollin pollout =>
    if (s.ops t).isNone ∧ (t, f) ∈ s.fds then
      some { s.setOp t (some .polling) with
        pipe := { s.pipe with
          readWq := if pollin then (s.pipe.readWq.add t).1 else s.pipe.readWq
          writeWq := if pollout then (s.pipe.writeWq.add t).1 else s.pipe.writeWq } }
    else none
  | .unpoll t =>
    match s.ops t with
    | some .polling =>
      some { s.setOp t none with
        pipe := { s.pipe with readWq := s.pipe.readWq.remove t, writeWq := s.pipe.writeWq.remove t } }
    | _ => none
  | .reuse p => if s.freed then some { s with pipe := p } else none

/-- The run of a list of events. -/
def run (s : Sys T F) : List (Ev T F) → Option (Sys T F)
  | [] => some s
  | e :: es => (s.step e).bind fun s' => s'.run es

end Sys

/-- A new pipe or FIFO. -/
inductive Fresh : Sys T F → Prop where
  | pipe (buffer : Fin pipeBufSize → UInt8) (t : T) {r w : F} (h : r ≠ w) : Fresh (.pipe₀ buffer t r w)
  | fifo (buffer : Fin pipeBufSize → UInt8) : Fresh (.fifo₀ buffer)

/-- The states reached from a new pipe by events that all meet a condition. -/
inductive Reaches (ok : Sys T F → Ev T F → Prop) : Sys T F → Prop where
  | fresh {s : Sys T F} (h : Fresh s) : Reaches ok s
  | step {s s' : Sys T F} {e : Ev T F} (h : Reaches ok s) (hok : ok s e) (hs : s.step e = some s') : Reaches ok s'

end Orthox.Pipes
