import Orthox.Files.Requests

/-! Tasks that read and write one xv6fs file through open file descriptions (`fs_file_t`). A description has the offset;
    `dup` and `fork` share it. `fs_write` takes the offset or, with `O_APPEND`, the size of the file, writes chunk by
    chunk and sets the offset when the loop is left; `fs_read` adds what it read. `pread64` and `pwrite64`
    (`kernel/sys_fs.c`) are made of `fs_lseek`, the plain call and `fs_lseek` back. One event is one section under
    the inode lock or between two of them: the system calls of aarch64 run without a kernel lock. -/

namespace Orthox.Descriptions
open Blocks Files Function
open Cache (Env Bio)

abbrev Str := List (BitVec 8)

/-- What `pread64` and `pwrite64` keep while the plain call runs: the offset to go back to and the one asked for. -/
structure Positional where
  old : Nat
  asked : Nat

/-- The plain call inside `pread64` and `pwrite64`. -/
inductive Body where
  | read (count : Nat)
  | write (append : Bool) (src : Str) (id : Nat)

/-- Where a task stands in a call on the description `f`. A write carries its number, which no code reads. -/
inductive Op (F : Type) where
  /-- `pread64` or `pwrite64` before the first and before the second `fs_lseek` -/
  | save (f : F) (body : Body) (asked : Nat)
  | seek (f : F) (body : Body) (p : Positional)
  /-- `fs_write`: entered, before the end of the file is looked up, in the loop, behind it -/
  | enter (f : F) (append : Bool) (src : Str) (id : Nat) (p : Option Positional)
  | sample (f : F) (src : Str) (id : Nat) (p : Option Positional)
  | chunk (f : F) (append : Bool) (src : Str) (id start written : Nat) (p : Option Positional)
  | finish (f : F) (append : Bool) (start written : Nat) (p : Option Positional)
  /-- `fs_read`: before and behind the inode lock -/
  | read (f : F) (count : Nat) (p : Option Positional)
  | advance (f : F) (n : Nat) (p : Option Positional)
  /-- the last `fs_lseek` of `pread64` and `pwrite64` -/
  | restore (f : F) (old : Nat)

/-- One file, the descriptions of it, and who holds them. The last three fields are the history: the offsets by what
    the calls returned, whether a positional call transferred elsewhere than it was asked to, and the writes. -/
structure Sys (T F : Type) where
  vol : Vol
  inum : Nat
  offset : F → Nat
  holds : T → F → Bool
  ops : T → Option (Op F)
  book : F → Nat
  astray : Bool
  calls : List Str

variable {T F : Type} [DecidableEq T] [DecidableEq F]

/-- What can happen next. -/
inductive Ev (T F : Type) where
  | write (t : T) (f : F) (append : Bool) (src : Str)
  | read (t : T) (f : F) (count : Nat)
  | pread (t : T) (f : F) (count offset : Nat)
  | pwrite (t : T) (f : F) (append : Bool) (src : Str) (offset : Nat)
  /-- A successful `lseek` to a position. -/
  | lseek (t : T) (f : F) (position : Nat)
  /-- `dup` or `fork`. -/
  | share (t u : T) (f : F)
  | close (t : T) (f : F)
  /-- The next section of a call, with the time and the state of disk and cache it finds. -/
  | go (t : T) (now : BitVec 32) (env : Env) (bio : Bio)

namespace Sys

/-- The size of the file. -/
def size (s : Sys T F) : Nat := (inodeAt s.vol s.inum).size

/-- The file as its bytes. -/
def contents (s : Sys T F) : Str := (List.range s.size).map (data s.vol (inodeAt s.vol s.inum))

def setOp (s : Sys T F) (t : T) (o : Option (Op F)) : Sys T F := { s with ops := update s.ops t o }

def setOffset (s : Sys T F) (f : F) (offset : Nat) : Sys T F := { s with offset := update s.offset f offset }

def setBook (s : Sys T F) (f : F) (offset : Nat) : Sys T F := { s with book := update s.book f offset }

/-- The plain call returns: to its caller, or into `pread64` and `pwrite64`. -/
def leave (s : Sys T F) (t : T) (f : F) : Option Positional → Sys T F
  | none => s.setOp t none
  | some p => s.setOp t (some (.restore f p.old))

/-- A plain write returned `k` bytes that begin at `start`. -/
def wrote (s : Sys T F) (f : F) (append : Bool) (start k : Nat) : Option Positional → Sys T F
  | none => s.setBook f (((if append then start else s.book f) + k) % 2 ^ 64)
  | some _ => s

/-- The positional call transferred `k` bytes at `position`. -/
def transfer (s : Sys T F) (position k : Nat) : Option Nat → Sys T F
  | none => s
  | some asked => { s with astray := s.astray || decide (0 < k ∧ position ≠ asked) }

/-- One turn of the loop of `fs_write`. -/
def chunkTurn (s : Sys T F) (t : T) (f : F) (append : Bool) (src : Str) (id start written : Nat) (p : Option Positional)
    (now : BitVec 32) : Sys T F :=
  if written < src.length then
    let chunk := min (src.length - written) writeChunkMax
    let position := (start + written) % 2 ^ 32
    let r := xv6fsWritei s.vol (inodeAt s.vol s.inum) (fun j => src.getD (written + j) 0) position chunk now.toNat
    let s := { s with vol := r.2.2 }.transfer position r.1.toNat (p.map fun q : Positional => q.asked + written)
    if r.1 < 0 then
      -- the bytes of the chunks before are returned, but the offset is not set
      (if 0 < written then s.wrote f append start written p else s).leave t f p
    else if r.1 < chunk then s.setOp t (some (.finish f append start (written + r.1.toNat) p))
    else s.setOp t (some (.chunk f append src id start (written + chunk) p))
  else s.setOp t (some (.finish f append start written p))

/-- The next section of the call a task is in. -/
def go (s : Sys T F) (t : T) (now : BitVec 32) (env : Env) (bio : Bio) : Option (Sys T F) :=
  (s.ops t).map fun
  | .save f body asked =>
    -- `fs_lseek` refuses an offset that is negative as an `int64_t`
    if 2 ^ 63 ≤ s.offset f then s.setOp t none else s.setOp t (some (.seek f body ⟨s.offset f, asked⟩))
  | .seek f body p =>
    let s := s.setOffset f p.asked
    match body with
    | .read count => s.setOp t (some (.read f count (some p)))
    | .write append src id => s.setOp t (some (.enter f append src id (some p)))
  | .enter f append src id p =>
    if append then s.setOp t (some (.sample f src id p))
    else s.setOp t (some (.chunk f false src id (s.offset f) 0 p))
  | .sample f src id p => s.setOp t (some (.chunk f true src id s.size 0 p))
  | .chunk f append src id start written p => s.chunkTurn t f append src id start written p now
  | .finish f append start written p =>
    ((s.setOffset f ((start + written) % 2 ^ 64)).wrote f append start written p).leave t f p
  | .read f count p =>
    let r := fsRead env bio s.vol s.inum (s.offset f) count fun _ => 0
    if r.1 < 0 then s.leave t f p
    else (s.transfer (s.offset f % 2 ^ 32) r.1.toNat (p.map Positional.asked)).setOp t (some (.advance f r.1.toNat p))
  | .advance f n p =>
    let s := s.setOffset f ((s.offset f + n) % 2 ^ 64)
    (match p with
      | none => s.setBook f ((s.book f + n) % 2 ^ 64)
      | some _ => s).leave t f p
  | .restore f old => (s.setOffset f old).setOp t none

/-- A call is entered by a task that is in none and holds the description. -/
def start (s : Sys T F) (t : T) (f : F) (o : Op F) : Option (Sys T F) :=
  if (s.ops t).isNone ∧ s.holds t f then some (s.setOp t (some o)) else none

/-- The effect of an event; `none` when it cannot happen. -/
def step (s : Sys T F) : Ev T F → Option (Sys T F)
  | .write t f append src =>
    { s with calls := s.calls ++ [src] }.start t f (.enter f append src s.calls.length none)
  | .read t f count => s.start t f (.read f count none)
  | .pread t f count offset => if offset < 2 ^ 63 then s.start t f (.save f (.read count) offset) else none
  | .pwrite t f append src offset =>
    if offset < 2 ^ 63 then
      { s with calls := s.calls ++ [src] }.start t f (.save f (.write append src s.calls.length) offset)
    else none
  | .lseek t f position =>
    if (s.ops t).isNone ∧ s.holds t f ∧ position < 2 ^ 63 then some ((s.setOffset f position).setBook f position) else none
  | .share t u f =>
    if (s.ops t).isNone ∧ s.holds t f then
      some { s with holds := update s.holds u (update (s.holds u) f true) }
    else none
  | .close t f =>
    if (s.ops t).isNone then some { s with holds := update s.holds t (update (s.holds t) f false) } else none
  | .go t now env bio => s.go t now env bio

/-- The run of a list of events. -/
def run (s : Sys T F) : List (Ev T F) → Option (Sys T F)
  | [] => some s
  | e :: es => (s.step e).bind fun s' => s'.run es

/-- The run of a list of events as long as each meets a condition. -/
def runIf (ok : Sys T F → Ev T F → Prop) [∀ s, DecidablePred (ok s)] (s : Sys T F) : List (Ev T F) → Option (Sys T F)
  | [] => some s
  | e :: es => if ok s e then (s.step e).bind fun s' => s'.runIf ok es else none

end Sys

/-- A sound volume with the file on it, before any call. -/
structure Fresh (s : Sys T F) : Prop where
  wf : WellFormed s.vol
  live : Live s.vol s.inum
  idle : ∀ t, s.ops t = none
  offsets : ∀ f, s.offset f < 2 ^ 64
  book : s.book = s.offset
  astray : s.astray = false
  calls : s.calls = []

/-- The states reached from `s₀` by events that all meet a condition. -/
inductive Reaches (ok : Sys T F → Ev T F → Prop) (s₀ : Sys T F) : Sys T F → Prop where
  | fresh : Reaches ok s₀ s₀
  | step {s s' : Sys T F} {e : Ev T F} (h : Reaches ok s₀ s) (hok : ok s e) (hs : s.step e = some s') : Reaches ok s₀ s'

/-- A property that the first state has and every allowed event keeps holds in every state reached. -/
theorem Reaches.keeps {ok : Sys T F → Ev T F → Prop} {s₀ s : Sys T F} {I : Sys T F → Prop} (h : Reaches ok s₀ s) (h₀ : I s₀)
    (hstep : ∀ {s s' e}, I s → ok s e → s.step e = some s' → I s') : I s := by
  induction h with
  | fresh => exact h₀
  | step _ hok hs ih => exact hstep ih hok hs

section runIf
variable {ok : Sys T F → Ev T F → Prop} [∀ s, DecidablePred (ok s)] {s₀ s s' : Sys T F} {es : List (Ev T F)}

theorem Sys.run_of_runIf (h : s.runIf ok es = some s') : s.run es = some s' := by
  induction es generalizing s with
  | nil => exact h
  | cons e es ih =>
    rw [runIf] at h
    split_ifs at h
    obtain ⟨s₁, hstep, hrest⟩ := Option.bind_eq_some_iff.mp h
    rw [run, hstep]
    exact ih hrest

theorem Reaches.of_runIf (h₀ : Reaches ok s₀ s) (h : s.runIf ok es = some s') : Reaches ok s₀ s' := by
  induction es generalizing s with
  | nil =>
    cases h
    exact h₀
  | cons e es ih =>
    rw [Sys.runIf] at h
    split_ifs at h with hok
    obtain ⟨s₁, hstep, hrest⟩ := Option.bind_eq_some_iff.mp h
    exact ih (h₀.step hok hstep) hrest

end runIf

end Orthox.Descriptions
