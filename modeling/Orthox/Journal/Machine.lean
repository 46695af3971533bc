import Orthox.Journal.CrashSafe

/-! The transaction front of the journal as a machine of many tasks: `xv6log_begin_op`, `xv6log_write`, `xv6log_end_op` and
    `xv6log_flush` (= `xv6fs_sync`), interleaved with the device commands of a running `commit`.

    One action is what happens under one hold of `lg.lock`, one buffer access or one device command. `wait_event` is the loop of
    `begin_op` taking its test again, so a test that fails leaves the machine as it is. A failed `KASSERT` stops the machine:
    the action is then not defined.

    What the source does not keep is recorded beside it: a number for every operation, the blocks the operations logged in the
    order they did (`history`), the operations that have ended, and those a returned sync has answered for (`promised`). -/

namespace Orthox.Journal
open Schemes.Crash Function

/-- `xv6log_begin_op` and `xv6log_end_op` clamp the declared size. -/
def clampNeed (maxBlocks : Int) : Nat :=
  let need := if maxBlocks < 1 then 1 else maxBlocks
  (if need > logBlocks then (logBlocks : Int) else need).toNat

/-- `XV6LOG_BATCH_MAX` -/
def batchMax : Nat := logBlocks

/-- What the caller of `commit` goes on with. -/
inductive After
  | retry (need : Nat)
  | ret (asked : List Nat)

/-- Where a task stands in the journal. -/
inductive Pc
  | idle
  /-- At the head of the loop of `begin_op`. -/
  | begin (need : Nat)
  /-- Between `begin_op` and `end_op`, as operation `id`. -/
  | op (id need : Nat)
  /-- In `xv6log_flush`, before its test; `asked` had ended when it was called. -/
  | flush (asked : List Nat)
  | committing (after : After)
  /-- `commit` has returned, `lg.committing` is still set. -/
  | committed (after : After)

/-- A block some operation logged, with its contents at that moment. -/
structure Entry where
  op : Nat
  block : Word
  data : Block

/-- A `commit` on its way: the commands not carried out yet and the memory it ends with. -/
structure Flight where
  todo : List (Write Nat Block)
  result : Sys

structure Machine (Task : Type*) where
  sys : Sys
  outstanding : Nat
  reserved : Nat
  committing : Bool
  flight : Option Flight
  pc : Task → Pc
  nextId : Nat
  history : List Entry
  ended : List Nat
  promised : List Nat

inductive Act
  | beginOp (maxBlocks : Int)
  | beginTest
  | read (b : Nat)
  | write (b : Word) (data : Block)
  | endOp
  | sync
  | syncTest
  | io
  | commitEnd
  | unflag

/-- A buffer is read, changed and handed to `xv6log_write`, which absorbs a block it already has. -/
def Sys.xv6logWrite (s : Sys) (b : Word) (data : Block) : Sys :=
  let s := (s.xv6bread b.toNat).2.fill b.toNat data
  if b ∈ s.block then s
  else { s with block := s.block ++ [b], pins := update s.pins b.toNat (s.pins b.toNat + 1) }

/-- A block of the file system proper: on the disk and not in the log area. -/
def Home (size start b : Nat) : Prop := b < size ∧ ¬ (start ≤ b ∧ b ≤ start + logBlocks)

instance (size start b : Nat) : Decidable (Home size start b) := inferInstanceAs (Decidable (_ ∧ _))

namespace Machine
variable {Task : Type*} [DecidableEq Task]

/-- The admission test of `begin_op`. -/
def Admits (m : Machine Task) (need : Nat) : Prop :=
  m.committing = false ∧ m.sys.block.length + m.reserved + need ≤ logBlocks ∧
    (m.sys.block.length = 0 ∨ m.sys.block.length + m.reserved + need ≤ batchMax)

/-- The test of `xv6log_commit_if_idle`, made by `begin_op` as well. -/
def Idle (m : Machine Task) : Prop := m.committing = false ∧ m.outstanding = 0 ∧ 0 < m.sys.block.length

instance (m : Machine Task) (need : Nat) : Decidable (m.Admits need) := inferInstanceAs (Decidable (_ ∧ _))

instance (m : Machine Task) : Decidable m.Idle := inferInstanceAs (Decidable (_ ∧ _))

def goto (m : Machine Task) (t : Task) (p : Pc) : Machine Task := { m with pc := update m.pc t p }

/-- `lg.committing = 1`, then `commit()`. -/
def startCommit (m : Machine Task) (t : Task) (after : After) : Machine Task :=
  { m.goto t (.committing after) with
    committing := true, flight := some ⟨(commit m.sys).issued, commit m.sys⟩ }

/-- One action of task `t` on a disk of `size` blocks. -/
def step (size : Nat) (t : Task) (a : Act) (m : Machine Task) : Option (Machine Task) :=
  match a, m.pc t with
  | .beginOp maxBlocks, .idle => some (m.goto t (.begin (clampNeed maxBlocks)))
  | .beginTest, .begin need =>
    if m.Admits need then
      some { m.goto t (.op m.nextId need) with
        outstanding := m.outstanding + 1, reserved := m.reserved + need, nextId := m.nextId + 1 }
    else if m.Idle then some (m.startCommit t (.retry need))
    else some m
  | .read b, _ => some { m with sys := (m.sys.xv6bread b).2 }
  | .write b data, .op id _ =>
    -- the two `KASSERT`s of `xv6log_write`
    if m.sys.block.length < logBlocks ∧ 1 ≤ m.outstanding ∧ Home size m.sys.start b.toNat then
      some { m with sys := m.sys.xv6logWrite b data, history := m.history ++ [⟨id, b, data⟩] }
    else none
  | .endOp, .op id need =>
    if m.committing then none
    else some { m.goto t .idle with
      outstanding := m.outstanding - 1, reserved := m.reserved - need, ended := id :: m.ended }
  | .sync, .idle => some (m.goto t (.flush m.ended))
  | .syncTest, .flush asked =>
    if m.Idle then some (m.startCommit t (.ret asked))
    else some { m.goto t .idle with promised := asked ++ m.promised }
  | .io, .committing _ =>
    match m.flight with
    | some ⟨w :: todo, result⟩ =>
      some { m with sys := { m.sys with disk := put w m.sys.disk }, flight := some ⟨todo, result⟩ }
    | _ => none
  | .commitEnd, .committing after =>
    match m.flight with
    | some ⟨[], result⟩ =>
      some { m.goto t (.committed after) with sys := { result with issued := [] }, flight := none }
    | _ => none
  | .unflag, .committed (.retry need) => some { m.goto t (.begin need) with committing := false }
  | .unflag, .committed (.ret asked) =>
    some { m.goto t .idle with committing := false, promised := asked ++ m.promised }
  | _, _ => none

/-- The commands the power cut may catch. -/
def pending (m : Machine Task) : List (Write Nat Block) := (m.flight.map Flight.todo).getD []

/-- A freshly mounted journal: nothing logged, nobody inside. -/
structure Fresh (m : Machine Task) : Prop where
  clean : word (m.sys.disk m.sys.start) 0 = 0
  block : m.sys.block = []
  issued : m.sys.issued = []
  outstanding : m.outstanding = 0
  committing : m.committing = false
  flight : m.flight = none
  pc : ∀ t, m.pc t = .idle
  history : m.history = []
  ended : m.ended = []
  promised : m.promised = []

end Machine

/-- The disk after the logged blocks were written one by one. -/
def replay (d : Nat → Block) (h : List Entry) : Nat → Block :=
  h.foldl (fun d e => update d e.block.toNat e.data) d

/-- Disk `d` is what a prefix of the history makes of `base`, and no block of operation `id` is missing from that prefix. -/
def Contains (start : Nat) (base : Nat → Block) (h : List Entry) (id : Nat) (d : Nat → Block) : Prop :=
  ∃ k, (∀ e ∈ h.drop k, e.op ≠ id) ∧ ∀ i ∉ logArea start, d i = replay base (h.take k) i

/-- Cut the power now, cut any number of recoveries and finish one: every operation a sync has answered for is on the disk. -/
def Durable {Task : Type*} (base : Nat → Block) (m : Machine Task) : Prop :=
  ∀ id ∈ m.promised, ∀ d₁ d₂, CrashTo m.pending m.sys.disk d₁ → Relation.ReflTransGen (CutRecovery m.sys.start) d₁ d₂ →
      ∀ boot : Boot, Contains m.sys.start base m.history id (recovered boot m.sys.start d₂)

end Orthox.Journal
