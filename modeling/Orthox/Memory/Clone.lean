import Orthox.Memory.Tables

/-! The fork of an address space on riscv64 and aarch64 (`arch_vm_clone_address_space`, `kernel/riscv64/vm.c` and
    `kernel/aarch64/vm.c`). Tables are copied and pages shared. Unlike the x86-64 copy both check every
    allocation: when one fails, what was built so far is torn down like any address space.

    Tearing down takes one reference from each page and returns each private table, so the two ends of a fork
    are compared by two effects on the allocator: growth by new tables and references, and the loss of them. -/

namespace Orthox.Memory

/-! ### The two ports -/

/-- Where the two ports differ: how tables are taken and returned and the reference count they carry meanwhile, the bits
    of an entry that leads to a table, the levels at which a leaf is a block, and the leaves that are shared by count. -/
structure Port where
  allocTable : Pmm → Nat × Pmm
  freeTable : Pmm → Nat → Pmm
  ref : Nat
  nonleaf : Nat
  block : Nat → Bool
  shares : Pte → Bool
  ref_le : ref ≤ 1
  shares_mkcow : ∀ e, shares e.mkcow = shares e
  alloc_spec : ∀ {m : Pmm}, m.Ok → ((allocTable m).1 = 0 ∧ m.freeCount = 0 ∧ m.Same (allocTable m).2) ∨
    (m.Free (allocTable m).1 ∧ (∀ pa, (allocTable m).2.getRef pa = if pa = (allocTable m).1 then ref else m.getRef pa) ∧
      (∀ pa, (allocTable m).2.Free pa ↔ m.Free pa ∧ pa ≠ (allocTable m).1) ∧ (allocTable m).2.freeCount + 1 = m.freeCount)
  free_spec : ∀ {m : Pmm} {q : Nat}, m.Managed q → m.getRef q = ref →
    (∀ pa, (freeTable m q).getRef pa = if pa = q then 0 else m.getRef pa) ∧ ∀ pa, (freeTable m q).Free pa ↔ m.Free pa ∨ pa = q
  alloc_range : ∀ m, (allocTable m).2.range = m.range
  free_range : ∀ m q, (freeTable m q).range = m.range

/-- Tables are counted pages, and the pages of the process are the leaves with the U bit. -/
def riscv64 : Port where
  allocTable m := m.alloc 1
  freeTable m q := m.free q 1
  ref := 1
  nonleaf := 1
  block _ := false
  shares e := e.user
  ref_le := le_rfl
  shares_mkcow _ := rfl
  alloc_spec {m} hok := by
    obtain ⟨hzero, hcount⟩ := Pmm.alloc_count hok
    rcases Pmm.alloc_spec hok 1 with ⟨hz, hsame⟩ | ⟨hne, -, hfree, href, hleft⟩
    · exact Or.inl ⟨hz, hzero.mp hz, hsame⟩
    · simp only [Pmm.within_one] at hfree href hleft
      exact Or.inr ⟨hfree _ rfl, href, hleft, hcount hne⟩
  free_spec {m q} _ hone := by
    obtain ⟨href, hfree⟩ := m.free_spec q 1
    simp only [Pmm.within_one] at href hfree
    refine ⟨fun pa => ?_, fun pa => ?_⟩
    · rw [href]
      split_ifs with heq
      · rw [heq, hone]
      · rfl
    · rw [hfree]
      exact or_congr_right (and_iff_left_of_imp fun heq => heq ▸ hone)
  alloc_range m := m.alloc_range 1
  free_range m q := m.free_range_one q

/-- Tables are pages without a count, and the tables of a process hold nothing but its pages, all at the last level. -/
def aarch64 : Port where
  allocTable m := m.claimLocked 1
  freeTable m q := m.releaseLocked q 1
  ref := 0
  nonleaf := 3
  block level := level < 3
  shares _ := true
  ref_le := Nat.zero_le 1
  shares_mkcow _ := rfl
  alloc_spec {m} hok := by
    obtain ⟨hzero, hcount⟩ := Pmm.claimLocked_count hok
    rcases Pmm.claimLocked_spec hok 1 with ⟨hz, hsame⟩ | ⟨hne, -, hfree, href, hleft⟩
    · exact Or.inl ⟨hz, hzero.mp hz, hsame⟩
    simp only [Pmm.within_one] at hfree hleft
    refine Or.inr ⟨hfree _ rfl, fun pa => ?_, hleft, hcount hne⟩
    rw [href]
    split_ifs with heq
    · exact hok.free (hfree pa heq)
    · rfl
  free_spec {m q} hq hzero := by
    obtain ⟨href, hfree⟩ := m.releaseLocked_spec hq
    refine ⟨fun pa => ?_, hfree⟩
    rw [href]
    split_ifs with heq
    · rw [heq, hzero]
    · rfl
  alloc_range m := m.claimLocked_range 1
  free_range m q := m.releaseLocked_range q 1

/-! ### Entries shared with the kernel -/

namespace Slots

def rest : Slots → Slots
  | nil => nil
  | hole r => r
  | leaf _ r => r
  | table _ _ _ r => r

/-- A zeroed table of as many entries. -/
def zeros : Slots → Slots
  | nil => nil
  | hole r => hole r.zeros
  | leaf _ r => hole r.zeros
  | table _ _ _ r => hole r.zeros

end Slots

/-- The kernel's table, one entry on. -/
def next (k : Option Slots) : Option Slots := k.map Slots.rest

/-- The kernel's table below its entry, if there is one (`kernel_child`). -/
def below : Option Slots → Option Slots
  | some (.table _ _ sub _) => some sub
  | _ => none

/-- `kernel && entry == kernel_entry`, for a leaf -/
def kernelLeaf : Option Slots → Pte → Bool
  | some (.leaf e' _), e => e = e'
  | _, _ => false

/-- `kernel && entry == kernel_entry`, for an entry that leads to a table -/
def kernelTable : Option Slots → Nat → Nat → Bool
  | some (.table page' flags' _ _), page, flags => page = page' && flags = flags'
  | _, _, _ => false

/-! ### Clone and destroy -/

/-- A table being cloned: whether it was finished, the new table, the old one with its leaves marked, the allocator, the
    tables taken. -/
structure Clone where
  rc : Bool
  dst : Slots
  src : Slots
  pmm : Pmm
  wrote : List Nat

section port
variable (P : Port)

/-- `riscv64_vm_clone_table` and `aarch64_vm_clone_table`, over a table that holds `old`. The kernel's table is none on
    aarch64. -/
def cloneTable : Option Slots → Nat → Pmm → Slots → Slots → Clone
  | _, _, m, .nil, _ => ⟨true, .nil, .nil, m, []⟩
  | k, level, m, .hole rest, old =>
    let r := cloneTable (next k) level m rest old.rest
    ⟨r.rc, .hole r.dst, .hole r.src, r.pmm, r.wrote⟩
  | k, level, m, .leaf e rest, old =>
    if kernelLeaf k e then
      let r := cloneTable (next k) level m rest old.rest
      ⟨r.rc, .leaf e r.dst, .leaf e r.src, r.pmm, r.wrote⟩
    else if P.block level then ⟨false, .hole old.rest, .leaf e rest, m, []⟩
    else
      let s := if P.shares e then vmCowShareLeaf m e 1 else (e, m)
      let r := cloneTable (next k) level s.2 rest old.rest
      ⟨r.rc, .leaf s.1 r.dst, .leaf s.1 r.src, r.pmm, r.wrote⟩
  | k, level, m, .table page flags sub rest, old =>
    if kernelTable k page flags then
      let r := cloneTable (next k) level m rest old.rest
      ⟨r.rc, .table page flags sub r.dst, .table page flags sub r.src, r.pmm, r.wrote⟩
    else
      let a := P.allocTable m
      if a.1 = 0 then ⟨false, .hole old.rest, .table page flags sub rest, a.2, []⟩
      else
        let c := cloneTable (below k) (level + 1) a.2 sub sub.zeros
        if c.rc then
          let r := cloneTable (next k) level c.pmm rest old.rest
          ⟨r.rc, .table a.1 P.nonleaf c.dst r.dst, .table page flags c.src r.src, r.pmm, a.1 :: (c.wrote ++ r.wrote)⟩
        else ⟨false, .table a.1 P.nonleaf c.dst old.rest, .table page flags c.src rest, c.pmm, a.1 :: c.wrote⟩

/-- The loop of `riscv64_vm_destroy_table` and `aarch64_vm_destroy_table`. -/
def destroyTable : Option Slots → Nat → Pmm → Slots → Pmm
  | _, _, m, .nil => m
  | k, level, m, .hole rest => destroyTable (next k) level m rest
  | k, level, m, .leaf e rest =>
    destroyTable (next k) level (if kernelLeaf k e || P.block level || !P.shares e then m else m.free e.phys 1) rest
  | k, level, m, .table page flags sub rest =>
    destroyTable (next k) level
      (if kernelTable k page flags then m else P.freeTable (destroyTable (below k) (level + 1) m sub) page) rest

/-- An address space: the frame of its root, and the root's entries. -/
structure Space where
  root : Nat
  top : Slots

variable (kernel : Option Space)

/-- `riscv64_vm_destroy_address_space`, and `arch_vm_destroy_user_address_space` of aarch64 -/
def destroyAddressSpace (m : Pmm) (s : Space) : Pmm :=
  if s.root = 0 ∨ kernel.any (·.root = s.root) then m
  else P.freeTable (destroyTable P (kernel.map Space.top) 1 m s.top) s.root

/-- What `arch_vm_clone_address_space` returns and leaves behind. -/
structure SpaceClone where
  new : Space
  old : Space
  pmm : Pmm
  wrote : List Nat

/-- `arch_vm_clone_address_space`. The new root holds the kernel's entries (riscv64) or zeros (aarch64). -/
def cloneAddressSpace (m : Pmm) (s : Space) : SpaceClone :=
  let a := P.allocTable m
  if a.1 = 0 then ⟨⟨0, .nil⟩, s, a.2, []⟩
  else
    let c := cloneTable P (kernel.map Space.top) 1 a.2 s.top (kernel.elim s.top.zeros Space.top)
    if c.rc then ⟨⟨a.1, c.dst⟩, ⟨s.root, c.src⟩, c.pmm, a.1 :: c.wrote⟩
    else ⟨⟨0, .nil⟩, ⟨s.root, c.src⟩, destroyAddressSpace P kernel c.pmm ⟨a.1, c.dst⟩, a.1 :: c.wrote⟩

/-! ### What an address space owns -/

/-- The part of a table that tearing down gives back. -/
def own : Option Slots → Nat → Slots → Slots
  | _, _, .nil => .nil
  | k, level, .hole rest => .hole (own (next k) level rest)
  | k, level, .leaf e rest =>
    if kernelLeaf k e || P.block level || !P.shares e then .hole (own (next k) level rest) else .leaf e (own (next k) level rest)
  | k, level, .table page flags sub rest =>
    if kernelTable k page flags then .hole (own (next k) level rest)
    else .table page flags (own (below k) (level + 1) sub) (own (next k) level rest)

namespace Space

/-- The private tables. -/
def tables (s : Space) : List Nat := s.root :: (own P (kernel.map Space.top) 1 s.top).tables

/-- The frames of the pages that are shared by count, once for each leaf. -/
def frames (s : Space) : List Nat := (own P (kernel.map Space.top) 1 s.top).frames

end Space

/-- The pages a clone comes to share with `n` frames for its tables, and the frames it then has left. -/
def reach : Option Slots → Nat → Nat → Slots → List Nat × Option Nat
  | _, _, n, .nil => ([], some n)
  | k, level, n, .hole rest => reach (next k) level n rest
  | k, level, n, .leaf e rest =>
    if kernelLeaf k e then reach (next k) level n rest
    else if P.block level then ([], none)
    else if P.shares e then
      let r := reach (next k) level n rest
      (e.phys :: r.1, r.2)
    else reach (next k) level n rest
  | k, level, n, .table page flags sub rest =>
    if kernelTable k page flags then reach (next k) level n rest
    else
      match n with
      | 0 => ([], none)
      | n + 1 =>
        match reach (below k) (level + 1) n sub with
        | (l, none) => (l, none)
        | (l, some n) =>
          let r := reach (next k) level n rest
          (l ++ r.1, r.2)

/-- The pages a fork comes to share. -/
def Space.reached (m : Pmm) (s : Space) : List Nat :=
  match m.freeCount with
  | 0 => []
  | n + 1 => (reach P (kernel.map Space.top) 1 n s.top).1

end port

end Orthox.Memory
