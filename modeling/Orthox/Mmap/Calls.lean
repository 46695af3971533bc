import Orthox.Memory.Cow

/-! `mmap`, `munmap` and `mremap` (`kernel/sys_mmap.c`), on the page tables of the three ports. A mapping is made page by
    page: a page for the data, its contents, and the way down the tables, on which missing tables are made. When there is
    no page for the data the pages mapped so far are dropped again; when there is none for a table the ports differ.

        x86-64    get_next_level answers NULL, and the next one asserts or the entry is written through it
        riscv64   walk_create answers 0, and riscv64_vm_map_page waits forever
        aarch64   aarch64_vm_map_page returns, and nobody knows that the page is not mapped

    Addresses are bytes, modulo 2^64 where the code adds to them; pages are counted. -/

namespace Orthox.Mmap
open Memory Function

/-- What the ports differ in: the tables below the root on the way to a page, the window of `mmap`, which the tables reach,
    whether the kernel stops when there is no page for a table, and whether files can be mapped. -/
structure Arch where
  levels : Nat
  base : Nat
  top : Nat
  stops : Bool
  mmapCanMapFile : Bool
  base_pos : 0 < base
  base_aligned : base % 4096 = 0
  base_le : base ≤ top
  top_aligned : top % 4096 = 0
  reach : top ≤ 4096 * 512 ^ (levels + 1)
  levels_le : levels ≤ 3

def x86_64 : Arch where
  levels := 3
  base := 0x200000000000
  top := 0x7F0000000000
  stops := true
  mmapCanMapFile := true
  base_pos := by decide
  base_aligned := by decide
  base_le := by decide
  top_aligned := by decide
  reach := by decide
  levels_le := by decide

/-- The two ports with three levels and the same window. -/
def sv39 (stops mmapCanMapFile : Bool) : Arch where
  levels := 2
  base := 0x2000000000
  top := 0x3F00000000
  stops := stops
  mmapCanMapFile := mmapCanMapFile
  base_pos := by decide
  base_aligned := by decide
  base_le := by decide
  top_aligned := by decide
  reach := by decide
  levels_le := by decide

def riscv64 : Arch := sv39 true false
def aarch64 : Arch := sv39 false true

namespace Arch
variable (A : Arch)

/-- The indices of an address taken together: the page, without the bits above the tables' reach. -/
def page (addr : Nat) : Nat := addr / 4096 % 512 ^ (A.levels + 1)

/-- The addresses of the window. -/
def InWindow (p : Nat) : Prop := A.base / 4096 ≤ p ∧ p < A.top / 4096

/-- `mmap_range_valid` -/
def mmapRangeValid (vaddr size : Nat) : Bool :=
  size ≠ 0 && vaddr % 4096 = 0 && A.base ≤ vaddr && vaddr < A.top && vaddr ≤ (vaddr + size) % 2 ^ 64 &&
    (vaddr + size) % 2 ^ 64 ≤ A.top

end Arch

/-- The lower half of an address space: the leaf of each page, and the tables that are there, by their level above the
    leaves and the part of the address that leads to them. Frame 0 is nobody's, and in the window of `mmap` nothing but
    4 KiB pages is mapped. -/
structure Space (A : Arch) where
  leaf : Nat → Option Pte
  table : Nat → Nat → Bool
  phys_ne : ∀ {p e}, leaf p = some e → e.phys ≠ 0
  small : ∀ {p e}, A.InWindow p → leaf p = some e → e.pages = 1

namespace Space
variable {A : Arch}

/-- The leaf of a page is written. -/
def map (sp : Space A) (p : Nat) (e : Pte) (he : e.phys ≠ 0 ∧ e.pages = 1) : Space A where
  leaf := update sp.leaf p (some e)
  table := sp.table
  phys_ne {q e'} h := by
    rcases eq_or_ne q p with rfl | hne
    · rw [update_self] at h
      exact Option.some.inj h ▸ he.1
    · rw [update_of_ne hne] at h
      exact sp.phys_ne h
  small {q e'} hq h := by
    rcases eq_or_ne q p with rfl | hne
    · rw [update_self] at h
      exact Option.some.inj h ▸ he.2
    · rw [update_of_ne hne] at h
      exact sp.small hq h

/-- The leaf of a page is cleared. -/
def unmap (sp : Space A) (p : Nat) : Space A where
  leaf := update sp.leaf p none
  table := sp.table
  phys_ne {q e'} h := by
    rcases eq_or_ne q p with rfl | hne
    · simp at h
    · rw [update_of_ne hne] at h
      exact sp.phys_ne h
  small {q e'} hq h := by
    rcases eq_or_ne q p with rfl | hne
    · simp at h
    · rw [update_of_ne hne] at h
      exact sp.small hq h

/-- A table is hung in. -/
def addTable (sp : Space A) (level key : Nat) : Space A :=
  { sp with table := fun l k => sp.table l k || (l = level && k = key) }

end Space

/-- The process that calls, and memory. `mmapEnd` is `mmap_end` of the task. -/
structure Sys (A : Arch) where
  space : Space A
  ram : Ram
  mmapEnd : Nat

/-- The open files: whether a descriptor is a pipe, and the bytes `sys_pread64` of a page gets; `none` is an error. -/
structure Files where
  pipe : Nat → Option Bool
  pread : Nat → Nat → Option (List (BitVec 8))

/-! ### Pages -/

namespace Sys
variable {A : Arch}

/-- The tables from a level down to the last: `get_next_level`, `riscv64_sv39_walk_create` or `aarch64_vm_next_table` in
    turn. -/
def walkCreate (p : Nat) : Nat → Space A → Pmm → Bool × Space A × Pmm
  | 0, sp, m => (true, sp, m)
  | level + 1, sp, m =>
    if sp.table (level + 1) (p / 512 ^ (level + 1)) then walkCreate p level sp m
    else
      let a := m.alloc 1
      if a.1 = 0 then (false, sp, a.2) else walkCreate p level (sp.addTable (level + 1) (p / 512 ^ (level + 1))) a.2

/-- `arch_vm_map_page`; `none` when the kernel goes no further. -/
def archVmMapPage (sp : Space A) (m : Pmm) (p : Nat) (e : Pte) (he : e.phys ≠ 0 ∧ e.pages = 1) : Option (Space A × Pmm) :=
  match walkCreate p A.levels sp m with
  | (true, sp, m) => some (sp.map p e he, m)
  | (false, sp, m) => if A.stops then none else some (sp, m)

/-- `arch_vm_get_phys` is not 0. -/
def mapped (s : Sys A) (addr : Nat) : Bool := (s.space.leaf (A.page (addr % 2 ^ 64))).isSome

/-- `mmap_drop_page`; a larger page stays mapped. -/
def mmapDropPage (s : Sys A) (addr : Nat) : Sys A :=
  match s.space.leaf (A.page (addr % 2 ^ 64)) with
  | some e =>
    if e.pages = 1 then
      { s with space := s.space.unmap (A.page (addr % 2 ^ 64)), ram := { s.ram with pmm := s.ram.pmm.free e.phys 1 } }
    else s
  | none => s

/-- The loops around `mmap_drop_page`. -/
def dropPages (s : Sys A) (base n : Nat) : Sys A := (List.range n).foldl (fun s i => s.mmapDropPage (base + i * 4096)) s

/-- The page for the data, with its contents. -/
def newPage (s : Sys A) (content : Page) : Nat × Sys A :=
  let a := s.ram.pmm.alloc 1
  (a.1, { s with ram := ⟨a.2, if a.1 = 0 then s.ram.mem else update s.ram.mem a.1 content⟩ })

/-- The loop of `sys_mmap`, also in `sys_mremap`: `done` pages are mapped, as many as the first argument are left. It ends
    with the pages mapped, or dropped again. -/
def mapPages (fill : Nat → Page) (writable executable : Bool) (base : Nat) : Nat → Nat → Sys A → Option (Bool × Sys A)
  | 0, _, s => some (true, s)
  | left + 1, done, s =>
    let a := s.newPage (fill done)
    if h : a.1 = 0 then some (false, a.2.dropPages base done)
    else
      match archVmMapPage a.2.space a.2.ram.pmm (A.page (base + done * 4096))
          ⟨a.1, 1, writable, false, executable, true⟩ ⟨h, rfl⟩ with
      | none => none
      | some (sp, m) =>
        mapPages fill writable executable base left (done + 1) { a.2 with space := sp, ram := { a.2.ram with pmm := m } }

/-! ### `mmap` -/

/-- `mmap_align_up` -/
def mmapAlignUp (v : Nat) : Nat := (v + 4095) % 2 ^ 64 / 4096 * 4096

/-- `mmap_range_unmapped` -/
def mmapRangeUnmapped (s : Sys A) (base size : Nat) : Bool :=
  (List.range (size / 4096)).all fun i => !s.mapped (base + i * 4096)

/-- The loop of `mmap_find_gap_from`; 0 when there is no gap. -/
def gapFrom (s : Sys A) (size stop : Nat) : Nat → Nat → Nat
  | 0, _ => 0
  | turns + 1, base =>
    if base + size ≤ stop then if s.mmapRangeUnmapped base size then base else gapFrom s size stop turns (base + 4096)
    else 0

/-- `mmap_find_gap_from` -/
def mmapFindGapFrom (s : Sys A) (size start stop : Nat) : Nat :=
  let start := mmapAlignUp (if start < A.base then A.base else start)
  s.gapFrom size stop ((stop - start) / 4096 + 1) start

/-- `mmap_find_gap` -/
def mmapFindGap (s : Sys A) (size hint : Nat) : Nat :=
  if size = 0 ∨ size > A.top - A.base then 0
  else
    let hint := if hint < A.base ∨ hint ≥ A.top then A.base else hint
    let base := s.mmapFindGapFrom size hint A.top
    if base ≠ 0 then base else if hint > A.base then s.mmapFindGapFrom size A.base hint else 0

/-- The arguments of `sys_mmap`. -/
structure Args where
  addr : BitVec 64
  length : BitVec 64
  prot : BitVec 32
  flags : BitVec 32
  fd : Int
  offset : Int

/-- `MAP_FIXED` and `MAP_ANONYMOUS` -/
def Args.fixed (a : Args) : Bool := a.flags &&& 0x10 ≠ 0
def Args.anonymous (a : Args) : Bool := a.flags &&& 0x20 ≠ 0

/-- `PROT_WRITE` and `PROT_EXEC` -/
def Args.writable (a : Args) : Bool := a.prot &&& 2 ≠ 0
def Args.executable (a : Args) : Bool := a.prot &&& 4 ≠ 0

/-- The bytes the call is for, in whole pages. -/
def Args.size (a : Args) : Nat := mmapAlignUp a.length.toNat

def einval : Int := 22
def ebadf : Int := 9
def enomem : Int := 12
def enodev : Int := 19
def enosys : Int := 38

/-- The checks of `sys_mmap` that look at the arguments alone, and at the type of the file. -/
def refused (A : Arch) (files : Files) (a : Args) : Option Int :=
  if a.length = 0 then some einval
  else if a.flags &&& 3 = 0 then some einval
  else if a.offset < 0 then some einval
  else if a.offset % 4096 ≠ 0 then some einval
  else if a.size = 0 then some einval
  else if a.anonymous then
    if a.fd ≠ -1 ∧ a.fd ≠ 0 then some einval else if a.offset ≠ 0 then some einval else none
  else if a.fd < 0 ∨ a.fd ≥ 256 then some ebadf
  else match files.pipe a.fd.toNat with
    | none => some ebadf
    | some true => some enodev
    | some false => if A.mmapCanMapFile then none else some enosys

/-- The contents of the `i`-th page: zero, and over it what `mmap_fill_from_file` reads. -/
def Args.fill (files : Files) (a : Args) (i : Nat) : Page := fun j =>
  if a.anonymous then 0 else ((files.pread a.fd.toNat (a.offset.toNat + i * 4096)).getD []).getD j 0

/-- The part of `sys_mmap` behind the choice of the range. -/
def mapRange (files : Files) (a : Args) (base : Nat) (s : Sys A) : Option (Int × Sys A) :=
  if A.mmapRangeValid base a.size then
    match s.mapPages (a.fill files) a.writable a.executable base (a.size / 4096) 0 with
    | none => none
    | some (false, s) => some (-enomem, s)
    | some (true, s) => some (base, { s with mmapEnd := max s.mmapEnd (base + a.size) })
  else some (-einval, s)

/-- `sys_mmap`: the address or an error, negated; `none` when the kernel goes no further. -/
def sysMmap (files : Files) (s : Sys A) (a : Args) : Option (Int × Sys A) :=
  match refused A files a with
  | some e => some (-e, s)
  | none =>
    let base := mmapAlignUp a.addr.toNat
    if base = 0 ∨ a.fixed = false then
      let gap := s.mmapFindGap a.size s.mmapEnd
      if gap = 0 then some (-enomem, s) else mapRange files a gap { s with mmapEnd := mmapAlignUp (gap + a.size) }
    else if a.addr.toNat ≠ base then some (-einval, s)
    else if A.mmapRangeValid base a.size then
      mapRange files a base (if s.mmapRangeUnmapped base a.size then s else s.dropPages base (a.size / 4096))
    else some (-einval, s)

/-- `sys_munmap` -/
def sysMunmap (s : Sys A) (addr length : Nat) : Int × Sys A :=
  if length = 0 ∨ addr % 4096 ≠ 0 then (-einval, s)
  else if A.mmapRangeValid addr (mmapAlignUp length) then (0, s.dropPages addr (mmapAlignUp length / 4096))
  else (-einval, s)

end Sys

end Orthox.Mmap
