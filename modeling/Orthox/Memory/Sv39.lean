import Orthox.Memory.Fork

/-! The page tables of riscv64 as they stand in memory (`kernel/riscv64/vm.c`). A user root starts as a copy of the
    kernel's root, so its lower tables are the kernel's until it maps a page there: `walk_create` then replaces each
    table on the way by a copy. Clone and destroy tell the shared tables from the private ones by comparing
    each entry with the kernel's entry at the same place.

    Here a table is a page of memory, and two roots may name the same one; the trees of `Clone` are what is read off
    this memory. -/

namespace Orthox.Memory.Sv39
open Function

/-! ### Memory -/

/-- A page-table entry: not valid, a table with its other bits, or a 4 KiB leaf. -/
inductive Entry where
  | invalid
  | table (page flags : Nat)
  | leaf (e : Pte)
  deriving DecidableEq

/-- `riscv64_sv39_pte_phys` -/
def Entry.phys : Entry → Nat
  | .invalid => 0
  | .table page _ => page
  | .leaf e => e.phys

/-- The 512 entries of every page. -/
abbrev Mem := Nat → Nat → Entry

def Mem.set (mem : Mem) (page i : Nat) (e : Entry) : Mem := update mem page (update (mem page) i e)

/-- Memory, its allocator, and the tables given back so far. -/
structure Store where
  mem : Mem
  pmm : Pmm
  freed : List Nat

namespace Store

def set (s : Store) (page i : Nat) (e : Entry) : Store := { s with mem := s.mem.set page i e }

/-- `memcpy` of a page. -/
def copy (s : Store) (dst src : Nat) : Store := { s with mem := update s.mem dst (s.mem src) }

/-- `riscv64_vm_alloc_table` -/
def allocTable (s : Store) : Nat × Store :=
  let a := s.pmm.alloc 1
  if a.1 = 0 then (0, { s with pmm := a.2 }) else (a.1, { s with mem := update s.mem a.1 fun _ => .invalid, pmm := a.2 })

def freeTable (s : Store) (page : Nat) : Store := { s with pmm := s.pmm.free page 1, freed := s.freed ++ [page] }

end Store

/-- `kernel && entry == kernel_entry` -/
def isKernels (mem : Mem) (kernel : Option Nat) (i : Nat) (e : Entry) : Bool := kernel.any fun k => mem k i = e

/-- The kernel's table below its entry, if there is one. -/
def kernelChild (mem : Mem) (kernel : Option Nat) (i : Nat) : Option Nat :=
  kernel.bind fun k => match mem k i with
    | .table page _ => some page
    | _ => none

/-! ### Mapping -/

/-- `riscv64_sv39_vpn_index` of an address counted in pages. -/
def vpnIndex (va level : Nat) : Nat := va / 512 ^ level % 512

/-- One turn of `riscv64_sv39_walk_create`: the table of the next level, which is private from then on; `none` where the walk
    gives up. -/
def walkStep (s : Store) (table : Nat) (kernel : Option Nat) (i : Nat) : Option (Nat × Store) :=
  let entry := s.mem table i
  if entry = .invalid then
    let a := s.allocTable
    if a.1 = 0 then none else some (a.1, a.2.set table i (.table a.1 1))
  else if isKernels s.mem kernel i entry then
    let a := s.allocTable
    if a.1 = 0 then none else some (a.1, (a.2.copy a.1 entry.phys).set table i (.table a.1 1))
  else
    match entry with
    | .table page _ => some (page, s)
    | _ => none

/-- `riscv64_sv39_walk_create` along the indices, and the entry at their end. -/
def walkMap (e : Entry) : List Nat → Option Nat → Nat → Store → Option Store
  | [], _, _, s => some s
  | [i], _, table, s => some (s.set table i e)
  | i :: j :: path, kernel, table, s =>
    (walkStep s table kernel i).bind fun r => walkMap e (j :: path) (kernelChild s.mem kernel i) r.1 r.2

/-- `riscv64_vm_map_page`; without memory for a table it waits forever. -/
def mapPage (kernelRoot : Nat) (s : Store) (root va : Nat) (e : Pte) : Option Store :=
  walkMap (.leaf e) [vpnIndex va 2, vpnIndex va 1, vpnIndex va 0] (if root = kernelRoot then none else some kernelRoot) root s

/-! ### Clone and destroy -/

/-- One turn of `riscv64_vm_clone_table`; `rec` is the call for a lower table. -/
def cloneEntry (rec : Store → Nat → Nat → Option Nat → Bool × Store) (dst src : Nat) (kernel : Option Nat) (s : Store) (i : Nat) :
    Bool × Store :=
  match s.mem src i with
  | .invalid => (true, s.set dst i .invalid)
  | .leaf e =>
    if isKernels s.mem kernel i (.leaf e) then (true, (s.set dst i .invalid).set dst i (.leaf e))
    else if e.user then
      let r := vmCowShareLeaf s.pmm e 1
      (true, (({ s with pmm := r.2 }.set dst i .invalid).set src i (.leaf r.1)).set dst i (.leaf r.1))
    else (true, (s.set dst i .invalid).set dst i (.leaf e))
  | .table page flags =>
    if isKernels s.mem kernel i (.table page flags) then (true, (s.set dst i .invalid).set dst i (.table page flags))
    else
      let a := (s.set dst i .invalid).allocTable
      if a.1 = 0 then (false, a.2) else rec (a.2.set dst i (.table a.1 1)) a.1 page (kernelChild s.mem kernel i)

/-- The turns of a loop, until one fails. -/
def cloneLoop (turn : Store → Nat → Bool × Store) : List Nat → Store → Bool × Store
  | [], s => (true, s)
  | i :: is, s =>
    let r := turn s i
    if r.1 then cloneLoop turn is r.2 else r

/-- `riscv64_vm_clone_table`, for so many levels of tables. -/
def cloneTable : Nat → Store → Nat → Nat → Option Nat → Bool × Store
  | 0, s, _, _, _ => (true, s)
  | level + 1, s, dst, src, kernel => cloneLoop (cloneEntry (cloneTable level) dst src kernel) (List.range 512) s

/-- One turn of `riscv64_vm_destroy_table`. -/
def destroyEntry (rec : Store → Nat → Option Nat → Store) (table : Nat) (kernel : Option Nat) (s : Store) (i : Nat) : Store :=
  match s.mem table i with
  | .invalid => s
  | .leaf e =>
    if isKernels s.mem kernel i (.leaf e) then s
    else (if e.user then { s with pmm := s.pmm.free e.phys 1 } else s).set table i .invalid
  | .table page flags =>
    if isKernels s.mem kernel i (.table page flags) then s
    else (rec s page (kernelChild s.mem kernel i)).set table i .invalid

/-- `riscv64_vm_destroy_table`, for so many levels of tables. -/
def destroyTable : Nat → Store → Nat → Option Nat → Store
  | 0, s, _, _ => s
  | level + 1, s, table, kernel => ((List.range 512).foldl (destroyEntry (destroyTable level) table kernel) s).freeTable table

section root
variable (kernelRoot : Nat)

/-- `riscv64_vm_create_address_space` -/
def createAddressSpace (s : Store) : Nat × Store :=
  let a := s.allocTable
  if a.1 = 0 then (0, a.2) else (a.1, a.2.copy a.1 kernelRoot)

/-- `riscv64_vm_destroy_address_space` -/
def destroyAddressSpace (s : Store) (root : Nat) : Store :=
  if root = 0 ∨ root = kernelRoot then s else destroyTable 3 s root (some kernelRoot)

/-- `arch_vm_clone_address_space` -/
def cloneAddressSpace (s : Store) (src : Nat) : Nat × Store :=
  let a := createAddressSpace kernelRoot s
  if a.1 = 0 then (0, a.2)
  else
    let c := cloneTable 3 a.2 a.1 src (some kernelRoot)
    if c.1 then (a.1, c.2) else (0, destroyAddressSpace kernelRoot c.2 a.1)

end root

/-! ### Translation -/

/-- `riscv64_sv39_walk_leaf` and the leaf there. -/
def walkLeaf (mem : Mem) : List Nat → Nat → Option Pte
  | [], _ => none
  | [i], table => match mem table i with
    | .leaf e => some e
    | _ => none
  | i :: j :: path, table => match mem table i with
    | .table page _ => walkLeaf mem (j :: path) page
    | _ => none

/-- What an address translates to under a root. -/
def translate (mem : Mem) (root va : Nat) : Option Pte := walkLeaf mem [vpnIndex va 2, vpnIndex va 1, vpnIndex va 0] root

/-- The tables a root leads to, itself included. -/
inductive TableOf (mem : Mem) (root : Nat) : Nat → Prop
  | root : TableOf mem root root
  | next {table page flags : Nat} (i : Nat) (h : TableOf mem root table) (hi : i < 512) (he : mem table i = .table page flags) :
    TableOf mem root page

end Orthox.Memory.Sv39
