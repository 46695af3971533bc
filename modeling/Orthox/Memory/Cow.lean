import Orthox.Memory.Pmm

/-! Copy-on-write (`kernel/vm_cow.c`). A fork shares the parent's pages: writable leaves of both become
    read-only and marked, and the first store copies. Sharing is read off the allocator's count; pages
    it does not count are device memory and stay shared.

    Over the helpers stands a machine of address spaces whose helper calls interleave, and over that the
    memory a process believes it has: a page of its own for each mapped page, copied when it is forked. -/

namespace Orthox.Memory
open Function

/-- The bytes of a frame. -/
abbrev Page := Nat → BitVec 8

/-- A valid leaf entry: its first frame, the pages it covers (512 for a 2 MiB leaf), and its bits. -/
structure Pte where
  phys : Nat
  pages : Nat
  writable : Bool
  cow : Bool
  executable : Bool
  user : Bool
  deriving DecidableEq

namespace Pte

/-- `arch_pte_mkcow` -/
def mkcow (e : Pte) : Pte := { e with writable := false, cow := true }

/-- `arch_pte_clear_cow` -/
def clearCow (e : Pte) : Pte := { e with cow := false }

/-- `arch_pte_mkwrite` -/
def mkwrite (e : Pte) (phys : Nat) : Pte := { e with phys := phys, writable := true, cow := false }

end Pte

/-- Physical memory and its allocator. -/
structure Ram where
  pmm : Pmm
  mem : Nat → Page

/-! ### The helpers -/

def vmCowPageShared (m : Pmm) (phys : Nat) : Bool := m.getRef phys > 1

/-- `vm_cow_share_leaf`: the entry the child gets, which the parent's leaf then holds as well. -/
def vmCowShareLeaf (m : Pmm) (e : Pte) (pages : Nat) : Pte × Pmm :=
  if m.getRef e.phys = 0 then (e, m)
  else
    let e := if e.writable then e.mkcow else e
    (e, (List.range pages).foldl (fun m i => m.incref (e.phys + i)) m)

/-- `VM_COW_HANDLED`, `VM_COW_NOT_COW` and `VM_COW_NOMEM` -/
inductive Fault
  | handled
  | notCow
  | nomem
  deriving DecidableEq

/-- `memcpy` of `n` frames. -/
def copyFrames (mem : Nat → Page) (dst src n : Nat) : Nat → Page := fun p => if Pmm.Within dst n p then mem (src + (p - dst)) else mem p

/-- `vm_cow_write_fault` on the leaf that `arch_vm_user_leaf` finds. -/
def vmCowWriteFault (r : Ram) : Option Pte → Fault × Option Pte × Ram
  | none => (.notCow, none, r)
  | some e =>
    if !e.cow then (if e.writable then .handled else .notCow, some e, r)
    else if vmCowPageShared r.pmm e.phys then
      let a := r.pmm.alloc e.pages
      if a.1 = 0 then (.nomem, some e, { r with pmm := a.2 })
      else (.handled, some (e.mkwrite a.1), ⟨a.2.free e.phys e.pages, copyFrames r.mem a.1 e.phys e.pages⟩)
    else (.handled, some (e.mkwrite e.phys), r)

/-- The four ways a fault on a leaf ends: there was nothing to do, the leaf is the last one, no memory, a copy. -/
theorem writeFault_cases (r : Ram) (e : Pte) :
    (e.cow = false ∧ vmCowWriteFault r (some e) = (if e.writable then .handled else .notCow, some e, r)) ∨
    (e.cow ∧ r.pmm.getRef e.phys ≤ 1 ∧ vmCowWriteFault r (some e) = (.handled, some (e.mkwrite e.phys), r)) ∨
    (e.cow ∧ 1 < r.pmm.getRef e.phys ∧ (r.pmm.alloc e.pages).1 = 0 ∧
      vmCowWriteFault r (some e) = (.nomem, some e, { r with pmm := (r.pmm.alloc e.pages).2 })) ∨
    (e.cow ∧ 1 < r.pmm.getRef e.phys ∧ (r.pmm.alloc e.pages).1 ≠ 0 ∧
      vmCowWriteFault r (some e) = (.handled, some (e.mkwrite (r.pmm.alloc e.pages).1),
        ⟨(r.pmm.alloc e.pages).2.free e.phys e.pages, copyFrames r.mem (r.pmm.alloc e.pages).1 e.phys e.pages⟩)) := by
  rcases Bool.eq_false_or_eq_true e.cow with hcow | hcow
  swap
  · exact .inl ⟨hcow, by simp only [vmCowWriteFault, hcow, Bool.not_false, if_true]⟩
  refine .inr ?_
  rcases lt_or_ge 1 (r.pmm.getRef e.phys) with hgt | hle
  · refine .inr ?_
    rcases Nat.eq_zero_or_pos (r.pmm.alloc e.pages).1 with hz | hpos
    · exact .inl ⟨hcow, hgt, hz, by simp [vmCowWriteFault, hcow, vmCowPageShared, hgt, hz]⟩
    · have hne := ne_of_gt hpos
      exact .inr ⟨hcow, hgt, hne, by simp [vmCowWriteFault, hcow, vmCowPageShared, hgt, hne]⟩
  · exact .inl ⟨hcow, hle, by simp [vmCowWriteFault, hcow, vmCowPageShared, not_lt.mpr hle]⟩

/-- `arch_vm_protect_page`, which leaves 2 MiB leaves alone. -/
def archVmProtectPage (e : Pte) (writable executable : Bool) : Pte :=
  if e.pages = 1 then { e with writable := writable, executable := executable } else e

/-- `vm_cow_protect_page` -/
def vmCowProtectPage (m : Pmm) (leaf : Option Pte) (writable executable : Bool) : Option Pte :=
  leaf.map fun e =>
    let cow := writable && (e.cow || vmCowPageShared m e.phys)
    let e := archVmProtectPage e (writable && !cow) executable
    if cow then e.mkcow else e.clearCow

/-! ### Address spaces -/

section machine
variable {A V : Type} [DecidableEq A] [DecidableEq V]

/-- Memory, and the user leaves of every address space. -/
structure Sys (A V : Type) where
  ram : Ram
  leaf : A × V → Option Pte

/-- What happens to the machine: a leaf is passed to a child, a store faults, a page is protected, unmapped (or its
    address space destroyed), mapped with new memory, or mapped to device memory; a process stores a byte; the
    kernel takes or gives back pages of its own. -/
inductive Ev (A V : Type)
  | share (parent child : A) (v : V)
  | fault (a : A) (v : V)
  | protect (a : A) (v : V) (writable executable : Bool)
  | drop (a : A) (v : V)
  | map (a : A) (v : V) (fill : Page) (writable executable : Bool)
  | device (a : A) (v : V) (e : Pte)
  | store (a : A) (v : V) (i off : Nat) (b : BitVec 8)
  | take (n : Nat)
  | give (pa n : Nat)

/-- A store goes through when the leaf lets the hardware write. -/
def Sys.stores (s : Sys A V) (k : A × V) (i : Nat) : Option Nat :=
  (s.leaf k).bind fun e => if e.writable ∧ i < e.pages then some (e.phys + i) else none

def Sys.step (s : Sys A V) : Ev A V → Sys A V
  | .share p c v => match s.leaf (p, v) with
    | none => s
    | some e =>
      let r := vmCowShareLeaf s.ram.pmm e e.pages
      ⟨{ s.ram with pmm := r.2 }, update (update s.leaf (p, v) (some r.1)) (c, v) (some r.1)⟩
  | .fault a v =>
    let r := vmCowWriteFault s.ram (s.leaf (a, v))
    ⟨r.2.2, update s.leaf (a, v) r.2.1⟩
  | .protect a v w x => { s with leaf := update s.leaf (a, v) (vmCowProtectPage s.ram.pmm (s.leaf (a, v)) w x) }
  | .drop a v => match s.leaf (a, v) with
    | none => s
    | some e => ⟨{ s.ram with pmm := s.ram.pmm.free e.phys e.pages }, update s.leaf (a, v) none⟩
  | .map a v fill w x =>
    let r := s.ram.pmm.alloc 1
    if r.1 = 0 then { s with ram := { s.ram with pmm := r.2 } }
    else ⟨⟨r.2, update s.ram.mem r.1 fill⟩, update s.leaf (a, v) (some ⟨r.1, 1, w, false, x, true⟩)⟩
  | .device a v e => { s with leaf := update s.leaf (a, v) (some e) }
  | .store a v i off b => match s.stores (a, v) i with
    | none => s
    | some p => { s with ram := { s.ram with mem := update s.ram.mem p (update (s.ram.mem p) off b) } }
  | .take n => { s with ram := { s.ram with pmm := (s.ram.pmm.alloc n).2 } }
  | .give pa n => { s with ram := { s.ram with pmm := s.ram.pmm.free pa n } }

/-- When an event can happen: a page that is shared has fewer than 65535 references, what is shared or mapped goes to
    an empty slot, device memory is not the allocator's, and the kernel gives back only what no process has. -/
def Ev.Allowed (s : Sys A V) : Ev A V → Prop
  | .share p c v => s.leaf (c, v) = none ∧ ∀ e, s.leaf (p, v) = some e → s.ram.pmm.getRef e.phys < 65535
  | .map a v .. => s.leaf (a, v) = none
  | .device a v e => s.leaf (a, v) = none ∧ 0 < e.pages ∧ e.cow = false ∧ ∀ i < e.pages, s.ram.pmm.Reserved (e.phys + i)
  | .give pa n => ∀ k e, s.leaf k = some e → ∀ i < e.pages, ¬ Pmm.Within pa n (e.phys + i)
  | _ => True

/-- The memory the processes believe they have, page by page: a fork copies it, a store changes the page of the process
    that stores. -/
def Ev.believe (s : Sys A V) (own : A × V → Page) : Ev A V → A × V → Page
  | .share p c v => update own (c, v) (own (p, v))
  | .map a v fill .. => update own (a, v) fill
  | .store a v i off b => match s.stores (a, v) i with
    | none => own
    | some _ => update own (a, v) (update (own (a, v)) off b)
  | _ => own

end machine
end Orthox.Memory
