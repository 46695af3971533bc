import Orthox.Memory.Fork

/-! Tearing down an x86-64 address space (`vmm_free_user_pml4`, `kernel/x86_64/vmm.c`). Every leaf is asserted to have
    a reference before its page is given back. Pages come into an address space by mapping new memory, by a
    fork, by a copy on write and by `sys_map_framebuffer`, and the last ones are not counted by the allocator.

    The run of all processes is kept in one account: what the address spaces hold of a page, tables and leaves
    together, is at most what the allocator counts of it. -/

namespace Orthox.Memory
open List Option Slots

/-! ### Pages held -/

/-- The frames a leaf covers. -/
def Pte.frames (e : Pte) : List Nat := (range e.pages).map (e.phys + ·)

/-- Every frame that tearing down gives back, once for each time. -/
def Slots.held : Slots → List Nat
  | .nil => []
  | .hole rest => rest.held
  | .leaf e rest => e.frames ++ rest.held
  | .table page _ sub rest => page :: (sub.held ++ rest.held)

def Space.held (sp : Space) : List Nat := sp.root :: sp.top.held

namespace Teardown

/-! ### Tearing down -/

/-- The loops of `vmm_free_user_pml4`; `none` when an assertion stops the kernel. -/
def freeEntries (m : Pmm) : Slots → Option Pmm
  | .nil => some m
  | .hole rest => freeEntries m rest
  | .leaf e rest => if 0 < m.getRef e.phys then freeEntries (m.free e.phys e.pages) rest else none
  | .table page _ sub rest => (freeEntries m sub).bind fun m => freeEntries (m.free page 1) rest

def vmmFreeUserPml4 (m : Pmm) (sp : Space) : Option Pmm := (freeEntries m sp.top).map (·.free sp.root 1)

/-! ### Mapping -/

/-- A table of holes. -/
def holes : Nat → Slots
  | 0 => .nil
  | n + 1 => .hole (holes n)

/-- Holes before an entry. -/
def pad : Nat → Slots → Slots
  | 0, t => t
  | n + 1, t => .hole (pad n t)

/-- A new table with the tables below it that lead to the leaf at the end of a path; it ends early when there is no page
    for a table. -/
def newTable (e : Pte) (bits : Nat) : List Nat → Pmm → Slots × Pmm
  | [], m => (.nil, m)
  | [i], m => (pad i (.leaf e (holes (511 - i))), m)
  | i :: j :: path, m =>
    let a := m.alloc 1
    if a.1 = 0 then (holes 512, a.2)
    else
      let r := newTable e bits (j :: path) a.2
      (pad i (.table a.1 (1 ||| bits) r.1 (holes (511 - i))), r.2)

/-- `get_next_level` along a path of indices, then the leaf's entry is written: `vmm_map_page` for four indices,
    `vmm_map_huge_page` for three. Where a huge page stands in the way its memory is taken for a table, and the tables
    stay as they are. -/
def mapAt (e : Pte) (bits : Nat) : List Nat → Pmm → Slots → Slots × Pmm
  | (i + 1) :: path, m, .hole rest =>
    let r := mapAt e bits (i :: path) m rest
    (.hole r.1, r.2)
  | (i + 1) :: path, m, .leaf e' rest =>
    let r := mapAt e bits (i :: path) m rest
    (.leaf e' r.1, r.2)
  | (i + 1) :: path, m, .table page flags sub rest =>
    let r := mapAt e bits (i :: path) m rest
    (.table page flags sub r.1, r.2)
  | [0], m, .hole rest => (.leaf e rest, m)
  | [0], m, .leaf _ rest => (.leaf e rest, m)
  | [0], m, .table _ _ _ rest => (.leaf e rest, m)
  | 0 :: j :: path, m, .hole rest =>
    let a := m.alloc 1
    if a.1 = 0 then (.hole rest, a.2)
    else
      let r := newTable e bits (j :: path) a.2
      (.table a.1 (1 ||| bits) r.1 rest, r.2)
  | 0 :: j :: path, m, .table page flags sub rest =>
    let r := mapAt e bits (j :: path) m sub
    (.table page (flags ||| bits) r.1 rest, r.2)
  | _, m, t => (t, m)

/-- `PML4_IDX`, `PDP_IDX`, `PD_IDX` and `PT_IDX` of an address counted in pages. -/
def indices (va : Nat) : List Nat := [va / 512 ^ 3 % 512, va / 512 ^ 2 % 512, va / 512 % 512, va % 512]

/-- `PTE_USER` and `PTE_WRITABLE` -/
def tableBits (writable : Bool) : Nat := if writable then 6 else 4

/-- `vmm_map_range` with the flags of `sys_map_framebuffer`, in at most as many turns as there are pages. -/
def vmmMapRange : Nat → Nat → Nat → Nat → Pmm → Slots → Slots × Pmm
  | 0, _, _, _, m, t => (t, m)
  | turns + 1, va, pa, n, m, t =>
    if n = 0 then (t, m)
    else if 512 ≤ n ∧ va % 512 = 0 ∧ pa % 512 = 0 then
      let r := mapAt ⟨pa, 512, true, false, true, true⟩ (tableBits true) ((indices va).take 3) m t
      vmmMapRange turns (va + 512) (pa + 512) (n - 512) r.2 r.1
    else
      let r := mapAt ⟨pa, 1, true, false, true, true⟩ (tableBits true) (indices va) m t
      vmmMapRange turns (va + 1) (pa + 1) (n - 1) r.2 r.1

/-! ### The leaf of an address -/

/-- `arch_vm_user_leaf` -/
def leafAt : List Nat → Slots → Option Pte
  | (i + 1) :: path, .hole rest => leafAt (i :: path) rest
  | (i + 1) :: path, .leaf _ rest => leafAt (i :: path) rest
  | (i + 1) :: path, .table _ _ _ rest => leafAt (i :: path) rest
  | 0 :: _, .leaf e _ => some e
  | 0 :: path, .table _ _ sub _ => leafAt path sub
  | _, _ => none

/-- The leaf of an address is rewritten, or cleared. -/
def setAt (o : Option Pte) : List Nat → Slots → Slots
  | (i + 1) :: path, .hole rest => .hole (setAt o (i :: path) rest)
  | (i + 1) :: path, .leaf e rest => .leaf e (setAt o (i :: path) rest)
  | (i + 1) :: path, .table page flags sub rest => .table page flags sub (setAt o (i :: path) rest)
  | 0 :: _, .leaf _ rest => o.elim (.hole rest) (Slots.leaf · rest)
  | 0 :: path, .table page flags sub rest => .table page flags (setAt o path sub) rest
  | _, t => t

/-! ### The processes -/

/-- Memory, the upper half of every address space, and the address spaces there are. -/
structure Machine (A : Type) where
  ram : Ram
  kernel : Slots
  space : A → Option Space

/-- The frames of the framebuffer. -/
structure Screen where
  phys : Nat
  pages : Nat

def Screen.Has (fb : Screen) (p : Nat) : Prop := Pmm.Within fb.phys fb.pages p

instance (fb : Screen) (p : Nat) : Decidable (fb.Has p) := inferInstanceAs (Decidable (_ ∧ _))

/-- What the processes do to their address spaces: `execve` makes one; `execve`, `mmap`, `brk` and the growing stack map new
    pages; `munmap` and `mremap` drop them; `mprotect`, a store that faults, `fork`, `sys_map_framebuffer`, and the end of a
    process or of its old image. The kernel takes and gives back pages of its own. -/
inductive Ev (A : Type)
  | create (a : A)
  | map (a : A) (va : Nat) (writable executable : Bool)
  | unmap (a : A) (va : Nat)
  | protect (a : A) (va : Nat) (writable executable : Bool)
  | fault (a : A) (va : Nat)
  | fork (a b : A)
  | framebuffer (a : A)
  | destroy (a : A)
  | take (n : Nat)
  | give (pa n : Nat)

section machine
variable {A : Type} [DecidableEq A]

namespace Machine

def setPmm (s : Machine A) (m : Pmm) : Machine A := { s with ram := { s.ram with pmm := m } }

def setSpace (s : Machine A) (a : A) (o : Option Space) : Machine A := { s with space := Function.update s.space a o }

/-- The tables and the allocator after an edit of an address space. -/
def edit (s : Machine A) (a : A) (sp : Space) (r : Slots × Pmm) : Machine A :=
  (s.setPmm r.2).setSpace a (some { sp with top := r.1 })

/-- `sys_map_framebuffer` maps at `0x1000000000`. -/
def screenVa : Nat := 2 ^ 24

/-- The effect of an event; `none` when it cannot happen or the kernel stops. -/
def step (fb : Screen) (s : Machine A) : Ev A → Option (Machine A)
  | .create a =>
    if (s.space a).isSome then none
    else
      let r := s.ram.pmm.alloc 1
      some (if r.1 = 0 then s.setPmm r.2 else (s.setPmm r.2).setSpace a (some ⟨r.1, holes 256⟩))
  | .map a va w x => (s.space a).bind fun sp =>
    if va < 2 ^ 35 then
      let r := s.ram.pmm.alloc 1
      some (if r.1 = 0 then s.setPmm r.2
        else s.edit a sp (mapAt ⟨r.1, 1, w, false, x, true⟩ (tableBits w) (indices va) r.2 sp.top))
    else none
  | .unmap a va => (s.space a).map fun sp =>
    -- `mmap_drop_page`; a huge page stays mapped and is not given back
    match leafAt (indices va) sp.top with
    | none => s
    | some e => if e.pages = 1 then s.edit a sp (setAt none (indices va) sp.top, s.ram.pmm.free e.phys 1) else s
  | .protect a va w x => (s.space a).map fun sp =>
    match vmCowProtectPage s.ram.pmm (leafAt (indices va) sp.top) w x with
    | none => s
    | some e => s.edit a sp (setAt (some e) (indices va) sp.top, s.ram.pmm)
  | .fault a va => (s.space a).map fun sp =>
    match vmCowWriteFault s.ram (leafAt (indices va) sp.top) with
    | (_, none, r) => { s with ram := r }
    | (_, some e, r) => { s with ram := r }.setSpace a (some { sp with top := setAt (some e) (indices va) sp.top })
  | .fork a b => (s.space a).bind fun sp =>
    if (s.space b).isSome then none
    else
      let c := vmmCopyPml4 s.ram.pmm ⟨sp.top, s.kernel⟩
      some (((s.setPmm c.pmm).setSpace b (if c.ret = 0 then none else some ⟨c.ret, c.new.user⟩)).setSpace a
        (some { sp with top := c.old.user }))
  | .framebuffer a => (s.space a).map fun sp =>
    s.edit a sp (vmmMapRange fb.pages screenVa fb.phys fb.pages s.ram.pmm sp.top)
  | .destroy a => (s.space a).bind fun sp =>
    (vmmFreeUserPml4 s.ram.pmm sp).map fun m => (s.setPmm m).setSpace a none
  | .take n => some (s.setPmm (s.ram.pmm.alloc n).2)
  | .give pa n => some (s.setPmm (s.ram.pmm.free pa n))

end Machine

/-- A fork finds a page for every table, or none at all, and leaves no page with more than 65535 references; the kernel gives
    back only pages that no address space has. -/
def Ev.Allowed (s : Machine A) : Ev A → Prop
  | .fork a _ => ∀ sp ∈ s.space a, (sp.top.tables.length < s.ram.pmm.freeCount ∨ s.ram.pmm.freeCount = 0) ∧
      s.ram.pmm.Fits sp.top.frames
  | .give pa n => ∀ a, ∀ sp ∈ s.space a, ∀ p ∈ sp.held, ¬ Pmm.Within pa n p
  | _ => True

/-- The states reached from a machine without address spaces whose framebuffer is not the allocator's. -/
inductive Reaches (fb : Screen) : Machine A → Prop
  | boot {s : Machine A} (hok : s.ram.pmm.Ok) (hfb : ∀ p, fb.Has p → s.ram.pmm.Reserved p) (hnone : ∀ a, s.space a = none) : Reaches fb s
  | step {s s' : Machine A} {e : Ev A} (h : Reaches fb s) (hall : e.Allowed s) (hs : s.step fb e = some s') : Reaches fb s'

/-- No page of the framebuffer is mapped in the address space. -/
def Space.OffScreen (fb : Screen) (sp : Space) : Prop := ∀ e ∈ sp.top.leaves, ¬ fb.Has e.phys

/-- What tearing down is to do: each page and table loses the references this address space holds of it and is free when
    none is left, and the framebuffer stays out of the allocator. -/
structure Released (fb : Screen) (m : Pmm) (sp : Space) (m' : Pmm) : Prop where
  lost : m.Lost m' [] sp.held
  owned : ∀ p ∈ sp.held, sp.held.count p ≤ m.getRef p
  screen : ∀ p, fb.Has p → p ∉ sp.held ∧ m'.Reserved p

end machine

/-! ### The loops of the teardown -/

theorem Pte.frames_one {e : Pte} (h : e.pages = 1) : e.frames = [e.phys] := by
  rw [Pte.frames, h]
  rfl

/-- What is left of a count after some references were lost. -/
theorem lost_ref {m m' : Pmm} {l : List Nat} (h : m.Lost m' [] l) (p : Nat) : m'.getRef p = m.getRef p - l.count p := by
  rw [h.ref, if_neg not_mem_nil]

/-- The assertions hold when the allocator counts at least what the table holds. -/
theorem freeEntries_spec : ∀ {m : Pmm} (t : Slots), (∀ e ∈ t.leaves, e.pages = 1) → (∀ p, t.held.count p ≤ m.getRef p) →
    ∃ m', freeEntries m t = some m' ∧ m.Lost m' [] t.held
  | m, .nil, _, _ => ⟨m, rfl, .refl m⟩
  | _, .hole rest, hpages, hcount => freeEntries_spec rest hpages hcount
  | m, .leaf e rest, hpages, hcount => by
    have hone : e.pages = 1 := hpages e mem_cons_self
    simp only [held, Pte.frames_one hone, count_append] at hcount
    have hpage := Pmm.Lost.page m e.phys
    have hpos : 0 < m.getRef e.phys := by
      have := hcount e.phys
      rw [count_singleton_self] at this
      omega
    obtain ⟨m', hm', hlost⟩ := freeEntries_spec rest (fun e' he' => hpages e' (mem_cons_of_mem _ he')) fun p => by
        have := hcount p
        rw [lost_ref hpage]
        omega
    refine ⟨m', ?_, ?_⟩
    · rw [freeEntries, if_pos hpos, hone, hm']
    · rw [held, Pte.frames_one hone]
      exact hpage.trans hlost
  | m, .table page flags sub rest, hpages, hcount => by
    simp only [held, count_cons, count_append] at hcount
    obtain ⟨m₁, hm₁, hsub⟩ := freeEntries_spec (m := m) sub (fun e he => hpages e (mem_append_left _ he))
      (fun p => by have := hcount p; omega)
    have hpage := hsub.trans (.page m₁ page)
    obtain ⟨m', hm', hrest⟩ := freeEntries_spec rest (fun e he => hpages e (mem_append_right _ he)) fun p => by
        have := hcount p
        rw [lost_ref hpage, count_append, count_singleton]
        omega
    refine ⟨m', ?_, (hpage.trans hrest).perm (.refl _) ?_⟩
    · rw [freeEntries, hm₁, bind_some, hm']
    · rw [append_assoc]
      exact perm_middle

theorem freeEntries_le : ∀ {m m' : Pmm} (t : Slots), freeEntries m t = some m' → ∀ p, m'.getRef p ≤ m.getRef p
  | _, _, .nil, h, p => by
    rw [← some.inj h]
  | _, _, .hole rest, h, p => freeEntries_le rest h p
  | m, _, .leaf e rest, h, p => by
    obtain ⟨-, h⟩ := ite_none_right_eq_some.mp h
    refine (freeEntries_le rest h p).trans ?_
    rw [(m.free_spec e.phys e.pages).1]
    split_ifs <;> omega
  | _, _, .table page _ sub rest, h, p => by
    obtain ⟨m₁, hsub, h⟩ := bind_eq_some_iff.mp h
    refine (freeEntries_le rest h p).trans ?_
    rw [(m₁.free_spec page 1).1]
    have := freeEntries_le sub hsub p
    split_ifs <;> omega

/-- A leaf without a reference stops the kernel, whatever came before it. -/
theorem freeEntries_stops {e : Pte} : ∀ {m : Pmm} (t : Slots), e ∈ t.leaves → m.getRef e.phys = 0 → freeEntries m t = none
  | _, .hole rest, he, hz => freeEntries_stops rest he hz
  | m, .leaf e' rest, he, hz => by
    rw [freeEntries]
    rcases mem_cons.mp he with rfl | he
    · rw [if_neg (by omega)]
    refine ite_eq_right_iff.mpr fun _ => freeEntries_stops rest he ?_
    rw [(m.free_spec e'.phys e'.pages).1]
    split_ifs <;> omega
  | m, .table page _ sub rest, he, hz => by
    rw [freeEntries, bind_eq_none_iff]
    intro m₁ hsub
    rcases mem_append.mp he with he | he
    · rw [freeEntries_stops sub he hz] at hsub
      cases hsub
    refine freeEntries_stops rest he ?_
    have := freeEntries_le sub hsub e.phys
    rw [(m₁.free_spec page 1).1]
    split_ifs <;> omega

theorem mem_held {p : Nat} : ∀ {t : Slots}, p ∈ t.held ↔ p ∈ t.tables ∨ ∃ e ∈ t.leaves, p ∈ e.frames
  | .nil => by simp [held, tables, leaves]
  | .hole rest => mem_held (t := rest)
  | .leaf e rest => by
    simp only [held, leaves, mem_append, mem_cons, exists_eq_or_imp, mem_held]
    tauto
  | .table page flags sub rest => by
    simp only [held, tables, leaves, mem_append, mem_cons, or_and_right, exists_or, mem_held]
    exact iff_of_eq (by ac_rfl)

end Teardown
end Orthox.Memory
