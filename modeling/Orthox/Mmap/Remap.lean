import Orthox.Mmap.Contract

/-! `mremap` (`kernel/sys_mmap.c`): a mapping shrinks, grows where it is, or moves, which is `mmap` of a new range, a copy of
    the pages and `munmap` of the old range. The protection of the first page is the one of every page made, `MREMAP_FIXED`
    is looked at only where the mapping moves, and what `munmap` says is not. -/

namespace Orthox.Mmap
open Memory Function Option Finset

/-- The arguments of `sys_mremap`. -/
structure RemapArgs where
  oldAddr : BitVec 64
  oldLen : BitVec 64
  newLen : BitVec 64
  flags : BitVec 32
  newAddr : BitVec 64

namespace RemapArgs
variable (a : RemapArgs)

/-- `MREMAP_MAYMOVE` and `MREMAP_FIXED` -/
def maymove : Bool := a.flags &&& 1 ≠ 0
def fixed : Bool := a.flags &&& 2 ≠ 0

def oldBase : Nat := a.oldAddr.toNat
def oldSize : Nat := Sys.mmapAlignUp a.oldLen.toNat
def newSize : Nat := Sys.mmapAlignUp a.newLen.toNat

/-- Where the old range ends, and how much is to be added. -/
def finish : Nat := (a.oldBase + a.oldSize) % 2 ^ 64
def grow : Nat := a.newSize - a.oldSize

/-- The call of `sys_mmap`. -/
def mmapArgs (writable executable : Bool) : Sys.Args where
  addr := if a.fixed then a.newAddr else 0
  length := BitVec.ofNat 64 a.newSize
  prot := 1 ||| (if writable then 2 else 0) ||| (if executable then 4 else 0)
  flags := 0x22 ||| (if a.fixed then 0x10 else 0)
  fd := -1
  offset := 0

end RemapArgs

/-- The page under a leaf; a large leaf has several. -/
def frame (e : Pte) (p : Nat) : Nat := e.phys + p % e.pages

namespace Sys
variable {A : Arch} {s : Sys A} {a : RemapArgs}

/-! ### The call -/

/-- `arch_vm_is_user_page` -/
def isUserPage (s : Sys A) (addr : Nat) : Bool :=
  (s.space.leaf (A.page (addr % 2 ^ 64))).any fun e => e.user && e.pages = 1

/-- `vm_cow_get_page_prot`: whether the page can be written, or could before it was shared, and executed. -/
def vmCowGetPageProt (s : Sys A) (addr : Nat) : Option (Bool × Bool) :=
  ((s.space.leaf (A.page (addr % 2 ^ 64))).filter fun e => e.pages = 1).map fun e =>
    (e.writable || e.user && e.cow, e.executable)

/-- `arch_vm_get_phys` -/
def archVmGetPhys (s : Sys A) (addr : Nat) : Option Nat :=
  (s.space.leaf (A.page (addr % 2 ^ 64))).map fun e => frame e (A.page (addr % 2 ^ 64))

/-- One turn of the copy. -/
def copyPage (s : Sys A) (src dst : Nat) : Sys A :=
  match s.archVmGetPhys src, s.archVmGetPhys dst with
  | some p, some q => { s with ram := { s.ram with mem := Function.update s.ram.mem q (s.ram.mem p) } }
  | _, _ => s

def copyPages (s : Sys A) (src dst n : Nat) : Sys A :=
  (List.range n).foldl (fun s i => s.copyPage (src + i * 4096) (dst + i * 4096)) s

/-- Whether the mapping can grow where it is. -/
def inPlace (s : Sys A) (a : RemapArgs) : Bool :=
  A.mmapRangeValid a.finish a.grow && s.mmapRangeUnmapped a.finish a.grow

/-- The last part of `sys_mremap`: a new range, the copy, and the old range is given up. -/
def move (s : Sys A) (a : RemapArgs) (writable executable : Bool) : Option (Int × Sys A) :=
  match sysMmap noFiles s (a.mmapArgs writable executable) with
  | none => none
  | some (r, s) =>
    if -4096 < r ∧ r < 0 then some (r, s)
    else
      let s := s.copyPages a.oldBase r.toNat (min a.oldSize a.newSize / 4096)
      some (r, (s.sysMunmap a.oldBase a.oldSize).2)

/-- The checks of `sys_mremap`. -/
def remapRefused (s : Sys A) (a : RemapArgs) : Bool :=
  a.oldBase = 0 || a.oldLen = 0 || a.newLen = 0 || a.oldBase % 4096 ≠ 0 || a.flags &&& ~~~3 ≠ 0 ||
    (a.fixed && !a.maymove) || !((List.range (a.oldSize / 4096)).all fun i => s.isUserPage (a.oldBase + i * 4096))

/-- `sys_mremap`: the address or an error, negated; `none` when the kernel goes no further. -/
def sysMremap (s : Sys A) (a : RemapArgs) : Option (Int × Sys A) :=
  if s.remapRefused a then some (-einval, s)
  else
    let prot := (s.vmCowGetPageProt a.oldBase).getD (true, false)
    if a.newSize = a.oldSize then some (a.oldBase, s)
    else if a.newSize < a.oldSize then
      some (a.oldBase, s.dropPages (a.oldBase + a.newSize) ((a.oldSize - a.newSize) / 4096))
    else if s.inPlace a then
      match s.mapPages (fun _ _ => 0) prot.1 prot.2 a.finish (a.grow / 4096) 0 with
      | none => none
      | some (false, s) => some (-enomem, s)
      | some (true, s) => some (a.oldBase, s)
    else if a.maymove then s.move a prot.1 prot.2
    else some (-enomem, s)

/-! ### What it is for -/

/-- The pages of a length. -/
def pagesOf (len : BitVec 64) : Nat := (len.toNat + 4095) / 4096

/-- The byte at an address, if there is a page. -/
def read (s : Sys A) (addr : Nat) : Option (BitVec 8) :=
  (s.space.leaf (A.page addr)).map fun e => s.ram.mem (frame e (A.page addr)) (addr % 4096)

/-- What may be done with a page. A page that is shared until it is written may be written. -/
def prot (e : Pte) : Bool × Bool × Bool := (e.writable || e.cow, e.executable, e.user)

/-- The mapping is at the address now, as long as asked for, with the bytes and protections it had and zeros behind them; the
    address is the one asked for, if one was; the mapping is nowhere else; and all other pages are as they were. -/
structure Remapped (s : Sys A) (a : RemapArgs) (addr : Nat) (s' : Sys A) : Prop where
  bytes : ∀ j < min a.oldLen.toNat a.newLen.toNat, ∃ v, s.read (a.oldBase + j) = some v ∧ s'.read (addr + j) = some v
  prot : ∀ i < min (pagesOf a.oldLen) (pagesOf a.newLen),
    (s'.space.leaf (A.page (addr + i * 4096))).map prot = (s.space.leaf (A.page (a.oldBase + i * 4096))).map prot
  added : ∀ j, pagesOf a.oldLen * 4096 ≤ j → j < pagesOf a.newLen * 4096 → s'.read (addr + j) = some 0
  fixed : a.fixed = true → addr = a.newAddr.toNat
  old : addr ≠ a.oldBase → ∀ i < pagesOf a.oldLen, s'.space.leaf (A.page (a.oldBase + i * 4096)) = none
  others : ∀ p, (∀ i < pagesOf a.oldLen, p ≠ A.page (a.oldBase + i * 4096)) →
    (∀ i < pagesOf a.newLen, p ≠ A.page (addr + i * 4096)) →
    (a.fixed = true → ∀ i < pagesOf a.newLen, p ≠ A.page (a.newAddr.toNat + i * 4096)) →
    s'.space.leaf p = s.space.leaf p ∧
      ∀ e, s.space.leaf p = some e → e.user = true → s'.ram.mem (frame e p) = s.ram.mem (frame e p)

/-- The call comes back, with the mapping as asked for, or failed with nothing changed. -/
def Preserves (s : Sys A) (a : RemapArgs) : Prop :=
  ∃ r s', s.sysMremap a = some (r, s') ∧ (0 ≤ r → Remapped s a r.toNat s') ∧ (r < 0 → Unchanged s s')

/-- The call is one that moves the mapping. -/
def Moves (s : Sys A) (a : RemapArgs) : Prop := a.oldSize < a.newSize ∧ s.inPlace a = false ∧ a.maymove = true

/-- The call of `sys_mmap` it then makes. -/
def mmapCall (s : Sys A) (a : RemapArgs) : Args :=
  a.mmapArgs ((s.vmCowGetPageProt a.oldBase).getD (true, false)).1 ((s.vmCowGetPageProt a.oldBase).getD (true, false)).2

/-- A state of the system as it is left by the other calls: the user's pages are in use, each is mapped once, and the window
    has no others. -/
structure Proper (s : Sys A) : Prop where
  ok : s.ram.pmm.Ok
  held : ∀ {p e}, s.space.leaf p = some e → e.user = true → ¬ s.ram.pmm.Free (frame e p)
  apart : ∀ {p q e e'}, s.space.leaf p = some e → e.user = true → s.space.leaf q = some e' → e'.user = true →
    frame e p = frame e' q → p = q
  window : ∀ {p e}, A.InWindow p → s.space.leaf p = some e → e.user = true

/-- What a call relies on that moves the mapping. With pages for everything: that the old range is one of the window and its
    pages have one protection, and that a fixed address does not round up to 0 and is apart from the old range. Without: that
    nothing was where it maps, and no table is made before it shows. -/
structure Movable (s : Sys A) (a : RemapArgs) : Prop where
  window : s.needs (s.mmapCall a) (a.newSize / 4096) ≤ s.supply (s.mmapCall a) → A.mmapRangeValid a.oldBase a.oldSize = true
  uniform : s.needs (s.mmapCall a) (a.newSize / 4096) ≤ s.supply (s.mmapCall a) →
    ∀ i < a.oldSize / 4096, s.vmCowGetPageProt (a.oldBase + i * 4096) = s.vmCowGetPageProt a.oldBase
  fixed : s.needs (s.mmapCall a) (a.newSize / 4096) ≤ s.supply (s.mmapCall a) → a.fixed = true →
    mmapAlignUp a.newAddr.toNat ≠ 0 ∧
      (a.oldBase + a.oldSize ≤ a.newAddr.toNat ∨ a.newAddr.toNat + a.newSize ≤ a.oldBase)
  short : ¬ s.needs (s.mmapCall a) (a.newSize / 4096) ≤ s.supply (s.mmapCall a) →
    s.mmapRangeUnmapped (s.place (s.mmapCall a)) a.newSize = true ∧
      ∃ i < a.newSize / 4096, s.supply (s.mmapCall a) = s.needs (s.mmapCall a) i ∧ s.needs (s.mmapCall a) i = i

/-- What a call relies on: lengths that can be rounded up and an old range the tables reach; that a fixed address is the old
    one where the mapping stays; pages enough, or too few before a table is made, where it grows; and where it moves as above. -/
structure Regular (s : Sys A) (a : RemapArgs) : Prop where
  oldLen : a.oldLen.toNat ≤ 2 ^ 64 - 4096
  newLen : a.newLen.toNat ≤ 2 ^ 64 - 4096
  reach : a.oldBase + a.oldSize ≤ 4096 * 512 ^ (A.levels + 1)
  stays : a.newSize ≤ a.oldSize → a.fixed = true → a.newAddr = a.oldAddr
  grows : a.oldSize < a.newSize → s.inPlace a = true → s.Provided (a.finish / 4096) (a.grow / 4096)
  inPlace : a.oldSize < a.newSize → s.inPlace a = true →
    need A.levels (a.grow / 4096) s.space.table (a.finish / 4096) ≤ s.ram.pmm.freeCount → a.fixed = true → a.newAddr = a.oldAddr
  moves : s.Moves a → s.Placed (s.mmapCall a) → s.Movable a

/-! ### Pages and bytes -/

variable {addr p n : Nat} {s' s₀ : Sys A} {e : Pte} {f : Nat → Nat} {w x : Bool} {b : Args}

theorem pagesOf_eq {len : BitVec 64} (h : len.toNat ≤ 2 ^ 64 - 4096) : mmapAlignUp len.toNat = pagesOf len * 4096 := by
  rw [mmapAlignUp, pagesOf, Nat.mod_eq_of_lt (by omega)]

theorem Regular.sizes (h : s.Regular a) :
    a.oldSize = pagesOf a.oldLen * 4096 ∧ a.newSize = pagesOf a.newLen * 4096 ∧ a.oldBase + a.oldSize ≤ 4096 * 512 ^ (A.levels + 1) :=
  ⟨pagesOf_eq h.oldLen, pagesOf_eq h.newLen, h.reach⟩

/-- A byte is a byte of its page. -/
theorem read_add {j : Nat} (haddr : addr % 4096 = 0) (hreach : addr + j < 4096 * 512 ^ (A.levels + 1)) :
    s.read (addr + j) = (s.space.leaf (addr / 4096 + j / 4096)).map fun e =>
      s.ram.mem (frame e (addr / 4096 + j / 4096)) (j % 4096) := by
  have hpage : A.page (addr + j) = addr / 4096 + j / 4096 := by
    rw [Arch.page, Nat.mod_eq_of_lt (Nat.div_lt_of_lt_mul hreach)]
    omega
  rw [read, hpage, show (addr + j) % 4096 = j % 4096 by omega]

/-- The pages of the old range are the user's, and small. -/
def Owned (s : Sys A) (a : RemapArgs) : Prop :=
  ∀ i < pagesOf a.oldLen, ∃ e, s.space.leaf (a.oldBase / 4096 + i) = some e ∧ e.user = true ∧ e.pages = 1

/-- A page is carried: the page there now has the bytes and the protection of the one before. -/
def Carried (s s' : Sys A) (p q : Nat) : Prop :=
  ∃ e e', s.space.leaf p = some e ∧ s'.space.leaf q = some e' ∧ s'.ram.mem (frame e' q) = s.ram.mem (frame e p) ∧
    Sys.prot e' = Sys.prot e

theorem frame_newLeaf (f q : Nat) (w x : Bool) : frame (newLeaf f w x) q = f := by
  rw [frame, newLeaf, Nat.mod_one, add_zero]

/-- A page is zero. -/
def Zeroed (s' : Sys A) (q : Nat) : Prop := ∃ e, s'.space.leaf q = some e ∧ ∀ j, s'.ram.mem (frame e q) j = 0

/-- The call as a whole, from what became of each page. -/
theorem Remapped.of_pages (hold : a.oldBase % 4096 = 0) (haddr : addr % 4096 = 0)
    (hreach : a.oldBase + pagesOf a.oldLen * 4096 ≤ 4096 * 512 ^ (A.levels + 1))
    (hreach' : addr + pagesOf a.newLen * 4096 ≤ 4096 * 512 ^ (A.levels + 1))
    (hcarried : ∀ i < min (pagesOf a.oldLen) (pagesOf a.newLen), Carried s s' (a.oldBase / 4096 + i) (addr / 4096 + i))
    (hzero : ∀ i, pagesOf a.oldLen ≤ i → i < pagesOf a.newLen → Zeroed s' (addr / 4096 + i))
    (hfixed : a.fixed → addr = a.newAddr.toNat)
    (hgone : addr ≠ a.oldBase → ∀ i < pagesOf a.oldLen, s'.space.leaf (a.oldBase / 4096 + i) = none)
    (hothers : ∀ p, (∀ i < pagesOf a.oldLen, p ≠ a.oldBase / 4096 + i) → (∀ i < pagesOf a.newLen, p ≠ addr / 4096 + i) →
      s'.space.leaf p = s.space.leaf p ∧ ∀ e, s.space.leaf p = some e → e.user → s'.ram.mem (frame e p) = s.ram.mem (frame e p)) :
    Remapped s a addr s' := by
  have hpage : ∀ i < pagesOf a.oldLen, A.page (a.oldBase + i * 4096) = a.oldBase / 4096 + i := fun i hi =>
    (page_add_of_reach (by omega)).1
  have hpage' : ∀ i < pagesOf a.newLen, A.page (addr + i * 4096) = addr / 4096 + i := fun i hi =>
    (page_add_of_reach (by omega)).1
  have hlen : ∀ {len : BitVec 64} {j : Nat}, j < len.toNat → j / 4096 < pagesOf len ∧ j < pagesOf len * 4096 := by
    intro len j hj
    rw [pagesOf]
    omega
  refine ⟨fun j hj => ?_, fun i hi => ?_, fun j hlow hj => ?_, hfixed, fun hne i hi => ?_, fun p hp hp' _ => ?_⟩
  · obtain ⟨hj₁, hj₂⟩ := lt_min_iff.1 hj
    obtain ⟨e, e', he, he', hmem, -⟩ := hcarried (j / 4096) (lt_min (hlen hj₁).1 (hlen hj₂).1)
    refine ⟨s.ram.mem (frame e (a.oldBase / 4096 + j / 4096)) (j % 4096), ?_, ?_⟩
    · rw [read_add hold (by have := (hlen hj₁).2; omega), he]
      rfl
    · rw [read_add haddr (by have := (hlen hj₂).2; omega), he', ← hmem]
      rfl
  · obtain ⟨e, e', he, he', -, hprot⟩ := hcarried i hi
    rw [hpage i (by omega), hpage' i (by omega), he, he', map_some, map_some, hprot]
  · obtain ⟨e, he, hzero⟩ := hzero (j / 4096) (by omega) (by omega)
    rw [read_add haddr (by omega), he, map_some, hzero]
  · rw [hpage i hi]
    exact hgone hne i hi
  · exact hothers p (fun i hi => hpage i hi ▸ hp i hi) (fun i hi => hpage' i hi ▸ hp' i hi)

/-! ### The mapping stays where it is -/

theorem owned_of_checks (hreg : s.Regular a) (hno : s.remapRefused a = false) : a.oldBase % 4096 = 0 ∧ s.Owned a := by
  obtain ⟨hsize, -, hreach⟩ := hreg.sizes
  simp only [remapRefused, Bool.or_eq_false_iff, decide_eq_false_iff_not, not_not, Bool.not_eq_false', List.all_eq_true,
    List.mem_range] at hno
  obtain ⟨⟨⟨⟨-, hmod⟩, -⟩, -⟩, huser⟩ := hno
  refine ⟨hmod, fun i hi => ?_⟩
  have := huser i (by omega)
  rw [isUserPage, (page_add_of_reach (by omega)).2, any_eq_true] at this
  obtain ⟨e, he, hcheck⟩ := this
  obtain ⟨huser, hone⟩ := Bool.and_eq_true_iff.1 hcheck
  exact ⟨e, he, huser, of_decide_eq_true hone⟩

section
variable (hp : s.Proper) (hreg : s.Regular a)
include hp hreg

/-- The mapping is where it was: the pages it keeps are untouched. -/
theorem Remapped.stay (hfixed : a.fixed → a.newAddr = a.oldAddr)
    (hold : a.oldBase % 4096 = 0) (hown : s.Owned a) (hreach' : a.oldBase + pagesOf a.newLen * 4096 ≤ 4096 * 512 ^ (A.levels + 1))
    (hkept : ∀ p, p < a.oldBase / 4096 + min (pagesOf a.oldLen) (pagesOf a.newLen) ∨
      a.oldBase / 4096 + max (pagesOf a.oldLen) (pagesOf a.newLen) ≤ p → s'.space.leaf p = s.space.leaf p)
    (hmem : ∀ q, ¬ s.ram.pmm.Free q → s'.ram.mem q = s.ram.mem q)
    (hzero : ∀ i, pagesOf a.oldLen ≤ i → i < pagesOf a.newLen → Zeroed s' (a.oldBase / 4096 + i)) :
    Remapped s a a.oldBase s' := by
  have hsize : a.oldSize = pagesOf a.oldLen * 4096 := pagesOf_eq hreg.oldLen
  refine .of_pages hold hold (hsize ▸ hreg.reach) hreach' (fun i hi => ?_) hzero (fun h => ?_) (fun h => absurd rfl h)
    fun p hout hout' => ⟨hkept p ?_, fun e he huser => hmem _ (hp.held he huser)⟩
  · obtain ⟨e, he, huser, -⟩ := hown i (by omega)
    exact ⟨e, e, he, (hkept _ (.inl (by omega))).trans he, hmem _ (hp.held he huser), rfl⟩
  · rw [hfixed h]
    rfl
  · rcases lt_or_ge p (a.oldBase / 4096) with hlt | hge
    · exact .inl (by omega)
    refine .inr (Nat.le_of_not_lt fun hlt => ?_)
    rcases lt_or_ge (p - a.oldBase / 4096) (pagesOf a.oldLen) with h | h
    · exact hout _ h (by omega)
    · exact hout' (p - a.oldBase / 4096) (by omega) (by omega)

section
variable (hold : a.oldBase % 4096 = 0) (hown : s.Owned a)
include hold hown

/-- The mapping shrinks. -/
theorem shrink_spec (hlt : a.newSize < a.oldSize) :
    Remapped s a a.oldBase (s.dropPages (a.oldBase + a.newSize) ((a.oldSize - a.newSize) / 4096)) := by
  obtain ⟨hsize, hsize', hreach⟩ := hreg.sizes
  have hcount : (a.oldSize - a.newSize) / 4096 = pagesOf a.oldLen - pagesOf a.newLen := by omega
  have hclear : Cleared s (a.oldBase / 4096 + pagesOf a.newLen) (pagesOf a.oldLen - pagesOf a.newLen)
      (s.dropPages (a.oldBase + a.newSize) ((a.oldSize - a.newSize) / 4096)) := by
    rw [hcount]
    refine dropPages_cleared hp.ok (fun i hi => ?_) fun i hi e he => ?_
    · rw [(page_add_of_reach (by omega)).2]
      omega
    · obtain ⟨e', he', -, hone⟩ := hown (pagesOf a.newLen + i) (by omega)
      rw [← add_assoc, he] at he'
      exact some.inj he' ▸ hone
  refine .stay hp hreg (hreg.stays hlt.le) hold hown (by omega) (fun p hkept => ?_) (fun q _ => by rw [hclear.mem])
    fun i hi hi' => ?_
  · rw [hclear.leaf, if_neg (by omega)]
  · omega

/-- The mapping grows where it is. -/
theorem grow_spec (hlt : a.oldSize < a.newSize) (hin : s.inPlace a) (w x : Bool) :
    ∃ ok s', s.mapPages (fun _ _ => 0) w x a.finish (a.grow / 4096) 0 = some (ok, s') ∧
      if ok then Remapped s a a.oldBase s' else Unchanged s s' := by
  obtain ⟨hsize, hsize', hreach⟩ := hreg.sizes
  have hbound := reach_le A
  have hfinish : a.finish = a.oldBase + pagesOf a.oldLen * 4096 := by
    rw [RemapArgs.finish, hsize, Nat.mod_eq_of_lt (by omega)]
  have hgrow : a.grow = (pagesOf a.newLen - pagesOf a.oldLen) * 4096 := by
    rw [RemapArgs.grow]
    omega
  obtain ⟨hvalid, hfree⟩ := Bool.and_eq_true_iff.1 hin
  obtain ⟨-, -, hend⟩ := mmapRangeValid_le hvalid ((Nat.sub_le ..).trans_lt (mmapAlignUp_lt _))
  have htop := A.reach
  have hpage : ∀ i < a.grow / 4096, A.page (a.finish + i * 4096) = a.finish / 4096 + i ∧
      A.page ((a.finish + i * 4096) % 2 ^ 64) = a.finish / 4096 + i := fun i hi => page_add (by omega)
  rcases hreg.grows hlt hin with hneed | hshort
  · obtain ⟨s', f, T, hrun, hmap⟩ := mapPages_mapped hp.ok (fun i hi => (hpage i hi).1) hneed
    refine ⟨true, s', hrun, .stay hp hreg (hreg.inPlace hlt hin hneed) hold hown (by omega) (fun p hkept => ?_)
      hmap.others fun i hi hi' => ?_⟩
    · rw [hmap.leaf, if_neg (by omega)]
    · refine ⟨newLeaf (f (i - pagesOf a.oldLen)) w x, ?_, fun j => ?_⟩
      · rw [hmap.leaf, if_pos (by omega)]
        congr 3
        omega
      · rw [frame_newLeaf, hmap.mem _ (by omega)]
  · obtain ⟨s', hrun, hsame⟩ := mapPages_short hp.ok (leaf_of_unmapped hfree hend) hpage hshort
    exact ⟨false, s', hrun, hsame⟩

end

end

/-! ### The mapping moves -/

theorem copyPages_succ (s : Sys A) (src dst n : Nat) :
    s.copyPages src dst (n + 1) = (s.copyPages src dst n).copyPage (src + n * 4096) (dst + n * 4096) := by
  rw [copyPages, List.range_succ, List.foldl_append]
  rfl

/-- The copy: the pages `f` have the contents of the pages `g`, which are others, and nothing else changed. -/
theorem copyPages_spec {src dst : Nat} {g : Nat → Nat} (hsrc : ∀ i < n, s.archVmGetPhys (src + i * 4096) = some (g i))
    (hdst : ∀ i < n, s.archVmGetPhys (dst + i * 4096) = some (f i)) (hinj : ∀ i < n, ∀ j < n, f i = f j → i = j)
    (hapart : ∀ i < n, ∀ j < n, g i ≠ f j) :
    (s.copyPages src dst n).space = s.space ∧ (s.copyPages src dst n).ram.pmm = s.ram.pmm ∧
      (∀ i < n, (s.copyPages src dst n).ram.mem (f i) = s.ram.mem (g i)) ∧
      ∀ q, (∀ i < n, q ≠ f i) → (s.copyPages src dst n).ram.mem q = s.ram.mem q := by
  induction n with
  | zero => exact ⟨rfl, rfl, fun i hi => absurd hi (Nat.not_lt_zero i), fun _ _ => rfl⟩
  | succ n ih =>
    obtain ⟨hspace, hpmm, hcopied, hother⟩ := ih (fun i hi => hsrc i (by omega)) (fun i hi => hdst i (by omega))
      (fun i hi j hj => hinj i (by omega) j (by omega)) (fun i hi j hj => hapart i (by omega) j (by omega))
    have hphys : ∀ addr, (s.copyPages src dst n).archVmGetPhys addr = s.archVmGetPhys addr := by
      intro addr
      rw [archVmGetPhys, hspace, archVmGetPhys]
    have hread : (s.copyPages src dst n).ram.mem (g n) = s.ram.mem (g n) := hother _ fun i hi => hapart n (by omega) i (by omega)
    rw [copyPages_succ, copyPage, hphys, hphys, hsrc n (by omega), hdst n (by omega)]
    dsimp only
    rw [hread]
    refine ⟨hspace, hpmm, fun i hi => ?_, fun q hq => ?_⟩
    · rcases Nat.lt_succ_iff_lt_or_eq.1 hi with hi | rfl
      · rw [update_of_ne (fun h => absurd (hinj i (by omega) n (by omega) h) (by omega)), hcopied i hi]
      · rw [update_self]
    · rw [update_of_ne (hq n (by omega)), hother q fun i hi => hq i (by omega)]

/-- The call of `sys_mmap`, read back. -/
theorem mmapArgs_spec (a : RemapArgs) (w x : Bool) : (a.mmapArgs w x).size = a.newSize ∧
    (a.mmapArgs w x).writable = w ∧ (a.mmapArgs w x).executable = x ∧ (a.mmapArgs w x).anonymous ∧
    (a.mmapArgs w x).fixed = a.fixed := by
  refine ⟨?_, ?_, ?_, ?_, ?_⟩
  · have hlt : a.newSize < 2 ^ 64 := mmapAlignUp_lt _
    have hmod : a.newSize % 4096 = 0 := mmapAlignUp_mod _
    rw [Args.size, RemapArgs.mmapArgs, BitVec.toNat_ofNat, mmapAlignUp]
    omega
  · cases w <;> cases x <;> simp [Args.writable, RemapArgs.mmapArgs]
  · cases w <;> cases x <;> simp [Args.executable, RemapArgs.mmapArgs]
  · cases hf : a.fixed <;> simp [Args.anonymous, RemapArgs.mmapArgs, hf]
  · cases hf : a.fixed <;> simp [Args.fixed, RemapArgs.mmapArgs, hf]

/-- A page with the protection of the first one gets it back. -/
theorem prot_newLeaf {q : Nat} (hp : A.page (addr % 2 ^ 64) = p) (he : s.space.leaf p = some e)
    (huser : e.user) (hone : e.pages = 1) (h : (s.vmCowGetPageProt addr).getD (true, false) = (w, x)) :
    prot (newLeaf q w x) = prot e := by
  rw [vmCowGetPageProt, hp, he, filter_some, if_pos (decide_eq_true hone), map_some, getD_some] at h
  obtain ⟨hw, hx⟩ := Prod.mk.inj h
  rw [prot, prot, ← hw, ← hx, huser]
  simp [newLeaf]

/-- A user's page that is not dropped stays in use. -/
theorem Proper.kept (hp : s.Proper) {p₀ : Nat} (hclear : Cleared s p₀ n s₀)
    (hwindow : ∀ q, p₀ ≤ q ∧ q < p₀ + n → A.InWindow q) (he : s.space.leaf p = some e) (huser : e.user)
    (hout : ¬ (p₀ ≤ p ∧ p < p₀ + n)) : ¬ s₀.ram.pmm.Free (frame e p) := by
  intro hfree
  rcases hclear.free _ hfree with hfree | ⟨q, e', hin, he', heq⟩
  · exact hp.held he huser hfree
  have hframe : frame e' q = e'.phys := by
    rw [frame, s.space.small (hwindow q hin) he', Nat.mod_one, add_zero]
  have := hp.apart he huser he' (hp.window (hwindow q hin) he') (heq.trans hframe.symm)
  exact hout (this ▸ hin)

/-- The pages of the new range after the copy: the first have the contents of the old pages, the others are zero, and no page
    that was in use has changed. -/
theorem copied_spec {s₁ : Sys A} {o p₁ m : Nat} {src dst : Nat} {e : Nat → Pte} {T : Finset Nat}
    (hmap : Mapping s₀ (fun _ _ => 0) w x p₁ f T 0 m s₁) (hle : n ≤ m) (hleaf : ∀ i < n, s₁.space.leaf (o + i) = some (e i))
    (hsrc : ∀ i < n, A.page ((src + i * 4096) % 2 ^ 64) = o + i) (hdst : ∀ i < m, A.page ((dst + i * 4096) % 2 ^ 64) = p₁ + i)
    (hused : ∀ i < n, ¬ s₀.ram.pmm.Free (frame (e i) (o + i))) :
    (s₁.copyPages src dst n).space = s₁.space ∧ (s₁.copyPages src dst n).ram.pmm.Ok ∧
      (∀ i < n, (s₁.copyPages src dst n).ram.mem (f i) = s₀.ram.mem (frame (e i) (o + i))) ∧
      (∀ i, n ≤ i → i < m → (s₁.copyPages src dst n).ram.mem (f i) = fun _ => 0) ∧
      ∀ q, ¬ s₀.ram.pmm.Free q → (s₁.copyPages src dst n).ram.mem q = s₀.ram.mem q := by
  have hheld : ∀ q, ¬ s₀.ram.pmm.Free q → ∀ i < m, q ≠ f i := by
    rintro q hq i hi rfl
    exact hq (hmap.takes.fresh _ (mem_union_left _ (mem_image_of_mem f (mem_Ico.2 ⟨Nat.zero_le i, hi⟩))))
  have hfrom : ∀ i < n, s₁.archVmGetPhys (src + i * 4096) = some (frame (e i) (o + i)) := by
    intro i hi
    rw [archVmGetPhys, hsrc i hi, hleaf i hi]
    rfl
  have hinto : ∀ i < n, s₁.archVmGetPhys (dst + i * 4096) = some (f i) := by
    intro i hi
    rw [archVmGetPhys, hdst i (by omega), hmap.leaf, if_pos (by omega), Nat.add_sub_cancel_left, map_some, frame_newLeaf]
  obtain ⟨hspace, hpmm, hcopied, hother⟩ := copyPages_spec hfrom hinto
    (fun i hi j hj => hmap.inj i (by omega) j (by omega)) fun i hi j hj => hheld _ (hused i hi) j (by omega)
  refine ⟨hspace, hpmm ▸ hmap.takes.ok, fun i hi => ?_, fun i hi hi' => ?_, fun q hq => ?_⟩
  · rw [hcopied i hi, hmap.others _ (hused i hi)]
  · rw [hother, hmap.mem i hi']
    intro k hk heq
    have := hmap.inj i hi' k (by omega) heq
    omega
  · rw [hother q fun i hi => hheld q hq i (by omega), hmap.others q hq]

/-- The mapping after the new range was made, the pages were copied and the old range was given up. -/
theorem moved_spec (hp : s.Proper) (hreg : s.Regular a) (hlt : a.oldSize < a.newSize) (hold : a.oldBase % 4096 = 0)
    (hown : s.Owned a) (hvalid : A.mmapRangeValid a.oldBase a.oldSize)
    (huniform : ∀ i < a.oldSize / 4096, s.vmCowGetPageProt (a.oldBase + i * 4096) = s.vmCowGetPageProt a.oldBase)
    (haligned : addr % 4096 = 0) (hlow : A.base ≤ addr) (hhigh : addr + a.newSize ≤ A.top)
    (hfixed : a.fixed → addr = a.newAddr.toNat)
    (hapart : ∀ i < pagesOf a.oldLen, ∀ j < pagesOf a.newLen, a.oldBase / 4096 + i ≠ addr / 4096 + j) {s₁ : Sys A}
    (hclear₀ : Cleared s (addr / 4096) (pagesOf a.newLen) s₀)
    (hprot : (s.vmCowGetPageProt a.oldBase).getD (true, false) = (w, x)) {T : Finset Nat}
    (hmap : Mapping s₀ (fun _ _ => 0) w x (addr / 4096) f T 0 (pagesOf a.newLen) s₁) :
    Remapped s a addr ((s₁.copyPages a.oldBase addr (min a.oldSize a.newSize / 4096)).sysMunmap a.oldBase a.oldSize).2 := by
  obtain ⟨hsize, hsize', hreach⟩ := hreg.sizes
  have hreachtop := A.reach
  have hbound := reach_le A
  have hcount : min a.oldSize a.newSize / 4096 = pagesOf a.oldLen := by omega
  have hwindow : ∀ q, addr / 4096 ≤ q ∧ q < addr / 4096 + pagesOf a.newLen → A.InWindow q := fun q hq => ⟨by omega, by omega⟩
  -- the old pages, of which none is in the new range
  have : Nonempty Pte := ⟨newLeaf 0 w x⟩
  choose! e he huser hone using hown
  have hout : ∀ i < pagesOf a.oldLen, ¬ (addr / 4096 ≤ a.oldBase / 4096 + i ∧
      a.oldBase / 4096 + i < addr / 4096 + pagesOf a.newLen) := by
    rintro i hi ⟨h₁, h₂⟩
    exact hapart i hi (a.oldBase / 4096 + i - addr / 4096) (by omega) (by omega)
  have hleaf₁ : ∀ i < pagesOf a.oldLen, s₁.space.leaf (a.oldBase / 4096 + i) = some (e i) := by
    intro i hi
    rw [hmap.leaf, add_zero, if_neg (hout i hi), hclear₀.leaf, if_neg (hout i hi), he i hi]
  have hfrom : ∀ i < pagesOf a.oldLen, A.page ((a.oldBase + i * 4096) % 2 ^ 64) = a.oldBase / 4096 + i := fun i hi =>
    (page_add_of_reach (by omega)).2
  have hinto : ∀ i < pagesOf a.newLen, A.page ((addr + i * 4096) % 2 ^ 64) = addr / 4096 + i := fun i hi =>
    (page_add_of_reach (by omega)).2
  obtain ⟨hspace, hok, hcopied, hzero, hmem⟩ := copied_spec hmap (by omega) hleaf₁ hfrom hinto
    fun i hi => hp.kept hclear₀ hwindow (he i hi) (huser i hi) (hout i hi)
  obtain ⟨s₂, hs₂⟩ : ∃ s₂, s₂ = s₁.copyPages a.oldBase addr (pagesOf a.oldLen) := ⟨_, rfl⟩
  rw [← hs₂] at hspace hok hcopied hzero hmem
  have hclear : Cleared s₂ (a.oldBase / 4096) (pagesOf a.oldLen) (s₂.dropPages a.oldBase (pagesOf a.oldLen)) := by
    refine dropPages_cleared hok (fun i hi => (page_add_of_reach (by omega)).2) fun i hi e' he' => ?_
    rw [hspace, hleaf₁ i hi] at he'
    exact some.inj he' ▸ hone i hi
  have hmunmap : ((s₁.copyPages a.oldBase addr (min a.oldSize a.newSize / 4096)).sysMunmap a.oldBase a.oldSize).2 =
      s₂.dropPages a.oldBase (pagesOf a.oldLen) := by
    have hround : mmapAlignUp a.oldSize = a.oldSize := by
      rw [mmapAlignUp]
      omega
    have hpos := (mmapRangeValid_iff.1 hvalid).1
    rw [sysMunmap, if_neg (by omega), hround, if_pos hvalid, hcount, hsize, Nat.mul_div_cancel _ (by decide), ← hs₂]
  have hnew : ∀ i < pagesOf a.newLen, (s₂.dropPages a.oldBase (pagesOf a.oldLen)).space.leaf (addr / 4096 + i) =
      some (newLeaf (f i) w x) := by
    intro i hi
    rw [hclear.leaf, if_neg, hspace, hmap.leaf, if_pos (by omega), Nat.add_sub_cancel_left]
    rintro ⟨h₁, h₂⟩
    exact hapart (addr / 4096 + i - a.oldBase / 4096) (by omega) i hi (by omega)
  rw [hmunmap]
  refine .of_pages hold haligned (hsize ▸ hreach) (by omega) (fun i hi => ?_) (fun i hi hi' => ?_) hfixed
    (fun _ i hi => ?_) fun p hold' hnew' => ?_
  · have hi₁ : i < pagesOf a.oldLen := by omega
    refine ⟨e i, newLeaf (f i) w x, he i hi₁, hnew i (by omega), ?_, ?_⟩
    · rw [frame_newLeaf, hclear.mem, hcopied i hi₁, hclear₀.mem]
    · have hsame := huniform i (by omega)
      exact prot_newLeaf (page_add_of_reach (by omega)).2 (he i hi₁) (huser i hi₁) (hone i hi₁) (hsame ▸ hprot)
  · refine ⟨newLeaf (f i) w x, hnew i hi', fun j => ?_⟩
    rw [frame_newLeaf, hclear.mem, hzero i hi hi']
  · rw [hclear.leaf, if_pos (by omega)]
  · have hp' : ¬ (addr / 4096 ≤ p ∧ p < addr / 4096 + pagesOf a.newLen) := by
      rintro ⟨h₁, h₂⟩
      exact hnew' (p - addr / 4096) (by omega) (by omega)
    constructor
    · rw [hclear.leaf, if_neg, hspace, hmap.leaf, add_zero, if_neg hp', hclear₀.leaf, if_neg hp']
      rintro ⟨h₁, h₂⟩
      exact hold' (p - a.oldBase / 4096) (by omega) (by omega)
    · intro e' he' huser'
      rw [hclear.mem, hmem _ (hp.kept hclear₀ hwindow he' huser' hp'), hclear₀.mem]

/-- A gap is unmapped. -/
theorem Placed.unmapped (h : s.Placed b) (hfound : mmapAlignUp b.addr.toNat = 0 ∨ b.fixed = false) :
    s.mmapRangeUnmapped (s.place b) b.size := by
  rw [place, if_pos hfound]
  exact (mmapFindGap_spec (h.found hfound)).2.2.2.2

/-- Nothing is given back for a range that was unmapped. -/
theorem cleared_of_unmapped (h : s.mmapRangeUnmapped (s.place b) b.size) : s.cleared b = s := by
  rw [place] at h
  rw [cleared]
  split_ifs at h ⊢ <;> rfl

/-- Where a mapping moves to is apart from where it was. -/
theorem Placed.apart (hplaced : s.Placed b) (hreg : s.Regular a) (hown : s.Owned a) (hold : a.oldBase % 4096 = 0)
    (hsize : b.size = a.newSize) (hfixed : ¬ (mmapAlignUp b.addr.toNat = 0 ∨ b.fixed = false) → b.addr = a.newAddr ∧
      (a.oldBase + a.oldSize ≤ a.newAddr.toNat ∨ a.newAddr.toNat + a.newSize ≤ a.oldBase)) :
    ∀ i < pagesOf a.oldLen, ∀ j < pagesOf a.newLen, a.oldBase / 4096 + i ≠ s.place b / 4096 + j := by
  have hold' : a.oldSize = pagesOf a.oldLen * 4096 := pagesOf_eq hreg.oldLen
  have hnew' : a.newSize = pagesOf a.newLen * 4096 := pagesOf_eq hreg.newLen
  intro i hi j hj heq
  rcases em (mmapAlignUp b.addr.toNat = 0 ∨ b.fixed = false) with hfound | hgiven
  · obtain ⟨e, he, -⟩ := hown i hi
    have hnone := leaf_of_unmapped (hplaced.unmapped hfound) hplaced.high j (by omega)
    rw [← heq, he] at hnone
    exact nomatch hnone
  obtain ⟨haddr, hside⟩ := hfixed hgiven
  have hplace := hplaced.given hgiven
  rw [haddr] at hplace
  omega

/-- Moving the mapping: the new range has it, or nothing changed. -/
theorem move_spec (hp : s.Proper) (hreg : s.Regular a) (hmoves : s.Moves a) (hold : a.oldBase % 4096 = 0) (hown : s.Owned a)
    (hprot : (s.vmCowGetPageProt a.oldBase).getD (true, false) = (w, x)) :
    ∃ r s', s.move a w x = some (r, s') ∧ (0 ≤ r → Remapped s a r.toNat s') ∧ (r < 0 → Unchanged s s') := by
  have hsize' : a.newSize = pagesOf a.newLen * 4096 := pagesOf_eq hreg.newLen
  obtain ⟨hsize, hw, hx, hanon, hfixed⟩ := mmapArgs_spec a w x
  have hcall : s.mmapCall a = a.mmapArgs w x := by rw [mmapCall, hprot]
  rw [move]
  have hready : _ ∨ _ ∧ ∃ s₁, Ready noFiles s (a.mmapArgs w x) s₁ := sysMmap_ready hp.ok
  rcases hready with ⟨-, e, he, hrun⟩ | ⟨⟨-, hplaced⟩, s₁, hready⟩
  · rw [hrun]
    dsimp only
    rw [if_pos (by omega)]
    exact ⟨-e, s, rfl, fun h => by omega, fun _ => .refl s⟩
  obtain ⟨hvalid, huniform, hfixed', hshort⟩ := hreg.moves hmoves (by rwa [hcall])
  rw [hcall] at hvalid huniform hfixed' hshort
  have hcount : (a.mmapArgs w x).size / 4096 = a.newSize / 4096 := by rw [hsize]
  rcases lt_or_ge (s.supply (a.mmapArgs w x)) (s.needs (a.mmapArgs w x) (a.newSize / 4096)) with hfew | hneed
  · obtain ⟨hfree, hdry⟩ := hshort (Nat.not_le_of_lt hfew)
    have hclear : s.cleared (a.mmapArgs w x) = s := cleared_of_unmapped (by rwa [hsize])
    obtain ⟨s', hrun, hsame⟩ := mapRange_short noFiles hready.clear (by
      simpa only [hready.need, hready.supply, hcount] using hdry)
    rw [hready.run.trans hrun]
    have hspace := hready.space
    have hram := hready.ram
    rw [hclear] at hspace hram
    refine ⟨-enomem, s', rfl, fun h => absurd h (by decide), fun _ => ⟨?_, ?_, ?_⟩⟩
    · rw [hsame.leaf, hspace]
    · rw [← hram]
      exact hsame.pages
    · intro q hq
      rw [← hram] at hq ⊢
      exact hsame.mem q hq
  · have haddr : ¬ (mmapAlignUp (a.mmapArgs w x).addr.toNat = 0 ∨ (a.mmapArgs w x).fixed = false) →
        (a.mmapArgs w x).addr = a.newAddr ∧
          (a.oldBase + a.oldSize ≤ a.newAddr.toNat ∨ a.newAddr.toNat + a.newSize ≤ a.oldBase) := by
      intro hgiven
      have hfix : a.fixed := by
        rw [← hfixed]
        exact Bool.eq_true_of_not_eq_false fun h => hgiven (.inr h)
      exact ⟨if_pos hfix, (hfixed' hneed hfix).2⟩
    have hat : a.fixed → s.place (a.mmapArgs w x) = a.newAddr.toNat := by
      intro hfix
      have hto : (a.mmapArgs w x).addr = a.newAddr := if_pos hfix
      rw [← hto]
      refine hplaced.given fun h => ?_
      rw [hfixed, hfix, hto] at h
      exact h.elim (hfixed' hneed hfix).1 nofun
    obtain ⟨s', f, T, hrun, hmap⟩ := mapRange_mapped noFiles hready.clear (by
      rw [hready.need, hready.supply, hcount]
      exact hneed)
    have hclear : Cleared s (s.place (a.mmapArgs w x) / 4096) (pagesOf a.newLen) s₁ := by
      have h := hready.cleared
      rw [hsize, hsize', Nat.mul_div_cancel _ (by decide)] at h
      exact ⟨fun p => hready.space ▸ h.leaf p, hready.space ▸ h.table, hready.ram ▸ h.mem, hready.ram ▸ h.ok,
        fun q hq => h.free q (hready.ram ▸ hq)⟩
    have hfill : (a.mmapArgs w x).fill noFiles = fun _ _ => 0 := by
      funext i j
      simp [Args.fill, hanon]
    rw [hfill, hw, hx, hsize, hsize', Nat.mul_div_cancel _ (by decide)] at hmap
    have hhigh := hplaced.high
    rw [hsize] at hhigh
    rw [hready.run.trans hrun]
    refine ⟨_, _, rfl, fun _ => ?_, fun h => absurd h (by omega)⟩
    exact moved_spec hp hreg hmoves.1 hold hown (hvalid hneed) (huniform hneed) hplaced.aligned hplaced.low hhigh hat
      (hplaced.apart hreg hown hold hsize haddr) hclear hprot hmap

/-- CORRECT where the call can rely on what it does not check: the mapping is kept, or nothing is changed. -/
theorem mremap_preserves (hp : s.Proper) (hregular : s.remapRefused a = false → s.Regular a) : s.Preserves a := by
  have hstay : ∀ s', Remapped s a a.oldBase s' →
      (0 ≤ (a.oldBase : Int) → Remapped s a (a.oldBase : Int).toNat s') ∧ ((a.oldBase : Int) < 0 → Unchanged s s') :=
    fun s' h => ⟨fun _ => by rwa [Int.toNat_natCast], fun hneg => by omega⟩
  have hfail : ∀ {e : Int} {s' : Sys A}, 0 < e → Unchanged s s' →
      (0 ≤ -e → Remapped s a (-e).toNat s') ∧ (-e < 0 → Unchanged s s') :=
    fun hpos h => ⟨fun hneg => by omega, fun _ => h⟩
  rw [Preserves, sysMremap]
  rcases Bool.eq_false_or_eq_true (s.remapRefused a) with hno | hno
  · rw [if_pos hno]
    exact ⟨_, s, rfl, hfail (by decide) (.refl s)⟩
  have hreg := hregular hno
  obtain ⟨hsize, hsize', hreach⟩ := hreg.sizes
  obtain ⟨hold, hown⟩ := owned_of_checks hreg hno
  rw [if_neg (Bool.not_eq_true _ ▸ hno)]
  split_ifs with heq hlt hin hmay
  · exact ⟨_, s, rfl, hstay s (.stay hp hreg (hreg.stays heq.le) hold hown (by omega) (fun _ _ => rfl) (fun _ _ => rfl)
      fun i hi hi' => by omega)⟩
  · exact ⟨_, _, rfl, hstay _ (shrink_spec hp hreg hold hown hlt)⟩
  · obtain ⟨ok, s', hrun, hres⟩ := grow_spec hp hreg hold hown (by omega) hin
      ((s.vmCowGetPageProt a.oldBase).getD (true, false)).1 ((s.vmCowGetPageProt a.oldBase).getD (true, false)).2
    dsimp only
    rw [hrun]
    cases ok with
    | false => exact ⟨_, s', rfl, hfail (by decide) hres⟩
    | true => exact ⟨_, s', rfl, hstay s' hres⟩
  · exact move_spec hp hreg ⟨by omega, Bool.eq_false_of_not_eq_true hin, hmay⟩ hold hown rfl
  · exact ⟨_, s, rfl, hfail (by decide) (.refl s)⟩

/-! ### What it does not check -/

/-- Three pages at the start of the window, the second of which is read-only, and twelve free pages. -/
def three : Sys x86_64 where
  space := (((bare x86_64 0).space.map 0x200000000 ⟨257, 1, true, false, false, true⟩ (by decide)).map 0x200000001
    ⟨258, 1, false, false, false, true⟩ (by decide)).map 0x200000002 ⟨259, 1, true, false, false, true⟩ (by decide)
  ram := ⟨⟨256, 16, fun i => i < 4, fun i => if i < 4 then 1 else 0, 0⟩, fun q _ => BitVec.ofNat 8 q⟩
  mmapEnd := x86_64.base

/-- INCORRECT in general: a new length that rounds up to 0 gives the mapping up; the second page can be written after the
    move; and a mapping that shrinks stays where it is, whatever address is asked for. -/
theorem not_mremap_preserves : ¬ three.Preserves ⟨0x200000000000, 4096, 0xFFFFFFFFFFFFFFFF, 0, 0⟩ ∧
    ¬ three.Preserves ⟨0x200000000000, 8192, 12288, 1, 0⟩ ∧
    ¬ three.Preserves ⟨0x200000000000, 8192, 4096, 3, 0x200000100000⟩ := by
  refine ⟨?_, ?_, ?_⟩
  · rintro ⟨r, s', hrun, hres, -⟩
    have hgone : (three.sysMremap ⟨0x200000000000, 4096, 0xFFFFFFFFFFFFFFFF, 0, 0⟩).map
        (fun q => (q.1, q.2.read 0x200000000000)) = some (0x200000000000, none) := by decide +kernel
    rw [hrun] at hgone
    obtain ⟨rfl, hread⟩ := Prod.mk.inj (some.inj hgone)
    obtain ⟨v, -, hv⟩ := (hres (by decide)).bytes 0 (by decide)
    exact absurd (hread.symm.trans hv) (by simp)
  · rintro ⟨r, s', hrun, hres, -⟩
    have hprot : (three.sysMremap ⟨0x200000000000, 8192, 12288, 1, 0⟩).map
        (fun q => (q.1, (q.2.space.leaf 0x200000004).map prot)) = some (0x200000003000, some (true, false, true)) := by
      decide +kernel
    rw [hrun] at hprot
    obtain ⟨rfl, hleaf⟩ := Prod.mk.inj (some.inj hprot)
    have hsame := (hres (by decide)).prot 1 (by decide)
    have hbefore : (three.space.leaf 0x200000001).map prot = some (false, false, true) := by decide +kernel
    exact absurd ((hleaf.symm.trans hsame).trans hbefore) (by decide)
  · rintro ⟨r, s', hrun, hres, -⟩
    have haddr : (three.sysMremap ⟨0x200000000000, 8192, 4096, 3, 0x200000100000⟩).map Prod.fst =
        some 0x200000000000 := by decide +kernel
    rw [hrun] at haddr
    obtain rfl := some.inj haddr
    exact absurd ((hres (by decide)).fixed (by decide)) (by decide)

theorem three_ok : three.ram.pmm.Ok := by
  refine ⟨?_, ?_, rfl⟩
  · rintro pa ⟨i, hpage, hbit⟩
    rw [Pmm.getRef, hpage]
    exact if_neg (of_decide_eq_false hbit)
  · rintro ⟨i, hpage, -⟩
    cases hpage

theorem three_held (h : three.space.leaf p = some e) : ¬ three.ram.pmm.Free (frame e p) := by
  have hused : ∀ i, i < 4 → ¬ three.ram.pmm.Free (256 + i) := by
    rintro i hi ⟨j, hpage, hbit⟩
    have hj : three.ram.pmm.pageOf (256 + i) = some i := by
      rw [Pmm.pageOf, if_neg (by simp [three]), if_pos (by simp [three]; omega)]
      simp [three]
    obtain rfl := some.inj (hj.symm.trans hpage)
    exact of_decide_eq_false hbit hi
  simp only [three, Space.map, update_apply, bare] at h
  split_ifs at h
  all_goals
    obtain rfl := some.inj h
    rw [frame, Nat.mod_one]
  · exact hused 3 (by decide)
  · exact hused 2 (by decide)
  · exact hused 1 (by decide)

/-- The three pages are the user's, and each is mapped once. -/
theorem three_proper : three.Proper := by
  refine ⟨three_ok, fun h _ => three_held h, fun {p q e e'} h _ h' _ heq => ?_, fun {p e} _ h => ?_⟩
  · simp only [three, Space.map, update_apply, bare] at h h'
    split_ifs at h h'
    all_goals
      obtain rfl := some.inj h
      obtain rfl := some.inj h'
      simp only [frame] at heq
      omega
  · simp only [three, Space.map, update_apply, bare] at h
    split_ifs at h
    all_goals
      obtain rfl := some.inj h
      rfl

/-- The first of the three pages moves, and becomes two. -/
theorem mremap_preserves_three : three.Preserves ⟨0x200000000000, 4096, 8192, 1, 0⟩ :=
  mremap_preserves three_proper fun _ => {
    oldLen := by decide
    newLen := by decide
    reach := by decide
    stays := fun _ h => absurd h (by decide)
    grows := fun _ h => absurd h (by decide +kernel)
    inPlace := fun _ h => absurd h (by decide +kernel)
    moves := fun _ _ => {
      window := fun _ => by decide
      uniform := fun _ i hi => by
        obtain rfl := Nat.lt_one_iff.1 hi
        rfl
      fixed := fun _ h => absurd h (by decide)
      short := fun h => absurd (by decide +kernel) h } }

end Sys

end Orthox.Mmap
