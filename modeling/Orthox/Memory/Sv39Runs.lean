import Orthox.Memory.Sv39Map

/-! All address spaces of riscv64 over a run: they are created, mapped into, cloned and destroyed in any order while the
    rest of the kernel takes and gives back pages. Each table stands under one root, the kernel's tables under its own
    root and wherever they are shared, and the allocator's count of a page covers the mappings of it. -/

namespace Orthox.Memory.Sv39
open List

/-! ### Runs -/

/-- Memory and the user roots that were handed out and not destroyed. -/
structure Machine where
  store : Store
  roots : List Nat

/-- The calls that make and change user address spaces, and pages the rest of the kernel takes and gives back. -/
inductive Ev where
  | create
  | map (root va : Nat) (e : Pte)
  | clone (root : Nat)
  | destroy (root : Nat)
  | take (n : Nat)
  | give (pa n : Nat)

/-- The pages mapped for the user below a table with so many levels, once for each mapping. -/
def frames (mem : Mem) : Nat → Nat → List Nat
  | 0, _ => []
  | d + 1, page => (range 512).flatMap fun i => match mem page i with
    | .invalid => []
    | .leaf e => held (some e)
    | .table q _ => frames mem d q

/-- How often a page is mapped for the user. -/
def Machine.mapped (s : Machine) (p : Nat) : Nat := (s.roots.flatMap (frames s.store.mem 3)).count p

section machine
variable (kr : Nat)

def step (s : Machine) : Ev → Option Machine
  | .create =>
    let r := createAddressSpace kr s.store
    some ⟨r.2, if r.1 = 0 then s.roots else r.1 :: s.roots⟩
  | .map root va e => if root ∈ s.roots then (mapPage kr s.store root va e).map (⟨·, s.roots⟩) else none
  | .clone root =>
    let r := cloneAddressSpace kr s.store root
    if root ∈ s.roots then some ⟨r.2, if r.1 = 0 then s.roots else r.1 :: s.roots⟩ else none
  | .destroy root => if root ∈ s.roots then some ⟨destroyAddressSpace kr s.store root, s.roots.erase root⟩ else none
  | .take n => some ⟨{ s.store with pmm := (s.store.pmm.alloc n).2 }, s.roots⟩
  | .give pa n => some ⟨{ s.store with pmm := s.store.pmm.free pa n }, s.roots⟩

/-- A page that is no table, under the kernel's root or a user's. -/
def Machine.NoTable (s : Machine) (p : Nat) : Prop := ∀ r ∈ kr :: s.roots, ¬ TableOf s.store.mem r p

/-- What the callers see to: a page mapped for the user replaces a mapping of itself, or is not the allocator's, or has a
    reference that no mapping holds; a clone takes no page over the limit of the counts; and pages given back are not
    mapped more often than they are still counted. -/
def Ev.Allowed (s : Machine) : Ev → Prop
  | .map root va e => e.user = true → (∃ o, translate s.store.mem root va = some o ∧ o.user = true ∧ o.phys = e.phys) ∨
    s.store.pmm.Reserved e.phys ∨ s.NoTable kr e.phys ∧ s.mapped e.phys < s.store.pmm.getRef e.phys
  | .clone root => s.store.pmm.Fits (frames s.store.mem 3 root)
  | .give pa n => ∀ p, Pmm.Within pa n p → s.store.pmm.getRef p = 0 ∨ s.NoTable kr p ∧ s.mapped p < s.store.pmm.getRef p
  | _ => True

/-- The states after any number of calls. -/
inductive Reaches (s₀ : Machine) : Machine → Prop
  | start : Reaches s₀ s₀
  | step {s s' : Machine} (ev : Ev) : Reaches s₀ s → ev.Allowed kr s → step kr s ev = some s' → Reaches s₀ s'

/-- The kernel's root stands, and no other root yet. -/
structure Booted (kt : Slots) (s : Machine) : Prop where
  ok : s.store.pmm.Ok
  max : ∀ pa, s.store.pmm.getRef pa ≤ 65535
  reads : Reads s.store.mem kr 0 kt
  depth : Depth 2 kt
  leaves : ∀ e ∈ kt.leaves, e.user = false
  nodup : (kr :: kt.tables).Nodup
  tables : ∀ q ∈ kr :: kt.tables, s.store.pmm.getRef q = 1
  roots : s.roots = []

/-! ### The account -/

variable (kt : Slots)

/-- The tables that are private to an address space. -/
def tablesOf (x : Nat × Slots) : List Nat := x.1 :: (own riscv64 (some kt) 1 x.2).tables

def framesOf (x : Nat × Slots) : List Nat := (own riscv64 (some kt) 1 x.2).frames

/-- All tables: the kernel's and the private ones. -/
def allTables (spaces : List (Nat × Slots)) : List Nat := (kr :: kt.tables) ++ spaces.flatMap (tablesOf kt)

/-- All uses of pages: as a table and as a page of a user. -/
def uses (spaces : List (Nat × Slots)) : List Nat := allTables kr kt spaces ++ spaces.flatMap (framesOf kt)

/-- The count of a page covers so many uses, or the page is not the allocator's. -/
def Covers (m : Pmm) (p n : Nat) : Prop := n ≤ m.getRef p ∨ m.Reserved p

/-- The trees under the roots, and the account of their pages. -/
structure Holds (spaces : List (Nat × Slots)) (s : Machine) : Prop where
  roots : s.roots.Perm (spaces.map Prod.fst)
  ok : s.store.pmm.Ok
  max : ∀ pa, s.store.pmm.getRef pa ≤ 65535
  kernel : Reads s.store.mem kr 0 kt
  depth : Depth 2 kt
  leaves : ∀ e ∈ kt.leaves, e.user = false
  reads : ∀ x ∈ spaces, Reads s.store.mem x.1 0 x.2 ∧ Depth 2 x.2 ∧ x.1 ≠ 0
  one : ∀ p ∈ allTables kr kt spaces, s.store.pmm.getRef p = 1
  covers : ∀ p, Covers s.store.pmm p ((uses kr kt spaces).count p)

end machine

section account
variable {kr : Nat} {kt : Slots} {s s' : Machine} {x : Nat × Slots} {spaces rest : List (Nat × Slots)} {r p : Nat} {t : Slots}

theorem Booted.holds (h : Booted kr kt s) : Holds kr kt [] s where
  roots := by rw [h.roots]; exact .refl _
  ok := h.ok
  max := h.max
  kernel := h.reads
  depth := h.depth
  leaves := h.leaves
  reads := nofun
  one p hp := h.tables p (by simpa [allTables] using hp)
  covers p := by
    refine .inl ?_
    simp only [uses, allTables, flatMap_nil, append_nil]
    rcases em (p ∈ kr :: kt.tables) with hin | hout
    · rw [h.tables p hin]
      exact nodup_iff_count_le_one.mp h.nodup p
    · rw [count_eq_zero_of_not_mem hout]
      exact Nat.zero_le _

section
variable (h : Holds kr kt spaces s)
include h

theorem Holds.perm {spaces' : List (Nat × Slots)} (hp : spaces.Perm spaces') : Holds kr kt spaces' s where
  roots := h.roots.trans (hp.map _)
  ok := h.ok
  max := h.max
  kernel := h.kernel
  depth := h.depth
  leaves := h.leaves
  reads x hx := h.reads x (hp.mem_iff.mpr hx)
  one p hin := h.one p (((hp.flatMap_right _).append_left _).mem_iff.mpr hin)
  covers p := by
    have := (((hp.flatMap_right (tablesOf kt)).append_left (kr :: kt.tables)).append (hp.flatMap_right (framesOf kt))).count_eq p
    rw [uses, allTables, ← this]
    exact h.covers p

/-- The address space of a root, before the others. -/
theorem Holds.pick (hr : r ∈ s.roots) :
    ∃ t rest, Holds kr kt ((r, t) :: rest) s ∧ (s.roots.erase r).Perm (rest.map Prod.fst) := by
  obtain ⟨⟨_, t⟩, hx, rfl⟩ := mem_map.mp (h.roots.mem_iff.mp hr)
  have hp := perm_cons_erase hx
  have h' := h.perm hp
  refine ⟨t, _, h', ?_⟩
  have := (perm_cons_erase hr).symm.trans h'.roots
  exact this.cons_inv

theorem Holds.unfree (hp : p ∈ uses kr kt spaces) : ¬ s.store.pmm.Free p := by
  intro hf
  rcases h.covers p with hle | hres
  · rw [h.ok.free hf] at hle
    exact absurd (count_pos_iff.mpr hp) (by omega)
  · exact hres.2 hf

/-- A table is used once. -/
theorem Holds.once (hp : p ∈ allTables kr kt spaces) : (uses kr kt spaces).count p = 1 := by
  have hone := h.one p hp
  have hpos : 0 < (uses kr kt spaces).count p := count_pos_iff.mpr (mem_append_left _ hp)
  rcases h.covers p with hle | hres
  · omega
  · exact absurd hres.1 (by omega)

theorem Holds.nodup : (allTables kr kt spaces).Nodup := by
  refine nodup_iff_count_le_one.mpr fun p => ?_
  rcases em (p ∈ allTables kr kt spaces) with hin | hout
  · have := h.once hin
    rw [uses, count_append] at this
    omega
  · rw [count_eq_zero_of_not_mem hout]
    exact Nat.zero_le _

/-- A table is no page of a user. -/
theorem Holds.apart (hp : p ∈ allTables kr kt spaces) : p ∉ spaces.flatMap (framesOf kt) := by
  intro hin
  have hone := h.once hp
  rw [uses, count_append] at hone
  have h₁ := count_pos_iff.mpr hp
  have h₂ := count_pos_iff.mpr hin
  omega

theorem Holds.kernelAt : Kernel (· ∈ kr :: kt.tables) s.store.mem 0 (some kr) (some kt) where
  reads := .some h.kernel
  pages := by
    rintro _ ⟨⟩
    exact mem_cons_self
  tables := by
    rintro _ ⟨⟩ q hq
    exact mem_cons_of_mem _ hq

theorem Holds.kernelOk : KernelOk riscv64 s.store.pmm (some kt) := by
  rintro _ ⟨⟩
  exact ⟨fun q hq => h.unfree (mem_append_left _ (mem_append_left _ (mem_cons_of_mem _ hq))), h.leaves⟩

end

theorem mem_tables_head (hp : p ∈ tablesOf kt x) : p ∈ allTables kr kt (x :: rest) :=
  mem_append_right _ (mem_append_left _ hp)

theorem mem_tables_rest (hp : p ∈ allTables kr kt rest) : p ∈ allTables kr kt (x :: rest) := by
  rcases mem_append.mp hp with hp | hp
  · exact mem_append_left _ hp
  · exact mem_append_right _ (mem_append_right _ hp)

/-- The tables of one address space are distinct, and none of them the kernel's or another's. -/
theorem Holds.disjoint (h : Holds kr kt (x :: rest) s) : (tablesOf kt x).Nodup ∧ ∀ p ∈ tablesOf kt x, p ∉ allTables kr kt rest := by
  obtain ⟨hx, -, hdisj⟩ := nodup_append.mp ((Perm.nodup_iff (perm_append_comm_assoc ..)).mp h.nodup)
  exact ⟨hx, fun p hp hp' => hdisj p hp p hp' rfl⟩

theorem Holds.stands (h : Holds kr kt (x :: rest) s) : Stands (· ∈ kr :: kt.tables) (some kr) (some kt) 1 2 x.1 0 x.2 s.store := by
  obtain ⟨hreads, hdepth, -⟩ := h.reads x mem_cons_self
  refine ⟨h.ok, h.max, h.kernelOk, fun q hq => ?_, hreads, hdepth, h.kernelAt, ⟨h.disjoint.1, fun q hq hk => ?_⟩, fun q hq => ?_⟩
  · exact h.unfree (mem_append_left _ (mem_append_left _ hq))
  · exact h.disjoint.2 q hq (mem_append_left _ hk)
  · exact h.unfree (mem_append_left _ (mem_tables_head hq))

section
variable (h : Holds kr kt spaces s)
include h

/-- The tables of the tree under a root are its private ones and the kernel's. -/
theorem Holds.tables_of (hx : x ∈ spaces) {l : List (Nat × Slots)} (hl : x ∈ l) {q : Nat} (hq : q ∈ x.1 :: x.2.tables) :
    q ∈ allTables kr kt l := by
  have hin : ∀ p ∈ tablesOf kt x, p ∈ allTables kr kt l := fun p hp => mem_append_right _ (mem_flatMap.mpr ⟨x, hl, hp⟩)
  rcases mem_cons.mp hq with rfl | hq
  · exact hin _ mem_cons_self
  rcases h.kernelAt.table_cases (h.reads x hx).1 q hq with hq | hq
  · exact hin q (mem_cons_of_mem _ hq)
  · exact mem_append_left _ hq

/-- The tree that stands under a root, the kernel's included. -/
theorem Holds.tree (hr : r ∈ kr :: s.roots) : ∃ t, Reads s.store.mem r 0 t ∧ ∀ q ∈ r :: t.tables, q ∈ allTables kr kt spaces := by
  rcases mem_cons.mp hr with rfl | hr
  · exact ⟨kt, h.kernel, fun q hq => mem_append_left _ hq⟩
  · obtain ⟨x, hx, rfl⟩ := mem_map.mp (h.roots.mem_iff.mp hr)
    exact ⟨x.2, (h.reads x hx).1, fun q hq => h.tables_of hx hx hq⟩

/-- The tables of the roots are the tables of the account. -/
theorem Holds.tableOf {q : Nat} (hr : r ∈ kr :: s.roots) (hq : TableOf s.store.mem r q) : q ∈ allTables kr kt spaces := by
  obtain ⟨t, hreads, hin⟩ := h.tree hr
  exact hin q (hq.mem_tables hreads).1

end

theorem own_tables_subset : ∀ {k : Option Slots} {level : Nat}, ∀ q ∈ (own riscv64 k level t).tables, q ∈ t.tables := by
  induction t with
  | nil => exact fun _ => id
  | hole r ih => exact ih
  | leaf e r ih =>
    intro k level q hq
    rw [own] at hq
    split_ifs at hq
    · exact ih q hq
    · exact ih q hq
  | table p f sub r ihs ih =>
    intro k level q hq
    rw [own] at hq
    split_ifs at hq
    · exact mem_cons_of_mem _ (mem_append_right _ (ih q hq))
    rcases mem_cons.mp hq with rfl | hq
    · exact mem_cons_self
    · exact mem_cons_of_mem _ ((mem_append.mp hq).elim (fun hq => mem_append_left _ (ihs q hq)) fun hq => mem_append_right _ (ih q hq))

theorem Reads.tableOf {mem : Mem} {root page i : Nat} (h : Reads mem page i t) (hp : TableOf mem root page) :
    ∀ q ∈ t.tables, TableOf mem root q := by
  induction t generalizing page i with
  | nil => exact fun q hq => absurd hq not_mem_nil
  | hole _ ih | leaf _ _ ih => exact fun q hq => ih h.2 hp q hq
  | table p f sub r ihs ih =>
    intro q hq
    have hnext : TableOf mem root p := .next i hp h.2.2.le h.1
    rcases mem_cons.mp hq with rfl | hq
    · exact hnext
    · exact (mem_append.mp hq).elim (fun hq => ihs h.2.1 hnext q hq) fun hq => ih h.2.2 hp q hq

theorem Holds.noTable (h : Holds kr kt spaces s) (hp : s.NoTable kr p) : p ∉ allTables kr kt spaces := by
  intro hin
  rcases mem_append.mp hin with hin | hin
  · rcases mem_cons.mp hin with rfl | hin
    · exact hp _ mem_cons_self .root
    · exact hp kr mem_cons_self (h.kernel.tableOf .root p hin)
  obtain ⟨x, hx, hin⟩ := mem_flatMap.mp hin
  have hr : x.1 ∈ kr :: s.roots := mem_cons_of_mem _ (h.roots.mem_iff.mpr (mem_map_of_mem hx))
  rcases mem_cons.mp hin with rfl | hin
  · exact hp _ hr .root
  · exact hp _ hr ((h.reads x hx).1.tableOf .root p (own_tables_subset p hin))

/-- What is mapped for the user below a table is what the tree holds. -/
theorem frames_own {K : Nat → Prop} {mem : Mem} {m : Pmm} : ∀ (level : Nat) {d page i : Nat} {kernel : Option Nat} {k : Option Slots},
    Reads mem page i t → Depth d t → Kernel K mem i kernel k → KernelOk riscv64 m k →
    ((range' i (512 - i)).flatMap fun i => match mem page i with
      | .invalid => []
      | .leaf e => held (some e)
      | .table q _ => frames mem d q) = (own riscv64 k level t).frames := by
  induction t with
  | nil =>
    intro level d page i kernel k hr _ _ _
    obtain rfl : i = 512 := hr
    rfl
  | hole r ih =>
    intro level d page i kernel k hr hd hk hok
    rw [range_from hr.2.le, flatMap_cons, hr.1, ih level hr.2 hd (hk.next hr.2.le) hok.next]
    rfl
  | leaf e r ih =>
    intro level d page i kernel k hr hd hk hok
    rw [range_from hr.2.le, flatMap_cons, hr.1, ih level hr.2 hd.2 (hk.next hr.2.le) hok.next, (own_leaf_parts level hok e r).2]
  | table q f sub r ihs ih =>
    intro level d page i kernel k hr hd hk hok
    have hi := hr.2.2.le
    rcases d with - | d
    · exact absurd hd id
    have hsub := ihs (level + 1) hr.2.1 hd.1 (hk.below hi) hok.below
    rw [range_from hi, flatMap_cons, hr.1, ih level hr.2.2 hd.2 (hk.next hi) hok.next]
    change frames mem (d + 1) q ++ _ = _
    rw [frames, range_eq_range', hsub]
    rcases hkt : kernelTable k q f with - | -
    · exact (own_parts level sub r hkt).2.symm
    · rw [(hk.shared hr.2.1 hkt).2.2, (kernel_inert (level + 1) sub).2, own_table_skip hkt]
      rfl

section
variable (h : Holds kr kt spaces s)
include h

theorem Holds.frames_eq (hx : x ∈ spaces) : frames s.store.mem 3 x.1 = framesOf kt x := by
  obtain ⟨hreads, hdepth, -⟩ := h.reads x hx
  rw [frames, range_eq_range']
  exact frames_own 1 hreads hdepth h.kernelAt h.kernelOk

theorem Holds.mapped_eq (p : Nat) : s.mapped p = (spaces.flatMap (framesOf kt)).count p := by
  have hmap : (spaces.map Prod.fst).flatMap (frames s.store.mem 3) = spaces.flatMap (framesOf kt) := by
    rw [flatMap_map]
    exact flatMap_congr fun x hx => h.frames_eq hx
  rw [Machine.mapped, (h.roots.flatMap_right _).count_eq p, hmap]

/-- A page that is no table is used as often as it is mapped. -/
theorem Holds.uses_mapped (hp : s.NoTable kr p) : (uses kr kt spaces).count p = s.mapped p := by
  rw [uses, count_append, count_eq_zero_of_not_mem (h.noTable hp), zero_add, h.mapped_eq]

/-- New address spaces beside others that were left alone. -/
theorem Holds.beside (hrest : ∀ x ∈ rest, x ∈ spaces) (new : List (Nat × Slots))
    (hroots : s'.roots.Perm ((new ++ rest).map Prod.fst)) (hok : s'.store.pmm.Ok) (hmax : ∀ pa, s'.store.pmm.getRef pa ≤ 65535)
    (hmem : ∀ q ∈ allTables kr kt rest, s'.store.mem q = s.store.mem q)
    (hnew : ∀ x ∈ new, Reads s'.store.mem x.1 0 x.2 ∧ Depth 2 x.2 ∧ x.1 ≠ 0)
    (hone : ∀ p ∈ allTables kr kt (new ++ rest), s'.store.pmm.getRef p = 1)
    (hcovers : ∀ p, Covers s'.store.pmm p ((uses kr kt (new ++ rest)).count p)) : Holds kr kt (new ++ rest) s' where
  roots := hroots
  ok := hok
  max := hmax
  kernel := h.kernel.congr (fun j _ => by rw [hmem kr (mem_append_left _ mem_cons_self)])
    fun q hq => hmem q (mem_append_left _ (mem_cons_of_mem _ hq))
  depth := h.depth
  leaves := h.leaves
  reads x hx := by
    rcases mem_append.mp hx with hx | hx
    · exact hnew x hx
    obtain ⟨hreads, hdepth, hne⟩ := h.reads x (hrest x hx)
    have hsame : ∀ q ∈ x.1 :: x.2.tables, s'.store.mem q = s.store.mem q := fun q hq => hmem q (h.tables_of (hrest x hx) hx hq)
    exact ⟨hreads.congr (fun j _ => by rw [hsame x.1 mem_cons_self]) fun q hq => hsame q (mem_cons_of_mem _ hq), hdepth, hne⟩
  one := hone
  covers := hcovers

end

end account

end Orthox.Memory.Sv39
