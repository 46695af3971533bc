import Orthox.Memory.Sv39

/-! The trees that stand in riscv64 memory. A page is read as a tree when its entries, and the tables below them, are
    the tree's. What `Clone` does to trees is what `riscv64_vm_clone_table` and `riscv64_vm_destroy_table` do to
    memory, as long as the private tables of the tree are distinct and none of them is the kernel's. -/

namespace Orthox.Memory.Sv39
open List Function

/-! ### Reading -/

/-- The entries of a page from an index on. -/
def Reads (mem : Mem) : Nat → Nat → Slots → Prop
  | _, i, .nil => i = 512
  | page, i, .hole rest => mem page i = .invalid ∧ Reads mem page (i + 1) rest
  | page, i, .leaf e rest => mem page i = .leaf e ∧ Reads mem page (i + 1) rest
  | page, i, .table q flags sub rest => mem page i = .table q flags ∧ Reads mem q 0 sub ∧ Reads mem page (i + 1) rest

/-- Leaves stand in the last tables only, so many levels down. -/
def Depth : Nat → Slots → Prop
  | _, .nil => True
  | d, .hole rest => Depth d rest
  | d, .leaf _ rest => d = 0 ∧ Depth d rest
  | 0, .table .. => False
  | d + 1, .table _ _ sub rest => Depth d sub ∧ Depth (d + 1) rest

section reading
variable {mem mem' : Mem} {page i : Nat} {t : Slots}

section
variable (h : Reads mem page i t)
include h

theorem Reads.le : i ≤ 512 := by
  induction t generalizing i with
  | nil => exact h.le
  | hole _ ih | leaf _ _ ih => exact Nat.le_of_succ_le (ih h.2)
  | table q f sub r _ ih => exact Nat.le_of_succ_le (ih h.2.2)

/-- A tree that does not end at the index. -/
theorem Reads.lt (hne : t ≠ .nil) : i < 512 := by
  rcases t with - | r | ⟨e, r⟩ | ⟨q, f, sub, r⟩
  · exact absurd rfl hne
  · exact h.2.le
  · exact h.2.le
  · exact h.2.2.le

theorem Reads.ne_nil (hi : i < 512) : t ≠ .nil := by
  rintro rfl
  exact ne_of_lt hi h

/-- What is read is determined by memory. -/
theorem Reads.unique {t' : Slots} (h' : Reads mem page i t') : t = t' := by
  induction t generalizing page i t' with
  | nil =>
    cases h
    by_contra hne
    exact absurd (h'.lt (symm hne)) (lt_irrefl _)
  | hole r ih =>
    have hi := h.2.le
    rcases t' with - | r' | ⟨e', r'⟩ | ⟨q', f', s', r'⟩
    · exact absurd h' (ne_of_lt hi)
    · rw [ih h.2 h'.2]
    all_goals exact Entry.noConfusion (h.1.symm.trans h'.1)
  | leaf e r ih =>
    have hi := h.2.le
    rcases t' with - | r' | ⟨e', r'⟩ | ⟨q', f', s', r'⟩
    · exact absurd h' (ne_of_lt hi)
    · exact Entry.noConfusion (h.1.symm.trans h'.1)
    · rw [ih h.2 h'.2, Entry.leaf.inj (h.1.symm.trans h'.1)]
    · exact Entry.noConfusion (h.1.symm.trans h'.1)
  | table q f sub r ihs ih =>
    have hi := h.2.2.le
    rcases t' with - | r' | ⟨e', r'⟩ | ⟨q', f', s', r'⟩
    · exact absurd h' (ne_of_lt hi)
    · exact Entry.noConfusion (h.1.symm.trans h'.1)
    · exact Entry.noConfusion (h.1.symm.trans h'.1)
    · obtain ⟨rfl, rfl⟩ := Entry.table.inj (h.1.symm.trans h'.1)
      rw [ihs h.2.1 h'.2.1, ih h.2.2 h'.2.2]

end

/-- Reading looks at the page from the index on and at the tables below. -/
theorem Reads.congr : ∀ {t : Slots} {page i : Nat}, Reads mem page i t → (∀ j, i ≤ j → mem' page j = mem page j) →
    (∀ q ∈ t.tables, mem' q = mem q) → Reads mem' page i t
  | .nil, _, _, h, _, _ => h
  | .hole r, _, i, h, hpage, htables => ⟨(hpage i le_rfl).trans h.1, h.2.congr (fun j hj => hpage j (Nat.le_of_succ_le hj)) htables⟩
  | .leaf e r, _, i, h, hpage, htables => ⟨(hpage i le_rfl).trans h.1, h.2.congr (fun j hj => hpage j (Nat.le_of_succ_le hj)) htables⟩
  | .table q f s r, _, i, h, hpage, htables => by
    have hq : mem' q = mem q := htables q mem_cons_self
    refine ⟨(hpage i le_rfl).trans h.1, h.2.1.congr (fun j _ => by rw [hq]) fun x hx => ?_,
      h.2.2.congr (fun j hj => hpage j (Nat.le_of_succ_le hj)) fun x hx => ?_⟩
    · exact htables x (mem_cons_of_mem _ (mem_append_left _ hx))
    · exact htables x (mem_cons_of_mem _ (mem_append_right _ hx))

variable {p q : Nat}

/-- The tree of a zeroed page. -/
theorem Reads.zeros (h : Reads mem page i t) (hp : ∀ j, mem' p j = .invalid) : Reads mem' p i t.zeros := by
  induction t generalizing i with
  | nil => exact h
  | hole _ ih | leaf _ _ ih => exact ⟨hp i, ih h.2⟩
  | table q f sub r _ ih => exact ⟨hp i, ih h.2.2⟩

theorem Reads.rest (h : Reads mem page i t) (hi : i < 512) : Reads mem page (i + 1) t.rest := by
  rcases t with - | r | ⟨e, r⟩ | ⟨q, f, sub, r⟩
  · exact absurd rfl (h.ne_nil hi)
  · exact h.2
  · exact h.2
  · exact h.2.2

end reading

/-! ### The kernel's tables -/

theorem Slots.mem_rest : ∀ {t : Slots}, q ∈ t.rest.tables → q ∈ t.tables
  | .nil, h => h
  | .hole _, h => h
  | .leaf .., h => h
  | .table .., h => mem_cons_of_mem _ (mem_append_right _ h)

/-- The kernel's table read beside a user table, from the same index on; `K` are the kernel's pages. -/
structure Kernel (K : Nat → Prop) (mem : Mem) (i : Nat) (kernel : Option Nat) (kt : Option Slots) : Prop where
  reads : Option.Rel (fun k t => Reads mem k i t) kernel kt
  pages : ∀ k ∈ kernel, K k
  tables : ∀ t ∈ kt, ∀ q ∈ t.tables, K q

namespace Kernel
variable {K : Nat → Prop} {mem mem' : Mem} {i : Nat} {kernel : Option Nat} {kt : Option Slots}

theorem none : Kernel K mem i none none := ⟨.none, nofun, nofun⟩

section
variable (h : Kernel K mem i kernel kt)
include h

theorem congr (hmem : ∀ q, K q → mem' q = mem q) : Kernel K mem' i kernel kt := by
  obtain ⟨hreads, hpages, htables⟩ := h
  cases hreads with
  | none => exact none
  | @some k t hr =>
    refine ⟨.some (hr.congr (fun j _ => ?_) fun q hq => hmem q (htables t rfl q hq)), hpages, htables⟩
    rw [hmem k (hpages k rfl)]

theorem next (hi : i < 512) : Kernel K mem (i + 1) kernel (next kt) := by
  obtain ⟨hreads, hpages, htables⟩ := h
  cases hreads with
  | none => exact none
  | @some k t hr =>
    refine ⟨.some (hr.rest hi), hpages, ?_⟩
    rintro _ ⟨⟩ q hq
    exact htables t rfl q (Slots.mem_rest hq)

theorem below (hi : i < 512) : Kernel K mem 0 (kernelChild mem kernel i) (below kt) := by
  obtain ⟨hreads, -, htables⟩ := h
  cases hreads with
  | none => exact none
  | @some k t hr =>
    rcases t with - | r | ⟨e, r⟩ | ⟨p, f, sub, r⟩
    · exact absurd rfl (hr.ne_nil hi)
    all_goals simp only [kernelChild, Option.bind_some, hr.1]
    · exact none
    · exact none
    · have htables' := htables _ rfl
      refine ⟨.some hr.2.1, ?_, ?_⟩
      · rintro _ ⟨⟩
        exact htables' p mem_cons_self
      · rintro _ ⟨⟩ q hq
        exact htables' q (mem_cons_of_mem _ (mem_append_left _ hq))

theorem isKernels_eq (hi : i < 512) :
    (∀ e, isKernels mem kernel i (.leaf e) = kernelLeaf kt e) ∧ ∀ q f, isKernels mem kernel i (.table q f) = kernelTable kt q f := by
  obtain ⟨hreads, -, -⟩ := h
  cases hreads with
  | none => exact ⟨fun _ => rfl, fun _ _ => rfl⟩
  | @some k t hr =>
    rcases t with - | r | ⟨e', r⟩ | ⟨p, f', sub, r⟩
    · exact absurd rfl (hr.ne_nil hi)
    all_goals simp [isKernels, hr.1, kernelLeaf, kernelTable, eq_comm]

/-- What stands below an entry of the kernel's is the kernel's. -/
theorem shared {f : Nat} {sub : Slots} (hr : Reads mem p 0 sub) (hk : kernelTable kt p f) :
    K p ∧ (∀ q ∈ sub.tables, K q) ∧ Memory.below kt = some sub := by
  obtain ⟨hreads, -, htables⟩ := h
  cases hreads with
  | none => exact absurd hk nofun
  | @some k t hrt =>
    rcases t with - | r | ⟨e', r⟩ | ⟨p', f', sub', r⟩
    · exact absurd hk nofun
    · exact absurd hk nofun
    · exact absurd hk nofun
    simp only [kernelTable, Bool.and_eq_true, decide_eq_true_eq] at hk
    obtain ⟨rfl, rfl⟩ := hk
    obtain rfl := hr.unique hrt.2.1
    have hall := htables _ rfl
    exact ⟨hall p mem_cons_self, fun q hq => hall q (mem_cons_of_mem _ (mem_append_left _ hq)), rfl⟩

end

variable {t : Slots}

/-- A table is private or one of the kernel's. -/
theorem table_cases : ∀ {page i level : Nat} {kernel : Option Nat} {kt : Option Slots}, Kernel K mem i kernel kt →
    Reads mem page i t → ∀ q ∈ t.tables, q ∈ (own riscv64 kt level t).tables ∨ K q := by
  induction t with
  | nil => exact fun _ _ q hq => absurd hq not_mem_nil
  | hole r ih => exact fun h hr q hq => ih (h.next hr.2.le) hr.2 q hq
  | leaf e r ih =>
    intro page i level kernel kt h hr q hq
    rw [own]
    split_ifs
    · exact ih (h.next hr.2.le) hr.2 q hq
    · exact ih (h.next hr.2.le) hr.2 q hq
  | table p f sub r ihs ih =>
    intro page i level kernel kt h hr q hq
    have hi := hr.2.2.le
    rw [own]
    split_ifs with hk
    · obtain ⟨hp, hsub, -⟩ := h.shared hr.2.1 hk
      rcases mem_cons.mp hq with rfl | hq
      · exact .inr hp
      rcases mem_append.mp hq with hq | hq
      · exact .inr (hsub q hq)
      · exact ih (h.next hi) hr.2.2 q hq
    rw [Slots.tables, mem_cons, mem_append]
    rcases mem_cons.mp hq with rfl | hq
    · exact .inl (.inl rfl)
    rcases mem_append.mp hq with hq | hq
    · exact (ihs (h.below hi) hr.2.1 q hq).imp_left fun h => .inr (.inl h)
    · exact (ih (h.next hi) hr.2.2 q hq).imp_left fun h => .inr (.inr h)

end Kernel

/-! ### Destroying -/

/-- The private tables of a tree at a page, with the page itself: distinct, and none of them the kernel's. -/
structure Private (K : Nat → Prop) (kt : Option Slots) (level page : Nat) (t : Slots) : Prop where
  nodup : (page :: (own riscv64 kt level t).tables).Nodup
  kernel : ∀ q ∈ page :: (own riscv64 kt level t).tables, ¬ K q

variable {e e' : Entry} {j : Nat} {ss l : List Nat}

section
variable {s : Store} {page i : Nat}

theorem set_of_ne (h : q ≠ page) : (s.set page i e).mem q = s.mem q := update_of_ne h _ _

theorem set_other (h : j ≠ i) : (s.set page i e).mem page j = s.mem page j := by
  change update s.mem page _ page j = _
  rw [update_self, update_of_ne h]

theorem set_at : (s.set page i e).mem page i = e := by
  change update s.mem page _ page i = _
  rw [update_self, update_self]

theorem set_self (h : s.mem page i = e) : s.set page i e = s := by
  rw [Store.set, Mem.set, ← h, update_eq_self, update_eq_self]

theorem set_set : (s.set page i e).set page i e' = s.set page i e' := by
  simp only [Store.set, Mem.set, update_self, update_idem]

theorem set_comm {page' : Nat} (h : page ≠ page') : (s.set page i e).set page' j e' = (s.set page' j e').set page i e := by
  simp only [Store.set, Mem.set, update_of_ne h, update_of_ne h.symm, update_comm h]

end

section privacy
variable {K : Nat → Prop} {kt : Option Slots} {level page i q f : Nat} {kernel : Option Nat} {t sub rest : Slots} {mem mem' : Mem}

/-- No table of the tree is the page itself. -/
theorem Private.ne (h : Private K kt level page t) (hk : Kernel K mem i kernel kt) (hr : Reads mem page i t) {x : Nat} (hx : x ∈ t.tables) :
    x ≠ page := by
  rintro rfl
  rcases hk.table_cases hr x hx with hin | hin
  · exact (nodup_cons.mp h.nodup).1 hin
  · exact h.kernel x mem_cons_self hin

/-- Writing an earlier entry of the page leaves the rest of the tree. -/
theorem Private.set (h : Private K kt level page t) {s : Store} (hk : Kernel K s.mem (i + 1) kernel kt) (hr : Reads s.mem page (i + 1) t)
    {e : Entry} : Reads (s.set page i e).mem page (i + 1) t ∧ Kernel K (s.set page i e).mem (i + 1) kernel kt :=
  ⟨hr.congr (fun _ hj => set_other (ne_of_gt hj)) fun _ hx => set_of_ne (h.ne hk hr hx),
    hk.congr fun _ hx => set_of_ne fun heq => h.kernel page mem_cons_self (heq ▸ hx)⟩

/-- The parts of a private table. -/
theorem Private.parts (h : Private K kt level page (.table q f sub rest)) (hkt : kernelTable kt q f = false) :
    Private K (below kt) (level + 1) q sub ∧ Private K (next kt) level page rest ∧
    (∀ x ∈ q :: (own riscv64 (below kt) (level + 1) sub).tables, x ≠ page ∧ x ∉ (own riscv64 (next kt) level rest).tables) := by
  obtain ⟨hnodup, hkernel⟩ := h
  rw [own_table hkt, Slots.tables] at hnodup hkernel
  obtain ⟨hpage, hnodup⟩ := nodup_cons.mp hnodup
  obtain ⟨hq, hparts⟩ := nodup_cons.mp hnodup
  obtain ⟨hsub, hrest, hdisj⟩ := nodup_append.mp hparts
  rw [mem_cons, mem_append, not_or, not_or] at hpage
  rw [mem_append, not_or] at hq
  refine ⟨⟨nodup_cons.mpr ⟨hq.1, hsub⟩, fun x hx => ?_⟩, ⟨nodup_cons.mpr ⟨hpage.2.2, hrest⟩, fun x hx => ?_⟩, fun x hx => ?_⟩
  · exact hkernel x (mem_cons_of_mem _ (cons_subset_cons q (subset_append_left ..) hx))
  · exact hkernel x (cons_subset_cons page (subset_cons_of_subset q (subset_append_right ..)) hx)
  · rcases mem_cons.mp hx with rfl | hx
    · exact ⟨symm hpage.1, hq.2⟩
    · exact ⟨fun heq => hpage.2.1 (heq ▸ hx), fun hx' => hdisj x hx x hx' rfl⟩

/-- Tables written apart from the page and its private tables leave the tree. -/
theorem Kernel.reads_congr (level : Nat) (hk : Kernel K mem i kernel kt) (hr : Reads mem page i t)
    (mem' : Mem) (hmem : ∀ x ∈ page :: (own riscv64 kt level t).tables, mem' x = mem x)
    (hK : ∀ x, K x → mem' x = mem x) : Reads mem' page i t ∧ Kernel K mem' i kernel kt := by
  refine ⟨hr.congr (fun j _ => by rw [hmem page mem_cons_self]) fun x hx => ?_, hk.congr hK⟩
  rcases hk.table_cases hr x hx with hin | hin
  · exact hmem x (mem_cons_of_mem _ hin)
  · exact hK x hin

end privacy

/-- What the loop over the entries of a table has done: the allocator is as the tree's teardown leaves it, only the table and
    the private tables below it were written, and those were given back. -/
structure Torn (kt : Option Slots) (level page : Nat) (t : Slots) (s s' : Store) : Prop where
  pmm : s'.pmm = Memory.destroyTable riscv64 kt level s.pmm t
  mem : ∀ q, q ∉ page :: (own riscv64 kt level t).tables → s'.mem q = s.mem q
  freed : ∃ l, s'.freed = s.freed ++ l ∧ l.Perm (own riscv64 kt level t).tables

theorem range_from {i : Nat} (hi : i < 512) : range' i (512 - i) = i :: range' (i + 1) (512 - (i + 1)) := by
  rw [show 512 - i = (512 - (i + 1)) + 1 by omega, range'_succ]

theorem destroyTable_loop (d : Nat) (s : Store) (page : Nat) (kernel : Option Nat) : destroyTable (d + 1) s page kernel =
    ((range' 0 (512 - 0)).foldl (destroyEntry (destroyTable d) page kernel) s).freeTable page := by
  rw [destroyTable, range_eq_range']

theorem own_leaf_tables (kt : Option Slots) (level : Nat) (e : Pte) (r : Slots) :
    (own riscv64 kt level (.leaf e r)).tables = (own riscv64 (next kt) level r).tables := by
  rw [own]
  split_ifs <;> rfl

theorem destroyLoop_torn {K : Nat → Prop} : ∀ (level : Nat) {d page i : Nat} {kernel : Option Nat} {kt : Option Slots} {s : Store},
    Reads s.mem page i t → Depth d t → Kernel K s.mem i kernel kt → Private K kt level page t →
    Torn kt level page t s ((range' i (512 - i)).foldl (destroyEntry (destroyTable d) page kernel) s) := by
  induction t with
  | nil =>
    intro level d page i kernel kt s hr _ _ _
    cases hr
    exact ⟨rfl, fun _ _ => rfl, [], (append_nil _).symm, .refl _⟩
  | hole r ih =>
    intro level d page i kernel kt s hr hd hk hp
    have hi := hr.2.le
    have hstep : destroyEntry (destroyTable d) page kernel s i = s := by simp only [destroyEntry, hr.1]
    rw [range_from hi, foldl_cons, hstep]
    obtain ⟨hpmm, hmem, hfreed⟩ := ih level hr.2 hd (hk.next hi) ⟨hp.nodup, hp.kernel⟩
    exact ⟨hpmm, hmem, hfreed⟩
  | leaf e r ih =>
    intro level d page i kernel kt s hr hd hk hp
    have hi := hr.2.le
    have htables := own_leaf_tables kt level e r
    have hp' : Private K (next kt) level page r := ⟨htables ▸ hp.nodup, htables ▸ hp.kernel⟩
    rw [range_from hi, foldl_cons]
    -- the three ways an entry ends: the kernel's, a page given back, a page that is not counted
    have hgo : ∀ {s₁ : Store}, Reads s₁.mem page (i + 1) r → Kernel K s₁.mem (i + 1) kernel (next kt) →
        (∀ q, q ≠ page → s₁.mem q = s.mem q) → s₁.freed = s.freed →
        s₁.pmm = (if kernelLeaf kt e || riscv64.block level || !riscv64.shares e then s.pmm else s.pmm.free e.phys 1) →
        Torn kt level page (.leaf e r) s ((range' (i + 1) (512 - (i + 1))).foldl (destroyEntry (destroyTable d) page kernel) s₁) := by
      intro s₁ hr₁ hk₁ hmem₁ hfreed₁ hpmm₁
      obtain ⟨hpmm, hmem, hfreed⟩ := ih level hr₁ hd.2 hk₁ hp'
      refine ⟨?_, fun q hq => ?_, ?_⟩
      · rw [hpmm, hpmm₁]
        rfl
      · rw [htables] at hq
        exact (hmem q hq).trans (hmem₁ q fun heq => hq (heq ▸ mem_cons_self))
      · rw [htables, ← hfreed₁]
        exact hfreed
    obtain ⟨hr', hk'⟩ := hp'.set (hk.next hi) hr.2
    rw [destroyEntry, hr.1]
    simp only [(hk.isKernels_eq hi).1]
    rcases hkl : kernelLeaf kt e with - | -
    · rcases hu : e.user with - | -
      · refine hgo hr' hk' (fun q hq => set_of_ne hq) rfl ?_
        simp [riscv64, hu, Store.set]
      refine hgo hr' hk' (fun q hq => set_of_ne hq) rfl ?_
      rw [hkl]
      simp [riscv64, hu, Store.set]
    · exact hgo hr.2 (hk.next hi) (fun _ _ => rfl) rfl (by rw [hkl]; rfl)
  | table q f sub r ihs ih =>
    intro level d page i kernel kt s hr hd hk hp
    have hi := hr.2.2.le
    rw [range_from hi, foldl_cons]
    rcases hkt : kernelTable kt q f with - | -
    · obtain ⟨hpq, hpr, hapart⟩ := hp.parts hkt
      rcases d with - | d
      · exact absurd hd id
      have hsub := ihs (level + 1) hr.2.1 hd.1 (hk.below hi) hpq
      have hstep : destroyEntry (destroyTable (d + 1)) page kernel s i =
          (destroyTable (d + 1) s q (kernelChild s.mem kernel i)).set page i .invalid := by
        simp only [destroyEntry, hr.1, (hk.isKernels_eq hi).2, hkt, Bool.false_eq_true, if_false]
      rw [hstep, destroyTable_loop]
      generalize (range' 0 (512 - 0)).foldl (destroyEntry (destroyTable d) q (kernelChild s.mem kernel i)) s = s₁ at hsub ⊢
      -- the table below and its own tables are apart from the rest of this one
      have hkeep : ∀ x ∈ page :: (own riscv64 (next kt) level r).tables, s₁.mem x = s.mem x := fun x hx => hsub.mem x fun hx' => by
        rcases mem_cons.mp hx with rfl | hx
        · exact (hapart x hx').1 rfl
        · exact (hapart x hx').2 hx
      have hkernel : ∀ x, K x → s₁.mem x = s.mem x := fun x hx => hsub.mem x fun hx' => hpq.kernel x hx' hx
      obtain ⟨hr₁, hk₁⟩ := (hk.next hi).reads_congr level hr.2.2 (s₁.freeTable q).mem hkeep hkernel
      obtain ⟨hr₂, hk₂⟩ := hpr.set hk₁ hr₁
      obtain ⟨hpmm, hmem, l, hl, hperm⟩ := ih level hr₂ hd.2 hk₂ hpr
      obtain ⟨l', hl', hperm'⟩ := hsub.freed
      refine ⟨?_, fun x hx => ?_, l' ++ [q] ++ l, ?_, ?_⟩
      · rw [hpmm, Memory.destroyTable, hkt]
        change Memory.destroyTable riscv64 (next kt) level (s₁.pmm.free q 1) r = _
        rw [hsub.pmm]
        rfl
      · rw [own_table hkt, Slots.tables, mem_cons, mem_cons, mem_append, not_or, not_or, not_or] at hx
        obtain ⟨hxp, hxq, hxs, hxr⟩ := hx
        rw [hmem x fun hx => (mem_cons.mp hx).elim hxp hxr, set_of_ne hxp]
        exact hsub.mem x fun hx => (mem_cons.mp hx).elim hxq hxs
      · rw [hl]
        change s₁.freed ++ [q] ++ l = _
        rw [hl']
        simp
      · rw [own_table hkt, append_assoc]
        exact perm_middle.trans ((hperm'.append hperm).cons q)
    · have hown : own riscv64 kt level (.table q f sub r) = .hole (own riscv64 (next kt) level r) := own_table_skip hkt sub r
      have hstep : destroyEntry (destroyTable d) page kernel s i = s := by
        simp only [destroyEntry, hr.1, (hk.isKernels_eq hi).2, hkt, if_true]
      have hp' : Private K (next kt) level page r := by
        obtain ⟨h₁, h₂⟩ := hp
        rw [hown] at h₁ h₂
        exact ⟨h₁, h₂⟩
      have hd' : Depth d r := by
        rcases d with - | d
        · exact absurd hd id
        · exact hd.2
      obtain ⟨hpmm, hmem, hfreed⟩ := ih level hr.2.2 hd' (hk.next hi) hp'
      rw [hstep]
      refine ⟨?_, by rw [hown]; exact hmem, by rw [hown]; exact hfreed⟩
      rw [hpmm, Memory.destroyTable, if_pos hkt]

/-! ### Cloning -/

/-- A table about to be cloned from an index on: the parent's tree stands at `src`, what the new table held at `dst`. -/
structure Ready (K : Nat → Prop) (kernel : Option Nat) (kt : Option Slots) (level d dst src i : Nat) (t old : Slots) (s : Store) : Prop where
  ok : s.pmm.Ok
  max : ∀ pa, s.pmm.getRef pa ≤ 65535
  kernelOk : KernelOk riscv64 s.pmm kt
  kernelUsed : ∀ q, K q → ¬ s.pmm.Free q
  pages : ∀ x ∈ (own riscv64 kt level t).frames, ¬ s.pmm.Free x
  inert : Inert riscv64 kt level old
  oldTables : ∀ q ∈ old.tables, K q
  reads : Reads s.mem src i t
  old : Reads s.mem dst i old
  depth : Depth d t
  kernel : Kernel K s.mem i kernel kt
  priv : Private K kt level src t
  used : ∀ q ∈ src :: (own riscv64 kt level t).tables, ¬ s.pmm.Free q
  dstUsed : ¬ s.pmm.Free dst
  apart : dst ∉ src :: (own riscv64 kt level t).tables
  dstKernel : ¬ K dst

/-- What cloning has done: what it does to the trees, and nothing to other tables or to earlier entries. -/
structure Made (kt : Option Slots) (level dst src i : Nat) (t : Slots) (c : Clone) (s : Store) (r : Bool × Store) : Prop where
  rc : r.1 = c.rc
  pmm : r.2.pmm = c.pmm
  new : Reads r.2.mem dst i c.dst
  parent : Reads r.2.mem src i c.src
  mem : ∀ q, q ∉ dst :: c.wrote → q ∉ src :: (own riscv64 kt level t).tables → r.2.mem q = s.mem q
  before : ∀ j < i, r.2.mem dst j = s.mem dst j ∧ r.2.mem src j = s.mem src j
  freed : r.2.freed = s.freed

section cloning
variable {K : Nat → Prop} {kernel : Option Nat} {kt : Option Slots} {level d dst src i : Nat} {t old : Slots} {s s₁ : Store}

theorem Ready.cloned (h : Ready K kernel kt level d dst src i t old s) : Cloned riscv64 kt level s.pmm t (Memory.cloneTable riscv64 kt level s.pmm t old) :=
  cloneTable_cloned t h.ok h.max h.kernelOk h.pages h.inert

/-- The entry at an index has been dealt with: tables `ws` were taken for it, and `ss` are private tables below it. -/
structure Turn (kt : Option Slots) (level dst src i : Nat) (t rest : Slots) (ws ss l : List Nat) (s s₁ : Store) : Prop where
  grown : riscv64.Grown s.pmm s₁.pmm ws l
  mem : ∀ q, q ∉ dst :: ws → q ∉ src :: ss → s₁.mem q = s.mem q
  dst : ∀ j, j ≠ i → s₁.mem dst j = s.mem dst j
  src : ∀ j, j ≠ i → s₁.mem src j = s.mem src j
  freed : s₁.freed = s.freed
  part : (own riscv64 kt level t).tables = ss ++ (own riscv64 (next kt) level rest).tables
  frames : ∀ x ∈ (own riscv64 (next kt) level rest).frames, x ∈ (own riscv64 kt level t).frames

section
variable {rest : Slots} {ws : List Nat} (h : Ready K kernel kt level d dst src i t old s)
  (hturn : Turn kt level dst src i t rest ws ss l s s₁)
include h hturn

/-- The parts of what the parent owns: the tables below this entry, and those of the later ones. -/
theorem Ready.parts :
    Private K (next kt) level src rest ∧ (∀ q ∈ src :: (ss ++ (own riscv64 (next kt) level rest).tables), ¬ s.pmm.Free q ∧ ¬ K q ∧ q ≠ dst) ∧
    (∀ q ∈ ss, q ≠ src ∧ q ∉ (own riscv64 (next kt) level rest).tables) := by
  have hused := h.used
  have hapart := h.apart
  obtain ⟨hnodup, hkernel⟩ := h.priv
  rw [hturn.part] at hused hnodup hkernel hapart
  obtain ⟨hsrc, hparts⟩ := nodup_cons.mp hnodup
  obtain ⟨-, -, hdisj⟩ := nodup_append.mp hparts
  refine ⟨⟨hnodup.sublist ((sublist_append_right _ _).cons_cons _), fun q hq => hkernel q ?_⟩,
    fun q hq => ⟨hused q hq, hkernel q hq, fun heq => hapart (heq ▸ hq)⟩, fun q hq => ⟨?_, fun hq' => hdisj q hq q hq' rfl⟩⟩
  · exact cons_subset_cons src (subset_append_right ..) hq
  · rintro rfl
    exact hsrc (mem_append_left _ hq)

/-- Neither the kernel's tables nor those of the later entries were written. -/
theorem Ready.same (hq : q ∈ (own riscv64 (next kt) level rest).tables ∨ K q) : s₁.mem q = s.mem q := by
  obtain ⟨hpriv, hused, hss⟩ := h.parts hturn
  have hsrcs : q ∉ src :: ss := by
    intro hin
    rcases hq with hq | hq
    · rcases mem_cons.mp hin with rfl | hin
      · exact (nodup_cons.mp hpriv.nodup).1 hq
      · exact (hss q hin).2 hq
    · refine (hused q ?_).2.1 hq
      exact cons_subset_cons src (subset_append_left ..) hin
  refine hturn.mem q (fun hin => ?_) hsrcs
  rcases mem_cons.mp hin with rfl | hin
  · rcases hq with hq | hq
    · exact (hused q (mem_cons_of_mem _ (mem_append_right _ hq))).2.2 rfl
    · exact h.dstKernel hq
  have hfree := hturn.grown.fresh q hin
  rcases hq with hq | hq
  · exact (hused q (mem_cons_of_mem _ (mem_append_right _ hq))).1 hfree
  · exact h.kernelUsed q hq hfree

theorem Ready.next (hrest : Reads s.mem src (i + 1) rest) (hdepth : Depth d rest) :
    Ready K kernel (next kt) level d dst src (i + 1) rest old.rest s₁ := by
  have hi : i < 512 := hrest.le
  have hk := h.kernel.next hi
  obtain ⟨hpriv, hused, -⟩ := h.parts hturn
  have hfree : ∀ q, s₁.pmm.Free q → s.pmm.Free q := fun q hf => ((hturn.grown.free q).mp hf).1
  have hold : ∀ q ∈ old.rest.tables, K q := fun q hq => h.oldTables q (Slots.mem_rest hq)
  exact {
    ok := hturn.grown.ok h.ok
    max := hturn.grown.max
    kernelOk := h.kernelOk.next.grown hturn.grown
    kernelUsed := fun q hq hf => h.kernelUsed q hq (hfree q hf)
    pages := fun x hx hf => h.pages x (hturn.frames x hx) (hfree x hf)
    inert := h.inert.rest
    oldTables := hold
    reads := hrest.congr (fun j hj => hturn.src j (ne_of_gt hj)) fun q hq => h.same hturn (hk.table_cases hrest q hq)
    old := (h.old.rest hi).congr (fun j hj => hturn.dst j (ne_of_gt hj)) fun q hq => h.same hturn (.inr (hold q hq))
    depth := hdepth
    kernel := hk.congr fun q hq => h.same hturn (.inr hq)
    priv := hpriv
    used := fun q hq hf => (hused q (cons_subset_cons src (subset_append_right ..) hq)).1 (hfree q hf)
    dstUsed := fun hf => h.dstUsed (hfree dst hf)
    apart := fun hin => (hused dst (cons_subset_cons src (subset_append_right ..) hin)).2.2 rfl
    dstKernel := h.dstKernel }

end

variable {c : Clone} {m : Pmm}

/-- The later entries after this one: `new` and `parent` say how this entry reads in the memory that the later ones leave. -/
theorem Made.cons {rest : Slots} {ws ss l : List Nat} {c' : Clone} {r : Bool × Store} (dstOf srcOf : Slots → Slots)
    (h : Ready K kernel kt level d dst src i t old s) (hturn : Turn kt level dst src i t rest ws ss l s s₁)
    (hrest : Made (next kt) level dst src (i + 1) rest c' s₁ r) (hfresh : ∀ q ∈ c'.wrote, s₁.pmm.Free q)
    (hc : c = ⟨c'.rc, dstOf c'.dst, srcOf c'.src, c'.pmm, ws ++ c'.wrote⟩)
    (hnew : ∀ mem : Mem, mem dst i = s₁.mem dst i → (∀ q ∈ ws, mem q = s₁.mem q) → (∀ q, K q → mem q = s₁.mem q) →
      ∀ x, Reads mem dst (i + 1) x → Reads mem dst i (dstOf x))
    (hparent : ∀ mem : Mem, mem src i = s₁.mem src i → (∀ q ∈ ss, mem q = s₁.mem q) → (∀ q, K q → mem q = s₁.mem q) →
      ∀ x, Reads mem src (i + 1) x → Reads mem src i (srcOf x)) : Made kt level dst src i t c s r := by
  obtain ⟨-, hused, hss⟩ := h.parts hturn
  have hsrc := hused src mem_cons_self
  have hlater : ∀ q ∈ (own riscv64 (next kt) level rest).tables, ¬ s.pmm.Free q ∧ ¬ K q := fun q hq =>
    have hq := hused q (mem_cons_of_mem _ (mem_append_right _ hq))
    ⟨hq.1, hq.2.1⟩
  have hfree : ∀ q ∈ c'.wrote, s.pmm.Free q ∧ q ∉ ws := fun q hq => (hturn.grown.free q).mp (hfresh q hq)
  have hkeep : ∀ q, q ∈ ws ∨ q ∈ ss ∨ K q → r.2.mem q = s₁.mem q := by
    intro q hq
    have hcases : (s.pmm.Free q ∧ q ∈ ws) ∨ (¬ s.pmm.Free q ∧ q ≠ dst ∧ q ≠ src ∧ q ∉ (own riscv64 (next kt) level rest).tables) := by
      rcases hq with hq | hq | hq
      · exact .inl ⟨hturn.grown.fresh q hq, hq⟩
      · have h₁ := hused q (mem_cons_of_mem _ (mem_append_left _ hq))
        exact .inr ⟨h₁.1, h₁.2.2, hss q hq⟩
      · exact .inr ⟨h.kernelUsed q hq, fun heq => h.dstKernel (heq ▸ hq), fun heq => hsrc.2.1 (heq ▸ hq), fun hin => (hlater q hin).2 hq⟩
    rcases hcases with ⟨hf, hin⟩ | ⟨hnf, hd, hs, hl⟩
    · refine hrest.mem q (fun hin' => ?_) fun hin' => ?_
      · rcases mem_cons.mp hin' with rfl | hin'
        · exact h.dstUsed hf
        · exact (hfree q hin').2 hin
      · rcases mem_cons.mp hin' with rfl | hin'
        · exact hsrc.1 hf
        · exact (hlater q hin').1 hf
    · exact hrest.mem q (fun hin' => (mem_cons.mp hin').elim hd fun hin' => hnf (hfree q hin').1)
        fun hin' => (mem_cons.mp hin').elim hs hl
  subst hc
  refine ⟨hrest.rc, hrest.pmm, ?_, ?_, fun q hd hs => ?_, fun j hj => ?_, hrest.freed.trans hturn.freed⟩
  · exact hnew _ (hrest.before i (Nat.lt_succ_self i)).1 (fun q hq => hkeep q (.inl hq)) (fun q hq => hkeep q (.inr (.inr hq))) _ hrest.new
  · exact hparent _ (hrest.before i (Nat.lt_succ_self i)).2 (fun q hq => hkeep q (.inr (.inl hq))) (fun q hq => hkeep q (.inr (.inr hq))) _
      hrest.parent
  · rw [hturn.part] at hs
    simp only [mem_cons, mem_append, not_or] at hd hs
    rw [hrest.mem q, hturn.mem q]
    all_goals simp
    · exact ⟨hd.1, hd.2.1⟩
    · exact ⟨hs.1, hs.2.1⟩
    · exact ⟨hd.1, hd.2.2⟩
    · exact ⟨hs.1, hs.2.2⟩
  · obtain ⟨h₁, h₂⟩ := hrest.before j (Nat.lt_succ_of_lt hj)
    exact ⟨h₁.trans (hturn.dst j (ne_of_lt hj)), h₂.trans (hturn.src j (ne_of_lt hj))⟩

theorem cloneLoop_from {turn : Store → Nat → Bool × Store} (hi : i < 512) (s : Store) : cloneLoop turn (range' i (512 - i)) s =
      if (turn s i).1 then cloneLoop turn (range' (i + 1) (512 - (i + 1))) (turn s i).2 else turn s i := by
  rw [range_from hi, cloneLoop]

section
variable (h : Ready K kernel kt level d dst src i t old s)
include h

/-- An entry that takes no table. -/
theorem Turn.plain {rest : Slots}
    (hg : riscv64.Grown s.pmm m [] l) (hpart : (own riscv64 kt level t).tables = ss ++ (own riscv64 (next kt) level rest).tables)
    (hframes : ∀ x ∈ (own riscv64 (next kt) level rest).frames, x ∈ (own riscv64 kt level t).frames) :
    Turn kt level dst src i t rest [] ss l s (({ s with pmm := m }.set src i e).set dst i e') := by
  have hne : dst ≠ src := ne_of_not_mem_cons h.apart
  refine ⟨hg, fun q hd hs => ?_, fun j hj => ?_, fun j hj => ?_, rfl, hpart, hframes⟩
  · rw [set_of_ne (ne_of_not_mem_cons hd), set_of_ne (ne_of_not_mem_cons hs)]
  · change update (update s.mem src _) dst _ dst j = _
    rw [update_self, update_of_ne hj]
    exact congrFun (update_of_ne hne _ _) j
  · rw [set_of_ne hne.symm, set_other hj]

/-- The loop stops here. -/
theorem Made.stop : Made kt level dst src i t ⟨false, old, t, s.pmm, []⟩ s (false, s) :=
  ⟨rfl, rfl, h.old, h.reads, fun _ _ _ => rfl, fun _ _ => ⟨rfl, rfl⟩, rfl⟩

end

/-- A new table at the entry, with nothing in it yet. -/
structure Placed (dst i new : Nat) (s s₁ : Store) : Prop where
  freed : s₁.freed = s.freed
  mem : ∀ q, q ≠ dst → q ≠ new → s₁.mem q = s.mem q
  zeroed : ∀ j, s₁.mem new j = .invalid
  entry : s₁.mem dst i = .table new 1
  other : ∀ j, j ≠ i → s₁.mem dst j = s.mem dst j

/-- The store with a new table at an entry. -/
def Store.place (s : Store) (dst i new : Nat) (m : Pmm) : Store :=
  (Store.mk (update (s.set dst i .invalid).mem new fun _ => .invalid) m s.freed).set dst i (.table new 1)

theorem placed {new : Nat} (hne : new ≠ dst) (m : Pmm) : Placed dst i new s (s.place dst i new m) := by
  refine ⟨rfl, fun q hd hn => ?_, fun j => ?_, set_at, fun j hj => ?_⟩
  · rw [Store.place, set_of_ne hd]
    exact (update_of_ne hn _ _).trans (set_of_ne hd)
  · rw [Store.place, set_of_ne hne]
    change (update (s.set dst i .invalid).mem new (fun _ => .invalid) : Mem) new j = _
    rw [update_self]
  · rw [Store.place, set_other hj]
    change (update (s.set dst i .invalid).mem new (fun _ => .invalid) : Mem) dst j = _
    rw [update_of_ne hne.symm, set_other hj]

theorem zeros_tables : ∀ t : Slots, t.zeros.tables = []
  | .nil => rfl
  | .hole r => zeros_tables r
  | .leaf _ r => zeros_tables r
  | .table _ _ _ r => zeros_tables r

section private_table
variable {q f : Nat} {sub r : Slots} (level sub r) in
theorem own_parts (hkt : kernelTable kt q f = false) : (own riscv64 kt level (.table q f sub r)).tables =
      (q :: (own riscv64 (below kt) (level + 1) sub).tables) ++ (own riscv64 (next kt) level r).tables ∧
    (own riscv64 kt level (.table q f sub r)).frames =
      (own riscv64 (below kt) (level + 1) sub).frames ++ (own riscv64 (next kt) level r).frames := by
  rw [own_table hkt, Slots.frames_table]
  exact ⟨rfl, rfl⟩

/-- The entries of a table from an index on are cloned as the tree is. -/
def Clones (K : Nat → Prop) (kernel : Option Nat) (kt : Option Slots) (level d dst src i : Nat) (t : Slots) : Prop :=
  ∀ {old : Slots} {s : Store}, Ready K kernel kt level d dst src i t old s →
    Made kt level dst src i t (Memory.cloneTable riscv64 kt level s.pmm t old) s
      (cloneLoop (cloneEntry (cloneTable d) dst src kernel) (range' i (512 - i)) s)

section
variable (h : Ready K kernel kt level (d + 1) dst src i (.table q f sub r) old s) (hkt : kernelTable kt q f = false)
include h hkt

/-- Without memory for the new table the clone gives up. -/
theorem Made.refused (hz : (s.pmm.alloc 1).1 = 0) :
    Made kt level dst src i (.table q f sub r) ⟨false, .hole old.rest, .table q f sub r, (s.pmm.alloc 1).2, []⟩ s
      (false, ({ s with pmm := (s.pmm.alloc 1).2 }.set src i (.table q f)).set dst i .invalid) := by
  have hr := h.reads
  have hi := hr.2.2.le
  obtain ⟨hpart, hframes⟩ := own_parts level sub r hkt
  have hsame : s.pmm.Same (s.pmm.alloc 1).2 := (Pmm.alloc_spec h.ok 1).elim (·.2) fun h => absurd hz h.1
  have hturn : Turn kt level dst src i (.table q f sub r) r [] (q :: (own riscv64 (below kt) (level + 1) sub).tables) [] s
      (({ s with pmm := (s.pmm.alloc 1).2 }.set src i (.table q f)).set dst i .invalid) :=
    .plain h (.same riscv64 h.max hsame (riscv64.alloc_range s.pmm)) hpart fun x hx => hframes ▸ mem_append_right _ hx
  have hne : src ≠ dst := (ne_of_not_mem_cons h.apart).symm
  obtain ⟨-, hused, hss⟩ := h.parts hturn
  refine .cons .hole (.table q f sub) h hturn (.stop (h.next hturn hr.2.2 h.depth.2)) nofun rfl (fun mem hd _ _ x hx => ⟨hd.trans set_at, hx⟩)
    fun mem hs hin hk x hx => ⟨hs.trans ?_, ?_, hx⟩
  · rw [set_of_ne hne, set_at]
  · refine ((h.kernel.below hi).reads_congr (level + 1) hr.2.1 mem (fun y hy => (hin y hy).trans ?_) fun y hy => (hk y hy).trans (h.same hturn (.inr hy))).1
    rw [set_of_ne (hused y (mem_cons_of_mem _ (mem_append_left _ hy))).2.2, set_of_ne (hss y hy).1]

section
variable (hne : (s.pmm.alloc 1).1 ≠ 0) (hplaced : Placed dst i (s.pmm.alloc 1).1 s s₁) (hpmm : s₁.pmm = (s.pmm.alloc 1).2)
include hne hplaced hpmm

/-- A private table of the parent, about to be cloned into the new one. -/
theorem Ready.child : Ready K (kernelChild s.mem kernel i) (below kt) (level + 1) d (s.pmm.alloc 1).1 q 0 sub sub.zeros s₁ := by
  have hi := h.reads.2.2.le
  have hg : riscv64.Grown s.pmm s₁.pmm [(s.pmm.alloc 1).1] [] := hpmm ▸ Port.Grown.alloc h.ok h.max hne
  have hnew : s.pmm.Free (s.pmm.alloc 1).1 := hg.fresh _ (mem_singleton_self _)
  have hfree : ∀ x, s₁.pmm.Free x → s.pmm.Free x := fun x hf => ((hg.free x).mp hf).1
  obtain ⟨hpriv, -, -⟩ := h.priv.parts hkt
  have hin : ∀ x ∈ q :: (own riscv64 (below kt) (level + 1) sub).tables, x ∈ src :: (own riscv64 kt level (.table q f sub r)).tables := by
    intro x hx
    rw [own_table hkt]
    exact mem_cons_of_mem _ (cons_subset_cons q (subset_append_left ..) hx)
  have hkernel : ∀ x, K x → s₁.mem x = s.mem x := fun x hx =>
    hplaced.mem x (fun heq => h.dstKernel (heq ▸ hx)) fun heq => h.kernelUsed x hx (heq ▸ hnew)
  have hsame : ∀ x ∈ q :: (own riscv64 (below kt) (level + 1) sub).tables, s₁.mem x = s.mem x := fun x hx =>
    hplaced.mem x (fun heq => h.apart (heq ▸ hin x hx)) fun heq => h.used x (hin x hx) (heq ▸ hnew)
  obtain ⟨hreads, hk⟩ := (h.kernel.below hi).reads_congr (level + 1) h.reads.2.1 s₁.mem hsame hkernel
  exact {
    ok := hg.ok h.ok
    max := hg.max
    kernelOk := h.kernelOk.below.grown hg
    kernelUsed := fun x hx hf => h.kernelUsed x hx (hfree x hf)
    pages := fun x hx hf => by
      refine h.pages x ?_ (hfree x hf)
      rw [own_table hkt, Slots.frames_table]
      exact mem_append_left _ hx
    inert := zeros_inert (below kt) (level + 1) sub
    oldTables := fun x hx => absurd (zeros_tables sub ▸ hx) not_mem_nil
    reads := hreads
    old := h.reads.2.1.zeros hplaced.zeroed
    depth := h.depth.1
    kernel := hk
    priv := hpriv
    used := fun x hx hf => h.used x (hin x hx) (hfree x hf)
    dstUsed := fun hf => ((hg.free _).mp hf).2 (mem_singleton_self _)
    apart := fun hx => h.used _ (hin _ hx) hnew
    dstKernel := fun hx => h.kernelUsed _ hx hnew }

variable {x : Bool × Store} (hc : c = Memory.cloneTable riscv64 (below kt) (level + 1) s₁.pmm sub sub.zeros)
  (hmade : Made (below kt) (level + 1) (s.pmm.alloc 1).1 q 0 sub c s₁ x)
include hc hmade

/-- The entry of a private table, once its clone is made or given up. -/
theorem Ready.turn :
    ∃ l, Turn kt level dst src i (.table q f sub r) r ((s.pmm.alloc 1).1 :: c.wrote) (q :: (own riscv64 (below kt) (level + 1) sub).tables) l s x.2 ∧
      x.2.mem dst i = .table (s.pmm.alloc 1).1 1 ∧ x.2.mem src i = .table q f := by
  have hsub := h.child hkt hne hplaced hpmm
  have hcloned := hc ▸ hsub.cloned
  have hg : riscv64.Grown s.pmm s₁.pmm [(s.pmm.alloc 1).1] [] := hpmm ▸ Port.Grown.alloc h.ok h.max hne
  have hwrote : ∀ y ∈ (s.pmm.alloc 1).1 :: c.wrote, s.pmm.Free y := fun y hy => (mem_cons.mp hy).elim
    (fun heq => heq ▸ hg.fresh _ (mem_singleton_self _)) fun hy => ((hg.free y).mp (hcloned.grown.fresh y hy)).1
  obtain ⟨hpart, hframes⟩ := own_parts level sub r hkt
  obtain ⟨-, -, hapart⟩ := h.priv.parts hkt
  have hin : ∀ y ∈ q :: (own riscv64 (below kt) (level + 1) sub).tables, y ∈ src :: (own riscv64 kt level (.table q f sub r)).tables :=
    fun y hy => mem_cons_of_mem _ (hpart ▸ mem_append_left _ hy)
  have hsrc : src ≠ dst := (ne_of_not_mem_cons h.apart).symm
  have hdst : x.2.mem dst = s₁.mem dst := hmade.mem dst (fun hy => h.dstUsed (hwrote dst hy)) fun hy => h.apart (hin dst hy)
  have hsrc₁ : x.2.mem src = s.mem src := by
    have hused := h.used src mem_cons_self
    rw [hmade.mem src (fun hy => hused (hwrote src hy)) fun hy => (hapart src hy).1 rfl]
    exact hplaced.mem src hsrc fun heq => hused (heq ▸ hwrote _ mem_cons_self)
  refine ⟨[] ++ (reach riscv64 (below kt) (level + 1) s₁.pmm.freeCount sub).1,
    ⟨?_, fun y hd hs => ?_, fun j hj => ?_, fun j _ => by rw [hsrc₁], hmade.freed.trans hplaced.freed, hpart, fun y hy => ?_⟩, ?_, ?_⟩
  · have hgc := hg.trans hcloned.grown fun y hy => h.pages y (hframes ▸ mem_append_left _ ((reach_frames ..).1.subset hy))
    rw [← hmade.pmm] at hgc
    exact hgc
  · have hy : y ∉ (s.pmm.alloc 1).1 :: c.wrote := not_mem_of_not_mem_cons hd
    rw [hmade.mem y hy (not_mem_of_not_mem_cons hs)]
    exact hplaced.mem y (ne_of_not_mem_cons hd) (ne_of_not_mem_cons hy)
  · rw [hdst, hplaced.other j hj]
  · exact hframes ▸ mem_append_right _ hy
  · rw [hdst, hplaced.entry]
  · rw [hsrc₁, h.reads.1]

/-- The entries from a private table on, given the clone of what is below it. -/
theorem Made.private_table (ih : Clones K kernel (next kt) level (d + 1) dst src (i + 1) r) :
    Made kt level dst src i (.table q f sub r) (if c.rc then
        let c' := Memory.cloneTable riscv64 (next kt) level c.pmm r old.rest
        ⟨c'.rc, .table (s.pmm.alloc 1).1 1 c.dst c'.dst, .table q f c.src c'.src, c'.pmm, (s.pmm.alloc 1).1 :: (c.wrote ++ c'.wrote)⟩
      else ⟨false, .table (s.pmm.alloc 1).1 1 c.dst old.rest, .table q f c.src r, c.pmm, (s.pmm.alloc 1).1 :: c.wrote⟩) s
      (if x.1 then cloneLoop (cloneEntry (cloneTable (d + 1)) dst src kernel) (range' (i + 1) (512 - (i + 1))) x.2 else x) := by
  have hr := h.reads
  have hi := hr.2.2.le
  have hsub := h.child hkt hne hplaced hpmm
  have hcloned := hc ▸ hsub.cloned
  obtain ⟨l, hturn, hdst, hsrc⟩ := h.turn hkt hne hplaced hpmm hc hmade
  have hready := h.next hturn hr.2.2 h.depth.2
  -- both tables below still read as the clone left them
  have hk : Kernel K x.2.mem 0 (kernelChild s.mem kernel i) (below kt) := (h.kernel.below hi).congr fun y hy => h.same hturn (.inr hy)
  have hnew : ∀ mem : Mem, mem dst i = x.2.mem dst i → (∀ y ∈ (s.pmm.alloc 1).1 :: c.wrote, mem y = x.2.mem y) → (∀ y, K y → mem y = x.2.mem y) →
      ∀ z, Reads mem dst (i + 1) z → Reads mem dst i (.table (s.pmm.alloc 1).1 1 c.dst z) := fun mem hd hws hK z hz =>
    ⟨hd.trans hdst, (hk.reads_congr (level + 1) hmade.new mem (hcloned.tables ▸ hws) hK).1, hz⟩
  have hparent : ∀ mem : Mem, mem src i = x.2.mem src i → (∀ y ∈ q :: (own riscv64 (below kt) (level + 1) sub).tables, mem y = x.2.mem y) →
      (∀ y, K y → mem y = x.2.mem y) → ∀ z, Reads mem src (i + 1) z → Reads mem src i (.table q f c.src z) := fun mem hs hss hK z hz =>
    ⟨hs.trans hsrc, (hk.reads_congr (level + 1) hmade.parent mem ((own_marked hsub.kernelOk hcloned.src).1 ▸ hss) hK).1, hz⟩
  rw [hmade.rc]
  rcases hrc : c.rc with - | -
  · rw [if_neg nofun]
    have hx : x = (false, x.2) := Prod.ext (hmade.rc.trans hrc) rfl
    rw [hx]
    refine .cons _ _ h hturn (.stop hready) nofun ?_ hnew hparent
    rw [← hmade.pmm, append_nil]
  · rw [← hmade.pmm]
    exact .cons _ _ h hturn (ih hready) hready.cloned.grown.fresh rfl hnew hparent

end

end

end private_table

theorem cloneTable_loop (d : Nat) (s : Store) (dst src : Nat) (kernel : Option Nat) :
    cloneTable (d + 1) s dst src kernel = cloneLoop (cloneEntry (cloneTable d) dst src kernel) (range' 0 (512 - 0)) s := by
  rw [cloneTable, range_eq_range']

/-- The entries from an entry on that takes no table, with the tree's clone of them. -/
theorem Made.plain {r : Slots} {l : List Nat} {e : Entry} (of : Slots → Slots)
    (ih : Clones K kernel (next kt) level d dst src (i + 1) r)
    (h : Ready K kernel kt level d dst src i t old s) (hr : Reads s.mem src (i + 1) r) (hdepth : Depth d r)
    (hentry : cloneEntry (cloneTable d) dst src kernel s i = (true, ({ s with pmm := m }.set src i e).set dst i e))
    (hg : riscv64.Grown s.pmm m [] l) (hpart : (own riscv64 kt level t).tables = (own riscv64 (next kt) level r).tables)
    (hframes : ∀ x ∈ (own riscv64 (next kt) level r).frames, x ∈ (own riscv64 kt level t).frames)
    (hc : ∀ c' : Clone, c' = Memory.cloneTable riscv64 (next kt) level m r old.rest → c = ⟨c'.rc, of c'.dst, of c'.src, c'.pmm, c'.wrote⟩)
    (hof : ∀ {mem : Mem} {p x}, mem p i = e → (∀ q, K q → mem q = s.mem q) → Reads mem p (i + 1) x → Reads mem p i (of x)) :
    Made kt level dst src i t c s (cloneLoop (cloneEntry (cloneTable d) dst src kernel) (range' i (512 - i)) s) := by
  have hturn : Turn kt level dst src i t r [] [] l s (({ s with pmm := m }.set src i e).set dst i e) := .plain h hg hpart hframes
  have hready := h.next hturn hr hdepth
  have hmade := ih hready
  have hne : src ≠ dst := (ne_of_not_mem_cons h.apart).symm
  rw [cloneLoop_from hr.le, hentry]
  have hsame : ∀ {mem : Mem}, (∀ q, K q → mem q = _) → ∀ q, K q → mem q = s.mem q := fun hk q hq =>
    (hk q hq).trans (h.same hturn (.inr hq))
  refine .cons of of h hturn hmade hready.cloned.grown.fresh (hc _ rfl) (fun mem hd _ hk x => hof (hd.trans set_at) (hsame hk))
    fun mem hs _ hk x => hof (hs.trans ?_) (hsame hk)
  rw [set_of_ne hne, set_at]

theorem cloneLoop_made : ∀ (level : Nat) {d dst src i : Nat} {kernel : Option Nat} {kt : Option Slots},
    Clones K kernel kt level d dst src i t := by
  induction t with
  | nil =>
    intro level d dst src i kernel kt old s h
    have hi : i = 512 := h.reads
    subst hi
    exact ⟨rfl, rfl, rfl, rfl, fun _ _ _ => rfl, fun _ _ => ⟨rfl, rfl⟩, rfl⟩
  | hole r ih =>
    intro level d dst src i kernel kt old s h
    have hr := h.reads
    refine .plain .hole (ih level) h hr.2 h.depth ?_ (.refl riscv64 h.max) rfl (fun _ => id)
      (fun c' hc' => by rw [hc', Memory.cloneTable]) fun hd _ hx => ⟨hd, hx⟩
    rw [cloneEntry, hr.1, set_self hr.1]
  | leaf e r ih =>
    intro level d dst src i kernel kt old s h
    have hr := h.reads
    have hi := hr.2.le
    have hframes : ∀ x ∈ (own riscv64 (next kt) level r).frames, x ∈ (own riscv64 kt level (.leaf e r)).frames := by
      rw [own]
      split_ifs
      · exact fun _ => id
      · exact fun x hx => mem_cons_of_mem _ hx
    have hne : dst ≠ src := ne_of_not_mem_cons h.apart
    rcases hkl : kernelLeaf kt e with - | -
    · rcases hu : e.user with - | -
      · refine .plain (.leaf e) (ih level) h hr.2 h.depth.2 ?_ (.refl riscv64 h.max) (own_leaf_tables ..) hframes (fun c' hc' => ?_)
          fun hd _ hx => ⟨hd, hx⟩
        · rw [cloneEntry, hr.1]
          simp only [(h.kernel.isKernels_eq hi).1, hkl, hu, Bool.false_eq_true, if_false, set_set]
          rw [set_self hr.1]
        · rw [hc', Memory.cloneTable]
          simp [riscv64, hu]
      · refine .plain (.leaf (vmCowShareLeaf s.pmm e 1).1) (ih level) h hr.2 h.depth.2 ?_ (.share riscv64 h.max e) (own_leaf_tables ..)
          hframes (fun c' hc' => ?_) fun hd _ hx => ⟨hd, hx⟩
        · rw [cloneEntry, hr.1]
          simp only [(h.kernel.isKernels_eq hi).1, hkl, hu, Bool.false_eq_true, if_false, if_true]
          rw [set_comm hne, set_set]
        · rw [hc', Memory.cloneTable, hkl]
          simp [riscv64, hu]
    · refine .plain (.leaf e) (ih level) h hr.2 h.depth.2 ?_ (.refl riscv64 h.max) (own_leaf_tables ..) hframes (fun c' hc' => ?_)
        fun hd _ hx => ⟨hd, hx⟩
      · rw [cloneEntry, hr.1]
        simp only [(h.kernel.isKernels_eq hi).1, hkl, if_true, set_set]
        rw [set_self hr.1]
      · rw [hc', Memory.cloneTable, hkl]
        simp
  | table q f sub r ihs ih =>
    intro level d dst src i kernel kt old s h
    have hr := h.reads
    have hi := hr.2.2.le
    rcases d with - | d
    · exact absurd h.depth id
    rcases hkt : kernelTable kt q f with - | -
    · have hentry : cloneEntry (cloneTable (d + 1)) dst src kernel s i = if (s.pmm.alloc 1).1 = 0 then
          (false, ({ s with pmm := (s.pmm.alloc 1).2 }.set src i (.table q f)).set dst i .invalid)
          else cloneTable (d + 1) (s.place dst i (s.pmm.alloc 1).1 (s.pmm.alloc 1).2) (s.pmm.alloc 1).1 q (kernelChild s.mem kernel i) := by
        rw [cloneEntry, hr.1]
        simp only [(h.kernel.isKernels_eq hi).2, Store.allocTable]
        rw [set_self (s := { s with pmm := (s.pmm.alloc 1).2 }) hr.1]
        split_ifs <;> simp_all [Store.place, Store.set]
      rw [cloneLoop_from hi, hentry, Memory.cloneTable, hkt]
      change Made kt level dst src i _ (if (s.pmm.alloc 1).1 = 0 then _ else _) _ _
      rcases eq_or_ne (s.pmm.alloc 1).1 0 with hz | hne
      · rw [if_pos hz, if_pos hz]
        exact .refused h hkt hz
      have hnew : (s.pmm.alloc 1).1 ≠ dst := fun heq => h.dstUsed (heq ▸ (Port.Grown.alloc (P := riscv64) h.ok h.max hne).fresh _ (mem_singleton_self _))
      have hplaced := placed (s := s) (i := i) hnew (s.pmm.alloc 1).2
      rw [if_neg hne, if_neg hne, cloneTable_loop]
      exact .private_table h hkt hne hplaced rfl rfl (ihs (level + 1) (h.child hkt hne hplaced rfl)) (ih level)
    · have hown : own riscv64 kt level (.table q f sub r) = .hole (own riscv64 (next kt) level r) := own_table_skip hkt sub r
      obtain ⟨hq, hsub, -⟩ := h.kernel.shared hr.2.1 hkt
      have hbelow : ∀ mem : Mem, (∀ x, K x → mem x = s.mem x) → Reads mem q 0 sub := fun mem hmem =>
        hr.2.1.congr (fun j _ => by rw [hmem q hq]) fun x hx => hmem x (hsub x hx)
      refine .plain (.table q f sub) (ih level) h hr.2.2 h.depth.2 ?_ (.refl riscv64 h.max) (by rw [hown]; rfl)
        (fun x hx => by rw [hown]; exact hx) (fun c' hc' => by rw [hc', Memory.cloneTable, if_pos hkt])
        fun hd hk hx => ⟨hd, hbelow _ hk, hx⟩
      rw [cloneEntry, hr.1]
      simp only [(h.kernel.isKernels_eq hi).2, hkt, if_true, set_set]
      rw [set_self hr.1]

end cloning

end Orthox.Memory.Sv39
