import Orthox.Memory.Sv39Runs

/-! The account holds in every run, so a mapping in one user root is seen by no other root, and a table is given back
    once, when no root leads to it. What the account rests on is what the callers of `riscv64_vm_map_page` see to:
    a page mapped for the user has a reference for it. -/

namespace Orthox.Memory.Sv39
open List Function Option

/-! ### Growing and losing -/

section covers
variable {m m' : Pmm} {ts l : List Nat} {p n n' : Nat}

theorem Covers.le (h : Covers m p n) (hn : n' ≤ n) : Covers m p n' := h.imp_left hn.trans
theorem Covers.grown (h : Covers m p n) (hok : m.Ok) (hg : riscv64.Grown m m' ts l) (hfit : m.Fits l) (hl : ∀ x ∈ l, ¬ m.Free x)
    (hn : n' ≤ n + ts.count p + l.count p) : Covers m' p n' := by
  rcases em (p ∈ ts) with hin | hout
  · have hf := hg.fresh p hin
    have hzero := hok.free hf
    have hle := h.resolve_right fun hres => hres.2 hf
    have hcount : ts.count p ≤ 1 := nodup_iff_count_le_one.mp hg.nodup p
    rw [count_eq_zero_of_not_mem fun hx => hl p hx hf] at hn
    refine .inl ?_
    rw [hg.ref, if_pos hin]
    change n' ≤ 1
    omega
  · rw [count_eq_zero_of_not_mem hout] at hn
    have href := hg.ref p
    rw [if_neg hout] at href
    rcases Nat.eq_zero_or_pos (m.getRef p) with hz | hpos
    · rw [if_pos hz] at href
      rcases em (m.Free p) with hf | hf
      · have hle := h.resolve_right fun hres => hres.2 hf
        rw [count_eq_zero_of_not_mem fun hx => hl p hx hf] at hn
        exact .inl (by omega)
      · exact .inr ⟨href, fun hf' => hf ((hg.free p).mp hf').1⟩
    · have hle := h.resolve_right fun hres => absurd hres.1 (by omega)
      have := hfit p (by omega)
      rw [if_neg (by omega)] at href
      exact .inl (by omega)

end covers

section steps
variable {kr : Nat} {kt : Slots} {s s' : Machine} {x : Nat × Slots} {old rest : List (Nat × Slots)}
  {spaces : List (Nat × Slots)} {st : Store}

theorem uses_count (kr : Nat) (kt : Slots) (spaces rest : List (Nat × Slots)) (p : Nat) : (uses kr kt (spaces ++ rest)).count p =
    (spaces.flatMap (tablesOf kt)).count p + (spaces.flatMap (framesOf kt)).count p + (uses kr kt rest).count p := by
  simp only [uses, allTables, flatMap_append, count_append]
  omega

variable {p a : Nat}

theorem mem_allTables_append : p ∈ allTables kr kt (old ++ rest) ↔ p ∈ old.flatMap (tablesOf kt) ∨ p ∈ allTables kr kt rest := by
  simp only [allTables, flatMap_append, mem_append]
  exact iff_of_eq (by ac_rfl)

/-- Address spaces that took tables and references, beside others that were left alone. -/
theorem Holds.grow (h : Holds kr kt (old ++ rest) s) (new : List (Nat × Slots)) {ts l : List Nat} (hg : riscv64.Grown s.store.pmm s'.store.pmm ts l)
    (hfit : s.store.pmm.Fits l) (hl : ∀ x ∈ l, x ∈ (old ++ rest).flatMap (framesOf kt)) (hroots : s'.roots.Perm ((new ++ rest).map Prod.fst))
    (hmem : ∀ q ∈ allTables kr kt rest, s'.store.mem q = s.store.mem q)
    (hnew : ∀ x ∈ new, Reads s'.store.mem x.1 0 x.2 ∧ Depth 2 x.2 ∧ x.1 ≠ 0)
    (htables : (new.flatMap (tablesOf kt)).Perm (ts ++ old.flatMap (tablesOf kt))) (n : Nat → Nat) (hn : ∀ p, Covers s.store.pmm p (n p))
    (hframes : ∀ p, (old.flatMap (tablesOf kt)).count p + (new.flatMap (framesOf kt)).count p + (uses kr kt rest).count p ≤ n p + l.count p) :
    Holds kr kt (new ++ rest) s' := by
  have hlive : ∀ x ∈ l, ¬ s.store.pmm.Free x := fun x hx => h.unfree (mem_append_right _ (hl x hx))
  refine h.beside (fun x hx => mem_append_right _ hx) new hroots (hg.ok h.ok) hg.max hmem hnew (fun p hp => ?_) fun p => ?_
  · rw [hg.ref]
    split_ifs with hin hz
    · rfl
    all_goals
      have hp' : p ∈ allTables kr kt (old ++ rest) := by
        rw [mem_allTables_append] at hp ⊢
        exact hp.imp_left fun hp => (mem_append.mp (htables.mem_iff.mp hp)).resolve_left hin
      have hone := h.one p hp'
    · omega
    · rw [count_eq_zero_of_not_mem fun hx => h.apart hp' (hl p hx), hone]
      rfl
  · refine (hn p).grown h.ok hg hfit hlive ?_
    have := htables.count_eq p
    have := hframes p
    rw [uses_count]
    rw [count_append] at *
    omega

/-- An address space that gave back its tables and references. -/
theorem Holds.lose (h : Holds kr kt (x :: rest) s) (hlost : s.store.pmm.Lost s'.store.pmm (tablesOf kt x) (framesOf kt x))
    (hroots : s'.roots.Perm (rest.map Prod.fst)) (hmem : ∀ q ∉ tablesOf kt x, s'.store.mem q = s.store.mem q) : Holds kr kt rest s' := by
  have hone : ∀ q ∈ tablesOf kt x, s.store.pmm.getRef q = 1 := fun q hq => h.one q (mem_tables_head hq)
  have hcount : ∀ p, (uses kr kt (x :: rest)).count p = (tablesOf kt x).count p + (framesOf kt x).count p + (uses kr kt rest).count p := fun p => by
    simpa using uses_count kr kt [x] rest p
  have hapart : ∀ p ∈ allTables kr kt rest, p ∉ tablesOf kt x := fun p hp hin => h.disjoint.2 p hin hp
  have hsub : ∀ y ∈ rest, y ∈ x :: rest := fun y hy => mem_cons_of_mem _ hy
  refine h.beside hsub [] hroots (hlost.ok h.ok fun q hq => by rw [hone q hq]; exact one_ne_zero)
    (fun p => ?_) (fun q hq => hmem q (hapart q hq)) nofun (fun p hp => ?_) fun p => ?_
  · have := h.max p
    rw [hlost.ref]
    split_ifs <;> omega
  · have hframe : p ∉ framesOf kt x := fun hin => h.apart (mem_tables_rest hp) (mem_append_left _ hin)
    rw [hlost.ref, if_neg (hapart p hp), count_eq_zero_of_not_mem hframe]
    exact h.one p (mem_tables_rest hp)
  · have hc := hcount p
    rcases em (p ∈ tablesOf kt x) with hin | hout
    · have := h.once (mem_tables_head hin)
      have := count_pos_iff.mpr hin
      exact .inl (by rw [nil_append]; omega)
    rcases h.covers p with hle | hres
    · refine .inl ?_
      rw [hlost.ref, if_neg hout, nil_append]
      omega
    · exact .inr (hlost.reserved hres hout)

/-! ### The calls -/

section
variable (h : Holds kr kt spaces s)
include h

/-- Nothing but the allocator changed, and where no table or page of a user is. -/
theorem Holds.elsewhere {m : Pmm} (hok : m.Ok) (hmax : ∀ pa, m.getRef pa ≤ 65535)
    (hone : ∀ p ∈ allTables kr kt spaces, m.getRef p = 1) (hcovers : ∀ p, Covers m p ((uses kr kt spaces).count p)) :
    Holds kr kt spaces ⟨{ s.store with pmm := m }, s.roots⟩ :=
  ⟨h.roots, hok, hmax, h.kernel, h.depth, h.leaves, h.reads, hone, hcovers⟩

theorem Holds.take (n : Nat) : Holds kr kt spaces ⟨{ s.store with pmm := (s.store.pmm.alloc n).2 }, s.roots⟩ := by
  rcases Pmm.alloc_spec h.ok n with ⟨-, hsame⟩ | ⟨-, -, hfree, href, -⟩
  · refine h.elsewhere (hsame.ok h.ok) (fun p => (hsame.ref p).le.trans (h.max p)) (fun p hp => (hsame.ref p).trans (h.one p hp)) fun p => ?_
    exact (h.covers p).imp (fun hle => hle.trans (hsame.ref p).ge) fun hres => hres.alloc h.ok n
  refine h.elsewhere (Pmm.alloc_ok h.ok n) (fun p => ?_) (fun p hp => ?_) fun p => ?_
  · have := h.max p
    rw [href]
    split_ifs <;> omega
  · rw [href]
    split_ifs with hin
    · rfl
    · exact h.one p hp
  · refine (h.covers p).imp (fun hle => ?_) fun hres => hres.alloc h.ok n
    rw [href]
    split_ifs with hin
    · rw [h.ok.free (hfree p hin)] at hle
      omega
    · exact hle

theorem Holds.give {pa n : Nat} (hall : Ev.Allowed kr s (.give pa n)) :
    Holds kr kt spaces ⟨{ s.store with pmm := s.store.pmm.free pa n }, s.roots⟩ := by
  obtain ⟨href, -⟩ := s.store.pmm.free_spec pa n
  refine h.elsewhere (Pmm.free_ok h.ok pa n) (fun p => ?_) (fun p hp => ?_) fun p => ?_
  · have := h.max p
    rw [href]
    split_ifs <;> omega
  · rw [href, if_neg, h.one p hp]
    intro hin
    rcases hall p hin with hz | ⟨hno, -⟩
    · exact absurd (h.one p hp) (by omega)
    · exact h.noTable hno hp
  · rcases h.covers p with hle | hres
    · refine .inl ?_
      rw [href]
      split_ifs with hin
      · rcases hall p hin with hz | ⟨hno, hlt⟩
        · omega
        · rw [h.uses_mapped hno]
          omega
      · exact hle
    · exact .inr (hres.free pa n)

end

theorem mem_held {e : Pte} : p ∈ held (some e) ↔ e.user ∧ p = e.phys := by
  rw [held]
  split_ifs with hu
  · simp [hu]
  · simp [hu]

/-- Mapping a page writes only tables of the one root. -/
theorem Holds.map (h : Holds kr kt (x :: rest) s) {va : Nat} {e : Pte} (hall : Ev.Allowed kr s (.map x.1 va e))
    (hmap : mapPage kr s.store x.1 va e = some st) :
    (∃ t, Holds kr kt ((x.1, t) :: rest) ⟨st, s.roots⟩) ∧ st.freed = s.store.freed ∧ ∀ q ∈ allTables kr kt rest, st.mem q = s.store.mem q := by
  have hs := h.stands
  have hkr : x.1 ≠ kr := fun heq => hs.priv.kernel x.1 mem_cons_self (heq ▸ mem_cons_self)
  rw [mapPage, if_neg hkr] at hmap
  have hpath : ∀ i ∈ [vpnIndex va 2, vpnIndex va 1, vpnIndex va 0], i < 512 := fun i hi => by
    simp only [mem_cons, not_mem_nil, or_false] at hi
    rcases hi with rfl | rfl | rfl
    all_goals exact vpnIndex_lt ..
  obtain ⟨t, ts, hm⟩ := walkMap_mapped e rfl hpath hs hmap
  change Mapped _ _ _ _ _ _ _ (held (translate s.store.mem x.1 va)) _ _ _ at hm
  have hmem : ∀ q ∈ allTables kr kt rest, st.mem q = s.store.mem q := fun q hq => hm.mem q fun hin => by
    rcases mem_cons.mp hin with rfl | hin
    · exact h.disjoint.2 _ mem_cons_self hq
    rcases mem_append.mp (hm.tables.mem_iff.mp hin) with hin | hin
    · exact h.unfree (mem_append_left _ (mem_tables_rest hq)) (hm.grown.fresh q hin)
    · exact h.disjoint.2 q (mem_cons_of_mem _ hin) hq
  refine ⟨⟨t, ?_⟩, hm.freed, hmem⟩
  obtain ⟨mid, hnew, hold⟩ := hm.frames
  have h₀ : Holds kr kt ([x] ++ rest) s := h
  have huses : ∀ p, (uses kr kt (x :: rest)).count p = _ := fun p => uses_count kr kt [x] rest p
  -- the mapping that goes makes room for the one that comes, or the page has a reference for it
  refine h₀.grow [(x.1, t)] hm.grown (fun p _ => h.max p) nofun h.roots hmem ?_ ?_
    (fun p => (uses kr kt (x :: rest)).count p + (held (some e)).count p - (held (translate s.store.mem x.1 va)).count p) (fun p => ?_) fun p => ?_
  · intro y hy
    obtain rfl := mem_singleton.mp hy
    exact ⟨hm.reads, hm.depth, (h.reads x mem_cons_self).2.2⟩
  · simp only [flatMap_cons, flatMap_nil, append_nil]
    exact (hm.tables.cons _).trans perm_middle.symm
  · rcases em (p ∈ held (some e)) with hin | hout
    · obtain ⟨hu, rfl⟩ := mem_held.mp hin
      have hone : (held (some e)).count e.phys = 1 := by simp [held, hu]
      rcases hall hu with ⟨o, ho, hou, hoe⟩ | hres | ⟨hno, hlt⟩
      · have hone' : (held (some o)).count e.phys = 1 := by simp [held, hou, hoe]
        refine (h.covers e.phys).le ?_
        rw [ho]
        omega
      · exact .inr hres
      · refine .inl ?_
        rw [h.uses_mapped hno]
        omega
    · refine (h.covers p).le ?_
      rw [count_eq_zero_of_not_mem hout]
      omega
  · have h₁ := hnew.count_eq p
    have h₂ := hold.count_eq p
    have h₃ := huses p
    simp only [flatMap_cons, framesOf, count_append] at h₁ h₂ h₃ ⊢
    omega

/-- A new root, a copy of the kernel's. -/
theorem Holds.create (h : Holds kr kt spaces s) (hr : createAddressSpace kr s.store = (a, st)) :
    st.freed = s.store.freed ∧ (∀ q ∈ allTables kr kt spaces, st.mem q = s.store.mem q) ∧
    (a = 0 ∧ Holds kr kt spaces ⟨st, s.roots⟩ ∨
      a ≠ 0 ∧ Holds kr kt ((a, kt) :: spaces) ⟨st, a :: s.roots⟩ ∧ riscv64.Grown s.store.pmm st.pmm [a] []) := by
  rw [createAddressSpace] at hr
  rcases eq_or_ne (s.store.pmm.alloc 1).1 0 with hz | hne
  · rw [Store.allocTable, if_pos hz] at hr
    obtain ⟨rfl, rfl⟩ := Prod.mk.inj hr
    exact ⟨rfl, fun _ _ => rfl, .inl ⟨rfl, h.take 1⟩⟩
  rw [allocTable_some hne, if_neg hne] at hr
  obtain ⟨rfl, rfl⟩ := Prod.mk.inj hr
  have hg : riscv64.Grown s.store.pmm (s.store.pmm.alloc 1).2 [(s.store.pmm.alloc 1).1] [] := .alloc h.ok h.max hne
  have hmem : ∀ q ∈ allTables kr kt spaces, ((Store.mk (update s.store.mem (s.store.pmm.alloc 1).1 fun _ => .invalid)
      (s.store.pmm.alloc 1).2 s.store.freed).copy (s.store.pmm.alloc 1).1 kr).mem q = s.store.mem q := fun q hq => by
    have hq' : q ≠ (s.store.pmm.alloc 1).1 := fun heq => h.unfree (mem_append_left _ hq) (heq ▸ hg.fresh _ (mem_singleton_self _))
    exact (update_of_ne hq' _ _).trans (update_of_ne hq' _ _)
  have hkr : kr ∈ allTables kr kt spaces := mem_append_left _ mem_cons_self
  have hroot : kr ≠ (s.store.pmm.alloc 1).1 := fun heq => h.unfree (mem_append_left _ hkr) (heq ▸ hg.fresh _ (mem_singleton_self _))
  have hcopy : ((Store.mk (update s.store.mem (s.store.pmm.alloc 1).1 fun _ => .invalid)
      (s.store.pmm.alloc 1).2 s.store.freed).copy (s.store.pmm.alloc 1).1 kr).mem (s.store.pmm.alloc 1).1 = s.store.mem kr :=
    (update_self ..).trans (update_of_ne hroot _ _)
  obtain ⟨htables, hframes⟩ := kernel_inert (P := riscv64) 1 kt
  have h₀ : Holds kr kt ([] ++ spaces) s := h
  refine ⟨rfl, hmem, .inr ⟨hne, ?_, hg⟩⟩
  refine h₀.grow [((s.store.pmm.alloc 1).1, kt)] hg (fun p _ => h.max p) (fun _ hin => absurd hin not_mem_nil) (h.roots.cons _) hmem ?_ ?_ _ h.covers fun p => ?_
  · intro x hx
    obtain rfl := mem_singleton.mp hx
    refine ⟨h.kernel.moved (fun j => ?_) fun q hq => hmem q (mem_append_left _ (mem_cons_of_mem _ hq)), h.depth, hne⟩
    exact congrFun hcopy j
  · simp [tablesOf, htables]
  · simp [framesOf, hframes]

/-- The tables and pages an address space gives back. -/
theorem Holds.destroyed (h : Holds kr kt (x :: rest) s) (hst : destroyAddressSpace kr s.store x.1 = st) :
    s.store.pmm.Lost st.pmm (tablesOf kt x) (framesOf kt x) ∧ (∀ q ∉ tablesOf kt x, st.mem q = s.store.mem q) ∧
    ∃ l, st.freed = s.store.freed ++ l ∧ l.Perm (tablesOf kt x) := by
  have hs := h.stands
  obtain ⟨-, -, hne⟩ := h.reads x mem_cons_self
  have hkr : x.1 ≠ kr := fun heq => hs.priv.kernel x.1 mem_cons_self (heq ▸ mem_cons_self)
  obtain ⟨hpmm, hmem, l, hl, hperm⟩ := destroyLoop_torn 1 hs.reads hs.depth hs.kernel hs.priv
  rw [destroyAddressSpace, if_neg (not_or.mpr ⟨hne, hkr⟩), destroyTable_loop] at hst
  generalize foldl _ s.store _ = s₁ at *
  subst hst
  have hkernel : (some (Space.mk kr kt)).any (·.root = x.1) = false := by simpa using hkr.symm
  have hin : ∀ q ∈ tablesOf kt x, q ∈ allTables kr kt (x :: rest) := fun q hq => mem_tables_head hq
  have hholds : riscv64.Holds s.store.pmm (tablesOf kt x) (framesOf kt x) := by
    refine ⟨h.disjoint.1, fun q hq => Pmm.managed_of_ref ?_, fun q hq => h.one q (hin q hq), fun q hq hx => ?_⟩
    · rw [h.one q (hin q hq)]
      exact one_ne_zero
    · exact h.apart (hin q hq) (mem_append_left _ hx)
  have hlost := destroyAddressSpace_lost (s := ⟨x.1, x.2⟩) hne hkernel hholds
  rw [Memory.destroyAddressSpace, if_neg (by rw [hkernel]; exact not_or.mpr ⟨hne, Bool.false_ne_true⟩)] at hlost
  refine ⟨?_, hmem, l ++ [x.1], ?_, ?_⟩
  · change s.store.pmm.Lost (s₁.pmm.free x.1 1) _ _
    rw [hpmm]
    exact hlost
  · change s₁.freed ++ [x.1] = _
    rw [hl, append_assoc]
  · exact (perm_append_singleton _ _).trans (hperm.cons _)

theorem zeros_depth (d : Nat) : ∀ t : Slots, Depth d t.zeros
  | .nil => trivial
  | .hole r => zeros_depth d r
  | .leaf _ r => zeros_depth d r
  | .table _ _ _ r => zeros_depth d r

/-- A clone has the levels of its parent. -/
theorem cloneTable_depth : ∀ {k : Option Slots} {level d : Nat} {m : Pmm} (t : Slots) {old : Slots}, Depth d t → Depth d old →
    Depth d (Memory.cloneTable riscv64 k level m t old).dst ∧ Depth d (Memory.cloneTable riscv64 k level m t old).src
  | _, _, _, _, .nil, _, _, _ => ⟨trivial, trivial⟩
  | _, _, _, _, .hole r, _, h, ho => cloneTable_depth r h ho.rest
  | k, level, d, m, .leaf e r, old, h, ho => by
    rw [Memory.cloneTable]
    split_ifs
    all_goals first
      | exact ⟨⟨h.1, (cloneTable_depth r h.2 ho.rest).1⟩, h.1, (cloneTable_depth r h.2 ho.rest).2⟩
      | exact ⟨ho.rest, h⟩
  | k, level, 0, m, .table q f sub r, old, h, _ => absurd h id
  | k, level, d + 1, m, .table q f sub r, old, h, ho => by
    have hsub := @cloneTable_depth (below k) (level + 1) d (riscv64.allocTable m).2 sub sub.zeros h.1 (zeros_depth d sub)
    rw [Memory.cloneTable]
    dsimp only
    split_ifs
    · exact ⟨⟨h.1, (cloneTable_depth r h.2 ho.rest).1⟩, h.1, (cloneTable_depth r h.2 ho.rest).2⟩
    · exact ⟨ho.rest, h⟩
    · exact ⟨⟨hsub.1, (cloneTable_depth r h.2 ho.rest).1⟩, hsub.2, (cloneTable_depth r h.2 ho.rest).2⟩
    · exact ⟨⟨hsub.1, ho.rest⟩, hsub.2, h.2⟩

/-- The new root and its parent, ready for the clone. -/
theorem Holds.ready (h : Holds kr kt ((a, kt) :: x :: rest) s) :
    Ready (· ∈ kr :: kt.tables) (some kr) (some kt) 1 2 a x.1 0 x.2 kt s.store := by
  have hs := (h.perm (.swap ..)).stands
  have hin : x ∈ (a, kt) :: x :: rest := mem_cons_of_mem _ mem_cons_self
  have ha : a ∈ tablesOf kt (a, kt) := mem_cons_self
  exact {
    ok := h.ok
    max := h.max
    kernelOk := h.kernelOk
    kernelUsed := hs.kernelUsed
    pages := fun p hp => h.unfree (mem_append_right _ (mem_flatMap.mpr ⟨x, hin, hp⟩))
    inert := kernel_inert 1 kt
    oldTables := fun q hq => mem_cons_of_mem _ hq
    reads := hs.reads
    old := (h.reads (a, kt) mem_cons_self).1
    depth := hs.depth
    kernel := hs.kernel
    priv := hs.priv
    used := hs.used
    dstUsed := h.unfree (mem_append_left _ (mem_tables_head ha))
    apart := fun hx => h.disjoint.2 a ha (mem_tables_head hx)
    dstKernel := fun hk => h.disjoint.2 a ha (mem_append_left _ hk) }

/-- The clone, finished or not: the new root holds what was taken and shared for it. -/
theorem Holds.cloned (h : Holds kr kt ((a, kt) :: x :: rest) s) (hfit : s.store.pmm.Fits (framesOf kt x)) {b : Bool} {st : Store}
    (hc : cloneTable 3 s.store a x.1 (some kr) = (b, st)) :
    ∃ t t', Holds kr kt ((a, t) :: (x.1, t') :: rest) ⟨st, s.roots⟩ ∧ st.freed = s.store.freed ∧
      ∀ q ∈ (own riscv64 (some kt) 1 t).tables, s.store.pmm.Free q := by
  have hready := h.ready
  have hcloned := hready.cloned
  have hmade := cloneLoop_made 1 hready
  rw [cloneTable_loop] at hc
  rw [hc] at hmade
  have hdepth := @cloneTable_depth (some kt) 1 2 s.store.pmm x.2 kt hready.depth h.depth
  generalize Memory.cloneTable riscv64 (some kt) 1 s.store.pmm x.2 kt = c at hcloned hmade hdepth
  obtain ⟨htables, hframes⟩ : (own riscv64 (some kt) 1 c.src).tables = (own riscv64 (some kt) 1 x.2).tables ∧ _ :=
    own_marked hready.kernelOk hcloned.src
  have hsub := (reach_frames (P := riscv64) (some kt) 1 s.store.pmm.freeCount x.2).1
  have hg : riscv64.Grown s.store.pmm st.pmm c.wrote (reach riscv64 (some kt) 1 s.store.pmm.freeCount x.2).1 := by
    have := hmade.pmm
    rw [this]
    exact hcloned.grown
  obtain ⟨hinert, -⟩ := hready.inert
  refine ⟨c.dst, c.src, ?_, hmade.freed, fun q hq => hcloned.grown.fresh q (hcloned.tables ▸ hq)⟩
  have h₀ : Holds kr kt ([(a, kt), x] ++ rest) s := h
  refine h₀.grow [(a, c.dst), (x.1, c.src)] hg (fun p hp => ?_) (fun p hp => ?_) h.roots (fun q hq => ?_) ?_ ?_ _ h.covers fun p => ?_
  · exact (Nat.add_le_add_left (hsub.count_le p) _).trans (hfit p hp)
  · exact mem_append_right _ (mem_append_left _ (hsub.subset hp))
  · refine hmade.mem q (fun hin => ?_) fun hin => ?_
    · rcases mem_cons.mp hin with rfl | hin
      · exact h.disjoint.2 q mem_cons_self (mem_tables_rest hq)
      · exact h.unfree (mem_append_left _ (mem_tables_rest (mem_tables_rest hq))) (hg.fresh q hin)
    · exact (h.perm (.swap ..)).disjoint.2 q hin (mem_tables_rest hq)
  · intro y hy
    rcases mem_cons.mp hy with rfl | hy
    · exact ⟨hmade.new, hdepth.1, (h.reads _ mem_cons_self).2.2⟩
    · obtain rfl := mem_singleton.mp hy
      exact ⟨hmade.parent, hdepth.2, (h.reads x (mem_cons_of_mem _ mem_cons_self)).2.2⟩
  · simp only [flatMap_cons, tablesOf, htables, hcloned.tables, hinert]
    exact perm_middle.symm
  · simp only [flatMap_cons, append_nil, framesOf, hframes, hcloned.frames, count_append]
    have := uses_count kr kt [(a, kt), x] rest p
    simp only [flatMap_cons, framesOf, count_append] at this
    change _ ≤ (uses kr kt ([(a, kt), x] ++ rest)).count p + _
    omega

/-- Tables are given back once each: in use or taken by the call itself before, free and under no root after. -/
def Released (kr : Nat) (s s' : Machine) : Prop :=
  ∃ l, s'.store.freed = s.store.freed ++ l ∧ l.Nodup ∧
    ∀ q ∈ l, (s.store.pmm.getRef q = 1 ∨ s.store.pmm.Free q) ∧ s'.store.pmm.Free q ∧ s'.NoTable kr q

theorem Released.none (h : s'.store.freed = s.store.freed) : Released kr s s' := ⟨[], by rw [h, append_nil], nodup_nil, nofun⟩

/-- Destroying an address space. -/
theorem Holds.destroy (h : Holds kr kt (x :: rest) s) {roots : List Nat} (hroots : roots.Perm (rest.map Prod.fst)) :
    Holds kr kt rest ⟨destroyAddressSpace kr s.store x.1, roots⟩ ∧
    ∃ l, (destroyAddressSpace kr s.store x.1).freed = s.store.freed ++ l ∧ l.Nodup ∧ ∀ q ∈ l, q ∈ tablesOf kt x ∧
      (destroyAddressSpace kr s.store x.1).pmm.Free q ∧ Machine.NoTable kr ⟨destroyAddressSpace kr s.store x.1, roots⟩ q := by
  obtain ⟨hlost, hmem, l, hl, hperm⟩ := h.destroyed rfl
  have h' : Holds kr kt rest ⟨destroyAddressSpace kr s.store x.1, roots⟩ := h.lose hlost hroots hmem
  refine ⟨h', l, hl, hperm.nodup_iff.mpr h.disjoint.1, fun q hq => ?_⟩
  have hq' := hperm.mem_iff.mp hq
  exact ⟨hq', (hlost.free q).mpr (.inr (.inl hq')), fun r hr ht => h.disjoint.2 q hq' (h'.tableOf hr ht)⟩

theorem Holds.clone (h : Holds kr kt (x :: rest) s) (hall : Ev.Allowed kr s (.clone x.1)) (hs : step kr s (.clone x.1) = some s') :
    (∃ spaces, Holds kr kt spaces s') ∧ Released kr s s' := by
  have hroot : x.1 ∈ s.roots := h.roots.mem_iff.mpr mem_cons_self
  rw [step, if_pos hroot, cloneAddressSpace] at hs
  rcases hcreate : createAddressSpace kr s.store with ⟨a, st⟩
  rw [hcreate] at hs
  obtain ⟨hfreed, -, ⟨rfl, h₁⟩ | ⟨hne, h₁, hg⟩⟩ := h.create hcreate
  · obtain rfl := some.inj hs
    exact ⟨⟨_, h₁⟩, .none hfreed⟩
  have hfit : st.pmm.Fits (framesOf kt x) := by
    intro p hp
    have hle := hg.max p
    rcases em (p ∈ framesOf kt x) with hin | hout
    · have hused : ¬ s.store.pmm.Free p := h.unfree (mem_append_right _ (mem_append_left _ hin))
      rw [(hg.kept hused not_mem_nil (h.max p)).2] at hp ⊢
      rw [← h.frames_eq mem_cons_self]
      exact hall p hp
    · rwa [count_eq_zero_of_not_mem hout]
  rcases hclone : cloneTable 3 st a x.1 (some kr) with ⟨b, st'⟩
  obtain ⟨t, t', h₂, hfreed', hnew⟩ := h₁.cloned hfit hclone
  simp only [hne, if_false, hclone] at hs
  rcases b with - | -
  · obtain rfl := some.inj hs
    obtain ⟨h₃, l, hl, hnodup, hgone⟩ := h₂.destroy h.roots
    refine ⟨⟨_, h₃⟩, l, ?_, hnodup, fun q hq => ?_⟩
    · rw [← hfreed, ← hfreed']
      exact hl
    · obtain ⟨hin, hfree, hno⟩ := hgone q hq
      refine ⟨.inr ?_, hfree, hno⟩
      rcases mem_cons.mp hin with rfl | hin
      · exact hg.fresh _ (mem_singleton_self _)
      · exact ((hg.free q).mp (hnew q hin)).1
  · obtain rfl := some.inj hs
    simp only [if_true, hne]
    exact ⟨⟨_, h₂⟩, .none (hfreed'.trans hfreed)⟩

/-- What holds after a call: the account, what was given back, and what the other roots translate. -/
theorem Holds.step {spaces : List (Nat × Slots)} (h : Holds kr kt spaces s) {ev : Ev} (hall : ev.Allowed kr s) (hs : step kr s ev = some s') :
    (∃ spaces', Holds kr kt spaces' s') ∧ Released kr s s' ∧
    ∀ root va e, ev = .map root va e → ∀ r ∈ kr :: s.roots, r ≠ root → ∀ va', translate s'.store.mem r va' = translate s.store.mem r va' := by
  cases ev with
  | create =>
    refine .imp_right (fun hr => ⟨hr, nofun⟩) ?_
    rcases hcreate : createAddressSpace kr s.store with ⟨a, st⟩
    rw [Sv39.step, hcreate] at hs
    obtain rfl := some.inj hs
    obtain ⟨hfreed, -, ⟨rfl, h₁⟩ | ⟨hne, h₁, -⟩⟩ := h.create hcreate
    · exact ⟨⟨_, h₁⟩, .none hfreed⟩
    · simp only [hne]
      exact ⟨⟨_, h₁⟩, .none hfreed⟩
  | map root va e =>
    obtain ⟨hroot, hs⟩ := ite_none_right_eq_some.mp hs
    obtain ⟨st, hmap, rfl⟩ := map_eq_some_iff.mp hs
    obtain ⟨t, rest, h₀, hperm⟩ := h.pick hroot
    obtain ⟨⟨t', h₁⟩, hfreed, hmem⟩ := h₀.map hall hmap
    refine ⟨⟨_, h₁⟩, .none hfreed, ?_⟩
    rintro _ _ _ ⟨⟩ r hr hne va'
    rcases mem_cons.mp hr with rfl | hr
    · exact translate_congr h.kernel (fun q hq => hmem q (mem_append_left _ hq)) va'
    obtain ⟨x, hx, rfl⟩ := mem_map.mp (hperm.mem_iff.mp ((mem_erase_of_ne hne).mpr hr))
    have hx' : x ∈ (root, t) :: rest := mem_cons_of_mem _ hx
    exact translate_congr (h₀.reads x hx').1 (fun q hq => hmem q (h₀.tables_of hx' hx hq)) va'
  | clone root =>
    obtain ⟨hroot, -⟩ := ite_none_right_eq_some.mp hs
    obtain ⟨t, rest, h₀, -⟩ := h.pick hroot
    obtain ⟨h₁, hr⟩ := h₀.clone hall hs
    exact ⟨h₁, hr, nofun⟩
  | destroy root =>
    obtain ⟨hroot, hs⟩ := ite_none_right_eq_some.mp hs
    obtain rfl := some.inj hs
    obtain ⟨t, rest, h₀, hperm⟩ := h.pick hroot
    obtain ⟨h₁, l, hl, hnodup, hgone⟩ := h₀.destroy hperm
    refine ⟨⟨_, h₁⟩, ⟨l, hl, hnodup, fun q hq => ?_⟩, nofun⟩
    obtain ⟨hin, hfree, hno⟩ := hgone q hq
    exact ⟨.inl (h₀.one q (mem_tables_head hin)), hfree, hno⟩
  | take n =>
    obtain rfl := some.inj hs
    exact ⟨⟨_, h.take n⟩, .none rfl, nofun⟩
  | give pa n =>
    obtain rfl := some.inj hs
    exact ⟨⟨_, h.give hall⟩, .none rfl, nofun⟩

theorem Reaches.holds {s₀ : Machine} (hboot : Booted kr kt s₀) (h : Reaches kr s₀ s) : ∃ spaces, Holds kr kt spaces s := by
  induction h with
  | start => exact ⟨[], hboot.holds⟩
  | step ev _ hall hs ih =>
    obtain ⟨spaces, h⟩ := ih
    exact (h.step hall hs).1

/-- CORRECT, for the pages the callers map: in every run, mapping a page in a user root changes no translation under the kernel's
    root or another user's, tables are given back once and when no root leads to them, and those a root leads to are not free. -/
theorem tables_kept_apart {s₀ : Machine} (hboot : Booted kr kt s₀) (h : Reaches kr s₀ s) {ev : Ev} (hall : ev.Allowed kr s)
    (hs : step kr s ev = some s') :
    (∀ root va e, ev = .map root va e → ∀ r ∈ kr :: s.roots, r ≠ root → ∀ va', translate s'.store.mem r va' = translate s.store.mem r va') ∧
    Released kr s s' ∧ ∀ r ∈ kr :: s'.roots, ∀ q, TableOf s'.store.mem r q → s'.store.pmm.getRef q = 1 ∧ ¬ s'.store.pmm.Free q := by
  obtain ⟨spaces, h⟩ := h.holds hboot
  obtain ⟨⟨spaces', h'⟩, hreleased, hmap⟩ := h.step hall hs
  refine ⟨hmap, hreleased, fun r hr q hq => ?_⟩
  have hin := h'.tableOf hr hq
  exact ⟨h'.one q hin, h'.unfree (mem_append_left _ hin)⟩

end steps

/-! ### Two runs -/

/-- A kernel root without entries at page 1, and eight free pages from page 6 on. -/
def bareMachine : Machine := ⟨⟨fun _ _ => .invalid, .sharing 1 1 8, []⟩, []⟩

/-- A page of the user, writable. -/
def userPage (p : Nat) : Pte := ⟨p, 1, true, false, false, true⟩

theorem bareMachine_booted : ∃ kt, Booted 1 kt bareMachine := by
  obtain ⟨kt, hreads, hdepth, htables, hleaves, -⟩ : ∃ t, Reads bareMachine.store.mem 1 0 t ∧ _ := reads_empty 2 fun _ => rfl
  have hmax : ∀ p, bareMachine.store.pmm.getRef p ≤ 65535 := fun p => (Pmm.sharing_max p).trans (by decide)
  refine ⟨kt, Pmm.sharing_ok 1 1 8, hmax, hreads, hdepth, ?_, ?_, ?_, rfl⟩
  · rw [hleaves]
    exact nofun
  · rw [htables]
    exact nodup_singleton 1
  · rw [htables]
    intro q hq
    obtain rfl := mem_singleton.mp hq
    exact Pmm.sharing_table (by decide) (by decide)

section empty
variable {mem : Mem} (h : ∀ p j, mem p j = .invalid)
include h

theorem TableOf.of_invalid {r q : Nat} (hq : TableOf mem r q) : q = r := by
  cases hq with
  | root => rfl
  | next i _ _ he => exact absurd ((h _ _).symm.trans he) nofun

theorem frames_invalid : ∀ d page, frames mem d page = []
  | 0, _ => rfl
  | d + 1, page => by simp [frames, h]

end empty

theorem create_invalid {s : Store} (h : ∀ p j, s.mem p j = .invalid) (kr p j : Nat) : (createAddressSpace kr s).2.mem p j = .invalid := by
  rw [createAddressSpace]
  rcases eq_or_ne (s.pmm.alloc 1).1 0 with hz | hne
  · rw [Store.allocTable, if_pos hz]
    exact h p j
  rw [allocTable_some hne, if_neg hne]
  simp only [Store.copy, update_apply]
  split_ifs
  · rfl
  · exact h kr j
  · exact h p j

/-- CORRECT: a page that has a reference of its own is mapped in a new root. -/
theorem tables_kept_apart_page : ∃ s s', Reaches 1 bareMachine s ∧ s.roots = [6] ∧ Ev.Allowed 1 s (.map 6 0 (userPage 5)) ∧
    step 1 s (.map 6 0 (userPage 5)) = some s' ∧ (∀ va, translate s'.store.mem 1 va = translate s.store.mem 1 va) ∧ Released 1 s s' ∧
    ∀ r ∈ 1 :: s'.roots, ∀ q, TableOf s'.store.mem r q → s'.store.pmm.getRef q = 1 ∧ ¬ s'.store.pmm.Free q := by
  obtain ⟨kt, hboot⟩ := bareMachine_booted
  have hreach : Reaches 1 bareMachine ⟨(createAddressSpace 1 bareMachine.store).2, [6]⟩ := .step .create .start trivial rfl
  have hmem := create_invalid (s := bareMachine.store) (fun _ _ => rfl) 1
  have hall : Ev.Allowed 1 ⟨(createAddressSpace 1 bareMachine.store).2, [6]⟩ (.map 6 0 (userPage 5)) := by
    refine fun _ => .inr (.inr ⟨fun r hr ht => ?_, ?_⟩)
    · rw [← TableOf.of_invalid hmem ht] at hr
      exact absurd hr (by decide)
    · rw [Machine.mapped, flatMap_cons, frames_invalid hmem]
      decide
  obtain ⟨s', hs⟩ := isSome_iff_exists.mp
    (show (step 1 ⟨(createAddressSpace 1 bareMachine.store).2, [6]⟩ (.map 6 0 (userPage 5))).isSome by decide +kernel)
  obtain ⟨hmap, hrest⟩ := tables_kept_apart hboot hreach hall hs
  exact ⟨_, s', hreach, rfl, hall, hs, hmap 6 0 _ rfl 1 mem_cons_self (by decide), hrest⟩

/-- INCORRECT: a root that is given another root's page to map for the user takes that root with it. -/
theorem destroy_frees_live_root : ∃ s,
    [Ev.create, .create, .map 6 0 (userPage 7), .destroy 6].foldlM (step 1) bareMachine = some s ∧
    7 ∈ s.roots ∧ TableOf s.store.mem 7 7 ∧ s.store.pmm.Free 7 := by
  obtain ⟨s, hs, hstate⟩ := map_eq_some_iff.mp
    (show ([.create, .create, .map 6 0 (userPage 7), .destroy 6].foldlM (step 1) bareMachine).map
      (fun s => (s.roots, s.store.pmm.pageOf 7, s.store.pmm.bm 6)) = some ([7], some 6, false) by decide +kernel)
  obtain ⟨hroots, hpage, hbit⟩ : s.roots = [7] ∧ s.store.pmm.pageOf 7 = some 6 ∧ s.store.pmm.bm 6 = false := by simpa using hstate
  exact ⟨s, hs, hroots ▸ mem_singleton_self 7, .root, 6, hpage, hbit⟩

end Orthox.Memory.Sv39
