import Orthox.Memory.Accounts

/-! The riscv64 and aarch64 fork is all-or-nothing as long as no page it comes to share runs out of references.

    A torn-down clone, finished or not, undoes what building it did, and what the parent loses afterwards is what it
    would have lost without the fork. -/

namespace Orthox.Memory
open List Slots Pmm

/-! ### Tearing down -/

variable {ts ts' l l' : List Nat} {page q level flags t c : Nat} {e : Pte}

theorem Slots.frames_table (page flags : Nat) (sub rest : Slots) : (table page flags sub rest).frames = sub.frames ++ rest.frames :=
  map_append

/-- Tables that can be returned: distinct, managed, with a table's count, and none of them one of the pages `l`. -/
structure Port.Holds (P : Port) (m : Pmm) (ts l : List Nat) : Prop where
  nodup : ts.Nodup
  managed : ∀ q ∈ ts, m.Managed q
  ref : ∀ q ∈ ts, m.getRef q = P.ref
  apart : ∀ q ∈ ts, q ∉ l

section port
variable {P : Port} {m m' : Pmm}

theorem Port.Holds.mono (h : P.Holds m ts l) (hts : ts'.Sublist ts) (hl : ∀ x ∈ l', x ∈ l) : P.Holds m ts' l' :=
  ⟨h.nodup.sublist hts, fun q hq => h.managed q (hts.subset hq), fun q hq => h.ref q (hts.subset hq),
    fun q hq hx => h.apart q (hts.subset hq) (hl q hx)⟩

/-- Other tables and other pages may go first. -/
theorem Port.Holds.lost (h : P.Holds m ts l) (hlost : m.Lost m' ts' l') (hts : ∀ q ∈ ts, q ∉ ts')
    (hl : ∀ q ∈ ts, q ∉ l') : P.Holds m' ts l where
  nodup := h.nodup
  managed q hq := (h.managed q hq).congr hlost.range
  ref q hq := by
    rw [hlost.ref, if_neg (hts q hq), count_eq_zero_of_not_mem (hl q hq)]
    exact h.ref q hq
  apart := h.apart

theorem Port.Holds.grown (h : P.Holds m ts l) (hg : P.Grown m m' ts' l') (hused : ∀ q ∈ ts, ¬ m.Free q)
    (hl : ∀ q ∈ ts, q ∉ l') : P.Holds m' ts l where
  nodup := h.nodup
  managed q hq := (h.managed q hq).congr hg.range
  ref q hq := by
    have hone := h.ref q hq
    have := P.ref_le
    exact (hg.kept (hused q hq) (hl q hq) (by omega)).2.trans hone
  apart := h.apart

/-- A table goes after what is below it and before the later entries. -/
theorem Port.Holds.node {m₁ m₂ : Pmm} (h : P.Holds m (page :: (ts ++ ts')) (l ++ l'))
    (hsub : P.Holds m ts l → m.Lost m₁ ts l) (hrest : P.Holds (P.freeTable m₁ page) ts' l' → (P.freeTable m₁ page).Lost m₂ ts' l') :
    m.Lost m₂ (page :: (ts ++ ts')) (l ++ l') := by
  obtain ⟨hpage, hparts⟩ := nodup_cons.mp h.nodup
  obtain ⟨-, -, hdisj⟩ := nodup_append.mp hparts
  rw [mem_append, not_or] at hpage
  have hapart : ∀ q ∈ page :: (ts ++ ts'), q ∉ l := fun q hq hx => h.apart q hq (mem_append_left _ hx)
  have h₁ := hsub (h.mono ((sublist_append_left _ _).cons _) fun x hx => mem_append_left _ hx)
  have hself : P.Holds m [page] [] := h.mono (singleton_sublist.mpr mem_cons_self) nofun
  have hself' := hself.lost h₁ (fun q hq => mem_singleton.mp hq ▸ hpage.1)
    fun q hq => mem_singleton.mp hq ▸ hapart page mem_cons_self
  have h₂ := Pmm.Lost.table P (hself'.managed page (mem_singleton_self _)) (hself'.ref page (mem_singleton_self _))
  have hlater : P.Holds m ts' l' := h.mono ((sublist_append_right _ _).cons _) fun x hx => mem_append_right _ hx
  have hlater' := hlater.lost h₁ (fun q hq hx => hdisj q hx q hq rfl)
    fun q hq => hapart q (mem_cons_of_mem _ (mem_append_right _ hq))
  have h₃ := hrest (hlater'.lost h₂ (fun q hq hx => hpage.2 (mem_singleton.mp hx ▸ hq)) fun _ _ => not_mem_nil)
  refine ((h₁.trans h₂).trans h₃).perm ?_ (by rw [append_nil])
  rw [append_assoc]
  exact perm_middle

/-- `destroy_table` returns what the table owns. -/
theorem destroyTable_lost : ∀ (k : Option Slots) (level : Nat) {m : Pmm} (t : Slots),
    P.Holds m (own P k level t).tables (own P k level t).frames →
    m.Lost (destroyTable P k level m t) (own P k level t).tables (own P k level t).frames
  | _, _, m, .nil, _ => .refl m
  | k, level, _, .hole rest, h => destroyTable_lost (next k) level rest h
  | k, level, m, .leaf e rest, h => by
    rw [own] at h ⊢
    rw [destroyTable]
    split_ifs at h ⊢ with hskip
    · exact destroyTable_lost (next k) level rest h
    have hpage := Pmm.Lost.page m e.phys
    have hrest : P.Holds m _ (own P (next k) level rest).frames := h.mono (.refl _) fun x hx => mem_cons_of_mem _ hx
    refine hpage.trans (destroyTable_lost (next k) level rest (hrest.lost hpage (fun _ _ => not_mem_nil) fun q hq hx => ?_))
    exact h.apart q hq (mem_singleton.mp hx ▸ mem_cons_self)
  | k, level, m, .table page flags sub rest, h => by
    rw [own] at h ⊢
    rw [destroyTable]
    split_ifs at h ⊢ with hskip
    · exact destroyTable_lost (next k) level rest h
    · rw [frames_table] at h ⊢
      exact h.node (destroyTable_lost (below k) (level + 1) sub) (destroyTable_lost (next k) level rest)

/-- Destroying an address space returns its private tables and takes one reference for each of its leaves. -/
theorem destroyAddressSpace_lost {kernel : Option Space} {s : Space} (hroot : s.root ≠ 0) (hkernel : kernel.any (·.root = s.root) = false)
    (h : P.Holds m (s.tables P kernel) (s.frames P kernel)) :
    m.Lost (destroyAddressSpace P kernel m s) (s.tables P kernel) (s.frames P kernel) := by
  rw [destroyAddressSpace, if_neg (by rw [hkernel]; exact not_or.mpr ⟨hroot, nofun⟩)]
  rw [← append_nil (s.frames P kernel), Space.tables, ← append_nil (own P (kernel.map Space.top) 1 s.top).tables] at h ⊢
  exact h.node (destroyTable_lost (kernel.map Space.top) 1 s.top) fun _ => .refl _

/-! ### What is the kernel's -/

/-- The kernel's tables are in use, and its leaves are not shared by count. -/
def KernelOk (P : Port) (m : Pmm) (k : Option Slots) : Prop :=
  ∀ t, k = some t → (∀ q ∈ t.tables, ¬ m.Free q) ∧ ∀ e ∈ t.leaves, P.shares e = false

section kernel
variable {k : Option Slots}

section
variable (h : KernelOk P m k)
include h

theorem KernelOk.next : KernelOk P m (next k) := by
  rcases k with - | t
  · exact nofun
  rintro _ ⟨⟩
  obtain ⟨hts, hes⟩ := h t rfl
  rcases t with - | r | ⟨e, r⟩ | ⟨p, f, s, r⟩
  · exact ⟨hts, hes⟩
  · exact ⟨hts, hes⟩
  · exact ⟨hts, fun e' he' => hes e' (mem_cons_of_mem _ he')⟩
  · exact ⟨fun q hq => hts q (mem_cons_of_mem _ (mem_append_right _ hq)), fun e' he' => hes e' (mem_append_right _ he')⟩

theorem KernelOk.below : KernelOk P m (below k) := by
  rcases k with - | - | r | ⟨e, r⟩ | ⟨p, f, s, r⟩
  · exact nofun
  · exact nofun
  · exact nofun
  · exact nofun
  rintro _ ⟨⟩
  obtain ⟨hts, hes⟩ := h _ rfl
  exact ⟨fun q hq => hts q (mem_cons_of_mem _ (mem_append_left _ hq)), fun e' he' => hes e' (mem_append_left _ he')⟩

theorem KernelOk.grown (hg : P.Grown m m' ts l) : KernelOk P m' k := fun t ht =>
  ⟨fun q hq hf => (h t ht).1 q hq ((hg.free q).mp hf).1, (h t ht).2⟩

/-- A page of the process is not the kernel's. -/
theorem KernelOk.leaf {e : Pte} (he : P.shares e) : kernelLeaf k e = false := by
  rcases k with - | - | r | ⟨e', r⟩ | ⟨p, f, s, r⟩
  · rfl
  · rfl
  · rfl
  · refine decide_eq_false ?_
    rintro rfl
    exact absurd ((h _ rfl).2 e mem_cons_self) (by rw [he]; exact nofun)
  · rfl

/-- A new table is not the kernel's. -/
theorem KernelOk.table (hq : m.Free q) (flags : Nat) : kernelTable k q flags = false := by
  rcases k with - | - | r | ⟨e', r⟩ | ⟨p, f, s, r⟩
  · rfl
  · rfl
  · rfl
  · rfl
  have hne : q ≠ p := by
    rintro rfl
    exact (h _ rfl).1 q mem_cons_self hq
  simp only [kernelTable, hne, decide_false, Bool.false_and]

end

/-- A table that owns nothing. -/
def Inert (P : Port) (k : Option Slots) (level : Nat) (t : Slots) : Prop := (own P k level t).tables = [] ∧ (own P k level t).frames = []

theorem Inert.rest {level : Nat} : ∀ {t : Slots}, Inert P k level t → Inert P (next k) level t.rest
  | .nil, _ => ⟨rfl, rfl⟩
  | .hole _, h => h
  | .leaf e r, h => by
    rw [Inert, own] at h
    split_ifs at h
    · exact h
    · exact absurd h.2 (cons_ne_nil _ _)
  | .table p f s r, h => by
    rw [Inert, own] at h
    split_ifs at h
    · exact h
    · exact absurd h.1 (cons_ne_nil _ _)

theorem zeros_inert : ∀ (k : Option Slots) (level : Nat) (t : Slots), Inert P k level t.zeros
  | _, _, .nil => ⟨rfl, rfl⟩
  | k, level, .hole r => zeros_inert (next k) level r
  | k, level, .leaf _ r => zeros_inert (next k) level r
  | k, level, .table _ _ _ r => zeros_inert (next k) level r

/-- The kernel's own entries are all the kernel's. -/
theorem kernel_inert (level : Nat) : ∀ t : Slots, Inert P (some t) level t
  | .nil => ⟨rfl, rfl⟩
  | .hole r => kernel_inert level r
  | .leaf e r => by
    have : own P (some (.leaf e r)) level (.leaf e r) = .hole (own P (some r) level r) := by
      rw [own, if_pos (by simp [kernelLeaf])]
      rfl
    rw [Inert, this]
    exact kernel_inert level r
  | .table p f s r => by
    have : own P (some (.table p f s r)) level (.table p f s r) = .hole (own P (some r) level r) := by
      rw [own, if_pos (by simp [kernelTable])]
      rfl
    rw [Inert, this]
    exact kernel_inert level r

end kernel

/-! ### The pages a clone reaches -/

/-- A clone shares pages of the parent only, and all of them once it is through. -/
theorem reach_frames : ∀ (k : Option Slots) (level n : Nat) (t : Slots),
    (reach P k level n t).1.Sublist (own P k level t).frames ∧
    ((reach P k level n t).2 ≠ none → (reach P k level n t).1 = (own P k level t).frames)
  | _, _, _, .nil => ⟨.refl _, fun _ => rfl⟩
  | k, level, n, .hole rest => reach_frames (next k) level n rest
  | k, level, n, .leaf e rest => by
    obtain ⟨hsub, hall⟩ := reach_frames (next k) level n rest
    rw [reach, own]
    rcases kernelLeaf k e with - | -
    · rcases P.block level with - | -
      · rcases P.shares e with - | -
        · exact ⟨hsub, hall⟩
        · exact ⟨hsub.cons_cons _, fun hne => congrArg (cons _) (hall hne)⟩
      · exact ⟨nil_sublist _, fun hne => absurd rfl hne⟩
    · exact ⟨hsub, hall⟩
  | k, level, 0, .table page flags sub rest => by
    rw [reach, own]
    rcases kernelTable k page flags with - | -
    · exact ⟨nil_sublist _, fun hne => absurd rfl hne⟩
    · exact reach_frames (next k) level 0 rest
  | k, level, n + 1, .table page flags sub rest => by
    obtain ⟨hsub, hall⟩ := reach_frames (below k) (level + 1) n sub
    rw [reach, own]
    rcases kernelTable k page flags with - | -
    · simp only [Bool.false_eq_true, if_false, frames_table]
      rcases hr : reach P (below k) (level + 1) n sub with ⟨l, - | n'⟩
      · rw [hr] at hsub
        exact ⟨hsub.trans (sublist_append_left _ _), fun hne => absurd rfl hne⟩
      rw [hr] at hsub hall
      obtain ⟨hsub', hall'⟩ := reach_frames (next k) level n' rest
      exact ⟨hsub.append hsub', fun hne => congrArg₂ (· ++ ·) (hall nofun) (hall' hne)⟩
    · exact reach_frames (next k) level (n + 1) rest

variable {k : Option Slots} {n : Nat} {sub rest t : Slots}

theorem reach_table_none (hk : kernelTable k page flags = false) (h : (reach P (below k) (level + 1) n sub).2 = none) :
    reach P k level (n + 1) (.table page flags sub rest) = ((reach P (below k) (level + 1) n sub).1, none) := by
  rw [reach, hk]
  rcases hr : reach P (below k) (level + 1) n sub with ⟨l, left⟩
  rw [hr] at h
  subst h
  rfl

theorem reach_table_some {n' : Nat} (hk : kernelTable k page flags = false)
    (h : (reach P (below k) (level + 1) n sub).2 = some n') : reach P k level (n + 1) (.table page flags sub rest) =
      ((reach P (below k) (level + 1) n sub).1 ++ (reach P (next k) level n' rest).1, (reach P (next k) level n' rest).2) := by
  rw [reach, hk]
  rcases hr : reach P (below k) (level + 1) n sub with ⟨l, left⟩
  rw [hr] at h
  subst h
  rfl

/-! ### Building -/

/-- Two tables of one shape and on the same frames, whose leaves are related. -/
inductive Slots.Rel (R : Pte → Pte → Prop) : Slots → Slots → Prop
  | nil : Rel R .nil .nil
  | hole {r r' : Slots} : Rel R r r' → Rel R (.hole r) (.hole r')
  | leaf {e e' : Pte} {r r' : Slots} : R e e' → Rel R r r' → Rel R (.leaf e r) (.leaf e' r')
  | table {s s' r r' : Slots} (page flags : Nat) : Rel R s s' → Rel R r r' → Rel R (.table page flags s r) (.table page flags s' r')

theorem Slots.Rel.refl {R : Pte → Pte → Prop} (h : ∀ e, R e e) : ∀ t, Slots.Rel R t t
  | .nil => .nil
  | .hole r => .hole (refl h r)
  | .leaf e r => .leaf (h e) (refl h r)
  | .table p f s r => .table p f (refl h s) (refl h r)

theorem Slots.Rel.mono {R R' : Pte → Pte → Prop} {t' : Slots} (h : Slots.Rel R t t') (hR : ∀ e ∈ t.leaves, ∀ e', R e e' → R' e e') :
    Slots.Rel R' t t' := by
  induction h with
  | nil => exact .nil
  | hole _ ih => exact .hole (ih hR)
  | leaf he _ ih =>
    exact .leaf (hR _ mem_cons_self _ he) (ih fun e hin => hR e (mem_cons_of_mem _ hin))
  | table p f _ _ ihs ihr =>
    exact .table p f (ihs fun e hin => hR e (mem_append_left _ hin)) (ihr fun e hin => hR e (mem_append_right _ hin))

/-- What a clone may do to a leaf of the parent: mark a writable page of the process. -/
def Pte.Marked (P : Port) (e e' : Pte) : Prop := e' = e ∨ (P.shares e = true ∧ e.writable = true ∧ e' = e.mkcow)

theorem shareLeaf_marked (he : P.shares e) (m : Pmm) : e.Marked P (vmCowShareLeaf m e 1).1 := by
  rw [vmCowShareLeaf]
  split_ifs with hz hw
  · exact .inl rfl
  · exact .inr ⟨he, hw, rfl⟩
  · exact .inl rfl

theorem Pte.Marked.same {e' : Pte} (h : e.Marked P e') : P.shares e' = P.shares e ∧ e'.phys = e.phys := by
  rcases h with rfl | ⟨-, -, rfl⟩
  · exact ⟨rfl, rfl⟩
  · exact ⟨P.shares_mkcow e, rfl⟩

/-- Marking changes nothing about what an address space owns. -/
theorem own_marked {k : Option Slots} (hk : KernelOk P m k) {level : Nat} {t t' : Slots} (h : Slots.Rel (Pte.Marked P) t t') :
    (own P k level t').tables = (own P k level t).tables ∧ (own P k level t').frames = (own P k level t).frames := by
  induction h generalizing k level with
  | nil => exact ⟨rfl, rfl⟩
  | hole _ ih => exact ih hk.next
  | @leaf e e' r r' he _ ih =>
    obtain ⟨hts, hfs⟩ := @ih _ hk.next level
    have hkernel : kernelLeaf k e' = kernelLeaf k e := by
      rcases he with rfl | ⟨hs, -, rfl⟩
      · rfl
      · rw [hk.leaf hs, hk.leaf ((P.shares_mkcow e).trans hs)]
    rw [own, own, hkernel, he.same.1]
    split_ifs
    · exact ⟨hts, hfs⟩
    · exact ⟨hts, congrArg₂ cons he.same.2 hfs⟩
  | table p f _ _ ihs ihr =>
    obtain ⟨hts, hfs⟩ := @ihs _ hk.below (level + 1)
    obtain ⟨hts', hfs'⟩ := @ihr _ hk.next level
    rw [own, own]
    split_ifs
    · exact ⟨hts', hfs'⟩
    · rw [frames_table, frames_table, hfs, hfs', tables, hts, hts']
      exact ⟨rfl, rfl⟩

/-- What cloning a table comes to, finished or not: the new table owns the tables taken and the pages reached. -/
structure Cloned (P : Port) (k : Option Slots) (level : Nat) (m : Pmm) (t : Slots) (c : Clone) : Prop where
  grown : P.Grown m c.pmm c.wrote (reach P k level m.freeCount t).1
  left : (reach P k level m.freeCount t).2 = if c.rc then some c.pmm.freeCount else none
  tables : (own P k level c.dst).tables = c.wrote
  frames : (own P k level c.dst).frames = (reach P k level m.freeCount t).1
  src : Slots.Rel (Pte.Marked P) t c.src

theorem shareLeaf_count (m : Pmm) (e : Pte) : (vmCowShareLeaf m e 1).2.freeCount = m.freeCount := by
  rw [vmCowShareLeaf]
  split_ifs
  · rfl
  · exact incref_count m _
  · exact incref_count m _

/-- An entry that neither takes a table nor counts a page. -/
theorem Cloned.skip {d s : Slots} {r : Clone} (h : Cloned P (next k) level m rest r)
    (hr : reach P k level m.freeCount t = reach P (next k) level m.freeCount rest)
    (hd : own P k level d = .hole (own P (next k) level r.dst)) (hs : Slots.Rel (Pte.Marked P) t s) :
    Cloned P k level m t ⟨r.rc, d, s, r.pmm, r.wrote⟩ :=
  ⟨hr ▸ h.grown, hr ▸ h.left, (congrArg Slots.tables hd).trans h.tables, ((congrArg Slots.frames hd).trans h.frames).trans (by rw [hr]), hs⟩

/-- An entry at which the clone gives up: the rest of the new table is as it was. -/
theorem Cloned.stop {old : Slots} (hr : reach P k level m.freeCount t = ([], none))
    (hg : P.Grown m m' [] []) (hold : Inert P k level old) : Cloned P k level m t ⟨false, .hole old.rest, t, m', []⟩ :=
  ⟨hr ▸ hg, by rw [hr]; rfl, hold.rest.1, hold.rest.2.trans (by rw [hr]), .refl (fun _ => .inl rfl) t⟩

theorem own_leaf_skip (h : (kernelLeaf k e || P.block level || !P.shares e)) (r : Slots) :
    own P k level (.leaf e r) = .hole (own P (next k) level r) := by
  rw [own, if_pos h]

theorem own_leaf (hk : kernelLeaf k e = false) (hb : P.block level = false)
    (hs : P.shares e) (r : Slots) : own P k level (.leaf e r) = .leaf e (own P (next k) level r) := by
  rw [own, hk, hb, hs]
  rfl

theorem own_table_skip (h : kernelTable k page flags) (s r : Slots) :
    own P k level (.table page flags s r) = .hole (own P (next k) level r) := by
  rw [own, if_pos h]

theorem own_table (h : kernelTable k page flags = false) (s r : Slots) :
    own P k level (.table page flags s r) = .table page flags (own P (below k) (level + 1) s) (own P (next k) level r) := by
  rw [own, h]
  rfl

theorem cloneTable_cloned : ∀ {k : Option Slots} {level : Nat} {m : Pmm} (t : Slots) {old : Slots}, m.Ok → (∀ pa, m.getRef pa ≤ 65535) →
    KernelOk P m k → (∀ x ∈ (own P k level t).frames, ¬ m.Free x) → Inert P k level old → Cloned P k level m t (cloneTable P k level m t old)
  | _, _, m, .nil, _, _, hmax, _, _, _ => ⟨.refl P hmax, rfl, rfl, rfl, .nil⟩
  | k, level, m, .hole rest, old, hok, hmax, hk, hfree, hold =>
    have h := cloneTable_cloned rest hok hmax hk.next hfree hold.rest
    h.skip rfl rfl (.hole h.src)
  | k, level, m, .leaf e rest, old, hok, hmax, hk, hfree, hold => by
    rcases hkl : kernelLeaf k e with - | -
    rcases hbl : P.block level with - | -
    rcases hsh : P.shares e with - | -
    · -- mapped for the kernel's use: copied as it is
      have ho : ∀ r, own P k level (.leaf e r) = .hole (own P (next k) level r) :=
        own_leaf_skip (by rw [hsh, Bool.not_false, Bool.or_true])
      rw [ho] at hfree
      have h := cloneTable_cloned rest hok hmax hk.next hfree hold.rest
      rw [cloneTable, hkl, hbl, hsh]
      exact h.skip (by rw [reach, hkl, hbl, hsh]; rfl) (ho _) (.leaf (.inl rfl) h.src)
    · -- a page of the process: one more reference
      rw [own_leaf hkl hbl hsh] at hfree
      have hrest : ∀ x ∈ (own P (next k) level rest).frames, ¬ m.Free x := fun x hx => hfree x (mem_cons_of_mem _ hx)
      have hg := Port.Grown.share P hmax e
      have hmark := shareLeaf_marked hsh m
      have h := cloneTable_cloned rest (hg.ok hok) hg.max (hk.next.grown hg) (fun x hx hf => hrest x hx ((hg.free x).mp hf).1) hold.rest
      obtain ⟨hsh', hphys⟩ := hmark.same
      have hr : reach P k level m.freeCount (.leaf e rest) =
          (e.phys :: (reach P (next k) level (vmCowShareLeaf m e 1).2.freeCount rest).1,
            (reach P (next k) level (vmCowShareLeaf m e 1).2.freeCount rest).2) := by
        rw [reach, hkl, hbl, hsh, shareLeaf_count]
        rfl
      have hd := own_leaf (hk.leaf (hsh'.trans hsh)) hbl (hsh'.trans hsh)
      rw [cloneTable, hkl, hbl, hsh]
      refine ⟨?_, by rw [hr]; exact h.left, (congrArg tables (hd _)).trans h.tables, ?_, .leaf hmark h.src⟩
      · rw [hr]
        exact hg.trans h.grown fun x hx => hrest x ((reach_frames ..).1.subset hx)
      · rw [hr]
        exact (congrArg frames (hd _)).trans (congrArg₂ cons hphys h.frames)
    · rw [cloneTable, hkl, hbl]
      exact .stop (by rw [reach, hkl, hbl]; rfl) (.refl P hmax) hold
    · have ho : ∀ r, own P k level (.leaf e r) = .hole (own P (next k) level r) := own_leaf_skip (by rw [hkl]; rfl)
      rw [ho] at hfree
      have h := cloneTable_cloned rest hok hmax hk.next hfree hold.rest
      rw [cloneTable, if_pos hkl]
      exact h.skip (by rw [reach, if_pos hkl]) (ho _) (.leaf (.inl rfl) h.src)
  | k, level, m, .table page flags sub rest, old, hok, hmax, hk, hfree, hold => by
    rcases hkt : kernelTable k page flags with - | -
    · rw [own_table hkt, frames_table] at hfree
      have hsub : ∀ x ∈ (own P (below k) (level + 1) sub).frames, ¬ m.Free x := fun x hx => hfree x (mem_append_left _ hx)
      have hrest : ∀ x ∈ (own P (next k) level rest).frames, ¬ m.Free x := fun x hx => hfree x (mem_append_right _ hx)
      rcases P.alloc_spec hok with ⟨hz, hcount, hsame⟩ | ⟨hq, -, -, hcount⟩
      · rw [cloneTable, hkt, if_pos hz]
        exact .stop (by rw [hcount, reach, hkt]; rfl) (.same P hmax hsame (P.alloc_range m)) hold
      have hne : (P.allocTable m).1 ≠ 0 := fun hz => hok.null (hz ▸ hq)
      have hg := Port.Grown.alloc hok hmax hne
      have hc := cloneTable_cloned sub (hg.ok hok) hg.max (hk.below.grown hg) (fun x hx hf => hsub x hx ((hg.free x).mp hf).1)
        (zeros_inert (below k) (level + 1) sub)
      have hd : ∀ s r, own P k level (.table (P.allocTable m).1 P.nonleaf s r) = _ := own_table (hk.table hq P.nonleaf)
      have hgc := hg.trans hc.grown fun x hx => hsub x ((reach_frames ..).1.subset hx)
      rw [cloneTable, hkt, if_neg nofun, if_neg hne]
      dsimp only
      generalize cloneTable P (below k) (level + 1) (P.allocTable m).2 sub sub.zeros = c at *
      have hleft := hc.left
      rcases hrc : c.rc with - | -
      · -- given up below
        rw [hrc] at hleft
        have hr : reach P k level m.freeCount (.table page flags sub rest) = _ := hcount ▸ reach_table_none hkt hleft
        rw [if_neg nofun]
        refine ⟨hr ▸ hgc, by rw [hr]; rfl, ?_, ?_, .table page flags hc.src (.refl (fun _ => .inl rfl) rest)⟩
        · rw [hd, tables, hc.tables, hold.rest.1, append_nil]
        · rw [hd, frames_table, hc.frames, hold.rest.2, append_nil, hr]
      · rw [hrc] at hleft
        have hr : reach P k level m.freeCount (.table page flags sub rest) = _ := hcount ▸ reach_table_some hkt hleft
        have h := cloneTable_cloned rest (hgc.ok hok) hgc.max (hk.next.grown hgc) (fun x hx hf => hrest x hx ((hgc.free x).mp hf).1) hold.rest
        rw [if_pos rfl]
        refine ⟨?_, by rw [hr]; exact h.left, ?_, ?_, .table page flags hc.src h.src⟩
        · rw [hr]
          exact hgc.trans h.grown fun x hx => hrest x ((reach_frames ..).1.subset hx)
        · rw [hd, tables, hc.tables, h.tables]
        · rw [hd, frames_table, hc.frames, h.frames, hr]
    · have ho : ∀ s r, own P k level (.table page flags s r) = .hole (own P (next k) level r) := own_table_skip hkt
      rw [ho] at hfree
      have h := cloneTable_cloned rest hok hmax hk.next hfree hold.rest
      rw [cloneTable, if_pos hkt]
      refine h.skip ?_ (ho _ _) (.table page flags (.refl (fun _ => .inl rfl) sub) h.src)
      rcases m.freeCount with - | n
      · rw [reach, if_pos hkt]
      · rw [reach, if_pos hkt]

/-! ### The fork -/

/-- What a store through a leaf comes to: the hardware lets it pass, or `vm_cow_write_fault` decides. -/
def storeOutcome (r : Ram) (e : Pte) : Fault × Option Pte × Ram :=
  if e.writable then (.handled, some e, r) else vmCowWriteFault r (some e)

/-- A leaf that leads where the other does, with the same access, and at which every store ends the same. -/
def Pte.Kept (m : Pmm) (e e' : Pte) : Prop := e'.access = e.access ∧ ∀ mem, storeOutcome ⟨m, mem⟩ e' = storeOutcome ⟨m, mem⟩ e

variable (P) (kernel : Option Space)

/-- An address space as the kernel builds them: tables and pages in use and apart from each other, writable pages counted at
    most once and not marked, and a kernel whose tables are in use and whose leaves are not the process's. -/
structure Space.Wf (m : Pmm) (s : Space) : Prop where
  root : s.root ≠ 0 ∧ kernel.any (·.root = s.root) = false
  holds : P.Holds m (s.tables P kernel) (s.frames P kernel)
  used : ∀ q ∈ s.tables P kernel, ¬ m.Free q
  pages : ∀ x ∈ s.frames P kernel, ¬ m.Free x
  stores : ∀ e ∈ s.top.leaves, P.shares e = true → e.writable = true → e.cow = false ∧ m.getRef e.phys ≤ 1
  shared : KernelOk P m (kernel.map Space.top)
  kernelRoot : ∀ k, kernel = some k → ¬ m.Free k.root

/-- A fork that failed: the allocator is as before, only frames that were free were written, and the parent reads and
    stores as before. -/
structure Space.Undone (m : Pmm) (s : Space) (c : SpaceClone) : Prop where
  pmm : m.Same c.pmm
  wrote : ∀ q ∈ c.wrote, m.Free q
  root : c.old.root = s.root
  parent : Slots.Rel (Pte.Kept c.pmm) s.top c.old.top

/-- A fork that succeeded: destroying the child leaves what was before the fork, destroying the parent leaves the child's
    pages with the counts they had, and destroying both, in either order, loses each table and each of the parent's
    references once. -/
structure Space.Repaid (m : Pmm) (s : Space) (c : SpaceClone) : Prop where
  child : m.Same (destroyAddressSpace P kernel c.pmm c.new)
  parent : ∀ x ∈ s.frames P kernel, (destroyAddressSpace P kernel c.pmm c.old).getRef x = m.getRef x
  childFirst : m.Lost (destroyAddressSpace P kernel (destroyAddressSpace P kernel c.pmm c.new) c.old)
    (c.new.tables P kernel ++ s.tables P kernel) (s.frames P kernel)
  parentFirst : m.Lost (destroyAddressSpace P kernel (destroyAddressSpace P kernel c.pmm c.old) c.new)
    (c.new.tables P kernel ++ s.tables P kernel) (s.frames P kernel)

/-- A clone as it stands before it is returned or torn down. -/
structure Space.Built (m : Pmm) (s n old : Space) (m₁ : Pmm) : Prop where
  root : n.root ≠ 0 ∧ kernel.any (·.root = n.root) = false
  grown : P.Grown m m₁ (n.tables P kernel) (s.reached P kernel m)
  frames : n.frames P kernel = s.reached P kernel m
  parent : old.root = s.root ∧ Slots.Rel (Pte.Marked P) s.top old.top

variable {P kernel} {s n old : Space} {m₁ : Pmm}

theorem Space.reached_frames (m : Pmm) (s : Space) : ∀ x ∈ s.reached P kernel m, x ∈ s.frames P kernel := by
  intro x hx
  rw [reached] at hx
  split at hx
  · exact absurd hx not_mem_nil
  · exact (reach_frames ..).1.subset hx

/-- The three ways a fork goes: no root, a clone that is given up and torn down, and one that is finished. -/
theorem cloneAddressSpace_cases (hok : m.Ok) (hmax : ∀ pa, m.getRef pa ≤ 65535) (hs : s.Wf P kernel m) :
    (m.freeCount = 0 ∧ m.Same (P.allocTable m).2 ∧ cloneAddressSpace P kernel m s = ⟨⟨0, .nil⟩, s, (P.allocTable m).2, []⟩) ∨
    ∃ n old m₁, Space.Built P kernel m s n old m₁ ∧
      (cloneAddressSpace P kernel m s = ⟨⟨0, .nil⟩, old, destroyAddressSpace P kernel m₁ n, n.tables P kernel⟩ ∨
        (cloneAddressSpace P kernel m s = ⟨n, old, m₁, n.tables P kernel⟩ ∧ s.reached P kernel m = s.frames P kernel)) := by
  rw [cloneAddressSpace]
  rcases P.alloc_spec hok with ⟨hz, hcount, hsame⟩ | ⟨hq, -, -, hcount⟩
  · exact .inl ⟨hcount, hsame, if_pos hz⟩
  have hne : (P.allocTable m).1 ≠ 0 := fun hz => hok.null (hz ▸ hq)
  have hg := Port.Grown.alloc hok hmax hne
  have hold : Inert P (kernel.map Space.top) 1 (kernel.elim s.top.zeros Space.top) := by
    rcases kernel with - | k
    · exact zeros_inert none 1 s.top
    · exact kernel_inert 1 k.top
  have hc := cloneTable_cloned s.top (hg.ok hok) hg.max (hs.shared.grown hg) (fun x hx hf => hs.pages x hx ((hg.free x).mp hf).1) hold
  have hreach : s.reached P kernel m = (reach P (kernel.map Space.top) 1 (P.allocTable m).2.freeCount s.top).1 := by
    rw [Space.reached, ← hcount]
  have hroot : kernel.any (·.root = (P.allocTable m).1) = false := by
    rcases kernel with - | k
    · rfl
    refine decide_eq_false fun heq => hs.kernelRoot k rfl ?_
    rw [heq]
    exact hq
  rw [if_neg hne]
  dsimp only
  generalize cloneTable P (kernel.map Space.top) 1 (P.allocTable m).2 s.top (kernel.elim s.top.zeros Space.top) = c at *
  have htables : (Space.mk (P.allocTable m).1 c.dst).tables P kernel = (P.allocTable m).1 :: c.wrote := congrArg (cons _) hc.tables
  refine .inr ⟨⟨(P.allocTable m).1, c.dst⟩, ⟨s.root, c.src⟩, c.pmm, ⟨⟨hne, hroot⟩, ?_, hc.frames.trans hreach.symm, rfl, hc.src⟩, ?_⟩
  · rw [htables, hreach]
    exact hg.trans hc.grown fun x hx => hs.pages x ((reach_frames ..).1.subset hx)
  · rw [htables]
    have hleft := hc.left
    rcases hrc : c.rc with - | -
    · exact .inl (if_neg nofun)
    · rw [hrc] at hleft
      exact .inr ⟨if_pos rfl, hreach.trans ((reach_frames ..).2 (by rw [hleft]; exact nofun))⟩

namespace Space.Built
variable (h : Built P kernel m s n old m₁) (hs : s.Wf P kernel m)
include h hs

theorem holds : P.Holds m₁ (n.tables P kernel) (n.frames P kernel) where
  nodup := h.grown.nodup
  managed q hq := (free_iff.mp (h.grown.fresh q hq)).1.congr h.grown.range
  ref q hq := by rw [h.grown.ref, if_pos hq]
  apart q hq hx := hs.pages q (reached_frames m s q (h.frames ▸ hx)) (h.grown.fresh q hq)

/-- The clone torn down. -/
theorem lost : m₁.Lost (destroyAddressSpace P kernel m₁ n) (n.tables P kernel) (s.reached P kernel m) :=
  h.frames ▸ destroyAddressSpace_lost h.root.1 h.root.2 (h.holds hs)

theorem owns : old.tables P kernel = s.tables P kernel ∧ old.frames P kernel = s.frames P kernel := by
  obtain ⟨hts, hfs⟩ := @own_marked P m _ hs.shared 1 _ _ h.parent.2
  exact ⟨congrArg₂ cons h.parent.1 hts, hfs⟩

/-- The parent can be torn down after the fork as before. -/
theorem parent_holds : P.Holds m₁ (old.tables P kernel) (old.frames P kernel) := by
  obtain ⟨hts, hfs⟩ := h.owns hs
  rw [hts, hfs]
  exact hs.holds.grown h.grown hs.used fun q hq hx => hs.holds.apart q hq (reached_frames m s q hx)

/-- No table is the parent's and the clone's. -/
theorem apart (hq : q ∈ s.tables P kernel) : q ∉ n.tables P kernel := fun hin => hs.used q hq (h.grown.fresh q hin)

theorem undone {m₂ : Pmm} (hsame : m.Same m₂) : Slots.Rel (Pte.Kept m₂) s.top old.top := by
  refine h.parent.2.mono fun e he e' hmark => ?_
  rcases hmark with rfl | ⟨hsh, hw, rfl⟩
  · exact ⟨rfl, fun _ => rfl⟩
  obtain ⟨hcow, hle⟩ := hs.stores e he hsh hw
  have hle' : ¬ m₂.getRef e.phys > 1 := by
    rw [hsame.ref]
    omega
  refine ⟨?_, fun mem => ?_⟩
  · simp [Pte.access, Pte.mkcow, hw]
  · obtain ⟨phys, pages, writable, cow, executable, user⟩ := e
    subst hcow hw
    simp [storeOutcome, Pte.mkcow, vmCowWriteFault, vmCowPageShared, Pte.mkwrite, hle']

theorem repaid (hok : m.Ok) (hmax : ∀ pa, m.getRef pa ≤ 65535)
    (hall : s.reached P kernel m = s.frames P kernel) (hfit : m.Fits (s.reached P kernel m)) :
    s.Repaid P kernel m ⟨n, old, m₁, n.tables P kernel⟩ := by
  obtain ⟨hts, hfs⟩ := h.owns hs
  have hroot : old.root ≠ 0 ∧ kernel.any (·.root = old.root) = false := h.parent.1 ▸ hs.root
  have hnew := h.lost hs
  have hold := destroyAddressSpace_lost hroot.1 hroot.2 (h.parent_holds hs)
  have hg := h.grown
  refine ⟨(hg.same_iff hnew hok hmax).mpr hfit, fun x hx => ?_, ?_, ?_⟩
  · have hx' : x ∉ s.tables P kernel := fun hin => hs.holds.apart x hin hx
    have hx'' : x ∉ n.tables P kernel := fun hin => hs.pages x hx (hg.fresh x hin)
    have := hfit x
    rw [hold.ref, hts, hfs, hg.ref, ← hall]
    split_ifs <;> omega
  · have hlater := (h.parent_holds hs).lost hnew (fun q hq => h.apart hs (hts ▸ hq))
      fun q hq hx => hs.holds.apart q (hts ▸ hq) (reached_frames m s q hx)
    have hboth := hnew.trans (destroyAddressSpace_lost hroot.1 hroot.2 hlater)
    rw [hts, hfs] at hboth
    exact hg.lost hboth hfit
  · have hlater := (h.holds hs).lost hold (fun q hq hx => h.apart hs (hts ▸ hx) hq)
      fun q hq hx => hs.pages q (hfs ▸ hx) (hg.fresh q hq)
    have hboth := hold.trans (destroyAddressSpace_lost h.root.1 h.root.2 hlater)
    rw [hts, hfs, h.frames] at hboth
    exact hg.lost (hboth.perm perm_append_comm perm_append_comm) hfit

end Space.Built

end port

/-! ### One page, two tables -/

/-- Frame 1 is the kernel's, frames 2, 3 and 4 are tables with count `t`, frame 5 is a page with count `c`; `n` more are free. -/
def Pmm.sharing (t c n : Nat) : Pmm := ⟨1, n + 5, fun i => i < 5, fun i => if i < 4 then t else if i = 4 then c else 0, 0⟩

theorem Pmm.sharing_free (hq : q ≤ 5) : ¬ (sharing t c n).Free q := by
  intro hf
  obtain ⟨⟨-, -⟩, hbit⟩ := free_iff.mp hf
  have hlt : ¬ q - 1 < 5 := of_decide_eq_false hbit
  omega

theorem Pmm.sharing_max (pa : Nat) : (sharing t c n).getRef pa ≤ max t c := by
  rw [getRef_eq]
  split_ifs
  · change (if pa - 1 < 4 then t else if pa - 1 = 4 then c else 0) ≤ max t c
    split_ifs <;> omega
  · exact Nat.zero_le _

theorem Pmm.sharing_managed (hlow : 1 ≤ q) (hq : q ≤ 5) : (sharing t c n).Managed q := by
  refine ⟨hlow, ?_⟩
  change q - 1 < n + 5
  omega

theorem Pmm.sharing_table (hlow : 1 ≤ q) (hq : q ≤ 4) : (sharing t c n).getRef q = t := by
  rw [getRef_eq, if_pos (sharing_managed hlow (by omega))]
  exact if_pos (by change q - 1 < 4; omega)

theorem Pmm.sharing_ok (t c n : Nat) : (sharing t c n).Ok := by
  refine ⟨fun {pa} hf => ?_, sharing_free (by omega), ?_⟩
  · obtain ⟨hin, hbit⟩ := free_iff.mp hf
    have hlt : ¬ pa - 1 < 5 := of_decide_eq_false hbit
    rw [getRef_eq, if_pos hin]
    dsimp only [sharing]
    rw [if_neg (by omega), if_neg (by omega)]
  · rw [getRef_eq, if_neg fun h => Nat.not_succ_le_zero 0 h.1]

/-- A read-only page of the process, and a page of the kernel. -/
def Pte.text : Pte := ⟨5, 1, false, false, true, true⟩

def Pte.kernel : Pte := ⟨100, 1, true, false, false, false⟩

/-- The kernel's root, and a parent that has the kernel's entry and one page two tables down. -/
def Space.kernelRv : Space := ⟨1, .leaf .kernel (.hole .nil)⟩

def Space.parentRv : Space := ⟨2, .leaf .kernel (.table 3 1 (.table 4 1 (.leaf .text .nil) .nil) .nil)⟩

def Space.parentArm : Space := ⟨2, .table 3 3 (.table 4 3 (.leaf .text .nil) .nil) .nil⟩

/-- Tables on frames 2, 3 and 4 over the page on frame 5 can be torn down. -/
theorem sharing_holds (P : Port) (c n : Nat) : P.Holds (.sharing P.ref c n) [2, 3, 4] [5] := by
  have hin : ∀ q ∈ [2, 3, 4], 1 ≤ q ∧ q ≤ 4 := by decide
  exact ⟨by decide, fun q hq => sharing_managed (hin q hq).1 (by have := hin q hq; omega),
    fun q hq => sharing_table (hin q hq).1 (hin q hq).2, by decide⟩

theorem Space.parentRv_wf (c n : Nat) : Space.parentRv.Wf riscv64 (some .kernelRv) (.sharing 1 c n) where
  root := by decide
  holds := sharing_holds riscv64 c n
  used q hq := sharing_free ((by decide : ∀ q ∈ [2, 3, 4], q ≤ 5) q hq)
  pages q hq := sharing_free ((by decide : ∀ q ∈ [5], q ≤ 5) q hq)
  stores e he hs hw :=
    absurd hw (Bool.eq_false_iff.mp ((by decide : ∀ e ∈ parentRv.top.leaves, riscv64.shares e → e.writable = false) e he hs))
  shared := by
    rintro _ ⟨⟩
    exact ⟨nofun, by decide⟩
  kernelRoot := by
    rintro _ ⟨⟩
    exact sharing_free (by decide)

theorem Space.parentArm_wf (c n : Nat) : Space.parentArm.Wf aarch64 none (.sharing 0 c n) where
  root := by decide
  holds := sharing_holds aarch64 c n
  used q hq := sharing_free ((by decide : ∀ q ∈ [2, 3, 4], q ≤ 5) q hq)
  pages q hq := sharing_free ((by decide : ∀ q ∈ [5], q ≤ 5) q hq)
  stores e he _ hw := absurd hw (Bool.eq_false_iff.mp ((by decide : ∀ e ∈ parentArm.top.leaves, e.writable = false) e he))
  shared := nofun
  kernelRoot := nofun

/-- With few references left to lose nothing runs into the limit. -/
theorem sharing_fits (h : max t c + l.length ≤ 65535) : (sharing t c n).Fits l := by
  intro pa _
  have hmax := sharing_max (t := t) (c := c) (n := n) pa
  have hlen := count_le_length (a := pa) (l := l)
  omega

/-- The fork of the riscv64 parent when its page has 65535 references. -/
def Space.saturated : SpaceClone := cloneAddressSpace riscv64 (some .kernelRv) (.sharing 1 65535 3) .parentRv

end Orthox.Memory
