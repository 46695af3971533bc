import Orthox.Mmap.Calls

/-! The loop that maps pages. After each turn one more page of the range stands on a page that was free, and the allocator
    has lost these pages and the ones for new tables. Dropping the pages again gives back the former; the tables stay. So
    the loop is all or nothing if it never needs a table, and it does not fail at all if there are pages enough. -/

namespace Orthox.Memory.Pmm
open Finset
variable {m : Pmm}

/-- The frames that can be handed out. -/
def freeFrames (m : Pmm) : Finset Nat := ((Finset.range m.pages).filter fun i => m.bm i = false).image (m.base + ·)

theorem mem_freeFrames {q : Nat} : q ∈ m.freeFrames ↔ m.Free q := by
  rw [freeFrames, mem_image]
  constructor
  · rintro ⟨i, hi, rfl⟩
    obtain ⟨hlt, hbit⟩ := mem_filter.1 hi
    refine ⟨i, ?_, hbit⟩
    rw [pageOf, if_neg (by omega), Nat.add_sub_cancel_left, if_pos (mem_range.1 hlt)]
  · rintro ⟨i, hi, hbit⟩
    rw [pageOf] at hi
    split_ifs at hi with hlow hhigh
    obtain rfl := Option.some.inj hi
    exact ⟨q - m.base, mem_filter.2 ⟨mem_range.2 hhigh, hbit⟩, by omega⟩

theorem card_freeFrames (m : Pmm) : m.freeFrames.card = m.freeCount :=
  card_image_of_injective _ (add_right_injective m.base)

end Orthox.Memory.Pmm

namespace Orthox.Mmap
open Memory Function Finset

/-! ### Pages taken -/

/-- The allocator after a set of free pages was taken, each with one reference. -/
structure Takes (m m' : Pmm) (F : Finset Nat) : Prop where
  fresh : ∀ q ∈ F, m.Free q
  ref : ∀ q, m'.getRef q = if q ∈ F then 1 else m.getRef q
  free : ∀ q, m'.Free q ↔ m.Free q ∧ q ∉ F
  ok : m'.Ok

namespace Takes
variable {m m' m'' : Pmm} {F G : Finset Nat}

theorem refl (h : m.Ok) : Takes m m ∅ := ⟨fun q hq => absurd hq (notMem_empty q), fun q => by simp, fun q => by simp, h⟩

theorem same_right (h : Takes m m' F) (hs : m'.Same m'') : Takes m m'' F :=
  ⟨h.fresh, fun q => (hs.ref q).trans (h.ref q), fun q => (hs.free q).trans (h.free q), hs.ok h.ok⟩

/-- Nothing was taken. -/
theorem same (h : Takes m m' ∅) : m.Same m' := ⟨fun q => by simpa using h.ref q, fun q => by simpa using h.free q⟩

variable {q : Nat}

/-- What is taken later is none of what was taken before. -/
theorem notMem (h : Takes m m' F) (hq : m'.Free q) : q ∉ F := ((h.free q).1 hq).2

theorem trans (h : Takes m m' F) (h' : Takes m' m'' G) : Takes m m'' (F ∪ G) where
  fresh q hq := by
    rcases mem_union.1 hq with hq | hq
    · exact h.fresh q hq
    · exact ((h.free q).1 (h'.fresh q hq)).1
  ref q := by
    rw [h'.ref, h.ref]
    split_ifs with hG hF hFG <;> simp_all
  free q := by
    rw [h'.free, h.free]
    simp only [mem_union, not_or, and_assoc]
  ok := h'.ok

theorem alloc (hok : m.Ok) (hne : (m.alloc 1).1 ≠ 0) : Takes m (m.alloc 1).2 {(m.alloc 1).1} := by
  rcases Pmm.alloc_spec hok 1 with ⟨hz, -⟩ | ⟨-, -, hfree, href, hleft⟩
  · exact absurd hz hne
  simp only [Pmm.within_one] at hfree href hleft
  refine ⟨?_, fun q => by simp [href], fun q => by simp [hleft], Pmm.alloc_ok hok 1⟩
  intro q hq
  exact hfree q (mem_singleton.1 hq)

/-- A page taken is given back. -/
theorem drop (h : Takes m m' F) (hok : m.Ok) (hq : q ∈ F) : Takes m (m'.free q 1) (F.erase q) := by
  obtain ⟨href, hfree⟩ := Pmm.free_spec m' q 1
  simp only [Pmm.within_one] at href hfree
  have hone : m'.getRef q = 1 := by rw [h.ref, if_pos hq]
  refine ⟨fun p hp => h.fresh p (mem_of_mem_erase hp), fun p => ?_, fun p => ?_, Pmm.free_ok h.ok q 1⟩
  · rw [href]
    rcases eq_or_ne p q with rfl | hne
    · rw [if_pos rfl, hone, if_neg (notMem_erase p F), hok.free (h.fresh p hq)]
    · rw [h.ref]
      simp [hne]
  · rw [hfree, h.free]
    rcases eq_or_ne p q with rfl | hne
    · simp [hone, h.fresh p hq]
    · simp [hne]

theorem card (h : Takes m m' F) : m'.freeCount + F.card = m.freeCount := by
  have hfree : m'.freeFrames = m.freeFrames \ F := by
    ext q
    rw [mem_sdiff, Pmm.mem_freeFrames, Pmm.mem_freeFrames, h.free]
  have hsub : F ⊆ m.freeFrames := fun q hq => Pmm.mem_freeFrames.2 (h.fresh q hq)
  rw [← Pmm.card_freeFrames, ← Pmm.card_freeFrames, hfree]
  exact card_sdiff_add_card_eq_card hsub

/-- Pages that were taken are missed. -/
theorem not_same (h : Takes m m' F) (hne : F.Nonempty) : ¬ m.Same m' := by
  obtain ⟨q, hq⟩ := hne
  intro hsame
  exact h.notMem ((hsame.free q).2 (h.fresh q hq)) hq

end Takes

/-! ### Tables -/

/-- The tables that are missing on the way down to a page, from a level on. -/
def missing (tab : Nat → Nat → Bool) (p : Nat) : Nat → Nat
  | 0 => 0
  | level + 1 => (if tab (level + 1) (p / 512 ^ (level + 1)) then 0 else 1) + missing tab p level

/-- The tables after the way down to a page was made. -/
def withTables (levels : Nat) (tab : Nat → Nat → Bool) (p : Nat) : Nat → Nat → Bool := fun l k =>
  tab l k || (1 ≤ l && l ≤ levels && k = p / 512 ^ l)

/-- The pages it takes to map so many pages from one on, tables included. -/
def need (levels : Nat) : Nat → (Nat → Nat → Bool) → Nat → Nat
  | 0, _, _ => 0
  | n + 1, tab, p => 1 + missing tab p levels + need levels n (withTables levels tab p) (p + 1)

namespace Sys
variable {A : Arch}

theorem missing_addTable (sp : Space A) (p level key : Nat) :
    ∀ l < level, missing (sp.addTable level key).table p l = missing sp.table p l
  | 0, _ => rfl
  | l + 1, h => by
    have hne : l + 1 ≠ level := by omega
    rw [missing, missing, missing_addTable sp p level key l (by omega)]
    simp [Space.addTable, hne]

variable {sp : Space A} {p : Nat} {m : Pmm} {e : Pte}

theorem Space.addTable_of_table {level key : Nat} (h : sp.table level key) : (sp.addTable level key).table = sp.table := by
  funext l k
  simp [Space.addTable]
  rintro rfl rfl
  exact h

theorem withTables_addTable (sp : Space A) (p level : Nat) :
    withTables level (sp.addTable (level + 1) (p / 512 ^ (level + 1))).table p = withTables (level + 1) sp.table p := by
  funext l k
  simp [withTables, Space.addTable]
  by_cases hl : l = level + 1
  · subst hl
    simp
  · have : l ≤ level ↔ l ≤ level + 1 := by omega
    simp [hl, this]

/-- With pages for the missing tables the walk gets to the end. -/
theorem walkCreate_spec (p : Nat) : ∀ (level : Nat) (sp : Space A) {m : Pmm}, m.Ok → missing sp.table p level ≤ m.freeCount →
    ∃ sp' m' T, walkCreate p level sp m = (true, sp', m') ∧ sp'.leaf = sp.leaf ∧
      sp'.table = withTables level sp.table p ∧ Takes m m' T ∧ m'.freeCount + missing sp.table p level = m.freeCount
  | 0, sp, m, hok, _ => by
    refine ⟨sp, m, ∅, rfl, rfl, ?_, .refl hok, rfl⟩
    funext l k
    simp [withTables]
    omega
  | level + 1, sp, m, hok, hle => by
    rw [missing] at hle
    rw [walkCreate, missing]
    rcases htab : sp.table (level + 1) (p / 512 ^ (level + 1)) with _ | _
    · simp only [htab, Bool.false_eq_true, if_false] at hle ⊢
      obtain ⟨hzero, hcount⟩ := Pmm.alloc_count hok
      have hne : (m.alloc 1).1 ≠ 0 := by
        intro hz
        omega
      have hlow := missing_addTable sp p (level + 1) (p / 512 ^ (level + 1)) level (by omega)
      obtain ⟨sp', m', T, hwalk, hleaf, htable, htakes, hfree⟩ :=
        walkCreate_spec p level (sp.addTable (level + 1) (p / 512 ^ (level + 1))) (Pmm.alloc_ok hok 1) (by rw [hlow]; omega)
      rw [if_neg hne]
      refine ⟨sp', m', _, hwalk, hleaf, ?_, (Takes.alloc hok hne).trans htakes, by rw [hlow] at hfree; omega⟩
      rw [htable, withTables_addTable]
    · simp only [htab, if_true, zero_add] at hle ⊢
      obtain ⟨sp', m', T, hwalk, hleaf, htable, htakes, hfree⟩ := walkCreate_spec p level sp hok hle
      refine ⟨sp', m', T, hwalk, hleaf, ?_, htakes, hfree⟩
      rw [htable, ← withTables_addTable, Space.addTable_of_table htab]

/-- Without pages enough for the missing tables it stops on the way, with every page taken. -/
theorem walkCreate_torn (p : Nat) : ∀ (level : Nat) (sp : Space A) {m : Pmm}, m.Ok → m.freeCount < missing sp.table p level →
    ∃ sp' m' T, walkCreate p level sp m = (false, sp', m') ∧ sp'.leaf = sp.leaf ∧ Takes m m' T ∧ m'.freeCount = 0
  | 0, _, _, _, hlt => absurd hlt (Nat.not_lt_zero _)
  | level + 1, sp, m, hok, hlt => by
    rw [missing] at hlt
    rw [walkCreate]
    rcases htab : sp.table (level + 1) (p / 512 ^ (level + 1)) with _ | _
    · simp only [htab, Bool.false_eq_true, if_false] at hlt ⊢
      obtain ⟨hzero, hcount⟩ := Pmm.alloc_count hok
      split_ifs with ha
      · have hsame : m.Same (m.alloc 1).2 := by
          rcases Pmm.alloc_spec hok 1 with ⟨-, h⟩ | ⟨hne, -⟩
          · exact h
          · exact absurd ha hne
        have htakes : Takes m (m.alloc 1).2 ∅ := (Takes.refl hok).same_right hsame
        have hcard := htakes.card
        rw [hzero.1 ha] at hcard
        exact ⟨sp, _, ∅, rfl, rfl, htakes, hcard⟩
      · have hcount := hcount ha
        have hlow := missing_addTable sp p (level + 1) (p / 512 ^ (level + 1)) level (by omega)
        obtain ⟨sp', m', T, hwalk, hleaf, htakes, hdry⟩ := walkCreate_torn p level
          (sp.addTable (level + 1) (p / 512 ^ (level + 1))) (Pmm.alloc_ok hok 1) (by rw [hlow]; omega)
        exact ⟨sp', m', _, hwalk, hleaf, (Takes.alloc hok ha).trans htakes, hdry⟩
    · simp only [htab, if_true, zero_add] at hlt ⊢
      exact walkCreate_torn p level sp hok hlt

/-! ### The loop -/

theorem dropPages_succ (s : Sys A) (base n : Nat) :
    s.dropPages base (n + 1) = (s.dropPages base n).mmapDropPage (base + n * 4096) := by
  rw [dropPages, List.range_succ, List.foldl_append]
  rfl

/-- The leaf `sys_mmap` makes for a page. -/
def newLeaf (frame : Nat) (writable executable : Bool) : Pte := ⟨frame, 1, writable, false, executable, true⟩

/-- The pages `lo` to `hi` of a range from page `p₀` on are mapped to the frames `f`, which were free and hold what they are
    to hold; `T` are the frames that became tables. -/
structure Mapping (s₀ : Sys A) (fill : Nat → Page) (w x : Bool) (p₀ : Nat) (f : Nat → Nat) (T : Finset Nat)
    (lo hi : Nat) (s : Sys A) : Prop where
  takes : Takes s₀.ram.pmm s.ram.pmm ((Finset.Ico lo hi).image f ∪ T)
  apart : ∀ i < hi, f i ∉ T
  inj : ∀ i < hi, ∀ j < hi, f i = f j → i = j
  leaf : ∀ p, s.space.leaf p = if p₀ + lo ≤ p ∧ p < p₀ + hi then some (newLeaf (f (p - p₀)) w x) else s₀.space.leaf p
  mem : ∀ i < hi, s.ram.mem (f i) = fill i
  others : ∀ q, ¬ s₀.ram.pmm.Free q → s.ram.mem q = s₀.ram.mem q

namespace Mapping
variable {s₀ s : Sys A} {fill : Nat → Page} {w x : Bool} {p₀ lo hi : Nat} {f : Nat → Nat} {T : Finset Nat}

theorem start (h : s₀.ram.pmm.Ok) : Mapping s₀ fill w x p₀ f ∅ 0 0 s₀ where
  takes := by simpa using Takes.refl h
  apart i hi := absurd hi (Nat.not_lt_zero i)
  inj i hi := absurd hi (Nat.not_lt_zero i)
  leaf p := by simp
  mem i hi := absurd hi (Nat.not_lt_zero i)
  others _ _ := rfl

variable {a hi : Nat}

/-- One turn: a free page `a` with its contents, the frames `U` for tables, and the leaf. -/
theorem turn (h : Mapping s₀ fill w x p₀ f T 0 hi s) {U : Finset Nat} {s' : Sys A}
    (htakes : Takes s.ram.pmm s'.ram.pmm ({a} ∪ U)) (hout : a ∉ U)
    (hleaf : s'.space.leaf = update s.space.leaf (p₀ + hi) (some (newLeaf a w x)))
    (hmem : s'.ram.mem = update s.ram.mem a (fill hi)) : Mapping s₀ fill w x p₀ (update f hi a) (T ∪ U) 0 (hi + 1) s' := by
  have hold : ∀ i < hi, update f hi a i = f i := fun i hi => update_of_ne (by omega) _ _
  have hnew : update f hi a hi = a := update_self ..
  have himage : (Finset.Ico 0 (hi + 1)).image (update f hi a) = insert a ((Finset.Ico 0 hi).image f) := by
    rw [← range_eq_Ico, ← range_eq_Ico, range_add_one, image_insert]
    congr 1
    exact image_congr fun i hi => hold i (mem_range.1 hi)
  have hfresh : ∀ q ∈ ({a} ∪ U), q ∉ (Finset.Ico 0 hi).image f ∪ T := fun q hq =>
    h.takes.notMem (htakes.fresh q hq)
  have ha := hfresh a (by simp)
  have hmemF : ∀ i < hi, f i ∈ (Finset.Ico 0 hi).image f := fun i hi =>
    mem_image_of_mem f (mem_Ico.2 ⟨Nat.zero_le i, hi⟩)
  have hne : ∀ i < hi, f i ≠ a := by
    rintro i hlt rfl
    exact ha (mem_union_left _ (hmemF i hlt))
  refine ⟨?_, ?_, ?_, ?_, ?_, ?_⟩
  · have hset : (Finset.Ico 0 hi).image f ∪ T ∪ ({a} ∪ U) = (Finset.Ico 0 (hi + 1)).image (update f hi a) ∪ (T ∪ U) := by
      rw [himage]
      ext q
      simp only [mem_union, mem_insert, mem_singleton]
      tauto
    exact hset ▸ h.takes.trans htakes
  · intro i hlt
    rcases Nat.lt_succ_iff_lt_or_eq.1 hlt with hlt | rfl
    · rw [hold i hlt, mem_union, not_or]
      refine ⟨h.apart i hlt, fun hU => ?_⟩
      exact hfresh _ (mem_union_right _ hU) (mem_union_left _ (hmemF i hlt))
    · rw [hnew, mem_union, not_or]
      exact ⟨fun hT => ha (mem_union_right _ hT), hout⟩
  · intro i hi' j hj' heq
    rcases Nat.lt_succ_iff_lt_or_eq.1 hi' with hi' | rfl
    · rcases Nat.lt_succ_iff_lt_or_eq.1 hj' with hj' | rfl
      · rw [hold i hi', hold j hj'] at heq
        exact h.inj i hi' j hj' heq
      · rw [hold i hi', hnew] at heq
        exact absurd heq (hne i hi')
    · rcases Nat.lt_succ_iff_lt_or_eq.1 hj' with hj' | rfl
      · rw [hold j hj', hnew] at heq
        exact absurd heq.symm (hne j hj')
      · rfl
  · intro p
    rw [hleaf]
    rcases eq_or_ne p (p₀ + hi) with rfl | hp
    · rw [update_self, if_pos (by omega), Nat.add_sub_cancel_left, hnew]
    rw [update_of_ne hp, h.leaf]
    by_cases hin : p₀ + 0 ≤ p ∧ p < p₀ + hi
    · rw [if_pos hin, if_pos (by omega), hold _ (by omega)]
    · rw [if_neg hin, if_neg (by omega)]
  · intro i hlt
    rw [hmem]
    rcases Nat.lt_succ_iff_lt_or_eq.1 hlt with hlt | rfl
    · rw [hold i hlt, update_of_ne (hne i hlt), h.mem i hlt]
    · rw [hnew, update_self]
  · intro q hq
    have hqa : q ≠ a := by
      rintro rfl
      exact hq ((h.takes.free q).1 (htakes.fresh q (by simp))).1
    rw [hmem, update_of_ne hqa, h.others q hq]

/-- One page is dropped again. -/
theorem drop (h : Mapping s₀ fill w x p₀ f T lo hi s) (hok : s₀.ram.pmm.Ok) (hlt : lo < hi)
    (hnone : s₀.space.leaf (p₀ + lo) = none) {addr : Nat} (haddr : A.page (addr % 2 ^ 64) = p₀ + lo) :
    Mapping s₀ fill w x p₀ f T (lo + 1) hi (s.mmapDropPage addr) := by
  have hleaf : s.space.leaf (p₀ + lo) = some (newLeaf (f lo) w x) := by
    rw [h.leaf, if_pos (by omega), Nat.add_sub_cancel_left]
  have hdrop : s.mmapDropPage addr =
      { s with space := s.space.unmap (p₀ + lo), ram := { s.ram with pmm := s.ram.pmm.free (f lo) 1 } } := by
    simp only [mmapDropPage, haddr, hleaf]
    rfl
  have hin : f lo ∈ (Finset.Ico lo hi).image f ∪ T := mem_union_left _ (mem_image_of_mem f (mem_Ico.2 ⟨le_rfl, hlt⟩))
  have hset : ((Finset.Ico lo hi).image f ∪ T).erase (f lo) = (Finset.Ico (lo + 1) hi).image f ∪ T := by
    ext q
    simp only [mem_erase, mem_union, mem_image, mem_Ico]
    constructor
    · rintro ⟨hne, ⟨i, hi', rfl⟩ | hT⟩
      · refine .inl ⟨i, ⟨?_, hi'.2⟩, rfl⟩
        rcases eq_or_lt_of_le hi'.1 with rfl | hlt'
        · exact absurd rfl hne
        · exact hlt'
      · exact .inr hT
    · rintro (⟨i, hi', rfl⟩ | hT)
      · refine ⟨fun heq => ?_, .inl ⟨i, ⟨by omega, hi'.2⟩, rfl⟩⟩
        have := h.inj i hi'.2 lo hlt heq
        omega
      · exact ⟨fun heq => h.apart lo hlt (heq ▸ hT), .inr hT⟩
  rw [hdrop]
  refine ⟨?_, h.apart, h.inj, ?_, h.mem, h.others⟩
  · exact hset ▸ h.takes.drop hok hin
  · intro p
    change update s.space.leaf (p₀ + lo) none p = _
    rcases eq_or_ne p (p₀ + lo) with rfl | hp
    · rw [update_self, if_neg (by omega), hnone]
    rw [update_of_ne hp, h.leaf]
    by_cases hin : p₀ + lo ≤ p ∧ p < p₀ + hi
    · rw [if_pos hin, if_pos (by omega)]
    · rw [if_neg hin, if_neg (by omega)]

variable {base : Nat}

/-- All pages are dropped again: only the tables are left. -/
theorem dropPages (h : Mapping s₀ fill w x p₀ f T 0 hi s) (hok : s₀.ram.pmm.Ok) (hnone : ∀ i < hi, s₀.space.leaf (p₀ + i) = none)
    (hpage : ∀ i < hi, A.page ((base + i * 4096) % 2 ^ 64) = p₀ + i) :
    ∀ n ≤ hi, Mapping s₀ fill w x p₀ f T n hi (s.dropPages base n)
  | 0, _ => h
  | n + 1, hn => by
    rw [dropPages_succ]
    exact (h.dropPages hok hnone hpage n (by omega)).drop hok (by omega) (hnone n (by omega)) (hpage n (by omega))

/-- Pages that were not mapped are dropped to no effect. -/
theorem dropAll (h : Mapping s₀ fill w x p₀ f T 0 hi s) (hok : s₀.ram.pmm.Ok) {n : Nat}
    (hnone : ∀ i < n, s₀.space.leaf (p₀ + i) = none) (hpage : ∀ i < n, A.page ((base + i * 4096) % 2 ^ 64) = p₀ + i)
    (hle : hi ≤ n) : Mapping s₀ fill w x p₀ f T hi hi (s.dropPages base n) := by
  induction n, hle using Nat.le_induction with
  | base => exact h.dropPages hok hnone hpage hi le_rfl
  | succ n hle ih =>
    have ih := ih (fun i hi => hnone i (by omega)) (fun i hi => hpage i (by omega))
    have hleaf : (s.dropPages base n).space.leaf (p₀ + n) = none := by
      rw [ih.leaf, if_neg (by omega), hnone n (by omega)]
    rw [dropPages_succ, mmapDropPage, hpage n (by omega), hleaf]
    exact ih

end Mapping

/-- The frames of a mapping are as many as its pages. -/
theorem Mapping.card {s₀ s : Sys A} {fill : Nat → Page} {w x : Bool} {p₀ : Nat} {f : Nat → Nat} {T : Finset Nat}
    (h : Mapping s₀ fill w x p₀ f T 0 hi s) : s.ram.pmm.freeCount + (hi + T.card) = s₀.ram.pmm.freeCount := by
  have himage : ((Finset.Ico 0 hi).image f).card = hi := by
    rw [card_image_of_injOn, Nat.card_Ico, Nat.sub_zero]
    intro i hi j hj heq
    exact h.inj i (mem_Ico.1 hi).2 j (mem_Ico.1 hj).2 heq
  have hdisjoint : Disjoint ((Finset.Ico 0 hi).image f) T := by
    rw [disjoint_left]
    intro q hq
    obtain ⟨i, hi, rfl⟩ := mem_image.1 hq
    exact h.apart i (mem_Ico.1 hi).2
  rw [← h.takes.card, card_union_of_disjoint hdisjoint, himage]

section
variable (hok : m.Ok) (he : e.phys ≠ 0 ∧ e.pages = 1)
include hok he

/-- The page for the data was taken; the walk gets to the end, or the port does what it does. -/
theorem archVmMapPage_spec (hmiss : missing sp.table p A.levels ≤ m.freeCount) :
    ∃ sp' m' U, archVmMapPage sp m p e he = some (sp', m') ∧ sp'.leaf = update sp.leaf p (some e) ∧
      sp'.table = withTables A.levels sp.table p ∧ Takes m m' U ∧ m'.freeCount + missing sp.table p A.levels = m.freeCount := by
  obtain ⟨sp', m', U, hwalk, hleaf, htable, htakes, hcount⟩ := walkCreate_spec p A.levels sp hok hmiss
  refine ⟨sp'.map p e he, m', U, by rw [archVmMapPage, hwalk], ?_, htable, htakes, hcount⟩
  change update sp'.leaf p (some e) = _
  rw [hleaf]

theorem archVmMapPage_torn (hmiss : m.freeCount < missing sp.table p A.levels) :
    ∃ sp' m' U, archVmMapPage sp m p e he = (if A.stops then none else some (sp', m')) ∧ sp'.leaf = sp.leaf ∧
      Takes m m' U ∧ m'.freeCount = 0 := by
  obtain ⟨sp', m', U, hwalk, hleaf, htakes, hdry⟩ := walkCreate_torn p A.levels sp hok hmiss
  exact ⟨sp', m', U, by rw [archVmMapPage, hwalk], hleaf, htakes, hdry⟩

end

section loop
variable {s₀ s : Sys A} {fill : Nat → Page} {w x : Bool} {base p₀ n done : Nat} {f : Nat → Nat} {T : Finset Nat}

/-- The page of one turn, where one is free. -/
theorem newPage_takes (hok : s.ram.pmm.Ok) (hfree : 0 < s.ram.pmm.freeCount) (page : Page) :
    (s.newPage page).1 ≠ 0 ∧ Takes s.ram.pmm (s.newPage page).2.ram.pmm {(s.newPage page).1} ∧
      (s.newPage page).2.ram.mem = update s.ram.mem (s.newPage page).1 page ∧
      (s.newPage page).2.ram.pmm.freeCount + 1 = s.ram.pmm.freeCount := by
  obtain ⟨hzero, hcount⟩ := Pmm.alloc_count hok
  have ha : (s.newPage page).1 ≠ 0 := fun ha => hfree.ne' (hzero.1 ha)
  exact ⟨ha, .alloc hok ha, if_neg ha, hcount ha⟩

/-- One turn, with pages for the data and the tables. -/
theorem mapPages_turn (hmap : Mapping s₀ fill w x p₀ f T 0 done s) (hpage : A.page (base + done * 4096) = p₀ + done)
    (hfree : 1 + missing s.space.table (p₀ + done) A.levels ≤ s.ram.pmm.freeCount) (left : Nat) :
    ∃ s' f' T', s.mapPages fill w x base (left + 1) done = s'.mapPages fill w x base left (done + 1) ∧
      Mapping s₀ fill w x p₀ f' T' 0 (done + 1) s' ∧ s'.space.table = withTables A.levels s.space.table (p₀ + done) ∧
      s'.ram.pmm.freeCount + (1 + missing s.space.table (p₀ + done) A.levels) = s.ram.pmm.freeCount := by
  obtain ⟨ha, htake, hmem, hcount⟩ := newPage_takes hmap.takes.ok (by omega) (fill done)
  obtain ⟨sp', m', U, hwalk, hleaf, htable, htakes, hrest⟩ :=
    archVmMapPage_spec (e := newLeaf (s.newPage (fill done)).1 w x) htake.ok ⟨ha, rfl⟩
      (by omega : missing s.space.table (p₀ + done) A.levels ≤ _)
  have hout : (s.newPage (fill done)).1 ∉ U := fun hin =>
    htake.notMem (htakes.fresh _ hin) (mem_singleton_self _)
  have hwalk : archVmMapPage (s.newPage (fill done)).2.space (s.newPage (fill done)).2.ram.pmm (p₀ + done)
      ⟨(s.newPage (fill done)).1, 1, w, false, x, true⟩ ⟨ha, rfl⟩ = some (sp', m') := hwalk
  rw [mapPages, dif_neg ha, hpage, hwalk]
  exact ⟨_, _, _, rfl, hmap.turn (htake.trans htakes) hout hleaf hmem, htable, by dsimp only; omega⟩

/-- The first `i` turns, with pages for what they need. -/
theorem mapPages_turns (fill : Nat → Page) (w x : Bool) (hpage : ∀ i < n, A.page (base + i * 4096) = p₀ + i) (left : Nat) :
    ∀ (i done : Nat) (s : Sys A) (f : Nat → Nat) (T : Finset Nat), done + i ≤ n → Mapping s₀ fill w x p₀ f T 0 done s →
      need A.levels i s.space.table (p₀ + done) ≤ s.ram.pmm.freeCount →
      ∃ s' f' T', s.mapPages fill w x base (left + i) done = s'.mapPages fill w x base left (done + i) ∧
        Mapping s₀ fill w x p₀ f' T' 0 (done + i) s' ∧
        s'.ram.pmm.freeCount + need A.levels i s.space.table (p₀ + done) = s.ram.pmm.freeCount ∧
        need A.levels (i + 1) s.space.table (p₀ + done) =
          need A.levels i s.space.table (p₀ + done) + (1 + missing s'.space.table (p₀ + (done + i)) A.levels)
  | 0, done, s, f, T, _, hmap, _ => ⟨s, f, T, rfl, hmap, rfl, by simp [need]⟩
  | i + 1, done, s, f, T, hn, hmap, hneed => by
    rw [need] at hneed
    obtain ⟨s₁, f₁, T₁, hturn, hmap₁, htable, hcount⟩ := mapPages_turn hmap (hpage done (by omega)) (by omega) (left + i)
    have hnext : need A.levels i (withTables A.levels s.space.table (p₀ + done)) (p₀ + done + 1) =
        need A.levels i s₁.space.table (p₀ + (done + 1)) := by rw [htable, add_assoc]
    obtain ⟨s', f', T', hrun, hmap', hcount', hrest⟩ :=
      mapPages_turns fill w x hpage left i (done + 1) s₁ f₁ T₁ (by omega) hmap₁ (by omega)
    rw [add_right_comm, add_assoc] at hrun hmap' hrest
    rw [htable, ← add_assoc p₀] at hrest
    refine ⟨s', f', T', hturn.trans hrun, hmap', by rw [need]; omega, ?_⟩
    rw [need, hrest, need, add_assoc _ (need ..)]

/-- With pages enough the loop maps them all. -/
theorem mapPages_mapped (hok : s.ram.pmm.Ok) (hpage : ∀ i < n, A.page (base + i * 4096) = p₀ + i)
    (hneed : need A.levels n s.space.table p₀ ≤ s.ram.pmm.freeCount) :
    ∃ s' f T, s.mapPages fill w x base n 0 = some (true, s') ∧ Mapping s fill w x p₀ f T 0 n s' := by
  obtain ⟨s', f, T, hrun, hmap, -⟩ := mapPages_turns fill w x hpage 0 n 0 s (fun _ => 0) ∅ (by omega) (.start hok) hneed
  rw [zero_add] at hrun hmap
  exact ⟨s', f, T, hrun, hmap⟩

/-- Without a page for the data it drops what was mapped, and what it takes for mapped. -/
theorem mapPages_out (hok : s₀.ram.pmm.Ok) (hpage : ∀ i < n, A.page ((base + i * 4096) % 2 ^ 64) = p₀ + i)
    (hnone : ∀ i < n, s₀.space.leaf (p₀ + i) = none) (hmap : Mapping s₀ fill w x p₀ f T 0 hi s)
    (hdry : s.ram.pmm.freeCount = 0) (hle : hi ≤ done) (hlt : done < n) (left : Nat) :
    ∃ s', s.mapPages fill w x base (left + 1) done = some (false, s') ∧ s'.space.leaf = s₀.space.leaf ∧
      Takes s₀.ram.pmm s'.ram.pmm T ∧ ∀ q, ¬ s₀.ram.pmm.Free q → s'.ram.mem q = s₀.ram.mem q := by
  have ha : (s.newPage (fill done)).1 = 0 := (Pmm.alloc_count hmap.takes.ok).1.2 hdry
  have hsame : s.ram.pmm.Same (s.newPage (fill done)).2.ram.pmm := by
    rcases Pmm.alloc_spec hmap.takes.ok 1 with ⟨-, h⟩ | ⟨hne, -⟩
    · exact h
    · exact absurd ha hne
  have hmem : (s.newPage (fill done)).2.ram.mem = s.ram.mem := if_pos ha
  have hmap' : Mapping s₀ fill w x p₀ f T 0 hi (s.newPage (fill done)).2 :=
    ⟨hmap.takes.same_right hsame, hmap.apart, hmap.inj, hmap.leaf, fun i hi => hmem ▸ hmap.mem i hi,
      fun q hq => hmem ▸ hmap.others q hq⟩
  have hend := hmap'.dropAll hok (fun i hi => hnone i (by omega)) (fun i hi => hpage i (by omega)) hle
  have htakes := hend.takes
  rw [Finset.Ico_self, image_empty, empty_union] at htakes
  refine ⟨_, by rw [mapPages, dif_pos ha], ?_, htakes, hend.others⟩
  funext p
  rw [hend.leaf, if_neg (by omega)]

/-- Frames are taken and nothing is mapped. -/
theorem Mapping.spoil {s' : Sys A} {U : Finset Nat} {page : Page} (h : Mapping s₀ fill w x p₀ f T 0 done s)
    (htakes : Takes s.ram.pmm s'.ram.pmm U) (ha : a ∈ U) (hleaf : s'.space.leaf = s.space.leaf)
    (hmem : s'.ram.mem = update s.ram.mem a page) : Mapping s₀ fill w x p₀ f (T ∪ U) 0 done s' := by
  have hnew : ∀ q ∈ U, q ∉ (Finset.Ico 0 done).image f ∪ T := fun q hq => h.takes.notMem (htakes.fresh q hq)
  have hin : ∀ i < done, f i ∈ (Finset.Ico 0 done).image f := fun i hi =>
    mem_image_of_mem f (mem_Ico.2 ⟨Nat.zero_le i, hi⟩)
  have hout : ∀ i < done, f i ∉ U := fun i hi hU => hnew _ hU (mem_union_left _ (hin i hi))
  refine ⟨?_, fun i hi => ?_, h.inj, fun p => by rw [hleaf, h.leaf], fun i hi => ?_, fun q hq => ?_⟩
  · rw [← union_assoc]
    exact h.takes.trans htakes
  · rw [mem_union, not_or]
    exact ⟨h.apart i hi, hout i hi⟩
  · have hne : f i ≠ a := by
      rintro rfl
      exact hout i hi ha
    rw [hmem, update_of_ne hne, h.mem i hi]
  · have hne : q ≠ a := by
      rintro rfl
      exact hq ((h.takes.free q).1 (htakes.fresh q ha)).1
    rw [hmem, update_of_ne hne, h.others q hq]

/-- One turn without pages for the tables: the kernel stops, or the page is left out and its frame is lost. -/
theorem mapPages_spoiled (hmap : Mapping s₀ fill w x p₀ f T 0 done s) (hpage : A.page (base + done * 4096) = p₀ + done)
    (hlow : 0 < s.ram.pmm.freeCount) (hhigh : s.ram.pmm.freeCount < 1 + missing s.space.table (p₀ + done) A.levels) (left : Nat) :
    ∃ s' T', s.mapPages fill w x base (left + 1) done = (if A.stops then none else s'.mapPages fill w x base left (done + 1)) ∧
      Mapping s₀ fill w x p₀ f T' 0 done s' ∧ T'.Nonempty ∧ s'.ram.pmm.freeCount = 0 := by
  obtain ⟨ha, htake, hmem, hcount⟩ := newPage_takes hmap.takes.ok hlow (fill done)
  obtain ⟨sp', m', U, hwalk, hleaf, htakes, hdry⟩ :=
    archVmMapPage_torn (e := newLeaf (s.newPage (fill done)).1 w x) htake.ok ⟨ha, rfl⟩
      (by omega : _ < missing s.space.table (p₀ + done) A.levels)
  have hwalk : archVmMapPage (s.newPage (fill done)).2.space (s.newPage (fill done)).2.ram.pmm (p₀ + done)
      ⟨(s.newPage (fill done)).1, 1, w, false, x, true⟩ ⟨ha, rfl⟩ = if A.stops then none else some (sp', m') := hwalk
  refine ⟨⟨sp', ⟨m', (s.newPage (fill done)).2.ram.mem⟩, s.mmapEnd⟩, _, ?_,
    hmap.spoil (htake.trans htakes) (mem_union_left _ (mem_singleton_self _)) hleaf hmem, ?_, hdry⟩
  · rw [mapPages, dif_neg ha, hpage, hwalk]
    split_ifs <;> rfl
  · exact ⟨_, mem_union_right _ (mem_union_left _ (mem_singleton_self _))⟩

/-- There are pages enough, or too few for the data and no table is made before that shows. -/
def Provided (s : Sys A) (p n : Nat) : Prop :=
  need A.levels n s.space.table p ≤ s.ram.pmm.freeCount ∨
    ∃ i < n, s.ram.pmm.freeCount = need A.levels i s.space.table p ∧ need A.levels i s.space.table p = i

/-- Every mapping, the allocator and the contents of the pages in use are as they were. -/
structure Unchanged (s s' : Sys A) : Prop where
  leaf : s'.space.leaf = s.space.leaf
  pages : s.ram.pmm.Same s'.ram.pmm
  mem : ∀ q, ¬ s.ram.pmm.Free q → s'.ram.mem q = s.ram.mem q

theorem Unchanged.refl (s : Sys A) : Unchanged s s := ⟨rfl, .refl _, fun _ _ => rfl⟩

section
variable (hok : s.ram.pmm.Ok) (hnone : ∀ i < n, s.space.leaf (p₀ + i) = none)
  (hpage : ∀ i < n, A.page (base + i * 4096) = p₀ + i ∧ A.page ((base + i * 4096) % 2 ^ 64) = p₀ + i)
include hok hnone hpage

variable {i : Nat}

/-- Without a page for the data of one more page it gives back what it mapped, and keeps the tables. -/
theorem mapPages_dry (hlt : i < n) (hdry : s.ram.pmm.freeCount = need A.levels i s.space.table p₀) :
    ∃ s' T, s.mapPages fill w x base n 0 = some (false, s') ∧ s'.space.leaf = s.space.leaf ∧
      Takes s.ram.pmm s'.ram.pmm T ∧ T.card + i = s.ram.pmm.freeCount ∧ ∀ q, ¬ s.ram.pmm.Free q → s'.ram.mem q = s.ram.mem q := by
  obtain ⟨left, rfl⟩ : ∃ left, n = left + 1 + i := ⟨n - i - 1, by omega⟩
  obtain ⟨s₁, f, T, hrun, hmap, hcount, -⟩ := mapPages_turns fill w x (fun i hi => (hpage i hi).1) (left + 1) i 0 s
    (fun _ => 0) ∅ (by omega) (.start hok) hdry.ge
  rw [add_zero] at hcount
  obtain ⟨s', hout, hleaf, htakes, hmem⟩ :=
    mapPages_out hok (fun i hi => (hpage i hi).2) hnone hmap (by omega) le_rfl (by omega) left
  have hcard := hmap.card
  exact ⟨s', T, hrun.trans hout, hleaf, htakes, by omega, hmem⟩

/-- Without pages for the tables of a page the loop comes to no good end: the kernel stops, or the last page is not
    mapped, or the call fails and has taken pages. -/
theorem mapPages_torn (hlt : i < n) (hlow : need A.levels i s.space.table p₀ < s.ram.pmm.freeCount)
    (hhigh : s.ram.pmm.freeCount < need A.levels (i + 1) s.space.table p₀) :
    ∃ s' T, s.mapPages fill w x base n 0 = (if A.stops then none else some (decide (i + 1 = n), s')) ∧
      (i + 1 = n → s'.space.leaf (p₀ + i) = none) ∧ (i + 1 ≠ n → T.Nonempty ∧ Takes s.ram.pmm s'.ram.pmm T) := by
  obtain ⟨left, rfl⟩ : ∃ left, n = left + 1 + i := ⟨n - i - 1, by omega⟩
  obtain ⟨s₁, f, T, hrun, hmap, hcount, hrest⟩ := mapPages_turns fill w x (fun i hi => (hpage i hi).1) (left + 1) i 0 s
    (fun _ => 0) ∅ (by omega) (.start hok) hlow.le
  simp only [add_zero, zero_add] at hrun hmap hcount hrest
  obtain ⟨s₂, T', hturn, hmap', hne, hdry⟩ := mapPages_spoiled hmap (hpage i (by omega)).1 (by omega) (by omega) left
  rcases left with _ | left
  · refine ⟨s₂, T', ?_, fun _ => ?_, fun h => absurd (by omega) h⟩
    · rw [hrun, hturn, decide_eq_true (by omega)]
      rfl
    · rw [hmap'.leaf, if_neg (by omega), hnone _ (by omega)]
  obtain ⟨s', hout, -, htakes, -⟩ :=
    mapPages_out hok (fun i hi => (hpage i hi).2) hnone hmap' hdry (Nat.le_succ i) (by omega) left
  refine ⟨s', T', ?_, fun h => absurd h (by omega), fun _ => ⟨hne, htakes⟩⟩
  rw [hrun, hturn, hout, decide_eq_false (by omega)]

/-- With no table made the loop that fails changes nothing. -/
theorem mapPages_short (hshort : ∃ i < n, s.ram.pmm.freeCount = need A.levels i s.space.table p₀ ∧ need A.levels i s.space.table p₀ = i) :
    ∃ s', s.mapPages fill w x base n 0 = some (false, s') ∧ Unchanged s s' := by
  obtain ⟨i, hi, hdry, hno⟩ := hshort
  obtain ⟨s', T, hrun, hleaf, htakes, hcard, hmem⟩ := mapPages_dry hok hnone hpage hi hdry
  have hT : T = ∅ := card_eq_zero.1 (by omega)
  rw [hT] at htakes
  exact ⟨s', hrun, hleaf, htakes.same, hmem⟩

end

end loop

end Sys

end Orthox.Mmap
