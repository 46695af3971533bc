import Orthox.Memory.Clone

/-! The allocator's books over a fork. A clone grows the allocator's state by new tables and one reference for each
    leaf it shares; tearing an address space down loses its tables and one reference for each of its leaves.
    `pmm_incref` stops at 65535 and `pmm_free` does not know, so the two cancel as long as no count gets there. -/

namespace Orthox.Memory
open List

/-! ### Growth and loss -/

/-- No page would have more than 65535 references after one more for each occurrence in `l`. -/
def Pmm.Fits (m : Pmm) (l : List Nat) : Prop := ∀ pa, m.getRef pa ≠ 0 → m.getRef pa + l.count pa ≤ 65535

/-- The tables `ts` were taken, and the counted frames of `l` gained a reference for each occurrence, up to the limit. -/
structure Port.Grown (P : Port) (m m' : Pmm) (ts l : List Nat) : Prop where
  nodup : ts.Nodup
  fresh : ∀ q ∈ ts, m.Free q
  ref : ∀ pa, m'.getRef pa =
    if pa ∈ ts then P.ref else if m.getRef pa = 0 then 0 else min 65535 (m.getRef pa + l.count pa)
  free : ∀ pa, m'.Free pa ↔ m.Free pa ∧ pa ∉ ts
  range : m'.range = m.range

/-- The tables `ts` were returned, and the frames of `l` lost a reference for each occurrence; without any left they are free. -/
structure Pmm.Lost (m m' : Pmm) (ts l : List Nat) : Prop where
  ref : ∀ pa, m'.getRef pa = if pa ∈ ts then 0 else m.getRef pa - l.count pa
  free : ∀ pa, m'.Free pa ↔ m.Free pa ∨ pa ∈ ts ∨ (0 < m.getRef pa ∧ m.getRef pa ≤ l.count pa)
  range : m'.range = m.range

theorem count_page (p pa : Nat) : [p].count pa = if pa = p then 1 else 0 := by
  rw [count_singleton]
  simp only [beq_iff_eq, eq_comm (a := p)]

namespace Pmm.Lost
variable {m m' m'' : Pmm} {ts ts' l l' : List Nat}

theorem refl (m : Pmm) : m.Lost m [] [] where
  ref pa := by rw [if_neg not_mem_nil, count_nil, Nat.sub_zero]
  free pa := by
    rw [or_iff_left]
    rintro (hin | ⟨hpos, hle⟩)
    · exact not_mem_nil hin
    · rw [count_nil] at hle
      omega
  range := rfl

theorem trans (h : m.Lost m' ts l) (h' : m'.Lost m'' ts' l') : m.Lost m'' (ts ++ ts') (l ++ l') where
  ref pa := by
    rw [h'.ref, h.ref, count_append]
    simp only [mem_append]
    split_ifs <;> first | rfl | omega | tauto
  free pa := by
    rw [h'.free, h.free, h.ref, count_append, mem_append]
    rcases em (pa ∈ ts) with hin | hout
    · simp only [hin, true_or, or_true]
    simp only [hout, if_false, false_or, or_assoc]
    refine or_congr_right ?_
    constructor
    · rintro (h | h | h)
      · exact .inr (by omega)
      · exact .inl h
      · exact .inr (by omega)
    · rintro (h | ⟨hpos, hle⟩)
      · exact .inr (.inl h)
      · rcases lt_or_ge (l.count pa) (m.getRef pa) with hlt | hge
        · exact .inr (.inr (by omega))
        · exact .inl ⟨hpos, hge⟩
  range := h'.range.trans h.range

/-- Which tables and how many of each frame matter, not their order. -/
theorem perm (h : m.Lost m' ts l) (hts : ts.Perm ts') (hl : l.Perm l') : m.Lost m' ts' l' where
  ref pa := by
    rw [h.ref, hl.count_eq]
    simp only [hts.mem_iff]
  free pa := by rw [h.free, hl.count_eq, hts.mem_iff]
  range := h.range

theorem page (m : Pmm) (p : Nat) : m.Lost (m.free p 1) [] [p] where
  ref pa := by
    rw [(m.free_spec p 1).1, if_neg not_mem_nil, count_page]
    simp only [within_one]
    split_ifs <;> rfl
  free pa := by
    rw [(m.free_spec p 1).2, count_page]
    simp only [not_mem_nil, false_or]
    refine or_congr_right ?_
    split_ifs <;> omega
  range := m.free_range_one p

theorem table (P : Port) {q : Nat} (hq : m.Managed q) (href : m.getRef q = P.ref) : m.Lost (P.freeTable m q) [q] [] where
  ref pa := by
    rw [(P.free_spec hq href).1, count_nil, Nat.sub_zero]
    simp
  free pa := by
    rw [(P.free_spec hq href).2, mem_singleton, count_nil]
    exact or_congr_right (or_iff_left (by omega)).symm
  range := P.free_range m q

/-- Losing tables and references leaves the allocator in order. -/
theorem ok (h : m.Lost m' ts l) (hok : m.Ok) (hts : ∀ q ∈ ts, m.getRef q ≠ 0) : m'.Ok := by
  have hnull := hok.null_ref
  have hout : 0 ∉ ts := fun hin => hts 0 hin hnull
  refine ⟨fun {p} hf => ?_, fun hf => ?_, ?_⟩
  · rw [h.ref]
    split_ifs with hin
    · rfl
    rcases (h.free p).mp hf with hf | hf | ⟨-, hle⟩
    · rw [hok.free hf, Nat.zero_sub]
    · exact absurd hf hin
    · omega
  · rcases (h.free 0).mp hf with hf | hf | ⟨hpos, -⟩
    · exact hok.null hf
    · exact hout hf
    · omega
  · rw [h.ref, if_neg hout, hnull, Nat.zero_sub]

theorem reserved (h : m.Lost m' ts l) {p : Nat} (hp : m.Reserved p) (hout : p ∉ ts) : m'.Reserved p := by
  have hz := hp.1
  refine ⟨by rw [h.ref, if_neg hout, hz, Nat.zero_sub], fun hf => ?_⟩
  rcases (h.free p).mp hf with hf | hf | ⟨hpos, -⟩
  · exact hp.2 hf
  · exact hout hf
  · omega

end Pmm.Lost

section growth
variable {P : Port} {m m' m'' : Pmm} {ts ts' l l' : List Nat}

namespace Port.Grown

theorem refl (P : Port) (hmax : ∀ pa, m.getRef pa ≤ 65535) : P.Grown m m [] [] where
  nodup := nodup_nil
  fresh := fun _ hq => absurd hq not_mem_nil
  ref pa := by
    have := hmax pa
    rw [if_neg not_mem_nil, count_nil]
    split_ifs <;> omega
  free pa := (and_iff_left not_mem_nil).symm
  range := rfl

/-- An allocation that found nothing changed nothing. -/
theorem same (P : Port) (hmax : ∀ pa, m.getRef pa ≤ 65535) (h : m.Same m') (hr : m'.range = m.range) : P.Grown m m' [] [] where
  nodup := nodup_nil
  fresh := fun _ hq => absurd hq not_mem_nil
  ref pa := (h.ref pa).trans ((refl P hmax).ref pa)
  free pa := (h.free pa).trans ((refl P hmax).free pa)
  range := hr

theorem ok (h : P.Grown m m' ts l) (hok : m.Ok) : m'.Ok := by
  have hfree : ∀ {pa}, m'.Free pa → m'.getRef pa = 0 := by
    intro pa hf
    obtain ⟨hf', hout⟩ := (h.free pa).mp hf
    rw [h.ref, if_neg hout, if_pos (hok.free hf')]
  refine ⟨hfree, fun hf => hok.null ((h.free 0).mp hf).1, ?_⟩
  rw [h.ref, if_neg fun hin => hok.null (h.fresh 0 hin), if_pos hok.null_ref]

theorem max (h : P.Grown m m' ts l) (pa : Nat) : m'.getRef pa ≤ 65535 := by
  have := P.ref_le
  rw [h.ref]
  split_ifs <;> omega

/-- Frames that are not free stay so, and gain references only as they occur. -/
theorem kept (h : P.Grown m m' ts l) {q : Nat} (hq : ¬ m.Free q) (hl : q ∉ l) (hmax : m.getRef q ≤ 65535) :
    ¬ m'.Free q ∧ m'.getRef q = m.getRef q := by
  refine ⟨fun hf => hq ((h.free q).mp hf).1, ?_⟩
  rw [h.ref, if_neg fun hin => hq (h.fresh q hin), count_eq_zero_of_not_mem hl]
  split_ifs <;> omega

theorem trans (h : P.Grown m m' ts l) (h' : P.Grown m' m'' ts' l') (hl : ∀ x ∈ l', ¬ m.Free x) :
    P.Grown m m'' (ts ++ ts') (l ++ l') where
  nodup := by
    refine nodup_append.mpr ⟨h.nodup, h'.nodup, ?_⟩
    rintro q hq _ hq' rfl
    exact ((h.free q).mp (h'.fresh q hq')).2 hq
  fresh q hq := by
    rcases mem_append.mp hq with hq | hq
    · exact h.fresh q hq
    · exact ((h.free q).mp (h'.fresh q hq)).1
  ref pa := by
    have hle := P.ref_le
    rw [h'.ref, h.ref, count_append]
    simp only [mem_append]
    rcases em (pa ∈ ts) with hin | hout
    · -- a table taken before is no page of the process
      rw [count_eq_zero_of_not_mem fun hx => hl pa hx (h.fresh pa hin)]
      simp only [hin, true_or]
      split_ifs <;> omega
    · simp only [hout, false_or, if_false]
      split_ifs <;> omega
  free pa := by
    rw [h'.free, h.free, mem_append, not_or, and_assoc]
  range := h'.range.trans h.range

theorem alloc (hok : m.Ok) (hmax : ∀ pa, m.getRef pa ≤ 65535) (hne : (P.allocTable m).1 ≠ 0) :
    P.Grown m (P.allocTable m).2 [(P.allocTable m).1] [] := by
  obtain ⟨hfree, href, hleft, -⟩ := (P.alloc_spec hok).resolve_left fun h => hne h.1
  refine ⟨nodup_singleton _, fun q hq => mem_singleton.mp hq ▸ hfree, fun pa => ?_, fun pa => ?_, P.alloc_range m⟩
  · have := hmax pa
    rw [href, count_nil]
    simp only [mem_singleton]
    split_ifs <;> omega
  · rw [hleft, mem_singleton]

theorem share (P : Port) (hmax : ∀ pa, m.getRef pa ≤ 65535) (e : Pte) : P.Grown m (vmCowShareLeaf m e 1).2 [] [e.phys] := by
  rcases Nat.eq_zero_or_pos (m.getRef e.phys) with hz | hpos
  · rw [vmCowShareLeaf, if_pos hz]
    refine { refl P hmax with ref := fun pa => ?_ }
    have := hmax pa
    change m.getRef pa = _
    rw [if_neg not_mem_nil, count_page]
    rcases eq_or_ne pa e.phys with rfl | hne
    · rw [hz, if_pos rfl]
    · split_ifs <;> omega
  · have hc := ne_of_gt hpos
    have hphys : (if e.writable then e.mkcow else e).phys = e.phys := by split_ifs <;> rfl
    obtain ⟨href, hfree⟩ := Pmm.incref_counted hc
    rw [vmCowShareLeaf, if_neg hc]
    simp only [range_one, foldl_cons, foldl_nil, hphys, add_zero]
    refine ⟨nodup_nil, fun _ hq => absurd hq not_mem_nil, fun pa => ?_, fun pa => ?_, m.incref_range e.phys⟩
    · have := hmax pa
      rw [href, if_neg not_mem_nil, count_page]
      rcases eq_or_ne pa e.phys with rfl | hne
      · rw [if_neg hc]
        split_ifs <;> omega
      · rw [if_neg fun h => hne h.1]
        split_ifs <;> omega
    · rw [hfree, and_iff_left not_mem_nil]

/-- What is lost after growing: the growth is undone, and the rest is lost from the state before. -/
theorem lost (h : P.Grown m m' ts l) (h' : m'.Lost m'' (ts ++ ts') (l ++ l')) (hfit : m.Fits l) : m.Lost m'' (ts ++ ts') l' where
  ref pa := by
    have := hfit pa
    rw [h'.ref, h.ref, count_append]
    simp only [mem_append]
    split_ifs <;> first | rfl | omega | tauto
  free pa := by
    have := hfit pa
    rw [h'.free, h.free, h.ref, count_append, mem_append]
    rcases em (pa ∈ ts) with hin | hout
    · simp only [hin, true_or, or_true]
    simp only [hout, not_false_eq_true, and_true, if_false]
    refine or_congr_right (or_congr_right ?_)
    split_ifs <;> omega
  range := h'.range.trans h.range

/-- Growing and losing the same is nothing, exactly if no count ran into the limit. -/
theorem same_iff (h : P.Grown m m' ts l) (h' : m'.Lost m'' ts l) (hok : m.Ok) (hmax : ∀ pa, m.getRef pa ≤ 65535) :
    m.Same m'' ↔ m.Fits l := by
  constructor
  · intro hsame pa hc
    have hout : pa ∉ ts := fun hin => hc (hok.free (h.fresh pa hin))
    have heq := hsame.ref pa
    rw [h'.ref, h.ref, if_neg hout, if_neg hout, if_neg hc] at heq
    omega
  · intro hfit
    have hlost : m.Lost m'' (ts ++ []) [] := h.lost (by rwa [append_nil, append_nil]) hfit
    rw [append_nil] at hlost
    refine ⟨fun pa => ?_, fun pa => ?_⟩
    · rw [hlost.ref]
      split_ifs with hin
      · exact (hok.free (h.fresh pa hin)).symm
      · rfl
    · rw [hlost.free, count_nil]
      refine or_iff_left_of_imp ?_
      rintro (hin | ⟨hpos, hle⟩)
      · exact h.fresh pa hin
      · omega

end Port.Grown
end growth

end Orthox.Memory
