import Orthox.Journal.Routines

/-! Crash safety of `commit`.

    A disk met after a cut is in one of three phases, and the header says which: `Old` (header empty, nothing installed), `Mid`
    (header written, log complete, home blocks old or new one by one) or `New` (header empty, everything installed). A cut
    `commit` leaves one of them, a cut recovery never goes back, and a complete recovery ends in `Old` or `New`.

        log copy      header       install       header
        Old ──────▶ Old ──▶ Mid ──────▶ Mid ──▶ New -/

namespace Orthox.Journal
open Schemes.Crash Relation List Function

/-- The header and the data blocks of the log. -/
def logArea (start : Nat) : Set Nat := {i | start ≤ i ∧ i ≤ start + logBlocks}

/-- What holds when `commit` is entered on an idle log: the disk header says 0, at most `XV6FS_LOGBLOCKS` blocks of a disk of
    `size` blocks are logged, none of them in the log area, and their buffers are pinned with the new contents. -/
structure Ready (size : Nat) (new : Nat → Block) (s : Sys) : Prop where
  size_lt : size < 2 ^ 32
  clean : word (s.disk s.start) 0 = 0
  length_le : s.block.length ≤ logBlocks
  inside : ∀ b ∈ s.block, b.toNat < size
  outside : ∀ b ∈ s.block, b.toNat ∉ logArea s.start
  pinned : Holds new s.block s
  fresh : s.issued = []

/-- One boot whose recovery loses power at some point. -/
def CutRecovery (start : Nat) (d d' : Nat → Block) : Prop :=
  ∃ m : Boot, CrashTo (recoverFromLog (m.sys start d)).issued d d'

/-- The disk after a recovery that runs to its end. -/
def recovered (m : Boot) (start : Nat) (d : Nat → Block) : Nat → Block := (recoverFromLog (m.sys start d)).disk

/-! ### Phases -/

section
variable (start : Nat) (bs : List Word) (new old : Nat → Block)

structure Old (d : Nat → Block) : Prop where
  clean : word (d start) 0 = 0
  home : ∀ i ∉ logArea start, d i = old i

structure Mid (d : Nat → Block) : Prop where
  head : unpackHead (d start) = bs
  log : ∀ k b, bs[k]? = some b → d (start + 1 + k) = new b.toNat
  home : ∀ i ∉ logArea start, d i = old i ∨ (i ∈ homes bs ∧ d i = new i)

structure New (d : Nat → Block) : Prop where
  clean : word (d start) 0 = 0
  home : ∀ i ∈ homes bs, d i = new i
  frame : ∀ i ∉ logArea start, i ∉ homes bs → d i = old i

/-- The log entries a header may hold: short, outside the log area, below `0xffffffff`. -/
structure Entries : Prop where
  length_le : bs.length ≤ logBlocks
  outside : ∀ i ∈ homes bs, i ∉ logArea start
  below : ∀ b ∈ bs, b.toNat ≠ 2 ^ 32 - 1

end

variable {start size : Nat} {bs : List Word} {new old : Nat → Block} {s : Sys}
  {d d' : Nat → Block} {ws : List (Write Nat Block)}

theorem start_mem_logArea (start : Nat) : start ∈ logArea start := by simp [logArea]

theorem slots_sub_logArea {start n : Nat} (hn : n ≤ logBlocks) : slots start 0 n ⊆ logArea start := by
  intro i hi
  simp only [slots, logArea, Set.mem_ofPred_eq] at hi ⊢
  omega

theorem Entries.start_notMem (h : Entries start bs) : start ∉ homes bs :=
  fun hmem => h.outside start hmem (start_mem_logArea start)

theorem Entries.disjoint (h : Entries start bs) : Disjoint (homes bs) (slots start 0 bs.length) :=
  Set.disjoint_left.mpr fun i hi hs => h.outside i hi (slots_sub_logArea h.length_le hs)

theorem homes_perm {bs cs : List Word} (h : bs.Perm cs) : homes bs = homes cs := by
  ext i
  exact ⟨fun ⟨b, hb, e⟩ => ⟨b, h.mem_iff.mp hb, e⟩, fun ⟨b, hb, e⟩ => ⟨b, h.mem_iff.mpr hb, e⟩⟩

/-- The command that writes the header block. -/
def headCmd (start : Nat) (blk : Block) : Write Nat Block := fun i => if i = start then some blk else none

theorem put_headCmd (start : Nat) (blk : Block) (d : Nat → Block) :
    put (headCmd start blk) d = update d start blk := put_single start blk d

theorem word_packHead_nil (hb : Block) : word (packHead hb []) 0 = 0 := by
  rw [word_packHead_zero]; rfl

/-! ### Recovery -/

theorem readHead_boot (m : Boot) (start : Nat) (d : Nat → Block) :
    (readHead (m.sys start d)).block = unpackHead (d start) ∧ (readHead (m.sys start d)).disk = d ∧
      (readHead (m.sys start d)).issued = [] ∧ (readHead (m.sys start d)).start = start ∧
      ∀ A, (readHead (m.sys start d)).Coherent A := by
  have hco : ∀ A, (m.sys start d).Coherent A := fun A i _ v hv => by simp [Boot.sys] at hv
  refine ⟨?_, by simp [readHead, Boot.sys], by simp [readHead, Boot.sys], by simp [readHead, Boot.sys], fun A => ?_⟩
  · have h := (hco {start}).read rfl
    exact congrArg unpackHead h
  · exact (hco A).xv6bread start

/-- With an empty header the recovery only rewrites the header block as it is. -/
theorem recover_clean (m : Boot) (h : word (d start) 0 = 0) :
    (recoverFromLog (m.sys start d)).issued = [headCmd start (d start)] ∧ recovered m start d = d := by
  obtain ⟨r1, r2, r3, r4, r5⟩ := readHead_boot m start d
  have hnil : (readHead (m.sys start d)).block = [] := by simp [r1, unpackHead, h]
  have hinst : installTrans true (readHead (m.sys start d)) = { readHead (m.sys start d) with gStageValid := false } := by
    have hst : staged true (readHead (m.sys start d)) = none := by
      unfold staged; split <;> simp [hnil]
    simp [installTrans, hst, hnil, installEach]
  obtain ⟨hb, hw, hco⟩ := writeHead_wrote { installTrans true (readHead (m.sys start d)) with block := [] }
  rw [hinst] at hw hco
  have hhb : hb = d start := by
    rw [hco (r5 {(readHead (m.sys start d)).start})]; simp [r2, r4]
  have hpack : packHead hb [] = d start := by rw [packHead_nil (by rw [hhb]; exact h), hhb]
  have hfun : recoverFromLog (m.sys start d) = writeHead { readHead (m.sys start d) with gStageValid := false, block := [] } := by
    simp only [recoverFromLog, hinst]
  constructor
  · rw [hfun, hw.issued]
    simp only [r3, r4, hpack]
    rfl
  · rw [recovered, hfun, hw.disk]
    simp only [r2, r4, hpack, applyAll]
    rw [put_single, update_eq_self]

/-- With a full header the recovery redoes the installation and then clears the header. -/
theorem recover_mid (m : Boot) (he : Entries start bs) (h : Mid start bs new old d) :
    ∃ ws hb, (recoverFromLog (m.sys start d)).issued = ws ++ [headCmd start (packHead hb [])] ∧
      recovered m start d = applyAll (ws ++ [headCmd start (packHead hb [])]) d ∧
      Agrees new ws ∧ ∀ i, Touches ws i ↔ i ∈ homes bs := by
  obtain ⟨r1, r2, r3, r4, r5⟩ := readHead_boot m start d
  have hblk : (readHead (m.sys start d)).block = bs := r1.trans h.head
  have hdo : Does new (homes bs) (readHead (m.sys start d)) (installTrans true (readHead (m.sys start d))) := by
    have := installTrans_spec true (by rw [hblk]; exact he.below) (by rw [hblk, r4]; exact he.disjoint)
      (by rw [hblk, r2, r4]; exact h.log) (.inr ⟨r5 _, .inl rfl⟩)
    rwa [hblk] at this
  obtain ⟨ws, hw, hag, ht⟩ := hdo
  obtain ⟨hb, hh, -⟩ := writeHead_wrote { installTrans true (readHead (m.sys start d)) with block := [] }
  have hall : Wrote (ws ++ [headCmd start (packHead hb [])]) (readHead (m.sys start d)) (recoverFromLog (m.sys start d)) := by
    have hmem : Wrote ws (readHead (m.sys start d)) { installTrans true (readHead (m.sys start d)) with block := [] } :=
      ⟨hw.issued, hw.disk, hw.start⟩
    have hst : ({ installTrans true (readHead (m.sys start d)) with block := [] } : Sys).start = start := hw.start.trans r4
    rw [hst] at hh
    exact hmem.trans hh
  refine ⟨ws, hb, ?_, ?_, hag, ht⟩
  · rw [hall.issued, r3, nil_append]
  · rw [recovered, hall.disk, r2]

/-! ### Installing and clearing, from `Mid` -/

theorem mid_install (he : Entries start bs)
    (h : Mid start bs new old d) (hag : Agrees new ws) (ht : ∀ i, Touches ws i ↔ i ∈ homes bs)
    (hc : CrashTo ws d d') : Mid start bs new old d' := by
  have hcell := crash_cell hag hc
  have hlog : ∀ i ∈ logArea start, d' i = d i := fun i hi =>
    (hcell i).resolve_right fun ⟨htc, _⟩ => he.outside i ((ht i).mp htc) hi
  refine ⟨?_, fun k b hb => ?_, fun i hi => ?_⟩
  · rw [hlog start (start_mem_logArea start)]; exact h.head
  · have hk := (List.getElem?_eq_some_iff.mp hb).1
    have hlen := he.length_le
    rw [hlog _ (by simp only [logArea, Set.mem_ofPred_eq]; omega)]
    exact h.log k b hb
  · rcases hcell i with hi' | ⟨htc, hi'⟩
    · rw [hi']; exact h.home i hi
    · exact .inr ⟨(ht i).mp htc, hi'⟩

/-- Once installation is complete, clearing the header ends in `New`. -/
theorem mid_clear (hb : Block) (he : Entries start bs)
    (h : Mid start bs new old d) (hag : Agrees new ws) (ht : ∀ i, Touches ws i ↔ i ∈ homes bs) :
    New start bs new old (update (applyAll ws d) start (packHead hb [])) := by
  refine ⟨by simp [word_packHead_nil], fun i hi => ?_, fun i hi hni => ?_⟩
  · have hne : i ≠ start := fun e => he.start_notMem (e ▸ hi)
    rw [update_of_ne hne]
    exact applyAll_touched hag d ((ht i).mpr hi)
  · have hne : i ≠ start := fun e => hi (e ▸ start_mem_logArea start)
    rw [update_of_ne hne, applyAll_untouched hag d (by rwa [ht i])]
    exact (h.home i hi).resolve_right fun hr => hni hr.1

theorem mid_tail {hb : Block} (he : Entries start bs)
    (h : Mid start bs new old d) (hag : Agrees new ws) (ht : ∀ i, Touches ws i ↔ i ∈ homes bs)
    (hc : CrashTo (ws ++ [headCmd start (packHead hb [])]) d d') : Mid start bs new old d' ∨ New start bs new old d' := by
  rcases crashTo_append hc with h1 | h2
  · exact .inl (mid_install he h hag ht h1)
  rcases crashTo_single h2 with rfl | rfl
  · exact .inl (mid_install he h hag ht (crashTo_applyAll ws d))
  · exact .inr (mid_clear hb he h hag ht)

/-- The phase of a disk, as long as the log is at work. -/
def Phase (start : Nat) (bs : List Word) (new old d : Nat → Block) : Prop :=
  Old start old d ∨ Mid start bs new old d ∨ New start bs new old d

theorem clean_cut (h : word (d start) 0 = 0) (hc : CutRecovery start d d') : d' = d := by
  obtain ⟨m, hm⟩ := hc
  rw [(recover_clean m h).1] at hm
  rcases crashTo_single hm with rfl | rfl
  · rfl
  · exact update_eq_self start d

section
variable (he : Entries start bs) (h : Phase start bs new old d)
include he h

/-- A recovery that loses power keeps the disk in a phase. -/
theorem phase_cut (hc : CutRecovery start d d') : Phase start bs new old d' := by
  rcases h with h | h | h
  · rw [clean_cut h.clean hc]; exact .inl h
  · obtain ⟨m, hm⟩ := hc
    obtain ⟨ws, hb, hi, -, hag, ht⟩ := recover_mid m he h
    rw [hi] at hm
    rcases mid_tail he h hag ht hm with h' | h'
    · exact .inr (.inl h')
    · exact .inr (.inr h')
  · rw [clean_cut h.clean hc]; exact .inr (.inr h)

theorem phase_cuts (hc : ReflTransGen (CutRecovery start) d d') : Phase start bs new old d' := by
  induction hc with
  | refl => exact h
  | tail _ hstep ih => exact phase_cut he ih hstep

end

/-- A complete recovery ends with the old blocks or with the new ones. -/
theorem phase_recovered (m : Boot) (he : Entries start bs) (h : Phase start bs new old d) :
    Old start old (recovered m start d) ∨ New start bs new old (recovered m start d) := by
  rcases h with h | h | h
  · rw [(recover_clean m h.clean).2]; exact .inl h
  · obtain ⟨ws, hb, -, hd, hag, ht⟩ := recover_mid m he h
    rw [hd, applyAll_append]
    simp only [applyAll, put_headCmd]
    exact .inr (mid_clear hb he h hag ht)
  · rw [(recover_clean m h.clean).2]; exact .inr h

/-! ### Commit -/

section
variable (h : Ready size new s)
include h

theorem Ready.entries : Entries s.start (sortLogBlocks s.block) where
  length_le := by rw [(sortLogBlocks_perm s.block).length_eq]; exact h.length_le
  outside := by
    rw [homes_perm (sortLogBlocks_perm s.block)]
    rintro i ⟨b, hb, rfl⟩
    exact h.outside b hb
  below := fun b hb => by
    have h1 := h.inside b ((sortLogBlocks_perm s.block).mem_iff.mp hb)
    have h2 := h.size_lt
    omega

/-- The commands of a commit: log copy, header, installation, empty header. -/
theorem commit_shape (hne : s.block ≠ []) : ∃ L hb I hb', Wrote (L ++ ([headCmd s.start (packHead hb (sortLogBlocks s.block))] ++
      (I ++ [headCmd s.start (packHead hb' [])]))) s (commit s) ∧
    (∃ v, Agrees v L ∧ (∀ i, Touches L i ↔ i ∈ slots s.start 0 (sortLogBlocks s.block).length) ∧
      ∀ k b, (sortLogBlocks s.block)[k]? = some b → v (s.start + 1 + k) = new b.toNat) ∧
    Agrees new I ∧ ∀ i, Touches I i ↔ i ∈ homes (sortLogBlocks s.block) := by
  set cs := sortLogBlocks s.block with hcs
  have he : Entries s.start cs := h.entries
  have hmem : ∀ b, b ∈ cs ↔ b ∈ s.block := fun b => (sortLogBlocks_perm s.block).mem_iff
  have hcne : cs ≠ [] := fun e => hne (by
    have := sortLogBlocks_perm s.block
    rw [← hcs, e] at this
    exact this.symm.eq_nil)
  have hh₀ : Holds new cs { s with block := cs } := fun b hb => h.pinned b ((hmem b).mp hb)
  -- log copy; slot `k` gets the new contents of the `k`-th entry
  set v : Nat → Block := fun i => new ((cs[i - (s.start + 1)]?).getD 0).toNat with hv
  have hvk : ∀ k b, cs[k]? = some b → v (s.start + 1 + k) = new b.toNat := by
    intro k b hb
    simp [hv, hb]
  obtain ⟨⟨L, hL, hLag, hLt⟩, l2, l3, l4⟩ := writeLog_spec (s := { s with block := cs }) hh₀ he.disjoint hcne hvk
  set s₁ := writeLog { s with block := cs } with hs₁
  have hst₁ : s₁.start = s.start := hL.start
  obtain ⟨hb, hH, -⟩ := writeHead_wrote s₁
  set s₂ := writeHead s₁ with hs₂
  have hst₂ : s₂.start = s.start := hH.start.trans hst₁
  have hblk₁ : s₁.block = cs := l3
  have hblk₂ : s₂.block = cs := by
    rw [hs₂]; simp [writeHead, Sys.xv6bwrite, Sys.issue, Sys.fill, hblk₁]
  -- the header command leaves the log slots alone
  have hslot : ∀ k b, cs[k]? = some b → s₂.disk (s.start + 1 + k) = new b.toNat := by
    intro k b hkb
    have hk := (List.getElem?_eq_some_iff.mp hkb).1
    rw [hH.disk]
    simp only [applyAll]
    rw [put_single, update_of_ne (by omega), hL.disk]
    rw [applyAll_touched hLag s.disk ((hLt _).mpr (by simp only [slots, Set.mem_ofPred_eq]; omega))]
    exact hvk k b hkb
  have hsrc : (false = false ∧ s₂.gStageValid ∧ s₂.gStage = some (s₂.block.map fun b => new b.toNat)) ∨
      (s₂.Coherent (slots s₂.start 0 s₂.block.length) ∧ (false ∨ s₂.gStage = none)) := by
    rcases l4 with ⟨g1, g2⟩ | ⟨g1, g2⟩
    · left
      refine ⟨rfl, ?_, ?_⟩
      · rw [hs₂]; simp [writeHead, Sys.xv6bwrite, Sys.issue, Sys.fill, g2]
      · rw [hblk₂, hs₂]; simp [writeHead, Sys.xv6bwrite, Sys.issue, Sys.fill, g1]
    right
    refine ⟨?_, .inr ?_⟩
    · rw [hst₂, hblk₂]
      refine Coherent.writeHead g2 ?_
      rw [hst₁]; simp [slots]
    · rw [hs₂]; simp [writeHead, Sys.xv6bwrite, Sys.issue, Sys.fill, g1]
  obtain ⟨I, hI, hIag, hIt⟩ := installTrans_spec false (by rw [hblk₂]; exact he.below) (by rw [hblk₂, hst₂]; exact he.disjoint)
    (by rw [hblk₂, hst₂]; exact hslot) hsrc
  obtain ⟨hb', hH', -⟩ := writeHead_wrote { installTrans false s₂ with block := [] }
  have hst₃ : ({ installTrans false s₂ with block := [] } : Sys).start = s.start := hI.start.trans hst₂
  have hfun : commit s = writeHead { installTrans false s₂ with block := [] } := by
    simp [commit, hne, hs₂, hs₁, hcs]
  refine ⟨L, hb, I, hb', ?_, ⟨v, hLag, hLt, hvk⟩, hIag, by rw [← hblk₂]; exact hIt⟩
  rw [hfun]
  have w₁ : Wrote L s s₁ := ⟨hL.issued, hL.disk, hL.start⟩
  have w₂ : Wrote [headCmd s.start (packHead hb cs)] s₁ s₂ := by rw [hst₁, hblk₁] at hH; exact hH
  have w₃ : Wrote I s₂ { installTrans false s₂ with block := [] } := ⟨hI.issued, hI.disk, hI.start⟩
  have w₄ : Wrote [headCmd s.start (packHead hb' [])] { installTrans false s₂ with block := [] }
      (writeHead { installTrans false s₂ with block := [] }) := by rw [hst₃] at hH'; exact hH'
  exact w₁.trans (w₂.trans (w₃.trans w₄))

/-- Wherever a commit is cut, the disk is in a phase. -/
theorem commit_phase (hc : CrashTo (commit s).issued s.disk d) : Phase s.start (sortLogBlocks s.block) new s.disk d := by
  by_cases hne : s.block = []
  · have hnil : (commit s).issued = [] := by simp [commit, hne, h.fresh]
    rw [hnil] at hc
    cases hc
    exact .inl ⟨h.clean, fun _ _ => rfl⟩
  obtain ⟨L, hb, I, hb', hw, ⟨v, hLag, hLt, hvk⟩, hIag, hIt⟩ := commit_shape h hne
  have he := h.entries
  set cs := sortLogBlocks s.block with hcs
  rw [hw.issued, h.fresh, nil_append] at hc
  have hlogOnly : ∀ d', CrashTo L s.disk d' → Old s.start s.disk d' := by
    intro d' hd'
    have hcell := crash_cell hLag hd'
    refine ⟨?_, fun i hi => (hcell i).resolve_right fun ⟨ht, _⟩ =>
      hi (slots_sub_logArea he.length_le ((hLt i).mp ht))⟩
    rw [(hcell s.start).resolve_right fun ⟨ht, _⟩ => by
      have := (hLt s.start).mp ht
      simp only [slots, Set.mem_ofPred_eq] at this
      omega]
    exact h.clean
  have hold : Old s.start s.disk (applyAll L s.disk) := hlogOnly _ (crashTo_applyAll L s.disk)
  have hmid : Mid s.start cs new s.disk (update (applyAll L s.disk) s.start (packHead hb cs)) := by
    refine ⟨by simpa using unpackHead_packHead hb he.length_le, fun k b hkb => ?_, fun i hi => .inl ?_⟩
    · have hk := (List.getElem?_eq_some_iff.mp hkb).1
      rw [update_of_ne (by omega), applyAll_touched hLag s.disk ((hLt _).mpr (by simp only [slots, Set.mem_ofPred_eq]; omega))]
      exact hvk k b hkb
    · have hns : i ≠ s.start := fun e => hi (e ▸ start_mem_logArea s.start)
      rw [update_of_ne hns]
      exact hold.home i hi
  rcases crashTo_append hc with hc | hc
  · exact .inl (hlogOnly d hc)
  rcases crashTo_append hc with hc | hc
  · rcases crashTo_single hc with rfl | rfl
    · exact .inl hold
    · exact .inr (.inl hmid)
  · simp only [applyAll, put_headCmd] at hc
    exact .inr (mid_tail he hmid hIag hIt hc)

/-- Running to its end is one of the ways a commit may meet the power cut. -/
theorem commit_runs : CrashTo (commit s).issued s.disk (commit s).disk := by
  by_cases hne : s.block = []
  · simp only [commit, hne, not_true_eq_false]
    exact .cut _ _
  obtain ⟨L, hb, I, hb', hw, -⟩ := commit_shape h hne
  rw [hw.issued, hw.disk, h.fresh]
  exact crashTo_applyAll _ _

/-- A commit that is not cut installs everything. -/
theorem commit_done : New s.start s.block new s.disk (commit s).disk := by
  by_cases hne : s.block = []
  · have hfun : commit s = s := by simp [commit, hne]
    rw [hfun, hne]
    exact ⟨h.clean, fun i ⟨b, hb, _⟩ => by simp at hb, fun _ _ _ => rfl⟩
  obtain ⟨L, hb, I, hb', hw, ⟨v, hLag, hLt, -⟩, hIag, hIt⟩ := commit_shape h hne
  have he := h.entries
  rw [homes_perm (sortLogBlocks_perm s.block)] at hIt
  have hhomes : ∀ i ∈ homes s.block, i ∉ logArea s.start := fun i ⟨b, hbm, e⟩ => e ▸ h.outside b hbm
  rw [hw.disk]
  simp only [applyAll_append, applyAll, put_headCmd]
  refine ⟨by simp [word_packHead_nil], fun i hi => ?_, fun i hi hni => ?_⟩
  · have hns : i ≠ s.start := fun e => hhomes i hi (e ▸ start_mem_logArea s.start)
    rw [update_of_ne hns]
    exact applyAll_touched hIag _ ((hIt i).mpr hi)
  · have hns : i ≠ s.start := fun e => hi (e ▸ start_mem_logArea s.start)
    rw [update_of_ne hns, applyAll_untouched hIag _ (by rwa [hIt i]), update_of_ne hns]
    exact applyAll_untouched hLag _ (fun ht => hi (slots_sub_logArea he.length_le ((hLt i).mp ht)))

end

/-- CORRECT (crash atomicity): cut `commit` anywhere, cut any number of recoveries anywhere, then
    let one recovery finish. Every logged block holds its old contents or every one its new
    contents, nothing else outside the log area moved, and recovering again changes nothing. -/
theorem commit_crash_atomic (h : Ready size new s) {d₁ d₂ : Nat → Block}
    (hcut : CrashTo (commit s).issued s.disk d₁) (hrec : ReflTransGen (CutRecovery s.start) d₁ d₂) (m : Boot) :
    ((∀ b ∈ s.block, recovered m s.start d₂ b.toNat = s.disk b.toNat) ∨
      (∀ b ∈ s.block, recovered m s.start d₂ b.toNat = new b.toNat)) ∧
    (∀ i ∉ logArea s.start, (∀ b ∈ s.block, b.toNat ≠ i) → recovered m s.start d₂ i = s.disk i) ∧
    (∀ m' : Boot, recovered m' s.start (recovered m s.start d₂) = recovered m s.start d₂) := by
  have he := h.entries
  have hend := phase_recovered m he (phase_cuts he (commit_phase h hcut) hrec)
  have hhomes := homes_perm (sortLogBlocks_perm s.block)
  rcases hend with ho | hn
  · refine ⟨.inl fun b hb => ho.home _ (h.outside b hb), fun i hi _ => ho.home i hi, fun m' => ?_⟩
    exact (recover_clean m' ho.clean).2
  refine ⟨.inr fun b hb => hn.home _ ?_, fun i hi hni => hn.frame i hi ?_, fun m' => ?_⟩
  · rw [hhomes]; exact ⟨b, hb, rfl⟩
  · rw [hhomes]; rintro ⟨b, hb, e⟩; exact hni b hb e
  · exact (recover_clean m' hn.clean).2

/-- An idle log on a zeroed disk with one block logged, its buffer pinned. -/
def oneLogged : Sys where
  disk := fun _ _ => 0
  cache := fun i => if i = 200 then some fun _ => 7 else none
  pins := fun i => if i = 200 then 1 else 0
  recycle := fun _ _ => true
  gets := 0
  start := 2
  block := [200]
  gStage := some []
  gStageValid := false
  runRead := true
  issued := []

theorem oneLogged_ready : Ready 1000 (fun _ _ => 7) oneLogged where
  size_lt := by decide
  clean := rfl
  length_le := by decide
  inside := by simp [oneLogged]
  outside := by simp [oneLogged, logArea, logBlocks]
  pinned := by simp [Holds, oneLogged]
  fresh := rfl

theorem oneLogged_crash_atomic : CrashTo (commit oneLogged).issued oneLogged.disk (commit oneLogged).disk ∧
    ((∀ b ∈ oneLogged.block, recovered ⟨true, true, fun _ _ => true⟩ 2 (commit oneLogged).disk b.toNat = fun _ => 0) ∨
      (∀ b ∈ oneLogged.block, recovered ⟨true, true, fun _ _ => true⟩ 2 (commit oneLogged).disk b.toNat = fun _ => 7)) := by
  have hcut := commit_runs oneLogged_ready
  exact ⟨hcut, (commit_crash_atomic oneLogged_ready hcut .refl ⟨true, true, fun _ _ => true⟩).1⟩

/-- CORRECT (durability): what a finished `commit` installed stays, whatever recoveries follow, cut or complete. -/
theorem commit_durable (h : Ready size new s) (hrec : ReflTransGen (CutRecovery s.start) (commit s).disk d) (m : Boot) :
    New s.start s.block new s.disk (recovered m s.start d) := by
  have hdone := commit_done h
  have hsame : d = (commit s).disk := by
    induction hrec with
    | refl => rfl
    | tail _ hcut ih => rw [clean_cut (ih ▸ hdone.clean) hcut, ih]
  rwa [hsame, (recover_clean m hdone.clean).2]

theorem oneLogged_durable : recovered ⟨true, true, fun _ _ => true⟩ 2 (commit oneLogged).disk 200 = fun _ => 7 :=
  (commit_durable oneLogged_ready .refl _).home 200 ⟨200, mem_singleton_self _, rfl⟩

end Orthox.Journal
