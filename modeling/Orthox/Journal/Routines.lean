import Orthox.Journal.Effect

/-! One specification per journal routine: which addresses it writes and with what.

    `slots s n` are the first `n` data blocks of the log area, `homes bs` the destinations. -/

namespace Orthox.Journal
open Schemes.Crash List Option Sys

/-- Log data blocks `0 .. n`, entry `tail` first. -/
def slots (start tail n : Nat) : Set Nat := {i | start + tail + 1 ≤ i ∧ i < start + tail + 1 + n}

/-- Destinations of the logged blocks. -/
def homes (bs : List Word) : Set Nat := {i | ∃ b ∈ bs, b.toNat = i}

theorem homes_cons (b : Word) (bs : List Word) : homes (b :: bs) = {b.toNat} ∪ homes bs := by
  ext i
  constructor
  · rintro ⟨c, hc, rfl⟩
    rcases mem_cons.mp hc with rfl | hmem
    · exact .inl rfl
    · exact .inr ⟨c, hmem, rfl⟩
  · rintro (rfl | ⟨c, hc, rfl⟩)
    · exact ⟨b, mem_cons_self, rfl⟩
    · exact ⟨c, mem_cons_of_mem _ hc, rfl⟩

theorem slots_succ (start tail n : Nat) : slots start tail (n + 1) = {start + tail + 1} ∪ slots start (tail + 1) n := by
  ext i
  simp only [slots, Set.mem_ofPred_eq, Set.mem_union, Set.mem_singleton_iff]
  omega

/-! ### Sorting -/

theorem shiftIn_perm (v : Word) : ∀ xs : List Word, (shiftIn v xs).Perm (v :: xs)
  | [] => .refl _
  | x :: xs => by
    unfold shiftIn
    split
    · exact ((shiftIn_perm v xs).cons x).trans (.swap v x xs)
    · exact .refl _

theorem foldl_shiftIn_perm : ∀ bs acc : List Word, (bs.foldl (fun acc v => shiftIn v acc) acc).Perm (bs ++ acc)
  | [], acc => .refl _
  | b :: bs, acc => by
    refine (foldl_shiftIn_perm bs (shiftIn b acc)).trans ?_
    exact ((shiftIn_perm b acc).append_left bs).trans perm_middle

/-- Sorting only reorders the log. -/
theorem sortLogBlocks_perm (bs : List Word) : (sortLogBlocks bs).Perm bs := by
  have h := foldl_shiftIn_perm bs []
  rw [append_nil] at h
  exact (reverse_perm _).trans h

/-! ### Header -/

theorem word_packHead_zero (hb : Block) (bs : List Word) : word (packHead hb bs) 0 = .ofNat 32 bs.length := by
  simp [word, packHead]

variable {bs : List Word}

/-- The header reads back as written. -/
theorem unpackHead_packHead (hb : Block) (hlen : bs.length ≤ logBlocks) : unpackHead (packHead hb bs) = bs := by
  have hn : (BitVec.ofNat 32 bs.length).toInt.toNat = bs.length := by
    simp only [logBlocks] at hlen
    rw [BitVec.toInt_eq_toNat_cond, BitVec.toNat_ofNat]
    omega
  apply ext_getElem
  · simp [unpackHead, word_packHead_zero, hn]
  · intro i h₁ h₂
    simp only [unpackHead, getElem_map, getElem_range]
    have h256 : i + 1 < 256 := by simp only [logBlocks] at hlen; omega
    simp [word, packHead, h256, h₂]

/-- A header that says `0` is left as it is by writing an empty log into it. -/
theorem packHead_nil {hb : Block} (h : word hb 0 = 0) : packHead hb [] = hb := by
  funext i
  by_cases hi : i.val = 0
  · have hb0 : hb i = 0 := by
      have : i = ⟨0, by omega⟩ := Fin.ext hi
      rw [this]; simpa [word] using h
    simp [packHead, hb0]
  · simp [packHead, hi]

/-- `write_head` is one command on the header block, built on whatever its buffer held. -/
theorem writeHead_wrote (s : Sys) : ∃ hb, Wrote [fun i => if i = s.start then some (packHead hb s.block) else none] s
    (writeHead s) ∧ (s.Coherent {s.start} → hb = s.disk s.start) := by
  refine ⟨(s.xv6bread s.start).1, ⟨?_, ?_, ?_⟩, fun h => h.read rfl⟩
  · simp [writeHead, xv6bwrite, issue, fill]
  · simp [writeHead, xv6bwrite, issue, fill, applyAll]
  · simp [writeHead, xv6bwrite, issue, fill]

theorem Coherent.writeHead {A : Set Nat} {s : Sys} (h : s.Coherent A) (hs : s.start ∉ A) : (writeHead s).Coherent A :=
  ((h.xv6bread s.start).fill hs _).xv6bwrite (fun hmem => absurd hmem hs)

/-! ### Log copy -/

theorem gather_spec {new : Nat → Block} : ∀ (cs : List Word) (s : Sys), (∀ c ∈ cs, c ∈ bs) →
    Holds new bs s → (gather cs s).1 = cs.map (fun c => new c.toNat) ∧ (gather cs s).2.disk = s.disk ∧
      (gather cs s).2.issued = s.issued ∧ (gather cs s).2.start = s.start ∧ (gather cs s).2.block = s.block ∧
      Holds new bs (gather cs s).2
  | [], s, _, hh => ⟨rfl, rfl, rfl, rfl, rfl, hh⟩
  | c :: cs, s, hsub, hh => by
    obtain ⟨hp, hc⟩ := hh c (hsub c mem_cons_self)
    obtain ⟨h1, h2, h3, h4, h5, h6⟩ :=
      gather_spec cs (s.xv6bread c.toNat).2 (fun x hx => hsub x (mem_cons_of_mem _ hx)) (hh.xv6bread _)
    simp only [gather, map_cons]
    exact ⟨by rw [h1, xv6bread_pinned hp hc], by simpa using h2, by simpa using h3, by simpa using h4, by simpa using h5, h6⟩

/-- A run command writes consecutive blocks. -/
theorem rwRun_some {b : Nat} {data : List Block} {i : Nat} {x : Block} :
    rwRun b data i = some x ↔ ∃ k, i = b + k ∧ data[k]? = some x := by
  unfold rwRun
  constructor
  · intro h
    split at h
    · exact ⟨i - b, by omega, h⟩
    · cases h
  · rintro ⟨k, rfl, hk⟩
    simpa using hk

theorem writeLogEach_spec {new v : Nat → Block} {A : Set Nat} : ∀ (cs : List Word) (tail : Nat) (s : Sys),
    (∀ c ∈ cs, c ∈ bs) → Holds new bs s → s.Coherent A → Disjoint (homes bs) (slots s.start tail cs.length) →
    (∀ k c, cs[k]? = some c → v (s.start + tail + 1 + k) = new c.toNat) →
    Does v (slots s.start tail cs.length) s (writeLogEach tail cs s) ∧ Holds new bs (writeLogEach tail cs s) ∧
      (writeLogEach tail cs s).Coherent (A ∪ slots s.start tail cs.length) ∧
      (writeLogEach tail cs s).block = s.block ∧ (writeLogEach tail cs s).gStage = s.gStage
  | [], tail, s, _, hh, hA, _, _ => by
    have hnil : slots s.start tail ([] : List Word).length = ∅ := by ext i; simp [slots]
    rw [hnil, Set.union_empty]
    exact ⟨.of_quiet rfl rfl rfl, hh, hA, rfl, rfl⟩
  | c :: cs, tail, s, hsub, hh, hA, hdis, hv => by
    -- `to` and `from` are read, `from` is pinned, and the slot is no home block
    set a := s.start + tail + 1 with ha
    set s₁ := (s.xv6bread a).2 with hs₁
    have hh₁ : Holds new bs s₁ := hh.xv6bread a
    obtain ⟨hp, hc⟩ := hh₁ c (hsub c mem_cons_self)
    have hval : (s₁.xv6bread c.toNat).1 = v a := by
      rw [xv6bread_pinned hp hc]
      have := hv 0 c (by simp)
      simpa using this.symm
    set s₂ := (s₁.xv6bread c.toNat).2 with hs₂
    set x := (s₁.xv6bread c.toNat).1 with hx
    have hslot : a ∈ slots s.start tail (c :: cs).length := by
      simp only [slots, Set.mem_ofPred_eq, length_cons]; omega
    have hhome : ∀ b ∈ bs, b.toNat ≠ a := fun b hb e =>
      (Set.disjoint_left.mp hdis) ⟨b, hb, e⟩ hslot
    set s₃ := (s₂.fill a x).xv6bwrite a x with hs₃
    have hst : s₃.start = s.start := by simp [hs₃, hs₂, hs₁, xv6bwrite, issue, fill]
    have hh₃ : Holds new bs s₃ := (hh₁.xv6bread c.toNat).fill hhome x
    have hA₃ : s₃.Coherent (A ∪ {a}) := by
      intro i hi w hw
      have hA₂ : s₂.Coherent A := (hA.xv6bread a).xv6bread c.toNat
      simp only [hs₃, xv6bwrite, issue, put_single, fill] at hw ⊢
      by_cases hia : i = a
      · subst hia; simpa using hw.symm
      · rw [Function.update_of_ne hia] at hw ⊢
        exact hA₂ i (hi.resolve_right hia) w hw
    have hdis' : Disjoint (homes bs) (slots s₃.start (tail + 1) cs.length) := by
      refine hdis.mono_right ?_
      rw [hst, length_cons, slots_succ]
      exact Set.subset_union_right
    obtain ⟨d1, d2, d3, d4, d5⟩ := writeLogEach_spec cs (tail + 1) s₃ (fun y hy => hsub y (mem_cons_of_mem _ hy))
      hh₃ hA₃ hdis' (fun k y hy => by
        have := hv (k + 1) y (by simpa using hy)
        rw [← this]; congr 1; omega)
    have hfun : writeLogEach tail (c :: cs) s = writeLogEach (tail + 1) cs s₃ := by
      simp only [writeLogEach, hs₃, hx, hs₂, hs₁, fill, xv6bread_start, ha]
    have h₃ : Does v {a} s s₃ := by
      have := does_xv6bwrite (s := s₂.fill a x) hval
      exact this.of_eq s (by simp [hs₂, hs₁, fill]) (by simp [hs₂, hs₁, fill]) (by simp [hs₂, hs₁, fill])
    rw [hfun]
    refine ⟨?_, d2, ?_, ?_, ?_⟩
    · rw [length_cons, slots_succ]
      rw [hst] at d1
      exact h₃.trans d1
    · rw [length_cons, slots_succ, ← ha, ← Set.union_assoc, ← hst]
      exact d3
    · rw [d4]; simp [hs₃, hs₂, hs₁, xv6bwrite, issue, fill]
    · rw [d5]; simp [hs₃, hs₂, hs₁, xv6bwrite, issue, fill]

/-- `write_log` puts the new contents in the log slots; afterwards either the relay buffer holds
    them too or the slot buffers agree with the disk. -/
theorem writeLog_spec {new v : Nat → Block} {s : Sys} (hh : Holds new s.block s)
    (hdis : Disjoint (homes s.block) (slots s.start 0 s.block.length)) (hne : s.block ≠ [])
    (hv : ∀ k b, s.block[k]? = some b → v (s.start + 1 + k) = new b.toNat) :
    Does v (slots s.start 0 s.block.length) s (writeLog s) ∧ Holds new s.block (writeLog s) ∧ (writeLog s).block = s.block ∧
      (((writeLog s).gStage = some (s.block.map fun b => new b.toNat) ∧ (writeLog s).gStageValid) ∨
        ((writeLog s).gStage = none ∧ (writeLog s).Coherent (slots s.start 0 s.block.length))) := by
  by_cases hst : s.gStage.isSome
  · obtain ⟨g1, g2, g3, g4, g5, g6⟩ := gather_spec s.block s (fun c hc => hc) hh
    have hfun : writeLog s = { (gather s.block s).2.issue (rwRun (s.start + 1) (gather s.block s).1) with
        gStage := some (gather s.block s).1, gStageValid := true } := by simp [writeLog, hst, hne]
    have hdo : Does v (slots s.start 0 s.block.length) s
        ((gather s.block s).2.issue (rwRun (s.start + 1) (gather s.block s).1)) := by
      refine (does_issue (fun i x hx => ?_) (fun i => ?_)).of_eq s g3 g2 g4
      · obtain ⟨k, rfl, hk⟩ := rwRun_some.mp hx
        rw [g1, getElem?_map, map_eq_some_iff] at hk
        obtain ⟨b, hb, rfl⟩ := hk
        exact (hv k b hb).symm
      · simp only [rwRun_some, g1, getElem?_map, map_eq_some_iff, slots, Set.mem_ofPred_eq]
        constructor
        · rintro ⟨x, k, hk, b, hb, -⟩
          have := (List.getElem?_eq_some_iff.mp hb).1
          omega
        · rintro ⟨h1, h2⟩
          have hk : i - (s.start + 1) < s.block.length := by omega
          exact ⟨_, i - (s.start + 1), by omega, _, getElem?_eq_getElem hk, rfl⟩
    rw [hfun]
    exact ⟨hdo.mem_only _ rfl rfl rfl, g6, g5, .inl ⟨by rw [g1], rfl⟩⟩
  · have hnone : s.gStage = none := by simpa using hst
    have hfun : writeLog s = writeLogEach 0 s.block s := by simp [writeLog, hnone]
    obtain ⟨d1, d2, d3, d4, d5⟩ := writeLogEach_spec s.block 0 s (fun c hc => hc) hh
      (fun i hi => absurd hi (Set.notMem_empty i)) hdis hv
    rw [Set.empty_union] at d3
    rw [hfun]
    exact ⟨d1, d2, d4, .inr ⟨by rw [d5, hnone], d3⟩⟩

/-! ### Installation -/

/-- Every block that joins the run sits right after the one before it, as `int`s. -/
theorem runLen_spec (base : Int) : ∀ (bs : List Word) (run : Nat), run ≤ runLen base bs run ∧
    runLen base bs run ≤ run + bs.length ∧ ∀ k, run + k < runLen base bs run → ∃ b, bs[k]? = some b ∧ b.toInt = base + run + k
  | [], run => ⟨le_refl _, by simp [runLen], fun k hk => by simp only [runLen] at hk; omega⟩
  | b :: bs, run => by
    unfold runLen
    split
    · rename_i hb
      obtain ⟨h1, h2, h3⟩ := runLen_spec base bs (run + 1)
      refine ⟨by omega, by simp only [length_cons]; omega, fun k hk => ?_⟩
      match k with
      | 0 => exact ⟨b, by simp, by simpa using hb⟩
      | k + 1 =>
        obtain ⟨c, hc, hi⟩ := h3 k (by omega)
        exact ⟨c, by simpa using hc, by omega⟩
    · exact ⟨le_refl _, by omega, fun k hk => by omega⟩

/-- Consecutive `int`s are consecutive block numbers as long as none is `0xffffffff`. -/
theorem toNat_of_toInt_succ {b c : Word} {k : Nat} (h : c.toInt = b.toInt + k)
    (hmid : ∀ j < k, ∃ x : Word, x.toInt = b.toInt + j ∧ x.toNat ≠ 2 ^ 32 - 1) : c.toNat = b.toNat + k := by
  have hb := b.toInt_eq_toNat_cond
  have hc := c.toInt_eq_toNat_cond
  by_cases hneg : b.toInt < 0 ∧ 0 ≤ c.toInt
  · -- the run would cross from -1 to 0, that is through block `0xffffffff`
    obtain ⟨x, hx, hne⟩ := hmid (-1 - b.toInt).toNat (by omega)
    have hxc := x.toInt_eq_toNat_cond
    exact absurd (by omega) hne
  · split at hb <;> split at hc <;> omega

theorem installBufs_quiet (recovering : Bool) : ∀ (bs : List Word) (vs : List Block) (s : Sys),
    (installBufs recovering bs vs s).disk = s.disk ∧ (installBufs recovering bs vs s).issued = s.issued ∧
      (installBufs recovering bs vs s).start = s.start
  | [], _, _ => ⟨rfl, rfl, rfl⟩
  | _ :: _, [], _ => ⟨rfl, rfl, rfl⟩
  | b :: bs, v :: vs, s => by
    obtain ⟨h1, h2, h3⟩ := installBufs_quiet recovering bs vs (installBuf recovering b.toNat v s)
    have hq : (installBuf recovering b.toNat v s).disk = s.disk ∧ (installBuf recovering b.toNat v s).issued = s.issued ∧
        (installBuf recovering b.toNat v s).start = s.start := by
      cases recovering <;> simp [installBuf, fill, xv6bunpin]
    exact ⟨h1.trans hq.1, h2.trans hq.2.1, h3.trans hq.2.2⟩

/-- The first run of a list, as block numbers. -/
theorem run_toNat {b : Word} (hmax : ∀ x ∈ b :: bs, x.toNat ≠ 2 ^ 32 - 1) {k : Nat}
    (hk : k < runLen b.toInt bs 1) : ∃ x, (b :: bs)[k]? = some x ∧ x.toNat = b.toNat + k := by
  have hint : ∀ j < runLen b.toInt bs 1, ∃ x, (b :: bs)[j]? = some x ∧ x.toInt = b.toInt + j := by
    intro j hj
    match j with
    | 0 => exact ⟨b, rfl, by simp⟩
    | j + 1 =>
      obtain ⟨x, hx, hi⟩ := (runLen_spec b.toInt bs 1).2.2 j (by omega)
      exact ⟨x, by simpa using hx, by omega⟩
  obtain ⟨x, hx, hi⟩ := hint k hk
  refine ⟨x, hx, toNat_of_toInt_succ hi fun j hj => ?_⟩
  obtain ⟨y, hy, hyi⟩ := hint j (by omega)
  exact ⟨y, hyi, hmax y (mem_of_getElem? hy)⟩

theorem homes_take_drop (bs : List Word) (n : Nat) : homes (bs.take n) ∪ homes (bs.drop n) = homes bs := by
  ext i
  constructor
  · rintro (⟨b, hb, rfl⟩ | ⟨b, hb, rfl⟩)
    · exact ⟨b, mem_of_mem_take hb, rfl⟩
    · exact ⟨b, mem_of_mem_drop hb, rfl⟩
  · rintro ⟨b, hb, rfl⟩
    rw [← take_append_drop n bs] at hb
    rcases mem_append.mp hb with h | h
    · exact .inl ⟨b, h, rfl⟩
    · exact .inr ⟨b, h, rfl⟩

/-- The staged loop writes exactly the home blocks, with the staged contents. -/
theorem installRuns_spec {v : Nat → Block} (recovering : Bool) : ∀ (fuel : Nat) (bs : List Word) (s : Sys),
    bs.length ≤ fuel → (∀ b ∈ bs, b.toNat ≠ 2 ^ 32 - 1) →
    Does v (homes bs) s (installRuns recovering fuel bs (bs.map fun b => v b.toNat) s)
  | fuel, [], s, _, _ => by
    have : homes ([]) = ∅ := by ext i; simp [homes]
    rw [this, installRuns]
    exact .of_quiet rfl rfl rfl
  | 0, b :: bs, s, hf, _ => by simp at hf
  | fuel + 1, b :: bs, s, hf, hmax => by
    set run := runLen b.toInt bs 1 with hrun
    obtain ⟨hr1, -, -⟩ := runLen_spec b.toInt bs 1
    set data := (b :: bs).map (fun c => v c.toNat) with hdata
    set s₁ := installBufs recovering ((b :: bs).take run) (data.take run) s with hs₁
    obtain ⟨q1, q2, q3⟩ := installBufs_quiet recovering ((b :: bs).take run) (data.take run) s
    -- the command of this run covers the homes of the entries it takes
    have hcmd : Does v (homes ((b :: bs).take run)) s₁ (s₁.issue (rwRun b.toNat (data.take run))) := by
      refine does_issue (fun i x hx => ?_) (fun i => ?_)
      · obtain ⟨k, rfl, hk⟩ := rwRun_some.mp hx
        rw [getElem?_take] at hk
        split at hk
        · rename_i hlt
          obtain ⟨y, hy, hyn⟩ := run_toNat hmax hlt
          rw [getElem?_map, hy] at hk
          rw [← hyn]
          simpa using hk.symm
        · cases hk
      · constructor
        · rintro ⟨x, hx⟩
          obtain ⟨k, rfl, hk⟩ := rwRun_some.mp hx
          rw [getElem?_take] at hk
          split at hk
          · rename_i hlt
            obtain ⟨y, hy, hyn⟩ := run_toNat hmax hlt
            have hmem : ((b :: bs).take run)[k]? = some y := by rw [getElem?_take, if_pos hlt, hy]
            exact ⟨y, mem_of_getElem? hmem, hyn⟩
          · cases hk
        · rintro ⟨y, hy, rfl⟩
          obtain ⟨k, hk⟩ := mem_iff_getElem?.mp hy
          rw [getElem?_take] at hk
          split at hk
          · rename_i hlt
            obtain ⟨z, hz, hzn⟩ := run_toNat hmax hlt
            have hyz : y = z := some.inj (hk.symm.trans hz)
            refine ⟨v y.toNat, rwRun_some.mpr ⟨k, by rw [hyz, hzn], ?_⟩⟩
            rw [getElem?_take, if_pos hlt, getElem?_map, hk]
            rfl
          · cases hk
    have hrec := installRuns_spec (v := v) recovering fuel ((b :: bs).drop run) (s₁.issue (rwRun b.toNat (data.take run)))
      (by simp only [length_drop] at hf ⊢; omega)
      (fun c hc => hmax c (mem_of_mem_drop hc))
    have hfun : installRuns recovering (fuel + 1) (b :: bs) data s =
        installRuns recovering fuel ((b :: bs).drop run) (((b :: bs).drop run).map fun c => v c.toNat)
          (s₁.issue (rwRun b.toNat (data.take run))) := by
      rw [map_drop]
      rfl
    rw [hfun, ← homes_take_drop (b :: bs) run]
    exact (hcmd.of_eq s q2 q1 q3).trans hrec

/-- The unstaged loop reads each log slot back and writes it home. -/
theorem installEach_spec {v : Nat → Block} {A : Set Nat} (recovering : Bool) : ∀ (bs : List Word) (tail : Nat) (s : Sys),
    s.Coherent A → slots s.start tail bs.length ⊆ A → Disjoint (homes bs) A →
    (∀ k b, bs[k]? = some b → s.disk (s.start + tail + 1 + k) = v b.toNat) →
    Does v (homes bs) s (installEach recovering tail bs s)
  | [], tail, s, _, _, _, _ => by
    have : homes ([]) = ∅ := by ext i; simp [homes]
    rw [this]
    exact .of_quiet rfl rfl rfl
  | b :: bs, tail, s, hco, hA, hdis, hv => by
    set a := s.start + tail + 1 with ha
    have haA : a ∈ A := hA (by simp only [slots, Set.mem_ofPred_eq, length_cons]; omega)
    have hbA : b.toNat ∉ A := fun h => (Set.disjoint_left.mp hdis) ⟨b, mem_cons_self, rfl⟩ h
    set s₁ := (s.xv6bread b.toNat).2 with hs₁
    have hco₁ : s₁.Coherent A := hco.xv6bread _
    set x := (s₁.xv6bread a).1 with hx
    set s₂ := (s₁.xv6bread a).2 with hs₂
    have hval : x = v b.toNat := by
      rw [hx, hco₁.read haA, hs₁]
      simpa using hv 0 b rfl
    set s₃ := (s₂.fill b.toNat x).xv6bwrite b.toNat x with hs₃
    set s₄ := (if recovering then s₃ else s₃.xv6bunpin b.toNat) with hs₄
    have hco₃ : s₃.Coherent A := (((hco₁.xv6bread a).fill hbA x).xv6bwrite (fun h => absurd h hbA))
    have hst : s₄.start = s.start ∧ s₄.issued = s₃.issued ∧ s₄.disk = s₃.disk := by
      cases recovering <;> simp [hs₄, hs₃, hs₂, hs₁, xv6bwrite, issue, fill, xv6bunpin]
    have hco₄ : s₄.Coherent A := by
      cases recovering
      · exact hco₃.xv6bunpin b.toNat
      · exact hco₃
    have h₁ : Does v {b.toNat} s s₄ := by
      have := does_xv6bwrite (s := s₂.fill b.toNat x) hval
      refine (this.of_eq s (by simp [hs₂, hs₁, fill]) (by simp [hs₂, hs₁, fill])
        (by simp [hs₂, hs₁, fill])).mem_only s₄ hst.2.1 hst.2.2 ?_
      rw [hst.1]; simp [hs₂, hs₁, xv6bwrite, issue, fill]
    have hsub : slots s.start (tail + 1) bs.length ⊆ A := by
      refine subset_trans ?_ hA
      rw [length_cons, slots_succ]
      exact Set.subset_union_right
    have hdis' : Disjoint (homes bs) A := hdis.mono_left (by rw [homes_cons]; exact Set.subset_union_right)
    have hrec := installEach_spec (v := v) recovering bs (tail + 1) s₄ hco₄ (by rw [hst.1]; exact hsub) hdis' (by
      intro k c hc
      have hnot : s₄.start + (tail + 1) + 1 + k ∉ ({b.toNat} : Set Nat) := by
        intro h
        apply hbA
        rw [← Set.mem_singleton_iff.mp h]
        refine hsub ?_
        have := (List.getElem?_eq_some_iff.mp hc).1
        simp only [slots, Set.mem_ofPred_eq]; omega
      rw [h₁.frame hnot]
      have := hv (k + 1) c (by simpa using hc)
      rw [← this]; congr 1; omega)
    have hfun : installEach recovering tail (b :: bs) s = installEach recovering (tail + 1) bs s₄ := by
      simp only [installEach, hs₄, hs₃, hx, hs₂, hs₁, xv6bread_start, ha]
    rw [hfun, homes_cons]
    exact h₁.trans hrec

/-- `install_trans`: given the log contents on disk, and either a relay buffer that holds them or
    slot buffers that agree with the disk, exactly the home blocks are written. -/
theorem installTrans_spec {v : Nat → Block} (recovering : Bool) {s : Sys} (hmax : ∀ b ∈ s.block, b.toNat ≠ 2 ^ 32 - 1)
    (hdis : Disjoint (homes s.block) (slots s.start 0 s.block.length))
    (hlog : ∀ k b, s.block[k]? = some b → s.disk (s.start + 1 + k) = v b.toNat)
    (hsrc : (recovering = false ∧ s.gStageValid ∧ s.gStage = some (s.block.map fun b => v b.toNat)) ∨
      (s.Coherent (slots s.start 0 s.block.length) ∧ (recovering ∨ s.gStage = none))) :
    Does v (homes s.block) s (installTrans recovering s) := by
  unfold installTrans
  cases hst : staged recovering s with
  | none =>
    have heach : Does v (homes s.block) s (installEach recovering 0 s.block s) := by
      rcases hsrc with ⟨h1, h2, h3⟩ | ⟨hco, -⟩
      · -- the relay buffer is there, so the log must be empty
        have hnil : s.block = [] := by
          by_contra hne
          simp [staged, h1, h2, h3, hne] at hst
        have hhomes : homes ([]) = ∅ := by ext i; simp [homes]
        rw [hnil, hhomes]
        exact .of_quiet rfl rfl rfl
      · exact installEach_spec recovering s.block 0 s hco subset_rfl hdis hlog
    exact heach.mem_only { installEach recovering 0 s.block s with gStageValid := false } rfl rfl rfl
  | some data =>
    have hdata : data = s.block.map fun b => v b.toNat := by
      unfold staged at hst
      split at hst
      · cases hst
      rename_i d hd
      split at hst
      · cases hst
      split at hst
      · rename_i hval
        rcases hsrc with ⟨-, -, h3⟩ | ⟨-, h | h⟩
        · rw [hd] at h3
          exact (some.inj hst).symm.trans (some.inj h3)
        · rw [h] at hval; exact absurd hval.1 (by decide)
        · rw [hd] at h; cases h
      split at hst
      · rw [← some.inj hst]
        apply ext_getElem
        · simp
        · intro k h₁ h₂
          simp only [getElem_map, getElem_range]
          simp only [length_map, length_range] at h₁
          exact hlog k _ (getElem?_eq_getElem h₁)
      · cases hst
    have hruns := installRuns_spec (v := v) recovering s.block.length s.block { s with gStage := some data } le_rfl hmax
    rw [← hdata] at hruns
    exact (hruns.of_eq s rfl rfl rfl).mem_only
      { installRuns recovering s.block.length s.block data { s with gStage := some data } with
        gStageValid := false } rfl rfl rfl

end Orthox.Journal
