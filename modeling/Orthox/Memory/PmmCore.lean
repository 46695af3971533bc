import Orthox.Memory.Pmm

/-! The page allocator with its counter `g_used` (`kernel/pmm_core.c`), from `pmm_core_setup` on. The search of
    `pmm_claim_locked` misses no run, wherever the hint is. The counter is kept by each function that sets or clears
    a bit, and what callers hold is a ledger of its own: the stored count stops at 65535 while the ledger goes on. -/

namespace Orthox.Memory
open List Finset

namespace Pmm

/-! ### No run is missed -/

variable {s n page k : Nat}

/-- A run of free pages does not start at frame 0, if that page is in use. -/
theorem Run.returned {m : Pmm} (h : m.Run s n) (hn : 0 < n) (hnull : m.base = 0 → m.bm 0) : m.base + s ≠ 0 := by
  intro hz
  obtain ⟨hbase, rfl⟩ := Nat.add_eq_zero_iff.1 hz
  exact Bool.false_ne_true ((h.2 0 le_rfl (by omega)).symm.trans (hnull hbase))

/-- Where there is a run, one is taken. -/
theorem Run.claimed {m : Pmm} (h : m.Run s n) (hn : 0 < n) : ∃ s' next, m.Run s' n ∧
    m.claimLocked n = (m.base + s', { m with bm := mark m.bm true s' n, next := next }) := by
  rcases m.claimLocked_cases n with ⟨_, -, hnone⟩ | ⟨s', next, -, hrun, heq⟩
  · exact absurd h (hnone s hn)
  · exact ⟨s', next, hrun, heq⟩

/-- CORRECT: a claim fails only if there is no run of `n` free pages; one that succeeds takes a run of the managed range,
    and no other bit changes. -/
theorem claimLocked_complete (m : Pmm) {n : Nat} (hn : 1 ≤ n) (hnull : m.base = 0 → m.bm 0 = true) :
    ((m.claimLocked n).1 = 0 → (¬ ∃ s, m.Run s n) ∧ (m.claimLocked n).2.bm = m.bm) ∧
      ((m.claimLocked n).1 ≠ 0 → ∃ s, (m.claimLocked n).1 = m.base + s ∧ m.Run s n ∧
        ∀ i, (m.claimLocked n).2.bm i = if s ≤ i ∧ i < s + n then true else m.bm i) := by
  rcases m.claimLocked_cases n with ⟨next, heq, hnone⟩ | ⟨s, next, -, hrun, heq⟩
  · rw [heq]
    exact ⟨fun _ => ⟨fun ⟨s, hrun⟩ => hnone s hn hrun, rfl⟩, absurd rfl⟩
  · rw [heq]
    exact ⟨fun hfail => absurd hfail (hrun.returned hn hnull), fun _ => ⟨s, rfl, hrun, fun _ => rfl⟩⟩

/-- Four pages of which the second is used; the run of two straddles the hint. -/
def straddled : Pmm := ⟨256, 4, fun i => i == 1, fun _ => 0, 3⟩

/-- The run behind the used page is found from both sides of the hint. -/
theorem claimLocked_complete_straddled : (straddled.claimLocked 2).1 = 258 ∧
    ∃ s, (straddled.claimLocked 2).1 = 256 + s ∧ straddled.Run s 2 ∧
      ∀ i, (straddled.claimLocked 2).2.bm i = if s ≤ i ∧ i < s + 2 then true else straddled.bm i :=
  ⟨by decide, (claimLocked_complete straddled (by decide) (by decide)).2 (by decide)⟩

end Pmm

open Pmm

/-! ### The counter -/

/-- The allocator and `g_used`. -/
structure Core extends Pmm where
  used : Nat

namespace Core

/-- `pmm_core_setup`: every page is in use. -/
def setup (base pages : Nat) : Core where
  base := base
  pages := pages
  bm := fun _ => true
  rc := fun _ => 0
  next := 0
  used := pages

/-- One turn of `pmm_core_mark_free`. -/
def freePage (c : Core) (a : Nat) : Core :=
  match c.pageOf a with
  | none => c
  | some page => if c.bm page then { c with bm := mark c.bm false page 1, used := c.used - 1 } else c

/-- One turn of `pmm_core_mark_used`. -/
def usePage (c : Core) (a : Nat) : Core :=
  match c.pageOf a with
  | none => c
  | some page => if c.bm page then c else { c with bm := mark c.bm true page 1, used := c.used + 1 }

/-- `pmm_core_mark_free`: the pages inside of `bytes` bytes from `pa` on. -/
def markFree (c : Core) (pa bytes : Nat) : Core :=
  let s := (pa + 4095) % 2 ^ 64 / 4096
  let e := (pa + bytes) % 2 ^ 64 / 4096
  (range' s (e - s)).foldl freePage c

/-- `pmm_core_mark_used`: the pages touched by `bytes` bytes from `pa` on. -/
def markUsed (c : Core) (pa bytes : Nat) : Core :=
  let s := pa / 4096
  let e := (pa + bytes + 4095) % 2 ^ 64 / 4096
  (range' s (e - s)).foldl usePage c

/-- `pmm_core_reserve_page` -/
def reservePage (c : Core) (pa : Nat) : Bool × Core :=
  match c.pageOf pa with
  | none => (false, c)
  | some page =>
    if c.bm page then (false, c)
    else (true, { c with
      bm := mark c.bm true page 1
      used := c.used + 1
      rc := fun i => if i = page then 1 else c.rc i })

/-- `pmm_claim_locked` -/
def claimLocked (c : Core) (pages : Nat) : Nat × Core :=
  if pages = 0 ∨ c.pages = 0 then (0, c)
  else
    let c := { c with next := if c.next ≥ c.pages then 0 else c.next }
    if pages ≥ bigPages then
      let start := c.scanLocked 0 c.pages pages
      if start = 0 then (0, c)
      else (c.base + (start - 1), { c with bm := mark c.bm true (start - 1) pages, used := c.used + pages })
    else
      let ahead := c.scanLocked c.next c.pages pages
      let start := if ahead = 0 then c.scanLocked 0 (min (c.next + pages - 1) c.pages) pages else ahead
      if start = 0 then (0, c)
      else (c.base + (start - 1), { c with
        bm := mark c.bm true (start - 1) pages
        used := c.used + pages
        next := start - 1 + pages })

/-- `pmm_release_locked` -/
def releaseLocked (c : Core) (pa pages : Nat) : Core :=
  match c.pageOf pa with
  | none => c
  | some start => { c with
      next := if start < c.next then start else c.next
      bm := mark c.bm false start (min pages (c.pages - start))
      used := c.used - (range' start (min pages (c.pages - start))).countP c.bm }

/-- `pmm_alloc` -/
def alloc (c : Core) (pages : Nat) : Nat × Core :=
  let r := c.claimLocked pages
  if r.1 = 0 then r
  else (r.1, { r.2 with rc := fun i => if r.1 - c.base ≤ i ∧ i < r.1 - c.base + pages then 1 else r.2.rc i })

/-- One turn of the loop of `pmm_free`. -/
def freeOne (c : Core) (pa : Nat) : Core :=
  match c.pageOf pa with
  | none => c
  | some page =>
    if c.rc page > 0 then
      let c' := { c with rc := fun i => if i = page then c.rc page - 1 else c.rc i }
      if c.rc page - 1 = 0 then c'.releaseLocked pa 1 else c'
    else c

/-- `pmm_free` -/
def free (c : Core) (addr pages : Nat) : Core := (List.range pages).foldl (fun c i => c.freeOne (addr + i)) c

/-- `pmm_incref` -/
def incref (c : Core) (addr : Nat) : Core := { c with toPmm := c.toPmm.incref addr }

/-- `pmm_get_free_pages` -/
def getFreePages (c : Core) : Nat := c.pages - c.used

/-! ### The allocator under it -/

variable {bm : Nat → Bool} {pages : Nat} {c : Core}

theorem claimLocked_toPmm (c : Core) (n : Nat) : (c.claimLocked n).1 = (c.toPmm.claimLocked n).1 ∧
    (c.claimLocked n).2.toPmm = (c.toPmm.claimLocked n).2 := by
  simp only [claimLocked, Pmm.claimLocked]
  split_ifs <;> exact ⟨rfl, rfl⟩

theorem alloc_fst (c : Core) (n : Nat) : (c.alloc n).1 = (c.claimLocked n).1 := by
  rw [alloc]
  split_ifs <;> rfl

theorem alloc_toPmm (c : Core) (n : Nat) : (c.alloc n).1 = (c.toPmm.alloc n).1 ∧ (c.alloc n).2.toPmm = (c.toPmm.alloc n).2 := by
  obtain ⟨haddr, hstate⟩ := c.claimLocked_toPmm n
  simp only [alloc, Pmm.alloc, haddr]
  split_ifs
  · exact ⟨haddr, hstate⟩
  · exact ⟨rfl, by rw [← hstate]⟩

theorem releaseLocked_toPmm (c : Core) (pa n : Nat) : (c.releaseLocked pa n).toPmm = c.toPmm.releaseLocked pa n := by
  rw [releaseLocked, Pmm.releaseLocked]
  rcases c.pageOf pa with _ | start
  · rfl
  · rfl

theorem freeOne_toPmm (c : Core) (pa : Nat) : (c.freeOne pa).toPmm = c.toPmm.freeOne pa := by
  rw [freeOne, Pmm.freeOne]
  rcases c.pageOf pa with _ | page
  · rfl
  dsimp only
  split_ifs
  · exact releaseLocked_toPmm _ _ _
  · rfl
  · rfl

theorem free_toPmm (c : Core) (pa n : Nat) : (c.free pa n).toPmm = c.toPmm.free pa n := by
  rw [free, Pmm.free]
  induction List.range n generalizing c with
  | nil => rfl
  | cons i l ih =>
    rw [foldl_cons, foldl_cons, ih, freeOne_toPmm]

/-! ### Set bits -/

/-- The pages whose bit is set. -/
def setBits (bm : Nat → Bool) (pages : Nat) : Finset Nat := (Finset.range pages).filter fun i => bm i = true

theorem mem_setBits {i : Nat} : i ∈ setBits bm pages ↔ i < pages ∧ bm i := by
  rw [setBits, Finset.mem_filter, Finset.mem_range]

theorem card_mark (hfit : s + n ≤ pages) (hfree : ∀ j, s ≤ j → j < s + n → bm j = false) :
    (setBits (mark bm true s n) pages).card = (setBits bm pages).card + n := by
  have hunion : setBits (mark bm true s n) pages = setBits bm pages ∪ Finset.Ico s (s + n) := by
    ext i
    rw [mem_union, mem_setBits, mem_setBits, mem_Ico, mark]
    split_ifs with hin
    · exact ⟨fun _ => .inr hin, fun _ => ⟨by omega, rfl⟩⟩
    · exact ⟨.inl, fun h => h.resolve_right hin⟩
  have hdisjoint : Disjoint (setBits bm pages) (Finset.Ico s (s + n)) := by
    refine disjoint_left.2 fun i hset hin => ?_
    obtain ⟨hlow, hhigh⟩ := mem_Ico.1 hin
    exact Bool.false_ne_true ((hfree i hlow hhigh).symm.trans (mem_setBits.1 hset).2)
  rw [hunion, card_union_of_disjoint hdisjoint, Nat.card_Ico, Nat.add_sub_cancel_left]

/-- A set bit that is cleared is one less. -/
theorem card_clear (hpage : page < pages) (hset : bm page) :
    (setBits (mark bm false page 1) pages).card + 1 = (setBits bm pages).card := by
  have hback : mark (mark bm false page 1) true page 1 = bm := by
    funext i
    simp only [mark]
    split_ifs with hin
    · rw [show i = page by omega, hset]
    · rfl
  have hclear : ∀ j, page ≤ j → j < page + 1 → mark bm false page 1 j = false := fun j hj hlt => if_pos ⟨hj, hlt⟩
  rw [← card_mark (by omega) hclear, hback]

/-- The counter is the number of set bits. -/
def Counted (c : Core) : Prop := c.used = (setBits c.bm c.pages).card

theorem Counted.free (h : c.Counted) : c.getFreePages = c.freeCount := by
  have hsplit : (setBits c.bm c.pages).card + c.freeCount = c.pages := by
    rw [setBits, freeCount]
    simpa only [Bool.not_eq_true, card_range] using card_filter_add_card_filter_not (s := range c.pages) fun i => c.bm i
  rw [getFreePages, h]
  omega

theorem pageOf_lt {m : Pmm} {a : Nat} (h : m.pageOf a = some page) : page < m.pages ∧ a = m.base + page := by
  rw [pageOf_eq] at h
  split_ifs at h with hin
  obtain rfl := Option.some.inj h
  exact ⟨hin.2, by omega⟩

theorem freePage_counted (h : c.Counted) (a : Nat) : (c.freePage a).Counted := by
  rw [freePage]
  rcases hp : c.pageOf a with _ | page
  · exact h
  dsimp only
  split_ifs with hset
  · have hcard := card_clear (pageOf_lt hp).1 hset
    rw [Counted] at h ⊢
    dsimp only
    omega
  · exact h

theorem usePage_counted (h : c.Counted) (a : Nat) : (c.usePage a).Counted := by
  rw [usePage]
  rcases hp : c.pageOf a with _ | page
  · exact h
  have hlt := (pageOf_lt hp).1
  dsimp only
  split_ifs with hset
  · exact h
  rw [Counted] at h ⊢
  dsimp only
  rw [card_mark (by omega) fun j hj hlt => by rw [show j = page by omega]; exact Bool.eq_false_of_not_eq_true hset, h]

/-- The claim takes a run of free pages, and counts it, or takes nothing. -/
theorem claimLocked_cases (c : Core) (n : Nat) : (∃ next, c.claimLocked n = (0, { c with next := next })) ∨
    ∃ s next, 0 < n ∧ c.Run s n ∧ c.claimLocked n =
      (c.base + s, { c with bm := mark c.bm true s n, used := c.used + n, next := next }) := by
  simp only [claimLocked]
  generalize (if c.next ≥ c.pages then 0 else c.next) = next
  split_ifs with hnone hbig hfail hahead hwrap
  · exact .inl ⟨_, rfl⟩
  · exact .inl ⟨_, rfl⟩
  · obtain ⟨s, hs, hrun⟩ := scanLocked_sound (by omega) hfail le_rfl
    rw [hs]
    exact .inr ⟨s, _, by omega, hrun, rfl⟩
  · exact .inl ⟨_, rfl⟩
  · obtain ⟨s, hs, hrun⟩ := scanLocked_sound (by omega) hwrap (min_le_right _ _)
    rw [hs]
    exact .inr ⟨s, _, by omega, hrun, rfl⟩
  obtain ⟨s, hs, hrun⟩ := scanLocked_sound (by omega) hahead le_rfl
  rw [hs]
  exact .inr ⟨s, _, by omega, hrun, rfl⟩

theorem alloc_counted (h : c.Counted) (n : Nat) : (c.alloc n).2.Counted := by
  have hclaim : (c.claimLocked n).2.Counted := by
    rcases c.claimLocked_cases n with ⟨next, heq⟩ | ⟨s, next, -, hrun, heq⟩
    · rw [heq]
      exact h
    rw [heq, Counted]
    rw [card_mark hrun.1 hrun.2, h]
  rw [alloc]
  split_ifs
  · exact hclaim
  · exact hclaim

/-- Pages are only taken. -/
theorem alloc_left (c : Core) (n : Nat) : (c.alloc n).2.getFreePages ≤ c.getFreePages := by
  have hclaim : (c.claimLocked n).2.getFreePages ≤ c.getFreePages := by
    rcases c.claimLocked_cases n with ⟨next, heq⟩ | ⟨s, next, -, -, heq⟩
    · rw [heq]
      exact le_rfl
    · rw [heq]
      exact Nat.sub_le_sub_left (Nat.le_add_right _ _) _
  rw [alloc]
  split_ifs
  · exact hclaim
  · exact hclaim

section
variable (h : c.Counted)
include h

theorem releaseLocked_counted (pa : Nat) : (c.releaseLocked pa 1).Counted := by
  rw [releaseLocked]
  rcases hp : c.pageOf pa with _ | page
  · exact h
  have hlt := (pageOf_lt hp).1
  have hone : min 1 (c.pages - page) = 1 := by omega
  rw [Counted] at h ⊢
  dsimp only
  rw [hone, range'_one, countP_singleton]
  rcases hset : c.bm page with - | -
  · have hsame : mark c.bm false page 1 = c.bm := by
      funext i
      simp only [mark]
      split_ifs with hin
      · rw [show i = page by omega, hset]
      · rfl
    rw [hsame, h]
    rfl
  · have hcard := card_clear hlt hset
    rw [if_pos rfl]
    omega

theorem freeOne_counted (pa : Nat) : (c.freeOne pa).Counted := by
  rw [freeOne]
  rcases c.pageOf pa with _ | page
  · exact h
  dsimp only
  split_ifs
  · refine releaseLocked_counted ?_ pa
    exact h
  · exact h
  · exact h

theorem incref_counted (pa : Nat) : (c.incref pa).Counted := by
  have hsame : (c.toPmm.incref pa).bm = c.bm ∧ (c.toPmm.incref pa).pages = c.pages := by
    rw [Pmm.incref]
    rcases c.pageOf pa with _ | page
    · exact ⟨rfl, rfl⟩
    dsimp only
    split_ifs
    · exact ⟨rfl, rfl⟩
    · exact ⟨rfl, rfl⟩
  rw [Counted, incref]
  rw [hsame.1, hsame.2, h]

end

/-! ### What is left -/

/-- The allocator after `n` pages were asked for one by one. -/
def allocs (c : Core) : Nat → Core
  | 0 => c
  | n + 1 => ((c.allocs n).alloc 1).2

/-- What holds of the allocator whatever was called: its runs are free and not counted, and its counters are right. -/
structure Safe (c : Core) : Prop where
  handed : ∀ n, (c.alloc n).1 ≠ 0 → ∀ pa, Within (c.alloc n).1 n pa → c.Free pa ∧ c.getRef pa = 0
  used : c.used = (setBits c.bm c.pages).card
  left : ∀ i, ((c.allocs i).alloc 1).1 ≠ 0 ↔ i < c.getFreePages

/-- A page asked for is there if one is left, and then one less is. -/
theorem alloc_one (hok : c.Ok) (h : c.Counted) :
    ((c.alloc 1).1 ≠ 0 ↔ 0 < c.getFreePages) ∧ (c.alloc 1).2.getFreePages = c.getFreePages - 1 := by
  obtain ⟨haddr, hstate⟩ := c.alloc_toPmm 1
  obtain ⟨hnone, hone⟩ := alloc_count hok
  have hafter : (c.alloc 1).2.getFreePages = (c.toPmm.alloc 1).2.freeCount := by
    rw [(alloc_counted h 1).free, hstate]
  rw [haddr, h.free, Nat.pos_iff_ne_zero, ne_eq, hnone]
  refine ⟨.rfl, ?_⟩
  rcases Nat.eq_zero_or_pos c.freeCount with hz | hpos
  · have hle := c.alloc_left 1
    rw [h.free] at hle
    omega
  · have := hone fun hfail => absurd (hnone.1 hfail) (by omega)
    omega

theorem safe_of_counted (hok : c.Ok) (h : c.Counted) : c.Safe := by
  refine ⟨fun n hne pa hin => ?_, h, fun i => ?_⟩
  · obtain ⟨haddr, -⟩ := c.alloc_toPmm n
    rw [haddr] at hne hin
    rcases alloc_spec hok n with ⟨hz, -⟩ | ⟨-, -, hfree, -⟩
    · exact absurd hz hne
    · exact ⟨hfree pa hin, hok.free (hfree pa hin)⟩
  · have hafter : (c.allocs i).Ok ∧ (c.allocs i).Counted ∧ (c.allocs i).getFreePages = c.getFreePages - i := by
      induction i with
      | zero => exact ⟨hok, h, rfl⟩
      | succ i ih =>
        obtain ⟨hok', h', hleft⟩ := ih
        refine ⟨?_, alloc_counted h' 1, ?_⟩
        · rw [allocs, (alloc_toPmm _ 1).2]
          exact alloc_ok hok' 1
        · rw [allocs, (alloc_one hok' h').2, hleft, Nat.sub_sub]
    obtain ⟨hok', h', hleft⟩ := hafter
    rw [(alloc_one hok' h').1, hleft, Nat.sub_pos_iff_lt]

/-! ### Initialisation -/

/-- What a port does before the first `pmm_alloc`: the range, what is free, what of it is used after all, and the pages
    reserved. A range that starts at 0 has its first page marked. -/
structure Boot where
  base : Nat
  pages : Nat
  free : List (Nat × Nat)
  used : List (Nat × Nat)
  reserved : List Nat
  null : base = 0 → (0, 4096) ∈ used

def Boot.marked (b : Boot) : Core :=
  b.used.foldl (fun c r => c.markUsed r.1 r.2) (b.free.foldl (fun c r => c.markFree r.1 r.2) (setup b.base b.pages))

/-- `pmm_init` -/
def Boot.run (b : Boot) : Core := b.reserved.foldl (fun c pa => (c.reservePage pa).2) b.marked

/-- Nothing is counted yet, and the counter is right. -/
structure Clean (b : Boot) (c : Core) : Prop where
  counted : c.Counted
  ref : ∀ i, c.rc i = 0
  base : c.base = b.base
  pages : c.pages = b.pages

theorem setup_clean (b : Boot) : Clean b (setup b.base b.pages) := by
  refine ⟨?_, fun _ => rfl, rfl, rfl⟩
  rw [Counted, setup, setBits]
  simp

variable {b : Boot} {c : Core}

theorem Clean.freePage (h : Clean b c) (a : Nat) : Clean b (c.freePage a) := by
  have hsame : (c.freePage a).rc = c.rc ∧ (c.freePage a).base = c.base ∧ (c.freePage a).pages = c.pages := by
    rw [Core.freePage]
    rcases c.pageOf a with _ | page
    · exact ⟨rfl, rfl, rfl⟩
    · dsimp only
      split_ifs <;> exact ⟨rfl, rfl, rfl⟩
  exact ⟨freePage_counted h.counted a, hsame.1 ▸ h.ref, hsame.2.1.trans h.base, hsame.2.2.trans h.pages⟩

/-- Marking a page leaves what was used. -/
theorem Clean.usePage (h : Clean b c) (a : Nat) : Clean b (c.usePage a) ∧ ∀ i, c.bm i → (c.usePage a).bm i := by
  have hsame : ((c.usePage a).rc = c.rc ∧ (c.usePage a).base = c.base ∧ (c.usePage a).pages = c.pages) ∧
      ∀ i, c.bm i → (c.usePage a).bm i := by
    rw [Core.usePage]
    rcases c.pageOf a with _ | page
    · exact ⟨⟨rfl, rfl, rfl⟩, fun _ => id⟩
    dsimp only
    split_ifs
    · exact ⟨⟨rfl, rfl, rfl⟩, fun _ => id⟩
    refine ⟨⟨rfl, rfl, rfl⟩, fun i hi => ?_⟩
    dsimp only [mark]
    split_ifs
    · rfl
    · exact hi
  obtain ⟨⟨href, hbase, hpages⟩, hkeep⟩ := hsame
  exact ⟨⟨usePage_counted h.counted a, href ▸ h.ref, hbase.trans h.base, hpages.trans h.pages⟩, hkeep⟩

theorem Clean.markUsed (h : Clean b c) (pa bytes : Nat) :
    Clean b (c.markUsed pa bytes) ∧ ∀ i, c.bm i → (c.markUsed pa bytes).bm i := by
  refine foldlRecOn (motive := fun c' => Clean b c' ∧ ∀ i, c.bm i → c'.bm i) _ _ ⟨h, fun _ => id⟩ ?_
  rintro c' ⟨h', hkeep⟩ a -
  exact ⟨(h'.usePage a).1, fun i hi => (h'.usePage a).2 i (hkeep i hi)⟩

theorem Clean.markUsedAll (h : Clean b c) (l : List (Nat × Nat)) : Clean b (l.foldl (fun c r => c.markUsed r.1 r.2) c) ∧
      ∀ i, c.bm i → (l.foldl (fun c r => c.markUsed r.1 r.2) c).bm i := by
  induction l generalizing c with
  | nil => exact ⟨h, fun _ => id⟩
  | cons r l ih =>
    obtain ⟨hclean, hkeep⟩ := h.markUsed r.1 r.2
    exact ⟨(ih hclean).1, fun i hi => (ih hclean).2 i (hkeep i hi)⟩

/-- The first page of a range that starts at 0 is marked. -/
theorem usePage_zero (hbase : c.base = 0) (hpages : 0 < c.pages) : (c.markUsed 0 4096).bm 0 := by
  have hpage : c.pageOf 0 = some 0 := by
    rw [pageOf_eq, if_pos (by omega), hbase]
  show (c.usePage 0).bm 0
  rw [usePage, hpage]
  dsimp only
  split_ifs with hset
  · exact hset
  · rfl

/-- The allocator before pages are reserved. -/
theorem Boot.marked_clean (b : Boot) : Clean b b.marked ∧ ¬ b.marked.Free 0 := by
  have hfree : Clean b (b.free.foldl (fun c r => c.markFree r.1 r.2) (setup b.base b.pages)) :=
    foldlRecOn _ _ (setup_clean b) fun c hc r _ => foldlRecOn _ _ hc fun c hc a _ => hc.freePage a
  have hclean : Clean b b.marked := (hfree.markUsedAll b.used).1
  refine ⟨hclean, fun hz => ?_⟩
  obtain ⟨⟨hlow, hpages⟩, hbit⟩ := free_iff.1 hz
  have hbase : b.base = 0 := by
    rw [← hclean.base]
    omega
  -- the first page was marked on the way, and stays marked
  obtain ⟨l₁, l₂, hsplit⟩ := append_of_mem (b.null hbase)
  have hbefore := (hfree.markUsedAll l₁).1
  have hset := usePage_zero (hbefore.base.trans hbase) (by rw [hbefore.pages, ← hclean.pages]; omega)
  have hkept := ((hbefore.markUsed 0 4096).1.markUsedAll l₂).2 0 hset
  rw [marked, hsplit, foldl_append, Nat.zero_sub] at hbit
  exact Bool.false_ne_true (hbit.symm.trans hkept)

/-- A page that is reserved was free, and is counted once. -/
theorem reservePage_ok (hok : c.Ok) (h : c.Counted) (pa : Nat) : (c.reservePage pa).2.Ok ∧ (c.reservePage pa).2.Counted := by
  rw [reservePage]
  rcases hp : c.pageOf pa with _ | page
  · exact ⟨hok, h⟩
  obtain ⟨hlt, rfl⟩ := pageOf_lt hp
  dsimp only
  split_ifs with hset
  · exact ⟨hok, h⟩
  have hbit : c.bm page = false := Bool.eq_false_of_not_eq_true hset
  have hfree : c.Free (c.base + page) := ⟨page, hp, hbit⟩
  have href : ∀ q, getRef { c.toPmm with bm := mark c.bm true page 1, rc := fun i => if i = page then 1 else c.rc i } q =
      if q = c.base + page then 1 else c.getRef q := by
    intro q
    simp only [getRef_eq]
    dsimp only [Managed]
    split_ifs <;> first | rfl | omega
  have hleft : ∀ q, Pmm.Free { c.toPmm with bm := mark c.bm true page 1, rc := fun i => if i = page then 1 else c.rc i } q →
      c.Free q ∧ q ≠ c.base + page := by
    intro q hq
    obtain ⟨hin, hb⟩ := free_iff.1 hq
    dsimp only [mark] at hb
    split_ifs at hb with hsame
    exact ⟨free_iff.2 ⟨hin, hb⟩, fun heq => hsame (by omega)⟩
  have hnull : 0 ≠ c.base + page := fun hz => hok.null (hz ▸ hfree)
  refine ⟨⟨fun {q} hq => ?_, fun hq => hok.null (hleft 0 hq).1, ?_⟩, ?_⟩
  · rw [href, if_neg (hleft q hq).2]
    exact hok.free (hleft q hq).1
  · rw [href, if_neg hnull]
    exact hok.null_ref
  · rw [Counted]
    dsimp only
    rw [card_mark (by omega) fun j hj hlt => by rw [show j = page by omega, hbit], h]

theorem Boot.run_ok (b : Boot) : b.run.Ok ∧ b.run.Counted := by
  obtain ⟨hclean, hnull⟩ := b.marked_clean
  have href : ∀ pa, b.marked.getRef pa = 0 := by
    intro pa
    rw [getRef_eq]
    split_ifs
    · exact hclean.ref _
    · rfl
  have hstart : b.marked.Ok ∧ b.marked.Counted := ⟨⟨fun _ => href _, hnull, href 0⟩, hclean.counted⟩
  refine foldlRecOn (motive := fun c : Core => c.Ok ∧ c.Counted) _ _ hstart ?_
  rintro c ⟨hok, hcounted⟩ pa -
  exact reservePage_ok hok hcounted pa

/-! ### Callers -/

/-- How many references to each frame the callers hold together. -/
abbrev Ledger := Nat → Nat

inductive Op where
  | alloc (pages : Nat)
  | incref (pa : Nat)
  | free (pa pages : Nat)

namespace Op

def run : Op → Core → Core
  | alloc n, c => (c.alloc n).2
  | incref pa, c => c.incref pa
  | free pa n, c => c.free pa n

/-- What the callers hold afterwards. -/
def held : Op → Core → Ledger → Ledger
  | alloc n, c, held => fun q => if (c.alloc n).1 ≠ 0 ∧ Within (c.alloc n).1 n q then held q + 1 else held q
  | incref pa, _, held => fun q => if q = pa then held q + 1 else held q
  | free pa n, _, held => fun q => if Within pa n q then held q - 1 else held q

/-- A caller gives up, or shares, only what it holds. -/
def Fair : Op → Ledger → Prop
  | alloc _, _ => True
  | incref pa, held => 0 < held pa
  | free pa n, held => ∀ q, Within pa n q → 0 < held q

/-- The count of the page has room for a reference more. -/
def Spare : Core → Op → Prop
  | c, incref pa => c.getRef pa < 65535
  | _, _ => True

end Op

/-- A run after initialisation, in which callers are fair and each call meets `P`. What was reserved is held. -/
inductive Reaches (P : Core → Op → Prop) (b : Boot) : Core → Ledger → Prop
  | boot : Reaches P b b.run b.run.getRef
  | step {c : Core} {held : Ledger} (op : Op) : Reaches P b c held → op.Fair held → P c op → Reaches P b (op.run c) (op.held c held)

/-- What a run keeps: every reference held is counted. -/
structure Inv (c : Core) (held : Ledger) : Prop where
  ok : c.Ok
  counted : c.Counted
  ref : ∀ pa, c.getRef pa = held pa

variable {held : Ledger}

theorem Inv.step {c : Core} (h : Inv c held) (op : Op) (hfair : op.Fair held) (hspare : Op.Spare c op) :
    Inv (op.run c) (op.held c held) := by
  cases op with
  | alloc n =>
    obtain ⟨haddr, hstate⟩ := c.alloc_toPmm n
    refine ⟨?_, alloc_counted h.counted n, fun q => ?_⟩
    · rw [Op.run, hstate]
      exact alloc_ok h.ok n
    · rw [Op.run, Op.held, hstate, haddr]
      dsimp only
      rcases alloc_spec h.ok n with ⟨hz, hsame⟩ | ⟨hne, -, hfree, href, -⟩
      · rw [hsame.ref, if_neg fun hin => hin.1 hz, h.ref]
      rw [href]
      split_ifs with hin hin' hin'
      · rw [← h.ref, h.ok.free (hfree q hin)]
      · exact absurd ⟨hne, hin⟩ hin'
      · exact absurd hin'.2 hin
      · exact h.ref q
  | incref pa =>
    have hcounted : c.getRef pa ≠ 0 := by
      rw [h.ref]
      exact ne_of_gt hfair
    refine ⟨incref_ok h.ok hcounted, incref_counted h.counted pa, fun q => ?_⟩
    rw [Op.held]
    dsimp only
    refine ((incref_spec hcounted hspare).1 q).trans ?_
    split_ifs with heq
    · rw [heq, h.ref]
    · exact h.ref q
  | free pa n =>
    refine ⟨?_, (foldlRecOn _ _ h.counted fun _ hc i _ => freeOne_counted hc (pa + i)), fun q => ?_⟩
    · rw [Op.run, free_toPmm]
      exact free_ok h.ok pa n
    · rw [Op.run, Op.held, free_toPmm, (free_spec c.toPmm pa n).1, h.ref]

theorem Reaches.inv (h : Reaches Op.Spare b c held) : Inv c held := by
  induction h with
  | boot => exact ⟨b.run_ok.1, b.run_ok.2, fun _ => rfl⟩
  | step op _ hfair hspare ih => exact ih.step op hfair hspare

/-- CORRECT while no page is referenced more than 65535 times: after initialisation and any calls of fair callers, a run handed
    out was free and not counted, `g_used` is the number of set bits, and as many pages can be had as are reported free. -/
theorem pmm_safe {b : Boot} {c : Core} {held : Ledger} (h : Reaches Op.Spare b c held) : c.Safe :=
  safe_of_counted h.inv.ok h.inv.counted

/-- CORRECT while no page is referenced more than 65535 times: a page that somebody holds is free after a call exactly if
    nobody holds it any more. -/
theorem page_freed_by_last {b : Boot} {c : Core} {held : Ledger} (h : Reaches Op.Spare b c held) (op : Op) (hfair : op.Fair held)
    (hspare : Op.Spare c op) {q : Nat} (hq : 0 < held q) : (op.run c).Free q ↔ op.held c held q = 0 := by
  have hnext := h.inv.step op hfair hspare
  constructor
  · intro hfree
    rw [← hnext.ref, hnext.ok.free hfree]
  · intro hnone
    cases op with
    | alloc | incref =>
      dsimp only [Op.held] at hnone
      split_ifs at hnone
      omega
    | free pa n =>
      dsimp only [Op.held] at hnone
      split_ifs at hnone with hin
      · have hone : c.getRef q = 1 := by
          rw [h.inv.ref]
          omega
        rw [Op.run, free_toPmm]
        exact ((free_spec c.toPmm pa n).2 q).2 (.inr ⟨hin, hone⟩)
      · omega

/-! ### The count that stops -/

/-- One free page, frame 256. -/
def onePage : Boot := ⟨256, 1, [(0x100000, 4096)], [], [], nofun⟩

/-- The page is taken and shared. -/
theorem pmm_safe_onePage : ((Op.incref 256).run ((Op.alloc 1).run onePage.run)).Safe :=
  pmm_safe (.step (.incref 256) (.step (.alloc 1) .boot trivial trivial) (show 0 < _ by decide) (show _ < 65535 by decide))

/-- The page is taken and given back by its only holder. -/
theorem page_freed_by_last_onePage : ((Op.free 256 1).run ((Op.alloc 1).run onePage.run)).Free 256 :=
  (page_freed_by_last (.step (.alloc 1) .boot trivial trivial) (.free 256 1)
    (fun q hq => by rw [within_one.1 hq]; decide) trivial (show 0 < _ by decide)).2 (by decide)

/-- A run of the one page reaches `k` counted references where `n` are held. -/
def Stage (k n : Nat) : Prop :=
  ∃ c held, Reaches (fun _ _ => True) onePage c held ∧ c.getRef 256 = k ∧ held 256 = n ∧ c.base = 256 ∧ c.pages = 1

theorem Stage.incref (h : Stage k n) (hk : 0 < k) (hn : 0 < n) : Stage (if k < 65535 then k + 1 else k) (n + 1) := by
  obtain ⟨c, held, hrun, rfl, rfl, hbase, hpages⟩ := h
  obtain ⟨hbase', hpages'⟩ := Prod.mk.inj (c.toPmm.incref_range 256)
  refine ⟨_, _, .step (.incref 256) hrun hn trivial, ?_, ?_, hbase'.trans hbase, hpages'.trans hpages⟩
  · refine ((Pmm.incref_counted (ne_of_gt hk)).1 256).trans ?_
    simp
  · rw [Op.held]
    dsimp only
    rw [if_pos rfl]

/-- A holder gives the page back. -/
theorem Reaches.freed (h : Reaches (fun _ _ => True) onePage c held) (hheld : 0 < held 256) :
    ∃ c' held', Reaches (fun _ _ => True) onePage c' held' ∧ c'.toPmm = c.toPmm.freeOne 256 ∧
      held' 256 = held 256 - 1 ∧ c'.range = c.range := by
  have hfair : (Op.free 256 1).Fair held := by
    intro q hq
    rwa [within_one.1 hq]
  refine ⟨_, _, .step (.free 256 1) h hfair trivial, freeOne_toPmm c 256, ?_, ?_⟩
  · rw [Op.held]
    dsimp only
    rw [if_pos (by omega)]
  · rw [Op.run, free_toPmm]
    exact c.free_range_one 256

theorem Stage.free (h : Stage (k + 1) (n + 1)) : Stage k n := by
  obtain ⟨c, held, hrun, href, hheld, hbase, hpages⟩ := h
  obtain ⟨c', held', hrun', hstate, hless, hrange⟩ := hrun.freed (by omega)
  obtain ⟨hbase', hpages'⟩ := Prod.mk.inj hrange
  refine ⟨c', held', hrun', ?_, by omega, hbase'.trans hbase, hpages'.trans hpages⟩
  rw [hstate, (freeOne_spec c.toPmm 256).1, if_pos rfl, href, Nat.add_sub_cancel]

theorem stage_shared (n : Nat) (hn : n < 65535) : Stage (n + 1) (n + 1) := by
  induction n with
  | zero => exact ⟨_, _, .step (.alloc 1) .boot trivial trivial, by decide, by decide, by decide, by decide⟩
  | succ n ih =>
    have h := (ih (by omega)).incref (Nat.succ_pos n) (Nat.succ_pos n)
    rwa [if_pos (by omega)] at h

theorem stage_freed (k n m : Nat) (h : Stage (k + m) (n + m)) : Stage k n := by
  induction m with
  | zero => exact h
  | succ m ih => exact ih h.free

/-- One counted reference is left where two are held. -/
theorem stage_lost : Stage 1 2 := by
  have hfull : Stage 65535 65535 := stage_shared 65534 (by decide)
  have hlost : Stage 65535 65536 := hfull.incref (by decide) (by decide)
  exact stage_freed 1 2 65534 hlost

/-- A free page can be counted, and is handed out then. -/
theorem not_safe_of_incref (hbase : c.base = 256) (hpages : c.pages = 1) (hfree : c.Free 256) : ¬ (c.incref 256).Safe := by
  intro hsafe
  have hpage : c.pageOf 256 = some 0 := by
    rw [pageOf_eq, if_pos (by omega), hbase]
  have hbit : c.bm 0 = false := by
    obtain ⟨i, hi, hbit⟩ := hfree
    rwa [← Option.some.inj (hpage.symm.trans hi)] at hbit
  obtain ⟨hbase', hpages'⟩ := Prod.mk.inj (c.toPmm.incref_range 256)
  have hcounted : (c.incref 256).bm 0 = false ∧ (c.incref 256).getRef 256 ≠ 0 := by
    rw [incref, Pmm.incref, hpage]
    dsimp only
    split_ifs with hmax
    · refine ⟨hbit, ?_⟩
      rw [getRef_eq, if_pos (by dsimp only [Managed]; omega)]
      rw [hbase]
      exact Nat.succ_ne_zero _
    · refine ⟨hbit, ?_⟩
      rw [getRef, hpage]
      dsimp only
      omega
  have hrun : (c.incref 256).Run 0 1 := by
    refine ⟨(hpages'.trans hpages).ge, fun j _ hlt => ?_⟩
    rw [show j = 0 by omega]
    exact hcounted.1
  obtain ⟨s, next, ⟨hfit, -⟩, heq⟩ := hrun.claimed one_pos
  have hgiven : ((c.incref 256).alloc 1).1 = 256 := by
    have hfit' : s + 1 ≤ 1 := hfit.trans (hpages'.trans hpages).le
    rw [alloc_fst, (claimLocked_toPmm _ 1).1, heq, show (c.incref 256).base = 256 from hbase'.trans hbase]
    omega
  exact hcounted.2 (hsafe.handed 1 (by omega) 256 (by omega)).2

/-- After 65536 references and 65535 frees the page is free where one is still held. -/
theorem freed_early : ∃ c held, Reaches (fun _ _ => True) onePage c held ∧ c.Free 256 ∧ held 256 = 1 ∧ c.base = 256 ∧ c.pages = 1 := by
  obtain ⟨c, held, hrun, href, hheld, hbase, hpages⟩ := stage_lost
  obtain ⟨c', held', hrun', hstate, hless, hrange⟩ := hrun.freed (by omega)
  obtain ⟨hbase', hpages'⟩ := Prod.mk.inj hrange
  have hfree : c'.Free 256 := hstate ▸ ((freeOne_spec c.toPmm 256).2 256).2 (.inr ⟨rfl, href⟩)
  exact ⟨c', held', hrun', hfree, by omega, hbase'.trans hbase, hpages'.trans hpages⟩

/-- INCORRECT in general: a page that was shared 65536 times is given back by 65535 frees; when its last holder shares it, it is
    free and counted, and is handed out. -/
theorem not_pmm_safe : ∃ c held, Reaches (fun _ _ => True) onePage c held ∧ ¬ c.Safe := by
  obtain ⟨c, held, hrun, hfree, hheld, hbase, hpages⟩ := freed_early
  have hfair : (Op.incref 256).Fair held := show 0 < held 256 by omega
  exact ⟨_, _, .step (.incref 256) hrun hfair trivial, not_safe_of_incref hbase hpages hfree⟩

/-- INCORRECT in general: a page can be had again while one of its 65536 holders still has it. -/
theorem page_freed_while_held : ∃ c held, Reaches (fun _ _ => True) onePage c held ∧ c.Free 256 ∧ held 256 = 1 := by
  obtain ⟨c, held, hrun, hfree, hheld, -, -⟩ := freed_early
  exact ⟨c, held, hrun, hfree, hheld⟩

end Core
end Orthox.Memory
