import Mathlib

/-! The page allocator (`kernel/pmm_core.c`): a bitmap of pages in use and a reference count per page. Addresses are frame
    numbers and the managed range starts at a frame; 0 is the failure value, so frame 0 is never handed out. Pages are searched
    next-fit, long runs from the start. The counters that only feed statistics are left out. -/

namespace Orthox.Memory
open Finset

/-- The allocator: `g_base_pa`, `g_pages`, the bitmap, the counts and `g_next_page`. -/
structure Pmm where
  base : Nat
  pages : Nat
  bm : Nat → Bool
  rc : Nat → Nat
  next : Nat

namespace Pmm

/-- `PMM_BIG_PAGES` -/
def bigPages : Nat := 16

/-- `pmm_page_of` -/
def pageOf (m : Pmm) (pa : Nat) : Option Nat :=
  if pa < m.base then none else if pa - m.base < m.pages then some (pa - m.base) else none

/-- The loop of `pmm_scan_locked` with `n` pages to go: the first page of a run, plus one. -/
def scan (bm : Nat → Bool) (want : Nat) : Nat → Nat → Nat → Nat → Nat
  | 0, _, _, _ => 0
  | n + 1, page, run, start =>
    if bm page then scan bm want n (page + 1) 0 start
    else
      let start := if run = 0 then page else start
      if run + 1 = want then start + 1 else scan bm want n (page + 1) (run + 1) start

def scanLocked (m : Pmm) (first last pages : Nat) : Nat := scan m.bm pages (last - first) first 0 0

/-- Sets (`pmm_set`) or clears (`pmm_clear`) the bits of `n` pages. -/
def mark (bm : Nat → Bool) (b : Bool) (start n : Nat) : Nat → Bool := fun i => if start ≤ i ∧ i < start + n then b else bm i

def claimLocked (m : Pmm) (pages : Nat) : Nat × Pmm :=
  if pages = 0 ∨ m.pages = 0 then (0, m)
  else
    let m := { m with next := if m.next ≥ m.pages then 0 else m.next }
    if pages ≥ bigPages then
      let start := m.scanLocked 0 m.pages pages
      if start = 0 then (0, m) else (m.base + (start - 1), { m with bm := mark m.bm true (start - 1) pages })
    else
      let ahead := m.scanLocked m.next m.pages pages
      let start := if ahead = 0 then m.scanLocked 0 (min (m.next + pages - 1) m.pages) pages else ahead
      if start = 0 then (0, m)
      else (m.base + (start - 1), { m with bm := mark m.bm true (start - 1) pages, next := start - 1 + pages })

def releaseLocked (m : Pmm) (pa pages : Nat) : Pmm :=
  match m.pageOf pa with
  | none => m
  | some start => { m with
      next := if start < m.next then start else m.next
      bm := mark m.bm false start (min pages (m.pages - start)) }

/-- `pmm_alloc` -/
def alloc (m : Pmm) (pages : Nat) : Nat × Pmm :=
  let r := m.claimLocked pages
  if r.1 = 0 then r
  else (r.1, { r.2 with rc := fun i => if r.1 - m.base ≤ i ∧ i < r.1 - m.base + pages then 1 else r.2.rc i })

/-- One turn of the loop of `pmm_free`. -/
def freeOne (m : Pmm) (pa : Nat) : Pmm :=
  match m.pageOf pa with
  | none => m
  | some page =>
    if m.rc page > 0 then
      let m' := { m with rc := fun i => if i = page then m.rc page - 1 else m.rc i }
      if m.rc page - 1 = 0 then m'.releaseLocked pa 1 else m'
    else m

/-- `pmm_free` -/
def free (m : Pmm) (addr pages : Nat) : Pmm := (List.range pages).foldl (fun m i => m.freeOne (addr + i)) m

/-- `pmm_incref`; the count stays at 65535. -/
def incref (m : Pmm) (addr : Nat) : Pmm :=
  match m.pageOf addr with
  | none => m
  | some page => if m.rc page < 0xffff then { m with rc := fun i => if i = page then m.rc page + 1 else m.rc i } else m

/-- `pmm_get_ref` -/
def getRef (m : Pmm) (addr : Nat) : Nat :=
  match m.pageOf addr with
  | none => 0
  | some page => m.rc page

/-! ### Frames -/

/-- The frame can be handed out. -/
def Free (m : Pmm) (pa : Nat) : Prop := ∃ i, m.pageOf pa = some i ∧ m.bm i = false

/-- Free frames have no references, and frame 0 is neither free nor counted. -/
structure Ok (m : Pmm) : Prop where
  free : ∀ {pa}, m.Free pa → m.getRef pa = 0
  null : ¬ m.Free 0
  null_ref : m.getRef 0 = 0

/-- Two allocators with the same counts and the same free frames; where the next search starts may differ. -/
structure Same (m m' : Pmm) : Prop where
  ref : ∀ pa, m'.getRef pa = m.getRef pa
  free : ∀ pa, m'.Free pa ↔ m.Free pa

variable {m : Pmm} {pa p : Nat}

theorem Same.refl (m : Pmm) : Same m m := ⟨fun _ => rfl, fun _ => .rfl⟩

variable {m' m : Pmm}

theorem Same.ok (h : Same m m') (hok : m.Ok) : m'.Ok :=
  ⟨fun hf => (h.ref _).trans (hok.free ((h.free _).mp hf)), fun hf => hok.null ((h.free 0).mp hf), (h.ref 0).trans hok.null_ref⟩

/-- The frame is in the managed range. -/
abbrev Managed (m : Pmm) (pa : Nat) : Prop := m.base ≤ pa ∧ pa - m.base < m.pages

/-- The frame is one of the `n` from `first` on. -/
abbrev Within (first n pa : Nat) : Prop := first ≤ pa ∧ pa < first + n

variable {first want last s n pa : Nat}

theorem within_one : Within first 1 pa ↔ pa = first := by omega

theorem pageOf_eq (m : Pmm) (pa : Nat) : m.pageOf pa = if m.Managed pa then some (pa - m.base) else none := by
  unfold pageOf
  split_ifs <;> first | rfl | omega

theorem getRef_eq (m : Pmm) (pa : Nat) : m.getRef pa = if m.Managed pa then m.rc (pa - m.base) else 0 := by
  rw [getRef, pageOf_eq]
  split_ifs <;> rfl

/-- A counted frame is in the managed range. -/
theorem managed_of_ref (h : m.getRef pa ≠ 0) : m.Managed pa := by
  by_contra hno
  exact h (by rw [getRef_eq, if_neg hno])

theorem free_iff : m.Free pa ↔ m.Managed pa ∧ m.bm (pa - m.base) = false := by
  rw [Free, pageOf_eq]
  split_ifs with h
  · rw [and_iff_right h]
    exact ⟨fun ⟨_, hi, hb⟩ => Option.some.inj hi ▸ hb, fun hb => ⟨_, rfl, hb⟩⟩
  · exact iff_of_false (fun ⟨_, hi, _⟩ => nomatch hi) fun hin => h hin.1

/-! ### Searching -/

/-- What the search finds is a run of free pages inside the searched range. -/
theorem scan_sound (bm : Nat → Bool) : ∀ (n page run start : Nat), run < want → (run ≠ 0 → start + run = page) →
    (run ≠ 0 → ∀ j, start ≤ j → j < page → bm j = false) → scan bm want n page run start ≠ 0 →
    ∃ s, scan bm want n page run start = s + 1 ∧ s + want ≤ page + n ∧ ∀ j, s ≤ j → j < s + want → bm j = false
  | 0, _, _, _, _, _, _, h => absurd rfl h
  | n + 1, page, run, start, hrun, hstart, hfree, h => by
      rw [scan] at h ⊢
      split_ifs at h ⊢ with hbit hdone hfound hfound
      · obtain ⟨s, hs, hle, hall⟩ := scan_sound bm n (page + 1) 0 start (by omega) (fun h => absurd rfl h) (fun h => absurd rfl h) h
        exact ⟨s, hs, by omega, hall⟩
      · refine ⟨page, rfl, by omega, fun j hj hlt => ?_⟩
        rw [show j = page by omega]
        exact Bool.eq_false_iff.mpr hbit
      · obtain ⟨s, hs, hle, hall⟩ := scan_sound bm n (page + 1) (run + 1) page (by omega) (fun _ => by omega)
          (fun _ j hj hlt => by rw [show j = page by omega]; exact Bool.eq_false_iff.mpr hbit) h
        exact ⟨s, hs, by omega, hall⟩
      · have hpos := hstart hdone
        refine ⟨start, rfl, by omega, fun j hj hlt => ?_⟩
        rcases lt_or_ge j page with hjp | hjp
        · exact hfree hdone j hj hjp
        · rw [show j = page by omega]
          exact Bool.eq_false_iff.mpr hbit
      obtain ⟨s, hs, hle, hall⟩ := scan_sound bm n (page + 1) (run + 1) start (by omega) (fun _ => by omega) (fun _ j hj hlt => by
        rcases lt_or_ge j page with hjp | hjp
        · exact hfree hdone j hj hjp
        · rw [show j = page by omega]
          exact Bool.eq_false_iff.mpr hbit) h
      exact ⟨s, hs, by omega, hall⟩

/-- A search that finds nothing has seen a used page in every run, also in one that began before it. -/
theorem scan_complete (bm : Nat → Bool) (n : Nat) : ∀ page run start, run < want →
    scan bm want n page run start = 0 → ∀ s, page ≤ s + run → s + want ≤ page + n → ∃ j, s ≤ j ∧ j < s + want ∧ bm j := by
  induction n with
  | zero =>
    intro page run start hrun _ s hs hend
    omega
  | succ n ih =>
    intro page run start hrun hnone s hs hend
    rw [scan] at hnone
    rcases hbit : bm page with - | -
    · rw [hbit, if_neg nofun] at hnone
      split_ifs at hnone with hstart hdone
      · exact ih (page + 1) (run + 1) page (by omega) hnone s (by omega) (by omega)
      · exact ih (page + 1) (run + 1) start (by omega) hnone s (by omega) (by omega)
    · rw [hbit] at hnone
      rcases lt_or_ge page s with hlt | hge
      · exact ih (page + 1) 0 start (by omega) hnone s hlt (by omega)
      · exact ⟨page, hge, by omega, hbit⟩

/-- `n` pages in the managed range, all free. -/
def Run (m : Pmm) (s n : Nat) : Prop := s + n ≤ m.pages ∧ ∀ j, s ≤ j → j < s + n → m.bm j = false

theorem scanLocked_sound {pages : Nat} (hn : 0 < pages) (h : m.scanLocked first last pages ≠ 0) (hlast : last ≤ m.pages) :
    ∃ s, m.scanLocked first last pages = s + 1 ∧ m.Run s pages := by
  obtain ⟨s, hs, hle, hall⟩ := scan_sound m.bm (last - first) first 0 0 hn (fun h => absurd rfl h) (fun h => absurd rfl h) h
  refine ⟨s, hs, ?_, hall⟩
  rcases lt_or_ge first last with hlt | hge
  · omega
  · rw [scanLocked, Nat.sub_eq_zero_of_le hge] at h
    exact absurd rfl h

theorem Run.not_missed (h : m.Run s n) (hn : 0 < n) (hfirst : first ≤ s) (hlast : s + n ≤ last) :
    m.scanLocked first last n ≠ 0 := by
  intro hnone
  obtain ⟨j, hj, hlt, hbit⟩ := scan_complete m.bm (last - first) first 0 0 hn hnone s hfirst (by omega)
  rw [h.2 j hj hlt] at hbit
  exact Bool.false_ne_true hbit

/-- `pmm_claim_locked` fails, where there is no run, and changes nothing but the place of the next search, or takes a run. -/
theorem claimLocked_cases (m : Pmm) (pages : Nat) :
    (∃ next, m.claimLocked pages = (0, { m with next := next }) ∧ ∀ s, 0 < pages → ¬ m.Run s pages) ∨
    ∃ s next, 0 < pages ∧ m.Run s pages ∧ m.claimLocked pages = (m.base + s, { m with bm := mark m.bm true s pages, next := next }) := by
  simp only [claimLocked]
  generalize (if m.next ≥ m.pages then 0 else m.next) = next
  split_ifs with hnone hbig hfail hahead hwrap
  · refine .inl ⟨_, rfl, fun s hpos hrun => ?_⟩
    have hfit := hrun.1
    omega
  · exact .inl ⟨_, rfl, fun s hpos hrun => hrun.not_missed hpos (Nat.zero_le s) hrun.1 hfail⟩
  · obtain ⟨s, hs, hrun⟩ := scanLocked_sound (by omega) hfail le_rfl
    rw [hs]
    exact .inr ⟨s, _, by omega, hrun, rfl⟩
  · -- every run begins before the hint or behind it
    refine .inl ⟨_, rfl, fun s hpos hrun => ?_⟩
    rcases lt_or_ge s next with hlt | hge
    · exact hrun.not_missed hpos (Nat.zero_le s) (Nat.le_min.2 ⟨by omega, hrun.1⟩) hwrap
    · exact hrun.not_missed hpos hge hrun.1 hahead
  · obtain ⟨s, hs, hrun⟩ := scanLocked_sound (by omega) hwrap (min_le_right _ _)
    rw [hs]
    exact .inr ⟨s, _, by omega, hrun, rfl⟩
  obtain ⟨s, hs, hrun⟩ := scanLocked_sound (by omega) hahead le_rfl
  rw [hs]
  exact .inr ⟨s, _, by omega, hrun, rfl⟩

theorem Run.free (h : m.Run s n) (hin : Within (m.base + s) n pa) : m.Free pa :=
  free_iff.mpr ⟨⟨by omega, by have := h.1; omega⟩, h.2 _ (by omega) (by omega)⟩

/-! ### What each call does to the frames -/

/-- Free frames of an allocator whose bits were marked. -/
theorem free_mark {b : Bool} {start : Nat} (next : Nat) (hfit : start + n ≤ m.pages) :
    Free { m with bm := mark m.bm b start n, next := next } pa ↔
      if Within (m.base + start) n pa then b = false else m.Free pa := by
  rw [free_iff, free_iff]
  dsimp only [Managed, mark]
  rcases em (Within (m.base + start) n pa) with hin | hout
  · rw [if_pos hin, if_pos (by omega)]
    exact and_iff_right ⟨by omega, by omega⟩
  rw [if_neg hout]
  refine and_congr_right fun hm => ?_
  rw [if_neg (by omega)]

/-- `pmm_core_claim`: no frame, or a run of free ones that are free no more. -/
theorem claimLocked_spec (hok : m.Ok) (pages : Nat) : let r := m.claimLocked pages
    (r.1 = 0 ∧ Same m r.2) ∨
    (r.1 ≠ 0 ∧ 0 < pages ∧ (∀ pa, Within r.1 pages pa → m.Free pa) ∧ (∀ pa, r.2.getRef pa = m.getRef pa) ∧
      ∀ pa, r.2.Free pa ↔ m.Free pa ∧ ¬ Within r.1 pages pa) := by
  rcases m.claimLocked_cases pages with ⟨next, heq, -⟩ | ⟨s, next, hpos, hrun, heq⟩
  · rw [heq]
    exact .inl ⟨rfl, fun _ => rfl, fun _ => .rfl⟩
  rw [heq]
  refine .inr ⟨fun hz => hok.null (hrun.free ⟨hz.le, by omega⟩), hpos, fun _ => hrun.free, fun _ => rfl, fun pa => ?_⟩
  rw [free_mark next hrun.1]
  split_ifs with hin
  · exact iff_of_false nofun fun h => h.2 hin
  · exact (and_iff_left hin).symm

/-- `pmm_alloc`: no frame, or a run of free ones that now have one reference each. -/
theorem alloc_spec (hok : m.Ok) (pages : Nat) : let r := m.alloc pages
    (r.1 = 0 ∧ Same m r.2) ∨
    (r.1 ≠ 0 ∧ 0 < pages ∧ (∀ pa, Within r.1 pages pa → m.Free pa) ∧
      (∀ pa, r.2.getRef pa = if Within r.1 pages pa then 1 else m.getRef pa) ∧
      ∀ pa, r.2.Free pa ↔ m.Free pa ∧ ¬ Within r.1 pages pa) := by
  rcases claimLocked_spec hok pages with ⟨hz, hsame⟩ | ⟨hne, hpos, hfree, -, hleft⟩
  · rw [alloc, if_pos hz]
    exact .inl ⟨hz, hsame⟩
  rw [alloc, if_neg hne]
  refine .inr ⟨hne, hpos, hfree, fun pa => ?_, hleft⟩
  rcases m.claimLocked_cases pages with ⟨next, heq, -⟩ | ⟨s, next, -, ⟨hle, -⟩, heq⟩
  · exact absurd (congrArg Prod.fst heq) hne
  simp only [heq, getRef_eq]
  dsimp only [Managed]
  split_ifs <;> first | rfl | omega

/-- `pmm_core_release` of one managed frame. -/
theorem releaseLocked_spec (m : Pmm) (hp : m.Managed p) :
    (∀ pa, (m.releaseLocked p 1).getRef pa = m.getRef pa) ∧ ∀ pa, (m.releaseLocked p 1).Free pa ↔ m.Free pa ∨ pa = p := by
  rw [releaseLocked, pageOf_eq, if_pos hp]
  dsimp only
  refine ⟨fun pa => rfl, fun pa => ?_⟩
  rw [min_eq_left (by omega), free_mark _ (by omega), show m.base + (p - m.base) = p by omega]
  split_ifs with h
  · exact iff_of_true rfl (.inr (within_one.mp h))
  · exact (or_iff_left fun heq => h (within_one.mpr heq)).symm

/-- One turn of `pmm_free`: a count goes down, and a frame that loses its last reference is free. -/
theorem freeOne_spec (m : Pmm) (p : Nat) : (∀ pa, (m.freeOne p).getRef pa = if pa = p then m.getRef p - 1 else m.getRef pa) ∧
    ∀ pa, (m.freeOne p).Free pa ↔ m.Free pa ∨ (pa = p ∧ m.getRef p = 1) := by
  rcases Nat.eq_zero_or_pos (m.getRef p) with hz | hpos
  · have hsame : m.freeOne p = m := by
      rw [freeOne]
      rw [getRef] at hz
      split
      · rfl
      rename_i page hp
      rw [hp] at hz
      exact if_neg (not_lt.mpr hz.le)
    rw [hsame, hz]
    refine ⟨fun pa => ?_, fun pa => (or_iff_left fun h => nomatch h.2).symm⟩
    split_ifs with h
    · rw [h, hz]
    · rfl
  · have hin := managed_of_ref (ne_of_gt hpos)
    have href : m.getRef p = m.rc (p - m.base) := by rw [getRef_eq, if_pos hin]
    have hcount : ∀ pa, getRef { m with rc := fun i => if i = p - m.base then m.rc (p - m.base) - 1 else m.rc i } pa =
        if pa = p then m.getRef p - 1 else m.getRef pa := by
      intro pa
      simp only [getRef_eq]
      dsimp only [Managed]
      split_ifs <;> first | rfl | omega
    rw [freeOne, pageOf_eq, if_pos hin]
    dsimp only
    rw [if_pos (href ▸ hpos)]
    split_ifs with hlast
    · obtain ⟨hr, hf⟩ := releaseLocked_spec { m with rc := fun i => if i = p - m.base then m.rc (p - m.base) - 1 else m.rc i } hin
      refine ⟨fun pa => (hr pa).trans (hcount pa), fun pa => (hf pa).trans (or_congr .rfl ?_)⟩
      exact (and_iff_left (by omega)).symm
    · exact ⟨hcount, fun pa => (or_iff_left fun h => hlast (by omega)).symm⟩

/-- `pmm_free`: every frame of the run loses a reference. -/
theorem free_spec (m : Pmm) (p : Nat) : ∀ n,
    (∀ pa, (m.free p n).getRef pa = if Within p n pa then m.getRef pa - 1 else m.getRef pa) ∧
    ∀ pa, (m.free p n).Free pa ↔ m.Free pa ∨ (Within p n pa ∧ m.getRef pa = 1)
  | 0 => ⟨fun pa => (if_neg (by omega)).symm, fun pa => (or_iff_left fun h => absurd h.1 (by omega)).symm⟩
  | n + 1 => by
      obtain ⟨hr, hf⟩ := free_spec m p n
      obtain ⟨hr', hf'⟩ := freeOne_spec (m.free p n) (p + n)
      have hstep : m.free p (n + 1) = (m.free p n).freeOne (p + n) := by
        rw [free, List.range_succ, List.foldl_append]
        rfl
      rw [hstep]
      refine ⟨fun pa => ?_, fun pa => ?_⟩
      · rw [hr', hr, hr]
        split_ifs with h₁ h₂ h₃ h₄ h₅ <;> first | rfl | omega | rw [h₁]
      · rw [hf', hf, hr, if_neg (by omega), or_assoc]
        refine or_congr_right ?_
        constructor
        · rintro (⟨hin, hone⟩ | ⟨rfl, hone⟩)
          · exact ⟨by omega, hone⟩
          · exact ⟨by omega, hone⟩
        · rintro ⟨hin, hone⟩
          rcases lt_or_ge pa (p + n) with hlt | hge
          · exact .inl ⟨by omega, hone⟩
          · obtain rfl : pa = p + n := by omega
            exact .inr ⟨rfl, hone⟩

section
variable (hp : m.getRef p ≠ 0)
include hp

/-- `pmm_incref` on a counted frame: one more reference, up to the limit. -/
theorem incref_counted : (∀ pa, (m.incref p).getRef pa = if pa = p ∧ m.getRef p < 65535 then m.getRef p + 1 else m.getRef pa) ∧
    ∀ pa, (m.incref p).Free pa ↔ m.Free pa := by
  have hin := managed_of_ref hp
  have href : m.getRef p = m.rc (p - m.base) := by rw [getRef_eq, if_pos hin]
  rw [href, incref, pageOf_eq, if_pos hin]
  dsimp only
  split_ifs with hmax
  · refine ⟨fun pa => ?_, fun pa => .rfl⟩
    simp only [getRef_eq, and_true]
    dsimp only [Managed]
    split_ifs <;> first | rfl | omega
  · exact ⟨fun pa => (if_neg fun h => hmax h.2).symm, fun pa => .rfl⟩

theorem incref_spec (hmax : m.getRef p < 65535) :
    (∀ pa, (m.incref p).getRef pa = if pa = p then m.getRef p + 1 else m.getRef pa) ∧ ∀ pa, (m.incref p).Free pa ↔ m.Free pa := by
  obtain ⟨href, hfree⟩ := incref_counted hp
  simp only [hmax, and_true] at href
  exact ⟨href, hfree⟩

/-- Frames without references keep none, and counted frames stay counted. -/
theorem incref_zero (pa : Nat) : (m.incref p).getRef pa = 0 ↔ m.getRef pa = 0 := by
  rw [(incref_counted hp).1]
  split_ifs with h
  · obtain ⟨rfl, -⟩ := h
    exact ⟨nofun, fun hz => absurd hz hp⟩
  · rfl

end

theorem alloc_ok (hok : m.Ok) (pages : Nat) : (m.alloc pages).2.Ok := by
  rcases alloc_spec hok pages with ⟨-, hsame⟩ | ⟨hne, -, -, href, hleft⟩
  · exact hsame.ok hok
  refine ⟨fun {pa} hf => ?_, fun hf => hok.null ((hleft 0).mp hf).1, ?_⟩
  · obtain ⟨hf', hout⟩ := (hleft pa).mp hf
    rw [href, if_neg hout]
    exact hok.free hf'
  · rw [href, if_neg (by omega)]
    exact hok.null_ref

theorem freeOne_ok (hok : m.Ok) (p : Nat) : (m.freeOne p).Ok := by
  obtain ⟨href, hfree⟩ := m.freeOne_spec p
  have hnull := hok.null_ref
  refine ⟨fun {pa} hf => ?_, fun hf => ?_, ?_⟩
  · rw [href]
    rcases (hfree pa).mp hf with hf | ⟨rfl, hone⟩
    · split_ifs with h
      · rw [← h, hok.free hf]
      · exact hok.free hf
    · rw [if_pos rfl, hone]
  · rcases (hfree 0).mp hf with hf | ⟨rfl, hone⟩
    · exact hok.null hf
    · omega
  · rw [href]
    split_ifs with h
    · rw [← h, hnull]
    · exact hnull

theorem free_ok (hok : m.Ok) (p n : Nat) : (m.free p n).Ok := by
  unfold free
  generalize List.range n = l
  induction l generalizing m with
  | nil => exact hok
  | cons i l ih => exact ih (freeOne_ok hok (p + i))

/-! ### Frames that are nobody's -/

/-- A frame without references that cannot be handed out: device memory, a hole, or a page of the kernel. -/
def Reserved (m : Pmm) (pa : Nat) : Prop := m.getRef pa = 0 ∧ ¬ m.Free pa

theorem Reserved.alloc (hok : m.Ok) (h : m.Reserved pa) (n : Nat) : (m.alloc n).2.Reserved pa := by
  rcases alloc_spec hok n with ⟨-, hsame⟩ | ⟨-, -, hfree, href, hleft⟩
  · exact ⟨(hsame.ref pa).trans h.1, fun hf => h.2 ((hsame.free pa).mp hf)⟩
  refine ⟨?_, fun hf => h.2 ((hleft pa).mp hf).1⟩
  rw [href, if_neg fun hin => h.2 (hfree pa hin)]
  exact h.1

theorem Reserved.free (h : m.Reserved pa) (p n : Nat) : (m.free p n).Reserved pa := by
  obtain ⟨href, hfree⟩ := free_spec m p n
  have hz := h.1
  refine ⟨?_, fun hf => ?_⟩
  · rw [href]
    split_ifs <;> omega
  · rcases (hfree pa).mp hf with hf | ⟨-, hone⟩
    · exact h.2 hf
    · omega

theorem Reserved.incref {p : Nat} (hp : m.getRef p ≠ 0) (h : m.Reserved pa) : (m.incref p).Reserved pa :=
  ⟨(incref_zero hp pa).mpr h.1, fun hf => h.2 (((incref_counted hp).2 pa).mp hf)⟩

theorem incref_ok (hok : m.Ok) (hp : m.getRef p ≠ 0) : (m.incref p).Ok := by
  obtain ⟨-, hfree⟩ := incref_counted hp
  exact ⟨fun hf => (incref_zero hp _).mpr (hok.free ((hfree _).mp hf)), fun hf => hok.null ((hfree 0).mp hf),
    (incref_zero hp 0).mpr hok.null_ref⟩

/-! ### How many frames are left -/

def freeCount (m : Pmm) : Nat := ((Finset.range m.pages).filter fun i => m.bm i = false).card

/-- `pmm_core_claim` and `pmm_alloc` of one page fail when no frame is left, and otherwise leave one less. -/
theorem claimLocked_count (hok : m.Ok) : let r := m.claimLocked 1
    (r.1 = 0 ↔ m.freeCount = 0) ∧ (r.1 ≠ 0 → r.2.freeCount + 1 = m.freeCount) := by
  intro r
  rcases m.claimLocked_cases 1 with ⟨next, heq, hnone⟩ | ⟨s, next, -, hrun, heq⟩
  · have hz : r.1 = 0 := by simp only [r, heq]
    refine ⟨iff_of_true hz ?_, fun hne => absurd hz hne⟩
    rw [freeCount, card_eq_zero, filter_eq_empty_iff]
    intro i hi hbit
    refine hnone i Nat.one_pos ⟨mem_range.mp hi, fun j hj hlt => ?_⟩
    rwa [show j = i by omega]
  have hs : s ∈ (range m.pages).filter fun i => m.bm i = false := mem_filter.mpr ⟨mem_range.mpr hrun.1, hrun.2 s le_rfl (by omega)⟩
  have hcount : r.2.freeCount + 1 = m.freeCount := by
    simp only [r, heq, freeCount]
    rw [← card_erase_add_one hs]
    congr 2
    ext i
    rw [mem_filter, mem_erase, mem_filter, mark]
    split_ifs with hin
    · exact iff_of_false (fun h => nomatch h.2) fun h => h.1 (by omega)
    · exact (and_iff_right (by omega)).symm
  have hne : r.1 ≠ 0 := by
    simp only [r, heq]
    exact fun hz => hok.null (hrun.free ⟨hz.le, by omega⟩)
  exact ⟨iff_of_false hne (by omega), fun _ => hcount⟩

theorem incref_count (m : Pmm) (p : Nat) : (m.incref p).freeCount = m.freeCount := by
  rw [incref]
  split
  · rfl
  · split_ifs <;> rfl

theorem alloc_count (hok : m.Ok) : let r := m.alloc 1
    (r.1 = 0 ↔ m.freeCount = 0) ∧ (r.1 ≠ 0 → r.2.freeCount + 1 = m.freeCount) := by
  intro r
  have h := claimLocked_count hok
  simp only [r, alloc]
  split_ifs with hz
  · exact h
  · exact h

/-- The frames an allocator manages. -/
def range (m : Pmm) : Nat × Nat := (m.base, m.pages)

theorem Managed.congr (h : m'.range = m.range) {q : Nat} (hq : m.Managed q) : m'.Managed q := by
  obtain ⟨hb, hp⟩ := Prod.mk.inj h
  rwa [Managed, hb, hp]

theorem claimLocked_range (m : Pmm) (n : Nat) : (m.claimLocked n).2.range = m.range := by
  rcases m.claimLocked_cases n with ⟨next, heq, -⟩ | ⟨s, next, -, -, heq⟩ <;> rw [heq] <;> rfl

theorem alloc_range (m : Pmm) (n : Nat) : (m.alloc n).2.range = m.range := by
  rw [alloc]
  split_ifs
  · exact m.claimLocked_range n
  · exact m.claimLocked_range n

theorem releaseLocked_range (m : Pmm) (p n : Nat) : (m.releaseLocked p n).range = m.range := by
  rw [releaseLocked]
  split <;> rfl

theorem free_range_one (m : Pmm) (p : Nat) : (m.free p 1).range = m.range := by
  change (m.freeOne (p + 0)).range = m.range
  rw [freeOne]
  split
  · rfl
  split_ifs
  · exact releaseLocked_range _ _ _
  · rfl
  · rfl

theorem incref_range (m : Pmm) (p : Nat) : (m.incref p).range = m.range := by
  rw [incref]
  split
  · rfl
  · split_ifs <;> rfl

end Pmm
end Orthox.Memory
