import Orthox.Memory.Edits
import Orthox.Schemes.Holders

/-! The account over runs of all processes: what the address spaces hold of a page is at most its count. So the
    assertions of `vmm_free_user_pml4` hold in every run and it gives back what the address space holds, unless a
    page of the framebuffer is mapped there. -/

namespace Orthox.Memory.Teardown
open List Function Option Finset

variable {fb : Screen}

/-! ### The account of all -/

section machine
variable {A : Type} [Fintype A] {s s' : Machine A}

/-- How often the address spaces hold a page. -/
def Machine.total (s : Machine A) (p : Nat) : Nat := ∑ a, ((s.space a).elim [] Space.held).count p

/-- An address space that is off the screen, its own mappings of the screen apart. -/
structure Space.Clear (fb : Screen) (sp : Space) : Prop where
  root : ¬ fb.Has sp.root
  top : Teardown.Clear fb sp.top

/-- The allocator counts what the address spaces hold, and the screen is not its own. -/
structure Inv (fb : Screen) (s : Machine A) : Prop where
  ok : s.ram.pmm.Ok
  screen : ∀ p, fb.Has p → s.ram.pmm.Reserved p
  clear : ∀ {a sp}, s.space a = some sp → Space.Clear fb sp
  total : ∀ p, ¬ fb.Has p → s.total p ≤ s.ram.pmm.getRef p

variable {a : A} {sp : Space}

/-- What one address space holds is part of what all hold. -/
theorem held_le_total (ha : s.space a = some sp) (p : Nat) : sp.held.count p ≤ s.total p := by
  have := single_le_sum (f := fun a => ((s.space a).elim [] Space.held).count p) (fun _ _ => Nat.zero_le _) (mem_univ a)
  rwa [ha] at this

section
variable (h : Inv fb s)
include h

theorem Inv.held_le (ha : s.space a = some sp) {p : Nat} (hp : ¬ fb.Has p) : sp.held.count p ≤ s.ram.pmm.getRef p :=
  (held_le_total ha p).trans (h.total p hp)

/-- The allocator changes where no address space looks. -/
theorem Inv.elsewhere {m : Pmm} (hok : m.Ok) (hres : ∀ p, s.ram.pmm.Reserved p → m.Reserved p)
    (hcount : ∀ p, ¬ fb.Has p → s.total p ≤ m.getRef p) : Inv fb (s.setPmm m) :=
  ⟨hok, fun p hp => hres p (h.screen p hp), h.clear, hcount⟩

theorem Inv.allocate (n : Nat) : Inv fb (s.setPmm (s.ram.pmm.alloc n).2) := by
  refine h.elsewhere (Pmm.alloc_ok h.ok n) (fun p hp => hp.alloc h.ok n) fun p hp => (h.total p hp).trans ?_
  rcases Pmm.alloc_spec h.ok n with ⟨-, hsame⟩ | ⟨-, -, hfree, href, -⟩
  · exact (hsame.ref p).ge
  rw [href]
  split_ifs with hin
  · rw [h.ok.free (hfree p hin)]
    exact Nat.zero_le 1
  · exact le_rfl

theorem Inv.give {pa n : Nat} (hall : Ev.Allowed s (.give pa n)) : Inv fb (s.setPmm (s.ram.pmm.free pa n)) := by
  refine h.elsewhere (Pmm.free_ok h.ok _ _) (fun p hp => hp.free _ _) fun p hp => ?_
  rw [(s.ram.pmm.free_spec pa n).1]
  split_ifs with hin
  · have hzero : s.total p = 0 := by
      refine sum_eq_zero fun a _ => ?_
      rcases ha : s.space a with - | sp
      · rfl
      · exact count_eq_zero_of_not_mem fun hp' => hall a sp ha p hp' hin
    omega
  · exact h.total p hp

/-! ### The teardown in a run -/

/-- Without the screen in it an address space is released. -/
theorem Inv.released (ha : s.space a = some sp) (hoff : Space.OffScreen fb sp) :
    ∃ m, vmmFreeUserPml4 s.ram.pmm sp = some m ∧ Released fb s.ram.pmm sp m := by
  obtain ⟨hroot, hclear⟩ := h.clear ha
  have hpages : ∀ e ∈ sp.top.leaves, e.pages = 1 := by
    intro e he
    rcases hclear.leaves e he with ⟨hone, -⟩ | ⟨hpos, -, hall⟩
    · exact hone
    · exact absurd (hall _ (phys_mem_frames hpos)) (hoff e he)
  have hheld : ∀ p ∈ sp.held, ¬ fb.Has p := by
    intro p hp
    rcases mem_cons.mp hp with rfl | hp
    · exact hroot
    rcases mem_held.mp hp with hp | ⟨e, he, hp⟩
    · exact hclear.tables p hp
    · rw [Pte.frames_one (hpages e he), List.mem_singleton] at hp
      exact hp ▸ hoff e he
  have hcount : ∀ p, sp.held.count p ≤ s.ram.pmm.getRef p := by
    intro p
    by_cases hp : p ∈ sp.held
    · exact h.held_le ha (hheld p hp)
    · rw [count_eq_zero_of_not_mem hp]
      exact Nat.zero_le _
  obtain ⟨m, hm, hlost⟩ := freeEntries_spec sp.top hpages fun p => (count_le_count_cons).trans (hcount p)
  have hall : s.ram.pmm.Lost (m.free sp.root 1) [] sp.held :=
    (hlost.trans (.page m sp.root)).perm (.refl _) (perm_append_singleton _ _)
  refine ⟨_, by rw [vmmFreeUserPml4, hm]; rfl, hall, fun p _ => hcount p, fun p hp => ⟨fun hin => hheld p hin hp, ?_⟩⟩
  exact hall.reserved (h.screen p hp) not_mem_nil

theorem Inv.stops {e : Pte} (he : e ∈ sp.top.leaves) (hfb : fb.Has e.phys) : vmmFreeUserPml4 s.ram.pmm sp = none := by
  rw [vmmFreeUserPml4, freeEntries_stops sp.top he (h.screen _ hfb).1]
  rfl

/-- The parent's pages are counted, and a fork leaves room on them. -/
theorem Inv.roomy (ha : s.space a = some sp) (hfit : s.ram.pmm.Fits sp.top.frames) : Roomy fb s.ram.pmm sp.top := by
  intro p hp hin
  have hle := h.held_le ha hp
  have hcount := held_count hp (h.clear ha).top.leaves
  have hpos := count_pos_iff.mpr hin
  rw [Space.held, count_cons] at hle
  have hc : s.ram.pmm.getRef p ≠ 0 := by omega
  exact ⟨hc, hfit p hc⟩

end

variable [DecidableEq A]

theorem total_setSpace (s : Machine A) (a : A) (o : Option Space) (p : Nat) :
    (s.setSpace a o).total p + ((s.space a).elim [] Space.held).count p = s.total p + (o.elim [] Space.held).count p := by
  unfold Machine.total Machine.setSpace
  rw [← add_sum_erase _ _ (mem_univ a), ← add_sum_erase univ (fun b => ((s.space b).elim [] Space.held).count p) (mem_univ a)]
  dsimp only
  rw [update_self]
  have hrest : ∑ b ∈ univ.erase a, ((update s.space a o b).elim [] Space.held).count p =
      ∑ b ∈ univ.erase a, ((s.space b).elim [] Space.held).count p :=
    sum_congr rfl fun b hb => by rw [update_of_ne (ne_of_mem_erase hb)]
  omega

section
variable (h : Inv fb s)
include h

/-- One address space is replaced, and the counts follow. -/
theorem Inv.replace {o : Option Space} {r : Ram} (hok : r.pmm.Ok) (hres : ∀ p, s.ram.pmm.Reserved p → r.pmm.Reserved p)
    (hclear : ∀ {sp}, o = some sp → Space.Clear fb sp)
    (hcount : ∀ p, ¬ fb.Has p → (o.elim [] Space.held).count p + s.ram.pmm.getRef p ≤
      ((s.space a).elim [] Space.held).count p + r.pmm.getRef p) : Inv fb ({ s with ram := r }.setSpace a o) := by
  refine ⟨hok, fun p hp => hres p (h.screen p hp), fun {b sp} hb => ?_, fun p hp => ?_⟩
  · rcases Schemes.update_cases hb with ⟨-, hb⟩ | ⟨-, hb⟩
    · exact hclear hb
    · exact h.clear hb
  · have h₁ := total_setSpace { s with ram := r } a o p
    have h₂ := hcount p hp
    have h₃ := h.total p hp
    change _ + ((s.space a).elim [] Space.held).count p = s.total p + _ at h₁
    change _ ≤ r.pmm.getRef p
    omega

theorem Inv.editWith (ha : s.space a = some sp) {t : Slots} {r : Ram}
    (hk : Kept fb s.ram.pmm sp.top (t, r.pmm)) : Inv fb ({ s with ram := r }.setSpace a (some { sp with top := t })) := by
  refine h.replace hk.ok hk.reserved ?_ fun p hp => ?_
  · rintro _ ⟨⟩
    exact ⟨(h.clear ha).root, hk.clear (h.clear ha).top⟩
  · have := hk.held p hp
    simp only [ha, elim_some, Space.held, count_cons] at this ⊢
    omega

theorem Inv.create (ha : s.space a = none) (hne : (s.ram.pmm.alloc 1).1 ≠ 0) :
    Inv fb ((s.setPmm (s.ram.pmm.alloc 1).2).setSpace a (some ⟨(s.ram.pmm.alloc 1).1, holes 256⟩)) := by
  refine h.replace (Pmm.alloc_ok h.ok 1) (fun p hp => hp.alloc h.ok 1) ?_ fun p hp => ?_
  · rintro _ ⟨⟩
    exact ⟨off_screen h.screen (alloc_one h.ok hne).1, by simp, by simp⟩
  · rw [alloc_gain h.ok hne]
    simp only [elim_some, Space.held, holes_hold]
    omega

theorem Inv.destroy (ha : s.space a = some sp) {m : Pmm} (hm : vmmFreeUserPml4 s.ram.pmm sp = some m) :
    Inv fb ((s.setPmm m).setSpace a none) := by
  have hoff : Space.OffScreen fb sp := by
    intro e he hfb
    rw [h.stops he hfb] at hm
    cases hm
  obtain ⟨m', hm', hrel⟩ := h.released ha hoff
  obtain rfl := some.inj (hm'.symm.trans hm)
  refine h.replace (hrel.lost.ok h.ok nofun) (fun p hp => hrel.lost.reserved hp not_mem_nil) nofun fun p _ => ?_
  rw [ha, lost_ref hrel.lost, elim_none, elim_some, count_nil]
  omega

theorem Inv.fork {b : A} (ha : s.space a = some sp) (hb : s.space b = none)
    (hall : Ev.Allowed s (.fork a b)) : let c := vmmCopyPml4 s.ram.pmm ⟨sp.top, s.kernel⟩
    Inv fb (((s.setPmm c.pmm).setSpace b (if c.ret = 0 then none else some ⟨c.ret, c.new.user⟩)).setSpace a
      (some { sp with top := c.old.user })) := by
  intro c
  have hab : a ≠ b := by
    rintro rfl
    rw [ha] at hb
    cases hb
  have hclear := h.clear ha
  -- the child first: its tables and pages are what the counts gained
  have hchild : Inv fb ((s.setPmm c.pmm).setSpace b (if c.ret = 0 then none else some ⟨c.ret, c.new.user⟩)) ∧
      c.old.user.held = sp.top.held ∧ Clear fb c.old.user := by
    obtain ⟨hmem, hfit⟩ := hall sp ha
    obtain ⟨-, hcount⟩ := Pmm.alloc_count h.ok
    have hlater := Pmm.Later.alloc h.ok
    by_cases hz : (s.ram.pmm.alloc 1).1 = 0
    · have hc : c = ⟨0, ⟨.nil, .nil⟩, ⟨sp.top, s.kernel⟩, (s.ram.pmm.alloc 1).2, []⟩ := if_pos hz
      rw [hc]
      refine ⟨(h.allocate 1).replace (Pmm.alloc_ok h.ok 1) (fun _ => id) nofun fun p _ => ?_, rfl, hclear.top⟩
      exact Nat.add_le_add_right (Nat.zero_le _) _
    have hc : c = ⟨(s.ram.pmm.alloc 1).1, ⟨(copyEntries (s.ram.pmm.alloc 1).2 sp.top).dst, s.kernel⟩,
        ⟨(copyEntries (s.ram.pmm.alloc 1).2 sp.top).src, s.kernel⟩, (copyEntries (s.ram.pmm.alloc 1).2 sp.top).pmm,
        (s.ram.pmm.alloc 1).1 :: (copyEntries (s.ram.pmm.alloc 1).2 sp.top).wrote⟩ := if_neg hz
    have hlen : sp.top.tables.length ≤ (s.ram.pmm.alloc 1).2.freeCount := by omega
    have hfb' : ∀ p, fb.Has p → (s.ram.pmm.alloc 1).2.Reserved p := fun p hp => hlater.reserved p (h.screen p hp)
    have hroom : Roomy fb (s.ram.pmm.alloc 1).2 sp.top := (h.roomy ha hfit).rest (l := []) rfl fun p _ hp =>
      hlater.keep p (fun hf => hp (h.ok.free hf)) not_mem_nil
    have hshared := copyEntries_shared sp.top hlater.ok hfb' hclear.top.leaves hroom hlen
    have hcopied := copyEntries_spec sp.top hlater.ok (hroom.backed hfb' hclear.top.leaves)
    obtain ⟨-, -, hfresh⟩ := hcopied.enough hlen
    rw [hc]
    refine ⟨h.replace hcopied.later.ok (fun p hp => hcopied.later.reserved p (hlater.reserved p hp)) ?_ fun p hp => ?_,
      hshared.src, hshared.marked, hshared.tables ▸ hclear.top.tables⟩
    · rw [if_neg hz]
      rintro _ ⟨⟩
      exact ⟨off_screen h.screen (alloc_one h.ok hz).1, hshared.copied, fun q hq => off_screen h.screen (hlater.free q (hfresh q hq).1)⟩
    · have hgain := alloc_gain h.ok hz p
      have href := hshared.ref p hp
      rw [if_neg hz]
      simp only [elim_some, Space.held, count_cons] at hgain ⊢
      omega
  obtain ⟨hinv, hheld, hold⟩ := hchild
  refine hinv.replace hinv.ok (fun _ => id) ?_ fun p _ => ?_
  · rintro _ ⟨⟩
    exact ⟨hclear.root, hold⟩
  · have hkeep : ((s.setPmm c.pmm).setSpace b (if c.ret = 0 then none else some ⟨c.ret, c.new.user⟩)).space a = some sp :=
      (update_of_ne hab _ _).trans ha
    rw [hkeep]
    simp only [elim_some, Space.held, hheld]
    exact le_rfl

/-- Every event keeps the account. -/
theorem Inv.step {e : Ev A} (hall : e.Allowed s) (hs : s.step fb e = some s') : Inv fb s' := by
  cases e with
  | create a =>
    obtain ⟨hnone, hs⟩ := ite_none_left_eq_some.mp hs
    obtain rfl := some.inj hs
    split_ifs with hz
    · exact h.allocate 1
    · exact h.create (not_isSome_iff_eq_none.mp hnone) hz
  | map a va w x =>
    obtain ⟨sp, ha, hs⟩ := bind_eq_some_iff.mp hs
    obtain ⟨-, rfl⟩ := Schemes.guarded hs
    split_ifs with hz
    · exact h.allocate 1
    · exact h.editWith ha (map_kept h.ok h.screen hz w x _ _)
  | unmap a va =>
    obtain ⟨sp, ha, rfl⟩ := map_eq_some_iff.mp hs
    split
    · exact h
    next e he =>
    split_ifs with hpages
    · exact h.editWith ha (unmap_kept h.ok he hpages)
    · exact h
  | protect a va w x =>
    obtain ⟨sp, ha, rfl⟩ := map_eq_some_iff.mp hs
    split
    · exact h
    · next e he => exact h.editWith ha (protect_kept h.ok h.screen he)
  | fault a va =>
    obtain ⟨sp, ha, rfl⟩ := map_eq_some_iff.mp hs
    rcases hleaf : leafAt (indices va) sp.top with - | e
    · exact h
    obtain ⟨e', r, heq, hk⟩ := fault_kept h.ok h.screen (h.clear ha).top.leaves hleaf
    obtain ⟨f, hf⟩ : ∃ f, vmCowWriteFault s.ram (some e) = (f, some e', r) := ⟨_, Prod.ext rfl heq⟩
    rw [hf]
    exact h.editWith ha hk
  | fork a b =>
    obtain ⟨sp, ha, hs⟩ := bind_eq_some_iff.mp hs
    obtain ⟨hnone, hs⟩ := ite_none_left_eq_some.mp hs
    exact some.inj hs ▸ h.fork ha (not_isSome_iff_eq_none.mp hnone) hall
  | framebuffer a =>
    obtain ⟨sp, ha, rfl⟩ := map_eq_some_iff.mp hs
    exact h.editWith ha (vmmMapRange_kept _ _ _ _ _ h.ok h.screen fun _ => id)
  | destroy a =>
    obtain ⟨sp, ha, hs⟩ := bind_eq_some_iff.mp hs
    obtain ⟨m, hm, rfl⟩ := map_eq_some_iff.mp hs
    exact h.destroy ha hm
  | take n => exact some.inj hs ▸ h.allocate n
  | give pa n => exact some.inj hs ▸ h.give hall

end

theorem Reaches.inv (h : Reaches fb s) : Inv fb s := by
  induction h with
  | boot hok hfb hnone =>
    refine ⟨hok, hfb, fun {a sp} ha => ?_, fun p _ => ?_⟩
    · rw [hnone a] at ha
      cases ha
    · rw [Machine.total, Finset.sum_eq_zero fun a _ => by rw [hnone a]; rfl]
      exact Nat.zero_le _
  | step _ hall hs ih => exact ih.step hall hs

/-- CORRECT but for the framebuffer: in every run an address space is released page by page, without an assertion in
    the way, exactly if no page of the framebuffer is mapped in it. -/
theorem teardown_safe_iff (h : Reaches fb s) {a : A} {sp : Space} (ha : s.space a = some sp) :
    (∃ m, vmmFreeUserPml4 s.ram.pmm sp = some m ∧ Released fb s.ram.pmm sp m) ↔ Space.OffScreen fb sp := by
  constructor
  · rintro ⟨m, hm, -⟩ e he hfb
    rw [h.inv.stops he hfb] at hm
    cases hm
  · exact h.inv.released ha

/-! ### A run with the framebuffer -/

/-- The machine after the events. -/
def Machine.run (fb : Screen) (s : Machine A) : List (Ev A) → Option (Machine A)
  | [] => some s
  | e :: es => (s.step fb e).bind (·.run fb es)

omit [Fintype A] in
theorem run_reaches {es : List (Ev A)} (h : Reaches fb s) (hs : s.run fb es = some s') (hall : ∀ s : Machine A, ∀ e ∈ es, e.Allowed s) :
    Reaches fb s' := by
  induction es generalizing s with
  | nil => exact some.inj hs ▸ h
  | cons e es ih =>
    obtain ⟨s₁, hstep, hs⟩ := bind_eq_some_iff.mp hs
    exact ih (h.step (hall s e mem_cons_self) hstep) hs fun s e he => hall s e (mem_cons_of_mem _ he)

end machine

/-- Eight free pages, and a framebuffer of two pages above them. -/
def Screen.two : Screen := ⟨100, 2⟩

def Machine.boot : Machine Unit := ⟨⟨.leaving 8, fun _ _ => 0⟩, .nil, fun _ => none⟩

theorem boot_reaches : Reaches .two .boot := by
  refine .boot (Pmm.leaving_ok 8) (fun p hp => ?_) fun _ => rfl
  have hout : ¬ (Pmm.leaving 8).Managed p := fun hm => by
    have := hp.1
    have := hm.2
    dsimp only [Screen.two, Pmm.leaving] at *
    omega
  refine ⟨?_, fun hf => hout (Pmm.free_iff.mp hf).1⟩
  change (Pmm.leaving 8).getRef p = 0
  rw [Pmm.getRef_eq, if_neg hout]

instance (fb : Screen) (sp : Space) : Decidable (Space.OffScreen fb sp) := inferInstanceAs (Decidable (∀ e ∈ _, _))

theorem teardown_safe_page : ∃ s sp, Reaches Screen.two s ∧ s.space () = some sp ∧ sp.top.leaves.length = 1 ∧
    ∃ m, vmmFreeUserPml4 s.ram.pmm sp = some m ∧ Released Screen.two s.ram.pmm sp m := by
  obtain ⟨s, hs, hsp⟩ := map_eq_some_iff.mp
    (show (Machine.boot.run .two [.create (), .map () 5 true false]).map (fun s => (s.space ()).map fun sp =>
      (decide (sp.top.leaves.length = 1), decide (Space.OffScreen .two sp))) = some (some (true, true)) by decide +kernel)
  obtain ⟨sp, ha, hoff⟩ := map_eq_some_iff.mp hsp
  obtain ⟨hlen, hoff⟩ := Prod.mk.inj hoff
  have hreach := run_reaches boot_reaches hs fun _ => by simp [Ev.Allowed]
  exact ⟨s, sp, hreach, ha, of_decide_eq_true hlen, (teardown_safe_iff hreach ha).mpr (of_decide_eq_true hoff)⟩

/-- INCORRECT in general: a process that has mapped the framebuffer cannot end, because the assertion of
    `vmm_free_user_pml4` stops the kernel at the first leaf of the framebuffer. -/
theorem framebuffer_user_stops_kernel : ∃ s sp, Reaches Screen.two s ∧ s.space () = some sp ∧ vmmFreeUserPml4 s.ram.pmm sp = none ∧
    s.step Screen.two (.destroy ()) = none := by
  obtain ⟨s, hs, hsp⟩ := map_eq_some_iff.mp
    (show (Machine.boot.run .two [.create (), .framebuffer ()]).map (fun s => (s.space ()).map fun sp =>
      (vmmFreeUserPml4 s.ram.pmm sp).isNone) = some (some true) by decide +kernel)
  obtain ⟨sp, ha, hnone⟩ := map_eq_some_iff.mp hsp
  have hstop := isNone_iff_eq_none.mp hnone
  refine ⟨s, sp, run_reaches boot_reaches hs (fun _ => by simp [Ev.Allowed]), ha, hstop, ?_⟩
  simp only [Machine.step, ha, bind_some, hstop, map_none]

end Orthox.Memory.Teardown
