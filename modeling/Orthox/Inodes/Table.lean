import Mathlib

/-! The table of inodes in memory (`itable` of `kernel/xv6fs.c`). `xv6fs_iget` takes a slot for an inode that has none and
    asserts that one is free. Slots are held by the open files of all processes and by the calls that are under way, so
    the assertion is about all of them together: it fires when 512 other inodes are held. -/

namespace Orthox.Inodes
open List Function Option Finset

/-- `XV6FS_NINODE` -/
def ninode : Nat := 512

/-- `MAX_FDS` -/
def maxFds : Nat := 256

/-- `struct xv6fs_inode`, as far as the table goes. -/
structure Slot where
  inum : Nat
  ref : Nat

section
variable {n : Nat}

abbrev Table (n : Nat) := Fin n → Slot

/-- `xv6fs_iget`; `none` is the failed assertion. -/
def xv6fsIget (t : Table n) (i : Nat) : Option (Fin n × Table n) :=
  match (finRange n).find? fun k => 0 < (t k).ref ∧ (t k).inum = i with
  | some k => some (k, update t k { t k with ref := (t k).ref + 1 })
  | none => ((finRange n).find? fun k => (t k).ref = 0).map fun k => (k, update t k ⟨i, 1⟩)

/-- What `xv6fs_iput_try` does to the table. -/
def xv6fsIput (t : Table n) (k : Fin n) : Table n := update t k { t k with ref := (t k).ref - 1 }

/-- Who holds an inode: a descriptor of a process, or a call of it that is under way. -/
inductive Holder where
  | fd (process : Nat) (n : Fin maxFds)
  | call (process : Nat)
  deriving DecidableEq

/-- A reference: whose it is, to which inode, and where that is. -/
structure Ref (n : Nat) where
  holder : Holder
  inum : Nat
  slot : Fin n
  deriving DecidableEq

structure Sys (n : Nat) where
  table : Table n
  held : List (Ref n)

namespace Sys

/-- The inodes that are held. -/
def inodes (s : Sys n) : Finset Nat := (s.held.map Ref.inum).toFinset

/-- A holder takes an inode, or gives one back; a descriptor is for one file. -/
inductive Step : Sys n → Sys n → Prop
  | get {s h i k t} : (∀ r ∈ s.held, r.holder = h → ∃ p, h = .call p) → xv6fsIget s.table i = some (k, t) →
      Step s ⟨t, ⟨h, i, k⟩ :: s.held⟩
  | put {s r} : r ∈ s.held → Step s ⟨xv6fsIput s.table r.slot, s.held.erase r⟩

/-- The states after boot. -/
inductive Reaches : Sys n → Prop
  | boot : Reaches ⟨fun _ => ⟨0, 0⟩, []⟩
  | step {s s'} : Reaches s → Step s s' → Reaches s'

/-- Every reference is counted in its slot, and no inode has two slots. -/
structure Inv (s : Sys n) : Prop where
  inum : ∀ r ∈ s.held, (s.table r.slot).inum = r.inum
  ref : ∀ k, (s.table k).ref = s.held.countP (·.slot = k)
  one : ∀ r ∈ s.held, ∀ q ∈ s.held, q.inum = r.inum → q.slot = r.slot

variable {s : Sys n} {i : Nat}

theorem Inv.pos (h : s.Inv) {k : Fin n} : 0 < (s.table k).ref ↔ ∃ r ∈ s.held, r.slot = k := by
  rw [h.ref]
  simp

/-- What `xv6fs_iget` does: one reference more, in the slot of the inode, which is its old one or was free. -/
theorem iget_some {t t' : Table n} {k : Fin n} (h : xv6fsIget t i = some (k, t')) :
    t' = update t k ⟨i, (t k).ref + 1⟩ ∧ (0 < (t k).ref → (t k).inum = i) ∧
      ((t k).ref = 0 → ∀ j, 0 < (t j).ref → (t j).inum ≠ i) := by
  rw [xv6fsIget] at h
  rcases hfind : (finRange n).find? fun k => 0 < (t k).ref ∧ (t k).inum = i with _ | j
  · rw [hfind] at h
    obtain ⟨j, hj, heq⟩ := map_eq_some_iff.1 h
    obtain ⟨rfl, rfl⟩ := Prod.mk.inj heq
    have hfree : (t j).ref = 0 := by simpa using find?_some hj
    refine ⟨by rw [hfree], fun hpos => absurd hfree hpos.ne', fun _ j hpos hi => ?_⟩
    exact of_decide_eq_false (Bool.eq_false_of_not_eq_true (find?_eq_none.1 hfind j (mem_finRange j))) ⟨hpos, hi⟩
  · rw [hfind] at h
    obtain ⟨rfl, rfl⟩ := Prod.mk.inj (some.inj h)
    obtain ⟨hpos, hi⟩ : 0 < (t j).ref ∧ (t j).inum = i := by simpa using find?_some hfind
    exact ⟨by rw [← hi], fun _ => hi, fun hz => absurd hz hpos.ne'⟩

theorem iget_none {t : Table n} : xv6fsIget t i = none ↔ ∀ k, 0 < (t k).ref ∧ (t k).inum ≠ i := by
  rw [xv6fsIget]
  constructor
  · intro h k
    rcases hfind : (finRange n).find? fun k => 0 < (t k).ref ∧ (t k).inum = i with _ | j
    · rw [hfind] at h
      have hall := find?_eq_none.1 (map_eq_none_iff.1 h) k (mem_finRange k)
      have hpos : 0 < (t k).ref := Nat.pos_of_ne_zero fun hz => hall (decide_eq_true hz)
      exact ⟨hpos, fun hi => find?_eq_none.1 hfind k (mem_finRange k) (decide_eq_true ⟨hpos, hi⟩)⟩
    · rw [hfind] at h
      cases h
  · intro h
    have hnone : (finRange n).find? (fun k => 0 < (t k).ref ∧ (t k).inum = i) = none :=
      find?_eq_none.2 fun k _ hk => (h k).2 (of_decide_eq_true hk).2
    rw [hnone]
    exact map_eq_none_iff.2 (find?_eq_none.2 fun k _ hk => (h k).1.ne' (of_decide_eq_true hk))

theorem Inv.step {s s' : Sys n} (h : s.Inv) (hs : Step s s') : s'.Inv := by
  cases hs with
  | @get g i k t _ hget =>
    obtain ⟨rfl, hold, hnew⟩ := iget_some hget
    -- the slot that was taken is the one of every older reference to the inode
    have hslot : ∀ q ∈ s.held, q.inum = i → q.slot = k := fun q hq hi => by
      have hq' := h.pos.2 ⟨q, hq, rfl⟩
      rcases Nat.eq_zero_or_pos (s.table k).ref with hz | hp
      · exact absurd ((h.inum q hq).trans hi) (hnew hz _ hq')
      · obtain ⟨r, hr, rfl⟩ := h.pos.1 hp
        exact h.one r hr q hq (hi.trans ((hold hp).symm.trans (h.inum r hr)))
    refine ⟨forall_mem_cons.2 ⟨?_, fun r hr => ?_⟩, fun j => ?_, forall_mem_cons.2 ⟨?_, fun r hr => ?_⟩⟩
    · dsimp only
      rw [update_self]
    · dsimp only
      rcases eq_or_ne r.slot k with hk | hk
      · rw [hk, update_self, ← h.inum r hr, hk]
        exact (hold (h.pos.2 ⟨r, hr, hk⟩)).symm
      · rw [update_of_ne hk, h.inum r hr]
    · dsimp only
      rw [countP_cons, ← h.ref]
      rcases eq_or_ne j k with rfl | hk
      · rw [update_self, if_pos (decide_eq_true rfl)]
      · rw [update_of_ne hk, if_neg (by simpa using hk.symm), add_zero]
    · exact forall_mem_cons.2 ⟨fun _ => rfl, hslot⟩
    · exact forall_mem_cons.2 ⟨fun hi => (hslot r hr hi.symm).symm, h.one r hr⟩
  | @put r hr =>
    have hsub : ∀ q ∈ s.held.erase r, q ∈ s.held := fun q hq => mem_of_mem_erase hq
    refine ⟨fun q hq => ?_, fun j => ?_, fun q hq q' hq' => h.one q (hsub q hq) q' (hsub q' hq')⟩
    · rw [← h.inum q (hsub q hq)]
      exact apply_update (fun _ => Slot.inum) _ _ _ _ |>.trans (congrFun (update_eq_self _ _) _)
    · dsimp only
      rw [countP_erase, ← h.ref, xv6fsIput]
      rcases eq_or_ne j r.slot with rfl | hj
      · rw [update_self, if_pos ⟨hr, decide_eq_true rfl⟩]
      · rw [update_of_ne hj, if_neg fun hk => hj (of_decide_eq_true hk.2).symm, Nat.sub_zero]

theorem Reaches.inv (h : Reaches s) : s.Inv := by
  induction h with
  | boot => exact ⟨nofun, fun _ => rfl, nofun⟩
  | step _ hs ih => exact ih.step hs

theorem Inv.mem_inodes (h : s.Inv) : i ∈ s.inodes ↔ ∃ k, 0 < (s.table k).ref ∧ (s.table k).inum = i := by
  rw [inodes, List.mem_toFinset, List.mem_map]
  constructor
  · rintro ⟨r, hr, rfl⟩
    exact ⟨r.slot, h.pos.2 ⟨r, hr, rfl⟩, h.inum r hr⟩
  · rintro ⟨k, hpos, rfl⟩
    obtain ⟨r, hr, rfl⟩ := h.pos.1 hpos
    exact ⟨r, hr, (h.inum r hr).symm⟩

/-- The assertion fires when every slot is taken by another inode. -/
theorem Inv.fires_iff (h : s.Inv) (i : Nat) : xv6fsIget s.table i = none ↔ i ∉ s.inodes ∧ s.inodes.card = n := by
  obtain ⟨busy, hb⟩ : ∃ busy, busy = (univ : Finset (Fin n)).filter fun k => 0 < (s.table k).ref := ⟨_, rfl⟩
  have hmem : ∀ k, k ∈ busy ↔ 0 < (s.table k).ref := fun k => by rw [hb, mem_filter_univ]
  have hcard : s.inodes.card = busy.card := by
    have himage : s.inodes = busy.image fun k => (s.table k).inum := by
      ext j
      simp only [h.mem_inodes, mem_image, hmem]
    rw [himage, card_image_of_injOn]
    intro j hj k hk heq
    obtain ⟨r, hr, rfl⟩ := h.pos.1 ((hmem j).1 hj)
    obtain ⟨q, hq, rfl⟩ := h.pos.1 ((hmem k).1 hk)
    exact h.one q hq r hr ((h.inum r hr).symm.trans (heq.trans (h.inum q hq)))
  rw [iget_none, hcard, h.mem_inodes]
  constructor
  · intro hall
    refine ⟨fun ⟨k, _, hi⟩ => (hall k).2 hi, ?_⟩
    rw [eq_univ_of_forall fun k => (hmem k).2 (hall k).1, card_univ, Fintype.card_fin]
  · rintro ⟨hno, hfull⟩ k
    have hbusy : busy = univ := eq_univ_of_card busy (hfull.trans (card_fin _).symm)
    have hpos : 0 < (s.table k).ref := (hmem k).1 (hbusy ▸ mem_univ k)
    exact ⟨hpos, fun hi => hno ⟨k, hpos, hi⟩⟩

/-- CORRECT while the files that are open and the calls under way, of all processes together, hold fewer than 512
    inodes: the assertion of `xv6fs_iget` fires exactly when 512 others are held. -/
theorem iget_fires_iff {s : Sys ninode} (hs : Reaches s) (i : Nat) :
    xv6fsIget s.table i = none ↔ i ∉ s.inodes ∧ s.inodes.card = ninode := hs.inv.fires_iff i

/-- At boot nothing is held, and the root directory gets a slot. -/
theorem iget_fires_iff_boot : (xv6fsIget (fun _ => ⟨0, 0⟩ : Table ninode) 1).isSome = true :=
  isSome_iff_ne_none.2 fun hfire => absurd ((iget_fires_iff .boot 1).1 hfire).2 (by decide)

/-- CORRECT: a slot counts the references to it, and two slots in use are for two inodes. -/
theorem slots_exact (hs : Reaches s) : (∀ k, (s.table k).ref = s.held.countP (·.slot = k)) ∧
    {k | 0 < (s.table k).ref}.InjOn fun k => (s.table k).inum := by
  have h := hs.inv
  refine ⟨h.ref, fun j hj k hk heq => ?_⟩
  obtain ⟨r, hr, rfl⟩ := h.pos.1 hj
  obtain ⟨q, hq, rfl⟩ := h.pos.1 hk
  exact h.one q hq r hr ((h.inum r hr).symm.trans (heq.trans (h.inum q hq)))

theorem slots_exact_one : ∃ s : Sys 1, s.held ≠ [] ∧ (s.table 0).ref = s.held.countP (·.slot = 0) :=
  ⟨_, cons_ne_nil _ _, (slots_exact (.step .boot (.get (h := .call 0) (i := 1) nofun rfl))).1 0⟩

/-! ### Too many open files -/

theorem Reaches.get {s : Sys ninode} (hs : Reaches s) {g : Holder} (hfree : ∀ r ∈ s.held, r.holder = g → ∃ p, g = .call p)
    (hroom : s.inodes.card < ninode) (i : Nat) : ∃ k t, Reaches ⟨t, ⟨g, i, k⟩ :: s.held⟩ := by
  rcases hget : xv6fsIget s.table i with _ | ⟨k, t⟩
  · exact absurd ((hs.inv.fires_iff i).1 hget).2 hroom.ne
  · exact ⟨k, t, hs.step (.get hfree hget)⟩

/-- The descriptor of the `j`th file, when one process after the other opens as many as it can. -/
def nthFd (j : Nat) : Holder := .fd (j / maxFds) ⟨j % maxFds, Nat.mod_lt _ (by decide)⟩

theorem nthFd_inj {j : Nat} (h : nthFd i = nthFd j) : i = j := by
  obtain ⟨hdiv, hmod⟩ := Holder.fd.inj h
  rw [← Nat.div_add_mod i maxFds, hdiv, Fin.mk.inj hmod, Nat.div_add_mod]

/-- Files 2, 3, … are opened one after the other, each with a look into the root directory, inode 1. -/
theorem many_open : ∀ m < ninode, ∃ s : Sys ninode, Reaches s ∧ s.inodes = Finset.Ico 2 (m + 2) ∧
    ∀ r ∈ s.held, ∃ j < m, r.holder = nthFd j
  | 0, _ => ⟨_, .boot, rfl, nofun⟩
  | m + 1, hm => by
    obtain ⟨s, hs, hin, hheld⟩ := many_open m (Nat.lt_of_succ_lt hm)
    have hcard : s.inodes.card = m := by rw [hin, Nat.card_Ico, Nat.add_sub_cancel]
    obtain ⟨k, t, hroot⟩ := hs.get (fun r _ _ => ⟨_, rfl⟩ : ∀ r ∈ s.held, r.holder = .call 0 → _) (by omega) 1
    have hcard' : (⟨t, ⟨.call 0, 1, k⟩ :: s.held⟩ : Sys ninode).inodes.card < ninode := by
      refine lt_of_le_of_lt ?_ hm
      rw [inodes, List.map_cons, toFinset_cons, ← hcard]
      exact card_insert_le _ _
    have hfree : ∀ r ∈ (⟨.call 0, 1, k⟩ :: s.held : List (Ref ninode)), r.holder = nthFd m → ∃ p, nthFd m = .call p := by
      intro r hr heq
      rcases mem_cons.1 hr with rfl | hr
      · exact ⟨0, heq.symm⟩
      · obtain ⟨j, hj, hfd⟩ := hheld r hr
        exact absurd (nthFd_inj (hfd.symm.trans heq)) hj.ne
    obtain ⟨k', t', hfile⟩ := hroot.get hfree hcard' (m + 2)
    have hput := hfile.step (.put (mem_cons_of_mem _ mem_cons_self))
    rw [erase_cons_tail (by simp [nthFd]), erase_cons_head] at hput
    refine ⟨_, hput, ?_, ?_⟩
    · rw [inodes, List.map_cons, toFinset_cons, Nat.Ico_succ_right_eq_insert_Ico (by omega), ← hin]
      rfl
    · intro r hr
      rcases mem_cons.1 hr with rfl | hr
      · exact ⟨m, Nat.lt_succ_self m, rfl⟩
      · obtain ⟨j, hj, hfd⟩ := hheld r hr
        exact ⟨j, Nat.lt_succ_of_lt hj, hfd⟩

/-- INCORRECT in general: two processes have 511 files open, the second one of them 255, and opens one more. The root directory
    takes the last slot, and the file finds none. -/
theorem not_never_fires : ∃ s : Sys ninode, Reaches s ∧
    (∀ r ∈ s.held, (∃ p < 2, ∃ n, r.holder = .fd p n) ∨ r.holder = .call 1) ∧ xv6fsIget s.table 513 = none := by
  obtain ⟨s, hs, hin, hheld⟩ := many_open 511 (by decide)
  have hcard : s.inodes.card = 511 := by rw [hin, Nat.card_Ico]
  obtain ⟨k, t, hroot⟩ := hs.get (fun r _ _ => ⟨_, rfl⟩ : ∀ r ∈ s.held, r.holder = .call 1 → _) (by rw [hcard]; decide) 1
  have hall : (⟨t, ⟨.call 1, 1, k⟩ :: s.held⟩ : Sys ninode).inodes = insert 1 (Finset.Ico 2 513) := by
    rw [inodes, List.map_cons, toFinset_cons, ← hin]
    rfl
  refine ⟨_, hroot, fun r hr => ?_, (hroot.inv.fires_iff 513).2 ?_⟩
  · rcases mem_cons.1 hr with rfl | hr
    · exact .inr rfl
    · obtain ⟨j, hj, hfd⟩ := hheld r hr
      exact .inl ⟨j / maxFds, Nat.div_lt_of_lt_mul (by unfold maxFds; omega), _, hfd⟩
  · rw [hall, card_insert_of_notMem (by simp), Nat.card_Ico]
    exact ⟨by simp, rfl⟩

end Sys
end
end Orthox.Inodes
