import Orthox.Memory.Teardown

/-! What each change of an x86-64 address space does to the account of its pages: mapping, unmapping, protecting, a copy
    on write, mapping the framebuffer, and the fork. None lets an address space hold more of a page than was
    added to the page's count; only the framebuffer, which has no count, is mapped without one. -/

namespace Orthox.Memory.Teardown
open List Option Slots

/-! ### What an edit adds -/

variable {n : Nat} {o : Option Pte} {path : List Nat}

/-- An allocated page has one reference, and it had none. -/
theorem alloc_gain {m : Pmm} (hok : m.Ok) (hne : (m.alloc 1).1 ≠ 0) (p : Nat) :
    (m.alloc 1).2.getRef p = m.getRef p + [(m.alloc 1).1].count p := by
  obtain ⟨-, -, hfree, href, -⟩ := (Pmm.alloc_spec hok 1).resolve_left fun h => hne h.1
  rw [href, count_page]
  simp only [Pmm.within_one]
  split_ifs with hp
  · rw [hok.free (hfree p (Pmm.within_one.mpr hp))]
  · rfl

@[simp]
theorem pad_holds (t : Slots) : ∀ n, (pad n t).held = t.held ∧ (pad n t).leaves = t.leaves ∧ (pad n t).tables = t.tables
  | 0 => ⟨rfl, rfl, rfl⟩
  | n + 1 => pad_holds t n

@[simp]
theorem holes_hold : ∀ n, (holes n).held = [] ∧ (holes n).leaves = [] ∧ (holes n).tables = []
  | 0 => ⟨rfl, rfl, rfl⟩
  | n + 1 => holes_hold n

/-- An edit of a table: the table holds at most the new leaf and newly allocated tables besides what it held. -/
structure Edited (m : Pmm) (t : Slots) (e : Pte) (r : Slots × Pmm) : Prop where
  later : m.Later [] r.2
  held : ∀ p, r.1.held.count p + m.getRef p ≤ t.held.count p + r.2.getRef p + e.frames.count p
  leaves : ∀ e' ∈ r.1.leaves, e' ∈ t.leaves ∨ e' = e
  tables : ∀ q ∈ r.1.tables, q ∈ t.tables ∨ m.Free q

namespace Edited
variable {m : Pmm} {t sub rest : Slots} {e e' : Pte} {r : Slots × Pmm} {page flags flags' : Nat}

theorem refl (hok : m.Ok) (t : Slots) (e : Pte) : Edited m t e (t, m) := 
  ⟨.refl hok _, fun _ => Nat.le_add_right _ _, fun _ => .inl, fun _ => .inl⟩

section
variable (h : Edited m rest e r)
include h

theorem hole : Edited m (.hole rest) e (.hole r.1, r.2) := ⟨h.later, h.held, h.leaves, h.tables⟩

theorem leaf : Edited m (.leaf e' rest) e (.leaf e' r.1, r.2) := by
  refine ⟨h.later, fun p => ?_, fun x hx => ?_, h.tables⟩
  · have := h.held p
    simp only [Slots.held, count_append]
    omega
  · rcases mem_cons.mp hx with rfl | hx
    · exact .inl mem_cons_self
    · exact (h.leaves x hx).imp_left (mem_cons_of_mem _)

theorem after : Edited m (.table page flags sub rest) e (.table page flags sub r.1, r.2) := by
  refine ⟨h.later, fun p => ?_, fun x hx => ?_, fun q hq => ?_⟩
  · have := h.held p
    simp only [Slots.held, count_cons, count_append]
    omega
  · rcases mem_append.mp hx with hx | hx
    · exact .inl (mem_append_left _ hx)
    · exact (h.leaves x hx).imp_left (mem_append_right _)
  · simp only [Slots.tables, mem_cons, mem_append] at hq ⊢
    have := h.tables q
    tauto

end

theorem below (h : Edited m sub e r) : Edited m (.table page flags sub rest) e (.table page flags' r.1 rest, r.2) := by
  refine ⟨h.later, fun p => ?_, fun x hx => ?_, fun q hq => ?_⟩
  · have := h.held p
    simp only [Slots.held, count_cons, count_append]
    omega
  · rcases mem_append.mp hx with hx | hx
    · exact (h.leaves x hx).imp_left (mem_append_left _)
    · exact .inl (mem_append_right _ hx)
  · simp only [Slots.tables, mem_cons, mem_append] at hq ⊢
    have := h.tables q
    tauto

/-- The leaf's own entry is written; what stood there is lost. -/
theorem entry (hok : m.Ok) (hheld : ∀ p, rest.held.count p ≤ t.held.count p) (hleaves : ∀ x ∈ rest.leaves, x ∈ t.leaves)
    (htables : ∀ q ∈ rest.tables, q ∈ t.tables) : Edited m t e (.leaf e rest, m) := by
  refine ⟨.refl hok _, fun p => ?_, fun x hx => ?_, fun q hq => .inl (htables q hq)⟩
  · have := hheld p
    simp only [Slots.held, count_append]
    omega
  · rcases mem_cons.mp hx with rfl | hx
    · exact .inr rfl
    · exact .inl (hleaves x hx)

/-- An allocation that found nothing. -/
theorem none (hok : m.Ok) (hz : (m.alloc 1).1 = 0) (t : Slots) (e : Pte) : Edited m t e (t, (m.alloc 1).2) := by
  obtain ⟨-, hsame⟩ := (Pmm.alloc_spec hok 1).resolve_right fun h => h.1 hz
  refine ⟨.alloc hok, fun p => ?_, fun _ => .inl, fun _ => .inl⟩
  rw [hsame.ref]
  exact Nat.le_add_right _ _

/-- A new table in the place of a hole. -/
theorem grow (hok : m.Ok) (hne : (m.alloc 1).1 ≠ 0) (h : Edited (m.alloc 1).2 .nil e r) :
    Edited m (.hole rest) e (.table (m.alloc 1).1 flags r.1 rest, r.2) := by
  have hlater := Pmm.Later.alloc hok
  refine ⟨hlater.trans h.later, fun p => ?_, fun x hx => ?_, fun q hq => ?_⟩
  · have := h.held p
    rw [alloc_gain hok hne] at this
    simp only [Slots.held, count_cons, count_append] at this ⊢
    omega
  · rcases mem_append.mp hx with hx | hx
    · exact (h.leaves x hx).imp_left fun hin => absurd hin not_mem_nil
    · exact .inl hx
  · rcases mem_cons.mp hq with rfl | hq
    · exact .inr (alloc_one hok hne).1
    rcases mem_append.mp hq with hq | hq
    · exact .inr (hlater.free q ((h.tables q hq).resolve_left not_mem_nil))
    · exact .inl hq

theorem padded (h : Edited m (.hole .nil) e r) : Edited m .nil e (pad n r.1, r.2) := by
  obtain ⟨hheld, hleaves, htables⟩ := pad_holds r.1 n
  exact ⟨h.later, fun p => hheld ▸ h.held p, fun x hx => h.leaves x (hleaves ▸ hx), fun q hq => h.tables q (htables ▸ hq)⟩

/-- The holes that follow do not matter. -/
theorem shorter (h : Edited m (.hole (holes n)) e r) : Edited m (.hole .nil) e r := by
  refine ⟨h.later, fun p => ?_, fun x hx => ?_, fun q hq => ?_⟩
  · simpa [Slots.held] using h.held p
  · simpa [Slots.leaves] using h.leaves x hx
  · simpa [Slots.tables] using h.tables q hq

end Edited

variable {e e' : Pte}

theorem newTable_edited {bits : Nat} : ∀ (path : List Nat) {m : Pmm}, m.Ok → Edited m .nil e (newTable e bits path m)
  | [], m, hok => .refl hok _ _
  | [i], m, hok => .padded (.entry hok (by simp) (by simp) (by simp))
  | i :: j :: path, m, hok => by
    rw [newTable]
    split_ifs with hz
    · have h := Edited.none hok hz .nil e
      exact ⟨h.later, fun p => by simpa [held] using h.held p, by simp, by simp⟩
    · exact (Edited.grow hok hz (newTable_edited (j :: path) (Pmm.alloc_ok hok 1))).shorter.padded

theorem mapAt_edited (e : Pte) (bits : Nat) (path : List Nat) {m : Pmm} (hok : m.Ok) (t : Slots) :
    Edited m t e (mapAt e bits path m t) := by
  fun_induction mapAt e bits path m t with
  | case1 i path m rest r ih => exact (ih hok).hole
  | case2 i path m e' rest r ih => exact (ih hok).leaf
  | case3 i path m page flags sub rest r ih => exact (ih hok).after
  | case4 m rest => exact .entry hok (fun p => le_rfl) (fun _ => id) fun _ => id
  | case5 m e' rest =>
    refine .entry hok (fun p => ?_) (fun x hx => mem_cons_of_mem _ hx) fun _ => id
    rw [held, count_append]
    exact Nat.le_add_left _ _
  | case6 m page flags sub rest =>
    refine .entry hok (fun p => ?_) (fun x hx => mem_append_right _ hx) fun q hq =>
      mem_cons_of_mem _ (mem_append_right _ hq)
    rw [held, count_cons, count_append]
    omega
  | case7 j path m rest a hz => exact .none hok hz _ e
  | case8 j path m rest a hne r => exact .grow hok hne (newTable_edited (j :: path) (Pmm.alloc_ok hok 1))
  | case9 j path m page flags sub rest r ih => exact (ih hok).below
  | case10 => exact .refl hok _ e

/-- The leaf of an address is replaced: the table holds its frames instead of the old one's. -/
theorem setAt_held (path : List Nat) (t : Slots) (h : leafAt path t = some e) :
    (∀ p, (setAt o path t).held.count p + e.frames.count p = t.held.count p + (o.elim [] Pte.frames).count p) ∧
    e ∈ t.leaves ∧ ∀ x ∈ (setAt o path t).leaves, x ∈ t.leaves ∨ o = some x := by
  fun_induction leafAt path t with
  | case1 i path rest ih => exact ih h
  | case2 i path e' rest ih =>
    obtain ⟨hheld, hmem, hleaves⟩ := ih h
    refine ⟨fun p => ?_, mem_cons_of_mem _ hmem, fun x hx => ?_⟩
    · have := hheld p
      simp only [setAt, held, count_append]
      omega
    · rcases mem_cons.mp hx with rfl | hx
      · exact .inl mem_cons_self
      · exact (hleaves x hx).imp_left (mem_cons_of_mem _)
  | case3 i path page flags sub rest ih =>
    obtain ⟨hheld, hmem, hleaves⟩ := ih h
    refine ⟨fun p => ?_, mem_append_right _ hmem, fun x hx => ?_⟩
    · have := hheld p
      simp only [setAt, held, count_cons, count_append]
      omega
    · rcases mem_append.mp hx with hx | hx
      · exact .inl (mem_append_left _ hx)
      · exact (hleaves x hx).imp_left (mem_append_right _)
  | case4 path e' rest =>
    obtain rfl := some.inj h
    refine ⟨fun p => ?_, mem_cons_self, fun x hx => ?_⟩
    · cases o with
      | none =>
        simp only [setAt, elim_none, held, count_append, count_nil]
        omega
      | some e =>
        simp only [setAt, elim_some, held, count_append]
        omega
    · cases o with
      | none => exact .inl (mem_cons_of_mem _ hx)
      | some e =>
        rcases mem_cons.mp hx with rfl | hx
        · exact .inr rfl
        · exact .inl (mem_cons_of_mem _ hx)
  | case5 path page flags sub rest ih =>
    obtain ⟨hheld, hmem, hleaves⟩ := ih h
    refine ⟨fun p => ?_, mem_append_left _ hmem, fun x hx => ?_⟩
    · have := hheld p
      simp only [setAt, held, count_cons, count_append]
      omega
    · rcases mem_append.mp hx with hx | hx
      · exact (hleaves x hx).imp_left (mem_append_left _)
      · exact .inl (mem_append_right _ hx)
  | case6 => cases h

theorem setAt_tables (path : List Nat) (t : Slots) : (setAt o path t).tables = t.tables := by
  fun_induction setAt o path t with
  | case1 _ _ _ ih | case2 _ _ _ _ ih => exact ih
  | case3 _ _ _ _ _ _ ih | case5 _ _ _ _ _ ih => rw [tables, ih, tables]
  | case4 path e rest => cases o <;> rfl
  | case6 => rfl

/-! ### The account of one address space -/

/-- The screen is none of the allocator's memory. -/
def Screen.Off (fb : Screen) (m : Pmm) : Prop := ∀ p, fb.Has p → m.Reserved p

/-- A leaf leads to one page off the screen, or to the screen. -/
def Sound (fb : Screen) (e : Pte) : Prop :=
  (e.pages = 1 ∧ ¬ fb.Has e.phys) ∨ (0 < e.pages ∧ e.cow = false ∧ ∀ p ∈ e.frames, fb.Has p)

/-- The tables are off the screen and the leaves are sound. -/
structure Clear (fb : Screen) (t : Slots) : Prop where
  leaves : ∀ e ∈ t.leaves, Sound fb e
  tables : ∀ q ∈ t.tables, ¬ fb.Has q

/-- An edit after which an address space holds no more than was added to the counts. -/
structure Kept (fb : Screen) (m : Pmm) (t : Slots) (r : Slots × Pmm) : Prop where
  ok : r.2.Ok
  reserved : ∀ p, m.Reserved p → r.2.Reserved p
  held : ∀ p, ¬ fb.Has p → r.1.held.count p + m.getRef p ≤ t.held.count p + r.2.getRef p
  clear : Clear fb t → Clear fb r.1

variable {m' : Pmm} {p : Nat} {l : List Nat} {t' : Slots}

theorem Pte.within_of_mem (h : p ∈ e.frames) (hn : e.pages ≤ n) : Pmm.Within e.phys n p := by
  obtain ⟨i, hi, rfl⟩ := mem_map.mp h
  have := mem_range.mp hi
  omega

theorem phys_mem_frames (h : 0 < e.pages) : e.phys ∈ e.frames := mem_map.mpr ⟨0, mem_range.mpr h, rfl⟩

variable {fb : Screen} {m : Pmm} {t : Slots}

theorem Kept.refl (hok : m.Ok) : Kept fb m t (t, m) := ⟨hok, fun _ => id, fun _ _ => le_rfl, id⟩

theorem Kept.trans {r r' : Slots × Pmm} (h : Kept fb m t r) (h' : Kept fb r.2 r.1 r') : Kept fb m t r' where
  ok := h'.ok
  reserved p hp := h'.reserved p (h.reserved p hp)
  held p hp := by
    have h₁ := h.held p hp
    have h₂ := h'.held p hp
    omega
  clear hs := h'.clear (h.clear hs)

/-- A page that was taken is not on the screen. -/
theorem off_screen (hfb : fb.Off m) (hp : m.Free p) : ¬ fb.Has p := fun h => (hfb p h).2 hp

/-- A sound leaf whose frames, off the screen, were counted when they were taken. -/
theorem Edited.kept {r : Slots × Pmm} (h : Edited m' t e r) (hlater : m.Later [] m') (hfb : fb.Off m) (hsound : Sound fb e)
    (hcount : ∀ p, ¬ fb.Has p → m.getRef p + e.frames.count p ≤ m'.getRef p) : Kept fb m t r := by
  refine ⟨h.later.ok, fun p hp => h.later.reserved p (hlater.reserved p hp), fun p hp => ?_, fun hs => ⟨fun x hx => ?_, fun q hq => ?_⟩⟩
  · have h₁ := h.held p
    have h₂ := hcount p hp
    omega
  · rcases h.leaves x hx with hx | rfl
    · exact hs.leaves x hx
    · exact hsound
  · rcases h.tables q hq with hq | hq
    · exact hs.tables q hq
    · exact off_screen hfb (hlater.free q hq)

/-- A new page is mapped. -/
theorem map_kept (hok : m.Ok) (hfb : fb.Off m) (hne : (m.alloc 1).1 ≠ 0) (w x : Bool) (bits : Nat) (path : List Nat) :
    Kept fb m t (mapAt ⟨(m.alloc 1).1, 1, w, false, x, true⟩ bits path (m.alloc 1).2 t) := by
  have hlater := Pmm.Later.alloc hok
  refine (mapAt_edited _ bits path hlater.ok t).kept hlater hfb (.inl ⟨rfl, off_screen hfb (alloc_one hok hne).1⟩) fun p _ => ?_
  rw [alloc_gain hok hne, Pte.frames_one rfl]

/-- A piece of the screen is mapped. -/
theorem screen_kept (hok : m.Ok) (hfb : fb.Off m) (hpages : 0 < e.pages) (hcow : e.cow = false)
    (hall : ∀ p ∈ e.frames, fb.Has p) (bits : Nat) (path : List Nat) : Kept fb m t (mapAt e bits path m t) := by
  refine (mapAt_edited e bits path hok t).kept (.refl hok _) hfb (.inr ⟨hpages, hcow, hall⟩) fun p hp => ?_
  rw [count_eq_zero_of_not_mem fun hin => hp (hall p hin), add_zero]

theorem vmmMapRange_kept : ∀ (turns va pa n : Nat) {m : Pmm} (t : Slots), m.Ok → fb.Off m →
    (∀ p, Pmm.Within pa n p → fb.Has p) → Kept fb m t (vmmMapRange turns va pa n m t)
  | 0, _, _, _, _, _, hok, _, _ => .refl hok
  | turns + 1, va, pa, n, m, t, hok, hfb, hall => by
    rw [vmmMapRange]
    split_ifs with hz hhuge
    · exact .refl hok
    · have h := screen_kept (t := t) hok hfb (e := ⟨pa, 512, true, false, true, true⟩) (Nat.succ_pos _) rfl
        (fun p hp => hall p (Pte.within_of_mem hp hhuge.1)) (tableBits true) ((indices va).take 3)
      exact h.trans (vmmMapRange_kept turns _ _ _ _ h.ok (fun p hp => h.reserved p (hfb p hp)) fun p hp => hall p (by omega))
    have h := screen_kept (t := t) hok hfb (e := ⟨pa, 1, true, false, true, true⟩) one_pos rfl
      (fun p hp => hall p (Pte.within_of_mem hp (Nat.pos_of_ne_zero hz))) (tableBits true) (indices va)
    exact h.trans (vmmMapRange_kept turns _ _ _ _ h.ok (fun p hp => h.reserved p (hfb p hp)) fun p hp => hall p (by omega))

/-- The leaf of an address is replaced or cleared, and the counts follow. -/
theorem setAt_kept (h : leafAt path t = some e) (hok : m'.Ok) (hres : ∀ p, m.Reserved p → m'.Reserved p)
    (hcount : ∀ p, ¬ fb.Has p → (o.elim [] Pte.frames).count p + m.getRef p ≤ e.frames.count p + m'.getRef p)
    (hsound : ∀ e', o = some e' → Sound fb e → Sound fb e') : Kept fb m t (setAt o path t, m') := by
  obtain ⟨hheld, hmem, hleaves⟩ := setAt_held (o := o) path t h
  refine ⟨hok, hres, fun p hp => ?_, fun hs => ⟨fun x hx => ?_, fun q hq => hs.tables q (setAt_tables path t ▸ hq)⟩⟩
  · have h₁ := hheld p
    have h₂ := hcount p hp
    dsimp only
    omega
  · rcases hleaves x hx with hx | hx
    · exact hs.leaves x hx
    · exact hsound x hx (hs.leaves e hmem)

theorem unmap_kept (hok : m.Ok) (h : leafAt path t = some e) (hpages : e.pages = 1) :
    Kept fb m t (setAt none path t, m.free e.phys 1) := by
  refine setAt_kept h (Pmm.free_ok hok _ _) (fun p hp => hp.free _ _) (fun p _ => ?_) nofun
  rw [Pte.frames_one hpages, lost_ref (.page m e.phys), elim_none, count_nil]
  omega

/-- `vm_cow_protect_page` keeps the frames of a leaf and marks only counted pages. -/
theorem protectPage_same {w x : Bool} (h : vmCowProtectPage m (some e) w x = some e') :
    e'.phys = e.phys ∧ e'.pages = e.pages ∧ (e.cow = false → m.getRef e.phys = 0 → e'.cow = false) := by
  obtain rfl := some.inj h
  have harch : (archVmProtectPage e (w && !(w && (e.cow || vmCowPageShared m e.phys))) x).phys = e.phys ∧
      (archVmProtectPage e (w && !(w && (e.cow || vmCowPageShared m e.phys))) x).pages = e.pages := by
    unfold archVmProtectPage
    split_ifs <;> exact ⟨rfl, rfl⟩
  dsimp only
  split_ifs with hcow
  · refine ⟨harch.1, harch.2, fun hc hz => ?_⟩
    simp [hc, vmCowPageShared, hz] at hcow
  · exact ⟨harch.1, harch.2, fun _ _ => rfl⟩

/-- Other bits on the same frames. -/
theorem Sound.same (hfb : fb.Off m) (h : Sound fb e) (hphys : e'.phys = e.phys) (hpages : e'.pages = e.pages)
    (hcow : e.cow = false → m.getRef e.phys = 0 → e'.cow = false) : Sound fb e' := by
  rcases h with ⟨hone, hoff⟩ | ⟨hpos, hc, hall⟩
  · exact .inl ⟨hpages.trans hone, hphys ▸ hoff⟩
  · refine .inr ⟨hpages ▸ hpos, hcow hc (hfb _ (hall _ (phys_mem_frames hpos))).1, ?_⟩
    rwa [Pte.frames, hphys, hpages]

theorem protect_kept (hok : m.Ok) (hfb : fb.Off m) {w x : Bool}
    (h : vmCowProtectPage m (leafAt path t) w x = some e) : Kept fb m t (setAt (some e) path t, m) := by
  rcases hleaf : leafAt path t with - | e'
  · rw [hleaf] at h
    cases h
  rw [hleaf] at h
  obtain ⟨hphys, hpages, hcow⟩ := protectPage_same h
  refine setAt_kept hleaf hok (fun _ => id) (fun p _ => ?_) fun x hx hs => ?_
  · rw [elim_some, Pte.frames, Pte.frames, hphys, hpages]
  · exact some.inj hx ▸ hs.same hfb hphys hpages hcow

theorem fault_kept {r : Ram} (hok : r.pmm.Ok) (hfb : fb.Off r.pmm)
    (hs : ∀ e ∈ t.leaves, Sound fb e) (h : leafAt path t = some e) :
    ∃ e' r', (vmCowWriteFault r (some e)).2 = (some e', r') ∧ Kept fb r.pmm t (setAt (some e') path t, r'.pmm) := by
  have hself : ∀ {x : Pte} {m' : Pmm}, r.pmm.Same m' → x.phys = e.phys → x.pages = e.pages → (e.cow = false → x.cow = false) →
      Kept fb r.pmm t (setAt (some x) path t, m') := by
    intro x m' hsame hphys hpages hcow
    refine setAt_kept h (hsame.ok hok) (fun p hp => ⟨(hsame.ref p).trans hp.1, fun hf => hp.2 ((hsame.free p).mp hf)⟩) (fun p _ => ?_)
      fun y hy hsound => some.inj hy ▸ hsound.same hfb hphys hpages fun hc _ => hcow hc
    rw [elim_some, Pte.frames, Pte.frames, hphys, hpages, hsame.ref]
  rcases writeFault_cases r e with ⟨-, heq⟩ | ⟨-, -, heq⟩ | ⟨-, -, hz, heq⟩ | ⟨hcow, -, hne, heq⟩
  · exact ⟨e, r, by rw [heq], hself (.refl _) rfl rfl id⟩
  · exact ⟨e.mkwrite e.phys, r, by rw [heq], hself (.refl _) rfl rfl fun _ => rfl⟩
  · refine ⟨e, _, by rw [heq], hself ?_ rfl rfl id⟩
    exact ((Pmm.alloc_spec hok e.pages).resolve_right fun hr => hr.1 hz).2
  obtain ⟨-, hmem, -⟩ := setAt_held (o := some e) path t h
  have hone : e.pages = 1 := by
    rcases hs e hmem with ⟨hone, -⟩ | ⟨-, hc, -⟩
    · exact hone
    · rw [hc] at hcow
      cases hcow
  rw [hone] at hne heq
  have hlater := Pmm.Later.alloc hok
  refine ⟨_, _, by rw [heq], setAt_kept h (Pmm.free_ok hlater.ok _ _) (fun p hp => (hlater.reserved p hp).free _ _) (fun p _ => ?_) ?_⟩
  · have hfree := lost_ref (.page (r.pmm.alloc 1).2 e.phys) p
    rw [elim_some, Pte.frames_one hone, Pte.frames_one (e := e.mkwrite _) hone]
    dsimp only [Pte.mkwrite]
    rw [hfree, alloc_gain hok hne]
    omega
  · rintro x hx -
    obtain rfl := some.inj hx
    exact .inl ⟨hone, off_screen hfb (alloc_one hok hne).1⟩

/-! ### The account of a fork -/

/-- What copying a table does to the counts: each page the copy holds gained a reference. -/
structure Shared (fb : Screen) (m : Pmm) (t : Slots) (c : Copy) : Prop where
  src : c.src.held = t.held
  frames : c.dst.frames = t.frames
  tables : c.src.tables = t.tables
  marked : ∀ e ∈ c.src.leaves, Sound fb e
  copied : ∀ e ∈ c.dst.leaves, Sound fb e
  ref : ∀ p, ¬ fb.Has p → c.pmm.getRef p = m.getRef p + c.dst.held.count p

/-- Off the screen a leaf has one frame. -/
theorem Sound.count (hs : Sound fb e) (hp : ¬ fb.Has p) : e.frames.count p = [e.phys].count p := by
  rcases hs with ⟨hone, -⟩ | ⟨hpos, -, hall⟩
  · rw [Pte.frames_one hone]
  · have hne : e.phys ≠ p := fun heq => hp (heq ▸ hall _ (phys_mem_frames hpos))
    rw [count_eq_zero_of_not_mem fun hin => hp (hall p hin), count_page, if_neg hne.symm]

/-- Off the screen a table holds the tables below it and one frame for each leaf. -/
theorem held_count (hp : ¬ fb.Has p) : ∀ {t : Slots}, (∀ e ∈ t.leaves, Sound fb e) →
    t.held.count p = t.tables.count p + t.frames.count p
  | .nil, _ => rfl
  | .hole rest, hs => held_count hp (t := rest) hs
  | .leaf e rest, hs => by
    have hrest := held_count hp fun x hx => hs x (mem_cons_of_mem _ hx)
    have hframes := (hs e mem_cons_self).count hp
    simp only [held, tables, frames, leaves, map_cons, count_append, count_cons, hframes, count_nil] at hrest ⊢
    omega
  | .table page flags sub rest, hs => by
    have hsub := held_count hp fun x hx => hs x (mem_append_left _ hx)
    have hrest := held_count hp fun x hx => hs x (mem_append_right _ hx)
    simp only [held, tables, frames, leaves, map_append, count_append, count_cons] at hsub hrest ⊢
    omega

/-- The leaves of a table lead to counted pages or to the screen. -/
theorem Sound.backed (hfb : fb.Off m) (hs : Sound fb e) (hcount : ¬ fb.Has e.phys → m.getRef e.phys ≠ 0) : e.Backed m := by
  rcases hs with ⟨hone, hoff⟩ | ⟨hpos, -, hall⟩
  · exact .inl ⟨hcount hoff, hone⟩
  · exact .inr (hfb _ (hall _ (phys_mem_frames hpos)))

theorem shareLeaf_shared (hfb : fb.Off m) (hs : Sound fb e) (hcount : ¬ fb.Has e.phys → m.getRef e.phys ≠ 0)
    (hmax : ¬ fb.Has e.phys → m.getRef e.phys < 65535) : let s := vmCowShareLeaf m e e.pages
    s.1.phys = e.phys ∧ s.1.pages = e.pages ∧ Sound fb s.1 ∧ ∀ p, ¬ fb.Has p → s.2.getRef p = m.getRef p + e.frames.count p := by
  rcases hs with ⟨hone, hoff⟩ | ⟨hpos, hcow, hall⟩
  · have hc := hcount hoff
    have hmark : (if e.writable then e.mkcow else e).phys = e.phys ∧ (if e.writable then e.mkcow else e).pages = e.pages := by
      split_ifs
      · exact ⟨rfl, rfl⟩
      · exact ⟨rfl, rfl⟩
    have hshare : vmCowShareLeaf m e e.pages = (if e.writable then e.mkcow else e, m.incref e.phys) := by
      simp only [vmCowShareLeaf, if_neg hc, hone, range_one, foldl_cons, foldl_nil, hmark.1, add_zero]
    rw [hshare]
    refine ⟨hmark.1, hmark.2, .inl ⟨hmark.2.trans hone, hmark.1 ▸ hoff⟩, fun p _ => ?_⟩
    rw [(Pmm.incref_spec hc (hmax hoff)).1, Pte.frames_one hone, count_page]
    split_ifs with hp
    · rw [hp]
    · rfl
  · have hz := (hfb _ (hall _ (phys_mem_frames hpos))).1
    rw [vmCowShareLeaf, if_pos hz]
    refine ⟨rfl, rfl, .inr ⟨hpos, hcow, hall⟩, fun p hp => ?_⟩
    rw [count_eq_zero_of_not_mem fun hin => hp (hall p hin), add_zero]

/-- The pages of a table off the screen are counted, with room for a reference more for each leaf. -/
def Roomy (fb : Screen) (m : Pmm) (t : Slots) : Prop :=
  ∀ p, ¬ fb.Has p → p ∈ t.frames → m.getRef p ≠ 0 ∧ m.getRef p + t.frames.count p ≤ 65535

theorem Roomy.backed (h : Roomy fb m t) (hfb : fb.Off m) (hs : ∀ e ∈ t.leaves, Sound fb e) : ∀ e ∈ t.leaves, e.Backed m :=
  fun e he => (hs e he).backed hfb fun hoff => (h _ hoff (mem_map_of_mem he)).1

theorem Roomy.sublist (h : Roomy fb m t) (hsub : t'.frames.Sublist t.frames) : Roomy fb m t' := by
  intro p hp hin
  obtain ⟨hc, hle⟩ := h p hp (hsub.mem hin)
  have := hsub.count_le p
  exact ⟨hc, by omega⟩

/-- Room is left for the other leaves once some have been shared. -/
theorem Roomy.rest (h : Roomy fb m t) (hframes : t.frames = l ++ t'.frames)
    (href : ∀ p, ¬ fb.Has p → m.getRef p ≠ 0 → m'.getRef p = m.getRef p + l.count p) : Roomy fb m' t' := by
  intro p hp hin
  obtain ⟨hc, hle⟩ := h p hp (hframes ▸ mem_append_right _ hin)
  rw [hframes, count_append] at hle
  rw [href p hp hc]
  exact ⟨by omega, by omega⟩

namespace Shared
variable {c : Copy} {rest sub : Slots} {r : Copy}

theorem leaf {e e' : Pte} (hphys : e'.phys = e.phys) (hpages : e'.pages = e.pages) (hsound : Sound fb e')
    (href : ∀ p, ¬ fb.Has p → m'.getRef p = m.getRef p + e.frames.count p) (h : Shared fb m' rest r) :
    Shared fb m (.leaf e rest) ⟨.leaf e' r.dst, .leaf e' r.src, r.pmm, r.wrote⟩ := by
  have hframes : e'.frames = e.frames := by rw [Pte.frames, hphys, hpages, Pte.frames]
  refine ⟨?_, ?_, h.tables, ?_, ?_, fun p hp => ?_⟩
  · rw [held, held, hframes, h.src]
  · exact congrArg₂ cons hphys h.frames
  · intro x hx
    rcases mem_cons.mp hx with rfl | hx
    · exact hsound
    · exact h.marked x hx
  · intro x hx
    rcases mem_cons.mp hx with rfl | hx
    · exact hsound
    · exact h.copied x hx
  · have h₁ := h.ref p hp
    have h₂ := href p hp
    simp only [held, hframes, count_append]
    omega

theorem table {page flags flags' q : Nat} (hq : ∀ p, m'.getRef p = m.getRef p + [q].count p) (hc : Shared fb m' sub c)
    (hr : Shared fb c.pmm rest r) :
    Shared fb m (.table page flags sub rest) ⟨.table q flags c.dst r.dst, .table page flags' c.src r.src, r.pmm, l⟩ := by
  refine ⟨?_, ?_, ?_, ?_, ?_, fun p hp => ?_⟩
  · rw [held, held, hc.src, hr.src]
  · rw [frames_table, frames_table, hc.frames, hr.frames]
  · rw [Slots.tables, Slots.tables, hc.tables, hr.tables]
  · intro x hx
    exact (mem_append.mp hx).elim (hc.marked x) (hr.marked x)
  · intro x hx
    exact (mem_append.mp hx).elim (hc.copied x) (hr.copied x)
  · have h₁ := hr.ref p hp
    have h₂ := hc.ref p hp
    have h₃ := hq p
    simp only [held, count_cons, count_append, count_nil] at h₃ ⊢
    omega

end Shared

theorem copyEntries_shared : ∀ {m : Pmm} (t : Slots), m.Ok → fb.Off m → (∀ e ∈ t.leaves, Sound fb e) →
    Roomy fb m t → t.tables.length ≤ m.freeCount → Shared fb m t (copyEntries m t)
  | m, .nil, _, _, _, _, _ => ⟨rfl, rfl, rfl, nofun, nofun, fun _ _ => rfl⟩
  | m, .hole rest, hok, hfb, hs, hroom, hlen => by
    obtain ⟨hsrc, hframes, htables, hmarked, hcopied, href⟩ := copyEntries_shared rest hok hfb hs hroom hlen
    exact ⟨hsrc, hframes, htables, hmarked, hcopied, href⟩
  | m, .leaf e rest, hok, hfb, hs, hroom, hlen => by
    have hse := hs e mem_cons_self
    have hsr : ∀ x ∈ rest.leaves, Sound fb x := fun x hx => hs x (mem_cons_of_mem _ hx)
    have hme : ¬ fb.Has e.phys → m.getRef e.phys ≠ 0 ∧ m.getRef e.phys < 65535 := by
      intro hoff
      obtain ⟨hc, hle⟩ := hroom e.phys hoff mem_cons_self
      rw [frames, leaves, map_cons, count_cons_self] at hle
      exact ⟨hc, by omega⟩
    obtain ⟨hphys, hpages, hsound, href⟩ := shareLeaf_shared hfb hse (fun h => (hme h).1) fun h => (hme h).2
    obtain ⟨-, hlater, hfree⟩ := shareLeaf_spec hok (hroom.backed hfb hs e mem_cons_self)
    have hroom' : Roomy fb (vmCowShareLeaf m e e.pages).2 rest :=
      hroom.rest (l := [e.phys]) rfl fun p hp _ => (href p hp).trans (by rw [hse.count hp])
    exact .leaf hphys hpages hsound href
      (copyEntries_shared rest hlater.ok (fun p hp => hlater.reserved p (hfb p hp)) hsr hroom' (hlen.trans_eq hfree.symm))
  | m, .table page flags sub rest, hok, hfb, hs, hroom, hlen => by
    rw [tables, length_cons, length_append] at hlen
    obtain ⟨hzero, hcount⟩ := Pmm.alloc_count hok
    have hne : (m.alloc 1).1 ≠ 0 := fun hz => by have := hzero.mp hz; omega
    have hlater := Pmm.Later.alloc hok
    have hfb' : fb.Off (m.alloc 1).2 := fun p hp => hlater.reserved p (hfb p hp)
    have hss : ∀ x ∈ sub.leaves, Sound fb x := fun x hx => hs x (mem_append_left _ hx)
    have hsr : ∀ x ∈ rest.leaves, Sound fb x := fun x hx => hs x (mem_append_right _ hx)
    -- a counted page is none of the tables taken for the copy
    have hkeep : ∀ p, m.getRef p ≠ 0 → (m.alloc 1).2.getRef p = m.getRef p := fun p hp =>
      hlater.keep p (fun hf => hp (hok.free hf)) not_mem_nil
    have hframes := frames_table page flags sub rest
    have hpart : Roomy fb m sub := hroom.sublist (hframes ▸ sublist_append_left _ _)
    have hsub : Roomy fb (m.alloc 1).2 sub := hpart.rest (l := []) rfl fun p _ hp => hkeep p hp
    have hc := copyEntries_shared sub hlater.ok hfb' hss hsub (by omega)
    have hcopied := copyEntries_spec sub hlater.ok (hsub.backed hfb' hss)
    obtain ⟨hleft', -, hfresh⟩ := hcopied.enough (by omega)
    have hrest : Roomy fb (copyEntries (m.alloc 1).2 sub).pmm rest := by
      refine hroom.rest hframes fun p hoff hp => ?_
      have hnot : p ∉ (copyEntries (m.alloc 1).2 sub).dst.tables := fun hin =>
        hp (hok.free (hlater.free p (hfresh p hin).1))
      rw [hc.ref p hoff, held_count hoff hc.copied, count_eq_zero_of_not_mem hnot, hc.frames, hkeep p hp, zero_add]
    exact .table (alloc_gain hok hne) hc (copyEntries_shared rest hcopied.later.ok
      (fun p hp => hcopied.later.reserved p (hfb' p hp)) hsr hrest (by omega))

end Orthox.Memory.Teardown
