import Orthox.Memory.Cow
import Orthox.Schemes.Holders

/-! Isolation of address spaces under copy-on-write. The count of a mapped page is the number of leaves
    that map it, so a leaf that may write is the only one; then what a process reads through its leaves is
    the memory it believes it has. Each helper call keeps this, so every interleaving of them does. -/

namespace Orthox.Memory
open Schemes Function Option Pmm Sys

/-! ### The invariant -/

/-- A leaf of a page the allocator counts: only the sole owner may write. -/
structure Owned (m : Pmm) (e : Pte) : Prop where
  ref : m.getRef e.phys ≠ 0
  pages : e.pages = 1
  alone : e.writable = true → m.getRef e.phys = 1
  cow : e.cow = true → e.writable = false

/-- A leaf of device memory. -/
structure Device (m : Pmm) (e : Pte) : Prop where
  pages : 0 < e.pages
  frames : ∀ i < e.pages, m.Reserved (e.phys + i)
  cow : e.cow = false

variable {e : Pte} {m : Pmm}

theorem Device.ref (h : Device m e) : m.getRef e.phys = 0 := (h.frames 0 h.pages).1

theorem Device.not_free (h : Device m e) : ¬ m.Free e.phys := (h.frames 0 h.pages).2

section
variable (h : Owned m e ∨ Device m e)
include h

/-- A leaf stays what it is when its count does and device memory stays reserved. -/
theorem leaf_stays {m' : Pmm} (hres : ∀ pa, m.Reserved pa → m'.Reserved pa)
    (href : m.getRef e.phys ≠ 0 → m'.getRef e.phys = m.getRef e.phys) : Owned m' e ∨ Device m' e := by
  rcases h with h | h
  · have heq := href h.ref
    exact .inl ⟨heq.symm ▸ h.ref, h.pages, fun hw => heq.trans (h.alone hw), h.cow⟩
  · exact .inr ⟨h.pages, fun i hi => hres _ (h.frames i hi), h.cow⟩

/-- Freeing the pages of a leaf takes one reference from its frame and none from any other counted frame. -/
theorem free_leaf (pa : Nat) : (m.free e.phys e.pages).getRef pa = if pa = e.phys then m.getRef pa - 1 else m.getRef pa := by
  rw [(free_spec m e.phys e.pages).1]
  rcases h with h | h
  · rw [h.pages]
    split_ifs <;> first | rfl | omega
  have hz : Pmm.Within e.phys e.pages pa → m.getRef pa = 0 := by
    rintro ⟨hle, hlt⟩
    have := (h.frames (pa - e.phys) (by omega)).1
    rwa [show e.phys + (pa - e.phys) = pa by omega] at this
  have hself := h.ref
  split_ifs with h₁ h₂ h₃
  · rfl
  · have := hz h₁
    omega
  · rw [h₃, hself]
  · rfl

/-- `vm_cow_protect_page` gives write access only to a page that is not shared. -/
theorem protect_leaf (w x : Bool) :
    ∃ e', vmCowProtectPage m (some e) w x = some e' ∧ e'.phys = e.phys ∧ (Owned m e' ∨ Device m e') := by
  refine ⟨_, rfl, ?_⟩
  dsimp only [vmCowProtectPage]
  rcases h with h | h
  · rw [archVmProtectPage, if_pos h.pages]
    rcases hcow : (w && (e.cow || vmCowPageShared m e.phys)) with - | -
    · refine ⟨rfl, .inl ⟨h.ref, h.pages, fun hw => ?_, Bool.noConfusion⟩⟩
      have hshared : ¬ m.getRef e.phys > 1 := by
        intro hgt
        rw [show w from (Bool.and_eq_true _ _ ▸ hw).1, vmCowPageShared, decide_eq_true hgt, Bool.or_true] at hcow
        cases hcow
      have := h.ref
      exact le_antisymm (not_lt.mp hshared) (Nat.pos_of_ne_zero this)
    · exact ⟨rfl, .inl ⟨h.ref, h.pages, Bool.noConfusion, fun _ => rfl⟩⟩
  · have hcow : (w && (e.cow || vmCowPageShared m e.phys)) = false := by
      rw [h.cow, vmCowPageShared, h.ref]
      simp
    rw [hcow, if_neg Bool.false_ne_true, archVmProtectPage]
    split
    · exact ⟨rfl, .inr ⟨h.pages, h.frames, rfl⟩⟩
    · exact ⟨rfl, .inr ⟨h.pages, h.frames, rfl⟩⟩

end

variable {A V : Type} {s : Sys A V} {own : A × V → Page}

/-- The frame each leaf starts at. -/
def Sys.frame (s : Sys A V) (k : A × V) : Option Nat := (s.leaf k).map Pte.phys

variable {k : A × V}

theorem Sys.frame_of (h : s.leaf k = some e) : s.frame k = some e.phys := by
  rw [frame, h]
  rfl

variable [Fintype A] [Fintype V]

theorem exists_leaf {p : Nat} (h : holders s.frame p ≠ 0) : ∃ k e, s.leaf k = some e ∧ e.phys = p := by
  obtain ⟨k, hk⟩ : ∃ k, s.frame k = some p := by
    by_contra hno
    exact h (holders_eq_zero (not_exists.mp hno))
  obtain ⟨e, he, hp⟩ := map_eq_some_iff.mp hk
  exact ⟨k, e, he, hp⟩

/-- Every leaf is owned or device memory, the count of a mapped page is the number of leaves that map it, and a
    process reads what it believes it has. -/
structure Inv (s : Sys A V) (own : A × V → Page) : Prop where
  ok : s.ram.pmm.Ok
  leaves : ∀ {k e}, s.leaf k = some e → Owned s.ram.pmm e ∨ Device s.ram.pmm e
  count : ∀ {p}, s.ram.pmm.getRef p ≠ 0 → holders s.frame p ≠ 0 → s.ram.pmm.getRef p = holders s.frame p
  reads : ∀ {k e}, s.leaf k = some e → s.ram.pmm.getRef e.phys ≠ 0 → s.ram.mem e.phys = own k

section
variable (h : Inv s own)
include h

variable {e' : Pte}

/-- Two leaves of one counted page. -/
theorem Inv.two {k' : A × V} (hk : s.leaf k = some e) (hk' : s.leaf k' = some e') (hne : k ≠ k')
    (hp : e.phys = e'.phys) (href : s.ram.pmm.getRef e.phys ≠ 0) : 1 < s.ram.pmm.getRef e.phys := by
  have hpos := holders_pos (frame_of hk)
  rw [h.count href (ne_of_gt hpos)]
  by_contra hle
  exact hne (holder_unique (not_lt.mp hle) (frame_of hk) (hp ▸ frame_of hk'))

/-- A mapped page that is counted was counted before, if device memory stays reserved. -/
theorem Inv.counted_before (hres : ∀ pa, s.ram.pmm.Reserved pa → m.Reserved pa)
    (hk : s.leaf k = some e) (href : m.getRef e.phys ≠ 0) : s.ram.pmm.getRef e.phys ≠ 0 := by
  rcases h.leaves hk with ho | hd
  · exact ho.ref
  · exact absurd (hres _ (hd.frames 0 hd.pages)).1 href

/-- No leaf starts at a free frame. -/
theorem Inv.free_unmapped {p : Nat} (hp : s.ram.pmm.Free p) (hk : s.leaf k = some e) : e.phys ≠ p := by
  rintro rfl
  rcases h.leaves hk with ho | hd
  · exact ho.ref (h.ok.free hp)
  · exact hd.not_free hp

/-- The allocator may change where no leaf looks: the counts of mapped pages stay, and reserved frames are kept. -/
theorem Inv.elsewhere (hok : m.Ok) (hres : ∀ pa, s.ram.pmm.Reserved pa → m.Reserved pa)
    (href : ∀ {k e}, s.leaf k = some e → m.getRef e.phys = s.ram.pmm.getRef e.phys) :
    Inv { s with ram := { s.ram with pmm := m } } own := by
  refine ⟨hok, fun hk => leaf_stays (h.leaves hk) hres fun _ => href hk, fun {p} hp hh => ?_, fun hk hp => ?_⟩
  · obtain ⟨k, e, he, rfl⟩ := exists_leaf hh
    have heq := href he
    rw [heq] at hp
    exact heq.trans (h.count hp hh)
  · exact h.reads hk (by rwa [href hk] at hp)

/-- A leaf other than the dropped one stays what it is. -/
theorem Inv.other_stays {k' : A × V} (hk : s.leaf k = some e) (hk' : s.leaf k' = some e') (hne : k' ≠ k)
    (hres : ∀ pa, s.ram.pmm.Reserved pa → m.Reserved pa) (href : s.ram.pmm.getRef e'.phys ≠ 0 →
      m.getRef e'.phys = if e'.phys = e.phys then s.ram.pmm.getRef e'.phys - 1 else s.ram.pmm.getRef e'.phys) :
    Owned m e' ∨ Device m e' := by
  rcases eq_or_ne e'.phys e.phys with hp | hp
  · rcases h.leaves hk' with ho | hd
    · have htwo := h.two hk' hk hne hp ho.ref
      have heq := href ho.ref
      rw [if_pos hp] at heq
      refine .inl ⟨by omega, ho.pages, fun hw => ?_, ho.cow⟩
      have := ho.alone hw
      omega
    · exact .inr ⟨hd.pages, fun i hi => hres _ (hd.frames i hi), hd.cow⟩
  · refine leaf_stays (h.leaves hk') hres fun hr => ?_
    rw [href hr, if_neg hp]

end

/-! ### One event -/

variable [DecidableEq A] [DecidableEq V]

/-- How the number of leaves of a page changes when one leaf is replaced. -/
theorem frame_update (k : A × V) (r : Ram) (o : Option Pte) (p : Nat) :
    holders (frame ⟨r, update s.leaf k o⟩) p + (if s.frame k = some p then 1 else 0) =
      holders s.frame p + (if o.map Pte.phys = some p then 1 else 0) := by
  have heq : frame ⟨r, update s.leaf k o⟩ = update s.frame k (o.map Pte.phys) := by
    funext j
    unfold frame
    rcases eq_or_ne j k with rfl | hne
    · simp
    · simp only [update_of_ne hne]
  rw [heq, holders_update]

/-- One leaf is replaced: what the others are and read, what the new one is and reads, and how many leaves a counted
    page then has. -/
theorem inv_replace (s : Sys A V) (own : A × V → Page) {o : Option Pte} {r : Ram} {x : Page} (hok : r.pmm.Ok)
    (hothers : ∀ {k' e}, k' ≠ k → s.leaf k' = some e →
      (Owned r.pmm e ∨ Device r.pmm e) ∧ (r.pmm.getRef e.phys ≠ 0 → r.mem e.phys = own k'))
    (hnew : ∀ {e}, o = some e → (Owned r.pmm e ∨ Device r.pmm e) ∧ (r.pmm.getRef e.phys ≠ 0 → r.mem e.phys = x))
    (hcount : ∀ p n, n + (if s.frame k = some p then 1 else 0) = holders s.frame p + (if o.map Pte.phys = some p then 1 else 0) →
      r.pmm.getRef p ≠ 0 → n ≠ 0 → r.pmm.getRef p = n) : Inv ⟨r, update s.leaf k o⟩ (update own k x) := by
  have hboth : ∀ {k' e}, update s.leaf k o k' = some e →
      (Owned r.pmm e ∨ Device r.pmm e) ∧ (r.pmm.getRef e.phys ≠ 0 → r.mem e.phys = update own k x k') := by
    intro k' e he
    rcases eq_or_ne k' k with rfl | hne
    · rw [update_self] at he ⊢
      exact hnew he
    · rw [update_of_ne hne] at he ⊢
      exact hothers hne he
  exact ⟨hok, fun he => (hboth he).1, fun {p} => hcount p _ (frame_update k r o p), fun he => (hboth he).2⟩

section
variable (h : Inv s own)
include h

/-- Replacing a leaf by one of the same frame, with the memory as it was. -/
theorem Inv.rebit (hk : s.leaf k = some e) (hp : e'.phys = e.phys)
    (hnew : Owned s.ram.pmm e' ∨ Device s.ram.pmm e') : Inv { s with leaf := update s.leaf k (some e') } own := by
  have := inv_replace s own (k := k) (o := some e') h.ok (fun _ hk' => ⟨h.leaves hk', h.reads hk'⟩)
    (fun he => by cases he; exact ⟨hnew, fun href => hp ▸ h.reads hk (hp ▸ href)⟩) (fun p n hn href hne => ?_)
  · rwa [update_eq_self] at this
  · rw [frame_of hk, map_some, hp] at hn
    obtain rfl : n = holders s.frame p := by omega
    exact h.count href hne

theorem drop_inv (a : A) (v : V) : Inv (s.step (.drop a v)) own := by
  rw [step]
  rcases hk : s.leaf (a, v) with - | e
  · exact h
  have href := free_leaf (h.leaves hk)
  have := inv_replace s own (o := none) (x := own (a, v))
    (r := { s.ram with pmm := s.ram.pmm.free e.phys e.pages }) (free_ok h.ok e.phys e.pages)
    (fun hne hk' => ⟨h.other_stays hk hk' hne (fun pa hpa => hpa.free _ _) fun _ => href _, fun hr => h.reads hk' ?_⟩) nofun
    (fun p n hn hr hne => ?_)
  · rwa [update_eq_self] at this
  · rw [href] at hr
    split_ifs at hr <;> omega
  · rw [frame_of hk] at hn
    rw [href] at hr ⊢
    rcases eq_or_ne p e.phys with rfl | hp
    · rw [if_pos rfl] at hr ⊢
      rw [if_pos rfl, if_neg nofun] at hn
      have := h.count (p := e.phys) (by omega) (by omega)
      omega
    rw [if_neg hp] at hr ⊢
    rw [if_neg fun heq => hp (some.inj heq).symm, if_neg nofun] at hn
    have := h.count hr (by omega)
    omega

/-- A new page for a leaf: no leaf had the frame, and the page it leaves loses one reference. -/
theorem Inv.fresh {mem : Nat → Page} {q : Nat} {x : Page} (hok : m.Ok)
    (hq : s.ram.pmm.Free q) (hone : m.getRef q = 1) (hres : ∀ pa, s.ram.pmm.Reserved pa → m.Reserved pa)
    (href : ∀ pa, pa ≠ q → s.ram.pmm.getRef pa ≠ 0 →
      m.getRef pa = if s.frame k = some pa then s.ram.pmm.getRef pa - 1 else s.ram.pmm.getRef pa)
    (hphys : e'.phys = q) (hpages : e'.pages = 1) (hcow : e'.cow = false) (hmem : mem q = x) (hkeep : ∀ pa, pa ≠ q → mem pa = s.ram.mem pa) :
    Inv ⟨⟨m, mem⟩, update s.leaf k (some e')⟩ (update own k x) := by
  refine inv_replace s own hok (fun {k' e} hne hk' => ⟨?_, fun hr => ?_⟩) (fun {e} he => ?_) fun p n hn hr hpos => ?_
  · have hoff : e.phys ≠ q := h.free_unmapped hq hk'
    rcases hk : s.leaf k with - | e₀
    · refine leaf_stays (h.leaves hk') hres fun hr => ?_
      rw [href _ hoff hr, frame, hk, if_neg nofun]
    refine h.other_stays hk hk' hne hres fun hr => ?_
    rw [href _ hoff hr, frame_of hk]
    simp only [some.injEq, eq_comm]
  · exact (hkeep _ (h.free_unmapped hq hk')).trans (h.reads hk' (h.counted_before hres hk' hr))
  · cases he
    subst hphys
    have hne : m.getRef e'.phys ≠ 0 := by omega
    exact ⟨.inl ⟨hne, hpages, fun _ => hone, fun hc => by rw [hcow] at hc; cases hc⟩, fun _ => hmem⟩
  · have hfree : holders s.frame q = 0 := by
      by_contra hne
      obtain ⟨k', e, hk', hp⟩ := exists_leaf hne
      exact h.free_unmapped hq hk' hp
    have hk : s.frame k ≠ some q := fun hk => (ne_of_gt (holders_pos hk)) hfree
    rw [map_some, hphys] at hn
    rcases eq_or_ne p q with rfl | hp
    · rw [if_pos rfl] at hn
      exact hone.trans (by omega)
    rw [if_neg fun heq : some q = some p => hp (some.inj heq).symm] at hn
    obtain ⟨k', e, hk', rfl⟩ := exists_leaf (s := s) (p := p) (by split_ifs at hn <;> omega)
    have hr' := h.counted_before hres hk' hr
    rw [href _ hp hr', h.count hr' (ne_of_gt (holders_pos (frame_of hk')))]
    split_ifs at hn ⊢ <;> omega

theorem fault_inv (a : A) (v : V) : Inv (s.step (.fault a v)) own := by
  rw [step]
  rcases hk : s.leaf (a, v) with - | e
  · dsimp only [vmCowWriteFault]
    rw [← hk, update_eq_self]
    exact h
  rcases writeFault_cases s.ram e with ⟨-, ho⟩ | ⟨hcow, hle, ho⟩ | ⟨hcow, -, hz, ho⟩ | ⟨hcow, -, hne, ho⟩
  all_goals rw [ho]
  · rw [← hk, update_eq_self]
    exact h
  · have hown := (h.leaves hk).resolve_right fun hd => by rw [hd.cow] at hcow; cases hcow
    refine h.rebit hk rfl (.inl ⟨hown.ref, hown.pages, fun _ => ?_, nofun⟩)
    exact le_antisymm hle (Nat.pos_of_ne_zero hown.ref)
  · rw [← hk, update_eq_self]
    have hsame := (alloc_spec h.ok e.pages).resolve_right fun hne => hne.1 hz
    exact h.elsewhere (alloc_ok h.ok _) (fun pa hpa => hpa.alloc h.ok _) fun hk' => hsame.2.ref _
  · -- the copy: a fresh frame, and one reference less to the old one
    have hown := (h.leaves hk).resolve_right fun hd => by rw [hd.cow] at hcow; cases hcow
    rw [hown.pages] at hne ⊢
    obtain ⟨-, -, hfree, href, -⟩ := (alloc_spec h.ok 1).resolve_left fun hz => hne hz.1
    have hok := alloc_ok h.ok 1
    have hres : ∀ pa, s.ram.pmm.Reserved pa → (s.ram.pmm.alloc 1).2.Reserved pa := fun pa hpa => hpa.alloc h.ok 1
    obtain ⟨href', -⟩ := free_spec (s.ram.pmm.alloc 1).2 e.phys 1
    generalize (s.ram.pmm.alloc 1).1 = q at *
    have hq : s.ram.pmm.Free q := hfree q (by omega)
    have hqe : q ≠ e.phys := by
      rintro rfl
      exact hown.ref (h.ok.free hq)
    suffices hnew : Inv ⟨⟨(s.ram.pmm.alloc 1).2.free e.phys 1, copyFrames s.ram.mem q e.phys 1⟩,
        update s.leaf (a, v) (some (e.mkwrite q))⟩ (update own (a, v) (own (a, v))) by
      rwa [update_eq_self] at hnew
    refine h.fresh (free_ok hok e.phys 1) hq ?_ (fun pa hpa => (hres pa hpa).free _ _) ?_ rfl hown.pages rfl ?_ ?_
    · rw [href', if_neg (by omega), href, if_pos (by omega)]
    · intro pa hpa hr
      rw [href', href, frame_of hk]
      simp only [some.injEq]
      split_ifs <;> first | rfl | omega
    · rw [copyFrames, if_pos (by omega), Nat.sub_self]
      exact h.reads hk hown.ref
    · intro pa hpa
      exact if_neg (by omega)

/-- What an empty slot is believed to hold does not matter. -/
theorem Inv.unmapped (hk : s.leaf k = none) (x : Page) : Inv s (update own k x) := by
  refine ⟨h.ok, h.leaves, h.count, fun {k' e} hk' hr => (h.reads hk' hr).trans ?_⟩
  rw [update_of_ne]
  rintro rfl
  rw [hk] at hk'
  cases hk'

theorem map_inv {a : A} {v : V} {fill : Page} {w x : Bool} (hall : Ev.Allowed s (.map a v fill w x)) :
    Inv (s.step (.map a v fill w x)) (Ev.believe s own (.map a v fill w x)) := by
  have hframe : s.frame (a, v) = none := by rw [frame, show s.leaf (a, v) = none from hall]; rfl
  rw [step]
  rcases alloc_spec h.ok 1 with ⟨hz, hsame⟩ | ⟨hne, -, hfree, href, -⟩
  · rw [if_pos hz]
    exact (h.elsewhere (alloc_ok h.ok 1) (fun pa hpa => hpa.alloc h.ok 1) fun hk' => hsame.ref _).unmapped hall fill
  rw [if_neg hne]
  have hq : s.ram.pmm.Free (s.ram.pmm.alloc 1).1 := hfree _ (by omega)
  refine h.fresh (alloc_ok h.ok 1) hq ?_ (fun pa hpa => hpa.alloc h.ok 1) (fun pa hpa _ => ?_) rfl rfl rfl ?_ fun pa hpa => ?_
  · rw [href, if_pos (by omega)]
  · rw [href, if_neg (by omega), hframe, if_neg nofun]
  · exact update_self ..
  · exact update_of_ne hpa ..

/-- A leaf of device memory in an empty slot. -/
theorem Inv.place_device (hk : s.leaf k = none) (hd : Device s.ram.pmm e) (x : Page) :
    Inv { s with leaf := update s.leaf k (some e) } (update own k x) := by
  refine inv_replace s own h.ok (fun _ hk' => ⟨h.leaves hk', h.reads hk'⟩)
    (fun he => by cases he; exact ⟨.inr hd, fun hr => absurd hd.ref hr⟩) fun p n hn hr hne => ?_
  rw [frame, hk, if_neg nofun, if_neg] at hn
  · have := h.count hr (by omega)
    omega
  · intro heq
    exact hr (some.inj heq ▸ hd.ref)

/-- One more reference to a page that nobody may write, for a leaf in an empty slot. -/
theorem Inv.place_shared {k₀ : A × V} (hk : s.leaf k = none) (hk₀ : s.leaf k₀ = some e)
    (ho : Owned s.ram.pmm e) (hw : e.writable = false) (hmax : s.ram.pmm.getRef e.phys < 65535) :
    Inv ⟨{ s.ram with pmm := s.ram.pmm.incref e.phys }, update s.leaf k (some e)⟩ (update own k (own k₀)) := by
  obtain ⟨href, -⟩ := incref_spec ho.ref hmax
  have hres : ∀ pa, s.ram.pmm.Reserved pa → (s.ram.pmm.incref e.phys).Reserved pa := fun pa hpa => hpa.incref ho.ref
  -- whoever maps the page may not write: the writer would be alone
  have hreader : ∀ {k' e'}, s.leaf k' = some e' → e'.phys = e.phys → e'.writable = false := by
    intro k' e' hk' hp
    rcases eq_or_ne k' k₀ with rfl | hne
    · rw [hk₀] at hk'
      cases hk'
      exact hw
    rw [Bool.eq_false_iff]
    intro hwr
    have htwo := h.two hk' hk₀ hne hp (hp ▸ ho.ref)
    rcases h.leaves hk' with ho' | hd'
    · have := ho'.alone hwr
      omega
    · have := hd'.ref
      omega
  have hown : ∀ {k' e'}, s.leaf k' = some e' → Owned (s.ram.pmm.incref e.phys) e' ∨ Device (s.ram.pmm.incref e.phys) e' := by
    intro k' e' hk'
    rcases eq_or_ne e'.phys e.phys with hp | hp
    · rcases h.leaves hk' with ho' | hd'
      · refine .inl ⟨?_, ho'.pages, fun hwr => ?_, ho'.cow⟩
        · rw [href, if_pos hp]
          exact Nat.succ_ne_zero _
        · rw [hreader hk' hp] at hwr
          cases hwr
      · exact absurd (hp ▸ hd'.ref) ho.ref
    · refine leaf_stays (h.leaves hk') hres fun _ => ?_
      rw [href, if_neg hp]
  refine inv_replace s own (incref_ok h.ok ho.ref) (fun _ hk' => ⟨hown hk', fun hr => h.reads hk' (h.counted_before hres hk' hr)⟩)
    (fun he => by cases he; exact ⟨hown hk₀, fun _ => h.reads hk₀ ho.ref⟩) fun p n hn hr hne => ?_
  rw [frame, hk, if_neg nofun, map_some] at hn
  have hpos := holders_pos (frame_of hk₀)
  rw [href] at hr ⊢
  rcases eq_or_ne p e.phys with rfl | hp
  · rw [if_pos rfl] at hn ⊢
    rw [h.count ho.ref (by omega)]
    omega
  rw [if_neg hp] at hr ⊢
  rw [if_neg fun heq => hp (some.inj heq).symm] at hn
  have := h.count hr (by omega)
  omega

theorem share_inv {p c : A} {v : V} (hall : Ev.Allowed s (.share p c v)) :
    Inv (s.step (.share p c v)) (Ev.believe s own (.share p c v)) := by
  obtain ⟨hslot, hmax⟩ := hall
  rw [step]
  rcases hk : s.leaf (p, v) with - | e
  · exact h.unmapped hslot _
  have hne : (c, v) ≠ (p, v) := by
    intro heq
    rw [heq, hk] at hslot
    cases hslot
  dsimp only [vmCowShareLeaf]
  rcases h.leaves hk with ho | hd
  · -- the parent loses write access, which needs no count; then the child is one more reader
    have hlt := hmax e hk
    rw [if_neg ho.ref, ho.pages]
    have hshared : ∀ e' : Pte, e'.phys = e.phys → e'.pages = 1 → e'.writable = false → Inv
        ⟨{ s.ram with pmm := s.ram.pmm.incref e'.phys }, update (update s.leaf (p, v) (some e')) (c, v) (some e')⟩
        (update own (c, v) (own (p, v))) := by
      intro e' hp hpages hw
      have ho' : Owned s.ram.pmm e' := ⟨hp ▸ ho.ref, hpages, fun h => (nomatch hw.symm.trans h), fun _ => hw⟩
      refine (h.rebit hk hp (.inl ho')).place_shared ?_ (update_self ..) ho' hw (hp ▸ hlt)
      exact (update_of_ne hne ..).trans hslot
    rcases hw : e.writable with - | -
    · exact hshared e rfl ho.pages hw
    · exact hshared e.mkcow rfl ho.pages rfl
  · rw [if_pos hd.ref, ← hk, update_eq_self, hk]
    exact h.place_device hslot hd _

theorem store_inv (a : A) (v : V) (i off : Nat) (b : BitVec 8) :
    Inv (s.step (.store a v i off b)) (Ev.believe s own (.store a v i off b)) := by
  rw [step, Ev.believe]
  rcases hst : s.stores (a, v) i with - | p
  · exact h
  rw [stores, bind_eq_some_iff] at hst
  obtain ⟨e, hk, hst⟩ := hst
  split_ifs at hst with hw
  cases hst
  refine ⟨h.ok, h.leaves, h.count, fun {k' e'} hk' hr => ?_⟩
  have hread := h.reads hk' hr
  dsimp only at hk' hr ⊢
  rcases h.leaves hk with ho | hd
  · obtain rfl : i = 0 := by
      have := ho.pages
      omega
    rw [add_zero]
    rcases eq_or_ne k' (a, v) with rfl | hne
    · rw [hk] at hk'
      cases hk'
      rw [update_self, update_self, hread]
    -- the writer is alone, so the other leaf is of another page
    rw [update_of_ne hne, update_of_ne, hread]
    intro hp
    have htwo := h.two hk' hk hne hp hr
    have hone := ho.alone hw.1
    rw [hp] at htwo
    omega
  · have hp : e'.phys ≠ e.phys + i := by
      intro hp
      rw [hp] at hr
      exact hr (hd.frames i hw.2).1
    rw [update_of_ne hp, update_of_ne, hread]
    rintro rfl
    rw [hk] at hk'
    cases hk'
    exact hr hd.ref

theorem step_inv {ev : Ev A V} (hall : ev.Allowed s) : Inv (s.step ev) (ev.believe s own) := by
  cases ev with
  | share p c v => exact share_inv h hall
  | fault a v => exact fault_inv h a v
  | protect a v w x =>
    rw [step]
    rcases hk : s.leaf (a, v) with - | e
    · rw [show vmCowProtectPage s.ram.pmm none w x = s.leaf (a, v) from hk.symm, update_eq_self]
      exact h
    obtain ⟨e', he, hp, hnew⟩ := protect_leaf (h.leaves hk) w x
    rw [he]
    exact h.rebit hk hp hnew
  | drop a v => exact drop_inv h a v
  | map a v fill w x => exact map_inv h hall
  | device a v e =>
    obtain ⟨hslot, hpages, hcow, hframes⟩ := hall
    have := h.place_device hslot ⟨hpages, hframes, hcow⟩ (own (a, v))
    rwa [update_eq_self] at this
  | store a v i off b => exact store_inv h a v i off b
  | take n =>
    refine h.elsewhere (alloc_ok h.ok n) (fun pa hpa => hpa.alloc h.ok n) fun {k e} hk => ?_
    rcases alloc_spec h.ok n with ⟨-, hsame⟩ | ⟨-, -, hfree, href, -⟩
    · exact hsame.ref _
    · rw [href, if_neg fun hin => h.free_unmapped (hfree _ hin) hk rfl]
  | give pa n =>
    refine h.elsewhere (free_ok h.ok pa n) (fun q hq => hq.free pa n) fun {k e} hk => ?_
    have hpos : 0 < e.pages := (h.leaves hk).elim (fun ho => ho.pages.symm ▸ one_pos) Device.pages
    exact ((free_spec s.ram.pmm pa n).1 e.phys).trans (if_neg (hall k e hk 0 hpos))

/-- No event gives out or frees a frame that is nobody's. -/
theorem step_reserved {ev : Ev A V} (hall : ev.Allowed s) {pa : Nat} (hpa : s.ram.pmm.Reserved pa) :
    (s.step ev).ram.pmm.Reserved pa := by
  cases ev with
  | share p c v =>
    rw [step]
    rcases hk : s.leaf (p, v) with - | e
    · exact hpa
    dsimp only [vmCowShareLeaf]
    rcases h.leaves hk with ho | hd
    · rw [if_neg ho.ref, ho.pages]
      rcases e.writable with - | -
      · exact hpa.incref ho.ref
      · exact hpa.incref ho.ref
    · rwa [if_pos hd.ref]
  | fault a v =>
    rw [step]
    rcases hk : s.leaf (a, v) with - | e
    · exact hpa
    rcases writeFault_cases s.ram e with ⟨-, ho⟩ | ⟨-, -, ho⟩ | ⟨-, -, -, ho⟩ | ⟨-, -, -, ho⟩
    all_goals rw [ho]
    · exact hpa
    · exact hpa
    · exact hpa.alloc h.ok _
    · exact (hpa.alloc h.ok _).free _ _
  | protect | device => exact hpa
  | drop a v =>
    rw [step]
    rcases s.leaf (a, v) with - | e
    · exact hpa
    · exact hpa.free _ _
  | map a v fill w x =>
    rw [step]
    split_ifs
    · exact hpa.alloc h.ok 1
    · exact hpa.alloc h.ok 1
  | store a v i off b =>
    rw [step]
    rcases s.stores (a, v) i with - | p
    · exact hpa
    · exact hpa
  | take n => exact hpa.alloc h.ok n
  | give p n => exact hpa.free p n

end

/-! ### Every run -/

/-- The machine as it can be reached from one without user pages, with what each process believes it has. -/
inductive Reaches : Sys A V → (A × V → Page) → Prop
  | start (ram : Ram) (hok : ram.pmm.Ok) (own : A × V → Page) : Reaches ⟨ram, fun _ => none⟩ own
  | step {s : Sys A V} {own : A × V → Page} (h : Reaches s own) (ev : Ev A V) (hall : ev.Allowed s) : Reaches (s.step ev) (ev.believe s own)

theorem Reaches.inv (h : Reaches s own) : Inv s own := by
  induction h with
  | start ram hok own =>
    refine ⟨hok, nofun, fun _ hne => ?_, nofun⟩
    obtain ⟨k, e, hk, -⟩ := exists_leaf hne
    cases hk
  | step _ ev hall ih => exact step_inv ih hall

/-- CORRECT: in every reachable state a leaf that may write is of a page with one reference and a process reads what it
    believes it has; a fault without memory changes neither leaf nor counts; device memory is shared, never copied, and
    no event frees or hands it out. -/
theorem cow_isolation (h : Reaches s own) : (∀ k e, s.leaf k = some e → s.ram.pmm.getRef e.phys ≠ 0 →
      (e.writable = true → s.ram.pmm.getRef e.phys = 1) ∧ s.ram.mem e.phys = own k) ∧
    (∀ a v, (vmCowWriteFault s.ram (s.leaf (a, v))).1 = .nomem →
      (s.step (.fault a v)).leaf = s.leaf ∧ (s.step (.fault a v)).ram.mem = s.ram.mem ∧ s.ram.pmm.Same (s.step (.fault a v)).ram.pmm) ∧
    (∀ k e, s.leaf k = some e → s.ram.pmm.getRef e.phys = 0 →
      vmCowWriteFault s.ram (some e) = (if e.writable then .handled else .notCow, some e, s.ram) ∧
      vmCowShareLeaf s.ram.pmm e e.pages = (e, s.ram.pmm) ∧
      ∀ ev : Ev A V, ev.Allowed s → ∀ i < e.pages, (s.step ev).ram.pmm.Reserved (e.phys + i)) := by
  have hinv := h.inv
  refine ⟨fun k e hk href => ⟨fun hw => ?_, hinv.reads hk href⟩, fun a v hno => ?_, fun k e hk href => ⟨?_, if_pos href, ?_⟩⟩
  · exact ((hinv.leaves hk).resolve_right fun hd => href hd.ref).alone hw
  · rcases hk : s.leaf (a, v) with - | e
    · rw [hk] at hno
      cases hno
    rw [hk] at hno
    rw [step, hk]
    rcases writeFault_cases s.ram e with ⟨-, ho⟩ | ⟨-, -, ho⟩ | ⟨-, -, hz, ho⟩ | ⟨-, -, -, ho⟩
    all_goals rw [ho] at hno ⊢
    · split_ifs at hno
    · cases hno
    · rw [← hk, update_eq_self]
      exact ⟨rfl, rfl, ((alloc_spec hinv.ok e.pages).resolve_right fun hne => hne.1 hz).2⟩
    · cases hno
  · have hd := (hinv.leaves hk).resolve_left fun ho => ho.ref href
    rcases writeFault_cases s.ram e with ⟨-, ho⟩ | ⟨hcow, -⟩ | ⟨hcow, -⟩ | ⟨hcow, -⟩
    · exact ho
    all_goals rw [hd.cow] at hcow; cases hcow
  · have hd := (hinv.leaves hk).resolve_left fun ho => ho.ref href
    exact fun ev hall i hi => step_reserved hinv hall (hd.frames i hi)

/-- Three free frames. -/
def Pmm.three : Pmm := ⟨1, 3, fun _ => false, fun _ => 0, 0⟩

theorem Pmm.three_ok : three.Ok := by
  refine ⟨fun {pa} _ => ?_, fun hf => ?_, rfl⟩
  · rw [getRef_eq]
    split_ifs <;> rfl
  · exact absurd (free_iff.mp hf).1.1 (by decide)

local instance neZero2 : NeZero 2 := ⟨by decide⟩

/-- A page is mapped and forked, and the child writes to it. -/
def Sys.mapped : Sys (Fin 2) (Fin 1) := Sys.step ⟨⟨.three, fun _ _ => 0⟩, fun _ => none⟩ (.map 0 0 (fun _ => 5) true false)

def Sys.forked : Sys (Fin 2) (Fin 1) := Sys.mapped.step (.share 0 1 0)

def Sys.copied : Sys (Fin 2) (Fin 1) := Sys.forked.step (.fault 1 0)

/-- The child then has a page of its own. -/
theorem cow_isolation_pair : ∃ own, Reaches Sys.copied own ∧ Sys.copied.leaf (1, 0) = some ⟨2, 1, true, false, false, true⟩ ∧
    Sys.copied.ram.pmm.getRef 2 = 1 ∧ Sys.copied.ram.mem 2 = own (1, 0) := by
  have hparent : mapped.leaf (0, 0) = some ⟨1, 1, true, false, false, true⟩ := by decide +kernel
  have hchild : copied.leaf (1, 0) = some ⟨2, 1, true, false, false, true⟩ := by decide +kernel
  have h₁ := (Reaches.start (A := Fin 2) (V := Fin 1) ⟨.three, fun _ _ => 0⟩ three_ok fun _ _ => 0).step
    (.map 0 0 (fun _ => 5) true false) rfl
  have h₂ := h₁.step (.share 0 1 0) ⟨by decide +kernel, fun e he => by cases hparent.symm.trans he; decide +kernel⟩
  have h₃ := h₂.step (.fault 1 0) trivial
  obtain ⟨hone, hmem⟩ := (cow_isolation h₃).1 (1, 0) ⟨2, 1, true, false, false, true⟩ hchild (by decide +kernel)
  exact ⟨_, h₃, hchild, hone rfl, hmem⟩

end Orthox.Memory
