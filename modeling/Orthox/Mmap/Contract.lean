import Orthox.Mmap.Mapping

/-! The contract of `mmap`. What can go wrong goes wrong below: when there is no page for a table the kernel stops or, on
    aarch64, the call succeeds with a hole in the mapping; and a call that fails for want of a data page keeps the tables
    it made. How many pages there are decides which of these comes about. -/

namespace Orthox.Mmap
open Memory Function Option Finset

namespace Sys
variable {A : Arch} {s : Sys A}

/-! ### Addresses -/

variable {i size p₀ n : Nat}

theorem mmapAlignUp_mod (v : Nat) : mmapAlignUp v % 4096 = 0 := Nat.mul_mod_left ..

theorem mmapAlignUp_lt (v : Nat) : mmapAlignUp v < 2 ^ 64 := by
  rw [mmapAlignUp]
  omega

theorem le_mmapAlignUp {v : Nat} (h : v ≤ 2 ^ 63) : v ≤ mmapAlignUp v := by
  rw [mmapAlignUp]
  omega

theorem reach_le (A : Arch) : 4096 * 512 ^ (A.levels + 1) ≤ 2 ^ 48 := by
  have hpow : 512 ^ (A.levels + 1) ≤ 512 ^ 4 := Nat.pow_le_pow_right (by decide) (by have := A.levels_le; omega)
  omega

theorem top_le (A : Arch) : A.top ≤ 2 ^ 48 := A.reach.trans (reach_le A)

variable {base stop : Nat}

/-- The pages of a range the tables reach follow each other. -/
theorem page_add_of_reach (h : base + i * 4096 < 4096 * 512 ^ (A.levels + 1)) :
    A.page (base + i * 4096) = base / 4096 + i ∧ A.page ((base + i * 4096) % 2 ^ 64) = base / 4096 + i := by
  have hreach := reach_le A
  have hdiv : (base + i * 4096) / 4096 = base / 4096 + i := by omega
  have hlt : (base + i * 4096) / 4096 < 512 ^ (A.levels + 1) := Nat.div_lt_of_lt_mul (by omega)
  have hpage : A.page (base + i * 4096) = base / 4096 + i := by
    rw [Arch.page, Nat.mod_eq_of_lt hlt, hdiv]
  exact ⟨hpage, by rw [Nat.mod_eq_of_lt (by omega), hpage]⟩

theorem page_add (h : base + i * 4096 < A.top) :
    A.page (base + i * 4096) = base / 4096 + i ∧ A.page ((base + i * 4096) % 2 ^ 64) = base / 4096 + i :=
  page_add_of_reach (h.trans_le A.reach)

theorem mmapRangeValid_iff : A.mmapRangeValid base size ↔
    size ≠ 0 ∧ base % 4096 = 0 ∧ A.base ≤ base ∧ base < A.top ∧ base ≤ (base + size) % 2 ^ 64 ∧
      (base + size) % 2 ^ 64 ≤ A.top := by
  simp [Arch.mmapRangeValid, and_assoc]

/-- A valid range lies in the window. -/
theorem mmapRangeValid_le (h : A.mmapRangeValid base size) (hsize : size < 2 ^ 64) :
    base % 4096 = 0 ∧ A.base ≤ base ∧ base + size ≤ A.top := by
  obtain ⟨-, hmod, hlow, -, hwrap, hend⟩ := mmapRangeValid_iff.1 h
  refine ⟨hmod, hlow, ?_⟩
  omega

theorem mmapRangeValid_of_le (hne : size ≠ 0) (hmod : base % 4096 = 0) (hlow : A.base ≤ base)
    (hend : base + size ≤ A.top) : A.mmapRangeValid base size := by
  have := top_le A
  exact mmapRangeValid_iff.2 ⟨hne, hmod, hlow, by omega, by omega, by omega⟩

/-! ### The gap -/

theorem gapFrom_spec {size : Nat} : ∀ (turns base : Nat), base % 4096 = 0 → s.gapFrom size stop turns base ≠ 0 →
    s.gapFrom size stop turns base % 4096 = 0 ∧ base ≤ s.gapFrom size stop turns base ∧
      s.gapFrom size stop turns base + size ≤ stop ∧ s.mmapRangeUnmapped (s.gapFrom size stop turns base) size
  | 0, _, _, h => absurd rfl h
  | turns + 1, base, hmod, h => by
    rw [gapFrom] at h ⊢
    split_ifs at h ⊢ with hend hfree
    · exact ⟨hmod, le_rfl, hend, hfree⟩
    · obtain ⟨h₁, h₂, h₃, h₄⟩ := gapFrom_spec turns (base + 4096) (by omega) h
      exact ⟨h₁, by omega, h₃, h₄⟩
    · exact absurd rfl h

theorem mmapFindGapFrom_spec {start : Nat} (hstart : start ≤ A.top) (h : s.mmapFindGapFrom size start stop ≠ 0) :
    s.mmapFindGapFrom size start stop % 4096 = 0 ∧ A.base ≤ s.mmapFindGapFrom size start stop ∧
      s.mmapFindGapFrom size start stop + size ≤ stop ∧ s.mmapRangeUnmapped (s.mmapFindGapFrom size start stop) size := by
  have htop := top_le A
  have hbase := A.base_le
  have hlow : A.base ≤ mmapAlignUp (if start < A.base then A.base else start) := by
    refine le_trans ?_ (le_mmapAlignUp ?_)
    · split_ifs <;> omega
    · split_ifs <;> omega
  obtain ⟨h₁, h₂, h₃, h₄⟩ := gapFrom_spec _ _ (mmapAlignUp_mod _) h
  exact ⟨h₁, hlow.trans h₂, h₃, h₄⟩

/-- What `mmap_find_gap` finds is a range of the window with nothing in it. -/
theorem mmapFindGap_spec {hint : Nat} (h : s.mmapFindGap size hint ≠ 0) :
    size ≠ 0 ∧ s.mmapFindGap size hint % 4096 = 0 ∧ A.base ≤ s.mmapFindGap size hint ∧
      s.mmapFindGap size hint + size ≤ A.top ∧ s.mmapRangeUnmapped (s.mmapFindGap size hint) size := by
  have hbase := A.base_le
  have hstart : (if hint < A.base ∨ hint ≥ A.top then A.base else hint) ≤ A.top := by
    split_ifs <;> omega
  unfold mmapFindGap at h ⊢
  dsimp only at h ⊢
  generalize (if hint < A.base ∨ hint ≥ A.top then A.base else hint) = start at hstart h ⊢
  split_ifs at h ⊢ with hsize hfirst hlow
  · exact absurd rfl h
  · obtain ⟨h₁, h₂, h₃, h₄⟩ := mmapFindGapFrom_spec hstart hfirst
    exact ⟨by omega, h₁, h₂, h₃, h₄⟩
  · obtain ⟨h₁, h₂, h₃, h₄⟩ := mmapFindGapFrom_spec hbase h
    exact ⟨by omega, h₁, h₂, by omega, h₄⟩
  · exact absurd rfl h

/-- An unmapped range has no leaves. -/
theorem leaf_of_unmapped (h : s.mmapRangeUnmapped base size) (hend : base + size ≤ A.top) :
    ∀ i < size / 4096, s.space.leaf (base / 4096 + i) = none := by
  intro i hi
  have := List.all_eq_true.1 h i (mem_range.2 hi)
  rw [mapped, (page_add (by omega)).2] at this
  simpa using this

/-! ### Dropping pages -/

/-- A range of the window with its pages dropped. -/
structure Cleared (s : Sys A) (p₀ n : Nat) (s' : Sys A) : Prop where
  leaf : ∀ p, s'.space.leaf p = if p₀ ≤ p ∧ p < p₀ + n then none else s.space.leaf p
  table : s'.space.table = s.space.table
  mem : s'.ram.mem = s.ram.mem
  ok : s'.ram.pmm.Ok
  free : ∀ q, s'.ram.pmm.Free q → s.ram.pmm.Free q ∨ ∃ p e, (p₀ ≤ p ∧ p < p₀ + n) ∧ s.space.leaf p = some e ∧ q = e.phys

theorem Cleared.nil (hok : s.ram.pmm.Ok) : Cleared s p₀ 0 s :=
  ⟨fun p => by rw [if_neg (by omega)], rfl, rfl, hok, fun _ h => .inl h⟩

theorem Cleared.drop {addr : Nat} {s' : Sys A} (h : Cleared s p₀ n s') (hp : A.page (addr % 2 ^ 64) = p₀ + n)
    (hsmall : ∀ e, s.space.leaf (p₀ + n) = some e → e.pages = 1) : Cleared s p₀ (n + 1) (s'.mmapDropPage addr) := by
  have hold : s'.space.leaf (p₀ + n) = s.space.leaf (p₀ + n) := by rw [h.leaf, if_neg (by omega)]
  have hwider : ∀ q, s'.ram.pmm.Free q →
      s.ram.pmm.Free q ∨ ∃ p e, (p₀ ≤ p ∧ p < p₀ + (n + 1)) ∧ s.space.leaf p = some e ∧ q = e.phys := by
    intro q hq
    rcases h.free q hq with hfree | ⟨p, e, hin, he⟩
    · exact .inl hfree
    · exact .inr ⟨p, e, by omega, he⟩
  rw [mmapDropPage, hp]
  rcases he : s'.space.leaf (p₀ + n) with _ | e
  · refine ⟨fun p => ?_, h.table, h.mem, h.ok, hwider⟩
    rw [h.leaf]
    rcases eq_or_ne p (p₀ + n) with rfl | hne
    · rw [if_neg (by omega), if_pos (by omega), ← hold, he]
    by_cases hin : p₀ ≤ p ∧ p < p₀ + n
    · rw [if_pos hin, if_pos (by omega)]
    · rw [if_neg hin, if_neg (by omega)]
  · have hone := hsmall e (hold ▸ he)
    dsimp only
    rw [if_pos hone]
    have hfree : ∀ q, (s'.ram.pmm.free e.phys 1).Free q →
        s.ram.pmm.Free q ∨ ∃ p e, (p₀ ≤ p ∧ p < p₀ + (n + 1)) ∧ s.space.leaf p = some e ∧ q = e.phys := by
      intro q hq
      rcases ((Pmm.free_spec s'.ram.pmm e.phys 1).2 q).1 hq with hq | ⟨hq, -⟩
      · exact hwider q hq
      · exact .inr ⟨p₀ + n, e, by omega, hold ▸ he, Pmm.within_one.1 hq⟩
    refine ⟨fun p => ?_, h.table, h.mem, Pmm.free_ok h.ok _ _, hfree⟩
    change update s'.space.leaf (p₀ + n) none p = _
    rcases eq_or_ne p (p₀ + n) with rfl | hne
    · rw [update_self, if_pos (by omega)]
    rw [update_of_ne hne, h.leaf]
    by_cases hin : p₀ ≤ p ∧ p < p₀ + n
    · rw [if_pos hin, if_pos (by omega)]
    · rw [if_neg hin, if_neg (by omega)]

/-- The loops around `mmap_drop_page` clear their range, if it has 4 KiB pages only. -/
theorem dropPages_cleared (hok : s.ram.pmm.Ok) (hpage : ∀ i < n, A.page ((base + i * 4096) % 2 ^ 64) = p₀ + i)
    (hsmall : ∀ i < n, ∀ e, s.space.leaf (p₀ + i) = some e → e.pages = 1) : Cleared s p₀ n (s.dropPages base n) := by
  induction n with
  | zero => exact .nil hok
  | succ n ih =>
    rw [dropPages_succ]
    exact (ih (fun i hi => hpage i (by omega)) (fun i hi => hsmall i (by omega))).drop (hpage n (by omega)) (hsmall n (by omega))

/-- In the window there are no others. -/
theorem dropPages_window (hok : s.ram.pmm.Ok) (hlow : A.base ≤ base) (hend : base + n * 4096 ≤ A.top) :
    Cleared s (base / 4096) n (s.dropPages base n) := by
  refine dropPages_cleared hok (fun i hi => (page_add (by omega)).2) fun i hi e he => ?_
  have hwindow : A.InWindow (base / 4096 + i) := ⟨by omega, by omega⟩
  exact s.space.small hwindow he

/-! ### The contract -/

theorem Args.size_lt (a : Args) : a.size < 2 ^ 64 := mmapAlignUp_lt _

/-- The address the call maps at, 0 if there is none. -/
def place (s : Sys A) (a : Args) : Nat :=
  if mmapAlignUp a.addr.toNat = 0 ∨ a.fixed = false then s.mmapFindGap a.size s.mmapEnd else mmapAlignUp a.addr.toNat

/-- The state from which pages are taken: what `MAP_FIXED` replaces was given back. -/
def cleared (s : Sys A) (a : Args) : Sys A :=
  if mmapAlignUp a.addr.toNat = 0 ∨ a.fixed = false then s
  else if s.mmapRangeUnmapped (mmapAlignUp a.addr.toNat) a.size then s
  else s.dropPages (mmapAlignUp a.addr.toNat) (a.size / 4096)

/-- The bytes the `i`-th page is to have: zero, or the file's, which are zero past its end. -/
def Args.wanted (a : Args) (file : Nat → BitVec 8) (i j : Nat) : BitVec 8 :=
  if a.anonymous then 0 else file (a.offset.toNat + i * 4096 + j)

/-- A mapping that was made: page-aligned and in the window, each page on a page of its own that was free and has the
    wanted bytes, and nothing else changed. -/
structure Made (s : Sys A) (a : Args) (file : Nat → BitVec 8) (addr : Nat) (s' : Sys A) : Prop where
  aligned : addr % 4096 = 0
  window : A.base ≤ addr ∧ addr + a.size ≤ A.top
  pages : ∃ f : Nat → Nat, (∀ i < a.size / 4096, ∀ j < a.size / 4096, f i = f j → i = j) ∧
    ∀ i < a.size / 4096, s'.space.leaf (addr / 4096 + i) = some (newLeaf (f i) a.writable a.executable) ∧
      (s.cleared a).ram.pmm.Free (f i) ∧ s'.ram.pmm.getRef (f i) = 1 ∧ ∀ j < 4096, s'.ram.mem (f i) j = a.wanted file i j
  others : ∀ p, p < addr / 4096 ∨ addr / 4096 + a.size / 4096 ≤ p → s'.space.leaf p = s.space.leaf p
  contents : ∀ q, ¬ (s.cleared a).ram.pmm.Free q → s'.ram.mem q = s.ram.mem q

/-- The call comes back, with the mapping made, or failed; and a call that failed, and was not for a fixed address, left
    every mapping as it was and gave every page back. -/
def Contract (files : Files) (s : Sys A) (a : Args) (file : Nat → BitVec 8) : Prop :=
  ∃ r s', sysMmap files s a = some (r, s') ∧ (0 ≤ r → Made s a file r.toNat s') ∧
    (r < 0 → a.fixed = false → s'.space.leaf = s.space.leaf ∧ s.ram.pmm.Same s'.ram.pmm)

/-- Reading the file gives its bytes for every page of the range. -/
def Args.Reads (files : Files) (a : Args) (file : Nat → BitVec 8) : Prop :=
  a.anonymous = false → ∀ i < a.size / 4096, ∀ j < 4096,
    ((files.pread a.fd.toNat (a.offset.toNat + i * 4096)).getD []).getD j 0 = file (a.offset.toNat + i * 4096 + j)

variable {files : Files} {a : Args} {file : Nat → BitVec 8}

theorem fill_eq (h : a.Reads files file) (hi : i < a.size / 4096) : ∀ j < 4096, a.fill files i j = a.wanted file i j := by
  intro j hj
  rw [Args.fill, Args.wanted]
  rcases hanon : a.anonymous with _ | _
  · rw [if_neg nofun]
    exact h hanon i hi j hj
  · rw [if_pos rfl, if_pos rfl]

/-- A range to map at: of the window, with nothing in it. -/
structure Clear (s : Sys A) (a : Args) (base : Nat) : Prop where
  ok : s.ram.pmm.Ok
  size : a.size ≠ 0
  aligned : base % 4096 = 0
  low : A.base ≤ base
  high : base + a.size ≤ A.top
  none : ∀ i < a.size / 4096, s.space.leaf (base / 4096 + i) = none

section range
variable (files : Files) {a : Args} {base : Nat}

section
variable (h : Clear s a base)
include h

theorem Clear.page : ∀ i < a.size / 4096, A.page (base + i * 4096) = base / 4096 + i ∧
    A.page ((base + i * 4096) % 2 ^ 64) = base / 4096 + i := by
  intro i hi
  have hhigh := h.high
  exact page_add (by omega)

theorem Clear.valid : A.mmapRangeValid base a.size := mmapRangeValid_of_le h.size h.aligned h.low h.high

/-- With pages enough every page is mapped. -/
theorem mapRange_mapped (hneed : need A.levels (a.size / 4096) s.space.table (base / 4096) ≤ s.ram.pmm.freeCount) :
    ∃ s' f T, mapRange files a base s = some ((base : Int), s') ∧
      Mapping s (a.fill files) a.writable a.executable (base / 4096) f T 0 (a.size / 4096) s' := by
  obtain ⟨s', f, T, hrun, hmap⟩ := mapPages_mapped h.ok (fun i hi => (h.page i hi).1) hneed
  refine ⟨{ s' with mmapEnd := max s'.mmapEnd (base + a.size) }, f, T, ?_, hmap.takes, hmap.apart, hmap.inj, hmap.leaf,
    hmap.mem, hmap.others⟩
  rw [mapRange, if_pos h.valid, hrun]

theorem mapRange_short (hshort : ∃ i < a.size / 4096,
      s.ram.pmm.freeCount = need A.levels i s.space.table (base / 4096) ∧ need A.levels i s.space.table (base / 4096) = i) :
    ∃ s', mapRange files a base s = some (-enomem, s') ∧ Unchanged s s' := by
  obtain ⟨s', hrun, hsame⟩ := mapPages_short h.ok h.none h.page hshort
  refine ⟨s', ?_, hsame⟩
  rw [mapRange, if_pos h.valid, hrun]

/-- With a page short for data the call fails and keeps the tables it made. -/
theorem mapRange_dry (hi : i < a.size / 4096) (hdry : s.ram.pmm.freeCount = need A.levels i s.space.table (base / 4096)) :
    ∃ s' T, mapRange files a base s = some (-enomem, s') ∧ s'.space.leaf = s.space.leaf ∧
      Takes s.ram.pmm s'.ram.pmm T ∧ T.card + i = s.ram.pmm.freeCount := by
  obtain ⟨s', T, hrun, hleaf, htakes, hcard, -⟩ := mapPages_dry h.ok h.none h.page hi hdry
  refine ⟨s', T, ?_, hleaf, htakes, by omega⟩
  rw [mapRange, if_pos h.valid, hrun]

/-- With a page short for a table the kernel stops, or the last page is missing, or the call fails and has taken pages. -/
theorem mapRange_torn (hi : i < a.size / 4096) (hlow : need A.levels i s.space.table (base / 4096) < s.ram.pmm.freeCount)
    (hhigh : s.ram.pmm.freeCount < need A.levels (i + 1) s.space.table (base / 4096)) : ∃ s' T, mapRange files a base s =
        (if A.stops then none else some (if i + 1 = a.size / 4096 then (base : Int) else -enomem, s')) ∧
      (i + 1 = a.size / 4096 → s'.space.leaf (base / 4096 + i) = none) ∧
      (i + 1 ≠ a.size / 4096 → T.Nonempty ∧ Takes s.ram.pmm s'.ram.pmm T) := by
  obtain ⟨s', T, hrun, hhole, hlost⟩ := mapPages_torn h.ok h.none h.page hi hlow hhigh
  rcases eq_or_ne (i + 1) (a.size / 4096) with hlast | hmore
  · refine ⟨{ s' with mmapEnd := max s'.mmapEnd (base + a.size) }, T, ?_, hhole, fun hne => absurd hlast hne⟩
    rw [mapRange, if_pos h.valid, hrun, decide_eq_true hlast]
    split_ifs <;> rfl
  refine ⟨s', T, ?_, fun hlast => absurd hlast hmore, hlost⟩
  rw [mapRange, if_pos h.valid, hrun, decide_eq_false hmore]
  split_ifs <;> rfl

end

end range

/-- A refused call names an error. -/
theorem refused_error {e : Int} (h : refused A files a = some e) : 0 < e ∧ e < 4096 := by
  rw [refused] at h
  repeat' split at h
  all_goals first
    | exact some.inj h ▸ by decide
    | exact absurd h (by simp)

theorem size_ne_of_refused (h : refused A files a = none) : a.size ≠ 0 := by
  intro hz
  rw [refused] at h
  split_ifs at h

/-- The call found a range of the window to map at. -/
structure Placed (s : Sys A) (a : Args) : Prop where
  aligned : s.place a % 4096 = 0
  low : A.base ≤ s.place a
  high : s.place a + a.size ≤ A.top
  given : ¬ (mmapAlignUp a.addr.toNat = 0 ∨ a.fixed = false) → s.place a = a.addr.toNat
  found : mmapAlignUp a.addr.toNat = 0 ∨ a.fixed = false → s.mmapFindGap a.size s.mmapEnd ≠ 0

/-- A call fails at once, or is accepted and maps at its place. -/
theorem sysMmap_cases (files : Files) (s : Sys A) (a : Args) :
    ¬ (refused A files a = none ∧ s.Placed a) ∧ (∃ e, (0 < e ∧ e < 4096) ∧ sysMmap files s a = some (-e, s)) ∨
      (refused A files a = none ∧ s.Placed a) ∧
        ∃ e, sysMmap files s a = mapRange files a (s.place a) { s.cleared a with mmapEnd := e } := by
  rcases hno : refused A files a with _ | e
  · have hne := size_ne_of_refused hno
    have hsize := a.size_lt
    rw [sysMmap, hno]
    dsimp only
    by_cases hfix : mmapAlignUp a.addr.toNat = 0 ∨ a.fixed = false
    · have hplace : s.place a = s.mmapFindGap a.size s.mmapEnd := if_pos hfix
      have hclear : s.cleared a = s := if_pos hfix
      rw [← hplace, hclear]
      split_ifs with hgap
      · exact .inl ⟨fun h => h.2.found hfix (hplace ▸ hgap), enomem, by decide, rfl⟩
      rw [hplace] at hgap
      obtain ⟨-, hmod, hlow, hhigh, -⟩ := mmapFindGap_spec hgap
      exact .inr ⟨⟨rfl, hplace ▸ hmod, hplace ▸ hlow, hplace ▸ hhigh, fun h => absurd hfix h, fun _ => hgap⟩, _, rfl⟩
    · have hplace : s.place a = mmapAlignUp a.addr.toNat := if_neg hfix
      have hclear : s.cleared a = if s.mmapRangeUnmapped (mmapAlignUp a.addr.toNat) a.size then s
          else s.dropPages (mmapAlignUp a.addr.toNat) (a.size / 4096) := if_neg hfix
      rw [if_neg hfix, ← hclear, ← hplace]
      split_ifs with hwhole hvalid
      · exact .inl ⟨fun h => hwhole (h.2.given hfix).symm, einval, by decide, rfl⟩
      · obtain ⟨hmod, hlow, hhigh⟩ := mmapRangeValid_le hvalid hsize
        exact .inr ⟨⟨rfl, hmod, hlow, hhigh, fun _ => (not_not.1 hwhole).symm, fun h => absurd h hfix⟩, _, rfl⟩
      · exact .inl ⟨fun h => hvalid (mmapRangeValid_of_le hne h.2.aligned h.2.low h.2.high), einval, by decide, rfl⟩
  · refine .inl ⟨fun h => by simp at h, e, refused_error hno, ?_⟩
    rw [sysMmap, hno]

/-- The range is clear when the pages are taken. -/
theorem Placed.cleared (h : s.Placed a) (hok : s.ram.pmm.Ok) : Cleared s (s.place a / 4096) (a.size / 4096) (s.cleared a) := by
  obtain ⟨-, hlow, hend, -, hgap⟩ := h
  have hself : s.mmapRangeUnmapped (s.place a) a.size → Cleared s (s.place a / 4096) (a.size / 4096) s := by
    intro hfree
    refine ⟨fun p => ?_, rfl, rfl, hok, fun _ h => .inl h⟩
    split_ifs with hin
    · have := leaf_of_unmapped hfree hend (p - s.place a / 4096) (by omega)
      rwa [Nat.add_sub_cancel' hin.1] at this
    · rfl
  rw [place] at hlow hend hself ⊢
  rw [Sys.cleared]
  split_ifs at hlow hend hself ⊢ with hfix hfree
  · exact hself (mmapFindGap_spec (hgap hfix)).2.2.2.2
  · exact hself hfree
  · exact dropPages_window hok hlow (by omega)

/-- What `sys_mmap` made of the range is what was asked for. -/
theorem Mapping.made {s₀ s' : Sys A} {f : Nat → Nat} {T : Finset Nat}
    (h : Mapping s₀ (a.fill files) a.writable a.executable (s.place a / 4096) f T 0 (a.size / 4096) s')
    (hplaced : s.Placed a) (hclear : Cleared s (s.place a / 4096) (a.size / 4096) (s.cleared a))
    (hspace : s₀.space = (s.cleared a).space) (hram : s₀.ram = (s.cleared a).ram) (hreads : a.Reads files file) :
    Made s a file (s.place a) s' := by
  refine ⟨hplaced.aligned, ⟨hplaced.low, hplaced.high⟩, ⟨f, h.inj, fun i hi => ⟨?_, ?_, ?_, ?_⟩⟩, fun p hp => ?_, fun q hq => ?_⟩
  · rw [h.leaf, if_pos (by omega), Nat.add_sub_cancel_left]
  · exact hram ▸ h.takes.fresh _ (mem_union_left _ (mem_image_of_mem f (mem_Ico.2 ⟨Nat.zero_le i, hi⟩)))
  · rw [h.takes.ref, if_pos]
    exact mem_union_left _ (mem_image_of_mem f (mem_Ico.2 ⟨Nat.zero_le i, hi⟩))
  · intro j hj
    rw [h.mem i hi, fill_eq hreads hi j hj]
  · rw [h.leaf, if_neg (by omega), hspace, hclear.leaf, if_neg (by omega)]
  · rw [h.others q (hram ▸ hq), hram, hclear.mem]

/-! ### Exactly when it holds -/

theorem need_lt_succ (levels : Nat) : ∀ (n : Nat) (tab : Nat → Nat → Bool) (p : Nat), need levels n tab p < need levels (n + 1) tab p
  | 0, tab, p => by
    rw [need, need]
    omega
  | n + 1, tab, p => by
    rw [need, need]
    have := need_lt_succ levels n (withTables levels tab p) (p + 1)
    omega

/-- The pages the first so many pages of the range take, tables included. -/
def needs (s : Sys A) (a : Args) (i : Nat) : Nat := need A.levels i s.space.table (s.place a / 4096)

/-- The pages there are to take. -/
def supply (s : Sys A) (a : Args) : Nat := (s.cleared a).ram.pmm.freeCount

/-- There are pages for everything and the file can be read; or the pages are used up where one is needed for data and no
    table was made, unless the address is fixed. With a fixed address, where the kernel does not stop, they may also be
    used up where one is needed for a table, if it is not a table for the last page. -/
structure Sound (files : Files) (s : Sys A) (a : Args) (file : Nat → BitVec 8) : Prop where
  reads : s.needs a (a.size / 4096) ≤ s.supply a → a.Reads files file
  dry : ∀ i < a.size / 4096, s.supply a = s.needs a i → a.fixed = true ∨ s.needs a i = i
  torn : ∀ i < a.size / 4096, s.needs a i < s.supply a → s.supply a < s.needs a (i + 1) →
    a.fixed = true ∧ A.stops = false ∧ i + 1 ≠ a.size / 4096

/-- The pages are enough, or used up at a page for data or at one for a table. -/
theorem supply_cases (s : Sys A) (a : Args) (n : Nat) : s.needs a n ≤ s.supply a ∨ (∃ i < n, s.supply a = s.needs a i) ∨
    ∃ i < n, s.needs a i < s.supply a ∧ s.supply a < s.needs a (i + 1) := by
  induction n with
  | zero => exact .inl (Nat.zero_le _)
  | succ n ih =>
    rcases ih with hle | ⟨i, hi, heq⟩ | ⟨i, hi, hlt⟩
    · rcases lt_or_ge (s.supply a) (s.needs a (n + 1)) with hlt | hge
      · rcases eq_or_lt_of_le hle with heq | hlow
        · exact .inr (.inl ⟨n, Nat.lt_succ_self n, heq.symm⟩)
        · exact .inr (.inr ⟨n, Nat.lt_succ_self n, hlow, hlt⟩)
      · exact .inl hge
    · exact .inr (.inl ⟨i, by omega, heq⟩)
    · exact .inr (.inr ⟨i, by omega, hlt⟩)

section exact
variable {files : Files} {a : Args} {file : Nat → BitVec 8}

/-- The call was accepted and the range is clear. -/
structure Ready (files : Files) (s : Sys A) (a : Args) (s₁ : Sys A) : Prop where
  placed : s.Placed a
  cleared : Cleared s (s.place a / 4096) (a.size / 4096) (s.cleared a)
  space : s₁.space = (s.cleared a).space
  ram : s₁.ram = (s.cleared a).ram
  clear : Clear s₁ a (s.place a)
  run : sysMmap files s a = mapRange files a (s.place a) s₁

variable {s₁ : Sys A}

theorem Ready.need (h : Ready files s a s₁) (i : Nat) : need A.levels i s₁.space.table (s.place a / 4096) = s.needs a i := by
  rw [h.space, h.cleared.table]
  rfl

theorem Ready.supply (h : Ready files s a s₁) : s₁.ram.pmm.freeCount = s.supply a := by
  rw [h.ram]
  rfl

/-- A call fails at once, or is ready to take pages. -/
theorem sysMmap_ready (hok : s.ram.pmm.Ok) :
    ¬ (refused A files a = none ∧ s.Placed a) ∧ (∃ e, (0 < e ∧ e < 4096) ∧ sysMmap files s a = some (-e, s)) ∨
      (refused A files a = none ∧ s.Placed a) ∧ ∃ s₁, Ready files s a s₁ := by
  rcases sysMmap_cases files s a with hfail | ⟨⟨hyes, hplaced⟩, e, hrun⟩
  · exact .inl hfail
  have hclear := hplaced.cleared hok
  have hnone : ∀ i < a.size / 4096, (s.cleared a).space.leaf (s.place a / 4096 + i) = none := by
    intro i hi
    rw [hclear.leaf, if_pos (by omega)]
  exact .inr ⟨⟨hyes, hplaced⟩, ⟨(s.cleared a).space, (s.cleared a).ram, e⟩, hplaced, hclear, rfl, rfl,
    ⟨hclear.ok, size_ne_of_refused hyes, hplaced.aligned, hplaced.low, hplaced.high, hnone⟩, hrun⟩

section
variable (h : Ready files s a s₁)
include h

/-- With pages for everything the call succeeds, and keeps the contract if the file can be read. -/
theorem contract_mapped (hneed : s.needs a (a.size / 4096) ≤ s.supply a) : Contract files s a file ↔ a.Reads files file := by
  obtain ⟨s', f, T, hrun, hmap⟩ := mapRange_mapped files h.clear (by rwa [h.need, h.supply])
  constructor
  · rintro ⟨r, s'', hrun', hmade, -⟩ hanon i hi j hj
    obtain ⟨rfl, rfl⟩ := Prod.mk.inj (some.inj ((h.run.trans hrun).symm.trans hrun'))
    obtain ⟨f', -, hpages⟩ := (hmade (Int.natCast_nonneg _)).pages
    obtain ⟨hleaf, -, -, hbytes⟩ := hpages i hi
    rw [Int.toNat_natCast, hmap.leaf, if_pos (by omega), Nat.add_sub_cancel_left] at hleaf
    have hframe : f i = f' i := congrArg Pte.phys (some.inj hleaf)
    have hbyte := hbytes j hj
    rw [← hframe, hmap.mem i hi, Args.fill, Args.wanted, hanon, if_neg nofun] at hbyte
    exact hbyte
  · intro hreads
    refine ⟨_, s', h.run.trans hrun, fun _ => ?_, fun hneg => by omega⟩
    exact hmap.made h.placed h.cleared h.space h.ram hreads

/-- With a page short for data the call fails, and keeps the contract if it made no tables. -/
theorem contract_dry (hi : i < a.size / 4096) (hdry : s.supply a = s.needs a i) :
    Contract files s a file ↔ a.fixed ∨ s.needs a i = i := by
  obtain ⟨s', T, hrun, hleaf, htakes, hcard⟩ := mapRange_dry files h.clear hi (by rw [h.need, h.supply, hdry])
  rw [h.supply] at hcard
  constructor
  · rintro ⟨r, s'', hrun', -, hfail⟩
    obtain ⟨rfl, rfl⟩ := Prod.mk.inj (some.inj ((h.run.trans hrun).symm.trans hrun'))
    rcases hfix : a.fixed with _ | _
    · have hself : s.cleared a = s := if_pos (.inr hfix)
      rw [h.ram, hself] at htakes
      have hT : T = ∅ := not_nonempty_iff_eq_empty.1 fun hne => htakes.not_same hne (hfail (by decide) hfix).2
      rw [hT, card_empty] at hcard
      exact .inr (by omega)
    · exact .inl rfl
  · intro hor
    refine ⟨_, s', h.run.trans hrun, fun hpos => absurd hpos (by decide), fun _ hfix => ?_⟩
    have hself : s.cleared a = s := if_pos (.inr hfix)
    have hT : T = ∅ := by
      rcases hor with hfix' | heq
      · rw [hfix] at hfix'
        exact absurd hfix' nofun
      · exact card_eq_zero.1 (by omega)
    rw [h.ram, hself, hT] at htakes
    rw [h.space, hself] at hleaf
    exact ⟨hleaf, htakes.same⟩

/-- With a page short for a table the contract is broken, except by a call for a fixed address that fails. -/
theorem contract_torn (hi : i < a.size / 4096) (hlow : s.needs a i < s.supply a) (hhigh : s.supply a < s.needs a (i + 1)) :
    Contract files s a file ↔ a.fixed ∧ A.stops = false ∧ i + 1 ≠ a.size / 4096 := by
  obtain ⟨s', T, hrun, hhole, hlost⟩ := mapRange_torn files h.clear hi (by rwa [h.need, h.supply]) (by rwa [h.need, h.supply])
  have hrun := h.run.trans hrun
  rcases hstops : A.stops with _ | _
  · rw [hstops] at hrun
    rcases eq_or_ne (i + 1) (a.size / 4096) with hlast | hmore
    · rw [if_pos hlast] at hrun
      refine ⟨?_, fun h => absurd hlast h.2.2⟩
      rintro ⟨r, s'', hrun', hmade, -⟩
      obtain ⟨rfl, rfl⟩ := Prod.mk.inj (some.inj (hrun.symm.trans hrun'))
      obtain ⟨f, -, hpages⟩ := (hmade (Int.natCast_nonneg _)).pages
      have hleaf := (hpages i hi).1
      rw [Int.toNat_natCast, hhole hlast] at hleaf
      exact absurd hleaf nofun
    · rw [if_neg hmore] at hrun
      obtain ⟨hne, htakes⟩ := hlost hmore
      constructor
      · rintro ⟨r, s'', hrun', -, hfail⟩
        obtain ⟨rfl, rfl⟩ := Prod.mk.inj (some.inj (hrun.symm.trans hrun'))
        rcases hfix : a.fixed with _ | _
        · have hself : s.cleared a = s := if_pos (.inr hfix)
          rw [h.ram, hself] at htakes
          exact absurd (hfail (by decide) hfix).2 (htakes.not_same hne)
        · exact ⟨rfl, rfl, hmore⟩
      · rintro ⟨hfix, -, -⟩
        refine ⟨_, s', hrun, fun hpos => absurd hpos (by decide), fun _ hfix' => ?_⟩
        rw [hfix] at hfix'
        exact absurd hfix' Bool.noConfusion
  · rw [hstops] at hrun
    refine ⟨?_, fun h => absurd h.2.1 Bool.noConfusion⟩
    rintro ⟨r, s'', hrun', -⟩
    exact absurd (hrun.symm.trans hrun') nofun

end

/-- CORRECT exactly when an accepted call has the pages it needs, data and tables, or runs out of them where it can still
    give everything back, and the file it maps can be read. -/
theorem mmap_contract_iff (hok : s.ram.pmm.Ok) :
    Contract files s a file ↔ (refused A files a = none → s.Placed a → Sound files s a file) := by
  rcases sysMmap_ready hok with ⟨hno, e, ⟨hpos, -⟩, hrun⟩ | ⟨⟨hyes, hplaced⟩, s₁, hready⟩
  · refine ⟨fun _ h h' => absurd ⟨h, h'⟩ hno, fun _ => ⟨-e, s, hrun, fun h => by omega, fun _ _ => ⟨rfl, .refl _⟩⟩⟩
  have hmono : StrictMono (s.needs a) := strictMono_nat_of_lt_succ fun n =>
    need_lt_succ A.levels n s.space.table (s.place a / 4096)
  have himp : (refused A files a = none → s.Placed a → Sound files s a file) ↔ Sound files s a file :=
    ⟨fun h => h hyes hplaced, fun h _ _ => h⟩
  rw [himp]
  rcases supply_cases s a (a.size / 4096) with hneed | ⟨i, hi, hdry⟩ | ⟨i, hi, hlow, hhigh⟩
  · rw [contract_mapped hready hneed]
    refine ⟨fun h => ⟨fun _ => h, fun i hi heq => ?_, fun i hi hlow hhigh => ?_⟩, fun h => h.reads hneed⟩
    · have := hmono hi
      omega
    · have := hmono.monotone (show i + 1 ≤ a.size / 4096 from hi)
      omega
  · rw [contract_dry hready hi hdry]
    refine ⟨fun h => ⟨fun hneed => ?_, fun j hj heq => ?_, fun j hj hlow hhigh => ?_⟩, fun h => h.dry i hi hdry⟩
    · have := hmono hi
      omega
    · rwa [hmono.injective (heq.symm.trans hdry)]
    · rw [hdry] at hlow hhigh
      have h₁ := hmono.lt_iff_lt.1 hlow
      have h₂ := hmono.lt_iff_lt.1 hhigh
      omega
  · rw [contract_torn hready hi hlow hhigh]
    refine ⟨fun h => ⟨fun hneed => ?_, fun j hj heq => ?_, fun j hj hlow' hhigh' => ?_⟩, fun h => h.torn i hi hlow hhigh⟩
    · have := hmono.monotone (show i + 1 ≤ a.size / 4096 from hi)
      omega
    · rw [heq] at hlow hhigh
      have h₁ := hmono.lt_iff_lt.1 hlow
      have h₂ := hmono.lt_iff_lt.1 hhigh
      omega
    · have h₁ := hmono.lt_iff_lt.1 (hlow.trans hhigh')
      have h₂ := hmono.lt_iff_lt.1 (hlow'.trans hhigh)
      obtain rfl : i = j := by omega
      exact h

end exact

/-- A process with nothing but its root table, and so many free pages. -/
def bare (A : Arch) (pages : Nat) : Sys A where
  space := ⟨fun _ => none, fun _ _ => false, nofun, nofun⟩
  ram := ⟨⟨256, pages, fun _ => false, fun _ => 0, 0⟩, fun _ _ => 0⟩
  mmapEnd := A.base

theorem bare_ok (A : Arch) (pages : Nat) : (bare A pages).ram.pmm.Ok := by
  refine ⟨fun {pa} _ => ?_, ?_, ?_⟩
  · rw [Pmm.getRef]
    split <;> rfl
  · rintro ⟨i, hi, -⟩
    simp [Pmm.pageOf, bare] at hi
  · rfl

/-- A call for fresh memory that can be written. -/
def anonymousArgs (length : BitVec 64) : Args := ⟨0, length, 3, 0x22, -1, 0⟩

def noFiles : Files := ⟨fun _ => none, fun _ _ => none⟩

/-- Four pages are enough for the first page of a process on x86-64. -/
theorem mmap_contract_bare : Contract noFiles (bare x86_64 4) (anonymousArgs 4096) (fun _ => 0) := by
  have hsize : (anonymousArgs 4096).size / 4096 = 1 := by decide
  have hsupply : (bare x86_64 4).supply (anonymousArgs 4096) = 4 := by decide +kernel
  have hzero : (bare x86_64 4).needs (anonymousArgs 4096) 0 = 0 := rfl
  have hone : (bare x86_64 4).needs (anonymousArgs 4096) 1 = 4 := by decide +kernel
  refine (mmap_contract_iff (bare_ok _ _)).2 fun _ _ =>
    ⟨fun _ h => absurd h (by decide), fun i hi heq => ?_, fun i hi hlow hhigh => ?_⟩
  · obtain rfl : i = 0 := by omega
    omega
  · obtain rfl : i = 0 := by omega
    rw [zero_add] at hhigh
    omega

/-- INCORRECT in general: on aarch64 a call that gets its page, but none for the tables, succeeds with the page not mapped;
    and on x86-64 a call for two pages that gets four pages fails and keeps the three it made tables of. -/
theorem not_mmap_contract : ¬ Contract noFiles (bare aarch64 1) (anonymousArgs 4096) (fun _ => 0) ∧
    ¬ Contract noFiles (bare x86_64 4) (anonymousArgs 8192) (fun _ => 0) := by
  constructor
  · rintro ⟨r, s', hrun, hmade, -⟩
    have hhole : (sysMmap noFiles (bare aarch64 1) (anonymousArgs 4096)).map
        (fun q => (q.1, q.2.space.leaf (aarch64.base / 4096))) = some (0x2000000000, none) := by decide +kernel
    rw [hrun] at hhole
    obtain ⟨rfl, hleaf⟩ := Prod.mk.inj (some.inj hhole)
    obtain ⟨f, -, hpages⟩ := (hmade (by decide)).pages
    have := (hpages 0 (by decide)).1
    exact absurd (hleaf.symm.trans this) (by simp)
  · rintro ⟨r, s', hrun, -, hfail⟩
    have hkept : (sysMmap noFiles (bare x86_64 4) (anonymousArgs 8192)).map
        (fun q => (q.1, q.2.ram.pmm.getRef 257)) = some (-12, 1) := by decide +kernel
    rw [hrun] at hkept
    obtain ⟨rfl, href⟩ := Prod.mk.inj (some.inj hkept)
    have := (hfail (by decide) (by decide)).2.ref 257
    exact absurd (href.symm.trans this) (by decide)

/-- And on x86-64 the kernel goes no further when there is no page for a table. -/
theorem sysMmap_stops : sysMmap noFiles (bare x86_64 1) (anonymousArgs 4096) = none := by decide +kernel

end Sys

end Orthox.Mmap
