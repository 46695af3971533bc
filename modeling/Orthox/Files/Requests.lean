import Orthox.Cache.Read
import Orthox.Blocks.Cut
import Orthox.Files.Ramfs

/-! Reading, writing and truncating a file of either file system, seen from the caller: a file is its
    size and its bytes (`View`), and a request leads to a result and another view. Offsets, counts and
    lengths are 64 bits wide; xv6fs keeps 32 of them. -/

namespace Orthox.Files
open Blocks Option
open Cache (Env Bio xv6fsReadi readi_spec)

/-- A file as its user sees it. The bytes at and behind the size are what would show if the size grew. -/
structure View where
  size : Nat
  data : Nat → BitVec 8

def viewOf (v : Vol) (i : Nat) : View := ⟨(inodeAt v i).size, data v (inodeAt v i)⟩

def Ramfs.view (rf : Ramfs) : View := ⟨rf.size, rf.data⟩

/-- `fs_read` on an xv6fs descriptor. -/
def fsRead (env : Env) (s : Bio) (v : Vol) (i off count : Nat) (dst : Nat → BitVec 8) : Int × (Nat → BitVec 8) :=
  let r := xv6fsReadi env s (inodeAt v i) dst (off % 2 ^ 32) (count % 2 ^ 32)
  (if r.1 < 0 then -eio else r.1, r.2.dst)

/-- `xv6fs_truncate_file` on the inode its path names, behind `fs_ftruncate` and `fs_truncate`. The size
    cannot change between the estimate of the reservation and the test under the lock here. -/
def xv6fsTruncateFile (v : Vol) (i length now : Nat) : Int × Vol :=
  if length > maxFile * bsize then (-1, v)
  else if length < (inodeAt v i).size then (0, (xv6fsItruncTo v (inodeAt v i) (length % 2 ^ 32) now).2)
  else (0, xv6fsIupdate v { inodeAt v i with size := length % 2 ^ 32, mtime := now })

/-! ### xv6fs -/

/-- The bytes `fs_read` gets. -/
def readable (size o c : Nat) : Nat := if size ≤ o ∨ 2 ^ 32 ≤ o + c then 0 else min c (size - o)

variable {v : Vol} {rf : Ramfs}

theorem fsRead_spec {env : Env} {s : Bio} (hs : s.Shows v.mem) (he : env.Reads) (i off count : Nat) (dst : Nat → BitVec 8) :
    let k := readable (inodeAt v i).size (off % 2 ^ 32) (count % 2 ^ 32)
    let r := fsRead env s v i off count dst
    r.1 = (if 2 ^ 31 ≤ k then -eio else k) ∧ ∀ j < k, r.2 j = data v (inodeAt v i) (off % 2 ^ 32 + j) := by
  have hc : count % 2 ^ 32 < 2 ^ 32 := Nat.mod_lt _ (by decide)
  intro k r
  simp only [k, r, fsRead, readable]
  generalize off % 2 ^ 32 = o at *
  generalize count % 2 ^ 32 = c at *
  rcases lt_or_ge (inodeAt v i).size o with hbehind | hle
  · rw [if_pos (Or.inl (by omega)), xv6fsReadi, if_pos (Or.inl hbehind)]
    simp
  rcases lt_or_ge (o + c) (2 ^ 32) with hfit | hwrap
  swap
  · rw [if_pos (Or.inr hwrap), xv6fsReadi, if_pos (Or.inr (by omega))]
    simp
  obtain ⟨hret, hbytes, -⟩ := readi_spec hs he dst hle hfit
  have hk : (if (inodeAt v i).size ≤ o ∨ 2 ^ 32 ≤ o + c then 0 else min c ((inodeAt v i).size - o)) =
      min c ((inodeAt v i).size - o) := by
    split <;> omega
  rw [hk, hret]
  refine ⟨?_, hbytes⟩
  have hklt : min c ((inodeAt v i).size - o) < 2 ^ 32 := by omega
  generalize min c ((inodeAt v i).size - o) = k at *
  rcases lt_or_ge k (2 ^ 31) with hsmall | hbig
  · rw [toInt32_of_lt hsmall, if_neg (not_lt.mpr (Int.natCast_nonneg k)), if_neg (by omega)]
  · rw [if_pos (toInt32_neg hbig hklt), if_pos hbig]

variable {i now count : Nat}

/-- Storing only a new size and time keeps the bytes. -/
theorem resize_spec (h : WellFormed v) (hi : Live v i) {size : Nat} (hs : size < 2 ^ 32) (hn : now < 2 ^ 32) :
    let ip' := { inodeAt v i with size := size, mtime := now }
    Changed v i (xv6fsIupdate v ip') ip' ∧ data (xv6fsIupdate v ip') ip' = data v (inodeAt v i) :=
  h.changed hi (.refl v _) (h.sound i hi) _ rfl rfl rfl hs hn

/-- Cutting to a length that rounds up to blocks below 2^32 keeps the blocks of that length; the rounding of
    the last 1023 lengths passes 2^32 and keeps none. -/
theorem truncate_spec (h : WellFormed v) (hi : Live v i) (length : Nat) (hn : now < 2 ^ 32) :
    let r := xv6fsTruncateFile v i length now
    (maxFile * bsize < length ∧ r = (-1, v)) ∨
    (length ≤ maxFile * bsize ∧ r.1 = 0 ∧ WellFormed r.2 ∧ Live r.2 i ∧ (viewOf r.2 i).size = length % 2 ^ 32 ∧
      ∀ p, (viewOf r.2 i).data p = if length < (inodeAt v i).size ∧ blocksOf length ≤ p / bsize then 0 else (viewOf v i).data p) := by
  intro r
  have hsize := inodeAt_size_lt v i
  simp only [r, xv6fsTruncateFile]
  split
  · rename_i hbig
    exact .inl ⟨hbig, rfl⟩
  refine .inr ⟨by omega, ?_⟩
  split
  · rename_i hlt
    have hmod : length % 2 ^ 32 = length := Nat.mod_eq_of_lt (by omega)
    obtain ⟨hch, hsz, hdata⟩ := itruncTo_spec h hi (by omega : length < 2 ^ 32) hn
    rw [hmod]
    refine ⟨rfl, hch.wf, hch.live, by rw [viewOf, hch.inode, hsz], fun p => ?_⟩
    simp only [viewOf, hch.inode, hdata, hlt, true_and]
    rcases lt_or_ge (p / bsize) (blocksOf length) with hp | hp
    · rw [if_pos hp, if_neg (by omega)]
    · rw [if_neg (by omega), if_pos hp]
  · rename_i hge
    obtain ⟨hch, hdata⟩ := resize_spec h hi (Nat.mod_lt length (by decide)) hn
    refine ⟨rfl, hch.wf, hch.live, by rw [viewOf, hch.inode], fun p => ?_⟩
    rw [if_neg (fun hc => hge hc.1)]
    simp only [viewOf, hch.inode, hdata]

/-! ### ramfs -/

/-- Where a write through a descriptor is to go. -/
def Fd.named (f : Fd) (a : View) : Nat := if f.append then a.size else f.offset

namespace Ramfs

/-- Every byte of the file has a page. -/
def Backed (rf : Ramfs) : Prop := ∀ p < rf.size, (rf.pages (p / pageSize)).isSome = true

theorem Ok.page (h : rf.Ok) {p : Nat} : (rf.pages (p / pageSize)).isSome ↔ p < rf.capacity := by
  rw [h.pages]
  have := h.whole
  unfold pageSize at *
  omega

theorem Ok.backed (h : rf.Ok) : rf.Backed := fun _ hp => h.page.mpr (hp.trans_le h.size)

/-- The pages for `needed` bytes are there or can be had: the table, if it has to grow, and every page that is missing. -/
def CanGrow (h : Heap) (rf : Ramfs) (needed : Nat) : Prop :=
  needed ≤ rf.capacity ∨
    let need := (needed + pageSize - 1) % 2 ^ 64 / pageSize
    (need ≤ rf.tableCap ∨ (h.pmmAlloc (asSize (tablePages (doubleTo need 64
      (if rf.tableCap = 0 then 4 else rf.tableCap * 2 % 2 ^ 64))))).1 = true) ∧
    ∀ j < need - rf.capacity / pageSize, h.grant (h.calls + (if need ≤ rf.tableCap then 0 else 1) + j) 1 = true

theorem growPages_true {need : Nat} : ∀ (fuel i : Nat) (h : Heap) (rf : Ramfs), (∀ j, i ≤ j → rf.pages j = none) →
    need - i ≤ fuel → ((growPages need fuel i h rf).1 ↔ ∀ j < need - i, h.grant (h.calls + j) 1) := by
  intro fuel
  induction fuel with
  | zero =>
    intro i h rf _ hfuel
    have hz : need - i = 0 := by omega
    simp [growPages, hz]
  | succ fuel ih =>
    intro i h rf hnone hfuel
    rcases lt_or_ge i need with hlt | hge
    · simp only [growPages, if_pos hlt, hnone i le_rfl, isSome_none, Bool.false_eq_true, if_false]
      have hsplit : (∀ j < need - i, h.grant (h.calls + j) 1) ↔
          h.grant h.calls 1 ∧ ∀ j < need - (i + 1), h.grant (h.calls + 1 + j) 1 := by
        constructor
        · intro hall
          refine ⟨hall 0 (by omega), fun j hj => ?_⟩
          rw [add_assoc, add_comm 1 j]
          exact hall (j + 1) (by omega)
        · rintro ⟨h₀, hrest⟩ j hj
          rcases j with - | j
          · exact h₀
          · have := hrest j (by omega)
            rwa [add_assoc, add_comm 1 j] at this
      rw [hsplit]
      rcases hg : h.grant h.calls 1 with - | -
      · simp [Heap.pmmAlloc, hg]
      have hrest := ih (i + 1) (h.pmmAlloc 1).2 { rf with
        pages := Function.update rf.pages i (some fun _ => 0), capacity := (rf.capacity + pageSize) % 2 ^ 64 }
        (fun j hj => (Function.update_of_ne (by omega) _ _).trans (hnone j (by omega))) (by omega)
      rw [if_pos (by simp [Heap.pmmAlloc, hg]), hrest]
      simp [Heap.pmmAlloc]
    · have hz : need - i = 0 := by omega
      simp [growPages, hz, not_lt.mpr hge]

theorem grow_iff (hok : rf.Ok) (h : Heap) (needed : Nat) : (ramfsGrow h rf needed).1 ↔ CanGrow h rf needed := by
  have hnone : ∀ j, rf.capacity / pageSize ≤ j → rf.pages j = none := by
    intro j hj
    rw [← not_isSome_iff_eq_none, hok.pages]
    omega
  simp only [ramfsGrow, CanGrow]
  split
  · rename_i hle
    exact iff_of_true rfl (.inl hle)
  rename_i hgt
  rw [or_iff_right hgt]
  generalize (needed + pageSize - 1) % 2 ^ 64 / pageSize = need
  rcases lt_or_ge rf.tableCap need with hlt | hge
  · simp only [ramfsGrowTable, if_neg (not_le.mpr hlt), or_iff_right (not_le.mpr hlt)]
    generalize asSize (tablePages (doubleTo need 64 (if rf.tableCap = 0 then 4 else rf.tableCap * 2 % 2 ^ 64))) = n
    generalize doubleTo need 64 (if rf.tableCap = 0 then 4 else rf.tableCap * 2 % 2 ^ 64) = cap
    rcases hg : (h.pmmAlloc n).1 with - | -
    · simp
    · simp only [true_and]
      exact growPages_true need _ (h.pmmAlloc n).2 { rf with tableCap := cap } hnone (Nat.sub_le _ _)
  · simp only [ramfsGrowTable, if_pos hge, if_true, add_zero]
    rw [growPages_true need _ h rf hnone (Nat.sub_le _ _), and_iff_right (.inl hge)]

theorem fsRead_spec (hok : rf.Ok) (off count : Nat) (dst : Nat → BitVec 8) :
    let k := min count (rf.size - off)
    ∃ dst', rf.fsRead off count dst = some ((BitVec.ofNat 64 k).toInt, dst') ∧ ∀ j < k, dst' j = rf.data (off + j) := by
  intro k
  have hsize := hok.size
  have hfits := hok.fits
  rcases lt_or_ge off rf.size with hlt | hge
  · have hk : (if count > rf.size - off then rf.size - off else count) = k := by
      split <;> omega
    obtain ⟨dst', h₁, h₂⟩ := readPages_spec (by omega : off + k ≤ 2 ^ 64)
      (fun p _ hp => hok.page.mpr (by omega)) k 0 dst (by omega) (Nat.zero_le _) (fun j hj => absurd hj (Nat.not_lt_zero j))
    refine ⟨dst', ?_, h₂⟩
    simp only [fsRead, if_neg (not_le.mpr hlt), hk, h₁, map_some]
  · have hk : k = 0 := by omega
    exact ⟨dst, by rw [fsRead, if_pos hge, hk]; rfl, by simp [hk]⟩

/-- For want of memory nothing changes but the table and the pages behind the end. -/
theorem fsWrite_failed (hok : rf.Ok) (h : Heap) (f : Fd) (src : Nat → BitVec 8)
    (hno : ¬ rf.CanGrow h ((f.named rf.view + count) % 2 ^ 64)) : ∃ h' rf', fsWrite h rf f src count = some (-enospc, h', rf') ∧
      rf'.Ok ∧ rf'.size = rf.size ∧ rf'.data = rf.data := by
  have hn : (f.named rf.view + count) % 2 ^ 64 < 2 ^ 64 := Nat.mod_lt _ (by decide)
  obtain ⟨hok', hsize, hdata, -⟩ := grow_spec hok h hn
  rw [← grow_iff hok] at hno
  exact ⟨_, _, if_neg hno, hok', hsize, hdata⟩

/-- `fs_write` with the position it starts at. -/
theorem fsWrite_eq (h : Heap) (rf : Ramfs) (f : Fd) (src : Nat → BitVec 8) (count : Nat) : fsWrite h rf f src count =
    (let g := ramfsGrow h rf ((f.named rf.view + count) % 2 ^ 64)
      if g.1 then
        match writePages src count (f.named rf.view) count 0 g.2.2.pages with
        | none => none
        | some pages => some ((BitVec.ofNat 64 count).toInt, g.2.1, { g.2.2 with
            pages := pages,
            size := if (f.named rf.view + count) % 2 ^ 64 > rf.size then (f.named rf.view + count) % 2 ^ 64 else rf.size })
      else some (-enospc, g.2)) := rfl

/-- With memory, and an end that rounds up to pages below 2^64, all bytes are stored. -/
theorem fsWrite_stored (hok : rf.Ok) (h : Heap) (f : Fd) (src : Nat → BitVec 8)
    (hfit : f.named rf.view + count + pageSize - 1 < 2 ^ 64) (hcan : rf.CanGrow h ((f.named rf.view + count) % 2 ^ 64)) :
    ∃ h' rf', fsWrite h rf f src count = some ((BitVec.ofNat 64 count).toInt, h', rf') ∧ rf'.Ok ∧
      rf'.size = max rf.size (f.named rf.view + count) ∧ rf'.data = overlay rf.data src (f.named rf.view) count ∧
      rf'.capacity = (ramfsGrow h rf ((f.named rf.view + count) % 2 ^ 64)).2.2.capacity := by
  have hlt : f.named rf.view + count < 2 ^ 64 := by
    unfold pageSize at hfit
    omega
  have hmod : (f.named rf.view + count) % 2 ^ 64 = f.named rf.view + count := Nat.mod_eq_of_lt hlt
  have hcall := fsWrite_eq h rf f src count
  rw [← grow_iff hok] at hcan
  rw [hmod] at hcall hcan ⊢
  obtain ⟨hok', hsize, hdata, hcover, -⟩ := grow_spec hok h hlt
  generalize f.named rf.view = start at *
  have hcap := hcover hfit hcan
  obtain ⟨pages, hw, hbytes, hsome⟩ := writePages_spec src hlt.le count 0 (ramfsGrow h rf (start + count)).2.2.pages
    (by omega) (Nat.zero_le _) (fun p _ hp => hok'.page.mpr (by omega))
  have hsz : (if start + count > rf.size then start + count else rf.size) = max rf.size (start + count) := by
    split <;> omega
  refine ⟨(ramfsGrow h rf (start + count)).2.1,
    { (ramfsGrow h rf (start + count)).2.2 with pages := pages, size := max rf.size (start + count) },
    by simp only [hcall, hcan, if_true, hw, hsz], ⟨fun i => ?_, hok'.whole, hok'.fits, hok'.table, hok'.slots, ?_⟩,
    rfl, ?_, rfl⟩
  · exact (Eq.congr_left (hsome i)).trans (hok'.pages i)
  · have := hok'.size
    simp only
    omega
  · refine .trans (b := byteOf pages) rfl ?_
    rw [hbytes, show byteOf (ramfsGrow h rf (start + count)).2.2.pages = rf.data from hdata]
    simp

end Ramfs
end Orthox.Files
