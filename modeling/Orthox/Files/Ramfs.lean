import Orthox.Files.Calls

/-! Files in memory (`ramfs_grow`, and the ramfs branches of `fs_read`, `fs_write` and `fs_ftruncate` in `kernel/fs.c`). A file
    has a table of pages that grows one page at a time and never shrinks; sizes and positions are `size_t`, so sums are taken
    modulo 2^64. Which requests for memory succeed is up to the page allocator. -/

namespace Orthox.Files
open Function Option
open Blocks (overlay overlay_overlay toInt32)

/-- `PAGE_SIZE` -/
def pageSize : Nat := 4096

/-- The page allocator: whether its `k`-th call gets `n` pages, and the calls so far. -/
structure Heap where
  grant : Nat → Nat → Bool
  calls : Nat

/-- `pmm_alloc`; no pages is a failure. -/
def Heap.pmmAlloc (h : Heap) (n : Nat) : Bool × Heap := (n != 0 && h.grant h.calls n, { h with calls := h.calls + 1 })

/-- `struct ramfs_file`: `pages` has the entries of the table that are set. -/
structure Ramfs where
  size : Nat
  capacity : Nat
  tableCap : Nat
  pages : Nat → Option (Nat → BitVec 8)

namespace Ramfs

/-! ### Growing -/

/-- The `while` loop that doubles the table; 64 rounds pass any `size_t`. -/
def doubleTo (need : Nat) : Nat → Nat → Nat
  | 0, c => c
  | fuel + 1, c => if c < need then doubleTo need fuel (c * 2 % 2 ^ 64) else c

/-- Pages of a table with `c` entries. -/
def tablePages (c : Nat) : Nat := (c * 8 % 2 ^ 64 + pageSize - 1) % 2 ^ 64 / pageSize

/-- An `int` argument passed as `size_t`. -/
def asSize (n : Nat) : Nat := (toInt32 n % 2 ^ 64).toNat

def ramfsGrowTable (h : Heap) (rf : Ramfs) (needPages : Nat) : Bool × Heap × Ramfs :=
  if needPages ≤ rf.tableCap then (true, h, rf)
  else
    let cap := doubleTo needPages 64 (if rf.tableCap = 0 then 4 else rf.tableCap * 2 % 2 ^ 64)
    let a := h.pmmAlloc (asSize (tablePages cap))
    if a.1 then (true, a.2, { rf with tableCap := cap }) else (false, a.2, rf)

/-- The loop that adds pages, at page `i`. -/
def growPages (need : Nat) : Nat → Nat → Heap → Ramfs → Bool × Heap × Ramfs
  | 0, _, h, rf => (true, h, rf)
  | fuel + 1, i, h, rf =>
    if i < need then
      if (rf.pages i).isSome then growPages need fuel (i + 1) h rf
      else
        let a := h.pmmAlloc 1
        if a.1 then
          growPages need fuel (i + 1) a.2 { rf with
            pages := update rf.pages i (some fun _ => 0), capacity := (rf.capacity + pageSize) % 2 ^ 64 }
        else (false, a.2, rf)
    else (true, h, rf)

def ramfsGrow (h : Heap) (rf : Ramfs) (needed : Nat) : Bool × Heap × Ramfs :=
  if needed ≤ rf.capacity then (true, h, rf)
  else
    let need := (needed + pageSize - 1) % 2 ^ 64 / pageSize
    let t := ramfsGrowTable h rf need
    if t.1 then growPages need need (rf.capacity / pageSize) t.2.1 t.2.2 else t

/-! ### Reading, writing and truncating -/

/-- `memcpy` of `m` bytes from `src` into a page at `pos`. -/
def copyIn (page : Nat → BitVec 8) (pos m : Nat) (src : Nat → BitVec 8) : Nat → BitVec 8 := overlay page src pos m

/-- The loop of the write; a position without a page is an access through a wild pointer (`none`). -/
def writePages (src : Nat → BitVec 8) (count off : Nat) : Nat → Nat → (Nat → Option (Nat → BitVec 8)) →
    Option (Nat → Option (Nat → BitVec 8))
  | 0, _, pages => some pages
  | fuel + 1, written, pages =>
    if written < count then
      let pos := (off + written) % 2 ^ 64
      let chunk := min (pageSize - pos % pageSize) (count - written)
      match pages (pos / pageSize) with
      | none => none
      | some page =>
        writePages src count off fuel (written + chunk)
          (update pages (pos / pageSize)
            (some (copyIn page (pos % pageSize) chunk fun j => src (written + j))))
    else some pages

/-- `ENOSPC` -/
def enospc : Int := 28

/-- `fs_write` on a ramfs descriptor; the result is an `int64_t`. -/
def fsWrite (h : Heap) (rf : Ramfs) (f : Fd) (src : Nat → BitVec 8) (count : Nat) : Option (Int × Heap × Ramfs) :=
  let off := if f.append then rf.size else f.offset
  let g := ramfsGrow h rf ((off + count) % 2 ^ 64)
  if g.1 then
    match writePages src count off count 0 g.2.2.pages with
    | none => none
    | some pages => some ((BitVec.ofNat 64 count).toInt, g.2.1, { g.2.2 with
        pages := pages, size := if (off + count) % 2 ^ 64 > rf.size then (off + count) % 2 ^ 64 else rf.size })
  else some (-enospc, g.2)

/-- The loop of the read. -/
def readPages (rf : Ramfs) (off toRead : Nat) : Nat → Nat → (Nat → BitVec 8) → Option (Nat → BitVec 8)
  | 0, _, dst => some dst
  | fuel + 1, done, dst =>
    if done < toRead then
      let pos := (off + done) % 2 ^ 64
      let chunk := min (pageSize - pos % pageSize) (toRead - done)
      match rf.pages (pos / pageSize) with
      | none => none
      | some page => readPages rf off toRead fuel (done + chunk) (overlay dst (fun j => page (pos % pageSize + j)) done chunk)
    else some dst

/-- `fs_read` on a ramfs descriptor. -/
def fsRead (rf : Ramfs) (off count : Nat) (dst : Nat → BitVec 8) : Option (Int × (Nat → BitVec 8)) :=
  if off ≥ rf.size then some (0, dst)
  else
    let toRead := if count > rf.size - off then rf.size - off else count
    (readPages rf off toRead toRead 0 dst).map fun d => ((BitVec.ofNat 64 toRead).toInt, d)

/-- `fs_ftruncate` and `fs_truncate` on a ramfs file. -/
def fsTruncate (h : Heap) (rf : Ramfs) (length : Nat) : Int × Heap × Ramfs :=
  if length > rf.size then
    let g := ramfsGrow h rf length
    if g.1 then (0, g.2.1, { g.2.2 with size := length }) else (-enospc, g.2)
  else (0, h, { rf with size := length })

/-! ### Well-formed files -/

/-- The byte a table of pages has at a position, zero where there is no page. -/
def byteOf (pages : Nat → Option (Nat → BitVec 8)) (p : Nat) : BitVec 8 :=
  match pages (p / pageSize) with
  | some page => page (p % pageSize)
  | none => 0

def data (rf : Ramfs) : Nat → BitVec 8 := byteOf rf.pages

/-- The pages are those below the capacity, which covers the file. -/
structure Ok (rf : Ramfs) : Prop where
  pages : ∀ i, (rf.pages i).isSome = true ↔ i < rf.capacity / pageSize
  whole : rf.capacity % pageSize = 0
  fits : rf.capacity < 2 ^ 64
  table : rf.capacity / pageSize ≤ rf.tableCap
  slots : rf.tableCap ≤ 2 ^ 60
  size : rf.size ≤ rf.capacity

variable {rf : Ramfs} {need : Nat}

theorem doubleTo_spec (hneed : need ≤ 2 ^ 52) : ∀ (fuel c : Nat), c ≤ 2 ^ 53 → need ≤ c * 2 ^ fuel →
    need ≤ doubleTo need fuel c ∧ doubleTo need fuel c ≤ 2 ^ 53
  | 0, c, hc, h => ⟨by simpa [doubleTo] using h, hc⟩
  | fuel + 1, c, hc, h => by
    rw [doubleTo]
    split
    · rename_i hlt
      rw [Nat.mod_eq_of_lt (by omega)]
      refine doubleTo_spec hneed fuel (c * 2) (by omega) ?_
      rwa [mul_assoc, ← pow_succ']
    · exact ⟨by omega, hc⟩

theorem growTable_spec (hok : rf.Ok) (h : Heap) (hneed : need ≤ 2 ^ 52) :
    let r := ramfsGrowTable h rf need
    r.2.2.Ok ∧ r.2.2.size = rf.size ∧ r.2.2.capacity = rf.capacity ∧ r.2.2.pages = rf.pages ∧ (r.1 → need ≤ r.2.2.tableCap) := by
  intro r
  simp only [r, ramfsGrowTable]
  split
  · rename_i hle
    exact ⟨hok, rfl, rfl, rfl, fun _ => hle⟩
  have hstart : 0 < (if rf.tableCap = 0 then 4 else rf.tableCap * 2 % 2 ^ 64) ∧
      (if rf.tableCap = 0 then 4 else rf.tableCap * 2 % 2 ^ 64) ≤ 2 ^ 53 := by
    split <;> omega
  obtain ⟨hge, hle⟩ := doubleTo_spec hneed 64 _ hstart.2 (le_trans (hneed.trans (by decide)) (Nat.mul_le_mul_right _ hstart.1))
  generalize doubleTo need 64 (if rf.tableCap = 0 then 4 else rf.tableCap * 2 % 2 ^ 64) = cap at *
  split
  · have := hok.table
    exact ⟨⟨hok.pages, hok.whole, hok.fits, by simp only; omega, by simp only; omega, hok.size⟩, rfl, rfl, rfl, fun _ => hge⟩
  · rename_i hfail
    exact ⟨hok, rfl, rfl, rfl, nofun⟩

/-- A page of zeros behind the last one changes no byte. -/
theorem addPage (hok : rf.Ok) (hroom : rf.capacity / pageSize < rf.tableCap) (hfit : rf.capacity + pageSize < 2 ^ 64) :
    let rf' := { rf with
      pages := update rf.pages (rf.capacity / pageSize) (some fun _ => 0), capacity := (rf.capacity + pageSize) % 2 ^ 64 }
    rf'.Ok ∧ rf'.data = rf.data ∧ rf'.capacity / pageSize = rf.capacity / pageSize + 1 := by
  intro rf'
  have hcap : rf'.capacity = rf.capacity + pageSize := Nat.mod_eq_of_lt hfit
  have hwhole := hok.whole
  have hdiv : rf'.capacity / pageSize = rf.capacity / pageSize + 1 := by
    rw [hcap]
    exact Nat.add_div_right _ (by decide)
  refine ⟨⟨fun i => ?_, by rw [hcap, Nat.add_mod_right, hwhole], by rw [hcap]; exact hfit, by rw [hdiv]; exact hroom, hok.slots,
    by rw [hcap]; exact hok.size.trans (Nat.le_add_right _ _)⟩, ?_, hdiv⟩
  · rw [hdiv]
    rcases eq_or_ne i (rf.capacity / pageSize) with rfl | hne
    · simp [rf']
    · simp only [rf', update_of_ne hne, hok.pages i]
      omega
  · funext p
    have hnone : rf.pages (rf.capacity / pageSize) = none := by
      rw [← not_isSome_iff_eq_none, hok.pages]
      omega
    simp only [data, byteOf, rf']
    rcases eq_or_ne (p / pageSize) (rf.capacity / pageSize) with he | hne
    · rw [he, update_self, hnone]
    · rw [update_of_ne hne]

theorem growPages_spec (hneed : need * pageSize < 2 ^ 64) : ∀ (fuel i : Nat) (h : Heap) (rf : Ramfs), rf.Ok →
    i = rf.capacity / pageSize → need ≤ rf.tableCap → need - i ≤ fuel →
    let r := growPages need fuel i h rf
    r.2.2.Ok ∧ r.2.2.size = rf.size ∧ r.2.2.data = rf.data ∧ (r.1 → need ≤ r.2.2.capacity / pageSize) := by
  intro fuel
  induction fuel with
  | zero =>
    intro i h rf hok hi _ hfuel
    exact ⟨hok, rfl, rfl, fun _ => by simp only [growPages]; omega⟩
  | succ fuel ih =>
    intro i h rf hok hi htable hfuel
    rcases lt_or_ge i need with hlt | hge
    · have hnone : (rf.pages i).isSome = false := by
        rw [← Bool.not_eq_true, hok.pages i]
        omega
      simp only [growPages, if_pos hlt, hnone, Bool.false_eq_true, if_false]
      split
      · have hwhole := hok.whole
        have hfit : rf.capacity + pageSize < 2 ^ 64 := by
          unfold pageSize at *
          omega
        obtain ⟨hok', hdata, hdiv⟩ := addPage hok (by omega) hfit
        rw [← hi] at hok' hdata hdiv
        obtain ⟨h₁, h₂, h₃, h₄⟩ := ih (i + 1) (h.pmmAlloc 1).2 _ hok' hdiv.symm htable (by omega)
        exact ⟨h₁, h₂, h₃.trans hdata, h₄⟩
      · exact ⟨hok, rfl, rfl, nofun⟩
    · simp only [growPages, if_neg (not_lt.mpr hge)]
      exact ⟨hok, trivial, trivial, fun _ => by omega⟩

/-- Growing keeps the size and all bytes; when it succeeds there are pages for `needed` bytes, unless rounding
    `needed` up to pages passed 2^64: then it succeeds without adding any. -/
theorem grow_spec (hok : rf.Ok) (h : Heap) {needed : Nat} (hn : needed < 2 ^ 64) :
    let r := ramfsGrow h rf needed
    r.2.2.Ok ∧ r.2.2.size = rf.size ∧ r.2.2.data = rf.data ∧ (needed + pageSize - 1 < 2 ^ 64 → r.1 → needed ≤ r.2.2.capacity) ∧
      (2 ^ 64 ≤ needed + pageSize - 1 → r = (true, h, rf) ∧ rf.capacity < needed) := by
  intro r
  have hwhole := hok.whole
  have hcap := hok.fits
  simp only [r, ramfsGrow]
  split
  · rename_i hle
    refine ⟨hok, rfl, rfl, fun _ _ => hle, fun hwrap => ?_⟩
    unfold pageSize at *
    omega
  have hneed : (needed + pageSize - 1) % 2 ^ 64 / pageSize ≤ 2 ^ 52 := by
    unfold pageSize
    omega
  obtain ⟨t₁, t₂, t₃, t₄, t₅⟩ := growTable_spec hok h hneed
  have hwrapped : 2 ^ 64 ≤ needed + pageSize - 1 → (needed + pageSize - 1) % 2 ^ 64 / pageSize = 0 := by
    unfold pageSize
    omega
  have hcover : needed + pageSize - 1 < 2 ^ 64 → needed ≤ (needed + pageSize - 1) % 2 ^ 64 / pageSize * pageSize := by
    unfold pageSize
    omega
  have hsmall : (needed + pageSize - 1) % 2 ^ 64 / pageSize * pageSize < 2 ^ 64 := by
    unfold pageSize
    omega
  generalize (needed + pageSize - 1) % 2 ^ 64 / pageSize = need at *
  split
  · rename_i ht
    obtain ⟨g₁, g₂, g₃, g₄⟩ := growPages_spec hsmall need (rf.capacity / pageSize) (ramfsGrowTable h rf need).2.1 _ t₁
      (by rw [t₃]) (t₅ ht) (Nat.sub_le _ _)
    have hdata : (ramfsGrowTable h rf need).2.2.data = rf.data := congrArg byteOf t₄
    refine ⟨g₁, g₂.trans t₂, g₃.trans hdata, fun hno hr => ?_, fun hwrap => ?_⟩
    · have hle := Nat.mul_le_mul_right pageSize (g₄ hr)
      exact ((hcover hno).trans hle).trans (Nat.div_mul_le_self _ _)
    · obtain rfl := hwrapped hwrap
      exact ⟨rfl, by omega⟩
  · rename_i ht
    have hdata : (ramfsGrowTable h rf need).2.2.data = rf.data := congrArg byteOf t₄
    refine ⟨t₁, t₂, hdata, fun _ hr => absurd hr ht, fun hwrap => ?_⟩
    obtain rfl := hwrapped hwrap
    exact absurd rfl ht

/-! ### Copying -/

section
variable (src : Nat → BitVec 8)
include src

/-- Copying into one page. -/
theorem byteOf_copyIn {pages : Nat → Option (Nat → BitVec 8)} {page : Nat → BitVec 8} {pos m : Nat}
    (hpage : pages (pos / pageSize) = some page) (hm : pos % pageSize + m ≤ pageSize) :
    byteOf (update pages (pos / pageSize) (some (copyIn page (pos % pageSize) m src))) = overlay (byteOf pages) src pos m := by
  funext p
  have hp := Nat.div_add_mod p pageSize
  have hpos := Nat.div_add_mod pos pageSize
  rw [byteOf, overlay]
  rcases eq_or_ne (p / pageSize) (pos / pageSize) with he | hne
  · rw [he, update_self]
    simp only [copyIn, overlay]
    have hsub : p % pageSize - pos % pageSize = p - pos := by rw [he] at hp; omega
    rw [hsub]
    have hiff : (pos % pageSize ≤ p % pageSize ∧ p % pageSize < pos % pageSize + m) ↔ (pos ≤ p ∧ p < pos + m) := by
      rw [he] at hp
      omega
    simp only [hiff]
    split
    · rfl
    · rw [byteOf, he, hpage]
  · rw [update_of_ne hne, if_neg]
    · rfl
    · rintro ⟨h₁, h₂⟩
      refine hne ?_
      unfold pageSize at *
      omega

/-- With pages for all of it, the write stores its bytes and nothing else. -/
theorem writePages_spec {count off : Nat} (hfit : off + count ≤ 2 ^ 64) : ∀ (fuel written : Nat)
    (pages : Nat → Option (Nat → BitVec 8)), count - written ≤ fuel → written ≤ count →
    (∀ p, off + written ≤ p → p < off + count → (pages (p / pageSize)).isSome) →
    ∃ pages', writePages src count off fuel written pages = some pages' ∧
      byteOf pages' = overlay (byteOf pages) (fun j => src (written + j)) (off + written) (count - written) ∧
      ∀ i, (pages' i).isSome = (pages i).isSome := by
  intro fuel
  induction fuel with
  | zero =>
    intro written pages hfuel hle _
    have hz : count - written = 0 := by omega
    exact ⟨pages, rfl, by rw [hz, Blocks.overlay_zero], fun _ => rfl⟩
  | succ fuel ih =>
    intro written pages hfuel hle hpages
    rcases lt_or_ge written count with hlt | hge
    · have hpos : (off + written) % 2 ^ 64 = off + written := Nat.mod_eq_of_lt (by omega)
      obtain ⟨page, hpage⟩ := isSome_iff_exists.mp (hpages (off + written) le_rfl (by omega))
      have hmod : (off + written) % pageSize < pageSize := Nat.mod_lt _ (by decide)
      obtain ⟨m, hm⟩ : ∃ m, m = min (pageSize - (off + written) % pageSize) (count - written) := ⟨_, rfl⟩
      have hsome : ∀ i, ((update pages ((off + written) / pageSize)
          (some (copyIn page ((off + written) % pageSize) m fun j => src (written + j)))) i).isSome = (pages i).isSome := by
        intro i
        rcases eq_or_ne i ((off + written) / pageSize) with rfl | hne
        · simp [hpage]
        · rw [update_of_ne hne]
      obtain ⟨pages', h₁, h₂, h₃⟩ := ih (written + m) _ (by omega) (by omega) fun p hp hp' => by
        rw [hsome]
        exact hpages p (by omega) hp'
      refine ⟨pages', ?_, ?_, fun i => (h₃ i).trans (hsome i)⟩
      · simp only [writePages, if_pos hlt, hpos, hpage, ← hm]
        exact h₁
      · rw [h₂, byteOf_copyIn _ hpage (by omega), show count - written = m + (count - (written + m)) by omega, ← overlay_overlay]
        simp only [add_assoc]
    · have hz : count - written = 0 := by omega
      refine ⟨pages, ?_, by rw [hz, Blocks.overlay_zero], fun _ => rfl⟩
      rw [writePages, if_neg (by omega)]

/-- A write goes wild when the page of one of its bytes is not there. -/
theorem writePages_wild (count off : Nat) {w : Nat} (hw : w < count) : ∀ (fuel written : Nat)
    (pages : Nat → Option (Nat → BitVec 8)), count - written ≤ fuel → written ≤ w →
    pages ((off + w) % 2 ^ 64 / pageSize) = none → writePages src count off fuel written pages = none := by
  intro fuel
  induction fuel with
  | zero =>
    intro written pages hfuel hle _
    omega
  | succ fuel ih =>
    intro written pages hfuel hle hnone
    obtain ⟨pos, hpos⟩ : ∃ pos, pos = (off + written) % 2 ^ 64 := ⟨_, rfl⟩
    obtain ⟨m, hm⟩ : ∃ m, m = min (pageSize - pos % pageSize) (count - written) := ⟨_, rfl⟩
    simp only [writePages, if_pos (by omega : written < count), ← hpos, ← hm]
    rcases hpage : pages (pos / pageSize) with - | page
    · rfl
    -- the chunk lies in one page, so the missing one comes later
    have hlater : written + m ≤ w := by
      by_contra hin
      have hsame : (off + w) % 2 ^ 64 / pageSize = pos / pageSize := by
        unfold pageSize at *
        omega
      rw [hsame, hpage] at hnone
      cases hnone
    have hmod : pos % pageSize < pageSize := Nat.mod_lt _ (by decide)
    refine ih (written + m) _ (by omega) hlater ?_
    rw [update_of_ne, hnone]
    intro he
    rw [he, hpage] at hnone
    cases hnone

end

/-- Reading inside the capacity gives the bytes of the file. -/
theorem readPages_spec {off n : Nat} (hfit : off + n ≤ 2 ^ 64)
    (hpages : ∀ p, off ≤ p → p < off + n → (rf.pages (p / pageSize)).isSome) : ∀ (fuel done : Nat)
    (dst : Nat → BitVec 8), n - done ≤ fuel → done ≤ n → (∀ j < done, dst j = rf.data (off + j)) →
    ∃ dst', readPages rf off n fuel done dst = some dst' ∧ ∀ j < n, dst' j = rf.data (off + j) := by
  intro fuel
  induction fuel with
  | zero =>
    intro done dst hfuel hle hdst
    exact ⟨dst, rfl, fun j hj => hdst j (by omega)⟩
  | succ fuel ih =>
    intro done dst hfuel hle hdst
    rcases lt_or_ge done n with hlt | hge
    · have hpos : (off + done) % 2 ^ 64 = off + done := Nat.mod_eq_of_lt (by omega)
      obtain ⟨page, hpage⟩ := isSome_iff_exists.mp (hpages (off + done) (by omega) (by omega))
      have hmod : (off + done) % pageSize < pageSize := Nat.mod_lt _ (by decide)
      obtain ⟨m, hm⟩ : ∃ m, m = min (pageSize - (off + done) % pageSize) (n - done) := ⟨_, rfl⟩
      obtain ⟨dst', h₁, h₂⟩ := ih (done + m) (overlay dst (fun j => page ((off + done) % pageSize + j)) done m)
        (by omega) (by omega) fun j hj => by
          rw [overlay]
          split
          · rename_i hin
            have hdiv : (off + j) / pageSize = (off + done) / pageSize := by
              unfold pageSize at *
              omega
            have hmod' : (off + j) % pageSize = (off + done) % pageSize + (j - done) := by
              unfold pageSize at *
              omega
            rw [data, byteOf, hdiv, hpage, hmod']
          · exact hdst j (by omega)
      refine ⟨dst', ?_, h₂⟩
      simp only [readPages, if_pos hlt, hpos, hpage, ← hm]
      exact h₁
    · refine ⟨dst, ?_, fun j hj => hdst j (by omega)⟩
      rw [readPages, if_neg (by omega)]

end Ramfs
end Orthox.Files
