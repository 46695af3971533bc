import Orthox.Files.Requests

/-! 64-bit requests. A request is served exactly when it fails and leaves the file alone, or does what it says at the positions
    it names. xv6fs keeps the low 32 bits of offsets, counts and lengths, ramfs rounds and adds modulo 2^64; which requests are
    served exactly nevertheless is worked out here, from the request and the file before it. -/

namespace Orthox.Files
open Blocks Ramfs
open Cache (Env Bio)

inductive Request
  | read (off count : Nat)
  | write (f : Fd) (src : Nat → BitVec 8) (count : Nat)
  | truncate (length : Nat)

/-- The numbers of a request are 64 bits wide. -/
def Request.Wide : Request → Prop
  | .read off count => off < 2 ^ 64 ∧ count < 2 ^ 64
  | .write f _ count => f.offset < 2 ^ 64 ∧ count < 2 ^ 64
  | .truncate length => length < 2 ^ 64

/-- A file of either file system. -/
inductive File
  | xv6fs (v : Vol) (i : Nat)
  | ramfs (h : Heap) (rf : Ramfs)

def File.view : File → View
  | .xv6fs v i => viewOf v i
  | .ramfs _ rf => rf.view

/-- What a request leads to: the result, the caller's buffer and the file. -/
structure Outcome where
  res : Int
  got : Nat → BitVec 8
  file : File

/-- What the calls find besides the file. -/
structure Setting where
  env : Env
  bio : Bio
  dst : Nat → BitVec 8
  clock : Nat → Nat

/-- `fs_read`, `fs_write` and `fs_ftruncate`; `none` is an access through a wild pointer. -/
def File.serve (c : Setting) : File → Request → Option Outcome
  | .xv6fs v i, .read off count =>
    let r := fsRead c.env c.bio v i off count c.dst
    some ⟨r.1, r.2, .xv6fs v i⟩
  | .xv6fs v i, .write f src count =>
    let r := fsWrite v i f src count c.clock
    some ⟨r.1, c.dst, .xv6fs r.2.2 i⟩
  | .xv6fs v i, .truncate length =>
    let r := xv6fsTruncateFile v i length (c.clock 0)
    some ⟨r.1, c.dst, .xv6fs r.2 i⟩
  | .ramfs h rf, .read off count => (rf.fsRead off count c.dst).map fun r => ⟨r.1, r.2, .ramfs h rf⟩
  | .ramfs h rf, .write f src count => (Ramfs.fsWrite h rf f src count).map fun r => ⟨r.1, c.dst, .ramfs r.2.1 r.2.2⟩
  | .ramfs h rf, .truncate length =>
    let r := Ramfs.fsTruncate h rf length
    some ⟨r.1, c.dst, .ramfs r.2.1 r.2.2⟩

/-! ### Exactness -/

/-- The same file. -/
def View.Same (a b : View) : Prop := b.size = a.size ∧ ∀ p < a.size, b.data p = a.data p

variable {count i : Nat} {v : Vol} {c : Setting} {h : Heap} {rf : Ramfs}

theorem View.Same.refl (a : View) : a.Same a := ⟨rfl, fun _ _ => rfl⟩

/-- `k` bytes were read from `off`, at least one if there are any. -/
def ExactRead (a : View) (off count k : Nat) (got : Nat → BitVec 8) : Prop :=
  k ≤ count ∧ (0 < k → off + k ≤ a.size) ∧ (∀ j < k, got j = a.data (off + j)) ∧ (off < a.size → 0 < count → 0 < k)

/-- `k` bytes were written at `off` and nothing else. -/
def ExactWrite (a b : View) (src : Nat → BitVec 8) (off count k : Nat) : Prop :=
  k ≤ count ∧ b.size = (if k = 0 then a.size else max a.size (off + k)) ∧
    ∀ p < b.size, b.data p = overlay a.data src off k p

/-- The file has the length and kept what is below it. -/
def ExactTruncate (a b : View) (length : Nat) : Prop := b.size = length ∧ ∀ p < min a.size length, b.data p = a.data p

/-- All bytes below the size can be got at. -/
def File.Backed : File → Prop
  | .xv6fs .. => True
  | .ramfs _ rf => rf.Backed

/-- The outcome of a request on a file with view `a` is the one it asks for. -/
def Request.Exact (a : View) (o : Outcome) : Request → Prop
  | .read off count => a.Same o.file.view ∧ (0 ≤ o.res → ExactRead a off count o.res.toNat o.got)
  | .write f src count =>
    if o.res < 0 then a.Same o.file.view else ExactWrite a o.file.view src (f.named a) count o.res.toNat
  | .truncate length => if o.res < 0 then a.Same o.file.view else ExactTruncate a o.file.view length

/-- The request is served: not through a wild pointer, exactly, and leaving a file that can be read. -/
def File.Served (c : Setting) (file : File) (q : Request) : Prop :=
  ∃ o, file.serve c q = some o ∧ q.Exact file.view o ∧ o.file.Backed

/-! ### The requests that are served -/

/-- `fs_read` on xv6fs. Below 2^32: unless there are bytes to read, any; otherwise the count must not vanish or wrap.
    At or above 2^32, behind the end of any file: the low half must give no bytes or too many for an `int`. -/
def ReadNamed (size off count : Nat) : Prop :=
  if off < 2 ^ 32 then off < size → 0 < count → 0 < count % 2 ^ 32 ∧ off + count % 2 ^ 32 < 2 ^ 32
  else size ≤ off % 2 ^ 32 ∨ count % 2 ^ 32 = 0 ∨ 2 ^ 32 ≤ off % 2 ^ 32 + count % 2 ^ 32 ∨
    2 ^ 31 ≤ min (count % 2 ^ 32) (size - off % 2 ^ 32)

/-- `fs_write` on xv6fs at `start`. Below 2^32 it must not grow the file without storing a byte; at or above 2^32
    it must store nothing and not grow the file. -/
def WriteNamed (v : Vol) (i start count : Nat) : Prop :=
  if start < 2 ^ 32 then FsWriteQuiet v i start count
  else count = 0 ∨ 2 ^ 32 ≤ start % 2 ^ 32 + min count writeChunkMax ∨
    (¬ FirstFits v i (start % 2 ^ 32) ∧ start % 2 ^ 32 ≤ (inodeAt v i).size)

/-- `(f)truncate` on xv6fs: refused as too long, a cut whose length rounds up to blocks below 2^32 (or keeps only zeros),
    or an extension below 2^32. -/
def TruncateNamed (a : View) (length : Nat) : Prop :=
  maxFile * bsize < length ∨ (length < a.size ∧ (length + bsize - 1 < 2 ^ 32 ∨ ∀ p < length, a.data p = 0)) ∨
    (a.size ≤ length ∧ length < 2 ^ 32)

/-- `fs_write` on ramfs at `start`: the end must round up to pages below 2^64, and an empty write must not lie behind
    the end of the file, unless the memory for the wrapped end cannot be had. -/
def RamfsWriteNamed (h : Heap) (rf : Ramfs) (start count : Nat) : Prop :=
  (if count = 0 then start ≤ rf.size else start + count + pageSize - 1 < 2 ^ 64) ∨
    ¬ rf.CanGrow h ((start + count) % 2 ^ 64)

def File.Named : File → Request → Prop
  | .xv6fs v i, .read off count => ReadNamed (inodeAt v i).size off count
  | .xv6fs v i, .write f _ count => WriteNamed v i (f.named (viewOf v i)) count
  | .xv6fs v i, .truncate length => TruncateNamed (viewOf v i) length
  | .ramfs .., .read .. => True
  | .ramfs h rf, .write f _ count => RamfsWriteNamed h rf (f.named rf.view) count
  | .ramfs _ rf, .truncate length => length ≤ rf.size ∨ length + pageSize - 1 < 2 ^ 64

/-- A sound file in a setting that reads it; no ramfs file gets 2^63 bytes of memory. -/
def File.Sound (c : Setting) : File → Prop
  | .xv6fs v i => WellFormed v ∧ Live v i ∧ c.bio.Shows v.mem ∧ c.env.Reads ∧ ∀ w, c.clock w < 2 ^ 32
  | .ramfs h rf => rf.Ok ∧ ∀ needed, (Ramfs.ramfsGrow h rf needed).2.2.capacity < 2 ^ 63

/-! ### xv6fs -/

theorem exactRead_iff {size : Nat} {d got : Nat → BitVec 8} {off : Nat} (hsize : size < 2 ^ 32)
    (hgot : ∀ j < readable size (off % 2 ^ 32) (count % 2 ^ 32), got j = d (off % 2 ^ 32 + j)) :
    let k := readable size (off % 2 ^ 32) (count % 2 ^ 32)
    (2 ^ 31 ≤ k ∨ ExactRead ⟨size, d⟩ off count k got) ↔ ReadNamed size off count := by
  intro k
  simp only [k] at *
  rw [ReadNamed]
  split
  · rename_i hlow
    have hmod : off % 2 ^ 32 = off := Nat.mod_eq_of_lt hlow
    rw [hmod] at hgot ⊢
    have hbasic : readable size off (count % 2 ^ 32) ≤ count ∧
        (0 < readable size off (count % 2 ^ 32) → off + readable size off (count % 2 ^ 32) ≤ size) := by
      simp only [readable]
      split <;> omega
    have hexact : ExactRead ⟨size, d⟩ off count (readable size off (count % 2 ^ 32)) got ↔
        (off < size → 0 < count → 0 < readable size off (count % 2 ^ 32)) :=
      ⟨fun h => h.2.2.2, fun h => ⟨hbasic.1, hbasic.2, hgot, h⟩⟩
    rw [hexact, readable]
    split <;> omega
  · rename_i hhigh
    have hexact : ExactRead ⟨size, d⟩ off count (readable size (off % 2 ^ 32) (count % 2 ^ 32)) got ↔
        readable size (off % 2 ^ 32) (count % 2 ^ 32) = 0 := by
      constructor
      · rintro ⟨-, h, -⟩
        rcases Nat.eq_zero_or_pos (readable size (off % 2 ^ 32) (count % 2 ^ 32)) with hz | hp
        · exact hz
        · have : off + _ ≤ size := h hp
          omega
      · intro hz
        rw [hz]
        exact ⟨Nat.zero_le _, fun h => absurd h (lt_irrefl 0), fun j hj => absurd hj (Nat.not_lt_zero j), fun h => by
          have : off < size := h
          omega⟩
    rw [hexact, readable]
    split <;> omega

theorem exactWrite_iff (h : WellFormed v) (hi : Live v i) (f : Fd) (src : Nat → BitVec 8) (count : Nat)
    {clock : Nat → Nat} (hclock : ∀ w, clock w < 2 ^ 32) :
    let r := fsWrite v i f src count clock
    (if r.1 < 0 then (viewOf v i).Same (viewOf r.2.2 i)
      else ExactWrite (viewOf v i) (viewOf r.2.2 i) src (f.named (viewOf v i)) count r.1.toNat) ↔
      WriteNamed v i (f.named (viewOf v i)) count := by
  intro r
  have hstart : f.named (viewOf v i) = f.start v i := rfl
  have hsize := inodeAt_size_lt v i
  obtain ⟨hret, hsame, hwrote⟩ := fsWrite_spec h hi f src count hclock
  have ho : f.start v i % 2 ^ 32 < 2 ^ 32 := Nat.mod_lt _ (by decide)
  have hlow : f.start v i < 2 ^ 32 → f.start v i % 2 ^ 32 = f.start v i := Nat.mod_eq_of_lt
  rw [hstart, WriteNamed]
  generalize f.start v i = start at *
  generalize ho' : start % 2 ^ 32 = o at *
  have hk : stored v (inodeAt v i) o (accepted o count) ≤ count := (stored_le ..).trans (accepted_le ho)
  rcases Nat.eq_zero_or_pos (accepted o count) with hz | hp
  · -- nothing was handed to the file system
    have hwhy := (accepted_eq_zero ho).mp hz
    have hview : viewOf r.2.2 i = viewOf v i := by rw [hsame hz]
    refine iff_of_true ?_ ?_
    · rw [hview]
      split
      · exact .refl _
      rename_i hnn
      rw [hret, hz] at hnn ⊢
      have hk0 : stored v (inodeAt v i) o 0 = 0 := Nat.zero_min _
      rw [hk0] at hnn ⊢
      have hkz : (if 0 = 0 ∧ 0 < count then -eio else ((0 : Nat) : Int)).toNat = 0 := by
        split <;> rfl
      rw [hkz]
      exact ⟨Nat.zero_le _, rfl, fun p _ => by rw [overlay_zero]⟩
    · split
      · rename_i hl
        rw [← hlow hl]
        exact hwhy.imp_right .inl
      · exact hwhy.imp_right .inl
  · obtain ⟨ip', hw⟩ := hwrote (by omega)
    have hne : ¬ (count = 0 ∨ 2 ^ 32 ≤ o + min count writeChunkMax) := fun hc => by
      have := (accepted_eq_zero ho).mpr hc
      omega
    have hfits : FirstFits v i o ↔ 0 < stored v (inodeAt v i) o (accepted o count) := (storedIn_pos hp).symm
    rw [if_neg (by omega)] at hret
    rw [hret, if_neg (not_lt.mpr (Int.natCast_nonneg _)), Int.toNat_natCast]
    have hview : viewOf r.2.2 i = ⟨max (inodeAt v i).size (o + stored v (inodeAt v i) o (accepted o count)),
        overlay (data v (inodeAt v i)) src o (stored v (inodeAt v i) o (accepted o count))⟩ := by
      rw [viewOf, hw.inode, hw.size, hw.data]
    rw [hview]
    generalize stored v (inodeAt v i) o (accepted o count) = k at *
    split
    · rename_i hl
      obtain rfl : o = start := (hlow hl)
      rw [FsWriteQuiet, hfits]
      constructor
      · rintro ⟨-, hsz, -⟩
        simp only [viewOf] at hsz
        split at hsz <;> omega
      · intro hq
        refine ⟨hk, ?_, fun p _ => rfl⟩
        simp only [viewOf]
        split <;> omega
    · rename_i hh
      rw [← or_assoc, or_iff_right hne, hfits]
      constructor
      · rintro ⟨-, hsz, -⟩
        simp only [viewOf] at hsz
        split at hsz <;> omega
      · rintro ⟨hk0, hle⟩
        obtain rfl : k = 0 := by omega
        refine ⟨hk, ?_, fun p _ => by rw [overlay_zero, overlay_zero]; rfl⟩
        simp only [viewOf, if_true]
        omega

theorem exactTruncate_iff (h : WellFormed v) (hi : Live v i) (length : Nat) {now : Nat} (hn : now < 2 ^ 32) :
    let r := xv6fsTruncateFile v i length now
    (if r.1 < 0 then (viewOf v i).Same (viewOf r.2 i) else ExactTruncate (viewOf v i) (viewOf r.2 i) length) ↔
      TruncateNamed (viewOf v i) length := by
  intro r
  have hsize : (viewOf v i).size < 2 ^ 32 := inodeAt_size_lt v i
  rcases truncate_spec h hi length hn with ⟨hbig, hr⟩ | ⟨hle, hr₁, -, -, hsz, hdata⟩
  · have hr' : r = (-1, v) := hr
    rw [hr']
    exact iff_of_true (.refl _) (.inl hbig)
  have hr₁' : r.1 = 0 := hr₁
  rw [hr₁', if_neg (by decide), ExactTruncate, TruncateNamed, or_iff_right (by omega)]
  have hsz' : (viewOf r.2 i).size = length % 2 ^ 32 := hsz
  have hdata' : ∀ p, (viewOf r.2 i).data p =
      if length < (viewOf v i).size ∧ blocksOf length ≤ p / bsize then 0 else (viewOf v i).data p := hdata
  simp only [hsz', hdata']
  generalize viewOf v i = a at *
  rcases lt_or_ge length a.size with hlt | hge
  · have hmod : length % 2 ^ 32 = length := Nat.mod_eq_of_lt (by omega)
    rw [hmod, min_eq_right hlt.le, or_iff_left (by omega)]
    simp only [hlt, true_and]
    rcases lt_or_ge (length + bsize - 1) (2 ^ 32) with hfit | hwrap
    · refine iff_of_true (fun p hp => if_neg ?_) (.inl hfit)
      rw [blocksOf, Nat.mod_eq_of_lt hfit]
      unfold bsize
      omega
    -- the rounding wraps, so no block is kept
    have hnone : blocksOf length = 0 := by
      unfold blocksOf bsize at *
      omega
    rw [or_iff_right (by omega)]
    simp only [hnone, zero_le]
    exact ⟨fun hz p hp => (hz p hp).symm, fun hz p hp => (hz p hp).symm⟩
  · simp only [not_lt.mpr hge, false_and, if_false, false_or]
    refine ⟨fun hx => ⟨hge, ?_⟩, fun hx => ⟨Nat.mod_eq_of_lt hx.2, fun _ _ => trivial⟩⟩
    omega

/-! ### ramfs -/

theorem toInt_of_lt {k : Nat} (h : k < 2 ^ 63) : (BitVec.ofNat 64 k).toInt = k := by
  rw [BitVec.toInt_eq_toNat_cond, BitVec.toNat_ofNat, Nat.mod_eq_of_lt (by omega), if_pos (by omega)]

section
variable (hok : rf.Ok)
include hok

theorem ramfs_read_served (hmem : rf.capacity < 2 ^ 63) (off count : Nat) : File.Served c (.ramfs h rf) (.read off count) := by
  obtain ⟨dst', hread, hbytes⟩ := Ramfs.fsRead_spec hok off count c.dst
  have hsize := hok.size
  have hk : min count (rf.size - off) < 2 ^ 63 := by omega
  rw [toInt_of_lt hk] at hread
  refine ⟨⟨(min count (rf.size - off) : Nat), dst', .ramfs h rf⟩, by simp only [File.serve, hread, Option.map_some],
    ⟨.refl _, fun _ => ?_⟩, hok.backed⟩
  refine ⟨min_le_left _ _, fun hp => ?_, hbytes, fun hlt hc => ?_⟩
  · simp only [File.view, view] at *
    omega
  · simp only [File.view, view] at *
    omega

/-- A request that failed for want of memory left the file as it was. -/
theorem ramfs_failed {needed : Nat} (hn : needed < 2 ^ 64) :
    rf.view.Same (ramfsGrow h rf needed).2.2.view ∧ (ramfsGrow h rf needed).2.2.Backed := by
  obtain ⟨hok', hsize, hdata, -⟩ := grow_spec hok h hn
  exact ⟨⟨hsize, fun p _ => congrFun hdata p⟩, hok'.backed⟩

theorem ramfs_truncate_iff {length : Nat} (hl : length < 2 ^ 64) :
    File.Served c (.ramfs h rf) (.truncate length) ↔ length ≤ rf.size ∨ length + pageSize - 1 < 2 ^ 64 := by
  have hsize := hok.size
  rcases lt_or_ge rf.size length with hlt | hge
  swap
  · refine iff_of_true ⟨⟨0, c.dst, .ramfs h { rf with size := length }⟩, ?_, ?_, fun p hp => ?_⟩ (.inl hge)
    · simp only [File.serve, fsTruncate, if_neg (not_lt.mpr hge)]
    · exact ⟨rfl, fun _ _ => rfl⟩
    · exact hok.page.mpr (by simp only at hp; omega)
  rw [or_iff_right (by omega)]
  obtain ⟨hok', -, hdata, hcover, hwrap⟩ := grow_spec hok h hl
  have hfail := ramfs_failed (h := h) hok hl
  rcases hg : (ramfsGrow h rf length).1 with - | -
  · -- no memory, and no wrap: a wrapped request always succeeds
    refine iff_of_true ⟨⟨-enospc, c.dst, .ramfs (ramfsGrow h rf length).2.1 (ramfsGrow h rf length).2.2⟩, ?_, ?_, hfail.2⟩ ?_
    · simp only [File.serve, fsTruncate, if_pos hlt, hg, Bool.false_eq_true, if_false]
    · exact hfail.1
    · by_contra hge
      have := (hwrap (by omega)).1
      rw [this] at hg
      cases hg
  · have hserve : File.serve c (.ramfs h rf) (.truncate length) =
        some ⟨0, c.dst, .ramfs (ramfsGrow h rf length).2.1 { (ramfsGrow h rf length).2.2 with size := length }⟩ := by
      simp only [File.serve, fsTruncate, if_pos hlt, hg, if_true]
    rcases lt_or_ge (length + pageSize - 1) (2 ^ 64) with hfit | hover
    · refine iff_of_true ⟨_, hserve, ⟨rfl, fun p _ => congrFun hdata p⟩, fun p hp => ?_⟩ hfit
      have hcap := hcover hfit hg
      exact hok'.page.mpr (by simp only at hp; omega)
    refine iff_of_false ?_ (by omega)
    rintro ⟨o, ho, -, hback⟩
    obtain ⟨hsame, hcap⟩ := hwrap hover
    rw [hserve, hsame] at ho
    obtain rfl := Option.some.inj ho
    have := hok.page.mp (hback rf.capacity hcap)
    omega

/-- A write that gets its memory and has an end that wraps, or rounds up to pages past 2^64, goes wild. -/
theorem ramfs_write_wild (f : Fd) (src : Nat → BitVec 8) (hpos : 0 < count)
    (hstart : f.named rf.view < 2 ^ 64) (hover : 2 ^ 64 ≤ f.named rf.view + count + pageSize - 1)
    (hcan : rf.CanGrow h ((f.named rf.view + count) % 2 ^ 64)) : Ramfs.fsWrite h rf f src count = none := by
  have hcall := fsWrite_eq h rf f src count
  rw [← grow_iff hok] at hcan
  obtain ⟨hok', -, -, -, hwrap⟩ := grow_spec hok h (Nat.mod_lt (f.named rf.view + count) (by decide))
  generalize f.named rf.view = start at *
  have hwild : ∃ w < count, (ramfsGrow h rf ((start + count) % 2 ^ 64)).2.2.pages ((start + w) % 2 ^ 64 / pageSize) = none := by
    have hnone : ∀ p, (ramfsGrow h rf ((start + count) % 2 ^ 64)).2.2.capacity ≤ p →
        (ramfsGrow h rf ((start + count) % 2 ^ 64)).2.2.pages (p / pageSize) = none := by
      intro p hp
      rw [← Option.not_isSome_iff_eq_none, hok'.page]
      omega
    rcases lt_or_ge (start + count) (2 ^ 64) with hlow | hhigh
    · -- the last byte lies behind the pages there are
      rw [Nat.mod_eq_of_lt hlow] at hwrap hnone ⊢
      obtain ⟨hsame, -⟩ := hwrap hover
      refine ⟨count - 1, by omega, ?_⟩
      exact hnone _ (by rw [hsame]; dsimp only; omega)
    · -- the last byte before the wrap has no page
      have := hok'.fits
      refine ⟨2 ^ 64 - 1 - start, by omega, ?_⟩
      exact hnone _ (by omega)
  obtain ⟨w, hw, hnone⟩ := hwild
  have hbad := writePages_wild src count start hw count 0 _ (by omega) (Nat.zero_le _) hnone
  simp only [hcall, hcan, if_true, hbad]

theorem named_lt {f : Fd} (hf : f.offset < 2 ^ 64) : f.named rf.view < 2 ^ 64 := by
  rw [Fd.named]
  split
  · exact hok.size.trans_lt hok.fits
  · exact hf

/-- An empty write that gets its memory sets the size to its position when that lies behind the end. -/
theorem ramfs_write_empty (f : Fd) (src : Nat → BitVec 8) (hstart : f.named rf.view < 2 ^ 64)
    (hcan : rf.CanGrow h ((f.named rf.view + 0) % 2 ^ 64)) :
    ∃ h' rf', Ramfs.fsWrite h rf f src 0 = some (0, h', rf') ∧ rf'.size = max rf.size (f.named rf.view) := by
  have hcall := fsWrite_eq h rf f src 0
  rw [← grow_iff hok] at hcan
  refine ⟨_, _, by simp only [hcall, hcan, if_true]; rfl, ?_⟩
  dsimp only
  split <;> omega

theorem ramfs_write_iff (hmem : ∀ needed, (ramfsGrow h rf needed).2.2.capacity < 2 ^ 63) (f : Fd) (src : Nat → BitVec 8)
    (hf : f.offset < 2 ^ 64) : File.Served c (.ramfs h rf) (.write f src count) ↔ RamfsWriteNamed h rf (f.named rf.view) count := by
  have hsize := hok.size
  have hfits := hok.fits
  have hwhole := hok.whole
  have hstart := named_lt hok hf
  have hserve : File.serve c (.ramfs h rf) (.write f src count) =
      (Ramfs.fsWrite h rf f src count).map fun r => ⟨r.1, c.dst, .ramfs r.2.1 r.2.2⟩ := rfl
  rw [RamfsWriteNamed]
  rcases em (rf.CanGrow h ((f.named rf.view + count) % 2 ^ 64)) with hcan | hno
  swap
  · obtain ⟨h', rf', hcall, hok', hsz, hdata⟩ := fsWrite_failed hok h f src hno
    refine iff_of_true ⟨⟨-enospc, c.dst, .ramfs h' rf'⟩, by rw [hserve, hcall]; rfl, ?_, hok'.backed⟩ (.inr hno)
    exact ⟨hsz, fun p _ => congrFun hdata p⟩
  rw [or_iff_left (not_not.mpr hcan)]
  -- a write that is stored whole is exact when it has bytes or lies inside the file
  have hexact : f.named rf.view + count + pageSize - 1 < 2 ^ 64 → (count = 0 → f.named rf.view ≤ rf.size) →
      File.Served c (.ramfs h rf) (.write f src count) := by
    intro hfit hzero
    obtain ⟨h', rf', hcall, hok', hsz, hdata, hcap⟩ := fsWrite_stored hok h f src hfit hcan
    have hbound := hmem ((f.named rf.view + count) % 2 ^ 64)
    have hle := hok'.size
    have hint : (BitVec.ofNat 64 count).toInt = count := toInt_of_lt (by omega)
    refine ⟨⟨count, c.dst, .ramfs h' rf'⟩, by rw [hserve, hcall, hint]; rfl, ?_, hok'.backed⟩
    refine ⟨le_rfl, ?_, fun p _ => congrFun hdata p⟩
    simp only [File.view, view, hsz] at hzero ⊢
    split <;> omega
  rcases Nat.eq_zero_or_pos count with rfl | hpos
  · rw [if_pos rfl]
    constructor
    · rintro ⟨o, ho, hx, -⟩
      obtain ⟨h', rf', hcall, hsz⟩ := ramfs_write_empty hok f src hstart hcan
      rw [hserve, hcall] at ho
      obtain rfl := Option.some.inj ho
      have hx' : rf'.size = rf.size := hx.2.1
      omega
    · intro hle
      refine hexact ?_ fun _ => hle
      unfold pageSize at *
      omega
  · rw [if_neg (ne_of_gt hpos)]
    rcases lt_or_ge (f.named rf.view + count + pageSize - 1) (2 ^ 64) with hfit | hover
    · exact iff_of_true (hexact hfit fun hz => absurd hz (ne_of_gt hpos)) hfit
    refine iff_of_false ?_ (by omega)
    rintro ⟨o, ho, -⟩
    rw [hserve, ramfs_write_wild hok f src hpos hstart hover hcan] at ho
    cases ho

end

/-! ### All requests -/

/-- Nothing is wild on xv6fs, so a request is served when its outcome is the one it asks for. -/
theorem xv6fs_served_iff {q : Request} {o : Outcome}
    (ho : File.serve c (.xv6fs v i) q = some o) : File.Served c (.xv6fs v i) q ↔ q.Exact (viewOf v i) o := by
  have hb : o.file.Backed := by
    rcases q with _ | _ | _ <;> obtain rfl := Option.some.inj ho <;> trivial
  constructor
  · rintro ⟨o', ho', hexact, -⟩
    obtain rfl := Option.some.inj (ho.symm.trans ho')
    exact hexact
  · exact fun hexact => ⟨o, ho, hexact, hb⟩

theorem xv6fs_read_iff (hshows : c.bio.Shows v.mem) (hreads : c.env.Reads) (i off count : Nat) :
    File.Served c (.xv6fs v i) (.read off count) ↔ ReadNamed (inodeAt v i).size off count := by
  obtain ⟨hret, hbytes⟩ := fsRead_spec hshows hreads i off count c.dst
  have hexact := exactRead_iff (inodeAt_size_lt v i) hbytes
  dsimp only at hexact
  rw [xv6fs_served_iff rfl, ← hexact]
  dsimp only [Request.Exact, File.view]
  rw [and_iff_right (View.Same.refl (viewOf v i)), hret]
  split
  · rename_i hbig
    exact iff_of_true (fun hneg => absurd hneg (by decide)) (.inl hbig)
  rename_i hsmall
  rw [or_iff_right hsmall]
  exact ⟨fun hx => hx (Int.natCast_nonneg _), fun hx _ => hx⟩

theorem xv6fs_write_iff (c : Setting) (h : WellFormed v) (hi : Live v i) (hclock : ∀ w, c.clock w < 2 ^ 32)
    (f : Fd) (src : Nat → BitVec 8) (count : Nat) :
    File.Served c (.xv6fs v i) (.write f src count) ↔ WriteNamed v i (f.named (viewOf v i)) count := by
  rw [xv6fs_served_iff rfl]
  exact exactWrite_iff h hi f src count hclock

theorem xv6fs_truncate_iff (c : Setting) (h : WellFormed v) (hi : Live v i) (hclock : ∀ w, c.clock w < 2 ^ 32)
    (length : Nat) : File.Served c (.xv6fs v i) (.truncate length) ↔ TruncateNamed (viewOf v i) length := by
  rw [xv6fs_served_iff rfl]
  exact exactTruncate_iff h hi length (hclock 0)

/-- CORRECT exactly on the named requests: a request of 64-bit numbers on a sound file is served exactly if and only
    if it does not rely on bits that the code drops. -/
theorem served_iff {c : Setting} {file : File} (hs : file.Sound c) {q : Request} (hq : q.Wide) :
    file.Served c q ↔ file.Named q := by
  rcases file with ⟨v, i⟩ | ⟨h, rf⟩
  · obtain ⟨hwf, hi, hshows, hreads, hclock⟩ := hs
    rcases q with ⟨off, count⟩ | ⟨f, src, count⟩ | length
    · exact xv6fs_read_iff hshows hreads i off count
    · exact xv6fs_write_iff c hwf hi hclock f src count
    · exact xv6fs_truncate_iff c hwf hi hclock length
  obtain ⟨hok, hmem⟩ := hs
  rcases q with ⟨off, count⟩ | ⟨f, src, count⟩ | length
  · exact iff_of_true (ramfs_read_served hok (hmem 0) off count) trivial
  · exact ramfs_write_iff hok hmem f src hq.1
  · exact ramfs_truncate_iff hok hq

/-- A device that reads everything, and an empty cache in front of a volume. -/
def Setting.plain (v : Vol) : Setting :=
  ⟨⟨fun _ _ => false, fun _ _ => false, fun _ => false, fun _ _ => 0⟩, ⟨v.mem, fun _ => none, fun _ => 0, 0⟩, fun _ => 0, fun _ => 0⟩

theorem plain_shows (v : Vol) : (Setting.plain v).bio.Shows v.mem := ⟨fun _ => rfl, nofun⟩

/-- Extending the empty file of the small volume to five bytes. -/
theorem served_tiny : File.Served (.plain (tiny 9)) (.xv6fs (tiny 9) 1) (.truncate 5) := by
  have hsize : (inodeAt (tiny 9) 1).size = 0 := by decide +kernel
  have hsound : File.Sound (.plain (tiny 9)) (.xv6fs (tiny 9) 1) :=
    ⟨tiny_wellFormed (by decide), tiny_one 9, plain_shows _, fun _ => rfl, fun _ => Nat.two_pow_pos 32⟩
  have hwide : (Request.truncate 5).Wide := show 5 < 2 ^ 64 by decide
  refine (served_iff hsound hwide).mpr (.inr (.inr ⟨?_, by decide⟩))
  exact hsize.le.trans (Nat.zero_le 5)

/-- An empty file in memory. -/
def Ramfs.empty : Ramfs := ⟨0, 0, 0, fun _ => none⟩

theorem Ramfs.empty_ok : empty.Ok :=
  ⟨fun i => by simp [empty], by decide, by decide, by decide, by decide, by decide⟩

/-- The small volume with its file extended to one byte. -/
def tinyOne : Vol := xv6fsIupdate (tiny 9) { inodeAt (tiny 9) 1 with size := 1, mtime := 0 }

/-- INCORRECT beyond the kept bits: truncating to 2^32 + 5 succeeds and leaves five bytes; a write at 2^32 lands at 0;
    reading 2^32 bytes at the start of a one-byte file gets none; a ramfs file truncated to 2^64 - 1 has no pages. -/
theorem served_not_wide :
    ((xv6fsTruncateFile (tiny 9) 1 (2 ^ 32 + 5) 0).1 = 0 ∧ (viewOf (xv6fsTruncateFile (tiny 9) 1 (2 ^ 32 + 5) 0).2 1).size = 5 ∧
      ¬ File.Served (.plain (tiny 9)) (.xv6fs (tiny 9) 1) (.truncate (2 ^ 32 + 5))) ∧
    ¬ File.Served (.plain (tiny 9)) (.xv6fs (tiny 9) 1) (.write ⟨2 ^ 32, false⟩ (fun _ => 7) 1) ∧
    ¬ File.Served (.plain tinyOne) (.xv6fs tinyOne 1) (.read 0 (2 ^ 32)) ∧
    ¬ File.Served (.plain (tiny 9)) (.ramfs ⟨fun _ _ => false, 0⟩ .empty) (.truncate (2 ^ 64 - 1)) := by
  have hwf : WellFormed (tiny 9) := tiny_wellFormed (by decide)
  have hsize : (inodeAt (tiny 9) 1).size = 0 := by decide +kernel
  have hmax : 2 ^ 32 + 5 ≤ maxFile * bsize := by decide
  refine ⟨?_, ?_, ?_, ?_⟩
  · rcases truncate_spec hwf (tiny_one 9) (2 ^ 32 + 5) (Nat.two_pow_pos 32) with ⟨hbig, -⟩ | ⟨-, hr, -, -, hsz, -⟩
    · omega
    refine ⟨hr, hsz, fun hserved => ?_⟩
    have hnamed := (xv6fs_truncate_iff _ hwf (tiny_one 9) (fun _ => Nat.two_pow_pos 32) (2 ^ 32 + 5)).mp hserved
    have hview : (viewOf (tiny 9) 1).size = 0 := hsize
    rw [TruncateNamed] at hnamed
    omega
  · intro hserved
    have hnamed := (xv6fs_write_iff _ hwf (tiny_one 9) (fun _ => Nat.two_pow_pos 32) ⟨2 ^ 32, false⟩ (fun _ => 7) 1).mp hserved
    have hfits : FirstFits (tiny 9) 1 0 := by decide +kernel
    rcases hnamed with h | h | h
    · cases h
    · exact absurd h (by decide)
    · exact h.1 hfits
  · intro hserved
    have hnamed := (xv6fs_read_iff (plain_shows tinyOne) (fun _ => rfl) 1 0 (2 ^ 32)).mp hserved
    exact absurd (hnamed (by decide) (by decide)).1 (by decide)
  · intro hserved
    have hnamed := (ramfs_truncate_iff empty_ok (by decide)).mp hserved
    exact absurd hnamed (by decide)

end Orthox.Files
