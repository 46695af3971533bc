import Orthox.Paths.Complete

/-! The cache of executable images in `kernel/fs.c` (`exec_cache_*`): twelve images by path and size, at most 128 MiB of
    pages in all. An image that somebody is loading from is not dropped but marked stale, and goes with its last user.
    What the cache answers with are its kept images: valid and not stale. Every operation but an insertion leaves a part
    of these, and an insertion adds one. -/

namespace Orthox.Images
open Function Option Finset
open Files (pageSize)
open Open (Path pathIsUnder)
open Paths (resolveTaskPath normalizeFsPath)

/-- `EXEC_CACHE_MAX` -/
def execCacheMax : Nat := 12

/-- `EXEC_CACHE_BUDGET` -/
def execCacheBudget : Nat := 128 * 1024 * 1024

/-- `struct exec_cache_entry`, with the bytes that are at `buf`. -/
structure Entry where
  valid : Bool
  inUse : Nat
  stale : Bool
  size : Nat
  npages : Nat
  buf : Option Nat
  lru : Nat
  path : Path
  image : Nat → BitVec 8

/-- A slot that is not taken. -/
def Entry.clear : Entry := ⟨false, 0, false, 0, 0, none, 0, [], fun _ => 0⟩

/-- `g_exec_cache`, `g_exec_cache_clock` and `g_exec_cache_bytes` -/
structure Cache where
  slots : Fin execCacheMax → Entry
  clock : Nat
  bytes : Nat

/-- A path as `fs_open` and the other calls see it. -/
def normalPath (cwd path : Path) : Path := normalizeFsPath (resolveTaskPath cwd path)

namespace Cache

/-- At boot. -/
def empty : Cache := ⟨fun _ => .clear, 0, 0⟩

def setSlot (c : Cache) (k : Fin execCacheMax) (e : Entry) : Cache := { c with slots := Function.update c.slots k e }

/-- `++g_exec_cache_clock` -/
def tick (c : Cache) : Nat := (c.clock + 1) % 2 ^ 64

/-- `exec_cache_set_path` -/
def execCacheSetPath (src : Path) : Path := src.take 255

/-- `exec_cache_drop_locked` -/
def execCacheDropLocked (c : Cache) (k : Fin execCacheMax) : Cache :=
  let e := c.slots k
  let need := e.npages * pageSize
  { c with
    slots := Function.update c.slots k .clear
    bytes := if e.buf.isSome ∧ e.npages ≠ 0 ∧ c.bytes ≥ need then c.bytes - need else c.bytes }

/-- The slot `exec_cache_lookup` finds. -/
def hit (c : Cache) (norm : Path) (size : Nat) : Option (Fin execCacheMax) :=
  (List.finRange execCacheMax).find? fun k =>
    (c.slots k).valid && !(c.slots k).stale && decide ((c.slots k).size = size) && decide ((c.slots k).path = norm)

/-- `exec_cache_lookup` -/
def execCacheLookup (c : Cache) (norm : Path) (size : Nat) : Option (Nat → BitVec 8) × Cache :=
  match c.hit norm size with
  | some k =>
    let e := c.slots k
    (some e.image, { c.setSlot k { e with inUse := e.inUse + 1, lru := c.tick } with clock := c.tick })
  | none => (none, c)

/-- The first slot that is not taken. -/
def freeSlot (c : Cache) : Option (Fin execCacheMax) := (List.finRange execCacheMax).find? fun k => !(c.slots k).valid

/-- A round of the search for the image to evict; `oldest` starts from `~0`. -/
def older (c : Cache) (v : Option (Fin execCacheMax) × Nat) (k : Fin execCacheMax) : Option (Fin execCacheMax) × Nat :=
  if (c.slots k).valid ∧ (c.slots k).inUse = 0 ∧ (c.slots k).lru < v.2 then (some k, (c.slots k).lru) else v

/-- The image nobody is using that was used longest ago. -/
def victim (c : Cache) : Option (Fin execCacheMax) := ((List.finRange execCacheMax).foldl c.older (none, 2 ^ 64 - 1)).1

/-- The image enters slot `k`. -/
def fill (c : Cache) (k : Fin execCacheMax) (norm : Path) (buf size npages : Nat) (image : Nat → BitVec 8) : Cache where
  slots := Function.update c.slots k ⟨true, 1, false, size, npages, some buf, c.tick, execCacheSetPath norm, image⟩
  clock := c.tick
  bytes := c.bytes + npages * pageSize

/-- The loop of `exec_cache_insert`; `none` is a loop that goes on. -/
def insertLoop (norm : Path) (buf size npages : Nat) (image : Nat → BitVec 8) : Nat → Cache → Option (Bool × Cache)
  | 0, _ => none
  | fuel + 1, c =>
    match c.freeSlot.filter fun _ => c.bytes + npages * pageSize ≤ execCacheBudget with
    | some k => some (true, c.fill k norm buf size npages image)
    | none =>
      match c.victim with
      | none => some (false, c)
      | some k => insertLoop norm buf size npages image fuel (c.execCacheDropLocked k)

/-- `exec_cache_insert` -/
def execCacheInsert (c : Cache) (norm : Path) (buf size npages : Nat) (image : Nat → BitVec 8) : Bool × Cache :=
  if npages * pageSize > execCacheBudget then (false, c)
  else (insertLoop norm buf size npages image (execCacheMax + 1) c).getD (false, c)

/-- A round of an invalidation: the image goes, or becomes stale while somebody uses it. -/
def spoil (hits : Path → Bool) (c : Cache) (k : Fin execCacheMax) : Cache :=
  let e := c.slots k
  if e.valid ∧ ¬ e.stale ∧ hits e.path then
    if e.inUse = 0 then c.execCacheDropLocked k else c.setSlot k { e with stale := true }
  else c

/-- The loop of both invalidations. -/
def spoilAll (c : Cache) (hits : Path → Bool) : Cache := (List.finRange execCacheMax).foldl (spoil hits) c

/-- `exec_cache_invalidate` -/
def execCacheInvalidate (c : Cache) (cwd raw : Path) : Cache :=
  if raw = [] ∨ c.bytes = 0 then c else c.spoilAll fun p => p = normalPath cwd raw

/-- `exec_cache_invalidate_tree` -/
def execCacheInvalidateTree (c : Cache) (dir : Path) : Cache :=
  if dir = [] ∨ c.bytes = 0 then c else c.spoilAll (pathIsUnder dir)

/-- `fs_free_exec_buffer`; what does not belong to the cache is not in the model. -/
def fsFreeExecBuffer (c : Cache) (buf size : Nat) : Cache :=
  if size = 0 then c
  else match (List.finRange execCacheMax).find? fun k => (c.slots k).valid && decide ((c.slots k).buf = some buf) with
  | none => c
  | some k =>
    let e := { c.slots k with inUse := (c.slots k).inUse - 1 }
    if e.stale ∧ e.inUse = 0 then (c.setSlot k e).execCacheDropLocked k else c.setSlot k e

/-! ### Accounts -/

/-- The pages of a slot, in bytes. -/
def cost (e : Entry) : Nat := if e.valid then e.npages * pageSize else 0

/-- `g_exec_cache_bytes` counts the pages of the valid images, each of which has some. -/
structure Accounted (c : Cache) : Prop where
  bytes : c.bytes = ∑ k, cost (c.slots k)
  pages : ∀ k, (c.slots k).valid = true → (c.slots k).buf.isSome = true ∧ (c.slots k).npages ≠ 0

/-- An image the cache would answer with. -/
structure Keeps (c : Cache) (k : Fin execCacheMax) : Prop where
  valid : (c.slots k).valid = true
  fresh : (c.slots k).stale = false

variable {c : Cache} {k : Fin execCacheMax}

theorem empty_accounted : empty.Accounted := ⟨by simp [empty, cost, Entry.clear], nofun⟩

theorem cost_clear : cost .clear = 0 := rfl

theorem sum_update (c : Cache) (k : Fin execCacheMax) (e : Entry) :
    (∑ j, cost (update c.slots k e j)) + cost (c.slots k) = (∑ j, cost (c.slots j)) + cost e := by
  have hk := mem_univ k
  rw [← add_sum_erase _ _ hk, ← add_sum_erase (f := fun j => cost (c.slots j)) _ hk, update_self,
    sum_congr rfl fun j hj => by rw [update_of_ne (ne_of_mem_erase hj)]]
  omega

theorem Accounted.cost_le (h : c.Accounted) (k : Fin execCacheMax) : cost (c.slots k) ≤ c.bytes := by
  rw [h.bytes]
  exact single_le_sum (f := fun j => cost (c.slots j)) (fun _ _ => Nat.zero_le _) (mem_univ k)

/-- With no bytes there is no image, so the invalidations may return early. -/
theorem Accounted.not_keeps (h : c.Accounted) (hz : c.bytes = 0) (k : Fin execCacheMax) : ¬ c.Keeps k := by
  intro hk
  have hle := h.cost_le k
  obtain ⟨-, hpages⟩ := h.pages k hk.valid
  rw [hz, cost, if_pos hk.valid] at hle
  exact hpages ((mul_eq_zero.mp (Nat.le_zero.mp hle)).resolve_right (by decide))

variable {c d : Cache} {k : Fin execCacheMax}

/-- A slot set to an entry of the same cost. -/
theorem Accounted.setSlot (h : c.Accounted) {e : Entry} (hvalid : e.valid = (c.slots k).valid)
    (hbuf : e.buf = (c.slots k).buf) (hpages : e.npages = (c.slots k).npages) : (c.setSlot k e).Accounted := by
  constructor
  · have hsum := sum_update c k e
    have hcost : cost e = cost (c.slots k) := by rw [cost, cost, hvalid, hpages]
    have hbytes := h.bytes
    simp only [Cache.setSlot]
    omega
  · intro j hj
    simp only [Cache.setSlot] at hj ⊢
    rcases eq_or_ne j k with rfl | hne
    · rw [update_self] at hj ⊢
      rw [hbuf, hpages]
      exact h.pages j (hvalid ▸ hj)
    · rw [update_of_ne hne] at hj ⊢
      exact h.pages j hj

theorem Accounted.drop (h : c.Accounted) (hk : (c.slots k).valid) : (c.execCacheDropLocked k).Accounted := by
  obtain ⟨hbuf, hpages⟩ := h.pages k hk
  have hle := h.cost_le k
  rw [cost, if_pos hk] at hle
  constructor
  · have hsum := sum_update c k .clear
    rw [cost_clear, cost, if_pos hk] at hsum
    have hbytes := h.bytes
    simp only [execCacheDropLocked]
    rw [if_pos ⟨hbuf, hpages, hle⟩]
    omega
  · intro j hj
    simp only [execCacheDropLocked] at hj ⊢
    rcases eq_or_ne j k with rfl | hne
    · rw [update_self] at hj
      cases hj
    · rw [update_of_ne hne] at hj ⊢
      exact h.pages j hj

theorem Accounted.fill (h : c.Accounted) (hk : (c.slots k).valid = false) (norm : Path)
    (buf size : Nat) {npages : Nat} (hn : npages ≠ 0) (image : Nat → BitVec 8) :
    (c.fill k norm buf size npages image).Accounted := by
  constructor
  · have hsum := sum_update c k ⟨true, 1, false, size, npages, some buf, c.tick, execCacheSetPath norm, image⟩
    have hold : cost (c.slots k) = 0 := by rw [cost, hk]; rfl
    rw [hold, cost, if_pos rfl] at hsum
    have hbytes := h.bytes
    simp only [Cache.fill] at hsum ⊢
    omega
  · intro j hj
    simp only [Cache.fill] at hj ⊢
    rcases eq_or_ne j k with rfl | hne
    · rw [update_self]
      exact ⟨rfl, hn⟩
    · rw [update_of_ne hne] at hj ⊢
      exact h.pages j hj

/-! ### What is kept -/

/-- `d` keeps a part of the images of `c`, and is accounted for if `c` is. -/
structure Part (c d : Cache) : Prop where
  kept : ∀ k, d.Keeps k → c.Keeps k ∧ (d.slots k).path = (c.slots k).path ∧ (d.slots k).size = (c.slots k).size ∧
    (d.slots k).image = (c.slots k).image
  accounted : c.Accounted → d.Accounted

namespace Part

theorem refl (c : Cache) : Part c c := ⟨fun _ h => ⟨h, rfl, rfl, rfl⟩, id⟩

theorem trans {e : Cache} (h : Part c d) (h' : Part d e) : Part c e := by
  refine ⟨fun k hk => ?_, h'.accounted ∘ h.accounted⟩
  obtain ⟨hd, hp, hs, hi⟩ := h'.kept k hk
  obtain ⟨hc, hp', hs', hi'⟩ := h.kept k hd
  exact ⟨hc, hp.trans hp', hs.trans hs', hi.trans hi'⟩

/-- A slot set to an entry with the same image, which is at most as fresh. -/
theorem setSlot {e : Entry} (hvalid : e.valid = (c.slots k).valid)
    (hbuf : e.buf = (c.slots k).buf) (hpages : e.npages = (c.slots k).npages) (hpath : e.path = (c.slots k).path)
    (hsize : e.size = (c.slots k).size) (himage : e.image = (c.slots k).image)
    (hstale : e.stale = false → (c.slots k).stale = false) : Part c (c.setSlot k e) := by
  refine ⟨fun j hj => ?_, fun h => h.setSlot hvalid hbuf hpages⟩
  obtain ⟨hv, hf⟩ := hj
  simp only [Cache.setSlot] at hv hf ⊢
  rcases eq_or_ne j k with rfl | hne
  · rw [update_self] at hv hf ⊢
    exact ⟨⟨hvalid ▸ hv, hstale hf⟩, hpath, hsize, himage⟩
  · rw [update_of_ne hne] at hv hf ⊢
    exact ⟨⟨hv, hf⟩, rfl, rfl, rfl⟩

theorem clock (h : Part c d) (n : Nat) : Part c { d with clock := n } :=
  ⟨fun k hk => h.kept k ⟨hk.valid, hk.fresh⟩, fun hc => ⟨(h.accounted hc).bytes, (h.accounted hc).pages⟩⟩

theorem drop (hk : (c.slots k).valid) : Part c (c.execCacheDropLocked k) := by
  refine ⟨fun j hj => ?_, fun h => h.drop hk⟩
  obtain ⟨hv, hf⟩ := hj
  simp only [execCacheDropLocked] at hv hf ⊢
  rcases eq_or_ne j k with rfl | hne
  · rw [update_self] at hv
    cases hv
  · rw [update_of_ne hne] at hv hf ⊢
    exact ⟨⟨hv, hf⟩, rfl, rfl, rfl⟩

end Part

/-- What a hit is. -/
theorem hit_spec {norm : Path} {size : Nat} (h : c.hit norm size = some k) :
    c.Keeps k ∧ (c.slots k).size = size ∧ (c.slots k).path = norm := by
  have hk := List.find?_some h
  simp only [Bool.and_eq_true, Bool.not_eq_true', decide_eq_true_eq] at hk
  exact ⟨⟨hk.1.1.1, hk.1.1.2⟩, hk.1.2, hk.2⟩

/-- A lookup keeps every image, and answers with one for this path and size. -/
theorem lookup_spec (c : Cache) (norm : Path) (size : Nat) :
    Part c (c.execCacheLookup norm size).2 ∧ ∀ image, (c.execCacheLookup norm size).1 = some image →
      ∃ k, c.Keeps k ∧ (c.slots k).size = size ∧ (c.slots k).path = norm ∧ (c.slots k).image = image := by
  unfold execCacheLookup
  split
  · rename_i k hk
    have htouched : Part c (c.setSlot k { c.slots k with inUse := (c.slots k).inUse + 1, lru := c.tick }) :=
      .setSlot rfl rfl rfl rfl rfl rfl id
    refine ⟨htouched.clock _, fun image h => ?_⟩
    obtain ⟨hkeeps, hsize, hpath⟩ := hit_spec hk
    exact ⟨k, hkeeps, hsize, hpath, some.inj h⟩
  · exact ⟨.refl c, nofun⟩

theorem free_part (c : Cache) (buf size : Nat) : Part c (c.fsFreeExecBuffer buf size) := by
  unfold fsFreeExecBuffer
  split
  · exact .refl c
  split
  · exact .refl c
  rename_i k hk
  have hfound := List.find?_some hk
  have hvalid : (c.slots k).valid := (Bool.and_eq_true_iff.mp hfound).1
  have hset : Part c (c.setSlot k { c.slots k with inUse := (c.slots k).inUse - 1 }) := .setSlot rfl rfl rfl rfl rfl rfl id
  dsimp only
  split
  · refine hset.trans (.drop ?_)
    simp only [setSlot, update_self]
    exact hvalid
  · exact hset

/-! ### Invalidation -/

/-- A round keeps a part, and in its own slot no image that is hit. -/
theorem spoil_spec (hits : Path → Bool) (c : Cache) (k : Fin execCacheMax) :
    Part c (spoil hits c k) ∧ ((spoil hits c k).Keeps k → hits ((spoil hits c k).slots k).path = false) := by
  unfold spoil
  dsimp only
  split
  · rename_i hhit
    split
    · refine ⟨.drop hhit.1, fun hk => ?_⟩
      have := hk.valid
      simp only [execCacheDropLocked, update_self] at this
      cases this
    refine ⟨.setSlot rfl rfl rfl rfl rfl rfl nofun, fun hk => ?_⟩
    have := hk.fresh
    simp only [setSlot, update_self] at this
    cases this
  · rename_i hhit
    refine ⟨.refl c, fun hk => ?_⟩
    rcases hh : hits (c.slots k).path with _ | _
    · rfl
    · exact (hhit ⟨hk.valid, by simp [hk.fresh], hh⟩).elim

theorem foldl_spoil (hits : Path → Bool) (ks : List (Fin execCacheMax)) (c : Cache) : Part c (ks.foldl (spoil hits) c) ∧
      ∀ k ∈ ks, (ks.foldl (spoil hits) c).Keeps k → hits ((ks.foldl (spoil hits) c).slots k).path = false := by
  induction ks generalizing c with
  | nil => exact ⟨.refl c, nofun⟩
  | cons k ks ih =>
    obtain ⟨hpart, hown⟩ := spoil_spec hits c k
    obtain ⟨hrest, hall⟩ := ih (spoil hits c k)
    refine ⟨hpart.trans hrest, fun j hj hkeeps => ?_⟩
    rcases List.mem_cons.mp hj with rfl | hj
    · -- the later rounds keep its path
      obtain ⟨hk, hpath, -⟩ := hrest.kept j hkeeps
      rw [List.foldl_cons, hpath]
      exact hown hk
    · exact hall j hj hkeeps

theorem spoilAll_spec (c : Cache) (hits : Path → Bool) :
    Part c (c.spoilAll hits) ∧ ∀ k, (c.spoilAll hits).Keeps k → hits ((c.spoilAll hits).slots k).path = false := by
  obtain ⟨hpart, hall⟩ := foldl_spoil hits (.finRange execCacheMax) c
  exact ⟨hpart, fun k => hall k (List.mem_finRange k)⟩

/-- After an invalidation no image of the path is kept. -/
theorem invalidate_spec (c : Cache) (cwd raw : Path) :
    Part c (c.execCacheInvalidate cwd raw) ∧ (raw ≠ [] → c.Accounted → ∀ k, (c.execCacheInvalidate cwd raw).Keeps k →
      ((c.execCacheInvalidate cwd raw).slots k).path ≠ normalPath cwd raw) := by
  unfold execCacheInvalidate
  split
  · rename_i hearly
    exact ⟨.refl c, fun hraw hc k hk => (hc.not_keeps (hearly.resolve_left hraw) k hk).elim⟩
  · obtain ⟨hpart, hall⟩ := spoilAll_spec c fun p => p = normalPath cwd raw
    exact ⟨hpart, fun _ _ k hk => of_decide_eq_false (hall k hk)⟩

theorem invalidateTree_spec (c : Cache) (dir : Path) :
    Part c (c.execCacheInvalidateTree dir) ∧ (dir ≠ [] → c.Accounted → ∀ k, (c.execCacheInvalidateTree dir).Keeps k →
      pathIsUnder dir ((c.execCacheInvalidateTree dir).slots k).path = false) := by
  unfold execCacheInvalidateTree
  split
  · rename_i hearly
    exact ⟨.refl c, fun hdir hc k hk => (hc.not_keeps (hearly.resolve_left hdir) k hk).elim⟩
  · obtain ⟨hpart, hall⟩ := spoilAll_spec c (pathIsUnder dir)
    exact ⟨hpart, fun _ _ => hall⟩

/-! ### Insertion -/

/-- The number of valid images. -/
def taken (c : Cache) : Nat := (Finset.univ.filter fun k => (c.slots k).valid = true).card

theorem taken_drop (hk : (c.slots k).valid) : (c.execCacheDropLocked k).taken < c.taken := by
  refine card_lt_card (ssubset_iff_of_subset (fun j hj => ?_) |>.mpr ⟨k, ?_, ?_⟩)
  · have hj' := (mem_filter.mp hj).2
    refine mem_filter.mpr ⟨mem_univ j, ?_⟩
    rcases eq_or_ne j k with rfl | hne
    · exact hk
    · simp only [execCacheDropLocked] at hj'
      rwa [update_of_ne hne] at hj'
  · simpa using hk
  · simp [execCacheDropLocked, Entry.clear]

/-- The one that is evicted is valid. -/
theorem foldl_older (c : Cache) (ks : List (Fin execCacheMax)) {v : Option (Fin execCacheMax) × Nat}
    (hv : ∀ k, v.1 = some k → (c.slots k).valid) (h : (ks.foldl c.older v).1 = some k) : (c.slots k).valid := by
  induction ks generalizing v with
  | nil => exact hv k h
  | cons j ks ih =>
    refine ih (fun i hi => ?_) h
    unfold older at hi
    split at hi
    · rename_i hold
      exact some.inj hi ▸ hold.1
    · exact hv i hi

theorem victim_valid (h : c.victim = some k) : (c.slots k).valid := foldl_older c _ (fun _ hk => by cases hk) h

section
variable (norm : Path) (buf size npages : Nat) (image : Nat → BitVec 8)

/-- The loop ends: each round but the last evicts an image. -/
theorem insertLoop_ends (fuel : Nat) (c : Cache) (h : c.taken < fuel) :
    (insertLoop norm buf size npages image fuel c).isSome := by
  induction fuel generalizing c with
  | zero => exact (Nat.not_lt_zero _ h).elim
  | succ fuel ih =>
    unfold insertLoop
    split
    · rfl
    split
    · rfl
    · rename_i k hk
      exact ih _ (by have := taken_drop (victim_valid hk); omega)

/-- After an insertion the cache keeps a part of its images and perhaps the new one. -/
structure Inserted (c d : Cache) : Prop where
  kept : ∀ k, d.Keeps k → (c.Keeps k ∧ (d.slots k).path = (c.slots k).path ∧ (d.slots k).size = (c.slots k).size ∧
      (d.slots k).image = (c.slots k).image) ∨
    (d.slots k).path = execCacheSetPath norm ∧ (d.slots k).size = size ∧ (d.slots k).image = image
  accounted : c.Accounted → d.Accounted

variable {norm buf size npages image}

theorem Part.inserted (h : Part c d) : Inserted norm size image c d :=
  ⟨fun k hk => .inl (h.kept k hk), h.accounted⟩

theorem Part.then_inserted {e : Cache} (h : Part c d) (h' : Inserted norm size image d e) : Inserted norm size image c e := by
  refine ⟨fun k hk => ?_, h'.accounted ∘ h.accounted⟩
  rcases h'.kept k hk with ⟨hd, hp, hs, hi⟩ | hnew
  · obtain ⟨hc, hp', hs', hi'⟩ := h.kept k hd
    exact .inl ⟨hc, hp.trans hp', hs.trans hs', hi.trans hi'⟩
  · exact .inr hnew

theorem insertLoop_inserted (hn : npages ≠ 0) (fuel : Nat) {r : Bool × Cache}
    (h : insertLoop norm buf size npages image fuel c = some r) : Inserted norm size image c r.2 := by
  induction fuel generalizing c with
  | zero => cases h
  | succ fuel ih =>
    unfold insertLoop at h
    split at h
    · rename_i k hk
      obtain ⟨hfree, -⟩ := filter_eq_some_iff.mp hk
      obtain rfl := some.inj h
      have hk' := List.find?_some hfree
      refine ⟨fun j hj => ?_, fun h => h.fill (by simpa using hk') norm buf size hn image⟩
      obtain ⟨hv, hf⟩ := hj
      simp only [fill] at hv hf ⊢
      rcases eq_or_ne j k with rfl | hne
      · rw [update_self]
        exact .inr ⟨rfl, rfl, rfl⟩
      · rw [update_of_ne hne] at hv hf ⊢
        exact .inl ⟨⟨hv, hf⟩, rfl, rfl, rfl⟩
    split at h
    · obtain rfl := some.inj h
      exact (Part.refl c).inserted
    · rename_i k hk
      exact (Part.drop (victim_valid hk)).then_inserted (ih h)

theorem insert_inserted (c : Cache) (hn : npages ≠ 0) :
    Inserted norm size image c (c.execCacheInsert norm buf size npages image).2 := by
  unfold execCacheInsert
  split
  · exact (Part.refl c).inserted
  have hends := insertLoop_ends norm buf size npages image (execCacheMax + 1) c
    (Nat.lt_succ_of_le ((card_le_univ _).trans_eq (card_fin _)))
  obtain ⟨r, hr⟩ := isSome_iff_exists.mp hends
  rw [hr]
  exact insertLoop_inserted hn _ hr

end

end Cache

end Orthox.Images
