import Orthox.Cache.Buffers
import Orthox.Schemes.Holders

/-! `xv6fs_readi` returns the bytes of the file. The cache shows the volume (`Shows`) when every block
    reads the same through it as on the volume and unpinned buffers are clean; looking at blocks,
    recycling and run reads keep that, as long as the device reads that count succeed. -/

namespace Orthox.Cache
open List Function Option
open Journal (Block)
open Blocks

/-- Every device read whose bytes are used succeeds. -/
def Env.Reads (env : Env) : Prop := ∀ k, env.fails false k = false

namespace Bio

/-- What a reader of block `b` sees. -/
def content (s : Bio) (b : Nat) : Block :=
  match s.buf b with
  | some B => B.data
  | none => s.disk b

/-- The cache in front of the disk shows `mem`, and only pinned buffers are ahead of the disk. -/
structure Shows (s : Bio) (mem : Nat → Block) : Prop where
  view : ∀ b, s.content b = mem b
  clean : ∀ b B, s.pins b = 0 → s.buf b = some B → B.data = s.disk b

variable {env : Env} {s : Bio} {mem : Nat → Block} {b : Nat}

theorem resident_eq (env : Env) (s : Bio) (b : Nat) : s.resident env b = s.buf b ∨ (s.pins b = 0 ∧ s.resident env b = none) := by
  unfold resident
  split
  · rename_i h
    exact .inr ⟨h.1, rfl⟩
  · exact .inl rfl

variable {B : Buf}

section
variable (h : s.Shows mem)
include h

theorem Shows.buf (hb : s.buf b = some B) : B.data = mem b := by
  have := h.view b
  rwa [content, hb] at this

theorem Shows.disk (hb : s.buf b = none) : s.disk b = mem b := by
  have := h.view b
  rwa [content, hb] at this

/-- Recycling a free buffer hides nothing, because it was clean. -/
theorem Shows.bget : (s.bget env b).2.Shows mem := by
  have hbuf : ∀ i B, s.resident env i = some B → s.buf i = some B := by
    intro i B hi
    rcases resident_eq env s i with e | ⟨-, e⟩
    · rw [← e, hi]
    · rw [e] at hi
      cases hi
  refine ⟨fun i => ?_, fun i B hp hi => h.clean i B hp (hbuf i B hi)⟩
  change (match s.resident env i with | some B => B.data | none => s.disk i) = mem i
  cases hi : s.resident env i with
  | some B => exact h.buf (hbuf i B hi)
  | none =>
    rcases resident_eq env s i with e | ⟨hp, -⟩
    · exact h.disk (e ▸ hi)
    cases hb : s.buf i with
    | none => exact h.disk hb
    | some B => exact (h.clean i B hp hb).symm.trans (h.buf hb)

theorem Shows.setBuf (hd : B.data = s.disk b) (hm : B.data = mem b) : (s.setBuf b B).Shows mem := by
  refine ⟨fun i => ?_, fun i B' hp hi => ?_⟩
  · by_cases hib : i = b
    · subst hib
      simp [content, setBuf, hm]
    · have := h.view i
      simpa [content, Bio.setBuf, update_of_ne hib] using this
  · rcases Schemes.update_some hi with ⟨rfl, rfl⟩ | ⟨-, hi⟩
    · exact hd
    · exact h.clean i B' hp hi

theorem Shows.xv6bread (he : env.Reads) : (s.xv6bread env false b).1.data = mem b ∧ (s.xv6bread env false b).2.Shows mem := by
  have hg : (s.bget env b).2.Shows mem := h.bget
  have hfetch : s.fetch env false b = ⟨s.disk b, true⟩ := by simp [fetch, he s.gets]
  unfold Bio.xv6bread
  split
  · rename_i B hB
    exact ⟨hg.buf hB, hg⟩
  rename_i hB
  have hd : s.disk b = mem b := hg.disk hB
  rw [hfetch]
  exact ⟨hd, hg.setBuf rfl hd⟩

end

theorem Shows.xv6bioFillCache : ∀ {ds : List Block} {b : Nat} {s : Bio}, s.Shows mem →
    (∀ i d, ds[i]? = some d → d = s.disk (b + i) ∧ d = mem (b + i)) → (s.xv6bioFillCache env b ds).Shows mem
  | [], _, _, h, _ => h
  | d :: ds, b, s, h, hd => by
    have hg : (s.bget env b).2.Shows mem := h.bget
    have htail : ∀ i e, ds[i]? = some e → e = s.disk (b + 1 + i) ∧ e = mem (b + 1 + i) := by
      intro i e he
      have := hd (i + 1) e (by simpa using he)
      rwa [add_comm i 1, ← add_assoc] at this
    unfold Bio.xv6bioFillCache
    split
    · exact xv6bioFillCache hg htail
    · have hhead := hd 0 d rfl
      exact xv6bioFillCache (hg.setBuf hhead.1 hhead.2) htail

end Bio

/-! ### Looking up blocks -/

section
variable {env : Env} {v : Vol} {ip : Inode}

theorem bmapWalk_spec (he : env.Reads) : ∀ (is : List (Fin 256)) {a : Nat} {s : Bio}, s.Shows v.mem → a ≠ 0 →
    (bmapWalk env is a s).1 = v.descend a is ∧ (bmapWalk env is a s).2.Shows v.mem
  | [], _, _, h, _ => ⟨rfl, h⟩
  | i :: is, a, s, h, ha => by
    obtain ⟨hdata, hs⟩ := h.xv6bread he
    have haddr : ((s.xv6bread env false a).1.data i).toNat = v.entry a i := by rw [hdata]; rfl
    simp only [bmapWalk, haddr, Vol.descend, if_neg ha]
    by_cases hz : v.entry a i = 0
    · rw [hz, Vol.descend_zero]
      exact ⟨rfl, hs⟩
    · rw [if_neg hz]
      exact bmapWalk_spec he is hs hz

variable {bn : Nat}

theorem bmapPeek_spec (ip : Inode) (he : env.Reads) {s : Bio} (h : s.Shows v.mem) (hbn : bn < maxFile) :
    (bmapPeek env s ip bn).1 = cell v ip (fileNode bn) ∧ (bmapPeek env s ip bn).2.Shows v.mem := by
  have hp := path_some hbn
  rcases hN : fileNode bn with ⟨slot, is⟩
  rw [hN] at hp
  simp only [bmapPeek, hp, cell]
  by_cases hz : (ip.addrs slot).toNat = 0
  · rw [hz, Vol.descend_zero]
    exact ⟨rfl, h⟩
  · rw [if_neg hz]
    exact bmapWalk_spec he is h hz

/-- The run found by the `while` loop: consecutive blocks for consecutive file blocks. -/
theorem runLength_spec (he : env.Reads) {addr : Nat} : ∀ (k run : Nat) {s : Bio}, s.Shows v.mem → bn + run + k ≤ maxFile →
    (∀ i < run, cell v ip (fileNode (bn + i)) = addr + i) →
    (runLength env ip addr bn k run s).2.Shows v.mem ∧ run ≤ (runLength env ip addr bn k run s).1 ∧
      (runLength env ip addr bn k run s).1 ≤ run + k ∧
      ∀ i < (runLength env ip addr bn k run s).1, cell v ip (fileNode (bn + i)) = addr + i
  | 0, _, _, h, _, hrun => ⟨h, le_rfl, le_rfl, hrun⟩
  | k + 1, run, s, h, hmax, hrun => by
    obtain ⟨hcell, hs⟩ := bmapPeek_spec ip he h (by omega : bn + run < maxFile)
    unfold runLength
    simp only [hcell]
    by_cases hnext : cell v ip (fileNode (bn + run)) = addr + run
    · rw [if_pos hnext]
      have hrun' : ∀ i < run + 1, cell v ip (fileNode (bn + i)) = addr + i := by
        intro i hi
        rcases Nat.lt_succ_iff_lt_or_eq.mp hi with hi | rfl
        · exact hrun i hi
        · exact hnext
      obtain ⟨h₁, h₂, h₃, h₄⟩ := runLength_spec he k (run + 1) hs (by omega) hrun'
      exact ⟨h₁, by omega, by omega, h₄⟩
    · rw [if_neg hnext]
      exact ⟨hs, le_rfl, by omega, hrun⟩

end

/-! ### The loop -/

/-- A round that reads one block at a time, through the cache. -/
def Read.each (env : Env) (ip : Inode) (n : Nat) (r : Read) : Read :=
  let q := bmapPeek env r.bio ip (r.off / bsize)
  let m := min (n - r.tot) (bsize - r.off % bsize)
  let r := { r with bio := q.2 }
  if q.1 = 0 then r.copy m fun _ => 0 else copyBlock env q.1 m r

/-- `xv6fs_readi` with such rounds only. -/
def readiEach (env : Env) (s : Bio) (ip : Inode) (dst : Nat → BitVec 8) (off n : Nat) : Int × Read :=
  if off > ip.size ∨ (off + n) % 2 ^ 32 < off then (0, ⟨0, off, dst, [], s⟩)
  else
    let n := if off + n > ip.size then ip.size - off else n
    let r := (fun r => if r.tot < n then r.each env ip n else r)^[n] ⟨0, off, dst, [], s⟩
    (toInt32 r.tot, r)

/-- The loop that started at `off₀` has the bytes of the file so far. -/
structure Copied (v : Vol) (ip : Inode) (off₀ : Nat) (r : Read) : Prop where
  off : r.off = off₀ + r.tot
  bytes : ∀ j < r.tot, r.dst j = data v ip (off₀ + j)
  shows : r.bio.Shows v.mem

namespace Copied
variable {env : Env} {v : Vol} {ip : Inode} {off₀ : Nat} {r : Read} {addr m n : Nat}

/-- The next `m` bytes are right. -/
theorem copy (h : Copied v ip off₀ r) {f : Nat → BitVec 8} (hf : ∀ j < m, f j = data v ip (r.off + j)) :
    Copied v ip off₀ (r.copy m f) := by
  refine ⟨by simp only [Read.copy, h.off]; omega, fun j hj => ?_, h.shows⟩
  simp only [Read.copy, overlay] at hj ⊢
  by_cases hlt : j < r.tot
  · rw [if_neg (by omega)]
    exact h.bytes j hlt
  rw [if_pos (by omega), hf (j - r.tot) (by omega), h.off]
  congr 1
  omega

theorem of_bio (h : Copied v ip off₀ r) {s : Bio} (hs : s.Shows v.mem) (us : List Buf) :
    Copied v ip off₀ { r with used := us, bio := s } :=
  ⟨h.off, h.bytes, hs⟩

/-- Bytes of one block of the file. -/
theorem data_block {v : Vol} {ip : Inode} {off : Nat} (hbn : off / bsize < maxFile) (ha : addr ≠ 0)
    (hcell : cell v ip (fileNode (off / bsize)) = addr) (hm : off % bsize + m ≤ bsize) {j : Nat} (hj : j < m) :
    byte (v.mem addr) (off % bsize + j) = data v ip (off + j) := by
  have hdiv : (off + j) / bsize = off / bsize := by
    unfold bsize at *
    omega
  have hmod : (off + j) % bsize = off % bsize + j := by
    unfold bsize at *
    omega
  rw [data_of_lt (by rw [hdiv]; exact hbn), hdiv, hmod, leaf, hcell, if_neg ha]

theorem copyBlock (h : Copied v ip off₀ r) (he : env.Reads) (hbn : r.off / bsize < maxFile) (ha : addr ≠ 0)
    (hcell : cell v ip (fileNode (r.off / bsize)) = addr) (hm : r.off % bsize + m ≤ bsize) :
    Copied v ip off₀ (r.copyBlock env addr m) := by
  obtain ⟨hdata, hs⟩ := h.shows.xv6bread he
  refine (h.copy fun j hj => ?_).of_bio hs _
  rw [hdata]
  exact data_block hbn ha hcell hm hj

theorem copyBlocks (he : env.Reads) : ∀ (n addr : Nat) {r : Read}, Copied v ip off₀ r → r.off % bsize = 0 → addr ≠ 0 →
    r.off / bsize + n ≤ maxFile → (∀ i < n, cell v ip (fileNode (r.off / bsize + i)) = addr + i) →
    Copied v ip off₀ (.copyBlocks env n addr r)
  | 0, _, _, h, _, _, _, _ => h
  | n + 1, addr, r, h, hmod, ha, hmax, hrun => by
    have hdiv : (r.off + bsize) / bsize = r.off / bsize + 1 := Nat.add_div_right _ (by decide)
    have hoff : (Read.copyBlock env addr bsize r).off = r.off + bsize := rfl
    refine copyBlocks he n (addr + 1) (h.copyBlock he (by omega) ha (hrun 0 (by omega)) (by omega)) ?_ (by omega) ?_ fun i hi => ?_
    · rw [hoff, Nat.add_mod_right, hmod]
    · rw [hoff]
      omega
    · rw [hoff, hdiv, add_assoc, hrun (1 + i) (by omega), add_assoc]

/-- The run that bypasses the cache: none of it is cached, so the disk has it. -/
theorem copyRun (h : Copied v ip off₀ r) (hmod : r.off % bsize = 0) (ha : addr ≠ 0)
    (hmax : r.off / bsize + n ≤ maxFile) (hrun : ∀ i < n, cell v ip (fileNode (r.off / bsize + i)) = addr + i)
    (hcached : r.bio.xv6bioRangeCached addr n = false) : Copied v ip off₀ (r.copyRun env n addr) := by
  have hdisk : ∀ i < n, r.bio.disk (addr + i) = v.mem (addr + i) := by
    intro i hi
    have := any_eq_false.mp hcached i (mem_range.mpr hi)
    rw [Bool.not_eq_true, isSome_eq_false_iff, isNone_iff_eq_none] at this
    exact h.shows.disk this
  have hs : (r.bio.xv6bioFillCache env addr ((range n).map fun i => r.bio.disk (addr + i))).Shows v.mem := by
    refine h.shows.xv6bioFillCache fun i d hd => ?_
    simp only [getElem?_map, map_eq_some_iff] at hd
    obtain ⟨k, hk, rfl⟩ := hd
    obtain ⟨hlt, rfl⟩ := List.getElem?_eq_some_iff.mp hk
    rw [getElem_range] at *
    exact ⟨rfl, hdisk i (by simpa using hlt)⟩
  refine (h.copy fun j hj => ?_).of_bio hs _
  have hi : j / bsize < n := (Nat.div_lt_iff_lt_mul (by decide)).mpr hj
  have hdiv : (r.off + j) / bsize = r.off / bsize + j / bsize := by
    unfold bsize at *
    omega
  have hmod' : (r.off + j) % bsize = j % bsize := by
    unfold bsize at *
    omega
  have hne : addr + j / bsize ≠ 0 := ne_of_gt (Nat.add_pos_left (Nat.pos_of_ne_zero ha) _)
  have hlt : (r.off + j) / bsize < maxFile := by
    rw [hdiv]
    exact (Nat.add_lt_add_left hi _).trans_le hmax
  rw [hdisk _ hi, data_of_lt hlt, hdiv, hmod', leaf, hrun _ hi, if_neg hne]

theorem each (h : Copied v ip off₀ r) (he : env.Reads) (hlt : r.tot < n) (hmax : off₀ + n ≤ maxFile * bsize) :
    Copied v ip off₀ (r.each env ip n) ∧ r.tot < (r.each env ip n).tot ∧ (r.each env ip n).tot ≤ n := by
  have hoff := h.off
  have hmod : r.off % bsize < bsize := Nat.mod_lt _ (by decide)
  have hbn : r.off / bsize < maxFile := (Nat.div_lt_iff_lt_mul (by decide)).mpr (by omega)
  obtain ⟨hcell, hs⟩ := bmapPeek_spec ip he h.shows hbn
  have hq := h.of_bio hs r.used
  unfold Read.each
  dsimp only
  split_ifs with hz
  · refine ⟨hq.copy fun j hj => ?_, ?_, ?_⟩
    · have hdiv : (r.off + j) / bsize = r.off / bsize := by
        unfold bsize at *
        omega
      rw [data_of_lt (by rw [hdiv]; exact hbn), hdiv, leaf, if_pos (hcell ▸ hz), byte_zero]
    · simp only [Read.copy]; omega
    · simp only [Read.copy]; omega
  · refine ⟨hq.copyBlock he hbn hz hcell.symm (by simp only; omega), ?_, ?_⟩
    · simp only [Read.copyBlock, Read.copy]; omega
    · simp only [Read.copyBlock, Read.copy]; omega

theorem round (h : Copied v ip off₀ r) (he : env.Reads) (hlt : r.tot < n) (hmax : off₀ + n ≤ maxFile * bsize) :
    Copied v ip off₀ (r.round env ip n) ∧ r.tot < (r.round env ip n).tot ∧ (r.round env ip n).tot ≤ n := by
  have hoff := h.off
  have hmod : r.off % bsize < bsize := Nat.mod_lt _ (by decide)
  have hbn : r.off / bsize < maxFile := (Nat.div_lt_iff_lt_mul (by decide)).mpr (by omega)
  have heach := h.each he hlt hmax
  obtain ⟨hcell, hs⟩ := bmapPeek_spec ip he h.shows hbn
  unfold Read.round
  unfold Read.each at heach
  set m := min (n - r.tot) (bsize - r.off % bsize) with hm
  set q := bmapPeek env r.bio ip (r.off / bsize) with hq
  dsimp only at heach ⊢
  by_cases hz : q.1 = 0
  · rw [if_pos hz] at heach ⊢
    exact heach
  · rw [if_neg hz] at heach ⊢
    by_cases hwhole : r.off % bsize = 0 ∧ bsize ≤ n - r.tot
    · rw [if_pos hwhole]
      have hk : 1 ≤ (n - r.tot) / bsize := (Nat.one_le_div_iff (by decide)).mpr hwhole.2
      have hfits : r.off / bsize + (n - r.tot) / bsize ≤ maxFile := by
        unfold bsize at *
        omega
      obtain ⟨hs', -, hrun₂, hrun⟩ := runLength_spec he ((n - r.tot) / bsize - 1) 1 hs
        (by omega : r.off / bsize + 1 + ((n - r.tot) / bsize - 1) ≤ maxFile) (fun i hi => by
          obtain rfl : i = 0 := by omega
          exact hcell.symm)
      set l := runLength env ip q.1 (r.off / bsize) ((n - r.tot) / bsize - 1) 1 q.2 with hl
      have hl' : Copied v ip off₀ { r with bio := l.2 } := h.of_bio hs' _
      have hbytes : l.1 * bsize ≤ n - r.tot := by
        have : l.1 ≤ (n - r.tot) / bsize := by omega
        exact (Nat.mul_le_mul_right _ this).trans (Nat.div_mul_le_self _ _)
      by_cases hrun1 : 1 < l.1
      · rw [if_pos hrun1]
        by_cases hdirect : l.2.xv6bioRangeCached q.1 l.1 = false ∧ env.failsRun l.2.gets = false
        · rw [if_pos hdirect]
          refine ⟨hl'.copyRun hwhole.1 hz (by simp only; omega) hrun hdirect.1, ?_, ?_⟩
          · simp only [Read.copyRun, Read.copy]
            have : 0 < l.1 * bsize := Nat.mul_pos (by omega) (by decide)
            omega
          · simp only [Read.copyRun, Read.copy]
            omega
        · rw [if_neg hdirect]
          have htot : ∀ (k addr) r, (Read.copyBlocks env k addr r).tot = r.tot + k * bsize := by
            intro k
            induction k with
            | zero => simp [Read.copyBlocks]
            | succ k ih =>
              intro addr r
              rw [Read.copyBlocks, ih, Nat.succ_mul]
              simp only [Read.copyBlock, Read.copy]
              omega
          refine ⟨copyBlocks he l.1 q.1 hl' hwhole.1 hz (by simp only; omega) hrun, ?_, ?_⟩
          · rw [htot]
            have : 0 < l.1 * bsize := Nat.mul_pos (by omega) (by decide)
            simp only
            omega
          · rw [htot]
            simp only
            omega
      · rw [if_neg hrun1]
        refine ⟨hl'.copyBlock he hbn hz hcell.symm (by simp only; omega), ?_, ?_⟩
        · simp only [Read.copyBlock, Read.copy]; omega
        · simp only [Read.copyBlock, Read.copy]; omega
    · rw [if_neg hwhole]
      exact heach

theorem loop (he : env.Reads) (hmax : off₀ + n ≤ maxFile * bsize) : ∀ (fuel : Nat) {r : Read},
    Copied v ip off₀ r → n - r.tot ≤ fuel → r.tot ≤ n → Copied v ip off₀ (r.loop env ip n fuel) ∧ (r.loop env ip n fuel).tot = n
  | 0, r, h, hfuel, hle => ⟨h, by simp only [Read.loop]; omega⟩
  | fuel + 1, r, h, hfuel, hle => by
    unfold Read.loop
    by_cases hlt : r.tot < n
    · rw [if_pos hlt]
      obtain ⟨hr, h₁, h₂⟩ := h.round he hlt hmax
      exact loop he hmax fuel hr (by omega) h₂
    · rw [if_neg hlt]
      exact ⟨h, by omega⟩

/-- The loop of `readiEach`. -/
theorem loopEach (he : env.Reads) (hmax : off₀ + n ≤ maxFile * bsize) (fuel : Nat) (h : Copied v ip off₀ r)
    (hfuel : n - r.tot ≤ fuel) (hle : r.tot ≤ n) :
    let r' := (fun r => if r.tot < n then r.each env ip n else r)^[fuel] r
    Copied v ip off₀ r' ∧ r'.tot = n := by
  induction fuel generalizing r with
  | zero => exact ⟨h, by dsimp only [iterate_zero, id_eq]; omega⟩
  | succ fuel ih =>
    rw [iterate_succ_apply]
    split_ifs with hlt
    · obtain ⟨hr, h₁, h₂⟩ := h.each he hlt hmax
      exact ih hr (by omega) h₂
    · exact ih h (by omega) hle

end Copied

/-- `readi` below the end of the file: the bytes asked for, as far as the file goes. -/
theorem readi_spec {env : Env} {v : Vol} {ip : Inode} {s : Bio} (h : s.Shows v.mem) (he : env.Reads) (dst : Nat → BitVec 8)
    {off n : Nat} (hoff : off ≤ ip.size) (hwrap : off + n < 2 ^ 32) :
    let r := xv6fsReadi env s ip dst off n
    let k := min n (ip.size - off)
    r.1 = toInt32 k ∧ (∀ j < k, r.2.dst j = data v ip (off + j)) ∧ r.2.bio.Shows v.mem := by
  have hn : (if off + n > ip.size then ip.size - off else n) = min n (ip.size - off) := by
    split <;> omega
  have hguard : ¬ (off > ip.size ∨ (off + n) % 2 ^ 32 < off) := by
    omega
  simp only [xv6fsReadi, if_neg hguard, hn]
  have hstart : Copied v ip off ⟨0, off, dst, [], s⟩ := ⟨rfl, by simp, h⟩
  have hmax : off + min n (ip.size - off) ≤ maxFile * bsize := le_trans (by omega : _ ≤ 2 ^ 32) (by decide)
  obtain ⟨hr, htot⟩ := Copied.loop he hmax (min n (ip.size - off)) hstart (by simp) (Nat.zero_le _)
  refine ⟨by rw [htot], fun j hj => hr.bytes j (by rw [htot]; exact hj), hr.shows⟩

/-! ### Reading back what was written -/

/-- File `i` reads as the bytes `d`, up to its size, from every state of the cache and for every range. -/
def ReadsAs (v : Vol) (i : Nat) (d : Nat → BitVec 8) : Prop :=
  ∀ (env : Env) (s : Bio) (dst : Nat → BitVec 8) (off n : Nat), env.Reads → s.Shows v.mem → off ≤ (inodeAt v i).size →
    off + n < 2 ^ 32 →
    let k := min n ((inodeAt v i).size - off)
    (xv6fsReadi env s (inodeAt v i) dst off n).1 = toInt32 k ∧
      ∀ j < k, (xv6fsReadi env s (inodeAt v i) dst off n).2.dst j = d (off + j)

theorem readsAs_data (v : Vol) (i : Nat) : ReadsAs v i (data v (inodeAt v i)) := by
  intro env s dst off n he hs hoff hwrap
  obtain ⟨h₁, h₂, -⟩ := readi_spec hs he dst hoff hwrap
  exact ⟨h₁, h₂⟩

/-- A positive `int` is the count it was made from. -/
theorem toInt32_eq {n k : Nat} (hn : n < 2 ^ 32) (hk : 0 < k) (h : toInt32 n = k) : n = k := by
  rw [toInt32, BitVec.toInt_eq_toNat_cond, BitVec.toNat_ofNat] at h
  split at h <;> omega

end Orthox.Cache
