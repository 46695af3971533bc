import Orthox.Blocks.Content

/-! How many blocks `xv6fs_writei` logs, counted on the file as it was before the call.

    Walk over the file blocks the chunk spans and collect the holes met, tables and data alike (`missing`); the free blocks fill
    them in order and may end early (`reach`). Logged are then the bitmap blocks of the free blocks used, the tables that were
    new or got an entry, the data blocks written, and the inode block. -/

namespace Orthox.Blocks
open Journal List Function Vol

/-- A node without a block. -/
def hole (v : Vol) (ip : Inode) (N : Node) : Bool := cell v ip N == 0

/-- The file blocks that `n` bytes at `off` lie in. -/
def span (off n : Nat) : List Nat :=
  if n = 0 then [] else range' (off / bsize) ((off + n - 1) / bsize - off / bsize + 1)

/-- The holes on the paths of the given file blocks, in the order they are met. -/
def missing (absent : Node → Bool) : List Nat → List Node
  | [] => []
  | bn :: bns =>
    let new := (prefixes bn).filter absent
    new ++ missing (fun N => absent N && !new.contains N) bns

/-- How many of the file blocks can be written with `free` free blocks. -/
def reach (absent : Node → Bool) (free : Nat) : List Nat → Nat
  | [] => 0
  | bn :: bns =>
    let new := (prefixes bn).filter absent
    if new.length ≤ free then reach (fun N => absent N && !new.contains N) (free - new.length) bns + 1 else 0

/-- A node that holds a table. -/
def isTable (N : Node) : Bool := decide (N.2.length < slotDepth N.1)

def parent? (N : Node) : Option Node := if N.2 = [] then none else some (N.1, N.2.dropLast)

/-- The tables that are new or get an entry when `ns` are filled. -/
def tablesOf (ns : List Node) : Finset Node := (ns.filter isTable ++ ns.filterMap parent?).toFinset

/-- The blocks a chunk will have logged. -/
def writeCost (v : Vol) (ip : Inode) (off n : Nat) : Nat :=
  let holes := (missing (hole v ip) (span off n)).take v.supply.length
  ((v.supply.take holes.length).map v.sb.bblock).toFinset.card + (tablesOf holes).card +
    reach (hole v ip) v.supply.length (span off n) + 1

/-! ### Spans -/

variable {n bn : Nat}

theorem span_zero (off : Nat) : span off 0 = [] := if_pos rfl

theorem span_step (off n : Nat) (hn : 0 < n) :
    span off n = off / bsize :: span (off + min n (bsize - off % bsize)) (n - min n (bsize - off % bsize)) := by
  unfold span bsize
  rw [if_neg (by omega)]
  by_cases h : n ≤ 1024 - off % 1024
  · rw [min_eq_left h, Nat.sub_self, show (off + n - 1) / 1024 - off / 1024 + 1 = 1 by omega]
    rfl
  · rw [if_neg (by omega), range'_succ]
    congr 2 <;> omega

variable {off x : Nat}

theorem mem_span (h : bn ∈ span off n) : bn * bsize < off + n := by
  unfold span bsize at *
  split at h
  · cases h
  · have := mem_range'_1.mp h
    omega

theorem span_nodup (off n : Nat) : (span off n).Nodup := by
  unfold span
  split
  · exact nodup_nil
  · exact nodup_range'

/-! ### The walk depends on the holes only -/

variable {N : Node}

theorem prefixes_valid (h : N ∈ prefixes bn) : Valid N := by
  unfold prefixes at h
  split at h
  · cases h
  rename_i s is hp
  rcases mem_cons.mp h with rfl | h
  · exact Nat.zero_le _
  obtain ⟨h₁, -, h₃⟩ := mem_below h
  rw [Valid, h₁, ← path_valid hp]
  simpa using h₃

theorem missing_congr : ∀ (bns : List Nat) {p q : Node → Bool}, (∀ N, Valid N → p N = q N) → missing p bns = missing q bns
  | [], _, _, _ => rfl
  | bn :: bns, p, q, h => by
    have hf : (prefixes bn).filter p = (prefixes bn).filter q := filter_congr fun N hN => h N (prefixes_valid hN)
    simp only [missing, hf]
    rw [missing_congr bns fun N hN => by rw [h N hN]]

theorem reach_congr : ∀ (bns : List Nat) {p q : Node → Bool} {free : Nat}, (∀ N, Valid N → p N = q N) →
    reach p free bns = reach q free bns
  | [], _, _, _, _ => rfl
  | bn :: bns, p, q, free, h => by
    have hf : (prefixes bn).filter p = (prefixes bn).filter q := filter_congr fun N hN => h N (prefixes_valid hN)
    simp only [reach, hf]
    rw [reach_congr bns fun N hN => by rw [h N hN]]

variable {v v' : Vol} {ip ip' : Inode}

/-- After growth the holes are the old ones without those filled. -/
theorem Grown.hole {ns ws : List Node} (hs : Sound v ip) (h : Grown v ip ns ws v' ip') (hN : Valid N) :
    hole v' ip' N = (hole v ip N && !ns.contains N) := by
  by_cases hm : N ∈ ns
  · have := h.filled_ne hs hm
    simp [Blocks.hole, hm, this]
  · simp [Blocks.hole, hm, h.keep N hN hm]

/-! ### One data block -/

/-- Writing a data block changes no table. -/
theorem Sound.write (h : Sound v ip) (hN : N.2.length = slotDepth N.1) (hne : cell v ip N ≠ 0) (blk : Block) :
    Grown v ip [] [N] ((v.put (cell v ip N) blk).xv6logWrite (cell v ip N)) ip := by
  have hval : Valid N := hN.le
  obtain ⟨h₁, h₂, -⟩ := h.inside N hval hne
  set a := cell v ip N with ha
  set v' := (v.put a blk).xv6logWrite a with hv'
  have hcell : ∀ M, Valid M → cell v' ip M = cell v ip M := by
    rintro ⟨s, js⟩ hM
    induction js using reverseRecOn with
    | nil => rfl
    | append_singleton js j ih =>
      have hJ := valid_of_snoc hM
      rw [cell_snoc, cell_snoc, ih hJ]
      by_cases hz : cell v ip (s, js) = 0
      · rw [if_pos hz, if_pos hz]
      have hne' : cell v ip (s, js) ≠ a := fun e => by
        have := h.inj _ _ hJ hval hz e
        rw [← this] at hN
        simp only [Valid, length_append, length_singleton] at hM hN
        omega
      simp [entry, hv', xv6logWrite, put, update_of_ne hne']
  have hbit : ∀ c, c < v.sb.size → v'.bit c = v.bit c := fun c hc => bit_put hc (.inr h₁) blk
  have hsound : Sound v' ip := by
    refine ⟨h.ok, h.inum, fun b hb => ?_, fun M hM hz => ?_, fun M M' hM hM' hz he => ?_⟩
    · have hb' : b < v.sb.dataStart := hb
      rw [hbit b (by omega)]
      exact h.marked b hb'
    · rw [hcell M hM] at hz ⊢
      obtain ⟨k₁, k₂, k₃⟩ := h.inside M hM hz
      exact ⟨k₁, k₂, by rw [hbit _ k₂]; exact k₃⟩
    · rw [hcell M hM, hcell M' hM'] at he
      rw [hcell M hM] at hz
      exact h.inj M M' hM hM' hz he
  have hsup : v'.supply = v.supply := supply_congr rfl rfl hbit
  refine ⟨hsound, rfl, rfl, rfl, nodup_nil, by simp, by simp [hsup], fun M hM _ => hcell M hM, ?_, [a], rfl, ?_⟩
  · simpa [hcell N hval] using ⟨hval, hne⟩
  · intro x
    simp [hcell N hval, ← ha]

/-! ### The loop -/

theorem fileNode_length (h : bn < maxFile) : (fileNode bn).2.length = slotDepth (fileNode bn).1 :=
  path_valid (path_some h)

/-- The file block a data node stands for. -/
def blockOf (N : Node) : Nat := slotBase N.1 + N.2.foldl (fun a i => a * nindirect + i.val) 0

theorem blockOf_fileNode (h : bn < maxFile) : blockOf (fileNode bn) = bn := by
  have hp := path_some h
  rcases hN : fileNode bn with ⟨s, is⟩
  rw [hN] at hp
  have h₁ : ndirect = 9 := rfl
  have h₂ : nindirect = 256 := rfl
  have h₃ : ndindirect = 65536 := by decide
  have h₄ : ntindirect = 16777216 := by decide
  unfold path at hp
  simp only [h₁, h₂, h₃] at hp
  simp only [blockOf, slotBase, h₁, h₂]
  split at hp
  · cases hp
    have : bn % 12 ≤ 9 := by omega
    simp only [Fin.ofNat, foldl_nil, if_pos this]
    omega
  split at hp
  · cases hp
    have : ((9 : Fin 12) : Nat) ≤ 9 := by decide
    simp only [Fin.ofNat, foldl_cons, foldl_nil, if_pos this]
    omega
  split at hp
  · cases hp
    simp only [Fin.ofNat, foldl_cons, foldl_nil]
    rw [if_neg (by decide), if_pos (by decide)]
    omega
  split at hp
  · cases hp
    obtain ⟨q, hq⟩ : ∃ q, q = bn - 9 - 256 - 65536 := ⟨_, rfl⟩
    have hbn : bn = 65801 + q := by omega
    have e₁ : q / 65536 % 256 = q / 65536 := Nat.mod_eq_of_lt (by omega)
    have e₂ : q % 65536 / 256 % 256 = q % 65536 / 256 := Nat.mod_eq_of_lt (by omega)
    simp only [Fin.ofNat, foldl_cons, foldl_nil, ← hq, e₁]
    rw [if_neg (by decide), if_neg (by decide)]
    omega
  · cases hp

variable {v : Vol} {ip : Inode} {N : Node} {off : Nat}

/-- How many of `n` bytes at `off` find a block. -/
def stored (v : Vol) (ip : Inode) (off n : Nat) : Nat :=
  min n (reach (hole v ip) v.supply.length (span off n) * bsize - off % bsize)

theorem stored_le (v : Vol) (ip : Inode) (off n : Nat) : stored v ip off n ≤ n := min_le_left _ _

/-- The first block of a write takes what fits into it, the others start at their beginning. -/
theorem bytes_step (off n r : Nat) : min n ((r + 1) * bsize - off % bsize) = min n (bsize - off % bsize) +
      min (n - min n (bsize - off % bsize)) (r * bsize - (off + min n (bsize - off % bsize)) % bsize) := by
  have hoff : off % bsize < bsize := Nat.mod_lt _ (by decide)
  rw [Nat.succ_mul]
  by_cases h : n ≤ bsize - off % bsize
  · rw [min_eq_left h, Nat.sub_self]
    omega
  have hmod : (off + (bsize - off % bsize)) % bsize = 0 := by
    unfold bsize
    omega
  rw [min_eq_right (by omega : bsize - off % bsize ≤ n)]
  omega

/-- The bytes after `k` of them were stored at `off`. -/
def overlay (d : Nat → BitVec 8) (src : Nat → BitVec 8) (off k : Nat) : Nat → BitVec 8 := fun p =>
  if off ≤ p ∧ p < off + k then src (p - off) else d p

/-- Storing a piece and then the piece behind it. -/
theorem overlay_overlay (d src : Nat → BitVec 8) (off m k : Nat) :
    overlay (overlay d src off m) (fun i => src (m + i)) (off + m) k = overlay d src off (m + k) := by
  funext p
  simp only [overlay]
  by_cases h₁ : off + m ≤ p ∧ p < off + m + k
  · rw [if_pos h₁, if_pos (by omega)]
    congr 1
    omega
  rw [if_neg h₁]
  by_cases h₂ : off ≤ p ∧ p < off + m
  · rw [if_pos h₂, if_pos (by omega)]
  · rw [if_neg h₂, if_neg (by omega)]

theorem overlay_zero (d src : Nat → BitVec 8) (off : Nat) : overlay d src off 0 = d := by
  funext p
  rw [overlay, if_neg (by omega)]

/-- Writing a data block touches that block alone. -/
theorem Sound.write_frame (h : Sound v ip) (hN : IsLeaf N) (hne : cell v ip N ≠ 0)
    (blk : Block) : Frame v ip ((v.put (cell v ip N) blk).xv6logWrite (cell v ip N)) ip := by
  have hgrow := h.write hN hne blk
  obtain ⟨h₁, -, -⟩ := h.inside N hN.valid hne
  have hle := v.sb.bmapstart_le
  refine ⟨rfl, rfl, fun M hM _ => .inl ⟨M, hM, (hgrow.keep M hM (by simp)).symm⟩, fun x hx hsz hb hn => ⟨?_, ?_⟩, fun x hx => ?_⟩
  · simp [xv6logWrite, put, update_of_ne (hn N hN.valid).symm]
  · rw [bit_xv6logWrite, bit_put hsz (.inr h₁), hb]
  · simp [xv6logWrite, put, update_of_ne (by omega : x ≠ cell v ip N)]

theorem Sound.write_leaf {M : Node} (h : Sound v ip) (hN : IsLeaf N) (hM : IsLeaf M) (hne : cell v ip N ≠ 0) (blk : Block) :
    leaf ((v.put (cell v ip N) blk).xv6logWrite (cell v ip N)) ip M = if M = N then blk else leaf v ip M := by
  have hcell := (h.write hN hne blk).keep M hM.valid (by simp)
  rw [leaf, leaf, hcell]
  by_cases e : M = N
  · rw [e, if_neg hne]
    simp [xv6logWrite, put]
  rw [if_neg e]
  by_cases hz : cell v ip M = 0
  · rw [if_pos hz, if_pos hz]
  have hx : cell v ip M ≠ cell v ip N := fun e' => e (h.inj M N hM.valid hN.valid hz e')
  simp [xv6logWrite, put, update_of_ne hx]

/-- One round of the loop: `m` bytes inside one block. -/
theorem Sound.write_data (h : Sound v ip) {m : Nat} (src : Nat → BitVec 8)
    (hbn : off / bsize < maxFile) (hm : off % bsize + m ≤ bsize) (hne : cell v ip (fileNode (off / bsize)) ≠ 0) :
    let a := cell v ip (fileNode (off / bsize))
    data ((v.put a (memcpy (v.mem a) (off % bsize) m src)).xv6logWrite a) ip = overlay (data v ip) src off m := by
  intro a
  funext p
  have hleaf : IsLeaf (fileNode (off / bsize)) := fileNode_length hbn
  have hdiv := Nat.div_add_mod p bsize
  have hdiv' := Nat.div_add_mod off bsize
  have hblock : off ≤ p ∧ p < off + m → p / bsize = off / bsize := by
    rintro ⟨h₁, h₂⟩
    refine le_antisymm (Nat.lt_succ_iff.mp ((Nat.div_lt_iff_lt_mul (by decide)).mpr ?_)) (Nat.div_le_div_right h₁)
    rw [Nat.succ_mul, mul_comm]
    omega
  by_cases hp : p / bsize < maxFile
  · rw [overlay, data_of_lt hp, data_of_lt hp, h.write_leaf hleaf (fileNode_length hp) hne]
    by_cases e : p / bsize = off / bsize
    · rw [e, if_pos rfl, memcpy, byte_ofBytes _ (Nat.mod_lt _ (by decide)), leaf, if_neg hne]
      rw [e] at hdiv
      by_cases hin : off ≤ p ∧ p < off + m
      · rw [if_pos hin, if_pos (by omega)]
        congr 1
        omega
      · rw [if_neg hin, if_neg (by omega)]
    · rw [if_neg fun e' => e (by rw [← blockOf_fileNode hp, ← blockOf_fileNode hbn, e']), if_neg fun hin => e (hblock hin)]
  · rw [overlay, if_neg fun hin => hp (hblock hin ▸ hbn), data, data, path_none (Nat.le_of_not_lt hp)]

/-- What the loop of `writei` leaves for `n` bytes of `src` from `tot` on, to be stored at `off`: the missing
    nodes are filled and the blocks it reaches are written. -/
structure Stores (src : Nat → BitVec 8) (tot off n : Nat) (ip : Inode) (v : Vol) (w : Wrote) : Prop where
  total : w.tot = tot + stored v ip off n
  next : w.off = off + stored v ip off n
  grown : Grown v ip ((missing (hole v ip) (span off n)).take v.supply.length)
    (((span off n).take (reach (hole v ip) v.supply.length (span off n))).map fileNode) w.vol w.ip
  frame : Frame v ip w.vol w.ip
  rest : SameRest ip w.ip
  data : data w.vol w.ip = overlay (data v ip) (fun i => src (tot + i)) off (stored v ip off n)

variable {src : Nat → BitVec 8} {tot : Nat}

theorem Stores.nothing (hk : stored v ip off n = 0) (hg : Grown v ip ((missing (hole v ip) (span off n)).take v.supply.length)
      (((span off n).take (reach (hole v ip) v.supply.length (span off n))).map fileNode) v' ip')
    (h : Kept v ip v' ip') : Stores src tot off n ip v ⟨tot, off, ip', v'⟩ :=
  ⟨by rw [hk]; rfl, by rw [hk]; rfl, hg, h.toFrame, h.rest, by rw [hk, overlay_zero]; exact funext h.data⟩

theorem Stores.empty (h : Sound v ip) : Stores src tot off 0 ip v ⟨tot, off, ip, v⟩ := by
  refine .nothing (Nat.zero_min _) ?_ (.refl v ip)
  simp only [span_zero, missing, take_nil]
  exact .refl h

theorem writeLoop_spec (src : Nat → BitVec 8) (n : Nat) : ∀ (fuel tot off : Nat) (ip : Inode) (v : Vol), Sound v ip →
    n - tot ≤ fuel → off + (n - tot) ≤ maxFile * bsize → Stores src tot off (n - tot) ip v (writeLoop src n fuel tot off ip v)
  | 0, tot, off, ip, v, h, hfuel, _ => by
    rw [(by omega : n - tot = 0)]
    exact .empty h
  | fuel + 1, tot, off, ip, v, h, hfuel, hmax => by
    by_cases hlt : tot < n
    · set m := min (n - tot) (bsize - off % bsize) with hm
      have hoff : off % bsize < bsize := Nat.mod_lt _ (by decide)
      have hbn : off / bsize < maxFile := (Nat.div_lt_iff_lt_mul (by decide)).mpr (by omega)
      obtain ⟨hgrow, hkept, hres⟩ := bmapLookup_spec (off / bsize) h hbn
      set r := bmapLookup v ip (off / bsize) true with hr
      set new := holesOn v ip (prefixes (off / bsize)) with hnew
      have hnew' : (prefixes (off / bsize)).filter (hole v ip) = new := rfl
      have hspan : span off (n - tot) = off / bsize :: span (off + m) (n - (tot + m)) := by
        rw [span_step off (n - tot) (by omega), Nat.sub_sub]
      by_cases hlen : new.length ≤ v.supply.length
      · rw [if_pos hlen] at hres
        obtain ⟨hres₁, hres₂⟩ := hres
        rw [take_of_length_le hlen] at hgrow
        have hne : cell r.2.2 r.2.1 (fileNode (off / bsize)) ≠ 0 := by rw [← hres₁]; exact hres₂
        have hleaf : IsLeaf (fileNode (off / bsize)) := fileNode_length hbn
        have hdata := hgrow.sound.write_data (fun i => src (tot + i)) hbn (by omega : off % bsize + m ≤ bsize) hne
        have hframe := hgrow.sound.write_frame hleaf hne (memcpy (r.2.2.mem (cell r.2.2 r.2.1 (fileNode (off / bsize))))
          (off % bsize) m fun i => src (tot + i))
        have hwrite := hgrow.sound.write hleaf hne (memcpy (r.2.2.mem (cell r.2.2 r.2.1 (fileNode (off / bsize))))
          (off % bsize) m fun i => src (tot + i))
        simp only [← hres₁] at hdata hframe hwrite
        set v₂ := (r.2.2.put r.1 (memcpy (r.2.2.mem r.1) (off % bsize) m fun i => src (tot + i))).xv6logWrite r.1 with hv₂
        have h₂ := hgrow.trans h hwrite
        rw [append_nil] at h₂
        have hih := writeLoop_spec src n fuel (tot + m) (off + m) r.2.1 v₂ h₂.sound (by omega) (by omega)
        -- the rest of the loop sees the holes and free blocks this round left
        have hhole : ∀ N, Valid N → hole v₂ r.2.1 N = (hole v ip N && !new.contains N) := fun N hN => h₂.hole h hN
        have hsup : v₂.supply.length = v.supply.length - new.length := by
          have := congrArg length h₂.supply
          rw [length_append, length_map] at this
          omega
        have hk : stored v ip off (n - tot) = m + stored v₂ r.2.1 (off + m) (n - (tot + m)) := by
          simp only [stored, hspan, reach, hnew', if_pos hlen, reach_congr _ hhole, hsup]
          rw [bytes_step, Nat.sub_sub]
        have hround : writeLoop src n (fuel + 1) tot off ip v = writeLoop src n fuel (tot + m) (off + m) r.2.1 v₂ := by
          rw [writeLoop, if_pos hlt]
          simp only [← hr, if_neg hres₂, ← hm, hv₂]
        have hgrown := hih.grown
        simp only [missing_congr _ hhole, reach_congr _ hhole, hsup] at hgrown
        rw [hround]
        refine ⟨by rw [hih.total, hk, add_assoc], by rw [hih.next, hk, add_assoc], ?_,
          (hkept.toFrame.trans hwrite.sound hframe).trans hih.grown.sound hih.frame, hkept.rest.trans hih.rest, ?_⟩
        · simp only [hspan, missing, reach, hnew', if_pos hlen, take_append, take_of_length_le hlen]
          simpa using h₂.trans h hgrown
        · rw [hih.data, hk, hdata, funext hkept.data, ← overlay_overlay]
          simp only [add_assoc]
      · rw [if_neg hlen] at hres
        have hround : writeLoop src n (fuel + 1) tot off ip v = ⟨tot, off, r.2.1, r.2.2⟩ := by
          rw [writeLoop, if_pos hlt]
          simp only [← hr, if_pos hres]
        rw [hround]
        refine .nothing (by simp [stored, hspan, reach, hnew', if_neg hlen]) ?_ hkept
        simp only [hspan, missing, reach, hnew', if_neg hlen, take_zero]
        rw [take_append_of_le_length (by omega)]
        exact hgrow
    · rw [(by omega : n - tot = 0), writeLoop, if_neg hlt]
      exact .empty h

/-! ### Counting -/

/-- The data node on a path is its last node. -/
theorem prefixes_data (h : bn < maxFile) : ∃ ts, prefixes bn = ts ++ [fileNode bn] ∧ ∀ N ∈ ts, isTable N := by
  have hbelow : ∀ s (is js : List (Fin 256)), (js ++ is).length = slotDepth s →
      ∃ ts, (s, js) :: below s js is = ts ++ [(s, js ++ is)] ∧ ∀ N ∈ ts, isTable N := by
    intro s is
    induction is with
    | nil => exact fun js _ => ⟨[], by simp [below], by simp⟩
    | cons i is ih =>
      intro js hlen
      obtain ⟨ts, hts, htab⟩ := ih (js ++ [i]) (by simpa using hlen)
      refine ⟨(s, js) :: ts, ?_, fun N hN => ?_⟩
      · rw [below, hts]; simp
      · rcases mem_cons.mp hN with rfl | hN
        · simp only [length_append, length_cons] at hlen
          simp only [isTable, decide_eq_true_eq]
          omega
        · exact htab N hN
  have hp := path_some h
  rcases hN : fileNode bn with ⟨s, is⟩
  rw [hN] at hp
  obtain ⟨ts, h₁, h₂⟩ := hbelow s is [] (path_valid hp)
  exact ⟨ts, by simpa [prefixes, hp] using h₁, h₂⟩

/-- A data node that was filled is one the write reached. -/
theorem mem_reach : ∀ (bns : List Nat) (p : Node → Bool) (free : Nat) (N : Node), (∀ bn ∈ bns, bn < maxFile) →
    N ∈ (missing p bns).take free → isTable N = false → N ∈ (bns.take (reach p free bns)).map fileNode
  | [], _, _, _, _, h, _ => by simp [missing] at h
  | bn :: bns, p, free, N, hb, h, hN => by
    obtain ⟨ts, hts, htab⟩ := prefixes_data (hb bn mem_cons_self)
    have hlast : ∀ M ∈ (prefixes bn).filter p, isTable M = false → M = fileNode bn := by
      intro M hM hM'
      have hmem := (mem_filter.mp hM).1
      rw [hts] at hmem
      rcases mem_append.mp hmem with hmem | hmem
      · rw [htab M hmem] at hM'; cases hM'
      · exact mem_singleton.mp hmem
    simp only [missing, reach] at h ⊢
    set new := (prefixes bn).filter p with hnew
    by_cases hlen : new.length ≤ free
    · rw [if_pos hlen, take_succ_cons]
      rw [take_append, take_of_length_le hlen] at h
      rcases mem_append.mp h with h | h
      · exact hlast N h hN ▸ mem_cons_self
      · refine mem_cons_of_mem _ (mem_reach bns _ _ N (fun b hb' => hb b (mem_cons_of_mem _ hb')) h hN)
    -- the supply ran out on this path, before its last node
    exfalso
    rw [take_append_of_le_length (by omega)] at h
    have hNew : N ∈ new := mem_of_mem_take h
    have hNf := hlast N hNew hN
    have hsplit : new = ts.filter p ++ [N] := by
      rw [hnew, hts, filter_append, filter_singleton]
      have : p (fileNode bn) := hNf ▸ (mem_filter.mp hNew).2
      rw [this, hNf]
      rfl
    rw [hsplit] at h hlen
    rw [length_append, length_singleton] at hlen
    rw [take_append_of_le_length (by omega)] at h
    have := htab N (mem_filter.mp (mem_of_mem_take h)).1
    rw [hN] at this
    cases this

theorem reach_le : ∀ (bns : List Nat) (p : Node → Bool) (free : Nat), reach p free bns ≤ bns.length
  | [], _, _ => le_refl _
  | bn :: bns, p, free => by
    simp only [reach]
    split
    · exact Nat.succ_le_succ (reach_le bns _ _)
    · exact Nat.zero_le _

theorem mem_tablesOf {ns : List Node} {T : Node} : T ∈ tablesOf ns ↔ (T ∈ ns ∧ isTable T) ∨
    ∃ N ∈ ns, ∃ i, N = (T.1, T.2 ++ [i]) := by
  simp only [tablesOf, mem_toFinset, mem_append, mem_filter, mem_filterMap]
  refine or_congr_right (exists_congr fun N => and_congr_right fun _ => ?_)
  unfold parent?
  constructor
  · intro h
    split at h
    · cases h
    rename_i hne
    cases h
    exact ⟨N.2.getLast hne, Prod.ext rfl (dropLast_append_getLast hne).symm⟩
  · rintro ⟨i, rfl⟩
    simp

theorem Super.Ok.iblock_lt {sb : Super} (h : sb.Ok) {inum : Nat} (hi : inum < sb.ninodes) : sb.iblock inum < sb.bmapstart := by
  have h₂ := h.inodes
  simp only [iblock, ipb] at h₂ ⊢
  omega

section
variable {v v' : Vol} {ip ip' : Inode} {ns ws : List Node} (hs : Sound v ip) (h : Grown v ip ns ws v' ip')
include hs h

/-- The table above a filled node has a block. -/
theorem Grown.parent_ne {s : Fin 12} {js : List (Fin 256)} {i : Fin 256} (hN : (s, js ++ [i]) ∈ ns) : Valid (s, js) ∧ cell v' ip' (s, js) ≠ 0 := by
  refine ⟨valid_of_snoc (h.holes _ hN).1, fun h0 => h.filled_ne hs hN ?_⟩
  rw [cell_snoc, if_pos h0]

/-- Nothing below the bitmap is logged by growth. -/
theorem Grown.logs_ge (hx : (∃ N ∈ ns, FillLogs v' ip' N x) ∨ ∃ W ∈ ws, x = cell v' ip' W) : v.sb.bmapstart ≤ x := by
  have hle := v.sb.bmapstart_le
  have hin : ∀ N, Valid N → cell v' ip' N ≠ 0 → v.sb.bmapstart ≤ cell v' ip' N := fun N hN hne => by
    have := (h.sound.inside N hN hne).1
    rw [h.sb] at this
    omega
  rcases hx with ⟨N, hN, rfl | rfl | ⟨js, i, e, rfl⟩⟩ | ⟨W, hW, rfl⟩
  · rw [h.sb]
    have hsz := (h.sound.inside N (h.holes N hN).1 (h.filled_ne hs hN)).2.1
    rw [h.sb] at hsz
    exact (bblock_lt hsz).1
  · exact hin N (h.holes N hN).1 (h.filled_ne hs hN)
  · have hup := h.parent_ne hs (e ▸ hN : (N.1, js ++ [i]) ∈ ns)
    exact hin _ hup.1 hup.2
  · exact hin W (h.written W hW).1 (h.written W hW).2

/-- The blocks logged for filling `ns` and writing `ws`: blocks of the bitmap, tables and data blocks. -/
theorem Grown.card (hws : ws.Nodup) (hdata : ∀ W ∈ ws, isTable W = false) (hcov : ∀ N ∈ ns, isTable N = false → N ∈ ws)
    {ls : List Nat} (hls : ∀ x, x ∈ ls ↔ (∃ N ∈ ns, FillLogs v' ip' N x) ∨ ∃ W ∈ ws, x = cell v' ip' W) :
    ls.toFinset.card = ((v.supply.take ns.length).map v.sb.bblock).toFinset.card + (tablesOf ns).card + ws.length := by
  have htake : v.supply.take ns.length = ns.map (cell v' ip') := by
    rw [h.supply, take_append_of_le_length (by simp), take_of_length_le (by simp)]
  have htab : ∀ T ∈ tablesOf ns, (Valid T ∧ cell v' ip' T ≠ 0) ∧ isTable T := by
    intro T hT
    rcases mem_tablesOf.mp hT with ⟨hT, hT'⟩ | ⟨N, hN, i, rfl⟩
    · exact ⟨⟨(h.holes T hT).1, h.filled_ne hs hT⟩, hT'⟩
    have hval := (h.holes _ hN).1
    refine ⟨h.parent_ne hs hN, ?_⟩
    simp only [Valid, length_append, length_singleton] at hval
    simp only [isTable, decide_eq_true_eq]
    omega
  set B := ((v.supply.take ns.length).map v.sb.bblock).toFinset with hB
  -- tables and data blocks as nodes
  set A := tablesOf ns ∪ ws.toFinset with hA
  have hat : ∀ N ∈ A, Valid N ∧ cell v' ip' N ≠ 0 := by
    intro N hN
    rcases Finset.mem_union.mp hN with hN | hN
    · exact (htab N hN).1
    · exact h.written N (mem_toFinset.mp hN)
  have hinj : Set.InjOn (cell v' ip') A := fun N hN N' hN' e =>
    h.sound.inj N N' (hat N hN).1 (hat N' hN').1 (hat N hN).2 e
  have hkinds : Disjoint (tablesOf ns) ws.toFinset := Finset.disjoint_left.mpr fun N hN hN' => by
    have := (htab N hN).2
    rw [hdata N (mem_toFinset.mp hN')] at this
    cases this
  have hset : ls.toFinset = B ∪ A.image (cell v' ip') := by
    ext x
    rw [mem_toFinset, hls, Finset.mem_union, Finset.mem_image, hB, htake, map_map, mem_toFinset, mem_map]
    constructor
    · rintro (⟨N, hN, rfl | rfl | ⟨js, i, e, rfl⟩⟩ | ⟨W, hW, rfl⟩)
      · exact .inl ⟨N, hN, by rw [h.sb]; rfl⟩
      · refine .inr ⟨N, Finset.mem_union.mpr ?_, rfl⟩
        by_cases ht : isTable N
        · exact .inl (mem_tablesOf.mpr (.inl ⟨hN, ht⟩))
        · exact .inr (mem_toFinset.mpr (hcov N hN (by simpa using ht)))
      · exact .inr ⟨(N.1, js), Finset.mem_union_left _ (mem_tablesOf.mpr (.inr ⟨N, hN, i, Prod.ext rfl e⟩)), rfl⟩
      · exact .inr ⟨W, mem_union_right _ (mem_toFinset.mpr hW), rfl⟩
    · rintro (⟨N, hN, rfl⟩ | ⟨N, hN, rfl⟩)
      · exact .inl ⟨N, hN, .inl (by rw [h.sb]; rfl)⟩
      · rcases Finset.mem_union.mp hN with hN | hN
        · rcases mem_tablesOf.mp hN with ⟨hN, -⟩ | ⟨M, hM, i, e⟩
          · exact .inl ⟨N, hN, .inr (.inl rfl)⟩
          · exact .inl ⟨M, hM, .inr (.inr ⟨N.2, i, by rw [e], by rw [e]⟩)⟩
        · exact .inr ⟨N, mem_toFinset.mp hN, rfl⟩
  -- the bitmap lies below the data
  have hlow : Disjoint B (A.image (cell v' ip')) := by
    rw [Finset.disjoint_left]
    intro x hx hx'
    obtain ⟨f, hf, rfl⟩ := mem_map.mp (mem_toFinset.mp hx)
    obtain ⟨N, hN, e⟩ := Finset.mem_image.mp hx'
    have hlt := (bblock_lt (mem_supply.mp (mem_of_mem_take hf)).1).2
    have hge := (h.sound.inside N (hat N hN).1 (hat N hN).2).1
    rw [h.sb] at hge
    omega
  rw [hset, Finset.card_union_of_disjoint hlow, Finset.card_image_of_injOn hinj, Finset.card_union_of_disjoint hkinds, toFinset_card_of_nodup hws, add_assoc]

end

theorem card_snoc {ls : List Nat} (h : x ∉ ls) : (ls ++ [x]).toFinset.card = ls.toFinset.card + 1 := by
  rw [toFinset_append, Finset.union_comm, ← toFinset_append, singleton_append, toFinset_cons,
    Finset.card_insert_of_notMem (by rwa [mem_toFinset])]

/-- A call that fits is its loop, with the inode stored at the end. -/
theorem writei_loop (h : Sound v ip) (src : Nat → BitVec 8) (now : Nat)
    (hoff : off + n < 2 ^ 32) : ∃ w ip', Stores src 0 off n ip v w ∧ ip' = { w.ip with
      size := if w.ip.size < w.off then w.off else w.ip.size, mtime := if 0 < w.tot then now else w.ip.mtime } ∧
      xv6fsWritei v ip src off n now = (toInt32 w.tot, ip', xv6fsIupdate w.vol ip') := by
  have hmax : off + n ≤ maxFile * bsize := le_trans hoff.le (by decide)
  have hloop := writeLoop_spec src n n 0 off ip v h (by omega) (by simpa using hmax)
  have hwrap : ¬ (off + n) % 2 ^ 32 < off := by rw [Nat.mod_eq_of_lt hoff]; omega
  refine ⟨_, _, hloop, rfl, ?_⟩
  rw [xv6fsWritei, if_neg hwrap, if_neg (not_lt.mpr hmax)]

/-- The blocks `writei` logs, in order: the loop's, then the inode block, which the loop never logs. -/
theorem writei_logged (h : Sound v ip) (hl : v.logged = []) (src : Nat → BitVec 8)
    (now : Nat) (hoff : off + n < 2 ^ 32) : ∃ ls, v.sb.iblock ip.inum ∉ ls ∧
    (xv6fsWritei v ip src off n now).2.2.logged = ls ++ [v.sb.iblock ip.inum] ∧
    (ls ++ [v.sb.iblock ip.inum]).toFinset.card = writeCost v ip off n := by
  obtain ⟨w, ip', hstores, rfl, hcall⟩ := writei_loop h src now hoff
  have hloop := hstores.grown
  obtain ⟨ls, hlog, hls⟩ := hloop.logged
  have hbns : ∀ bn ∈ span off n, bn < maxFile := fun bn hbn =>
    Nat.lt_of_mul_lt_mul_right ((mem_span hbn).trans (hoff.trans_le (by decide)))
  have hreach := reach_le (span off n) (hole v ip) v.supply.length
  have hnot : v.sb.iblock ip.inum ∉ ls := fun hmem =>
    not_le.mpr (h.ok.iblock_lt h.inum) (hloop.logs_ge h ((hls _).mp hmem))
  refine ⟨ls, hnot, ?_, ?_⟩
  · simp only [hcall, xv6fsIupdate, xv6logWrite, put, hlog, hl, nil_append, hloop.sb, hloop.inum]
  rw [card_snoc hnot, hloop.card h ?_ ?_ ?_ hls, writeCost]
  · simp [min_eq_left hreach]
  · refine ((span_nodup off n).sublist (take_sublist _ _)).map_on fun a ha b hb e => ?_
    rw [← blockOf_fileNode (hbns a (mem_of_mem_take ha)), ← blockOf_fileNode (hbns b (mem_of_mem_take hb)), e]
  · intro W hW
    obtain ⟨bn, hbn, rfl⟩ := mem_map.mp hW
    have := fileNode_length (hbns bn (mem_of_mem_take hbn))
    simp [isTable, this]
  · exact fun N hN ht => mem_reach _ _ _ N hbns hN ht

end Orthox.Blocks
