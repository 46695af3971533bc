import Orthox.Blocks.Files

/-! A write cut into chunks. How far a write gets depends on the holes on its way and on the number of
    free blocks; after a chunk that was stored whole, the next one goes on exactly where one long write
    would have gone on. So the bytes a whole call stores can be counted before it starts. -/

namespace Orthox.Blocks
open List

/-! ### Walks one after the other -/

/-- The holes left when those on the way of `bns` are filled. -/
def after (absent : Node → Bool) (bns : List Nat) : Node → Bool := fun N => absent N && !(missing absent bns).contains N

variable {n free off m i : Nat} {p : Node → Bool} {v : Vol}

theorem after_cons (p : Node → Bool) (bn : Nat) (bns : List Nat) :
    after (fun N => p N && !((prefixes bn).filter p).contains N) bns = after p (bn :: bns) := by
  funext N
  simp only [after, missing, contains_append, Bool.not_or, Bool.and_assoc]

theorem reach_append : ∀ (as bs : List Nat) (p : Node → Bool) (free : Nat), reach p free as = as.length →
    reach p free (as ++ bs) = as.length + reach (after p as) (free - (missing p as).length) bs
  | [], bs, p, free, _ => by
    simp only [length_nil, zero_add, missing]
    exact reach_congr bs fun N _ => by simp [after, missing]
  | a :: as, bs, p, free, h => by
    simp only [reach] at h
    split at h
    · rename_i hlen
      have hrest := reach_append as bs _ _ (Nat.succ.inj h)
      rw [after_cons] at hrest
      rw [cons_append, reach, if_pos hlen, hrest]
      simp only [missing, length_append, length_cons, Nat.sub_sub]
      omega
    · cases h

theorem reach_append_short : ∀ (as bs : List Nat) (p : Node → Bool) (free : Nat), reach p free as < as.length →
    reach p free (as ++ bs) = reach p free as
  | [], _, _, _, h => absurd h (Nat.not_lt_zero _)
  | a :: as, bs, p, free, h => by
    rw [cons_append, reach, reach]
    simp only [reach] at h
    split at h
    · rename_i hlen
      rw [if_pos hlen, if_pos hlen, reach_append_short as bs _ _ (Nat.lt_of_succ_lt_succ h)]
    · rename_i hlen
      rw [if_neg hlen, if_neg hlen]

/-- A walk that gets to its end had enough free blocks. -/
theorem missing_le_of_reach : ∀ (bns : List Nat) (p : Node → Bool) (free : Nat), reach p free bns = bns.length →
    (missing p bns).length ≤ free
  | [], _, _, _ => Nat.zero_le _
  | bn :: bns, p, free, h => by
    simp only [reach] at h
    split at h
    · have := missing_le_of_reach bns _ _ (Nat.succ.inj h)
      simp only [missing, length_append]
      omega
    · cases h

/-- Nothing is missing on the way of a block that was walked. -/
theorem after_prefixes : ∀ (bns : List Nat) (p : Node → Bool) {bn : Nat}, bn ∈ bns → ∀ N ∈ prefixes bn, after p bns N = false
  | b :: bns, p, bn, hbn, N, hN => by
    rw [← after_cons]
    rcases mem_cons.mp hbn with rfl | hmem
    · have : (p N && !((prefixes bn).filter p).contains N) = false := by
        rcases hp : p N with - | -
        · rfl
        · have : N ∈ (prefixes bn).filter p := mem_filter.mpr ⟨hN, hp⟩
          simp [this]
      simp only [after, this, Bool.false_and]
    · exact after_prefixes bns _ hmem N hN

theorem reach_again {as : List Nat} {x : Nat} (hx : x ∈ as) (bs : List Nat) (p : Node → Bool) (free : Nat) :
    reach (after p as) free (x :: bs) = reach (after p as) free bs + 1 := by
  have hnil : (prefixes x).filter (after p as) = [] := filter_eq_nil_iff.mpr fun N hN => by simp [after_prefixes as p hx N hN]
  simp only [reach, hnil, length_nil, Nat.zero_le, if_true, Nat.sub_zero]
  rw [reach_congr bs (q := after p as) fun N _ => by simp]

/-! ### Bytes -/

/-- The bytes a write gets to store, by the holes and the number of free blocks. -/
def storedIn (p : Node → Bool) (free off n : Nat) : Nat := min n (reach p free (span off n) * bsize - off % bsize)

theorem span_length (off : Nat) (hn : 0 < n) : (span off n).length = (off + n - 1) / bsize - off / bsize + 1 := by
  rw [span, if_neg (by omega), length_range']

/-- A write that was stored whole reached all its blocks. -/
theorem reach_of_full (hm : 0 < m) (h : storedIn p free off m = m) : reach p free (span off m) = (span off m).length := by
  have hle := reach_le (span off m) p free
  rw [span_length off hm] at hle ⊢
  unfold storedIn at h
  unfold bsize at *
  omega

/-- The blocks of two adjacent ranges: a block they share is met twice. -/
theorem span_append (off : Nat) (hm : 0 < m) (hn : 0 < n) :
    if (off + m) % bsize = 0 then span off (m + n) = span off m ++ span (off + m) n else (off + m) / bsize ∈ span off m ∧
      ∃ t, span (off + m) n = (off + m) / bsize :: t ∧ span off (m + n) = span off m ++ t := by
  have hcat (a b c) : range' a (b + c) = range' a b ++ range' (a + b) c := by
    rw [range'_append_1]
  have hspan (o k) hk : span o k = range' (o / 1024) ((o + k - 1) / 1024 - o / 1024 + 1) := if_neg (ne_of_gt hk)
  rw [hspan off (m + n) (by omega), hspan off m hm, hspan (off + m) n hn, show bsize = 1024 from rfl]
  split
  · rename_i h
    rw [show (off + (m + n) - 1) / 1024 - off / 1024 + 1 =
      ((off + m - 1) / 1024 - off / 1024 + 1) + ((off + m + n - 1) / 1024 - (off + m) / 1024 + 1) by omega, hcat,
      show off / 1024 + ((off + m - 1) / 1024 - off / 1024 + 1) = (off + m) / 1024 by omega]
  refine ⟨mem_range'_1.mpr ⟨by omega, by omega⟩, _, range'_succ .., ?_⟩
  rw [show (off + (m + n) - 1) / 1024 - off / 1024 + 1 =
    ((off + m - 1) / 1024 - off / 1024 + 1) + ((off + m + n - 1) / 1024 - (off + m) / 1024) by omega, hcat,
    show off / 1024 + ((off + m - 1) / 1024 - off / 1024 + 1) = (off + m) / 1024 + 1 by omega]

/-- After `m` bytes stored whole, what follows is stored as far as one long write would have got. -/
theorem storedIn_append (n : Nat) (hm : 0 < m) (h : storedIn p free off m = m) : storedIn p free off (m + n) =
      m + storedIn (after p (span off m)) (free - (missing p (span off m)).length) (off + m) n := by
  rcases Nat.eq_zero_or_pos n with rfl | hn
  · rw [add_zero, h, storedIn]
    rfl
  have hfull := reach_of_full hm h
  have hlen := span_length off hm
  have hsplit := span_append off hm hn
  unfold storedIn
  split at hsplit
  · rename_i hal
    rw [hsplit, reach_append _ _ _ _ hfull]
    unfold bsize at *
    omega
  obtain ⟨hx, t, hspan, hsplit⟩ := hsplit
  rw [hsplit, reach_append _ _ _ _ hfull, hspan, reach_again hx]
  unfold bsize at *
  omega

/-- A write that stops short would have stopped there however long it was. -/
theorem storedIn_short (n : Nat) (h : storedIn p free off m < m) : storedIn p free off (m + n) = storedIn p free off m := by
  rcases Nat.eq_zero_or_pos n with rfl | hn
  · rfl
  have hm : 0 < m := by omega
  have hlen := span_length off hm
  have hsplit := span_append off hm hn
  have hshort : reach p free (span off m) < (span off m).length := by
    unfold storedIn at h
    unfold bsize at *
    omega
  have hreach : reach p free (span off (m + n)) = reach p free (span off m) := by
    split at hsplit
    · rw [hsplit, reach_append_short _ _ _ _ hshort]
    · obtain ⟨-, t, -, hsplit⟩ := hsplit
      rw [hsplit, reach_append_short _ _ _ _ hshort]
  unfold storedIn at *
  rw [hreach]
  omega

/-- The first byte is stored when there are blocks for the holes on the way to it. -/
theorem storedIn_pos (hn : 0 < n) : 0 < storedIn p free off n ↔ ((prefixes (off / bsize)).filter p).length ≤ free := by
  have hoff : off % bsize < bsize := Nat.mod_lt _ (by decide)
  rw [storedIn, span_step off n hn, reach]
  split
  · rename_i h
    rw [Nat.succ_mul]
    exact iff_of_true (by omega) h
  rename_i h
  exact iff_of_false (by omega) h

/-! ### One chunk and the next -/

/-- Storing an inode, with whatever size and time, leaves the holes of the file and the free blocks. -/
theorem iupdate_index {ip : Inode} (hs : Sound v ip) (ip' : Inode) (ha : ip'.addrs = ip.addrs) (hi : ip'.inum < v.sb.ninodes) :
    (∀ N, Valid N → hole (xv6fsIupdate v ip') ip' N = hole v ip N) ∧ (xv6fsIupdate v ip').supply = v.supply := by
  refine ⟨fun N hN => ?_, Vol.supply_congr rfl rfl fun _ hc => iupdate_bit hs.ok hi hc⟩
  have hcell : cell (xv6fsIupdate v ip') ip' N = cell (xv6fsIupdate v ip') ip N := by rw [cell, cell, ha]
  rw [hole, hole, hcell, iupdate_cell hi hs hN]

section
variable (h : WellFormed v) (hi : Live v i) (src : Nat → BitVec 8) (now : Nat) (hoff : off + n < 2 ^ 32)
include h hi src now hoff

/-- The holes and the free blocks that a write stored whole leaves. -/
theorem writei_leaves (hn : 0 < n) (hfull : stored v (inodeAt v i) off n = n) :
    let r := xv6fsWritei v (inodeAt v i) src off n now
    let p := hole v (inodeAt v i)
    (∀ N, Valid N → hole r.2.2 r.2.1 N = after p (span off n) N) ∧
      r.2.2.supply.length = v.supply.length - (missing p (span off n)).length := by
  have hs := h.sound i hi
  obtain ⟨w, ip', hstores, hip, hcall⟩ := writei_loop hs src now hoff
  have hgrow := hstores.grown
  rw [take_of_length_le (missing_le_of_reach _ _ _ (reach_of_full hn hfull))] at hgrow
  simp only [hcall]
  have hlt : w.ip.inum < w.vol.sb.ninodes := by rw [hgrow.inum, hgrow.sb]; exact hi.1
  obtain ⟨hhole, hsup⟩ := iupdate_index hgrow.sound ip' (by rw [hip]) (by rwa [hip])
  refine ⟨fun N hN => ?_, ?_⟩
  · rw [hhole N hN, hgrow.hole hs hN, after]
  · have hlen := congrArg length hgrow.supply
    rw [length_append, length_map] at hlen
    rw [hsup, hlen, Nat.add_sub_cancel_left]

theorem writei_sb : (xv6fsWritei v (inodeAt v i) src off n now).2.2.sb = v.sb := by
  obtain ⟨w, ip', hloop, -, hcall⟩ := writei_loop (h.sound i hi) src now hoff
  rw [hcall]
  exact hloop.frame.sb

end

theorem Changed.trans {v₁ v₂ : Vol} {ip₁ ip₂ : Inode} (hsb : v₁.sb = v.sb) (h : Changed v i v₁ ip₁)
    (k : Changed v₁ i v₂ ip₂) : Changed v i v₂ ip₂ := by
  refine ⟨k.wf, k.live, k.inode, fun j hj hne => ?_, fun j hj hne => ?_⟩
  · rw [k.others j (hsb ▸ hj) hne, h.others j hj hne]
  · have hj₁ : Live v₁ j := ⟨hsb ▸ hj.1, by rw [h.others j hj.1 hne]; exact hj.2⟩
    rw [k.bytes j hj₁ hne, h.bytes j hj hne]

/-- Two writes one behind the other are one. -/
theorem WroteFile.trans {v v₁ v₂ : Vol} {i : Nat} {src : Nat → BitVec 8} {off m k : Nat} {ip₁ ip₂ : Inode} (hsb : v₁.sb = v.sb)
    (h₁ : WroteFile v i src off m v₁ ip₁) (h₂ : WroteFile v₁ i (fun j => src (m + j)) (off + m) k v₂ ip₂) :
    WroteFile v i src off (m + k) v₂ ip₂ := by
  refine ⟨h₁.toChanged.trans hsb h₂.toChanged, ?_, ?_⟩
  · rw [h₂.size, h₁.inode, h₁.size]
    omega
  · rw [h₂.data, h₁.inode, h₁.data, overlay_overlay]

/-- A chunk stored whole leaves the rest of a long write as it was. -/
theorem stored_chunk (h : WellFormed v) (hi : Live v i) (src : Nat → BitVec 8) {now : Nat} (n : Nat)
    (hoff : off + m < 2 ^ 32) (hm : 0 < m) (hnow : now < 2 ^ 32) (hfull : stored v (inodeAt v i) off m = m) :
    let v' := (xv6fsWritei v (inodeAt v i) src off m now).2.2
    stored v (inodeAt v i) off (m + n) = m + stored v' (inodeAt v' i) (off + m) n := by
  intro v'
  obtain ⟨-, hw⟩ := writei_spec h hi src hoff hnow
  obtain ⟨hhole, hsup⟩ := writei_leaves h hi src now hoff hm hfull
  have hnext : stored v' (inodeAt v' i) (off + m) n = storedIn (after (hole v (inodeAt v i)) (span off m))
      (v.supply.length - (missing (hole v (inodeAt v i)) (span off m)).length) (off + m) n := by
    rw [hw.inode, stored, storedIn, hsup, reach_congr _ hhole]
  rw [hnext]
  exact storedIn_append n hm hfull

end Orthox.Blocks
