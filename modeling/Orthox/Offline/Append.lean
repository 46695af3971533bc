import Orthox.Offline.Image

/-! `iappend` does to an image what the loop of `xv6fs_writei` does to the mounted volume, when its allocator hands out the
    same blocks (`Lockstep`). What was proved about the kernel's loop then holds of the script: the bytes are in place, the
    file stays sound, and no other file is touched. -/

namespace Orthox.Offline
open List Function
open Journal (Block)
open Blocks Image

/-- Outside the bitmap an image is a volume. -/
structure Agree (m : Image) (v : Vol) : Prop where
  sb : v.sb = m.sb
  mem : ∀ x, x < v.sb.bmapstart ∨ v.sb.dataStart ≤ x → m.mem x = v.mem x

/-- Images and volumes related by `R` agree and stay related when a block is written to both, and the allocator of the
    script takes the first block of the kernel's supply. -/
structure Lockstep (alloc : Image → Option (Nat × Image)) (R : Image → Vol → Prop) : Prop where
  agree : ∀ {m v}, R m v → Agree m v
  put : ∀ {m v x} (blk : Block), R m v → x < v.sb.bmapstart ∨ v.sb.dataStart ≤ x ∧ x < v.sb.size ∧ v.bit x = true →
    R (m.put x blk) ((v.put x blk).xv6logWrite x)
  none : ∀ {m v}, R m v → v.supply = [] → alloc m = none
  take : ∀ {m v f fs}, R m v → v.supply = f :: fs → ∃ m', alloc m = some (f, m') ∧ R m' (v.took f)

/-- The script stops where the kernel finds no block, and otherwise has the same block and a related image. -/
def Follows (R : Image → Vol → Prop) (r : Nat × Vol) (o : Option (Nat × Image)) : Prop :=
  r.1 = 0 ∧ o = none ∨ r.1 ≠ 0 ∧ ∃ m', o = some (r.1, m') ∧ R m' r.2

section
variable {alloc : Image → Option (Nat × Image)} {R : Image → Vol → Prop} {m : Image} {v : Vol} {ip : Inode}

/-- Writing what is there changes nothing. -/
theorem put_self {b : Nat} {blk : Block} (h : m.mem b = blk) : m.put b blk = m := by
  subst h
  rw [put, update_eq_self]

/-- A block the script takes is zero in its image. -/
theorem Lockstep.take_new (hl : Lockstep alloc R) (h : Sound v ip) (hR : R m v) {f : Nat} {fs : List Nat} (hs : v.supply = f :: fs) :
    f ≠ 0 ∧ ∃ m', alloc m = some (f, m') ∧ R m' (v.took f) ∧ m'.mem f = fun _ => 0 := by
  have hf : f ∈ v.supply := hs ▸ mem_cons_self
  obtain ⟨m', halloc, hR'⟩ := hl.take hR hs
  exact ⟨h.supply_pos hf, m', halloc, hR', ((hl.agree hR').mem f (.inr (h.of_supply hf).1)).trans (v.took_zero f)⟩

theorem fillTable_sim (hl : Lockstep alloc R) {s : Fin 12} : ∀ (is js : List (Fin 256)) (m : Image) (v : Vol), Sound v ip →
    Valid (s, js ++ is) → cell v ip (s, js) ≠ 0 → R m v →
    Follows R (bmapTable true is (cell v ip (s, js)) v) (fillTable alloc is (cell v ip (s, js)) m)
  | [], js, m, v, h, hv, ha, hR => .inr ⟨ha, m, rfl, hR⟩
  | i :: is, js, m, v, h, hv, ha, hR => by
    have hassoc : js ++ i :: is = js ++ [i] ++ is := by simp
    have hN : Valid (s, js ++ [i]) := by
      simp only [Valid, length_append, length_cons, length_nil] at hv ⊢
      omega
    obtain ⟨a, haddr⟩ : ∃ a, a = cell v ip (s, js) := ⟨_, rfl⟩
    have hparent := h.inside _ (valid_of_snoc hN) ha
    have hentry : v.entry (cell v ip (s, js)) i = cell v ip (s, js ++ [i]) := by rw [cell_snoc, if_neg ha]
    rw [← haddr] at ha hparent hentry ⊢
    have hread : (m.mem a i).toNat = cell v ip (s, js ++ [i]) := by
      rw [(hl.agree hR).mem a (.inr hparent.1)]
      exact hentry
    rw [bmapTable, fillTable, hread, hentry]
    rcases eq_or_ne (cell v ip (s, js ++ [i])) 0 with hz | hz
    · rw [if_pos hz, if_pos hz]
      cases hs : v.supply with
      | nil =>
        rw [Vol.balloc_nil hs, hl.none hR hs]
        exact .inl ⟨rfl, rfl⟩
      | cons f fs =>
        obtain ⟨hlow, hhigh, -, hfresh⟩ := h.of_supply (hs ▸ mem_cons_self)
        obtain ⟨hf0, m', halloc, hR', hzero⟩ := hl.take_new h hR hs
        rw [Vol.balloc_cons hs, halloc, if_neg hf0]
        dsimp only
        -- the table was not touched by the allocation, and the new block is not the table
        have hne : a ≠ f := haddr ▸ hfresh _ (valid_of_snoc hN)
        have hused : (v.took f).bit a := by
          rw [Vol.took_bit hlow hparent.2.1, if_neg hne]
          exact hparent.2.2
        have hput := hl.put (update (m.mem a) i (.ofNat 32 f)) hR' (.inr ⟨hparent.1, hparent.2.1, hused⟩)
        have hset : ((v.took f).put a (update (m.mem a) i (.ofNat 32 f))).xv6logWrite a =
            ((v.took f).setEntry a i f).xv6logWrite a := by
          rw [Vol.setEntry, Vol.took_mem hhigh hparent.1 hne, (hl.agree hR).mem a (.inr hparent.1)]
        rw [hset] at hput
        have hfill := (h.fill_entry hs hN (haddr ▸ ha) hz).1
        rw [← haddr] at hfill
        have hcell : cell (((v.took f).setEntry a i f).xv6logWrite a) ip (s, js ++ [i]) = f := by
          rw [hfill.cell _ hN, if_pos rfl]
        have hzero' : (m'.put a (update (m.mem a) i (.ofNat 32 f))).mem f = fun _ => 0 := (update_of_ne hne.symm _ _).trans hzero
        rw [put_self hzero', ite_self]
        have ih := fillTable_sim hl is (js ++ [i]) _ _ hfill.sound (by rw [← hassoc]; exact hv) (by rw [hcell]; exact hf0) hput
        rwa [hcell] at ih
    · rw [if_neg hz, if_neg hz]
      exact fillTable_sim hl is (js ++ [i]) m v h (by rw [← hassoc]; exact hv) hz hR

/-- The block of a file block. -/
theorem blockFor_sim (hl : Lockstep alloc R) (h : Sound v ip) {fbn : Nat} (hbn : fbn < maxFile) (hR : R m v) :
    let r := bmapLookup v ip fbn true
    r.1 = 0 ∧ blockFor alloc m ip fbn = none ∨ r.1 ≠ 0 ∧ ∃ m', blockFor alloc m ip fbn = some (r.1, r.2.1, m') ∧ R m' r.2.2 := by
  have hp := path_some hbn
  rcases hN : fileNode fbn with ⟨s, is⟩
  rw [hN] at hp
  have hval : Valid (s, [] ++ is) := (path_valid hp).le
  have hroot : (ip.addrs s).toNat = cell v ip (s, []) := rfl
  rw [bmapLookup, blockFor, path_eq, hp]
  dsimp only
  rw [hroot]
  rcases eq_or_ne (cell v ip (s, [])) 0 with hz | hz
  · rw [if_pos hz, if_pos hz]
    cases hs : v.supply with
    | nil =>
      rw [Vol.balloc_nil hs, hl.none hR hs]
      exact .inl ⟨rfl, rfl⟩
    | cons f fs =>
      obtain ⟨hf0, m', halloc, hR', hzero⟩ := hl.take_new h hR hs
      have hfill := (h.fill_slot hs hz).1
      have hcell : cell (v.took f) { ip with addrs := update ip.addrs s (.ofNat 32 f) } (s, []) = f := by
        rw [hfill.cell _ (Nat.zero_le _), if_pos rfl]
      rw [Vol.balloc_cons hs, halloc, if_neg hf0]
      dsimp only
      rw [put_self hzero, ite_self]
      have hsim := fillTable_sim hl is [] m' (v.took f) hfill.sound hval (by rw [hcell]; exact hf0) hR'
      rw [hcell] at hsim
      rcases hsim with ⟨hr, ho⟩ | ⟨hr, m'', ho, hR''⟩
      · exact .inl ⟨hr, by rw [ho]; rfl⟩
      · exact .inr ⟨hr, m'', by rw [ho]; rfl, hR''⟩
  · rw [if_neg hz, if_neg hz]
    rcases fillTable_sim hl is [] m v h hval hz hR with ⟨hr, ho⟩ | ⟨hr, m'', ho, hR''⟩
    · exact .inl ⟨hr, by rw [ho]; rfl⟩
    · exact .inr ⟨hr, m'', by rw [ho]; rfl, hR''⟩

/-- A file that fits is appended to in lockstep with the kernel's loop; the script stops when a byte finds no block. -/
theorem appendLoop_sim (hl : Lockstep alloc R) (src : Nat → BitVec 8) (n : Nat) : ∀ (fuel tot off : Nat) (ip : Inode) (m : Image)
    (v : Vol), Sound v ip → n - tot ≤ fuel → tot ≤ n → off + (n - tot) ≤ maxFile * bsize → R m v →
    let w := writeLoop src n fuel tot off ip v
    w.tot < n ∧ appendLoop alloc src n fuel tot off ip m = none ∨
      w.tot = n ∧ ∃ m', appendLoop alloc src n fuel tot off ip m = some (w.off, w.ip, m') ∧ R m' w.vol
  | 0, tot, off, ip, m, v, _, hfuel, htot, _, hR => .inr ⟨show tot = n by omega, m, rfl, hR⟩
  | fuel + 1, tot, off, ip, m, v, h, hfuel, htot, hmax, hR => by
    rw [writeLoop, appendLoop]
    rcases lt_or_ge tot n with hlt | hge
    · have hmod : off % bsize < bsize := Nat.mod_lt _ (by decide)
      have hbn : off / bsize < maxFile := (Nat.div_lt_iff_lt_mul (by decide)).mpr (by omega)
      rw [if_pos hlt, if_pos hlt]
      obtain ⟨hgrow, -, hres⟩ := bmapLookup_spec (off / bsize) h hbn
      have hblock := blockFor_sim hl h hbn hR
      generalize bmapLookup v ip (off / bsize) true = r at hgrow hres hblock
      rcases hblock with ⟨hr, ho⟩ | ⟨hr, m', ho, hR'⟩
      · rw [if_pos hr, ho]
        exact .inl ⟨hlt, rfl⟩
      have hcell : r.1 = cell r.2.2 r.2.1 (fileNode (off / bsize)) := by
        split_ifs at hres
        · exact hres.1
        · exact absurd hres hr
      have hleaf : IsLeaf (fileNode (off / bsize)) := fileNode_length hbn
      have hin := hgrow.sound.inside _ hleaf.valid (hcell ▸ hr)
      have hwrite := hgrow.sound.write hleaf (hcell ▸ hr) (memcpy (r.2.2.mem r.1) (off % bsize)
        (min (n - tot) (bsize - off % bsize)) fun i => src (tot + i))
      rw [← hcell] at hin hwrite
      rw [if_neg hr, ho]
      dsimp only
      rw [(hl.agree hR').mem _ (.inr hin.1)]
      exact appendLoop_sim hl src n fuel _ _ _ _ _ hwrite.sound (by omega) (by omega) (by omega) (hl.put _ hR' (.inr hin))
    · rw [if_neg (not_lt.mpr hge), if_neg (not_lt.mpr hge)]
      exact .inr ⟨show tot = n by omega, m, rfl, hR⟩

/-- What was appended fits into a file. -/
theorem appendLoop_fits {src : Nat → BitVec 8} {n : Nat} {r : Nat × Inode × Image} : ∀ (fuel tot off : Nat) (ip : Inode) (m : Image),
    n - tot ≤ fuel → appendLoop alloc src n fuel tot off ip m = some r → n ≤ tot ∨ off + (n - tot) ≤ maxFile * bsize
  | 0, tot, off, ip, m, hfuel, _ => .inl (by omega)
  | fuel + 1, tot, off, ip, m, hfuel, hr => by
    rcases lt_or_ge tot n with hlt | hge
    · rw [appendLoop, if_pos hlt] at hr
      have hmod := Nat.div_add_mod off bsize
      have hlt' : off % bsize < bsize := Nat.mod_lt _ (by decide)
      have hbn : off / bsize < maxFile := by
        by_contra hge
        rw [blockFor, path_eq, path_none (Nat.le_of_not_lt hge)] at hr
        cases hr
      have hmul : (off / bsize + 1) * bsize ≤ maxFile * bsize := Nat.mul_le_mul_right _ hbn
      rw [Nat.succ_mul, mul_comm] at hmul
      rcases hb : blockFor alloc m ip (off / bsize) with _ | ⟨x, ip', m'⟩
      · rw [hb] at hr
        cases hr
      rw [hb] at hr
      rcases appendLoop_fits fuel _ _ _ _ (by omega) hr with hdone | hfits
      · exact .inr (by omega)
      · exact .inr (by omega)
    · exact .inl hge

/-! ### One call -/

theorem Agree.inodeAt {i : Nat} (h : Agree m v) (hok : v.sb.Ok) (hi : i < v.sb.ninodes) : m.rinode i = inodeAt v i := by
  refine inodeAt_congr fun k => ?_
  rw [dword, dword, show m.vol.sb = v.sb from h.sb.symm, show m.vol.mem = m.mem from rfl, h.mem _ (.inl (hok.iblock_lt hi))]

/-- `winode` is `xv6fs_iupdate`. -/
theorem winode_sim (hl : Lockstep alloc R) (hok : v.sb.Ok) (hi : ip.inum < v.sb.ninodes) {m' : Image} (hR : R m v)
    (hm : m.winode ip = some m') : R m' (xv6fsIupdate v ip) ∧ ip.size < 2 ^ 32 ∧ ip.mtime < 2 ^ 32 := by
  rw [winode] at hm
  split_ifs at hm with hlt
  obtain rfl := Option.some.inj hm
  refine ⟨?_, hlt⟩
  have hput := hl.put (fun w => if w.val / 16 = ip.inum % ipb then ip.dinode (.ofNat 16 w.val) else v.mem (v.sb.iblock ip.inum) w)
    hR (.inl (hok.iblock_lt hi))
  refine Eq.mp (congrArg (R · _) ?_) hput
  rw [← (hl.agree hR).mem _ (.inl (hok.iblock_lt hi)), (hl.agree hR).sb]
  rfl

/-- What appending `d` to file `i` does, seen by the kernel. -/
structure Appended (v : Vol) (i : Nat) (d : List (BitVec 8)) (v' : Vol) (ip' : Inode) : Prop where
  changed : Changed v i v' ip'
  sb : v'.sb = v.sb
  boot : v'.mem 0 = v.mem 0
  rest : ip' = { inodeAt v i with size := (inodeAt v i).size + d.length, addrs := ip'.addrs }
  data : data v' ip' = overlay (data v (inodeAt v i)) (bytes d) (inodeAt v i).size d.length

theorem iappend_spec (hl : Lockstep alloc R) (hR : R m v) (h : WellFormed v) {i : Nat} (hi : Live v i) {d : List (BitVec 8)}
    {m' : Image} (hm : iappend alloc m i d = some m') : ∃ v' ip', R m' v' ∧ Appended v i d v' ip' := by
  have hs := h.sound i hi
  rw [iappend, (hl.agree hR).inodeAt hs.ok hi.1] at hm
  rcases hloop : appendLoop alloc (bytes d) d.length d.length 0 (inodeAt v i).size (inodeAt v i) m with _ | ⟨off, ip, m₁⟩
  · rw [hloop] at hm
    cases hm
  rw [hloop] at hm
  have hfits : (inodeAt v i).size + (d.length - 0) ≤ maxFile * bsize := by
    rcases appendLoop_fits _ _ _ _ _ (by omega) hloop with hdone | hfits
    · exact le_trans (by have := inodeAt_size_lt v i; omega : _ ≤ 2 ^ 32) (by decide)
    · exact hfits
  have hst := writeLoop_spec (bytes d) d.length d.length 0 (inodeAt v i).size (inodeAt v i) v hs (by omega) hfits
  rcases appendLoop_sim hl (bytes d) d.length d.length 0 _ _ m v hs (by omega) (Nat.zero_le _) hfits hR with ⟨-, ho⟩ | ⟨htot, m₂, ho, hR₁⟩
  · rw [hloop] at ho
    cases ho
  rw [hloop] at ho
  set w := writeLoop (bytes d) d.length d.length 0 (inodeAt v i).size (inodeAt v i) v with hw
  obtain ⟨rfl, rfl, rfl⟩ : off = w.off ∧ ip = w.ip ∧ m₁ = m₂ := by simpa using ho
  have hk : stored v (inodeAt v i) (inodeAt v i).size (d.length - 0) = d.length := by
    have := hst.total
    omega
  have hsb : w.vol.sb = v.sb := hst.frame.sb
  have hinum : w.ip.inum = i := hst.frame.inum
  obtain ⟨hR₂, hsize, hmtime⟩ := winode_sim hl (hsb ▸ hs.ok)
    (show { w.ip with size := w.off }.inum < _ by rw [hsb]; exact hinum ▸ hi.1) hR₁ hm
  obtain ⟨hch, hdata⟩ := h.changed hi hst.frame hst.grown.sound { w.ip with size := w.off } rfl rfl hst.rest.fields.1 hsize hmtime
  refine ⟨_, _, hR₂, hch, hsb, ?_, ?_, ?_⟩
  · have hstart : 0 < v.sb.inodestart := Nat.zero_lt_of_lt hs.ok.log
    have hpos : 0 < w.vol.sb.iblock w.ip.inum := hsb ▸ lt_of_lt_of_le hstart (Nat.le_add_left _ _)
    have hlow : 0 < v.sb.bmapstart := lt_of_lt_of_le hstart
      (le_trans (Nat.le_add_right _ _) (le_trans (Nat.le_add_right _ _) hs.ok.inodes))
    exact (update_of_ne hpos.ne _ _).trans (hst.frame.low 0 hlow)
  · have hrest := congrArg (fun q : Inode => { q with size := w.off, addrs := w.ip.addrs }) hst.rest
    rw [hst.next, hk] at hrest ⊢
    exact hrest
  · rw [hdata, hst.data, hk]
    simp

end

/-! ### The two allocators -/

/-- The volume of an image that is edited, when the kernel's scan finds what `_alloc_block_in_image` finds. -/
structure Opened (m : Image) (v : Vol) : Prop where
  sb : v.sb = m.sb
  mem : v.mem = m.mem
  supply : v.supply = v.free v.sb.dataStart v.sb.size

/-- The volume of an image in the making, with the inodes below `k` allocated: `_alloc_block` counts, and the bitmap will
    follow (`write_bitmap`). -/
structure Counted (k : Nat) (m : Image) (v : Vol) : Prop extends Agree m v where
  inodes : m.freeinode = k
  low : v.sb.dataStart ≤ m.freeblock
  bit : ∀ c < v.sb.size, v.bit c = decide (c < m.freeblock)
  blank : ∀ x, m.freeblock ≤ x → m.mem x = fun _ => 0
  supply : v.supply = range' m.freeblock (v.sb.size - m.freeblock)

theorem supply_put {v : Vol} {x : Nat} (blk : Block) (hx : x < v.sb.bmapstart ∨ v.sb.dataStart ≤ x) :
    ((v.put x blk).xv6logWrite x).supply = v.supply :=
  Vol.supply_congr rfl rfl fun _ hc => Vol.bit_put hc hx blk

theorem Opened.find {m : Image} {v : Vol} (h : Opened m v) :
    (range' m.sb.dataStart (m.sb.size - m.sb.dataStart)).find? (fun b => !m.vol.bit b) = v.supply.head? := by
  have hbit : v.bit = m.vol.bit := by
    funext c
    rw [Vol.bit, h.sb, h.mem]
    rfl
  rw [h.supply, Vol.free, head?_filter, h.sb, hbit]

theorem opened_lockstep : Lockstep allocBlockInImage Opened where
  agree h := ⟨h.sb, fun x _ => by rw [h.mem]⟩
  put := by
    intro m v x blk h hx
    have hoff : x < v.sb.bmapstart ∨ v.sb.dataStart ≤ x := hx.imp_right And.left
    refine ⟨h.sb, show update v.mem x blk = _ by rw [h.mem]; rfl, ?_⟩
    rw [supply_put blk hoff, h.supply]
    exact (Vol.free_congr fun c _ hc => Vol.bit_put hc hoff blk).symm
  none := by
    intro m v h hs
    rw [allocBlockInImage, h.find, hs]
    rfl
  take := by
    intro m v f fs h hs
    obtain ⟨hlow, hhigh, -, hused, hfs⟩ := Vol.free_of_first (h.supply.symm.trans hs)
    have hbit : ∀ c, c < v.sb.size → (v.took f).bit c = if c = f then true else v.bit c := fun c hc => Vol.took_bit hlow hc
    have hleft : (v.took f).supply = fs := Vol.supply_tail hs rfl rfl hbit
    refine ⟨{ m with mem := ((m.vol.setBit f true).put f fun _ => 0).mem }, by rw [allocBlockInImage, h.find, hs]; rfl, h.sb, ?_, ?_⟩
    · obtain ⟨hsb, hmem, -⟩ := h
      show update (v.setBit f true).mem f _ = update (m.vol.setBit f true).mem f _
      rw [Vol.setBit, hsb, Vol.put, hmem]
      rfl
    · have hnil : (v.took f).free v.sb.dataStart (f + 1) = [] := Vol.free_nil fun c hc hcf => by
        rw [hbit c (by omega)]
        split_ifs with hne
        · rfl
        · exact hused c hc (by omega)
      rw [hleft, Vol.took_sb, Vol.free_append _ _ (f + 1) _ (by omega) hhigh, hnil, hfs]
      refine (Vol.free_congr fun c hc hc' => ?_).symm
      rw [hbit c hc', if_neg (by omega)]

theorem counted_lockstep (k : Nat) : Lockstep allocBlock (Counted k) where
  agree h := h.toAgree
  put := by
    intro m v x blk h hx
    have hoff : x < v.sb.bmapstart ∨ v.sb.dataStart ≤ x := hx.imp_right And.left
    have hlt : x < m.freeblock := by
      rcases hx with hx | ⟨-, hx, hbit⟩
      · exact lt_of_lt_of_le hx (v.sb.bmapstart_le.trans h.low)
      · exact of_decide_eq_true ((h.bit x hx).symm.trans hbit)
    refine ⟨⟨h.sb, fun y hy => ?_⟩, h.inodes, h.low, fun c hc => ?_, fun y hy => ?_, ?_⟩
    · show update m.mem x blk y = update v.mem x blk y
      rw [update_apply, update_apply, h.mem y hy]
    · have hkeep : (v.put x blk).bit c = v.bit c := Vol.bit_put (show c < v.sb.size from hc) hoff blk
      exact hkeep.trans (h.bit c hc)
    · exact (update_of_ne (by have : m.freeblock ≤ y := hy; omega) _ _).trans (h.blank y hy)
    · rw [supply_put blk hoff]
      exact h.supply
  none := by
    intro m v h hs
    have hlen := congrArg length (h.supply.symm.trans hs)
    rw [length_range', length_nil] at hlen
    rw [allocBlock, if_neg (by rw [← h.sb]; omega)]
  take := by
    intro m v f fs h hs
    have hlt : m.freeblock < v.sb.size := by
      have hlen := congrArg length (h.supply.symm.trans hs)
      rw [length_range', length_cons] at hlen
      omega
    have hsup := h.supply.symm.trans hs
    rw [show v.sb.size - m.freeblock = (v.sb.size - (m.freeblock + 1)) + 1 by omega] at hsup
    obtain ⟨rfl, hfs⟩ := cons.inj hsup
    have hbit : ∀ c, c < v.sb.size → (v.took m.freeblock).bit c = if c = m.freeblock then true else v.bit c :=
      fun c hc => Vol.took_bit h.low hc
    have hleft : (v.took m.freeblock).supply = fs := Vol.supply_tail hs rfl rfl hbit
    refine ⟨{ m with freeblock := m.freeblock + 1 }, by rw [allocBlock, if_pos (h.sb ▸ hlt)], ⟨h.sb, fun x hx => ?_⟩, h.inodes, h.low.trans (Nat.le_succ _), fun c hc => ?_,
      fun x hx => h.blank x ((Nat.le_succ _).trans hx), ?_⟩
    · rcases hx with hx | hx
      · rw [v.took_low hlt h.low hx]
        exact h.mem x (.inl hx)
      rcases eq_or_ne x m.freeblock with rfl | hne
      · rw [v.took_zero]
        exact h.blank _ le_rfl
      · rw [Vol.took_mem hlt hx hne]
        exact h.mem x (.inr hx)
    · rw [hbit c hc, h.bit c hc]
      split_ifs with heq
      · exact (decide_eq_true (show c < m.freeblock + 1 by omega)).symm
      · exact decide_eq_decide.mpr (show _ ↔ c < m.freeblock + 1 by omega)
    · rw [hleft]
      exact hfs.symm

end Orthox.Offline
