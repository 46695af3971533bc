import Orthox.Offline.Append

/-! Building an image. `ialloc` and `iappend` fill a blank image in any order, `write_bitmap` ends the work. The bitmap of the
    finished image marks the blocks below the counter, and every reader (the builder's, the extractor's, and `readi` of a
    kernel that mounts the image) gets the bytes that were appended, in their order. -/

namespace Orthox.Offline
open List Function Option
open Journal (Block logBlocks)
open Blocks Image

/-- The types the builder gives to inodes. -/
inductive Ftype where | dir | file | device
  deriving DecidableEq

/-- `T_DIR`, `T_FILE`, `T_DEVICE` -/
def Ftype.code : Ftype → BitVec 16
  | .dir => 1
  | .file => 2
  | .device => 3

/-- The layout computed from `FSSIZE` and `NINODES`. -/
def layout (fssize ninodes : Nat) : Super where
  size := fssize
  ninodes := ninodes
  logstart := 2
  inodestart := 2 + (logBlocks + 1)
  bmapstart := 2 + (logBlocks + 1) + (ninodes / ipb + 1)

namespace Image

/-- The image the script starts with; `freeblock` is `nmeta`. -/
def blank (fssize ninodes : Nat) : Image := ⟨layout fssize ninodes, fun _ _ => 0, (layout fssize ninodes).dataStart, 1⟩

/-- `ialloc` -/
def ialloc (m : Image) (ftype : Ftype) (mode : Option Nat) (mtime : Nat) : Option (Nat × Image) :=
  let mode := mode.getD (if ftype = .dir then 0o755 else 0o644)
  let tagged := ftype = .dir ∨ ftype = .file
  if m.freeinode < m.sb.ninodes then
    ({ m with freeinode := m.freeinode + 1 }.winode
      { inum := m.freeinode, type := ftype.code, major := if tagged then 0x4f4d else 0,
        minor := if tagged then BitVec.ofNat 16 (mode % 4096) else 0, nlink := 1, size := 0, mtime := mtime,
        addrs := fun _ => 0 }).map (m.freeinode, ·)
  else none

/-- A block whose first `lim` bits are set. -/
def bitmapBlock (lim : Nat) : Block :=
  (range lim).foldl (fun buf b => update buf (Vol.wordOf b) (buf (Vol.wordOf b) ||| BitVec.twoPow 32 (b % 32))) fun _ => 0

/-- `write_bitmap` -/
def writeBitmap (m : Image) : Image :=
  (range (m.sb.size / bpb + 1)).foldl (fun m' i => m'.put (m.sb.bmapstart + i) (bitmapBlock (min (m.freeblock - i * bpb) bpb))) m

/-! ### The bitmap -/

theorem bitmapBlock_bit {c : Nat} (hc : c < bpb) : ∀ lim ≤ bpb, (bitmapBlock lim (Vol.wordOf c)).getLsbD (c % 32) = decide (c < lim)
  | 0, _ => by simp [bitmapBlock]
  | lim + 1, hlim => by
    have ih := bitmapBlock_bit hc lim (Nat.le_of_succ_le hlim)
    rw [bitmapBlock, range_succ, foldl_append, foldl_cons, foldl_nil, ← bitmapBlock, update_apply]
    have hword : Vol.wordOf c = Vol.wordOf lim ↔ c / 32 = lim / 32 := by
      rw [Vol.wordOf, Vol.wordOf, Fin.mk.injEq, Nat.mod_eq_of_lt hc, Nat.mod_eq_of_lt hlim]
    split_ifs with hw
    · rw [BitVec.getLsbD_or, ← hw, ih]
      rcases lt_trichotomy c lim with h | h | h
      · simp [h, Nat.lt_succ_of_lt h]
      · simp [h]
        omega
      · simp [show ¬ c < lim + 1 by omega]
        omega
    · rw [ih, decide_eq_decide]
      omega

theorem foldl_put (f : Nat → Block) (start : Nat) (m : Image) : ∀ n, ∃ m', (range n).foldl (fun m' i => m'.put (start + i) (f i)) m = m' ∧
    m'.sb = m.sb ∧ ∀ x, m'.mem x = if start ≤ x ∧ x < start + n then f (x - start) else m.mem x
  | 0 => ⟨m, rfl, rfl, fun x => (if_neg (by omega)).symm⟩
  | n + 1 => by
    obtain ⟨m', hfold, hsb, hmem⟩ := foldl_put f start m n
    refine ⟨m'.put (start + n) (f n), by rw [range_succ, foldl_append, hfold]; rfl, hsb, fun x => ?_⟩
    show update m'.mem (start + n) (f n) x = _
    rw [update_apply, hmem]
    split_ifs with h₁ h₂ h₃ h₄ h₅
    · rw [h₁, Nat.add_sub_cancel_left]
    · omega
    · rfl
    · omega
    · omega
    · rfl

/-- The finished image: only the bitmap was written, and it marks the blocks below the counter. -/
theorem writeBitmap_spec (m : Image) : m.writeBitmap.sb = m.sb ∧
    (∀ x, x < m.sb.bmapstart ∨ m.sb.dataStart ≤ x → m.writeBitmap.mem x = m.mem x) ∧
    ∀ c < m.sb.size, m.writeBitmap.vol.bit c = decide (c < m.freeblock) := by
  obtain ⟨m', hfold, hsb, hmem⟩ := foldl_put (fun i => bitmapBlock (min (m.freeblock - i * bpb) bpb)) m.sb.bmapstart m (m.sb.size / bpb + 1)
  rw [writeBitmap, hfold]
  have hstart : m.sb.dataStart = m.sb.bmapstart + (m.sb.size / bpb + 1) := rfl
  refine ⟨hsb, fun x hx => ?_, fun c hc => ?_⟩
  · rw [hmem, if_neg (by omega)]
  · have hle : c / bpb ≤ m.sb.size / bpb := Nat.div_le_div_right hc.le
    have hmod : c % bpb < bpb := Nat.mod_lt _ (by unfold bpb; omega)
    have hdiv : c = c / bpb * bpb + c % bpb := (Nat.div_add_mod' c bpb).symm
    have hword : Vol.wordOf c = Vol.wordOf (c % bpb) := by simp only [Vol.wordOf, Nat.mod_mod]
    have hbit : c % 32 = c % bpb % 32 := (Nat.mod_mod_of_dvd c (by unfold bpb; decide)).symm
    rw [Vol.bit, show m'.vol.sb = m.sb from hsb, show m'.vol.mem = m'.mem from rfl, hmem, Super.bblock, add_comm,
      if_pos ⟨Nat.le_add_right _ _, Nat.add_lt_add_left (Nat.lt_succ_of_le hle) _⟩, Nat.add_sub_cancel_left, hbit, hword,
      bitmapBlock_bit hmod _ (min_le_right _ _), decide_eq_decide]
    omega

end Image

/-! ### A run of the builder -/

/-- The images `ialloc` and `iappend` lead to, with the bytes each inode was given. -/
inductive Built (fssize ninodes : Nat) : Image → (Nat → List (BitVec 8)) → Prop
  | blank : Built fssize ninodes (blank fssize ninodes) fun _ => []
  | ialloc {m m' c ftype mode mtime i} : Built fssize ninodes m c → ialloc m ftype mode mtime = some (i, m') → Built fssize ninodes m' c
  | iappend {m m' c i d} : Built fssize ninodes m c → 0 < i → i < m.freeinode → iappend allocBlock m i d = some m' →
    Built fssize ninodes m' (update c i (c i ++ d))

/-- What holds while an image is built: `v` is what a kernel would see if the bitmap were written. -/
structure Holds (m : Image) (c : Nat → List (BitVec 8)) (v : Vol) : Prop where
  counted : Counted m.freeinode m v
  ok : v.sb.Ok
  boot : v.mem 0 = fun _ => 0
  wf : WellFormed v
  pos : 0 < m.freeinode
  live : ∀ i, Live v i ↔ 0 < i ∧ i < m.freeinode
  fresh : ∀ i, m.freeinode ≤ i → c i = []
  size : ∀ i, Live v i → (inodeAt v i).size = (c i).length
  data : ∀ i, Live v i → ∀ p < (c i).length, data v (inodeAt v i) p = bytes (c i) p

theorem cell_of_zero (v : Vol) {ip : Inode} (hz : ∀ s, ip.addrs s = 0) (N : Node) : cell v ip N = 0 := by
  rw [cell, hz]
  exact Vol.descend_zero v _

variable {fssize ninodes i : Nat}

theorem holds_blank (hok : (layout fssize ninodes).Ok) :
    Holds (blank fssize ninodes) (fun _ => []) (blank fssize ninodes).writeBitmap.vol := by
  obtain ⟨hsb, hmem, hbit⟩ := writeBitmap_spec (blank fssize ninodes)
  generalize hm' : (blank fssize ninodes).writeBitmap = m' at *
  have hsb' : m'.vol.sb = layout fssize ninodes := hsb
  have hnone : ∀ i, ¬ Live m'.vol i := by
    rintro i ⟨hi, hne⟩
    rw [hsb'] at hi
    refine hne ?_
    show (dword m'.vol i 0).extractLsb' 0 16 = 0
    rw [dword, hsb', show m'.vol.mem = m'.mem from rfl, hmem _ (.inl (hok.iblock_lt hi))]
    rfl
  have hfree : m'.vol.free 0 fssize = range' (layout fssize ninodes).dataStart (fssize - (layout fssize ninodes).dataStart) := by
    rw [Vol.free_append _ 0 (layout fssize ninodes).dataStart _ (Nat.zero_le _) (show _ ≤ fssize from hok.bitmap), Vol.free_nil]
    · refine filter_eq_self.2 fun b hb => ?_
      have hb := mem_range'_1.1 hb
      have hlt : b < fssize := by omega
      rw [hbit b hlt, decide_eq_false (by exact not_lt.2 hb.1)]
      rfl
    · intro c _ hc
      rw [hbit c (lt_of_lt_of_le hc hok.bitmap)]
      exact decide_eq_true hc
  refine ⟨⟨⟨hsb, fun x hx => ?_⟩, rfl, by rw [hsb']; exact le_rfl, fun c hc => ?_, fun x _ => rfl, ?_⟩, hsb' ▸ hok, ?_,
    ⟨fun i hi => absurd hi (hnone i), fun i j hi => absurd hi (hnone i)⟩, one_pos, fun i => ⟨fun hi => absurd hi (hnone i), fun h => ?_⟩,
    fun _ _ => rfl, fun i hi => absurd hi (hnone i), fun i hi => absurd hi (hnone i)⟩
  · rw [hsb'] at hx
    exact (hmem x hx).symm
  · rw [hsb'] at hc
    exact hbit c hc
  · have hscan : m'.vol.scanStart = 0 := by
      rw [Vol.scanStart, show m'.vol.hint = 0 from rfl, Nat.zero_div, zero_mul, ite_self]
    rw [Vol.supply, hscan, hsb']
    exact (congrArg (· ++ _) hfree).trans (append_nil _)
  · exact hmem 0 (.inl (Nat.zero_lt_of_lt (lt_of_lt_of_le (Nat.lt_succ_self _) hok.inodes)))
  · exact absurd h.2 (by show ¬ i < 1; omega)

section
variable {m m' : Image} {c : Nat → List (BitVec 8)} {v : Vol}

/-- A new inode without blocks joins the files. -/
theorem wellFormed_joined (h : WellFormed v) {ip : Inode} (hs : Sound v ip) (hz : ∀ s, ip.addrs s = 0) (hsize : ip.size < 2 ^ 32)
    (hmtime : ip.mtime < 2 ^ 32) : WellFormed (xv6fsIupdate v ip) := by
  have hself := inodeAt_iupdate_self v hsize hmtime
  have hold : ∀ j, Live (xv6fsIupdate v ip) j → j ≠ ip.inum → Live v j := fun j hj hne => by
    rw [Live, inodeAt_iupdate_of_ne v hne] at hj
    exact hj
  constructor
  · intro i hi
    rcases eq_or_ne i ip.inum with rfl | hne
    · rw [hself]
      exact iupdate_sound hs.inum hs
    · rw [inodeAt_iupdate_of_ne v hne]
      exact iupdate_sound hs.inum (h.sound i (hold i hi hne))
  · intro i j hi hj hij
    rcases eq_or_ne i ip.inum with rfl | hne
    · intro N M hN _ hcell
      rw [hself, cell_of_zero _ hz] at hcell
      exact absurd rfl hcell
    rcases eq_or_ne j ip.inum with rfl | hne'
    · intro N M hN _ hcell
      rw [hself, cell_of_zero _ hz]
      exact hcell
    rw [inodeAt_iupdate_of_ne v hne, inodeAt_iupdate_of_ne v hne']
    exact iupdate_apart hs.inum (h.sound i (hold i hi hne)) (h.sound j (hold j hj hne'))
      (h.apart i j (hold i hi hne) (hold j hj hne') hij)

theorem Holds.ialloc (h : Holds m c v) {ftype : Ftype} {mode : Option Nat} {mtime : Nat} (hm : ialloc m ftype mode mtime = some (i, m')) :
    ∃ v', Holds m' c v' ∧ v'.sb = v.sb := by
  have hlt : m.freeinode < m.sb.ninodes := by
    by_contra hge
    rw [Image.ialloc, if_neg hge] at hm
    cases hm
  rw [Image.ialloc, if_pos hlt] at hm
  obtain ⟨m₁, hw, heq⟩ := map_eq_some_iff.1 hm
  obtain ⟨rfl, rfl⟩ := Prod.mk.inj heq
  obtain ⟨ip, hw, hnum, htype, hlen, hz⟩ : ∃ ip : Inode, { m with freeinode := m.freeinode + 1 }.winode ip = some m₁ ∧
      ip.inum = m.freeinode ∧ ip.type ≠ 0 ∧ ip.size = 0 ∧ ∀ s, ip.addrs s = 0 :=
    ⟨_, hw, rfl, show ftype.code ≠ 0 by cases ftype <;> decide, rfl, fun _ => rfl⟩
  have hi : ip.inum < v.sb.ninodes := by rw [hnum, h.counted.sb]; exact hlt
  have hnext : Counted (m.freeinode + 1) { m with freeinode := m.freeinode + 1 } v :=
    ⟨⟨h.counted.sb, h.counted.mem⟩, rfl, h.counted.low, h.counted.bit, h.counted.blank, h.counted.supply⟩
  obtain ⟨hcounted, hsize, hmtime⟩ := winode_sim (counted_lockstep _) h.ok hi hnext hw
  have hself := inodeAt_iupdate_self v hsize hmtime
  have hsound : Sound v ip := by
    refine ⟨h.ok, hi, fun b hb => ?_, fun N _ hne => absurd (cell_of_zero v hz N) hne, fun N _ _ _ hne => absurd (cell_of_zero v hz N) hne⟩
    rw [h.counted.bit b (lt_of_lt_of_le hb h.ok.bitmap)]
    exact decide_eq_true (lt_of_lt_of_le hb h.counted.low)
  have hlive : ∀ j, j ≠ ip.inum → (Live (xv6fsIupdate v ip) j ↔ Live v j) := fun j hne => by
    rw [Live, inodeAt_iupdate_of_ne v hne]
    rfl
  refine ⟨xv6fsIupdate v ip, ⟨hcounted.inodes.symm ▸ hcounted, h.ok, ?_, wellFormed_joined h.wf hsound hz hsize hmtime, ?_, fun j => ?_, fun j hj => ?_,
    fun j hj => ?_, fun j hj => ?_⟩, rfl⟩
  · have hpos : 0 < v.sb.iblock ip.inum := lt_of_lt_of_le (Nat.zero_lt_of_lt h.ok.log) (Nat.le_add_left _ _)
    exact (update_of_ne hpos.ne _ _).trans h.boot
  · rw [hcounted.inodes]
    exact Nat.succ_pos _
  · rw [hcounted.inodes]
    rcases eq_or_ne j ip.inum with rfl | hne
    · rw [Live, hself]
      exact ⟨fun _ => ⟨hnum ▸ h.pos, by omega⟩, fun _ => ⟨hi, htype⟩⟩
    · rw [hlive j hne, h.live j]
      omega
  · exact h.fresh j (by rw [hcounted.inodes] at hj; omega)
  · rcases eq_or_ne j ip.inum with rfl | hne
    · rw [hself, hlen, h.fresh _ hnum.ge, length_nil]
    · rw [inodeAt_iupdate_of_ne v hne]
      exact h.size j ((hlive j hne).1 hj)
  · rcases eq_or_ne j ip.inum with rfl | hne
    · rw [h.fresh _ hnum.ge]
      exact fun p hp => absurd hp (Nat.not_lt_zero p)
    have hj' := (hlive j hne).1 hj
    intro p hp
    rw [inodeAt_iupdate_of_ne v hne, iupdate_data hi (h.wf.sound j hj')]
    exact h.data j hj' p hp

/-- Bytes of a file that was appended to. -/
theorem bytes_append (l d : List (BitVec 8)) (p : Nat) : bytes (l ++ d) p = if p < l.length then bytes l p else bytes d (p - l.length) := by
  simp only [bytes, getD_eq_getElem?_getD, getElem?_append]
  split_ifs <;> rfl

theorem Holds.iappend (h : Holds m c v) (hpos : 0 < i) (hi : i < m.freeinode) {d : List (BitVec 8)}
    (hm : iappend allocBlock m i d = some m') : ∃ v', Holds m' (update c i (c i ++ d)) v' ∧ v'.sb = v.sb := by
  have hlive := (h.live i).2 ⟨hpos, hi⟩
  obtain ⟨v', ip', hcounted, happ⟩ := iappend_spec (counted_lockstep m.freeinode) h.counted h.wf hlive hm
  have hothers := happ.changed.others
  have hiff : ∀ j, Live v' j ↔ Live v j := fun j => by
    rcases eq_or_ne j i with rfl | hne
    · exact ⟨fun _ => hlive, fun _ => happ.changed.live⟩
    constructor
    · rintro ⟨hj, ht⟩
      rw [happ.sb] at hj
      exact ⟨hj, hothers j hj hne ▸ ht⟩
    · rintro ⟨hj, ht⟩
      exact ⟨happ.sb.symm ▸ hj, (hothers j hj hne).symm ▸ ht⟩
  refine ⟨v', ⟨hcounted.inodes.symm ▸ hcounted, happ.sb.symm ▸ h.ok, happ.boot.trans h.boot, happ.changed.wf, hcounted.inodes.symm ▸ h.pos,
    fun j => ?_, fun j hj => ?_, fun j hj => ?_, fun j hj => ?_⟩, happ.sb⟩
  · rw [hcounted.inodes, hiff, h.live]
  · rw [hcounted.inodes] at hj
    rw [update_of_ne (by omega)]
    exact h.fresh j hj
  · have hj' := (hiff j).1 hj
    rcases eq_or_ne j i with rfl | hne
    · rw [happ.changed.inode, happ.rest, update_self, length_append, h.size j hj']
    · rw [hothers j hj'.1 hne, update_of_ne hne]
      exact h.size j hj'
  · have hj' := (hiff j).1 hj
    rcases eq_or_ne j i with rfl | hne
    · intro p hp
      rw [update_self, length_append] at hp
      rw [happ.changed.inode, happ.data, update_self, bytes_append, overlay, h.size j hj']
      split_ifs with h₁ h₂ h₃
      · omega
      · rfl
      · exact h.data j hj' p h₃
      · omega
    · rw [happ.changed.bytes j hj' hne, update_of_ne hne]
      exact h.data j hj'

end

theorem Built.holds (hok : (layout fssize ninodes).Ok) {m : Image} {c : Nat → List (BitVec 8)}
    (h : Built fssize ninodes m c) : ∃ v, Holds m c v ∧ v.sb = layout fssize ninodes := by
  induction h with
  | blank => exact ⟨_, holds_blank hok, (writeBitmap_spec _).1⟩
  | ialloc _ hm ih =>
    obtain ⟨v, hv, hsb⟩ := ih
    obtain ⟨v', hv', hsb'⟩ := hv.ialloc hm
    exact ⟨v', hv', hsb'.trans hsb⟩
  | iappend _ hpos hi hm ih =>
    obtain ⟨v, hv, hsb⟩ := ih
    obtain ⟨v', hv', hsb'⟩ := hv.iappend hpos hi hm
    exact ⟨v', hv', hsb'.trans hsb⟩

/-- CORRECT: in a finished image the builder's reader, the extractor and the kernel's `readi` all read what was appended, and
    the bitmap marks the blocks below the counter. -/
theorem readers_agree {fssize ninodes : Nat} {m : Image} {c : Nat → List (BitVec 8)} (hsize : fssize < 2 ^ 31)
    (hmeta : (layout fssize ninodes).dataStart ≤ fssize) (hb : Built fssize ninodes m c) : (∀ i, 0 < i → i < m.freeinode →
      (m.writeBitmap.rinode i).size = (c i).length ∧ m.writeBitmap.readFileData (m.writeBitmap.rinode i) = c i ∧
      m.writeBitmap.readFile (m.writeBitmap.rinode i) = c i ∧ Cache.ReadsAs m.writeBitmap.vol i (bytes (c i))) ∧
    ∀ b < fssize, m.writeBitmap.vol.bit b = decide (b < m.freeblock) := by
  obtain ⟨v, hv, hlayout⟩ := hb.holds ⟨hsize, Nat.lt_succ_self _, le_rfl, hmeta⟩
  obtain ⟨hsb, hmem, hbit⟩ := writeBitmap_spec m
  have hagree : Agree m.writeBitmap v := by
    refine ⟨hv.counted.sb.trans hsb.symm, fun x hx => ?_⟩
    rw [hmem x (hv.counted.sb ▸ hx), hv.counted.mem x hx]
  refine ⟨fun i hpos hi => ?_, fun b hlt => hbit b (by rw [← hv.counted.sb, hlayout]; exact hlt)⟩
  have hlive := (hv.live i).2 ⟨hpos, hi⟩
  have hs := hv.wf.sound i hlive
  have hnode : m.writeBitmap.rinode i = inodeAt v i := hagree.inodeAt hv.ok hlive.1
  have hdata : ∀ p < (c i).length, data m.writeBitmap.vol (inodeAt v i) p = bytes (c i) p := fun p hp => by
    rw [data_of_mem (fun N hN hne => hagree.mem _ (.inr (hs.inside N hN hne).1)) p]
    exact hv.data i hlive p hp
  have hcontents : m.writeBitmap.contents (inodeAt v i) = c i := by
    rw [contents, hv.size i hlive]
    refine ext_getElem (by simp) fun p h₁ h₂ => ?_
    rw [getElem_map, getElem_range, hdata p h₂, bytes, getD_eq_getElem?_getD, getElem?_eq_getElem h₂, getD_some]
  have hboot : m.writeBitmap.mem 0 = fun _ => 0 := by
    rw [hagree.mem 0 (.inl (Nat.zero_lt_of_lt (lt_of_lt_of_le (Nat.lt_succ_self _) hv.ok.inodes)))]
    exact hv.boot
  have hmax : (inodeAt v i).size ≤ maxFile * bsize := le_trans (inodeAt_size_lt v i).le (by decide)
  rw [hnode]
  refine ⟨hv.size i hlive, (readFileData_eq _ hmax).trans hcontents, (readFile_eq _ hboot hmax).trans hcontents, ?_⟩
  intro env s dst off n he hshow hoff hwrap
  obtain ⟨hres, hdst⟩ := Cache.readsAs_data m.writeBitmap.vol i env s dst off n he hshow hoff hwrap
  refine ⟨hres, fun j hj => (hdst j hj).trans ?_⟩
  have hnode' : inodeAt m.writeBitmap.vol i = inodeAt v i := hnode
  rw [hnode', hv.size i hlive] at hj
  rw [hnode']
  exact hdata _ (by omega)

/-- A file of three bytes in an image of 140 blocks. -/
def oneFile : Option Image := ((blank 140 8).ialloc .file none 0).bind fun r => iappend allocBlock r.2 r.1 [1, 2, 3]

theorem readers_agree_oneFile : ∃ m c, oneFile = some m ∧ Built 140 8 m c ∧
    m.writeBitmap.readFile (m.writeBitmap.rinode 1) = [1, 2, 3] ∧ m.writeBitmap.vol.bit 131 = true ∧ m.writeBitmap.vol.bit 132 = false := by
  have hone : (oneFile.map fun m => (m.freeinode, m.freeblock)) = some (2, 132) := by decide +kernel
  have hnode : (((blank 140 8).ialloc .file none 0).map fun r => (r.1, r.2.freeinode)) = some (1, 2) := by decide +kernel
  obtain ⟨m, hm, heq⟩ := map_eq_some_iff.1 hone
  obtain ⟨hfree, hblock⟩ := Prod.mk.inj heq
  obtain ⟨⟨i, m₁⟩, h₁, h₂⟩ := bind_eq_some_iff.1 hm
  rw [h₁] at hnode
  obtain ⟨rfl, hfree₁⟩ := Prod.mk.inj (some.inj hnode)
  have hbuilt := (Built.blank.ialloc h₁).iappend one_pos (by rw [hfree₁]; decide) h₂
  obtain ⟨hread, hbit⟩ := readers_agree (by decide) (by decide +kernel) hbuilt
  refine ⟨m, _, hm, hbuilt, (hread 1 one_pos (by rw [hfree]; decide)).2.2.1, ?_, ?_⟩
  · rw [hbit 131 (by decide), hblock]
    rfl
  · rw [hbit 132 (by decide), hblock]
    rfl

end Orthox.Offline
