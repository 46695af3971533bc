import Orthox.Offline.Edit

/-! `sparsify_zero_blocks_in_image` takes the blocks of zeros out of a file, and with `--write` and `--replace` it makes the
    edits of an image that exists. Each of them works inside the frame of its file: all other files and the rest of the
    inode stay, and no block is shared afterwards that was not before. -/

namespace Orthox.Offline
open Blocks Image List Function Option

namespace Image

/-- The pointer at a place of the index is cleared, in the inode or in the last table on the way. -/
def clearPointer (m : Image) (ip : Inode) (N : Node) : Inode × Image :=
  match N.2.getLast? with
  | none => ({ ip with addrs := update ip.addrs N.1 0 }, m)
  | some i =>
    let a := m.vol.descend (ip.addrs N.1).toNat N.2.dropLast
    (ip, m.put a (update (m.mem a) i 0))

/-- `_set_bitmap_block`; a block outside the volume is an error. -/
def setBitmapBlock (m : Image) (b : Nat) (used : Bool) : Option Image :=
  if b < m.sb.size then some { m with mem := (m.vol.setBit b used).mem } else none

/-- One round of `sparsify_zero_blocks_in_image`. -/
def sparsifyBlock (r : Inode × Image) (fbn : Nat) : Option (Inode × Image) :=
  let blk := r.2.getDataBlock r.1 fbn
  if blk = 0 ∨ r.2.mem blk ≠ fun _ => 0 then some r
  else
    match path fbn with
    | none => none
    | some N =>
      let r := r.2.clearPointer r.1 N
      (r.2.setBitmapBlock blk false).map fun m => (r.1, m)

/-- `sparsify_zero_blocks_in_image` -/
def sparsifyZeroBlocksInImage (m : Image) (i : Nat) : Option Image :=
  let din := m.rinode i
  if din.type = 2 then
    ((range ((din.size + bsize - 1) / bsize)).foldlM sparsifyBlock (din, m)).bind fun r => r.2.winode r.1
  else none

end Image

/-! ### A block of zeros is taken out -/

variable {ip ip' : Inode}

/-- A data block of zeros gives way to a hole. -/
theorem clear_kept {v w : Vol} {N : Node} (h : Sound v ip) (hN : IsLeaf N) (hne : cell v ip N ≠ 0)
    (hzero : v.mem (cell v ip N) = fun _ => 0) (hcell : ∀ M, Valid M → cell w ip' M = if M = N then 0 else cell v ip M)
    (hsb : w.sb = v.sb) (hrest : SameRest ip ip')
    (hmem : ∀ y, (∀ M, Valid M → ¬ IsLeaf M → cell v ip M ≠ 0 → cell v ip M ≠ y) → w.mem y = v.mem y) :
    let v' := w.setBit (cell v ip N) false
    Sound v' ip' ∧ Kept v ip v' ip' := by
  intro v'
  obtain ⟨-, hlt, -⟩ := h.inside N hN.valid hne
  have hblock := Vol.bblock_lt hlt
  have hfar : ∀ y, y ≠ v.sb.bblock (cell v ip N) → v'.mem y = w.mem y := fun y hy =>
    update_of_ne (show y ≠ w.sb.bblock _ by rwa [hsb]) _ _
  have hcell' : ∀ M, Valid M → cell v' ip' M = if M = N then 0 else cell v ip M := fun M hM => by
    rw [← hcell M hM]
    refine cell_congr (fun K hK hk => hfar _ ?_) hM
    rw [hcell K hK] at hk ⊢
    split_ifs at hk ⊢
    · exact absurd rfl hk
    · have := (h.inside K hK hk).1
      omega
  have hbit : ∀ c < v.sb.size, v'.bit c = if c = cell v ip N then false else v.bit c := fun c hc => by
    rw [Vol.bit_setBit, Vol.bit, hsb, hmem, Vol.bit]
    intro M hM _ hk
    have := (h.inside M hM hk).1
    have := Vol.bblock_lt hc
    omega
  refine h.replaced hN.valid hcell' hsb hrest (fun h0 => absurd rfl h0) (fun c hc hb hor => ?_) (fun y hy hn => ?_) fun _ => ?_
  · rw [hbit c hc, if_neg, hb]
    rintro rfl
    exact hor.elim hne (absurd rfl)
  · rw [hfar y (by omega), hmem y hn]
  · rw [leaf, leaf, hcell' N hN.valid, if_pos rfl, if_pos rfl, if_neg hne, hzero]

theorem clearPointer_kept {m : Image} : ∀ {N : Node}, Sound m.vol ip → IsLeaf N → cell m.vol ip N ≠ 0 →
    (m.mem (cell m.vol ip N) = fun _ => 0) →
    let r := m.clearPointer ip N
    let v' := r.2.vol.setBit (cell m.vol ip N) false
    Sound v' r.1 ∧ Kept m.vol ip v' r.1 := by
  rintro ⟨s, is⟩ h hN hne hzero
  rcases eq_nil_or_concat' is with rfl | ⟨js, j, rfl⟩
  · refine clear_kept h hN hne hzero (cell_setSlot (by decide) (fun _ _ _ => rfl) fun j hj => ?_) rfl rfl fun _ _ => rfl
    exact absurd hN (not_leaf_of_snoc (show Valid (s, [] ++ [j]) from hj))
  have hp : cell m.vol ip (s, js) ≠ 0 := fun hz => hne (by rw [cell_snoc, if_pos hz])
  have hclear : m.clearPointer ip (s, js ++ [j]) =
      (ip, m.put (cell m.vol ip (s, js)) (update (m.mem (cell m.vol ip (s, js))) j 0)) := by
    rw [clearPointer, getLast?_concat, dropLast_concat]
    rfl
  rw [hclear]
  refine clear_kept h hN hne hzero (h.cell_setEntry (by decide) (fun _ _ _ => rfl) (by rfl) hN.valid hp
    fun j' hj => ?_) rfl rfl fun y hn => ?_
  · exact absurd hN (not_leaf_of_snoc hj)
  · exact update_of_ne (hn _ (valid_of_snoc hN.valid) (not_leaf_of_snoc hN.valid) hp).symm _ _

section
variable {m m' : Image} {i : Nat}

theorem sparsifyBlock_spec {r r' : Inode × Image} {fbn : Nat} (h : Sound r.2.vol r.1) (hr : sparsifyBlock r fbn = some r') :
    Sound r'.2.vol r'.1 ∧ Kept r.2.vol r.1 r'.2.vol r'.1 := by
  rw [sparsifyBlock] at hr
  split_ifs at hr with hkeep
  · cases hr
    exact ⟨h, .refl _ _⟩
  obtain ⟨hne, hzero⟩ := not_or.1 hkeep
  rw [not_not] at hzero
  have hlt : fbn < maxFile := by
    by_contra hge
    rw [getDataBlock, path_eq, path_none (Nat.le_of_not_lt hge)] at hne
    exact hne rfl
  rw [getDataBlock_eq _ _ hlt] at hr hne hzero
  rw [path_eq, path_some hlt] at hr
  obtain ⟨m', hm, rfl⟩ := map_eq_some_iff.1 hr
  rw [setBitmapBlock] at hm
  split_ifs at hm
  cases hm
  exact clearPointer_kept h (fileNode_length hlt) hne hzero

/-- All rounds. -/
theorem sparsifyBlocks_spec : ∀ (bs : List Nat) {r r' : Inode × Image}, Sound r.2.vol r.1 → bs.foldlM sparsifyBlock r = some r' →
    Sound r'.2.vol r'.1 ∧ Kept r.2.vol r.1 r'.2.vol r'.1
  | [], r, r', h, hr => by
    cases hr
    exact ⟨h, .refl _ _⟩
  | b :: bs, r, r', h, hr => by
    obtain ⟨r₁, h₁, hr⟩ := bind_eq_some_iff.1 hr
    obtain ⟨hs₁, hk₁⟩ := sparsifyBlock_spec h h₁
    obtain ⟨hs, hk⟩ := sparsifyBlocks_spec bs hs₁ hr
    exact ⟨hs, hk₁.trans hs hk⟩

theorem sparsifyZeroBlocksInImage_spec (h : WellFormed m.vol) (hi : Live m.vol i)
    (hm : m.sparsifyZeroBlocksInImage i = some m') : ∃ v' ip', v'.sb = m'.sb ∧ v'.mem = m'.mem ∧
      Changed m.vol i v' ip' ∧ SameRest (m.rinode i) ip' ∧ data v' ip' = data m.vol (m.rinode i) := by
  rw [sparsifyZeroBlocksInImage] at hm
  split_ifs at hm
  obtain ⟨r, hr, hw⟩ := bind_eq_some_iff.1 hm
  obtain ⟨hs, hk⟩ := sparsifyBlocks_spec _ (h.sound i hi) hr
  rw [winode] at hw
  split_ifs at hw with hfits
  cases hw
  obtain ⟨hch, hdata⟩ := h.changed hi hk.toFrame hs r.1 rfl rfl hk.rest.fields.1 hfits.1 hfits.2
  exact ⟨_, _, rfl, rfl, hch, hk.rest, hdata.trans (funext hk.data)⟩

end

/-! ### What an edit touches -/

/-- The edits of an image that exists. -/
inductive Tool where
  | edit (e : Edit)
  | sparsify

namespace Tool

def run (i : Nat) (m : Image) : Tool → Option Image
  | edit e => e.run i m
  | sparsify => m.sparsifyZeroBlocksInImage i

/-- What the file is to read as. -/
def contents (i : Nat) (m : Image) : Tool → List (BitVec 8)
  | edit e => e.contents
  | sparsify => m.readFileData (m.rinode i)

/-- The image file after the command, which writes it last. -/
def file (i : Nat) (m : Image) (t : Tool) : Image := (t.run i m).getD m

end Tool

/-- File `i` reads as `d`; of its inode only the size, the mtime and the block addresses changed, and of all other inodes
    and their bytes nothing. Every block in use is marked and has one place. -/
structure Touched (m : Image) (i : Nat) (d : List (BitVec 8)) (m' : Image) : Prop where
  reads : m'.readFileData (m'.rinode i) = d
  rest : m'.rinode i = { m.rinode i with
    size := (m'.rinode i).size, mtime := (m'.rinode i).mtime, addrs := (m'.rinode i).addrs }
  others : ∀ j < m.sb.ninodes, j ≠ i → m'.rinode j = m.rinode j
  bytes : ∀ j, Live m.vol j → j ≠ i → data m'.vol (m'.rinode j) = data m.vol (m.rinode j)
  wf : WellFormed m'.vol

/-- What is on the blocks is all that counts. -/
theorem wellFormed_congr {v v' : Vol} (h : WellFormed v) (hsb : v'.sb = v.sb) (hmem : v'.mem = v.mem) : WellFormed v' := by
  have hino : ∀ i, inodeAt v' i = inodeAt v i := fun i => inodeAt_congr fun k => by rw [dword, hsb, hmem, dword]
  have hcell : ∀ ip N, Valid N → cell v' ip N = cell v ip N := fun ip N hN => cell_congr (fun _ _ _ => by rw [hmem]) hN
  have hbit : v'.bit = v.bit := funext fun c => by rw [Vol.bit, hsb, hmem, Vol.bit]
  have hlive : ∀ {i}, Live v' i → Live v i := fun hi => ⟨hsb ▸ hi.1, hino _ ▸ hi.2⟩
  refine ⟨fun i hi => ?_, fun i j hi hj hne N M hN hM => ?_⟩
  · have hs := h.sound i (hlive hi)
    rw [hino]
    refine ⟨hsb ▸ hs.ok, by rw [hsb]; exact hs.inum, by rw [hsb, hbit]; exact hs.marked, fun N hN => ?_, fun N M hN hM => ?_⟩
    · rw [hcell _ N hN, hsb, hbit]
      exact hs.inside N hN
    · rw [hcell _ N hN, hcell _ M hM]
      exact hs.inj N M hN hM
  · rw [hino, hino, hcell _ N hN, hcell _ M hM]
    exact h.apart i j (hlive hi) (hlive hj) hne N M hN hM

section
variable {m m' : Image} {i : Nat}

theorem Touched.of_changed {v' : Vol} {d : List (BitVec 8)} (hsb : v'.sb = m'.sb) (hmem : v'.mem = m'.mem)
    (h : Changed m.vol i v' ip') (hrest : ip' = { m.rinode i with size := ip'.size, mtime := ip'.mtime, addrs := ip'.addrs })
    (hd : (range ip'.size).map (data v' ip') = d) : Touched m i d m' := by
  have hino : ∀ j, m'.rinode j = inodeAt v' j := fun j => inodeAt_congr fun k => by
    rw [dword, dword, hsb, hmem]
    rfl
  have hdata : ∀ ip, data m'.vol ip = data v' ip := fun ip => funext (data_of_mem fun N _ _ => by rw [hmem]; rfl)
  have hsize : (m'.rinode i).size ≤ maxFile * bsize := (inodeAt_size_lt _ _).le.trans (by decide)
  refine ⟨?_, by rw [hino, h.inode]; exact hrest, fun j hj hne => ?_, fun j hj hne => ?_, wellFormed_congr h.wf hsb.symm hmem.symm⟩
  · rw [readFileData_eq _ hsize, contents, hino, hdata, h.inode, hd]
  · rw [hino, h.others j hj hne]
    rfl
  · rw [hino, hdata, h.bytes j hj hne]
    rfl

theorem Tool.run_touched (h : WellFormed m.vol) (hi : Live m.vol i) {t : Tool} (ht : t.run i m = some m') :
    Touched m i (t.contents i m) m' := by
  cases t with
  | edit e =>
    obtain ⟨v', ip', hR, hed⟩ := e.run_spec (opened_vol (h.sound i hi)) h hi ht
    refine .of_changed hR.sb hR.mem hed.changed hed.rest ?_
    rw [hed.size, hed.data]
    refine ext_getElem (by simp [contents]) fun k hk hk' => ?_
    have hlt : k < e.contents.length := hk'
    have hfits := hed.fits
    rw [getElem_map, getElem_range, overlay, if_pos (by omega), bytes, Nat.sub_zero, getD_eq_getElem?_getD,
      getElem?_eq_getElem hlt]
    rfl
  | sparsify =>
    obtain ⟨v', ip', hsb, hmem, hch, hrest, hdata⟩ := sparsifyZeroBlocksInImage_spec h hi ht
    have hsize : (m.rinode i).size ≤ maxFile * bsize := (inodeAt_size_lt _ _).le.trans (by decide)
    refine .of_changed hsb hmem hch ?_ ?_
    · exact congrArg (fun q : Inode => { q with addrs := ip'.addrs, size := ip'.size, mtime := ip'.mtime }) hrest
    · rw [hdata, hrest.fields.2.1, contents, readFileData_eq _ hsize, Image.contents]

end

end Orthox.Offline
