import Orthox.Blocks.Files
import Orthox.Blocks.Trunc

/-! What `xv6fs_itrunc_to` leaves of a file: exactly the blocks in front of the cut, with their bytes
    as they were. The last of them keeps its tail, also behind the new size. -/

namespace Orthox.Blocks
open List

namespace Tree

/-- The block at the end of a path. -/
def get : Tree → List (Fin 256) → Nat
  | hole, _ => 0
  | leaf a, [] => a
  | leaf _, _ :: _ => 0
  | table a _, [] => a
  | table _ kids, i :: is => (kids i).get is

variable {keep : Nat}

/-- What stays was not freed. -/
theorem cut_not_freed : ∀ (t : Tree) (d base : Nat), t.blocks.Nodup → ∀ x ∈ (t.cut keep d base).blocks, x ∉ t.freed keep d base
  | hole, _, _, _, _, h, _ => by cases h
  | leaf a, _, base, _, x, h, hf => by
    rw [cut] at h
    rw [freed] at hf
    split at h
    · rename_i hb
      rw [if_pos hb] at hf
      cases hf
    · cases h
  | table a kids, d, base, hnd, x, h, hf => by
    obtain ⟨ha, hnd⟩ := nodup_cons.mp hnd
    obtain ⟨hkid, hpair⟩ := nodup_flatMap.mp hnd
    have hsym : Std.Symm (Function.onFun List.Disjoint fun j => (kids j).blocks) := ⟨fun _ _ h => h.symm⟩
    rw [cut] at h
    split at h
    · rename_i hst
      rw [freed, if_pos hst, append_nil] at hf
      obtain ⟨i, -, hi⟩ := mem_flatMap.mp hf
      have hxi := freed_sub keep (kids i) _ _ x hi
      rcases mem_cons.mp h with rfl | h
      · exact ha (mem_flatMap.mpr ⟨i, mem_finRange i, hxi⟩)
      obtain ⟨j, hj, hx⟩ := mem_flatMap.mp h
      by_cases hij : i = j
      · subst hij
        exact cut_not_freed (kids i) _ _ (hkid i hj) x hx hi
      · exact hpair.forall (mem_finRange i) hj hij hxi (cut_sub (kids j) _ _ x hx)
    · cases h

/-- A node that is left is the node it was. -/
theorem cut_get_or : ∀ (t : Tree) (d base : Nat) (is : List (Fin 256)),
    (t.cut keep d base).get is = t.get is ∨ (t.cut keep d base).get is = 0
  | hole, _, _, _ => .inr rfl
  | leaf a, _, base, is => by
    rw [cut]
    split
    · exact .inl rfl
    · exact .inr rfl
  | table a kids, d, base, is => by
    rw [cut]
    split
    · cases is with
      | nil => exact .inl rfl
      | cons i is => exact cut_get_or (kids i) _ _ is
    · exact .inr rfl

theorem get_mem : ∀ (t : Tree) (is : List (Fin 256)), t.get is ≠ 0 → t.get is ∈ t.blocks
  | hole, _, h => absurd rfl h
  | leaf _, [], _ => mem_cons_self
  | leaf _, _ :: _, h => absurd rfl h
  | table _ _, [], _ => mem_cons_self
  | table _ kids, i :: is, h =>
    mem_kid (get_mem (kids i) is h)

/-- The file block a path leads to, in a tree that starts at file block `base`. -/
def place : Nat → List (Fin 256) → Nat
  | base, [] => base
  | base, i :: is => place (at_ is.length base i) is

end Tree

theorem readTree_get (v : Vol) : ∀ (d a : Nat) (is : List (Fin 256)), is.length ≤ d → (readTree v d a).get is = v.descend a is
  | 0, a, is, h => by
    obtain rfl := length_eq_zero_iff.mp (Nat.le_zero.mp h)
    by_cases ha : a = 0 <;> simp [readTree, ha, Tree.get, Vol.descend]
  | d + 1, a, [], _ => by
    by_cases ha : a = 0 <;> simp [readTree, ha, Tree.get, Vol.descend]
  | d + 1, a, i :: is, h => by
    by_cases ha : a = 0
    · simp [readTree, ha, Tree.get, Vol.descend]
    · simp only [readTree, if_neg ha, Vol.descend]
      exact readTree_get v d (v.entry a i) is (by simpa using h)

/-- In a tree that goes there is no data block before the cut. -/
theorem not_stays_get (v : Vol) {keep : Nat} : ∀ (is : List (Fin 256)) (a base : Nat),
    (readTree v is.length a).stays keep is.length base = false → Tree.place base is < keep → (readTree v is.length a).get is = 0
  | [], a, base, h, hp => by
    by_cases ha : a = 0
    · simp [readTree, ha, Tree.get]
    · simp only [length_nil, readTree, if_neg ha, Tree.stays, decide_eq_false_iff_not] at h
      exact absurd hp h
  | i :: is, a, base, h, hp => by
    by_cases ha : a = 0
    · simp [readTree, ha, Tree.get]
    simp only [length_cons, readTree, if_neg ha, Tree.stays, any_eq_false] at h
    simp only [length_cons, readTree, if_neg ha]
    exact not_stays_get v is (v.entry a i) _ (by simpa using h i (mem_finRange i)) hp

/-- Of the data blocks exactly those before the cut are left. -/
theorem cut_get_leaf (v : Vol) {keep : Nat} : ∀ (is : List (Fin 256)) (a base : Nat),
    ((readTree v is.length a).cut keep is.length base).get is =
      if Tree.place base is < keep then (readTree v is.length a).get is else 0
  | [], a, base => by
    by_cases ha : a = 0
    · simp [readTree, ha, Tree.cut, Tree.get]
    · simp only [length_nil, readTree, if_neg ha, Tree.cut, Tree.place]
      split <;> rfl
  | i :: is, a, base => by
    by_cases ha : a = 0
    · simp [readTree, ha, Tree.cut, Tree.get]
    by_cases hst : (readTree v (is.length + 1) a).stays keep (is.length + 1) base
    · have htree : readTree v (is.length + 1) a = .table a fun j => readTree v is.length (v.entry a j) := by
        simp [readTree, ha]
      rw [htree] at hst
      rw [length_cons, htree, Tree.cut, if_pos hst]
      exact cut_get_leaf v is (v.entry a i) _
    rw [Bool.not_eq_true] at hst
    rw [length_cons, Tree.cut_of_not_stays hst]
    split
    · rename_i hp
      exact (not_stays_get v (i :: is) a base hst hp).symm
    · rfl

/-! ### The whole file -/

theorem foldl_place (acc : Nat) : ∀ is : List (Fin 256), is.foldl (fun a i => a * nindirect + i.val) acc =
    acc * nindirect ^ is.length + is.foldl (fun a i => a * nindirect + i.val) 0
  | [] => by simp
  | i :: is => by
    rw [foldl_cons, foldl_cons, foldl_place (acc * nindirect + i.val) is, foldl_place (0 * nindirect + i.val) is,
      length_cons, pow_succ, zero_mul, zero_add, add_mul, mul_assoc,
      mul_comm nindirect (nindirect ^ is.length), add_assoc]

theorem place_eq : ∀ (base : Nat) (is : List (Fin 256)), Tree.place base is = base + is.foldl (fun a i => a * nindirect + i.val) 0
  | base, [] => rfl
  | base, i :: is => by
    rw [Tree.place, place_eq, foldl_cons, foldl_place (0 * nindirect + i.val) is, Tree.at_, zero_mul, zero_add, add_assoc]

section
variable {v : Vol} {ip : Inode}

/-- The tables of a tree are the blocks of the tree read one level less deep. -/
theorem tables_readTree (v : Vol) : ∀ d a, (readTree v (d + 1) a).tables = (readTree v d a).blocks
  | 0, a => by
    have hkid : ∀ j, (readTree v 0 (v.entry a j)).tables = [] := fun j => by
      rw [readTree]
      split <;> rfl
    by_cases ha : a = 0
    · rw [ha, readTree_zero]; rfl
    · simp [readTree.eq_2, readTree.eq_1 v a, ha, Tree.tables, Tree.blocks, hkid]
  | d + 1, a => by
    by_cases ha : a = 0
    · rw [ha, readTree_zero]; rfl
    · rw [readTree.eq_2, readTree.eq_2, if_neg ha, if_neg ha, Tree.tables, Tree.blocks]
      simp only [tables_readTree v d]

/-- Tables stand above the data nodes. -/
theorem slot_tables {s : Fin 12} {x : Nat} (hx : x ∈ (slotTree v ip s).tables) :
    x ≠ 0 ∧ ∃ is, is.length < slotDepth s ∧ x = cell v ip (s, is) := by
  rw [slotTree] at hx
  rcases hd : slotDepth s with - | d
  · rw [hd, readTree] at hx
    split at hx <;> cases hx
  rw [hd, tables_readTree] at hx
  obtain ⟨hne, is, hlen, e⟩ := mem_blocks_cell d [] x hx
  exact ⟨hne, is, Nat.lt_succ_of_le hlen, e⟩

/-- A file cut behind its first `keep` blocks. -/
structure CutFile (v : Vol) (ip : Inode) (keep : Nat) (v' : Vol) (ip' : Inode) : Prop where
  sound : Sound v' ip'
  frame : Frame v ip v' ip'
  rest : SameRest ip ip'
  leaf : ∀ N, IsLeaf N → leaf v' ip' N = if blockOf N < keep then leaf v ip N else fun _ => 0

theorem truncSlots_cut (h : Sound v ip) (keep : Nat) : CutFile v ip keep ((finRange 12).foldl (truncSlot keep) (ip, v)).2
      ((finRange 12).foldl (truncSlot keep) (ip, v)).1 := by
  have hl := slots_run h keep
  obtain ⟨r, hr⟩ : ∃ r, r = (finRange 12).foldl (truncSlot keep) (ip, v) := ⟨_, rfl⟩
  rw [← hr] at hl ⊢
  -- cells before and after, read off the trees
  have hold : ∀ s is, Valid (s, is) → cell v ip (s, is) = (slotTree v ip s).get is := fun s is hv =>
    (readTree_get v _ _ is hv).symm
  have hnew : ∀ s is, Valid (s, is) → cell r.2 r.1 (s, is) =
      ((slotTree v ip s).cut keep (slotDepth s) (slotBase s)).get is := fun s is hv => by
    rw [← hl.tree s (mem_finRange s)]
    exact (readTree_get r.2 _ _ is hv).symm
  have hcell : ∀ N, Valid N → cell r.2 r.1 N = cell v ip N ∨ cell r.2 r.1 N = 0 := by
    rintro ⟨s, is⟩ hv
    rw [hold s is hv, hnew s is hv]
    exact Tree.cut_get_or _ _ _ is
  have hkeep : ∀ N, Valid N → cell r.2 r.1 N ≠ 0 → cell r.2 r.1 N = cell v ip N := fun N hN hne =>
    (hcell N hN).resolve_right hne
  have hfreed : ∀ x, (∃ s, x ∈ (slotTree v ip s).freed keep (slotDepth s) (slotBase s)) →
      ∃ M, Valid M ∧ cell v ip M = x ∧ x ≠ 0 := by
    rintro x ⟨s, hx⟩
    obtain ⟨is, hv, e, hne⟩ := slot_blocks (Tree.freed_sub _ _ _ _ x hx)
    exact ⟨(s, is), hv, e.symm, hne⟩
  have hbit : ∀ c < v.sb.size, (∀ s, c ∉ (slotTree v ip s).freed keep (slotDepth s) (slotBase s)) → r.2.bit c = v.bit c := by
    intro c hc' hn
    have hnot : c ∉ (finRange 12).flatMap fun s => (slotTree v ip s).freed keep (slotDepth s) (slotBase s) := by
      intro hm
      obtain ⟨s, -, hs⟩ := mem_flatMap.mp hm
      exact hn s hs
    rw [hl.swept.bit c hc', decide_eq_false hnot, Bool.not_false, Bool.and_true]
  have htables : ∀ x, (∀ M, Valid M → M.2.length < slotDepth M.1 → cell v ip M ≠ 0 → cell v ip M ≠ x) →
      x ∉ (finRange 12).flatMap fun s => (slotTree v ip s).tables := by
    intro x hx hm
    obtain ⟨s, -, hm⟩ := mem_flatMap.mp hm
    obtain ⟨hne, is, hlen, e⟩ := slot_tables hm
    exact hx (s, is) hlen.le hlen (e ▸ hne) e.symm
  refine ⟨⟨by rw [hl.swept.sb]; exact h.ok, by rw [hl.swept.sb, hl.inum]; exact h.inum, fun b hb => ?_, fun N hN hne => ?_,
    fun N M hN hM hne e => ?_⟩, ⟨hl.swept.sb, hl.inum, fun N hN hne => ?_, fun x hx hsz hb hn => ⟨?_, ?_⟩, fun x hx => ?_⟩,
    hl.rest, fun N hN => ?_⟩
  · rw [hl.swept.sb] at hb
    have := h.ok.bitmap
    rw [hbit b (by omega), h.marked b hb]
    intro s hs
    obtain ⟨M, hM, e, hne⟩ := hfreed b ⟨s, hs⟩
    have := (h.inside M hM (e ▸ hne)).1
    omega
  · have he := hkeep N hN hne
    rw [he] at hne ⊢
    obtain ⟨h₁, h₂, h₃⟩ := h.inside N hN hne
    refine ⟨by rw [hl.swept.sb]; exact h₁, by rw [hl.swept.sb]; exact h₂, ?_⟩
    rw [hbit _ h₂, h₃]
    obtain ⟨s, is⟩ := N
    -- what is left is in the cut tree, and nothing in there was freed
    have hmem : cell v ip (s, is) ∈ ((slotTree v ip s).cut keep (slotDepth s) (slotBase s)).blocks := by
      rw [← he, hnew s is hN]
      exact Tree.get_mem _ is (by rw [← hnew s is hN, he]; exact hne)
    intro s' hs'
    by_cases hss : s = s'
    · subst hss
      exact Tree.cut_not_freed _ _ _ (slot_held h s).nodup _ hmem hs'
    · exact slot_disjoint h hss (Tree.cut_sub _ _ _ _ hmem) (Tree.freed_sub _ _ _ _ _ hs')
  · have he := hkeep N hN hne
    rw [he] at hne e
    have hM0 : cell r.2 r.1 M ≠ 0 := fun h0 => hne (e.trans h0)
    rw [hkeep M hM hM0] at e
    exact h.inj N M hN hM hne e
  · exact .inl ⟨N, hN, (hkeep N hN hne).symm⟩
  · exact hl.swept.mem x (.inr hx) (Set.notMem_empty x) (htables x fun M hM _ _ => hn M hM)
  · rw [hbit x hsz, hb]
    intro s hs
    obtain ⟨M, hM, e, -⟩ := hfreed x ⟨s, hs⟩
    exact hn M hM e
  · refine hl.swept.mem x (.inl hx) (Set.notMem_empty x) (htables x fun M hM _ hz e => ?_)
    have := (h.inside M hM hz).1
    have := v.sb.bmapstart_le
    omega
  · obtain ⟨s, is⟩ := N
    have hv : Valid (s, is) := hN.valid
    have hlen : is.length = slotDepth s := hN
    have hcut : cell r.2 r.1 (s, is) = if blockOf (s, is) < keep then cell v ip (s, is) else 0 := by
      rw [hnew s is hv, hold s is hv, slotTree, ← hlen, cut_get_leaf, place_eq]
      rfl
    rw [leaf, hcut]
    by_cases hb : blockOf (s, is) < keep
    · rw [if_pos hb, if_pos hb, leaf]
      by_cases hz : cell v ip (s, is) = 0
      · rw [if_pos hz, if_pos hz]
      rw [if_neg hz, if_neg hz]
      refine hl.swept.mem _ (.inr (h.inside _ hv hz).1) (Set.notMem_empty _) (htables _ fun M hM hlt _ e => ?_)
      rw [← h.inj _ M hv hM hz e.symm] at hlt
      exact absurd hlen hlt.ne
    · rw [if_neg hb, if_pos rfl, if_neg hb]

theorem CutFile.data {keep : Nat} {v' : Vol} {ip' : Inode} (h : CutFile v ip keep v' ip') (p : Nat) :
    data v' ip' p = if p / bsize < keep then data v ip p else 0 := by
  unfold Blocks.data
  split
  · rw [ite_self]
  rename_i N hN
  have hlt : p / bsize < maxFile := by
    by_contra hge
    rw [path_none (Nat.le_of_not_lt hge)] at hN
    cases hN
  have hfile : fileNode (p / bsize) = N := by rw [fileNode, hN]; rfl
  have hblock : blockOf N = p / bsize := by rw [← hfile, blockOf_fileNode hlt]
  rw [h.leaf N (path_valid hN), hblock]
  split
  · rfl
  · exact byte_zero _

end

/-- `xv6fs_itrunc_to` keeps whole blocks: everything in front of the cut stays, also the bytes of the last
    block behind the new size. -/
theorem itruncTo_spec {v : Vol} {i : Nat} (h : WellFormed v) (hi : Live v i) {length now : Nat} (hl : length < 2 ^ 32)
    (hnow : now < 2 ^ 32) :
    let r := xv6fsItruncTo v (inodeAt v i) length now
    Changed v i r.2 r.1 ∧ r.1.size = length ∧
      ∀ p, data r.2 r.1 p = if p / bsize < blocksOf length then data v (inodeAt v i) p else 0 := by
  have hcut := truncSlots_cut (h.sound i hi) (blocksOf length)
  simp only [xv6fsItruncTo]
  obtain ⟨r, hr⟩ : ∃ r, r = (finRange 12).foldl (truncSlot (blocksOf length)) (inodeAt v i, v) := ⟨_, rfl⟩
  rw [← hr] at hcut ⊢
  obtain ⟨hch, hdata⟩ := h.changed hi hcut.frame hcut.sound { r.1 with size := length, mtime := now } rfl rfl
    hcut.rest.fields.1 hl hnow
  refine ⟨hch, trivial, fun p => ?_⟩
  rw [hdata, hcut.data]

end Orthox.Blocks
