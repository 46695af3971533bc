import Orthox.Blocks.Write

/-! How many blocks `xv6fs_itrunc_to` logs, counted on the file as it was before the call.

    A subtree of the index is read off the volume as a `Tree`. Cut at file block `keep`, a tree stays if some data block below
    `keep` hangs in it, otherwise all of it goes; the blocks that go are `freed`, the tables that stay and lose an entry are
    `trimmed`. Logged are the bitmap blocks of the former, the latter themselves, and the inode block. -/

namespace Orthox.Blocks
open List Function Vol

/-- A subtree of the index. -/
inductive Tree
  | hole
  | leaf (a : Nat)
  | table (a : Nat) (kids : Fin 256 → Tree)

namespace Tree

/-- The first file block below entry `j` of a table with `d` levels under it. -/
def at_ (d base : Nat) (j : Fin 256) : Nat := base + j.val * nindirect ^ d

/-- Some data block before `keep` hangs in the tree, which starts at file block `base`. -/
def stays (keep : Nat) : Tree → Nat → Nat → Bool
  | hole, _, _ => false
  | leaf _, _, base => decide (base < keep)
  | table _ kids, d, base => (finRange 256).any fun j => (kids j).stays keep (d - 1) (at_ (d - 1) base j)

def isHole : Tree → Bool
  | hole => true
  | _ => false

/-- All blocks of the tree. -/
def blocks : Tree → List Nat
  | hole => []
  | leaf a => [a]
  | table a kids => a :: (finRange 256).flatMap fun j => (kids j).blocks

/-- The blocks that go when the file is cut at `keep`. -/
def freed (keep : Nat) : Tree → Nat → Nat → List Nat
  | hole, _, _ => []
  | leaf a, _, base => if base < keep then [] else [a]
  | table a kids, d, base =>
    ((finRange 256).flatMap fun j => (kids j).freed keep (d - 1) (at_ (d - 1) base j)) ++
      if (table a kids).stays keep d base then [] else [a]

/-- The tables that stay and lose an entry. -/
def trimmed (keep : Nat) : Tree → Nat → Nat → List Nat
  | hole, _, _ => []
  | leaf _, _, _ => []
  | table a kids, d, base =>
    ((finRange 256).flatMap fun j => (kids j).trimmed keep (d - 1) (at_ (d - 1) base j)) ++
      if (table a kids).stays keep d base && (finRange 256).any fun j =>
          !(kids j).isHole && !(kids j).stays keep (d - 1) (at_ (d - 1) base j) then [a] else []

/-- What is left of the tree when the file is cut at `keep`. -/
def cut (keep : Nat) : Tree → Nat → Nat → Tree
  | hole, _, _ => hole
  | leaf a, _, base => if base < keep then leaf a else hole
  | table a kids, d, base =>
    if (table a kids).stays keep d base then table a fun j => (kids j).cut keep (d - 1) (at_ (d - 1) base j) else hole

/-- The blocks that hold tables. -/
def tables : Tree → List Nat
  | table a kids => a :: (finRange 256).flatMap fun j => (kids j).tables
  | _ => []

variable {a d : Nat}

theorem mem_kid {x : Nat} {kids : Fin 256 → Tree} {j : Fin 256} (h : x ∈ (kids j).blocks) : x ∈ (table a kids).blocks :=
  mem_cons_of_mem _ (mem_flatMap.mpr ⟨j, mem_finRange j, h⟩)

/-- A list that takes from a table at most its block and what it takes from the entries has only blocks of the tree. -/
theorem sub_blocks {F : Tree → Nat → Nat → List Nat} (hhole : ∀ d base, F hole d base = [])
    (hleaf : ∀ a d base, ∀ x ∈ F (leaf a) d base, x = a)
    (htable : ∀ a kids d base, ∀ x ∈ F (table a kids) d base, x = a ∨ ∃ j, x ∈ F (kids j) (d - 1) (at_ (d - 1) base j)) :
    ∀ (t : Tree) (d base : Nat), ∀ x ∈ F t d base, x ∈ t.blocks
  | hole, d, base, x, h => by simp [hhole] at h
  | leaf a, d, base, x, h => mem_singleton.mpr (hleaf a d base x h)
  | table a kids, d, base, x, h => by
    rcases htable a kids d base x h with rfl | ⟨j, hx⟩
    · exact mem_cons_self
    · exact mem_kid (sub_blocks hhole hleaf htable (kids j) _ _ x hx)

theorem freed_sub (keep : Nat) : ∀ (t : Tree) (d base : Nat), ∀ x ∈ t.freed keep d base, x ∈ t.blocks :=
  sub_blocks (by simp [freed]) (by simp [freed]) (by simp +contextual [freed, or_imp])

theorem trimmed_sub (keep : Nat) : ∀ (t : Tree) (d base : Nat), ∀ x ∈ t.trimmed keep d base, x ∈ t.blocks :=
  sub_blocks (by simp [trimmed]) (by simp [trimmed]) (by simp +contextual [trimmed, or_imp])

variable {keep : Nat}

theorem cut_of_not_stays {t : Tree} {base : Nat} (h : t.stays keep d base = false) : t.cut keep d base = hole := by
  cases t with
  | hole => rfl
  | leaf a => simp only [stays, decide_eq_false_iff_not] at h; rw [cut, if_neg h]
  | table a kids => rw [cut, h]; rfl

theorem cut_sub : ∀ (t : Tree) (d base : Nat), ∀ x ∈ (t.cut keep d base).blocks, x ∈ t.blocks :=
  sub_blocks (by simp [cut, blocks]) (by intro a d base x; rw [cut]; split <;> simp [blocks])
    (by intro a kids d base x; rw [cut]; split <;> simp [blocks])

theorem tables_sub (t : Tree) : ∀ x ∈ t.tables, x ∈ t.blocks :=
  sub_blocks (F := fun t _ _ => t.tables) (by simp [tables]) (by simp [tables]) (by simp [tables]) t 0 0

end Tree

/-- The tree with `d` table levels under block `a`. -/
def readTree (v : Vol) : Nat → Nat → Tree
  | 0, a => if a = 0 then .hole else .leaf a
  | d + 1, a => if a = 0 then .hole else .table a fun j => readTree v d (v.entry a j)

theorem readTree_zero (v : Vol) (d : Nat) : readTree v d 0 = .hole := by
  cases d <;> simp [readTree]

theorem readTree_isHole (v : Vol) (d a : Nat) : (readTree v d a).isHole = decide (a = 0) := by
  by_cases ha : a = 0
  · simp [ha, readTree_zero, Tree.isHole]
  · cases d <;> simp [readTree, ha, Tree.isHole]

theorem mem_readTree_self (v : Vol) (d : Nat) (ha : a ≠ 0) : a ∈ (readTree v d a).blocks := by
  cases d <;> simp [readTree, ha, Tree.blocks]

/-- A tree depends on the contents of its own blocks only. -/
theorem readTree_congr {v v' : Vol} : ∀ (d a : Nat), (∀ x ∈ (readTree v d a).blocks, v'.mem x = v.mem x) →
    readTree v' d a = readTree v d a
  | 0, a, _ => by simp [readTree]
  | d + 1, a, h => by
    by_cases ha : a = 0
    · simp [readTree, ha]
    have hself := h a (mem_readTree_self v (d + 1) ha)
    simp only [readTree, if_neg ha] at h ⊢
    congr 1
    funext j
    have hent : v'.entry a j = v.entry a j := by simp [entry, hself]
    rw [hent]
    exact readTree_congr d (v.entry a j) fun x hx => h x (Tree.mem_kid hx)

/-! ### Effects -/

/-- A block number outside the bitmap. -/
def Super.OffBitmap (sb : Super) (x : Nat) : Prop := x < sb.bmapstart ∨ sb.dataStart ≤ x

/-- From `v` to `u` the blocks `fs` were freed, the tables `ts` were logged, and outside the bitmap only
    the blocks in `bs` or `E` changed. -/
structure Swept (E : Set Nat) (bs fs ts : List Nat) (v u : Vol) : Prop where
  sb : u.sb = v.sb
  panic : u.panic = v.panic
  mem : ∀ x, v.sb.OffBitmap x → x ∉ E → x ∉ bs → u.mem x = v.mem x
  bit : ∀ c, c < v.sb.size → u.bit c = (v.bit c && !decide (c ∈ fs))
  logged : ∃ ls, u.logged = v.logged ++ ls ∧ ∀ x, x ∈ ls ↔ (∃ f ∈ fs, x = v.sb.bblock f) ∨ x ∈ ts

namespace Swept
variable {E : Set Nat} {bs bs' fs fs' ts ts' : List Nat} {v u w : Vol}

theorem refl (E : Set Nat) (v : Vol) : Swept E [] [] [] v v :=
  ⟨rfl, rfl, fun _ _ _ _ => rfl, by simp, [], by simp, by simp⟩

theorem trans (h : Swept E bs fs ts v u) (k : Swept E bs' fs' ts' u w) : Swept E (bs ++ bs') (fs ++ fs') (ts ++ ts') v w := by
  refine ⟨k.sb.trans h.sb, k.panic.trans h.panic, fun x hx hE hb => ?_, fun c hc => ?_, ?_⟩
  · rw [mem_append, not_or] at hb
    rw [k.mem x (by rw [h.sb]; exact hx) hE hb.2, h.mem x hx hE hb.1]
  · rw [k.bit c (by rw [h.sb]; exact hc), h.bit c hc]
    simp only [mem_append, Bool.decide_or, Bool.not_or, Bool.and_assoc]
  · obtain ⟨ls, hl, hm⟩ := h.logged
    obtain ⟨ls', hl', hm'⟩ := k.logged
    refine ⟨ls ++ ls', by rw [hl', hl, append_assoc], fun x => ?_⟩
    simp only [mem_append, hm, hm', h.sb]
    constructor
    · rintro ((⟨f, hf, e⟩ | hx) | (⟨f, hf, e⟩ | hx))
      · exact .inl ⟨f, .inl hf, e⟩
      · exact .inr (.inl hx)
      · exact .inl ⟨f, .inr hf, e⟩
      · exact .inr (.inr hx)
    · rintro (⟨f, hf | hf, e⟩ | hx | hx)
      · exact .inl (.inl ⟨f, hf, e⟩)
      · exact .inr (.inl ⟨f, hf, e⟩)
      · exact .inl (.inr hx)
      · exact .inr (.inr hx)

theorem mono {E' : Set Nat} (h : Swept E bs fs ts v u) (hE : ∀ x, x ∈ E → x ∈ E' ∨ x ∈ bs')
    (hb : ∀ x ∈ bs, x ∈ bs') : Swept E' bs' fs ts v u :=
  ⟨h.sb, h.panic, fun x hx hx' hxb => h.mem x hx (fun he => (hE x he).elim hx' hxb) fun he => hxb (hb x he), h.bit, h.logged⟩

end Swept

theorem swept_bfree {v : Vol} (hsz : a < v.sb.size) (hb : v.bit a) (E : Set Nat) : Swept E [] [a] [] v (v.bfree a) := by
  obtain ⟨hge, hlt⟩ := bblock_lt hsz
  have hhint : ∀ w : Vol, w = (if a < v.hint then { v with hint := a } else v) →
      w.sb = v.sb ∧ w.panic = v.panic ∧ w.mem = v.mem ∧ w.logged = v.logged := by
    rintro w rfl
    split <;> simp
  obtain ⟨e₁, e₂, e₃, e₄⟩ := hhint _ rfl
  set w := (if a < v.hint then { v with hint := a } else v) with hw
  have hbit : ∀ c, w.bit c = v.bit c := fun c => by simp [bit, e₁, e₃]
  have hfun : v.bfree a = ((w.kassert (w.bit a)).setBit a false).xv6logWrite (w.sb.bblock a) := rfl
  rw [hfun]
  refine ⟨e₁, ?_, fun x hx _ _ => ?_, fun c _ => ?_, [v.sb.bblock a], ?_, by simp⟩
  · simp [xv6logWrite, setBit, put, kassert, hbit, hb, e₂]
  · have hne : x ≠ w.sb.bblock a := by
      rw [e₁]
      rcases hx with hx | hx <;> omega
    simp [xv6logWrite, setBit, put, kassert, update_of_ne hne, e₃]
  · rw [bit_xv6logWrite, bit_setBit, bit_kassert, hbit]
    by_cases hc : c = a <;> simp [hc]
  · simp [xv6logWrite, setBit, put, kassert, e₁, e₄]

theorem swept_log (v : Vol) (a : Nat) (E : Set Nat) : Swept E [] [] [a] v (v.xv6logWrite a) :=
  ⟨rfl, rfl, fun _ _ _ _ => rfl, by simp, [a], rfl, by simp⟩

theorem swept_setEntry {v : Vol} (ha : v.sb.dataStart ≤ a) (j : Fin 256) (x : Nat) : Swept {a} [] [] [] v (v.setEntry a j x) := by
  refine ⟨rfl, rfl, fun y _ hy _ => ?_, fun c hc => ?_, [], by simp [setEntry, put], by simp⟩
  · simp [setEntry, put, update_of_ne (hy)]
  · simp [bit_setEntry ha j x hc]

/-- Different marked data blocks. -/
structure Held (v : Vol) (bs : List Nat) : Prop where
  nodup : bs.Nodup
  inside : ∀ x ∈ bs, v.sb.dataStart ≤ x ∧ x < v.sb.size ∧ v.bit x = true

/-- A part of the file apart from the subtrees `kid` reads the same after a sweep of them and is still held. -/
theorem Swept.part {ι : Type} {P : List ι} {kid : ι → Tree} {depth base : ι → Nat} {E : Set Nat} {ts : List Nat} {v u : Vol}
    {keep : Nat} (h : Swept E (P.flatMap fun i => (kid i).tables) (P.flatMap fun i => (kid i).freed keep (depth i) (base i)) ts v u)
    (hheld : Held v (readTree v d a).blocks) (hE : ∀ x ∈ (readTree v d a).blocks, x ∉ E)
    (hapart : ∀ i ∈ P, ∀ x ∈ (readTree v d a).blocks, x ∉ (kid i).blocks) :
    readTree u d a = readTree v d a ∧ Held u (readTree u d a).blocks := by
  have hb : ∀ x ∈ (readTree v d a).blocks, x ∉ P.flatMap fun i => (kid i).tables := fun x hx hx' =>
    have ⟨i, hi, hxi⟩ := mem_flatMap.mp hx'
    hapart i hi x hx (Tree.tables_sub _ x hxi)
  have hf : ∀ x ∈ (readTree v d a).blocks, x ∉ P.flatMap fun i => (kid i).freed keep (depth i) (base i) := fun x hx hx' =>
    have ⟨i, hi, hxi⟩ := mem_flatMap.mp hx'
    hapart i hi x hx (Tree.freed_sub _ _ _ _ x hxi)
  have htree : readTree u d a = readTree v d a :=
    readTree_congr d a fun x hx => h.mem x (.inr (hheld.inside x hx).1) (hE x hx) (hb x hx)
  refine ⟨htree, htree ▸ hheld.nodup, fun x hx => ?_⟩
  rw [htree] at hx
  obtain ⟨h₁, h₂, h₃⟩ := hheld.inside x hx
  rw [h.sb, h.bit x h₂, h₃, decide_eq_false (hf x hx)]
  exact ⟨h₁, h₂, rfl⟩

/-- What a cut does to one subtree. -/
def Cuts (keep d : Nat) : Prop := ∀ (base a : Nat) (v : Vol), a ≠ 0 → Held v (readTree v d a).blocks →
  let t := readTree v d a
  (truncTable keep d base a v).1 = !t.stays keep d base ∧
    Swept ∅ t.tables (t.freed keep d base) (t.trimmed keep d base) v (truncTable keep d base a v).2 ∧
    (t.stays keep d base = true → readTree (truncTable keep d base a v).2 d a = t.cut keep d base)

/-- A loop over different elements, with an invariant about those it has been through. -/
theorem foldl_through {α β : Type} {f : β → α → β} {Q : List α → β → Prop}
    (step : ∀ P b x, x ∉ P → Q P b → Q (P ++ [x]) (f b x)) {l : List α} {b : β} (hl : l.Nodup) (h : Q [] b) :
    Q l (l.foldl f b) := by
  induction l using reverseRecOn with
  | nil => exact h
  | append_singleton l x ih =>
    obtain ⟨hl, -, hx⟩ := nodup_append.mp hl
    rw [foldl_append]
    exact step l _ x (fun hm => hx x hm x mem_cons_self rfl) (ih hl)

/-- One entry of the loop over a table. -/
def truncEntry (keep d base addr : Nat) (r : Bool × Vol) (j : Fin 256) : Bool × Vol :=
  let a := r.2.entry addr j
  if a = 0 then r
  else
    let t := truncTable keep d (base + j.val * nindirect ^ d) a r.2
    if t.1 then (true, t.2.setEntry addr j 0) else (r.1, t.2)

section
variable {keep d base a : Nat} {v : Vol}

/-- The loop over the table `a` of `v` after the entries `P`. -/
structure Loop (keep d base a : Nat) (v : Vol) (P : List (Fin 256)) (r : Bool × Vol) : Prop where
  swept : Swept {a} (P.flatMap fun j => (readTree v d (v.entry a j)).tables)
    (P.flatMap fun j => (readTree v d (v.entry a j)).freed keep d (Tree.at_ d base j))
    (P.flatMap fun j => (readTree v d (v.entry a j)).trimmed keep d (Tree.at_ d base j)) v r.2
  entry : ∀ j, r.2.entry a j =
    if j ∈ P ∧ (readTree v d (v.entry a j)).stays keep d (Tree.at_ d base j) = false then 0 else v.entry a j
  dirty : r.1 = P.any fun j => !(readTree v d (v.entry a j)).isHole &&
    !(readTree v d (v.entry a j)).stays keep d (Tree.at_ d base j)
  tree : ∀ j ∈ P, (readTree v d (v.entry a j)).stays keep d (Tree.at_ d base j) = true →
    readTree r.2 d (v.entry a j) = (readTree v d (v.entry a j)).cut keep d (Tree.at_ d base j)

theorem stays_isHole {t : Tree} {n : Nat} (h : t.stays keep d n) : t.isHole = false := by
  cases t <;> simp [Tree.stays, Tree.isHole] at h ⊢

/-- A held table and its subtrees are held apart. -/
theorem Held.kids (hheld : Held v (readTree v (d + 1) a).blocks) (ha : a ≠ 0) :
    (v.sb.dataStart ≤ a ∧ a < v.sb.size ∧ v.bit a) ∧ (∀ i, Held v (readTree v d (v.entry a i)).blocks) ∧
      (∀ i, a ∉ (readTree v d (v.entry a i)).blocks) ∧
      ∀ i j, i ≠ j → ∀ x ∈ (readTree v d (v.entry a i)).blocks, x ∉ (readTree v d (v.entry a j)).blocks := by
  set kid := fun j => readTree v d (v.entry a j) with hkid
  have hblocks : (readTree v (d + 1) a).blocks = a :: (finRange 256).flatMap fun j => (kid j).blocks := by
    simp [readTree, ha, Tree.blocks, hkid]
  rw [hblocks] at hheld
  obtain ⟨hnd, hin⟩ := hheld
  obtain ⟨hanot, hnd⟩ := nodup_cons.mp hnd
  have hkidin : ∀ i, ∀ x ∈ (kid i).blocks, x ∈ (finRange 256).flatMap fun j => (kid j).blocks := fun i x hx =>
    mem_flatMap.mpr ⟨i, mem_finRange i, hx⟩
  refine ⟨hin a mem_cons_self, fun i => ⟨(nodup_flatMap.mp hnd).1 i (mem_finRange i), fun x hx => ?_⟩,
    fun i hx => hanot (hkidin i a hx), fun i j hne x hx hx' => ?_⟩
  · exact hin x (mem_cons_of_mem _ (hkidin i x hx))
  · have hsym : Std.Symm (onFun List.Disjoint fun j => (kid j).blocks) := ⟨fun _ _ h => h.symm⟩
    exact (nodup_flatMap.mp hnd).2.forall (mem_finRange i) (mem_finRange j) hne hx hx'

variable {P : List (Fin 256)} {r : Bool × Vol} {j : Fin 256}

/-- The loop has not reached the subtree of entry `j` yet. -/
theorem Loop.part (hheld : Held v (readTree v (d + 1) a).blocks) (ha : a ≠ 0) (hj : j ∉ P) (h : Loop keep d base a v P r) :
    readTree r.2 d (v.entry a j) = readTree v d (v.entry a j) ∧ Held r.2 (readTree r.2 d (v.entry a j)).blocks := by
  obtain ⟨-, hkids, hanot, hdis⟩ := hheld.kids ha
  exact h.swept.part (hkids j) (fun x hx e => hanot j (e ▸ hx)) fun i hi => hdis j i (ne_of_mem_of_not_mem hi hj).symm

/-- One more entry. -/
theorem Loop.step (hcut : Cuts keep d) (hheld : Held v (readTree v (d + 1) a).blocks) (ha : a ≠ 0)
    (hj : j ∉ P) (h : Loop keep d base a v P r) : Loop keep d base a v (P ++ [j]) (truncEntry keep d base a r j) := by
  set kid := fun j => readTree v d (v.entry a j) with hkid
  obtain ⟨hain, hkids, hanot, hdis⟩ := hheld.kids ha
  have hent : r.2.entry a j = v.entry a j := by rw [h.entry j, if_neg fun hh => hj hh.1]
  have hentry : ∀ {u : Vol}, (∀ i ≠ j, u.entry a i = r.2.entry a i) →
      u.entry a j = (if (kid j).stays keep d (Tree.at_ d base j) = false then 0 else v.entry a j) → ∀ i, u.entry a i =
        if i ∈ P ++ [j] ∧ (kid i).stays keep d (Tree.at_ d base i) = false then 0 else v.entry a i := by
    intro u hother hself i
    rcases eq_or_ne i j with rfl | hij
    · simpa using hself
    · rw [hother i hij, h.entry i]
      simp [hij, hkid]
  unfold truncEntry
  simp only [hent]
  by_cases hz : v.entry a j = 0
  · have hhole : kid j = .hole := by simp [hkid, hz, readTree_zero]
    rw [if_pos hz]
    refine ⟨?_, hentry (fun _ _ => rfl) (by rw [hent, hz, ite_self]), ?_, fun i hi hst => ?_⟩
    · have := h.swept
      simpa [hz, readTree_zero, Tree.tables, Tree.freed, Tree.trimmed] using this
    · rw [h.dirty]
      simp [hz, readTree_zero, Tree.isHole]
    · rcases mem_append.mp hi with hi | hi
      · exact h.tree i hi hst
      · rw [mem_singleton.mp hi, hz, readTree_zero] at hst
        cases hst
  · rw [if_neg hz]
    obtain ⟨htree, hheld'⟩ := h.part hheld ha hj
    obtain ⟨hgone, hsw, hleft⟩ := hcut (Tree.at_ d base j) (v.entry a j) r.2 hz hheld'
    rw [htree] at hgone hsw hleft
    have hbase : base + j.val * nindirect ^ d = Tree.at_ d base j := rfl
    rw [hbase]
    set t := truncTable keep d (Tree.at_ d base j) (v.entry a j) r.2 with ht
    have hnone : ∀ x, x ∈ (∅ : Set Nat) → x ∈ ({a} : Set Nat) ∨ x ∈ (kid j).tables := by simp
    have hsw' := h.swept.trans (hsw.mono hnone fun x hx => hx)
    have hkeep : ∀ x, v.sb.dataStart ≤ x → x ∉ (kid j).blocks → t.2.mem x = r.2.mem x := fun x hx hxj =>
      hsw.mem x (.inr (by rw [h.swept.sb]; exact hx)) (by simp) fun hxt => hxj (Tree.tables_sub _ x hxt)
    have hmema : t.2.mem a = r.2.mem a := hkeep a hain.1 (hanot j)
    -- the subtrees cut before are apart from this one, and dropping the entry writes the table `a` only
    have hcuts : ∀ w : Vol, (∀ x, x ≠ a → w.mem x = t.2.mem x) → ∀ i ∈ P ++ [j],
        (kid i).stays keep d (Tree.at_ d base i) → readTree w d (v.entry a i) = (kid i).cut keep d (Tree.at_ d base i) := by
      intro w hw i hi hst
      have hin : ∀ x ∈ ((kid i).cut keep d (Tree.at_ d base i)).blocks, x ∈ (kid i).blocks := Tree.cut_sub _ _ _
      have hself : readTree t.2 d (v.entry a i) = (kid i).cut keep d (Tree.at_ d base i) := by
        rcases mem_append.mp hi with hi | hi
        · have hdone := h.tree i hi hst
          refine (readTree_congr d _ fun x hx => ?_).trans hdone
          have hxi := hin x (hdone ▸ hx)
          exact hkeep x ((hkids i).inside x hxi).1 (hdis i j (fun e => hj (e ▸ hi)) x hxi)
        · obtain rfl := mem_singleton.mp hi
          exact hleft hst
      exact (readTree_congr d _ fun x hx => hw x (ne_of_mem_of_not_mem (hin x (hself ▸ hx)) (hanot i))).trans hself
    have henta : ∀ i, t.2.entry a i = r.2.entry a i := fun i => by simp [Vol.entry, hmema]
    by_cases hst : (kid j).stays keep d (Tree.at_ d base j)
    · have hg : t.1 = false := by rw [hgone]; simp [hkid] at hst; simp [hst]
      rw [if_neg (by simp [hg])]
      refine ⟨by simpa [flatMap_append] using hsw', hentry (fun i _ => henta i) ?_, ?_, hcuts t.2 fun _ _ => rfl⟩
      · rw [henta, hent, hst, if_neg (by decide)]
      · simp [hkid] at hst
        simp [h.dirty, hst]
    have hg : t.1 := by rw [hgone]; simp [hkid] at hst; simp [hst]
    rw [if_pos hg]
    have hset := swept_setEntry (a := a) (by rw [hsw'.sb]; exact hain.1) j 0
    refine ⟨?_, hentry (fun i hij => ?_) ?_, ?_, hcuts _ fun x hx => ?_⟩
    · simpa [flatMap_append] using hsw'.trans hset
    · rw [entry_setEntry_of_ne t.2 0 (.inr hij), henta i]
    · rw [entry_setEntry_self t.2 a j (by decide), if_pos (by simpa using hst)]
    · have hh : (kid j).isHole = false := by simp [hkid, readTree_isHole, hz]
      simp [hkid] at hst hh
      simp [hst, hh]
    · simp [setEntry, put, update_of_ne hx]

end

/-- Every subtree is cut as the trees say. -/
theorem cuts (keep : Nat) : ∀ d, Cuts keep d
  | 0 => by
    intro base a v ha hheld
    have htree : readTree v 0 a = .leaf a := by simp [readTree, ha]
    rw [htree] at hheld ⊢
    obtain ⟨-, h₂, h₃⟩ := hheld.inside a (by simp [Tree.blocks])
    simp only [truncTable, Tree.stays, Tree.freed, Tree.cut, decide_eq_true_eq]
    by_cases hk : keep ≤ base
    · rw [if_pos hk, if_neg (by omega)]
      exact ⟨by simp [hk], swept_bfree h₂ h₃ ∅, fun hlt => absurd hk (not_le.mpr hlt)⟩
    · rw [if_neg hk, if_pos (by omega)]
      exact ⟨by simp at hk; simp [hk], .refl ∅ v, fun hlt => by rw [if_pos hlt, htree]⟩
  | d + 1 => by
    intro base a v ha hheld
    have hcut := cuts keep d
    have hinit : Loop keep d base a v [] (false, v) := ⟨.refl {a} v, by simp, by simp, by simp⟩
    have hloop := foldl_through (fun _ _ _ hj h => h.step hcut hheld ha hj) (nodup_finRange 256) hinit
    set r := (finRange 256).foldl (truncEntry keep d base a) (false, v) with hr
    set kid := fun j => readTree v d (v.entry a j) with hkid
    have htree : readTree v (d + 1) a = .table a kid := by simp [readTree, ha, hkid]
    have hfun : truncTable keep (d + 1) base a v = if r.2.tableEmpty a then (true, r.2.bfree a)
        else (false, if r.1 then r.2.xv6logWrite a else r.2) := rfl
    clear_value r
    -- an entry survives exactly when its subtree stays
    have hempty : r.2.tableEmpty a = !(Tree.table a kid).stays keep (d + 1) base := by
      have hent : ∀ j, (r.2.entry a j == 0) = !(kid j).stays keep d (Tree.at_ d base j) := by
        intro j
        rw [hloop.entry j]
        by_cases hst : (kid j).stays keep d (Tree.at_ d base j)
        · have hh := stays_isHole hst
          simp only [hkid, readTree_isHole, decide_eq_false_iff_not] at hh
          simp only [hkid] at hst
          simp [hst, hkid, hh]
        · simp only [hkid] at hst
          simp [hst, hkid]
      simp only [tableEmpty, hent, Tree.stays]
      rw [all_eq_not_any_not]
      simp
    obtain ⟨hain, -, hanot, -⟩ := hheld.kids ha
    rw [htree]
    have hmono : ∀ {fs ts : List Nat} {u : Vol}, Swept {a} ((finRange 256).flatMap (fun j => (kid j).tables) ++ [])
        fs ts v u → Swept ∅ (Tree.table a kid).tables fs ts v u := fun h =>
      h.mono (fun x hx => .inr (by rw [Set.mem_singleton_iff.mp hx]; exact mem_cons_self))
        fun x hx => mem_cons_of_mem _ (by simpa using hx)
    have hsw : Swept {a} ((finRange 256).flatMap fun j => (kid j).tables)
        ((finRange 256).flatMap fun j => (kid j).freed keep d (Tree.at_ d base j))
        ((finRange 256).flatMap fun j => (kid j).trimmed keep d (Tree.at_ d base j)) v r.2 := hloop.swept
    have hdirty : r.1 = (finRange 256).any fun j => !(kid j).isHole && !(kid j).stays keep d (Tree.at_ d base j) := hloop.dirty
    -- what is left of the table: the entries that stay, with their subtrees cut
    have hleft : (Tree.table a kid).stays keep (d + 1) base → ∀ w : Vol, w.mem = r.2.mem →
        readTree w (d + 1) a = (Tree.table a kid).cut keep (d + 1) base := by
      intro hst w hw
      rw [readTree_congr _ _ fun x _ => congrFun hw x, Tree.cut, if_pos hst, readTree, if_neg ha, Nat.add_sub_cancel]
      refine congrArg (Tree.table a) (funext fun j => ?_)
      rw [hloop.entry j]
      rcases hj : (kid j).stays keep d (Tree.at_ d base j) with _ | _
      · rw [if_pos ⟨mem_finRange j, rfl⟩, readTree_zero, Tree.cut_of_not_stays hj]
      · rw [if_neg fun hno => Bool.false_ne_true hno.2.symm]
        exact hloop.tree j (mem_finRange j) hj
    rw [hfun, hempty]
    simp only [Tree.freed, Tree.trimmed, Nat.add_sub_cancel, ← hdirty]
    cases hst : (Tree.table a kid).stays keep (d + 1) base with
    | false =>
      have hbit : r.2.bit a := by
        have hnot : a ∉ (finRange 256).flatMap fun j => (kid j).freed keep d (Tree.at_ d base j) := fun hx =>
          have ⟨j, _, hxj⟩ := mem_flatMap.mp hx
          hanot j (Tree.freed_sub _ _ _ _ a hxj)
        rw [hsw.bit a hain.2.1, hain.2.2, decide_eq_false hnot]
        rfl
      have hfree := hmono (hsw.trans (swept_bfree (by rw [hsw.sb]; exact hain.2.1) hbit {a}))
      exact ⟨rfl, by simpa only [Bool.false_and, Bool.not_false, if_true, Bool.false_eq_true, if_false] using hfree, nofun⟩
    | true =>
      refine ⟨rfl, ?_, fun _ => hleft hst _ (by cases r.1 <;> rfl)⟩
      cases r.1 with
      | true =>
        have hlog := hmono (hsw.trans (swept_log r.2 a {a}))
        simpa only [Bool.true_and, Bool.not_true, if_true, Bool.false_eq_true, if_false] using hlog
      | false =>
        have hlog := hmono (hsw.trans (.refl {a} r.2))
        simpa only [Bool.true_and, Bool.not_true, if_true, Bool.false_eq_true, if_false] using hlog

/-! ### The whole file -/

/-- The tree under a slot of `addrs`. -/
def slotTree (v : Vol) (ip : Inode) (s : Fin 12) : Tree := readTree v (slotDepth s) (ip.addrs s).toNat

/-- The blocks `itrunc_to` frees when it keeps `keep` file blocks. -/
def freedBy (v : Vol) (ip : Inode) (keep : Nat) : List Nat :=
  (finRange 12).flatMap fun s => (slotTree v ip s).freed keep (slotDepth s) (slotBase s)

/-- The tables it leaves with fewer entries. -/
def trimmedBy (v : Vol) (ip : Inode) (keep : Nat) : List Nat :=
  (finRange 12).flatMap fun s => (slotTree v ip s).trimmed keep (slotDepth s) (slotBase s)

/-- The blocks `itrunc_to` will have logged. -/
def itruncCost (v : Vol) (ip : Inode) (length : Nat) : Nat :=
  ((freedBy v ip (blocksOf length)).map v.sb.bblock).toFinset.card +
    (trimmedBy v ip (blocksOf length)).toFinset.card + 1

section
variable {v : Vol} {ip : Inode} {s : Fin 12}

/-- The blocks of a subtree are cells of the file. -/
theorem mem_blocks_cell : ∀ (d : Nat) (js : List (Fin 256)) (x : Nat),
    x ∈ (readTree v d (cell v ip (s, js))).blocks → x ≠ 0 ∧ ∃ is, is.length ≤ d ∧ x = cell v ip (s, js ++ is)
  | 0, js, x, h => by
    by_cases ha : cell v ip (s, js) = 0
    · simp [readTree, ha, Tree.blocks] at h
    · simp only [readTree, if_neg ha, Tree.blocks, mem_singleton] at h
      exact ⟨h ▸ ha, [], by simp, by simpa using h⟩
  | d + 1, js, x, h => by
    by_cases ha : cell v ip (s, js) = 0
    · simp [readTree, ha, Tree.blocks] at h
    simp only [readTree, if_neg ha, Tree.blocks] at h
    rcases mem_cons.mp h with rfl | h
    · exact ⟨ha, [], by simp, by simp⟩
    obtain ⟨j, -, hx⟩ := mem_flatMap.mp h
    have hent : v.entry (cell v ip (s, js)) j = cell v ip (s, js ++ [j]) := by rw [cell_snoc, if_neg ha]
    rw [hent] at hx
    obtain ⟨hne, is, hlen, hx⟩ := mem_blocks_cell d (js ++ [j]) x hx
    exact ⟨hne, j :: is, by simpa using hlen, by simpa using hx⟩

theorem blocks_nodup (h : Sound v ip) : ∀ (d : Nat) (js : List (Fin 256)), js.length + d ≤ slotDepth s →
    (readTree v d (cell v ip (s, js))).blocks.Nodup
  | 0, js, _ => by
    by_cases ha : cell v ip (s, js) = 0 <;> simp [readTree, ha, Tree.blocks]
  | d + 1, js, hd => by
    by_cases ha : cell v ip (s, js) = 0
    · simp [readTree, ha, Tree.blocks]
    have hent : ∀ j, v.entry (cell v ip (s, js)) j = cell v ip (s, js ++ [j]) := fun j => by
      rw [cell_snoc, if_neg ha]
    have hval : ∀ is : List (Fin 256), is.length ≤ d + 1 → Valid (s, js ++ is) := fun is hi => by
      simp only [Valid, length_append]; omega
    simp only [readTree, if_neg ha, hent]
    refine nodup_cons.mpr ⟨fun hmem => ?_, nodup_flatMap.mpr ⟨fun j _ => ?_, ?_⟩⟩
    · obtain ⟨j, -, hx⟩ := mem_flatMap.mp hmem
      obtain ⟨-, is, hlen, e⟩ := mem_blocks_cell d (js ++ [j]) _ hx
      rw [append_assoc] at e
      have := h.inj (s, js) (s, js ++ ([j] ++ is)) (by simpa using hval [] (by simp)) (hval _ (by simp; omega)) ha e
      simp at this
    · exact blocks_nodup h d (js ++ [j]) (by simp; omega)
    · refine (nodup_finRange 256).imp fun {i j} hij x hx hx' => ?_
      obtain ⟨hne, is, hlen, e⟩ := mem_blocks_cell d (js ++ [i]) x hx
      obtain ⟨-, is', hlen', e'⟩ := mem_blocks_cell d (js ++ [j]) x hx'
      rw [append_assoc] at e e'
      have := h.inj (s, js ++ ([i] ++ is)) (s, js ++ ([j] ++ is')) (hval _ (by simp; omega)) (hval _ (by simp; omega))
        (e ▸ hne) (e.symm.trans e')
      simp at this
      exact hij this.1

variable {x : Nat}

theorem slot_blocks (hx : x ∈ (slotTree v ip s).blocks) : ∃ is, Valid (s, is) ∧ x = cell v ip (s, is) ∧ x ≠ 0 := by
  have hroot : x ∈ (readTree v (slotDepth s) (cell v ip (s, []))).blocks := hx
  obtain ⟨hne, is, hlen, e⟩ := mem_blocks_cell (slotDepth s) [] x hroot
  exact ⟨is, hlen, e, hne⟩

theorem slot_held (h : Sound v ip) (s : Fin 12) : Held v (slotTree v ip s).blocks := by
  refine ⟨blocks_nodup h (slotDepth s) [] (by simp), fun x hx => ?_⟩
  obtain ⟨is, hval, rfl, hne⟩ := slot_blocks hx
  exact h.inside _ hval hne

theorem slot_disjoint (h : Sound v ip) {s' : Fin 12} (hs : s ≠ s') (hx : x ∈ (slotTree v ip s).blocks) :
    x ∉ (slotTree v ip s').blocks := by
  intro hx'
  obtain ⟨is, hval, rfl, hne⟩ := slot_blocks hx
  obtain ⟨is', hval', e, -⟩ := slot_blocks hx'
  exact hs (Prod.mk.inj (h.inj _ _ hval hval' hne e)).1

/-- The loop over the slots after `P`. -/
structure Slots (keep : Nat) (v : Vol) (ip : Inode) (P : List (Fin 12)) (r : Inode × Vol) : Prop where
  swept : Swept ∅ (P.flatMap fun s => (slotTree v ip s).tables)
    (P.flatMap fun s => (slotTree v ip s).freed keep (slotDepth s) (slotBase s))
    (P.flatMap fun s => (slotTree v ip s).trimmed keep (slotDepth s) (slotBase s)) v r.2
  addrs : ∀ s, s ∉ P → r.1.addrs s = ip.addrs s
  rest : { r.1 with addrs := ip.addrs } = ip
  tree : ∀ s ∈ P, readTree r.2 (slotDepth s) (r.1.addrs s).toNat = (slotTree v ip s).cut keep (slotDepth s) (slotBase s)

variable {keep : Nat} {P : List (Fin 12)} {r : Inode × Vol} {s : Fin 12}

theorem Slots.inum (h : Slots keep v ip P r) : r.1.inum = ip.inum := by
  rw [← h.rest]

section
variable (hsound : Sound v ip) (hs : s ∉ P) (h : Slots keep v ip P r)
include hsound hs h

/-- The loop has not reached slot `s` yet. -/
theorem Slots.part : readTree r.2 (slotDepth s) (ip.addrs s).toNat = slotTree v ip s ∧
      Held r.2 (readTree r.2 (slotDepth s) (ip.addrs s).toNat).blocks :=
  h.swept.part (slot_held hsound s) (fun _ _ hx => hx) fun _ hi _ hx => slot_disjoint hsound (ne_of_mem_of_not_mem hi hs).symm hx

theorem Slots.step : Slots keep v ip (P ++ [s]) (truncSlot keep r s) := by
  unfold truncSlot
  simp only [h.addrs s hs]
  by_cases hz : (ip.addrs s).toNat = 0
  · have hhole : slotTree v ip s = .hole := by rw [slotTree, hz, readTree_zero]
    rw [if_pos hz]
    refine ⟨?_, fun s' hs' => h.addrs s' fun hp => hs' (mem_append_left _ hp), h.rest, fun s' hs' => ?_⟩
    · have := h.swept
      simpa [hhole, Tree.tables, Tree.freed, Tree.trimmed] using this
    · rcases mem_append.mp hs' with hs' | hs'
      · exact h.tree s' hs'
      · rw [mem_singleton.mp hs', h.addrs s hs, hz, readTree_zero, hhole]
        rfl
  · rw [if_neg hz]
    obtain ⟨htree, hheld⟩ := h.part hsound hs
    obtain ⟨hgone, hsw, hleft⟩ := cuts keep (slotDepth s) (slotBase s) (ip.addrs s).toNat r.2 hz hheld
    rw [htree] at hgone hsw hleft
    set t := truncTable keep (slotDepth s) (slotBase s) (ip.addrs s).toNat r.2 with ht
    have haddr : ∀ s', s' ≠ s → (if t.1 then { r.1 with addrs := update r.1.addrs s 0 } else r.1).addrs s' = r.1.addrs s' := by
      intro s' hne
      split
      · simp [update_of_ne hne]
      · rfl
    refine ⟨by simpa [flatMap_append] using h.swept.trans hsw, fun s' hs' => ?_, ?_, fun s' hs' => ?_⟩
    · rw [mem_append, not_or, mem_singleton] at hs'
      rw [haddr s' hs'.2, h.addrs s' hs'.1]
    · split
      · exact h.rest
      · exact h.rest
    · rcases mem_append.mp hs' with hs' | hs'
      · -- an earlier slot keeps its address, and its blocks are not in this tree
        have hne : s' ≠ s := fun e => hs (e ▸ hs')
        have hdone := h.tree s' hs'
        rw [haddr s' hne]
        refine (readTree_congr _ _ fun x hx => ?_).trans hdone
        rw [hdone] at hx
        have hxs := Tree.cut_sub _ _ _ x hx
        refine hsw.mem x (.inr ?_) (by simp) fun hxt => slot_disjoint hsound hne hxs (Tree.tables_sub _ x hxt)
        rw [h.swept.sb]
        exact ((slot_held hsound s').inside x hxs).1
      · obtain rfl := mem_singleton.mp hs'
        cases hst : (slotTree v ip s').stays keep (slotDepth s') (slotBase s') with
        | true =>
          rw [hst] at hgone
          rw [if_neg (by simp [hgone]), h.addrs s' hs]
          exact hleft hst
        | false =>
          rw [hst] at hgone
          rw [if_pos (by simp [hgone]), Tree.cut_of_not_stays hst]
          simp [readTree_zero]

end

/-- The loop over all slots. -/
theorem slots_run (h : Sound v ip) (keep : Nat) : Slots keep v ip (finRange 12) ((finRange 12).foldl (truncSlot keep) (ip, v)) :=
  foldl_through (fun _ _ _ hs hl => hl.step h hs) (nodup_finRange 12) ⟨.refl ∅ v, fun _ _ => rfl, rfl, by simp⟩

/-- The blocks `itrunc_to` logs, in order: those of the loops, then the inode block. -/
theorem itruncTo_logged (h : Sound v ip) (hl : v.logged = []) (length now : Nat) : ∃ ls, v.sb.iblock ip.inum ∉ ls ∧
    (xv6fsItruncTo v ip length now).2.logged = ls ++ [v.sb.iblock ip.inum] ∧
    (ls ++ [v.sb.iblock ip.inum]).toFinset.card = itruncCost v ip length := by
  have hrun := slots_run h (blocksOf length)
  set r := (finRange 12).foldl (truncSlot (blocksOf length)) (ip, v) with hr
  obtain ⟨ls, hlog, hls⟩ := hrun.swept.logged
  have hI := h.ok.iblock_lt h.inum
  have hle := v.sb.bmapstart_le
  have hin : ∀ s, ∀ x ∈ (slotTree v ip s).blocks, v.sb.dataStart ≤ x ∧ x < v.sb.size := fun s x hx =>
    ⟨((slot_held h s).inside x hx).1, ((slot_held h s).inside x hx).2.1⟩
  have hB : ∀ f ∈ freedBy v ip (blocksOf length), v.sb.bmapstart ≤ v.sb.bblock f ∧ v.sb.bblock f < v.sb.dataStart := by
    intro f hf
    obtain ⟨s, -, hf⟩ := mem_flatMap.mp hf
    exact bblock_lt (hin s f (Tree.freed_sub _ _ _ _ f hf)).2
  have hT : ∀ x ∈ trimmedBy v ip (blocksOf length), v.sb.dataStart ≤ x := by
    intro x hx
    obtain ⟨s, -, hx⟩ := mem_flatMap.mp hx
    exact (hin s x (Tree.trimmed_sub _ _ _ _ x hx)).1
  have hnot : v.sb.iblock ip.inum ∉ ls := by
    intro hx
    rcases (hls _).mp hx with ⟨f, hf, e⟩ | hx
    · have := (hB f hf).1; omega
    · have := hT _ hx; omega
  refine ⟨ls, hnot, ?_, ?_⟩
  · simp only [xv6fsItruncTo, xv6fsIupdate, xv6logWrite, put]
    rw [hlog, hl, nil_append, hrun.swept.sb, hrun.inum]
  have hset : ls.toFinset = ((freedBy v ip (blocksOf length)).map v.sb.bblock).toFinset ∪
      (trimmedBy v ip (blocksOf length)).toFinset := by
    ext x
    simp only [mem_toFinset, Finset.mem_union, hls, mem_map]
    exact or_congr_left (exists_congr fun f => and_congr_right fun _ => eq_comm)
  have hdis : Disjoint ((freedBy v ip (blocksOf length)).map v.sb.bblock).toFinset
      (trimmedBy v ip (blocksOf length)).toFinset := by
    rw [Finset.disjoint_left]
    intro x hx hx'
    obtain ⟨f, hf, rfl⟩ := mem_map.mp (mem_toFinset.mp hx)
    have h₁ := (hB f hf).2
    have h₂ := hT _ (mem_toFinset.mp hx')
    omega
  rw [card_snoc hnot, hset, Finset.card_union_of_disjoint hdis, itruncCost]

end

end Orthox.Blocks
