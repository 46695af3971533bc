import Orthox.Blocks.Bitmap

/-! The index of a file as a map. A node is a slot of `addrs` with a list of table indices; `cell` gives the block it leads to,
    0 for a hole. In a sound file (`Sound`) different nodes have different blocks, all of them marked and behind the metadata,
    so that filling one hole with the next free block changes `cell` at that node and nowhere else (`Filled`). -/

namespace Orthox.Blocks
open List Function

/-- A place in the index: a slot of `addrs` and table indices below it. -/
abbrev Node := Fin 12 × List (Fin 256)

namespace Vol

variable {v : Vol} {b c : Nat}

/-- Follow table indices from block `a`. -/
def descend (v : Vol) (a : Nat) : List (Fin 256) → Nat
  | [] => a
  | i :: is => if a = 0 then 0 else descend v (v.entry a i) is

theorem descend_zero (v : Vol) (is : List (Fin 256)) : v.descend 0 is = 0 := by
  cases is <;> simp [descend]

theorem descend_snoc (v : Vol) : ∀ (a : Nat) (is : List (Fin 256)) (i : Fin 256),
    v.descend a (is ++ [i]) = if v.descend a is = 0 then 0 else v.entry (v.descend a is) i
  | a, [], i => rfl
  | a, j :: is, i => by
    by_cases ha : a = 0
    · simp [descend, ha]
    · simp only [cons_append, descend, if_neg ha]
      exact descend_snoc v (v.entry a j) is i

/-! ### After an allocation -/

@[simp] theorem took_sb (v : Vol) (b : Nat) : (v.took b).sb = v.sb := rfl

@[simp] theorem took_logged (v : Vol) (b : Nat) : (v.took b).logged = v.logged ++ [v.sb.bblock b, b] := by
  simp [took, xv6bzero, xv6logWrite, put, setBit]

theorem bblock_lt (hc : c < v.sb.size) : v.sb.bmapstart ≤ v.sb.bblock c ∧ v.sb.bblock c < v.sb.dataStart := by
  simp only [Super.bblock, Super.dataStart, bpb]
  omega

variable {a : Nat}

/-- Data blocks other than the new one are as they were. -/
theorem took_mem (hb : b < v.sb.size) (ha : v.sb.dataStart ≤ a) (hne : a ≠ b) : (v.took b).mem a = v.mem a := by
  have hlt := (bblock_lt hb).2
  simp only [took, xv6bzero, xv6logWrite, put, setBit]
  rw [update_of_ne hne, update_of_ne (by omega)]

theorem took_self (v : Vol) (b : Nat) (i : Fin 256) : (v.took b).entry b i = 0 := by
  simp [entry, took, xv6bzero, xv6logWrite, put]

theorem took_bit (hd : v.sb.dataStart ≤ b) (hc : c < v.sb.size) : (v.took b).bit c = if c = b then true else v.bit c := by
  rw [← bit_setBit v b c true, ← bit_put (v := v.setBit b true) hc (.inr hd) fun _ => 0]
  rfl

theorem bit_setEntry (ha : v.sb.dataStart ≤ a) (i : Fin 256) (x : Nat) (hc : c < v.sb.size) :
    (v.setEntry a i x).bit c = v.bit c :=
  bit_put hc (.inr ha) _

theorem entry_setEntry_self (v : Vol) (a : Nat) (i : Fin 256) {x : Nat} (hx : x < 2 ^ 32) : (v.setEntry a i x).entry a i = x := by
  simp only [entry, setEntry, put, update_self]
  exact Nat.mod_eq_of_lt hx

theorem entry_setEntry_of_ne (v : Vol) {a' : Nat} {i i' : Fin 256} (x : Nat) (h : a' ≠ a ∨ i' ≠ i) :
    (v.setEntry a i x).entry a' i' = v.entry a' i' := by
  by_cases ha : a' = a
  · subst ha
    simp [entry, setEntry, put, update_of_ne (h.resolve_left fun h => h rfl)]
  · simp [entry, setEntry, put, update_of_ne ha]

theorem supply_congr {v' : Vol} (hsb : v'.sb = v.sb) (hh : v'.hint = v.hint)
    (hbit : ∀ c, c < v.sb.size → v'.bit c = v.bit c) : v'.supply = v.supply := by
  have hst : v'.scanStart = v.scanStart := by simp [scanStart, hsb, hh]
  have hle := scanStart_le v
  rw [supply, supply, hst, hsb, free_congr fun c _ hc => hbit c hc, free_congr fun c _ hc => hbit c (by omega)]

end Vol

/-! ### Sound files -/

/-- The block a node leads to. -/
def cell (v : Vol) (ip : Inode) (N : Node) : Nat := v.descend (ip.addrs N.1).toNat N.2

/-- The nodes `bmap` can reach. -/
def Valid (N : Node) : Prop := N.2.length ≤ slotDepth N.1

/-- The metadata is marked, the file's blocks are marked data blocks, and no block is used twice. -/
structure Sound (v : Vol) (ip : Inode) : Prop where
  ok : v.sb.Ok
  inum : ip.inum < v.sb.ninodes
  marked : ∀ b < v.sb.dataStart, v.bit b = true
  inside : ∀ N, Valid N → cell v ip N ≠ 0 →
    v.sb.dataStart ≤ cell v ip N ∧ cell v ip N < v.sb.size ∧ v.bit (cell v ip N) = true
  inj : ∀ N M, Valid N → Valid M → cell v ip N ≠ 0 → cell v ip N = cell v ip M → N = M

variable {ip : Inode} {f : Nat} {s : Fin 12} {fs : List Nat}

theorem Sound.of_supply {v : Vol} (h : Sound v ip) (hf : f ∈ v.supply) :
    v.sb.dataStart ≤ f ∧ f < v.sb.size ∧ v.bit f = false ∧ ∀ N, Valid N → cell v ip N ≠ f := by
  obtain ⟨h₁, h₂⟩ := Vol.mem_supply.mp hf
  refine ⟨?_, h₁, h₂, fun N hN e => ?_⟩
  · by_contra hlt
    rw [h.marked f (by omega)] at h₂
    cases h₂
  · have hpos : cell v ip N ≠ 0 := by
      intro h0
      have hm := h.marked 0 (Nat.succ_pos _)
      rw [← e, h0, hm] at h₂
      cases h₂
    have := (h.inside N hN hpos).2.2
    rw [e, h₂] at this
    cases this

theorem cell_snoc (v : Vol) (ip : Inode) (s : Fin 12) (js : List (Fin 256)) (i : Fin 256) :
    cell v ip (s, js ++ [i]) = if cell v ip (s, js) = 0 then 0 else v.entry (cell v ip (s, js)) i :=
  v.descend_snoc _ js i

variable {js : List (Fin 256)} {x : Nat} {i : Fin 256}

theorem valid_of_snoc (h : Valid (s, js ++ [i])) : Valid (s, js) := by
  simp only [Valid, length_append] at h ⊢
  omega

/-! ### One node changes -/

/-- The facts about single entries are enough where nothing stands below the node. -/
theorem cell_update {v v' : Vol} {ip' : Inode} {N : Node}
    (hroot : ∀ s, cell v' ip' (s, []) = if (s, []) = N then x else cell v ip (s, []))
    (hentry : ∀ s js i, Valid (s, js ++ [i]) → cell v ip (s, js) ≠ 0 →
      v'.entry (cell v ip (s, js)) i = if (s, js ++ [i]) = N then x else v.entry (cell v ip (s, js)) i)
    (hbelow : ∀ i, Valid (N.1, N.2 ++ [i]) → cell v ip N = 0 ∧ v'.entry x i = 0)
    (hparent : ∀ s js i, (s, js ++ [i]) = N → cell v ip (s, js) ≠ 0) :
    ∀ M, Valid M → cell v' ip' M = if M = N then x else cell v ip M := by
  rintro ⟨s, js⟩ hM
  induction js using reverseRecOn with
  | nil => exact hroot s
  | append_singleton js i ih =>
    rw [cell_snoc, cell_snoc, ih (valid_of_snoc hM)]
    by_cases e : (s, js) = N
    · subst e
      obtain ⟨hz, hent⟩ := hbelow i hM
      rw [if_pos rfl, hent, ite_self, if_neg (by simp), if_pos hz]
    rw [if_neg e]
    by_cases hz : cell v ip (s, js) = 0
    · rw [if_pos hz, if_pos hz, if_neg fun e' => hparent s js i e' hz]
    · rw [if_neg hz, if_neg hz, hentry s js i hM hz]

/-- A slot of `addrs` is set. -/
theorem cell_setSlot {v w : Vol} (hx : x < 2 ^ 32)
    (hw : ∀ M, Valid M → cell v ip M ≠ 0 → w.mem (cell v ip M) = v.mem (cell v ip M))
    (hbelow : ∀ i, Valid (s, [i]) → cell v ip (s, []) = 0 ∧ w.entry x i = 0) (M : Node) (hM : Valid M) :
    cell w { ip with addrs := update ip.addrs s (.ofNat 32 x) } M = if M = (s, []) then x else cell v ip M := by
  refine cell_update (fun s' => ?_) (fun s' js i hJ hz => ?_) hbelow (by simp) M hM
  · by_cases e : s' = s
    · subst e
      simp only [cell, update_self, BitVec.toNat_ofNat]
      exact Nat.mod_eq_of_lt hx
    · simp [cell, Vol.descend, e]
  · rw [if_neg (by simp), Vol.entry, hw _ (valid_of_snoc hJ) hz, Vol.entry]

/-- An entry of a table of the file is set. -/
theorem Sound.cell_setEntry {v w v' : Vol} (h : Sound v ip) (hx : x < 2 ^ 32)
    (hw : ∀ M, Valid M → cell v ip M ≠ 0 → w.mem (cell v ip M) = v.mem (cell v ip M))
    (hv' : v'.mem = (w.setEntry (cell v ip (s, js)) i x).mem) (hN : Valid (s, js ++ [i])) (hp : cell v ip (s, js) ≠ 0)
    (hbelow : ∀ j, Valid (s, js ++ [i] ++ [j]) → cell v ip (s, js ++ [i]) = 0 ∧ v'.entry x j = 0) (M : Node) (hM : Valid M) :
    cell v' ip M = if M = (s, js ++ [i]) then x else cell v ip M := by
  have hsnoc : ∀ {s' ks j}, (s', ks ++ [j]) = (s, js ++ [i]) → s' = s ∧ ks = js ∧ j = i := by
    intro s' ks j e
    obtain ⟨hs, e⟩ := Prod.mk.inj e
    obtain ⟨hks, e⟩ := append_inj' e rfl
    exact ⟨hs, hks, (cons.inj e).1⟩
  refine cell_update (fun s' => by simp [cell, Vol.descend]) (fun s' ks j hJ hz => ?_) hbelow (fun s' ks j e => ?_) M hM
  · have hold : w.entry (cell v ip (s', ks)) j = v.entry (cell v ip (s', ks)) j := by
      rw [Vol.entry, hw _ (valid_of_snoc hJ) hz, Vol.entry]
    by_cases e : (s', ks ++ [j]) = (s, js ++ [i])
    · obtain ⟨rfl, rfl, rfl⟩ := hsnoc e
      rw [if_pos rfl, Vol.entry, hv']
      exact Vol.entry_setEntry_self _ _ _ hx
    rw [if_neg e, ← hold, Vol.entry, hv']
    refine Vol.entry_setEntry_of_ne w x ?_
    by_contra hcon
    push Not at hcon
    obtain ⟨rfl, rfl⟩ := Prod.mk.inj (h.inj _ _ (valid_of_snoc hJ) (valid_of_snoc hN) hz hcon.1)
    exact e (by rw [hcon.2])
  · obtain ⟨rfl, rfl, -⟩ := hsnoc e
    exact hp

/-- The hole `N` was filled with `f`, the first block of the supply. -/
structure Filled (v : Vol) (ip : Inode) (N : Node) (f : Nat) (v' : Vol) (ip' : Inode) : Prop where
  cell : ∀ M, Valid M → cell v' ip' M = if M = N then f else cell v ip M
  supply : v.supply = f :: v'.supply
  sound : Sound v' ip'
  sb : v'.sb = v.sb
  inum : ip'.inum = ip.inum

end Orthox.Blocks
