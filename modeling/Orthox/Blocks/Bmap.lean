import Orthox.Blocks.Index

/-! What `bmap` does to a file: it fills the holes on the way to one file block, top down, as far as the supply lasts. `Grown`
    is the effect of any number of such calls and of data writes between them: which nodes were filled, which data blocks were
    written, and exactly which blocks were logged for it. -/

namespace Orthox.Blocks
open List

/-- The nodes passed on the way down from `(s, js)` along `is`. -/
def below (s : Fin 12) : List (Fin 256) → List (Fin 256) → List Node
  | _, [] => []
  | js, i :: is => (s, js ++ [i]) :: below s (js ++ [i]) is

/-- Why a filled or written node makes block `x` logged: its bitmap block, the zeroed block itself,
    or the table that got the entry. -/
def FillLogs (v' : Vol) (ip' : Inode) (N : Node) (x : Nat) : Prop :=
  x = v'.sb.bblock (cell v' ip' N) ∨ x = cell v' ip' N ∨ ∃ js i, N.2 = js ++ [i] ∧ x = cell v' ip' (N.1, js)

/-- From `(v, ip)` to `(v', ip')` the nodes `ns` were filled and the nodes `ws` written. -/
structure Grown (v : Vol) (ip : Inode) (ns ws : List Node) (v' : Vol) (ip' : Inode) : Prop where
  sound : Sound v' ip'
  sb : v'.sb = v.sb
  inum : ip'.inum = ip.inum
  panic : v'.panic = v.panic
  nodup : ns.Nodup
  holes : ∀ N ∈ ns, Valid N ∧ cell v ip N = 0
  supply : v.supply = ns.map (cell v' ip') ++ v'.supply
  keep : ∀ M, Valid M → M ∉ ns → cell v' ip' M = cell v ip M
  written : ∀ W ∈ ws, Valid W ∧ cell v' ip' W ≠ 0
  logged : ∃ ls, v'.logged = v.logged ++ ls ∧
    ∀ x, x ∈ ls ↔ (∃ N ∈ ns, FillLogs v' ip' N x) ∨ ∃ W ∈ ws, x = cell v' ip' W

variable {f : Nat} {N : Node} {s : Fin 12} {is : List (Fin 256)} {v : Vol} {ip : Inode}

theorem Sound.supply_pos (h : Sound v ip) (hf : f ∈ v.supply) : f ≠ 0 := by
  have hpos : 0 < v.sb.dataStart := Nat.succ_pos _
  have := (h.of_supply hf).1
  omega

namespace Grown
variable {v v₁ v₂ : Vol} {ip ip₁ ip₂ : Inode} {ns ms ws us : List Node}

theorem refl (h : Sound v ip) : Grown v ip [] [] v ip :=
  ⟨h, rfl, rfl, rfl, nodup_nil, by simp, by simp, fun _ _ _ => rfl, by simp, [], by simp, by simp⟩

theorem filled_ne (hs : Sound v ip) (h : Grown v ip ns ws v₁ ip₁) (hN : N ∈ ns) : cell v₁ ip₁ N ≠ 0 := by
  refine hs.supply_pos ?_
  rw [h.supply]
  exact mem_append_left _ (mem_map_of_mem hN)

/-- A node that is not a hole stays what it is. -/
theorem keep_ne (h : Grown v ip ns ws v₁ ip₁) {M : Node} (hM : Valid M) (hne : cell v ip M ≠ 0) : cell v₁ ip₁ M = cell v ip M :=
  h.keep M hM fun hmem => hne (h.holes M hmem).2

section
variable (hs : Sound v ip) (h : Grown v ip ns ws v₁ ip₁) (k : Grown v₁ ip₁ ms us v₂ ip₂)
include hs h k

theorem fillLogs_keep (hN : N ∈ ns) (x : Nat) : FillLogs v₂ ip₂ N x ↔ FillLogs v₁ ip₁ N x := by
  have hval := (h.holes N hN).1
  have hne := h.filled_ne hs hN
  have hself := k.keep_ne hval hne
  have hpar : ∀ js i, N.2 = js ++ [i] → cell v₂ ip₂ (N.1, js) = cell v₁ ip₁ (N.1, js) := by
    intro js i e
    have heq : N = (N.1, js ++ [i]) := by rw [← e]
    have hval' : Valid (N.1, js ++ [i]) := heq ▸ hval
    refine k.keep_ne (valid_of_snoc hval') fun h0 => hne ?_
    rw [heq, cell_snoc, if_pos h0]
  unfold FillLogs
  rw [hself, k.sb]
  refine or_congr_right (or_congr_right ?_)
  constructor
  · rintro ⟨js, i, e, hx⟩; exact ⟨js, i, e, hx.trans (hpar js i e)⟩
  · rintro ⟨js, i, e, hx⟩; exact ⟨js, i, e, hx.trans (hpar js i e).symm⟩

/-- Growth composes. -/
theorem trans : Grown v ip (ns ++ ms) (ws ++ us) v₂ ip₂ := by
  have hkept : ∀ N ∈ ns, cell v₂ ip₂ N = cell v₁ ip₁ N := fun N hN => k.keep_ne (h.holes N hN).1 (h.filled_ne hs hN)
  have hdis : ∀ N ∈ ns, N ∉ ms := fun N hN hm => h.filled_ne hs hN (k.holes N hm).2
  refine ⟨k.sound, k.sb.trans h.sb, k.inum.trans h.inum, k.panic.trans h.panic,
    List.Nodup.append h.nodup k.nodup fun N hN hm => hdis N hN hm, fun N hN => ?_, ?_, fun M hM hn => ?_, fun W hW => ?_, ?_⟩
  · rcases mem_append.mp hN with hN | hN
    · exact h.holes N hN
    · obtain ⟨hv, hz⟩ := k.holes N hN
      exact ⟨hv, by rwa [h.keep N hv fun hn => hdis N hn hN] at hz⟩
  · rw [map_append, append_assoc, ← k.supply, map_congr_left hkept]
    exact h.supply
  · rw [mem_append, not_or] at hn
    rw [k.keep M hM hn.2, h.keep M hM hn.1]
  · rcases mem_append.mp hW with hW | hW
    · obtain ⟨hv, hne⟩ := h.written W hW
      exact ⟨hv, by rwa [k.keep_ne hv hne]⟩
    · exact k.written W hW
  · obtain ⟨ls, hl, hm⟩ := h.logged
    obtain ⟨ls', hl', hm'⟩ := k.logged
    refine ⟨ls ++ ls', by rw [hl', hl, append_assoc], fun x => ?_⟩
    rw [mem_append, hm, hm']
    constructor
    · rintro ((⟨N, hN, hx⟩ | ⟨W, hW, hx⟩) | (⟨N, hN, hx⟩ | ⟨W, hW, hx⟩))
      · exact .inl ⟨N, mem_append_left _ hN, (h.fillLogs_keep hs k hN x).mpr hx⟩
      · obtain ⟨hv, hne⟩ := h.written W hW
        exact .inr ⟨W, mem_append_left _ hW, hx.trans (k.keep_ne hv hne).symm⟩
      · exact .inl ⟨N, mem_append_right _ hN, hx⟩
      · exact .inr ⟨W, mem_append_right _ hW, hx⟩
    · rintro (⟨N, hN, hx⟩ | ⟨W, hW, hx⟩)
      · rcases mem_append.mp hN with hN | hN
        · exact .inl (.inl ⟨N, hN, (h.fillLogs_keep hs k hN x).mp hx⟩)
        · exact .inr (.inl ⟨N, hN, hx⟩)
      · rcases mem_append.mp hW with hW | hW
        · obtain ⟨hv, hne⟩ := h.written W hW
          exact .inl (.inr ⟨W, hW, hx.trans (k.keep_ne hv hne)⟩)
        · exact .inr (.inr ⟨W, hW, hx⟩)

end

/-- One hole filled. -/
theorem of_filled (hN : Valid N) (hz : cell v ip N = 0) (h : Filled v ip N f v₁ ip₁)
    (hp : v₁.panic = v.panic) (ls : List Nat) (hl : v₁.logged = v.logged ++ ls)
    (hx : ∀ x, x ∈ ls ↔ FillLogs v₁ ip₁ N x) : Grown v ip [N] [] v₁ ip₁ := by
  have hf : cell v₁ ip₁ N = f := by rw [h.cell N hN, if_pos rfl]
  refine ⟨h.sound, h.sb, h.inum, hp, nodup_singleton N, by simpa using ⟨hN, hz⟩, by simp [hf, h.supply],
    fun M hM hne => ?_, by simp, ls, hl, fun x => by simp [hx x]⟩
  rw [h.cell M hM, if_neg (by simpa using hne)]

end Grown

/-- The holes on a way down, in order. -/
def holesOn (v : Vol) (ip : Inode) (way : List Node) : List Node := way.filter fun N => cell v ip N == 0

theorem mem_below {s : Fin 12} : ∀ {is js : List (Fin 256)} {N : Node}, N ∈ below s js is →
    N.1 = s ∧ js.length < N.2.length ∧ N.2.length ≤ js.length + is.length
  | [], _, _, h => by simp [below] at h
  | i :: is, js, N, h => by
    rcases mem_cons.mp h with rfl | h
    · simp
    obtain ⟨h₁, h₂, h₃⟩ := mem_below h
    simp only [length_append, length_cons, length_nil] at h₂ h₃ ⊢
    exact ⟨h₁, by omega, by omega⟩

/-- Everything below a hole is a hole. -/
theorem holes_below {s : Fin 12} : ∀ {is js : List (Fin 256)}, cell v ip (s, js) = 0 → ∀ N ∈ below s js is, cell v ip N = 0
  | [], _, _, N, hN => by simp [below] at hN
  | i :: is, js, h, N, hN => by
    have h' : cell v ip (s, js ++ [i]) = 0 := by rw [cell_snoc, if_pos h]
    rcases mem_cons.mp hN with rfl | hN
    · exact h'
    · exact holes_below h' N hN

variable {js : List (Fin 256)} {bn : Nat}

theorem holesOn_below (h : cell v ip (s, js) = 0) : holesOn v ip (below s js is) = below s js is :=
  filter_eq_self.mpr fun N hN => by simp [holes_below h N hN]

/-- Right after `(s, js)` was filled, everything below it is still a hole. -/
theorem holesOn_below_filled {v' : Vol} {ip' : Inode}
    (hv : Valid (s, js ++ is)) (h : cell v ip (s, js) = 0) (hf : Filled v ip (s, js) f v' ip') :
    holesOn v' ip' (below s js is) = below s js is := by
  refine filter_eq_self.mpr fun N hN => ?_
  obtain ⟨h₁, h₂, h₃⟩ := mem_below hN
  have hval : Valid N := by
    simp only [Valid, length_append] at hv ⊢
    rw [h₁]; omega
  have hne : N ≠ (s, js) := fun e => by rw [e] at h₂; simp at h₂
  simp [hf.cell N hval, hne, holes_below h N hN]

/-! ### Whole paths -/

/-- The nodes on the way to file block `bn`, top down; the last one is its data block. -/
def prefixes (bn : Nat) : List Node :=
  match path bn with
  | none => []
  | some (s, is) => (s, []) :: below s [] is

/-- The node of file block `bn`. -/
def fileNode (bn : Nat) : Node := (path bn).getD (0, [])

theorem path_valid (h : path bn = some (s, is)) : is.length = slotDepth s := by
  unfold path at h
  simp only at h
  split at h
  · cases h
    simp only [slotDepth, ndirect, Fin.ofNat, length_nil] at *
    omega
  split at h
  · cases h; rfl
  split at h
  · cases h; rfl
  split at h
  · cases h; rfl
  · cases h

theorem path_some (h : bn < maxFile) : path bn = some (fileNode bn) := by
  have : (path bn).isSome := by
    unfold path
    unfold maxFile at h
    simp only
    split
    · rfl
    split
    · rfl
    split
    · rfl
    rw [if_pos (by omega)]
    rfl
  obtain ⟨N, hN⟩ := Option.isSome_iff_exists.mp this
  rw [fileNode, hN]
  rfl

theorem path_none (h : maxFile ≤ bn) : path bn = none := by
  unfold path
  unfold maxFile at h
  rw [if_neg (by omega), if_neg (by omega), if_neg (by omega), if_neg (by omega)]

end Orthox.Blocks
