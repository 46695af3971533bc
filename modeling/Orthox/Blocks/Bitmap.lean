import Orthox.Blocks.Volume

/-! The block allocator. What `balloc` hands out is described by one list, `supply`: the free blocks
    in the order of the scan, from the start of the hinted group to the end of the volume and round
    again. `balloc` takes its head, and moving the hint never reorders what is left. -/

namespace Orthox.Blocks
open Journal List
namespace Vol

variable {v : Vol} {b c : Nat}

/-! ### Bits -/

variable {lo hi : Nat} {bs : List Nat}

theorem wordOf_eq_iff (hg : b / bpb = c / bpb) (hm : b % 32 = c % 32) : wordOf b = wordOf c ↔ b = c := by
  unfold bpb at hg
  simp only [wordOf, bpb, Fin.mk.injEq]
  omega

theorem bit_setBit (v : Vol) (b c : Nat) (on : Bool) : (v.setBit b on).bit c = if c = b then on else v.bit c := by
  unfold bit setBit put
  simp only
  by_cases hg : c / bpb = b / bpb
  · have hblk : v.sb.bblock c = v.sb.bblock b := by unfold Super.bblock; rw [hg]
    rw [hblk, Function.update_self]
    by_cases hw : wordOf c = wordOf b
    · rw [hw]
      by_cases hm : c % 32 = b % 32
      · have hcb : c = b := (wordOf_eq_iff hg hm).mp hw
        have hlt : b % 32 < 32 := Nat.mod_lt _ (by decide)
        cases on <;> simp [hcb, hlt]
      have hcb : c ≠ b := fun e => hm (by rw [e])
      have hlt : c % 32 < 32 := Nat.mod_lt _ (by decide)
      cases on <;> simp [hcb, hlt, hm]
    · have hcb : c ≠ b := fun e => hw (by rw [e])
      rw [Function.update_of_ne hw, if_neg hcb]
  · have hblk : v.sb.bblock c ≠ v.sb.bblock b := by unfold Super.bblock; omega
    have hcb : c ≠ b := fun e => hg (by rw [e])
    rw [Function.update_of_ne hblk, if_neg hcb]

/-- Writing outside the bitmap leaves the bits alone. -/
theorem bit_put (hc : c < v.sb.size) {a : Nat} (ha : a < v.sb.bmapstart ∨ v.sb.dataStart ≤ a) (blk : Block) :
    (v.put a blk).bit c = v.bit c := by
  have hne : v.sb.bblock c ≠ a := by
    simp only [Super.dataStart, Super.bblock, bpb] at *
    omega
  simp [bit, put, Function.update_of_ne hne]

@[simp] theorem bit_xv6logWrite (a : Nat) : (v.xv6logWrite a).bit c = v.bit c := rfl

@[simp] theorem bit_kassert (on : Bool) : (v.kassert on).bit c = v.bit c := rfl

/-! ### The scan -/

/-- The blocks `[lo, hi)` whose bits are clear. -/
def free (v : Vol) (lo hi : Nat) : List Nat := (List.range' lo (hi - lo)).filter fun b => !v.bit b

/-- The free blocks in the order in which `balloc` will find them. -/
def supply (v : Vol) : List Nat := v.free v.scanStart v.sb.size ++ v.free 0 v.scanStart

theorem mem_free : b ∈ v.free lo hi ↔ lo ≤ b ∧ b < hi ∧ v.bit b = false := by
  simp only [free, mem_filter, mem_range'_1, Bool.not_eq_true', ← and_assoc]
  refine and_congr_left fun _ => ?_
  omega

theorem free_append (v : Vol) (lo mid hi : Nat) (h₁ : lo ≤ mid) (h₂ : mid ≤ hi) :
    v.free lo hi = v.free lo mid ++ v.free mid hi := by
  have hsplit : range' lo (hi - lo) = range' lo (mid - lo) ++ range' mid (hi - mid) := by
    have := range'_append_1 (s := lo) (m := mid - lo) (n := hi - mid)
    rw [show lo + (mid - lo) = mid by omega, show mid - lo + (hi - mid) = hi - lo by omega] at this
    exact this.symm
  simp only [free, hsplit, filter_append]

theorem free_nil (h : ∀ c, lo ≤ c → c < hi → v.bit c) : v.free lo hi = [] := by
  rw [eq_nil_iff_forall_not_mem]
  intro c hc
  obtain ⟨h₁, h₂, h₃⟩ := mem_free.mp hc
  rw [h c h₁ h₂] at h₃
  cases h₃

theorem free_cons (hb : b < hi) (hf : v.bit b = false) : v.free b hi = b :: v.free (b + 1) hi := by
  rw [free_append v b (b + 1) hi (Nat.le_succ b) hb]
  simp [free, hf]

theorem free_congr {v' : Vol} (h : ∀ c, lo ≤ c → c < hi → v'.bit c = v.bit c) : v'.free lo hi = v.free lo hi := by
  refine filter_congr fun c hc => ?_
  have := mem_range'_1.mp hc
  rw [h c (by omega) (by omega)]

theorem range'_filter_lt (b n s : Nat) : (range' b n).filter (fun c => decide (c < s)) = range' b (min (b + n) s - b) := by
  rcases le_total (b + n) s with hle | hle
  · rw [filter_eq_self.mpr fun c hc => by have := mem_range'_1.mp hc; simp; omega]
    congr 1; omega
  have hsplit : range' b n = range' b (min (b + n) s - b) ++ range' (b + (min (b + n) s - b)) (n - (min (b + n) s - b)) := by
    rw [range'_append_1]; congr 1; omega
  rw [hsplit, filter_append, filter_eq_self.mpr fun c hc => ?_, filter_eq_nil_iff.mpr fun c hc => ?_, append_nil]
  · have := mem_range'_1.mp hc; simp; omega
  · have := mem_range'_1.mp hc; simp; omega

theorem scanGroup_eq (v : Vol) (b : Nat) : v.scanGroup b = (v.free b (min (b + bpb) v.sb.size)).head? := by
  have hmap : (range' b bpb).find? (fun c => decide (c < v.sb.size) && !v.bit c) = v.scanGroup b := by
    rw [range'_eq_map_range, find?_map]
    rfl
  have hcomm : (fun c => decide (c < v.sb.size) && !v.bit c) = fun c => !v.bit c && decide (c < v.sb.size) := by
    funext c; exact Bool.and_comm _ _
  rw [← hmap, ← head?_filter, hcomm, ← filter_filter, range'_filter_lt]
  rfl

theorem scanGroups_eq (v : Vol) (k lo : Nat) : v.scanGroups k lo = (v.free lo (min (lo + k * bpb) v.sb.size)).head? := by
  induction k generalizing lo with
  | zero =>
    have hnil : v.free lo (min (lo + 0 * bpb) v.sb.size) = [] := free_nil fun c h₁ h₂ => by
      rw [zero_mul] at h₂; omega
    rw [hnil, scanGroups, head?_nil]
  | succ k ih =>
    have hk : lo + bpb + k * bpb = lo + (k + 1) * bpb := by rw [Nat.succ_mul]; omega
    have hgroup := scanGroup_eq v lo
    have hone : lo + bpb ≤ lo + (k + 1) * bpb := by rw [← hk]; exact Nat.le_add_right _ _
    -- the group first, then the rest; past the end of the volume there is no rest
    have happ : v.free lo (min (lo + (k + 1) * bpb) v.sb.size) = v.free lo (min (lo + bpb) v.sb.size) ++
        v.free (lo + bpb) (min (lo + (k + 1) * bpb) v.sb.size) := by
      rcases le_total (lo + bpb) v.sb.size with hle | hle
      · rw [min_eq_left hle]
        exact free_append v lo (lo + bpb) _ (Nat.le_add_right _ _) (Nat.le_min.mpr ⟨hone, hle⟩)
      · have hnil : v.free (lo + bpb) v.sb.size = [] := free_nil fun c h₁ h₂ => by omega
        rw [min_eq_right hle, min_eq_right (hle.trans hone), hnil, append_nil]
    rw [happ, head?_append, ← hgroup, ← hk, ← ih (lo + bpb)]
    cases hg : v.scanGroup lo with
    | some b => rw [scanGroups, hg, Option.some_or]
    | none => rw [scanGroups, hg, Option.none_or]

theorem scanStart_le (v : Vol) : v.scanStart ≤ v.sb.size := by
  unfold scanStart
  split <;> omega

theorem scanStart_aligned (v : Vol) : v.scanStart % bpb = 0 := by
  unfold scanStart
  split
  · exact Nat.zero_mod _
  · exact Nat.mul_mod_left _ _

theorem ceil_mul (lo hi : Nat) (h : lo ≤ hi) : hi ≤ lo + (hi - lo + bpb - 1) / bpb * bpb := by
  unfold bpb
  omega

/-- The two passes together look at the supply. -/
theorem found_eq (v : Vol) : v.found = v.supply.head? := by
  have hle := scanStart_le v
  have h₁ : v.scan v.scanStart v.sb.size = (v.free v.scanStart v.sb.size).head? := by
    rw [scan, scanGroups_eq]
    congr 2
    exact min_eq_right (ceil_mul _ _ hle)
  rw [found, h₁, supply, head?_append]
  cases hf : v.free v.scanStart v.sb.size with
  | cons b bs => rfl
  | nil =>
    -- the first pass saw only set bits, so the second one stops before the start or not at all
    simp only [head?_nil, Option.none_or]
    rw [scan, scanGroups_eq]
    set hi := min (0 + (min (v.scanStart + bpb) v.sb.size - 0 + bpb - 1) / bpb * bpb) v.sb.size with hhi
    have hge : v.scanStart ≤ hi := by
      have := ceil_mul 0 (min (v.scanStart + bpb) v.sb.size) (Nat.zero_le _)
      refine Nat.le_min.mpr ⟨le_trans (Nat.le_min.mpr ⟨Nat.le_add_right _ _, hle⟩) this, hle⟩
    have hnil : v.free v.scanStart hi = [] := by
      refine free_nil fun c h₁ h₂ => ?_
      by_contra hb
      have : c ∈ v.free v.scanStart v.sb.size := mem_free.mpr ⟨h₁, lt_of_lt_of_le h₂ (min_le_right _ _), by simpa using hb⟩
      rw [hf] at this
      cases this
    rw [free_append v 0 v.scanStart hi (Nat.zero_le _) hge, hnil, append_nil]

theorem mem_supply : b ∈ v.supply ↔ b < v.sb.size ∧ v.bit b = false := by
  have hle := scanStart_le v
  rw [supply, mem_append, mem_free, mem_free]
  constructor
  · rintro (⟨-, h₂, h₃⟩ | ⟨-, h₂, h₃⟩)
    · exact ⟨h₂, h₃⟩
    · exact ⟨lt_of_lt_of_le h₂ hle, h₃⟩
  · rintro ⟨h₁, h₂⟩
    rcases lt_or_ge b v.scanStart with h | h
    · exact .inr ⟨Nat.zero_le _, h, h₂⟩
    · exact .inl ⟨h, h₁, h₂⟩

theorem supply_nodup (v : Vol) : v.supply.Nodup := by
  have hr : ∀ lo n, (range' lo n).Nodup := fun lo n => nodup_range'
  refine List.Nodup.append ((hr _ _).filter _) ((hr _ _).filter _) ?_
  intro c h₁ h₂
  have := mem_free.mp h₁
  have := mem_free.mp h₂
  omega

/-- The free blocks of `[lo, hi)` when `b` is the first of them. -/
theorem free_of_first (h : v.free lo hi = b :: bs) :
    lo ≤ b ∧ b < hi ∧ v.bit b = false ∧ (∀ c, lo ≤ c → c < b → v.bit c) ∧ bs = v.free (b + 1) hi := by
  obtain ⟨h₁, h₂, h₃⟩ := mem_free.mp (h ▸ mem_cons_self)
  rw [free_append v lo b hi h₁ h₂.le, free_cons h₂ h₃] at h
  have hnil : v.free lo b = [] := by
    cases hf : v.free lo b with
    | nil => rfl
    | cons c cs =>
      rw [hf] at h
      have hc : c = b := (cons.inj h).1
      have := (mem_free.mp (hf ▸ mem_cons_self)).2.1
      omega
  rw [hnil] at h
  refine ⟨h₁, h₂, h₃, fun c hc hcb => ?_, (cons.inj h).2.symm⟩
  by_contra hbit
  have : c ∈ v.free lo b := mem_free.mpr ⟨hc, hcb, by simpa using hbit⟩
  rw [hnil] at this
  cases this

/-- What is left of the supply once its head `b` is marked and the hint points at it. -/
theorem supply_tail {v' : Vol} (hs : v.supply = b :: bs) (hsb : v'.sb = v.sb) (hh : v'.hint = b)
    (hbit : ∀ c, c < v.sb.size → v'.bit c = if c = b then true else v.bit c) : v'.supply = bs := by
  have hle := scanStart_le v
  have hal := scanStart_aligned v
  have hb : b < v.sb.size := (mem_supply.mp (hs ▸ mem_cons_self)).1
  have hst : v'.scanStart = b / bpb * bpb := by
    have : b / bpb * bpb ≤ b := Nat.div_mul_le_self b bpb
    simp only [scanStart, hsb, hh]
    rw [if_neg (by omega)]
  have hsame : ∀ lo hi, hi ≤ v.sb.size → (b < lo ∨ hi ≤ b) → v'.free lo hi = v.free lo hi := by
    intro lo hi h₁ h₂
    refine free_congr fun c hc hc' => ?_
    rw [hbit c (by omega), if_neg (by omega)]
  have hused : ∀ lo hi, hi ≤ v.sb.size → (∀ c, lo ≤ c → c < hi → c = b ∨ v.bit c) → v'.free lo hi = [] := by
    intro lo hi h₁ h₂
    refine free_nil fun c hc hc' => ?_
    rw [hbit c (by omega)]
    rcases h₂ c hc hc' with rfl | h
    · simp
    · simp [h]
  have hlow : b / bpb * bpb ≤ b := Nat.div_mul_le_self b bpb
  rw [supply, hst, hsb]
  cases hf : v.free v.scanStart v.sb.size with
  | cons d ds =>
    -- found in the first pass
    rw [supply, hf] at hs
    obtain ⟨rfl, hbs⟩ := cons.inj hs
    obtain ⟨h₁, h₂, -, h₄, h₅⟩ := free_of_first hf
    have hst' : v.scanStart ≤ d / bpb * bpb := by
      have := Nat.div_le_div_right (c := bpb) h₁
      calc v.scanStart = v.scanStart / bpb * bpb := by rw [Nat.div_mul_cancel (Nat.dvd_of_mod_eq_zero hal)]
        _ ≤ d / bpb * bpb := Nat.mul_le_mul_right _ this
    rw [free_append v' (d / bpb * bpb) (d + 1) v.sb.size (by omega) h₂, hused _ (d + 1) h₂
      (fun c hc hc' => if h : c = d then .inl h else .inr (h₄ c (by omega) (by omega))),
      hsame (d + 1) _ le_rfl (.inl (Nat.lt_succ_self d)), ← h₅,
      free_append v' 0 v.scanStart (d / bpb * bpb) (Nat.zero_le _) hst', hsame 0 _ hle (.inr h₁),
      hused v.scanStart _ (by omega) (fun c hc hc' => .inr (h₄ c hc (by omega)))]
    simpa using hbs
  | nil =>
    -- found in the second pass, below the start
    rw [supply, hf] at hs
    obtain ⟨-, h₂, -, h₄, h₅⟩ := free_of_first hs
    have hhigh : ∀ c, v.scanStart ≤ c → c < v.sb.size → v.bit c := by
      intro c hc hc'
      by_contra hbit'
      have : c ∈ v.free v.scanStart v.sb.size := mem_free.mpr ⟨hc, hc', by simpa using hbit'⟩
      rw [hf] at this
      cases this
    rw [free_append v' (b / bpb * bpb) (b + 1) v.sb.size (by omega) hb, hused _ (b + 1) hb
      (fun c hc hc' => if h : c = b then .inl h else .inr (h₄ c (by omega) (by omega))),
      free_append v' (b + 1) v.scanStart v.sb.size h₂ hle,
      hsame (b + 1) _ hle (.inl (Nat.lt_succ_self b)), ← h₅,
      hused v.scanStart _ le_rfl (fun c hc hc' => .inr (hhigh c hc hc')),
      hused 0 _ (by omega) (fun c hc hc' => .inr (h₄ c hc (by omega)))]
    simp

/-! ### `balloc` and `bfree` -/

/-- The state after `balloc` found `b`. -/
def took (v : Vol) (b : Nat) : Vol := { (((v.setBit b true).xv6logWrite (v.sb.bblock b)).xv6bzero b) with hint := b }

theorem balloc_nil (h : v.supply = []) : v.balloc = (0, v) := by
  have hfound := found_eq v
  rw [h, head?_nil] at hfound
  rw [balloc, hfound]

theorem balloc_cons (h : v.supply = b :: bs) : v.balloc = (b, v.took b) := by
  have hfound := found_eq v
  rw [h] at hfound
  rw [balloc, hfound]
  rfl

end Vol
end Orthox.Blocks
