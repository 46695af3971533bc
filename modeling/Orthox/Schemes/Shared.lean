import Orthox.Schemes.Holders

/-! Objects shared by a count of references. Keys hold objects; while an object is held it is counted in some totals. A
    key that lets go of an object takes off one reference, and with the last one the object leaves its totals. -/

namespace Schemes
open List Function

variable {K C : Type} [DecidableEq K]

/-- The objects, by numbers: which key holds which, the totals an object is counted in, its references, the objects that
    exist, and the totals. -/
structure Shared (K C : Type) where
  held : K → Option Nat
  marks : Nat → C → Bool
  refs : Nat → Nat
  live : List Nat
  count : C → Nat

namespace Shared

/-- No objects. -/
def empty : Shared K C := ⟨fun _ => none, fun _ _ => false, fun _ => 0, [], fun _ => 0⟩

/-- A new object behind a key. -/
def make (x : Shared K C) (k : K) (f : Nat) (m : C → Bool) : Shared K C where
  held := update x.held k (some f)
  marks := update x.marks f m
  refs := update x.refs f 1
  live := f :: x.live
  count := fun c => if m c then x.count c + 1 else x.count c

/-- Another key for an object. -/
def share (x : Shared K C) (k : K) (f : Nat) : Shared K C :=
  { x with held := update x.held k (some f), refs := update x.refs f (x.refs f + 1) }

/-- One reference less. -/
def put (x : Shared K C) (f : Nat) : Shared K C :=
  let x' := { x with refs := update x.refs f (x.refs f - 1) }
  if 0 < x.refs f - 1 then x'
  else { x' with live := x.live.erase f, count := fun c => if x.marks f c then x.count c - 1 else x.count c }

/-- A key lets go of its object. -/
def drop (x : Shared K C) (k : K) : Shared K C :=
  match x.held k with
  | none => x
  | some f => { x with held := update x.held k none }.put f

/-- References count keys, objects exist as long as they are referred to, and totals count objects. -/
structure Sound [Fintype K] (x : Shared K C) : Prop where
  refs : ∀ f, x.refs f = holders x.held f
  live : ∀ f, f ∈ x.live ↔ 0 < x.refs f
  nodup : x.live.Nodup
  count : ∀ c, x.count c = x.live.countP fun f => x.marks f c

theorem drop_held (x : Shared K C) (k j : K) : (x.drop k).held j = if j = k then none else x.held j := by
  unfold drop
  split
  · rename_i hk
    split
    · rename_i h
      rw [h, hk]
    · rfl
  · unfold put
    split <;> exact update_apply ..

theorem drop_marks (x : Shared K C) (k : K) : (x.drop k).marks = x.marks := by
  unfold drop
  split
  · rfl
  unfold put
  split <;> rfl

namespace Sound
variable [Fintype K] {x : Shared K C} {k : K} {f : Nat}

omit [DecidableEq K] in
theorem empty : (.empty : Shared K C).Sound :=
  ⟨fun _ => (holders_eq_zero nofun).symm, fun _ => ⟨nofun, nofun⟩, nodup_nil, fun _ => rfl⟩

section
variable (h : x.Sound)
include h

omit [DecidableEq K] in
/-- An object that is not there is held by nobody. -/
theorem not_held (hf : f ∉ x.live) (k : K) : x.held k ≠ some f := by
  intro hk
  have hpos := holders_pos hk
  rw [← h.refs] at hpos
  exact hf ((h.live f).mpr hpos)

theorem make (hk : x.held k = none) (hf : f ∉ x.live) (m : C → Bool) : (x.make k f m).Sound where
  refs g := by
    have hupd := holders_update x.held k (some f) g
    rw [hk, if_neg nofun] at hupd
    simp only [Shared.make]
    rcases eq_or_ne g f with rfl | hne
    · rw [update_self]
      rw [if_pos rfl, holders_eq_zero (h.not_held hf)] at hupd
      omega
    rw [update_of_ne hne, h.refs]
    rw [if_neg (by simpa using hne.symm)] at hupd
    omega
  live g := by
    simp only [Shared.make]
    rcases eq_or_ne g f with rfl | hne
    · simp
    · rw [update_of_ne hne, ← h.live]
      simp [hne]
  nodup := nodup_cons.mpr ⟨hf, h.nodup⟩
  count c := by
    have hrest : x.live.countP (fun g => update x.marks f m g c) = x.live.countP fun g => x.marks g c :=
      countP_congr fun g hg => by rw [update_of_ne (ne_of_mem_of_not_mem hg hf)]
    simp only [Shared.make, countP_cons, hrest, ← h.count]
    split <;> simp_all

theorem share {j : K} (hj : x.held j = some f) (hk : x.held k = none) : (x.share k f).Sound where
  refs g := by
    have hupd := holders_update x.held k (some f) g
    rw [hk, if_neg nofun] at hupd
    simp only [Shared.share]
    rcases eq_or_ne g f with rfl | hne
    · rw [update_self, h.refs]
      rw [if_pos rfl] at hupd
      omega
    rw [update_of_ne hne, h.refs]
    rw [if_neg (by simpa using hne.symm)] at hupd
    omega
  live g := by
    simp only [Shared.share]
    rcases eq_or_ne g f with rfl | hne
    · have hpos := holders_pos hj
      rw [← h.refs] at hpos
      rw [update_self, h.live]
      omega
    · rw [update_of_ne hne, h.live]
  nodup := h.nodup
  count := h.count

/-- The references after a key let go. -/
theorem refs_dropped (hk : x.held k = some f) (g : Nat) :
    update x.refs f (x.refs f - 1) g = holders (update x.held k none) g := by
  have hupd := holders_update x.held k none g
  rw [hk, if_neg (show none ≠ some g from nofun)] at hupd
  rcases eq_or_ne g f with rfl | hne
  · rw [update_self, h.refs]
    rw [if_pos rfl] at hupd
    omega
  rw [update_of_ne hne, h.refs]
  rw [if_neg (by simpa using hne.symm)] at hupd
  omega

theorem drop (k : K) : (x.drop k).Sound := by
  unfold Shared.drop
  split
  · exact h
  rename_i f hk
  have hpos := holders_pos hk
  rw [← h.refs] at hpos
  unfold put
  simp only
  split
  · rename_i hmore
    refine ⟨h.refs_dropped hk, fun g => ?_, h.nodup, h.count⟩
    simp only
    rcases eq_or_ne g f with rfl | hne
    · rw [update_self, h.live]
      omega
    · rw [update_of_ne hne, h.live]
  · rename_i hlast
    refine ⟨h.refs_dropped hk, fun g => ?_, h.nodup.erase f, fun c => ?_⟩
    · rcases eq_or_ne g f with rfl | hne
      · simp only [update_self, h.nodup.mem_erase_iff]
        omega
      · simp only [h.nodup.mem_erase_iff, update_of_ne hne, h.live, ne_eq, hne, not_false_eq_true, true_and]
    · have hlive := (h.live f).mpr hpos
      simp only [countP_erase, hlive, true_and, ← h.count]
      split
      · rfl
      · rfl

omit [DecidableEq K] in
/-- Totals count the objects that the keys in `S` hold, if the others hold none that is counted. -/
theorem count_eq {S : K → Prop} [DecidablePred S] {c : C} (hS : ∀ k f, ¬ S k → x.held k = some f → x.marks f c = false) :
    x.count c = x.live.countP fun f => x.marks f c && decide (∃ k, S k ∧ x.held k = some f) := by
  rw [h.count]
  refine countP_congr fun f hf => ?_
  rw [Bool.and_eq_true, decide_eq_true_eq]
  refine ⟨fun hm => ⟨hm, ?_⟩, And.left⟩
  have hpos := (h.live f).mp hf
  rw [h.refs] at hpos
  obtain ⟨k, hk⟩ := Finset.card_pos.mp hpos
  have hk := (Finset.mem_filter.mp hk).2
  by_contra hno
  have := hS k f (fun hs => hno ⟨k, hs, hk⟩) hk
  rw [hm] at this
  cases this

end

end Sound
end Shared
end Schemes
