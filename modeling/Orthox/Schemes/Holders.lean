import Mathlib

/-! Holders of a value: finitely many keys, each with at most one value, and how many keys have a given
    one. A count kept beside the table is right when it follows the table's updates one by one. -/

namespace Schemes
open Function Finset

variable {K V : Type*}

/-- What the keys have after one of them got a new value. -/
theorem update_cases [DecidableEq K] {f : K → V} {k j : K} {x y : V} (h : update f k x j = y) : j = k ∧ x = y ∨ j ≠ k ∧ f j = y :=
  ite_eq_iff.mp ((update_apply ..).symm.trans h)

variable {f : K → Option V}

theorem update_some [DecidableEq K] {k j : K} {x y : V}
    (h : update f k (some x) j = some y) : j = k ∧ y = x ∨ j ≠ k ∧ f j = some y :=
  (update_cases h).imp_left fun h => ⟨h.1, (Option.some.inj h.2).symm⟩

theorem update_none [DecidableEq K] {k j : K} {y : V} (h : update f k none j = some y) : j ≠ k ∧ f j = some y :=
  (update_cases h).resolve_left fun h => nomatch h.2

/-- A step that was taken met its guard. -/
theorem guarded {S : Type*} {p : Prop} [Decidable p] {x s : S} (h : (if p then some x else none) = some s) : p ∧ x = s :=
  (Option.ite_none_right_eq_some.mp h).imp_right Option.some.inj

variable {K V : Type} [Fintype K] [DecidableEq V]

/-- How many keys have the value. -/
def holders (f : K → Option V) (v : V) : Nat := (Finset.univ.filter fun k => f k = some v).card

variable {f : K → Option V} {v : V}

theorem holders_pos {k : K} (h : f k = some v) : 0 < holders f v := card_pos.mpr ⟨k, mem_filter.mpr ⟨mem_univ k, h⟩⟩

theorem holders_eq_zero (h : ∀ k, f k ≠ some v) : holders f v = 0 :=
  card_eq_zero.mpr (filter_eq_empty_iff.mpr fun k _ => h k)

/-- A value with one holder has no other. -/
theorem holder_unique {k k' : K} (hone : holders f v ≤ 1) (hk : f k = some v) (hk' : f k' = some v) : k = k' :=
  card_le_one.mp hone k (mem_filter.mpr ⟨mem_univ k, hk⟩) k' (mem_filter.mpr ⟨mem_univ k', hk'⟩)

/-- Replacing what a key has takes one holder from the old value and gives one to the new. -/
theorem holders_update [DecidableEq K] (f : K → Option V) (k : K) (o : Option V) (v : V) :
    holders (update f k o) v + (if f k = some v then 1 else 0) = holders f v + (if o = some v then 1 else 0) := by
  have hsplit : ∀ g : K → Option V, holders g v = (univ.erase k |>.filter fun j => g j = some v).card +
      (if g k = some v then 1 else 0) := by
    intro g
    rw [holders, ← insert_erase (mem_univ k), filter_insert]
    split_ifs with hk
    · rw [card_insert_of_notMem fun h => absurd (mem_filter.mp h).1 (notMem_erase k _)]
      simp
    · simp
  have hrest : (univ.erase k |>.filter fun j => update f k o j = some v) = (univ.erase k |>.filter fun j => f j = some v) :=
    filter_congr fun j hj => by rw [update_of_ne (ne_of_mem_erase hj)]
  rw [hsplit f, hsplit (update f k o), hrest, update_self]
  omega

end Schemes
