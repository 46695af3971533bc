import Mathlib

/-! Wait queues with a fixed number of slots. Registering looks for the task itself and for the first free slot in one pass, and
    reports whether the task is in the queue afterwards; taking all the waiters empties the queue. -/

namespace Schemes
open List Function

variable {τ : Type} [DecidableEq τ] {n : Nat}

/-- The slots of a queue. -/
abbrev WaitQueue (τ : Type) (n : Nat) := Fin n → Option τ

namespace WaitQueue

/-- The task stands in some slot. -/
def Holds (q : WaitQueue τ n) (t : τ) : Prop := ∃ i, q i = some t

instance (q : WaitQueue τ n) (t : τ) : Decidable (q.Holds t) := inferInstanceAs (Decidable (∃ i, q i = some t))

/-- A queue with nobody in it. -/
def init : WaitQueue τ n := fun _ => none

/-- The pass over the slots, with the first free one seen so far. -/
def addFrom (q : WaitQueue τ n) (t : τ) : List (Fin n) → Option (Fin n) → WaitQueue τ n × Bool
  | [], none => (q, false)
  | [], some i => (update q i (some t), true)
  | i :: is, free =>
    if q i = some t then (q, true)
    else addFrom q t is (if q i = none ∧ free = none then some i else free)

/-- Registers a task; `false` says that every slot is taken. -/
def add (q : WaitQueue τ n) (t : τ) : WaitQueue τ n × Bool := q.addFrom t (finRange n) none

/-- Takes a task out of its slots. -/
def remove (q : WaitQueue τ n) (t : τ) : WaitQueue τ n := fun i => if q i = some t then none else q i

/-- All the waiters, and the queue without them. -/
def takeAll (q : WaitQueue τ n) : List τ × WaitQueue τ n := ((finRange n).filterMap q, init)

/-- There is a slot for the task: a free one or its own. -/
def Room (q : WaitQueue τ n) (t : τ) : Prop := q.Holds t ∨ ∃ i, q i = none

instance (q : WaitQueue τ n) (t : τ) : Decidable (q.Room t) := inferInstanceAs (Decidable (_ ∨ ∃ i, q i = none))

/-- What the pass does, given a free slot seen so far: it gains at most the task, loses nobody, and its answer says
    whether the task is there. -/
theorem addFrom_spec (q : WaitQueue τ n) (t : τ) : ∀ (is : List (Fin n)) (free : Option (Fin n)),
    (∀ i ∈ free, q i = none) → (∀ u, q.Holds u → (q.addFrom t is free).1.Holds u) ∧
      ((q.addFrom t is free).2 → (q.addFrom t is free).1.Holds t) ∧
      (free ≠ none ∨ (∃ i ∈ is, q i = none) ∨ (∃ i ∈ is, q i = some t) → (q.addFrom t is free).2)
  | [], none, _ => ⟨fun _ h => h, nofun, by simp⟩
  | [], some i, hfree => by
    refine ⟨fun u hu => ?_, fun _ => ⟨i, update_self _ _ _⟩, fun _ => rfl⟩
    obtain ⟨j, hj⟩ := hu
    have hne : j ≠ i := by
      rintro rfl
      rw [hfree j rfl] at hj
      cases hj
    exact ⟨j, (update_of_ne hne _ _).trans hj⟩
  | i :: is, free, hfree => by
    rw [addFrom]
    split_ifs with hown hslot
    · exact ⟨fun _ h => h, fun _ => ⟨i, hown⟩, fun _ => rfl⟩
    · obtain ⟨hkeep, hin, hok⟩ := addFrom_spec q t is (some i) (by rintro _ ⟨⟩; exact hslot.1)
      exact ⟨hkeep, hin, fun _ => hok (.inl (by simp))⟩
    obtain ⟨hkeep, hin, hok⟩ := addFrom_spec q t is free hfree
    refine ⟨hkeep, hin, fun h => hok ?_⟩
    rcases h with h | ⟨j, hj, hnone⟩ | ⟨j, hj, hsome⟩
    · exact .inl h
    · rcases mem_cons.mp hj with rfl | hj
      · exact .inl fun hf => hslot ⟨hnone, hf⟩
      · exact .inr (.inl ⟨j, hj, hnone⟩)
    rcases mem_cons.mp hj with rfl | hj
    · exact absurd hsome hown
    · exact .inr (.inr ⟨j, hj, hsome⟩)

variable {q : WaitQueue τ n} {t u : τ}

theorem holds_add (t : τ) (h : q.Holds u) : (q.add t).1.Holds u := (addFrom_spec q t _ none nofun).1 u h

/-- The answer says that the task is in the queue. -/
theorem holds_of_add (h : (q.add t).2) : (q.add t).1.Holds t := (addFrom_spec q t _ none nofun).2.1 h

/-- A task for which there is a slot is registered. -/
theorem holds_add_self (h : q.Room t) : (q.add t).1.Holds t := by
  obtain ⟨-, hin, hok⟩ := addFrom_spec q t (finRange n) none nofun
  refine hin (hok (.inr ?_))
  rcases h with ⟨i, hi⟩ | ⟨i, hi⟩
  · exact .inr ⟨i, mem_finRange i, hi⟩
  · exact .inl ⟨i, mem_finRange i, hi⟩

/-- Taking one task out leaves the others. -/
theorem holds_remove (hne : u ≠ t) (h : q.Holds u) : (q.remove t).Holds u := by
  obtain ⟨i, hi⟩ := h
  refine ⟨i, ?_⟩
  rw [remove, if_neg fun ht => hne (Option.some.inj (hi.symm.trans ht))]
  exact hi

omit [DecidableEq τ] in
/-- Every waiter is among those taken. -/
theorem mem_takeAll (h : q.Holds t) : t ∈ q.takeAll.1 := by
  obtain ⟨i, hi⟩ := h
  exact mem_filterMap.mpr ⟨i, mem_finRange i, hi⟩

end WaitQueue
end Schemes
