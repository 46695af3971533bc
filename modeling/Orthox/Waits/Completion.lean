import Mathlib

/-! Completions (`kernel/wait.c`). A waiter finds the counter above zero in one section under the queue's lock and takes
    the token in a later one, which takes nothing if the counter is at zero by then and succeeds all the same. So two
    waiters can go with one token. They cannot if each finds a token for itself beside those already found. -/

namespace Orthox.Waits
open Finset

/-- A completion and its waiters: those inside `wait_event`, those that have left it and have not yet taken their token;
    and how many calls of `complete` and successful waits there have been. -/
structure Completion (T : Type) where
  done : Int := 0
  status : Int := 0
  waiting : Finset T := ∅
  passed : Finset T := ∅
  completes : Nat := 0
  successes : Nat := 0

/-- The sections under the lock. A test may find the deadline of `wait_event_timeout` passed. -/
inductive Section (T : Type)
  | enter (t : T)
  | test (t : T) (late : Bool)
  | take (t : T)
  | completeStatus (status : Int)
  | completeAllStatus (status : Int)
  | reinit

namespace Completion
variable {T : Type} [DecidableEq T]

/-- `init_completion` -/
def init : Completion T := {}

def completionDone (c : Completion T) : Bool := 0 < c.done

/-- One section; the counter is an `int`. -/
def step (c : Completion T) : Section T → Completion T
  | .enter t => if t ∈ c.waiting ∪ c.passed then c else { c with waiting := insert t c.waiting }
  | .test t late =>
    if t ∈ c.waiting then
      if c.completionDone then { c with waiting := c.waiting.erase t, passed := insert t c.passed }
      else if late then { c with waiting := c.waiting.erase t }
      else c
    else c
  | .take t =>
    if t ∈ c.passed then
      { c with passed := c.passed.erase t, done := if 0 < c.done then c.done - 1 else c.done, successes := c.successes + 1 }
    else c
  | .completeStatus status => { c with status, done := (c.done + 1).bmod (2 ^ 32), completes := c.completes + 1 }
  | .completeAllStatus status => { c with status, done := 0x7fffffff }
  | .reinit => { c with done := 0, status := 0 }

def run : Completion T → List (Section T) → Completion T := List.foldl step

/-- A test does not find a token that another waiter has found and not yet taken; the counter does not overflow; it is
    not set by `complete_all` or `reinit_completion`. -/
def Spares (c : Completion T) : Section T → Bool
  | .test _ _ => c.done ≤ 0 ∨ c.passed.card < c.done
  | .completeStatus _ => c.done < 0x7fffffff
  | .completeAllStatus _ | .reinit => false
  | _ => true

/-- Every section of the run does. -/
def SparesAll : Completion T → List (Section T) → Bool
  | _, [] => true
  | c, e :: es => c.Spares e && (c.step e).SparesAll es

/-- The counter is completes minus successful waits, and holds a token for every waiter that has found one. -/
structure Counted (c : Completion T) : Prop where
  done : c.done = c.completes - c.successes
  passed : c.passed.card ≤ c.done

theorem Counted.step {c : Completion T} (h : c.Counted) {e : Section T} (he : c.Spares e) : (c.step e).Counted := by
  obtain ⟨hdone, hpass⟩ := h
  cases e with
  | enter t =>
    rw [Completion.step]
    split_ifs <;> exact ⟨hdone, hpass⟩
  | test t late =>
    have hle := card_insert_le t c.passed
    simp only [Spares, decide_eq_true_eq] at he
    rw [Completion.step, completionDone]
    split_ifs with _ hd <;> refine ⟨hdone, ?_⟩ <;> try exact hpass
    rw [decide_eq_true_eq] at hd
    dsimp only
    omega
  | take t =>
    rw [Completion.step]
    split_ifs with ht hd
    · have hcard := card_erase_add_one ht
      constructor <;> dsimp only <;> omega
    · exact absurd (card_pos.mpr ⟨t, ht⟩) (by omega)
    · exact ⟨hdone, hpass⟩
  | completeStatus status =>
    simp only [Spares, decide_eq_true_eq] at he
    have hb : (c.done + 1).bmod (2 ^ 32) = c.done + 1 := Int.bmod_eq_of_le (by omega) (by omega)
    constructor <;> simp only [Completion.step] <;> omega
  | completeAllStatus status => cases he
  | reinit => cases he

theorem Counted.run {c : Completion T} (h : c.Counted) {es : List (Section T)} (hes : c.SparesAll es) : (c.run es).Counted := by
  induction es generalizing c with
  | nil => exact h
  | cons e es ih =>
    simp only [SparesAll, Bool.and_eq_true] at hes
    exact ih (h.step hes.1) hes.2

/-- CORRECT when no waiter finds another's token: no more waits succeed than there were calls of `complete`, and the
    counter is the difference. -/
theorem completions_counted (es : List (Section T)) (hes : (init : Completion T).SparesAll es = true) :
    (init.run es).successes ≤ (init.run es).completes ∧
      (init.run es).done = (init.run es).completes - (init.run es).successes := by
  have h : (init.run es).Counted := .run ⟨rfl, le_rfl⟩ hes
  exact ⟨by have := h.done; have := h.passed; omega, h.done⟩

theorem completions_counted_one : (init.run [.enter true, .completeStatus 0, .test true false, .take true]).successes ≤ 1 :=
  (completions_counted [.enter true, .completeStatus 0, .test true false, .take true] (by decide)).1

/-- INCORRECT in general: two waiters find the one token before either takes it. -/
theorem token_taken_twice : ∃ es : List (Section Bool), (init.run es).completes = 1 ∧ (init.run es).successes = 2 :=
  ⟨[.enter true, .enter false, .completeStatus 0, .test true false, .test false false, .take true, .take false], by decide⟩

end Completion
end Orthox.Waits
