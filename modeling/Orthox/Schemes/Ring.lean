import Mathlib

/-! Ring buffers. A fixed array read at one position and written at another; the number of stored values
    says how far apart the two are. The positions cannot be out of step, since the structure carries the
    equation between them. What is stored, in order, is `contents`. -/

namespace Schemes
open List Function

variable {α : Type} {n : Nat}

/-- A ring of `n` cells. -/
structure Ring (α : Type) (n : Nat) where
  buffer : Fin n → α
  readPos : Nat
  writePos : Nat
  count : Nat
  readPos_lt : readPos < n
  count_le : count ≤ n
  writePos_eq : writePos = (readPos + count) % n

namespace Ring

theorem pos (r : Ring α n) : 0 < n := lt_of_le_of_lt (Nat.zero_le _) r.readPos_lt

theorem writePos_lt (r : Ring α n) : r.writePos < n := r.writePos_eq ▸ Nat.mod_lt _ r.pos

/-- A ring with nothing stored; the cells hold whatever was there. -/
def empty (buffer : Fin n → α) (h : 0 < n) : Ring α n where
  buffer := buffer
  readPos := 0
  writePos := 0
  count := 0
  readPos_lt := h
  count_le := Nat.zero_le n
  writePos_eq := (Nat.zero_mod n).symm

/-- The cell `i` places after the read position. -/
def cell (r : Ring α n) (i : Nat) : Fin n := ⟨(r.readPos + i) % n, Nat.mod_lt _ r.pos⟩

/-- What is stored, oldest first. -/
def contents (r : Ring α n) : List α := (range r.count).map fun i => r.buffer (r.cell i)

@[simp] theorem length_contents (r : Ring α n) : r.contents.length = r.count := by simp [contents]

/-- Cells less than a whole turn apart are different. -/
theorem cell_inj (r : Ring α n) {i j : Nat} (hi : i < n) (hj : j < n) (h : r.cell i = r.cell j) : i = j := by
  have hmod : r.readPos + i ≡ r.readPos + j [MOD n] := Fin.mk.inj h
  exact Nat.ModEq.eq_of_lt_of_lt (Nat.ModEq.add_left_cancel' _ hmod) hi hj

/-- Stores one value at the write position. -/
def push (r : Ring α n) (x : α) (h : r.count < n) : Ring α n where
  buffer := update r.buffer ⟨r.writePos, r.writePos_lt⟩ x
  readPos := r.readPos
  writePos := (r.writePos + 1) % n
  count := r.count + 1
  readPos_lt := r.readPos_lt
  count_le := h
  writePos_eq := by rw [r.writePos_eq, Nat.mod_add_mod, Nat.add_assoc]

theorem contents_push (r : Ring α n) (x : α) (h : r.count < n) : (r.push x h).contents = r.contents ++ [x] := by
  have hcell : (⟨r.writePos, r.writePos_lt⟩ : Fin n) = r.cell r.count := Fin.ext r.writePos_eq
  have hstored : ∀ i ∈ range r.count, (r.push x h).buffer (r.cell i) = r.buffer (r.cell i) := by
    intro i hi
    have hlt := mem_range.mp hi
    refine update_of_ne (fun heq => ?_) _ _
    exact absurd (r.cell_inj (by omega) h (heq.trans hcell)) (by omega)
  have hlast : (r.push x h).buffer (r.cell r.count) = x := by
    rw [← hcell]
    exact update_self _ _ _
  calc (r.push x h).contents = (range (r.count + 1)).map fun i => (r.push x h).buffer (r.cell i) := rfl
    _ = ((range r.count).map fun i => (r.push x h).buffer (r.cell i)) ++ [x] := by
      rw [range_succ, map_append, map_singleton, hlast]
    _ = r.contents ++ [x] := by rw [map_congr_left hstored, contents]

/-- Takes the value at the read position. -/
def pop (r : Ring α n) (h : 0 < r.count) : α × Ring α n :=
  (r.buffer ⟨r.readPos, r.readPos_lt⟩,
   { buffer := r.buffer
     readPos := (r.readPos + 1) % n
     writePos := r.writePos
     count := r.count - 1
     readPos_lt := Nat.mod_lt _ r.pos
     count_le := Nat.le_trans (Nat.sub_le _ _) r.count_le
     writePos_eq := by
       rw [r.writePos_eq, Nat.mod_add_mod, show r.readPos + 1 + (r.count - 1) = r.readPos + r.count by omega] })

theorem contents_pop (r : Ring α n) (h : 0 < r.count) : r.contents = (r.pop h).1 :: (r.pop h).2.contents := by
  obtain ⟨k, hk⟩ : ∃ k, r.count = k + 1 := ⟨r.count - 1, by omega⟩
  have hfirst : r.cell 0 = ⟨r.readPos, r.readPos_lt⟩ := Fin.ext (Nat.mod_eq_of_lt r.readPos_lt)
  have hnext : ∀ i, r.cell (i + 1) = (r.pop h).2.cell i := by
    intro i
    refine Fin.ext ?_
    change (r.readPos + (i + 1)) % n = ((r.readPos + 1) % n + i) % n
    rw [Nat.mod_add_mod, add_assoc, add_comm i 1]
  have hcount : (r.pop h).2.count = k := by
    change r.count - 1 = k
    omega
  rw [contents, hk, range_succ_eq_map, map_cons, hfirst, map_map, contents, hcount]
  refine congrArg (_ :: ·) (map_congr_left fun i _ => ?_)
  exact congrArg r.buffer (hnext i)

/-- Stores values until they or the room run out; the rest comes back. -/
def fill (r : Ring α n) : List α → Ring α n × List α
  | [] => (r, [])
  | x :: xs => if h : r.count < n then (r.push x h).fill xs else (r, x :: xs)

theorem fill_spec : ∀ (xs : List α) (r : Ring α n),
    (r.fill xs).1.contents = r.contents ++ xs.take (n - r.count) ∧ (r.fill xs).2 = xs.drop (n - r.count)
  | [], r => by simp [fill]
  | x :: xs, r => by
    rw [fill]
    split
    case isTrue h =>
      obtain ⟨hc, hrest⟩ := fill_spec xs (r.push x h)
      have hroom : n - r.count = n - (r.push x h).count + 1 := by
        change n - r.count = n - (r.count + 1) + 1
        omega
      rw [hc, hrest, contents_push, hroom, append_assoc]
      exact ⟨rfl, rfl⟩
    case isFalse h =>
      rw [show n - r.count = 0 by omega]
      simp

/-- Takes up to `k` values. -/
def drain (r : Ring α n) : Nat → List α × Ring α n
  | 0 => ([], r)
  | k + 1 => if h : 0 < r.count then ((r.pop h).1 :: ((r.pop h).2.drain k).1, ((r.pop h).2.drain k).2) else ([], r)

theorem drain_spec : ∀ (k : Nat) (r : Ring α n), (r.drain k).1 = r.contents.take k ∧ (r.drain k).2.contents = r.contents.drop k
  | 0, r => by simp [drain]
  | k + 1, r => by
    rw [drain]
    split
    case isTrue h =>
      obtain ⟨hout, hrest⟩ := drain_spec k (r.pop h).2
      rw [contents_pop r h, take_succ_cons]
      exact ⟨congrArg (_ :: ·) hout, hrest⟩
    case isFalse h =>
      have hnil : r.contents = [] := eq_nil_of_length_eq_zero (by rw [length_contents]; omega)
      simp [hnil]

end Ring
end Schemes
