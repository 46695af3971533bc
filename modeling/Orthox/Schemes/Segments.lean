import Mathlib

/-! Lists cut at a separator, and walks over the pieces. `segments` are the non-empty pieces, `spell` puts a separator
    before each. A walk collects pieces; one of them stays where it is and one goes back a piece. -/

namespace Schemes
open List

variable {α : Type*} [DecidableEq α] {sep : α}

/-- The non-empty pieces between separators. -/
def segments (sep : α) (l : List α) : List (List α) := (l.splitOn sep).filter (· ≠ [])

/-- A piece: not empty, and without separator. -/
def Piece (sep : α) (x : List α) : Prop := x ≠ [] ∧ sep ∉ x

/-- The pieces, each after a separator. -/
def spell (sep : α) (xs : List (List α)) : List α := xs.flatMap (sep :: ·)

@[simp]
theorem segments_nil (sep : α) : segments sep [] = [] := rfl

/-- A separator cuts. -/
theorem segments_append_sep (l m : List α) : segments sep (l ++ sep :: m) = segments sep l ++ segments sep m := by
  rw [segments, splitOn_append_cons_self, filter_append]
  rfl

@[simp]
theorem segments_sep_cons (l : List α) : segments sep (sep :: l) = segments sep l := segments_append_sep [] l

/-- A separator at the end says nothing. -/
theorem segments_concat_sep (l : List α) : segments sep (l ++ [sep]) = segments sep l := by
  rw [segments_append_sep, segments_nil, append_nil]

variable {l x : List α}

theorem Piece.segments (h : Piece sep x) : segments sep x = [x] := by
  rw [Schemes.segments, splitOn_eq_singleton h.2]
  simp [h.1]

/-- A piece that ends the list or is followed by a separator. -/
theorem Piece.segments_append (h : Piece sep x) (hl : l = [] ∨ l.head? = some sep) :
    Schemes.segments sep (x ++ l) = x :: Schemes.segments sep l := by
  rcases l with - | ⟨c, l⟩
  · rw [append_nil, h.segments, segments_nil]
  obtain rfl : c = sep := by simpa using hl
  rw [segments_append_sep, h.segments, segments_sep_cons]
  rfl

theorem piece_of_mem_segments (h : x ∈ segments sep l) : Piece sep x := by
  obtain ⟨hx, hne⟩ := mem_filter.mp h
  refine ⟨by simpa using hne, ?_⟩
  clear h hne
  simp only [splitOn] at hx
  induction l generalizing x with
  | nil =>
    obtain rfl : x = [] := by simpa using hx
    exact not_mem_nil
  | cons c l ih =>
    rw [splitOnP_cons_eq_if_modifyHead] at hx
    split at hx
    · rcases mem_cons.mp hx with rfl | hx
      · exact not_mem_nil
      · exact ih hx
    rename_i hc
    rcases hl : l.splitOnP (· == sep) with - | ⟨y, ys⟩
    · exact absurd hl (splitOnP_ne_nil _ _)
    rw [hl] at hx
    rcases mem_cons.mp hx with rfl | hx
    · intro hmem
      rcases mem_cons.mp hmem with rfl | hmem
      · exact hc (beq_self_eq_true _)
      · exact ih (hl ▸ mem_cons_self) hmem
    · exact ih (hl ▸ mem_cons_of_mem _ hx)

theorem segments_dropWhile (l : List α) : segments sep (l.dropWhile (· = sep)) = segments sep l := by
  induction l with
  | nil => rfl
  | cons c l ih =>
    rcases eq_or_ne c sep with rfl | hc
    · rw [dropWhile_cons_of_pos (by simp), ih, segments_sep_cons]
    · rw [dropWhile_cons_of_neg (by simpa using hc)]

/-- The first piece of a list, and what follows it. -/
theorem segments_next (h : l.dropWhile (· = sep) ≠ []) :
    ∃ x rest, l.dropWhile (· = sep) = x ++ rest ∧ (l.dropWhile (· = sep)).takeWhile (· ≠ sep) = x ∧ Piece sep x ∧
      (rest = [] ∨ rest.head? = some sep) ∧ segments sep l = x :: segments sep rest ∧ x.length + rest.length ≤ l.length := by
  obtain ⟨c, m, hm⟩ := exists_cons_of_ne_nil h
  have hc : c ≠ sep := by
    have hhead := head?_dropWhile_not (fun a => decide (a = sep)) l
    rw [hm] at hhead
    simpa using hhead
  have hx : Piece sep ((c :: m).takeWhile (· ≠ sep)) := by
    refine ⟨?_, fun hmem => ?_⟩
    · rw [takeWhile_cons_of_pos (by simpa using hc)]
      exact cons_ne_nil _ _
    · simpa using all_eq_true.mp all_takeWhile _ hmem
  have hrest : (c :: m).dropWhile (· ≠ sep) = [] ∨ ((c :: m).dropWhile (· ≠ sep)).head? = some sep := by
    have hhead := head?_dropWhile_not (fun a => decide (a ≠ sep)) (c :: m)
    rcases hd : (c :: m).dropWhile (· ≠ sep) with - | ⟨d, rest⟩
    · exact .inl rfl
    · rw [hd] at hhead
      exact .inr (by simpa using hhead)
  have hsplit : (c :: m).takeWhile (· ≠ sep) ++ (c :: m).dropWhile (· ≠ sep) = c :: m := takeWhile_append_dropWhile
  refine ⟨_, _, hm ▸ hsplit.symm, by rw [hm], hx, hrest, ?_, ?_⟩
  · rw [← segments_dropWhile l, hm]
    nth_rewrite 1 [← hsplit]
    exact hx.segments_append hrest
  · rw [← length_append, hsplit, ← hm]
    exact (dropWhile_sublist _).length_le

/-! ### Spelling -/

omit [DecidableEq α] in
theorem spell_concat (xs : List (List α)) (x : List α) : spell sep (xs ++ [x]) = spell sep xs ++ sep :: x := by
  simp [spell]

omit [DecidableEq α] in
theorem spell_eq_nil_or (xs : List (List α)) : spell sep xs = [] ∨ (spell sep xs).head? = some sep := by
  cases xs with
  | nil => exact .inl rfl
  | cons x xs => exact .inr rfl

/-- Pieces that are spelled out can be read again. -/
theorem segments_spell {xs : List (List α)} (h : ∀ x ∈ xs, Piece sep x) : segments sep (spell sep xs) = xs := by
  induction xs with
  | nil => rfl
  | cons x xs ih =>
    obtain ⟨hx, hxs⟩ := forall_mem_cons.mp h
    have hspell : spell sep (x :: xs) = sep :: (x ++ spell sep xs) := rfl
    rw [hspell, segments_sep_cons, hx.segments_append (spell_eq_nil_or xs), ih hxs]

/-! ### Walks -/

section
variable {β : Type*} [DecidableEq β] {here up : β}

/-- One piece of a walk. -/
def climb (here up : β) (st : List β) (x : β) : List β :=
  if x = here then st else if x = up then st.dropLast else st ++ [x]

/-- A whole walk. -/
def climbed (here up : β) (xs : List β) : List β := xs.foldl (climb here up) []

variable {st xs : List β} {y : β}

theorem foldl_climb_plain (h : ∀ x ∈ xs, x ≠ here ∧ x ≠ up) (st : List β) : xs.foldl (climb here up) st = st ++ xs := by
  induction xs generalizing st with
  | nil => simp
  | cons x xs ih =>
    obtain ⟨hx, hxs⟩ := forall_mem_cons.mp h
    rw [foldl_cons, ih hxs, climb, if_neg hx.1, if_neg hx.2, append_assoc]
    rfl

/-- A step collects `x` at most, and neither special piece. -/
theorem mem_climb {x : β} (h : y ∈ climb here up st x) : y ∈ st ∨ y = x ∧ x ≠ here ∧ x ≠ up := by
  unfold climb at h
  split at h
  · exact .inl h
  split at h
  · exact .inl (dropLast_subset _ h)
  rcases mem_append.mp h with h | h
  · exact .inl h
  · exact .inr ⟨mem_singleton.mp h, ‹_›, ‹_›⟩

theorem mem_foldl_climb (h : y ∈ xs.foldl (climb here up) st) : y ∈ st ∨ y ∈ xs ∧ y ≠ here ∧ y ≠ up := by
  induction xs generalizing st with
  | nil => exact .inl h
  | cons x xs ih =>
    rcases ih h with hst | ⟨hxs, hne⟩
    · rcases mem_climb hst with hst | ⟨rfl, hne⟩
      · exact .inl hst
      · exact .inr ⟨mem_cons_self, hne⟩
    · exact .inr ⟨mem_cons_of_mem _ hxs, hne⟩

theorem mem_climbed (h : y ∈ climbed here up xs) : y ∈ xs ∧ y ≠ here ∧ y ≠ up :=
  (mem_foldl_climb h).resolve_left not_mem_nil

/-- Where a walk ends can be walked to directly. -/
theorem climbed_idem (xs : List β) : climbed here up (climbed here up xs) = climbed here up xs :=
  foldl_climb_plain (fun _ hx => (mem_climbed hx).2) []

end

end Schemes
