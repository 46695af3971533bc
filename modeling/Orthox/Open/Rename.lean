import Orthox.Open.Names

/-! Moving a directory of ramfs. A file of ramfs is a slot with its full path, so `fs_rename` of a directory rewrites the
    name of everything below it. It looks first whether all new names fit, and only then begins to write. -/

namespace Orthox.Open
open Blocks List

/-- No two files of the table have one name, and names fit their arrays. -/
structure World.Named (w : World) : Prop where
  unique : ∀ s t, (w.slots s).inUse → (w.slots t).inUse → (w.slots s).name = (w.slots t).name → s = t
  short : ∀ s, (w.slots s).name.length < 64

/-- The file is the directory or stands below it. -/
def Slot.inTree (x : Slot) (dir : Path) : Bool := x.inUse && (decide (x.name = dir) || pathIsUnder dir x.name)

/-- The name with the prefix replaced. -/
def Slot.moved (x : Slot) (old new : Path) : Slot := { x with name := new ++ x.name.drop old.length }

/-- After the rename: the directory and what is below it have moved, an empty directory that had the new name is gone, and
    every other file is as before. -/
def Moved (old new : Path) (w w' : World) : Prop := ∀ k < maxRamfsFiles,
  w'.slots k = if (w.slots k).inTree old then (w.slots k).moved old new
    else if (w.slots k).inUse ∧ (w.slots k).name = new then (w.ramfsFreeEntry k).slots k else w.slots k

theorem pathIsUnder_iff {parent child : Path} : pathIsUnder parent child ↔ ∃ rest, child = parent ++ 47 :: rest := by
  induction parent generalizing child with
  | nil => cases child <;> simp [pathIsUnder]
  | cons p parent ih => cases child <;> simp [pathIsUnder, ih, @eq_comm _ p]

theorem not_under_self (p : Path) : pathIsUnder p p = false := by
  rw [← Bool.not_eq_true, pathIsUnder_iff]
  rintro ⟨rest, h⟩
  simpa using congrArg length h

namespace World
variable {w : World} {old new : Path} {s : Nat}

theorem findRamfs_some (h : w.findRamfs old = some s) : s < maxRamfsFiles ∧ (w.slots s).inUse ∧ (w.slots s).name = old := by
  have hs := find?_some h
  simp only [Bool.and_eq_true, decide_eq_true_eq] at hs
  exact ⟨mem_range.mp (mem_of_find?_eq_some h), hs⟩

/-- What the last part of `fs_rename` does, once nothing is refused. -/
theorem moved_of_rename (hw : w.Named) (hs : w.findRamfs old = some s) (hne : new ≠ old) (hunder : pathIsUnder old new = false) :
    let w' := ((w.findRamfs new).filter (· ≠ s)).elim w w.ramfsFreeEntry
    let w'' := w'.ramfsRenameSubtree old new
    Moved old new w (w''.setSlot s { w''.slots s with name := new }) := by
  obtain ⟨-, huse, hname⟩ := findRamfs_some hs
  intro w' w'' k hk
  -- the table without the file that is replaced
  have hw' : w'.slots k = if (w.slots k).inUse ∧ (w.slots k).name = new then (w.ramfsFreeEntry k).slots k else w.slots k := by
    rcases hfind : w.findRamfs new with - | t
    · have hnone := find?_eq_none.mp hfind k (mem_range.mpr hk)
      simp_all [w']
    obtain ⟨-, htuse, htname⟩ := findRamfs_some hfind
    have hts : t ≠ s := by
      rintro rfl
      exact hne (htname.symm.trans hname)
    rcases eq_or_ne k t with rfl | hkt
    · simp [w', hfind, hts, htuse, htname, Option.filter]
    · have hno : ¬ ((w.slots k).inUse ∧ (w.slots k).name = new) := fun h => hkt (hw.unique k t h.1 htuse (h.2.trans htname.symm))
      simp [w', hfind, hts, hno, ramfsFreeEntry, setSlot, hkt, Option.filter]
  have hw'' : w''.slots k = if (w'.slots k).inUse ∧ pathIsUnder old (w'.slots k).name then (w'.slots k).moved old new else w'.slots k := by
    simp [w'', ramfsRenameSubtree, hk, Slot.moved]
  rcases eq_or_ne k s with rfl | hks
  · have hold : w''.slots k = w.slots k := by simp [hw'', hw', hname, symm hne, not_under_self]
    simp [setSlot, hold, Slot.inTree, Slot.moved, huse, hname]
  have hother : (w.slots k).inUse → (w.slots k).name ≠ old := fun hk hn => hks (hw.unique k s hk huse (hn.trans hname.symm))
  simp only [setSlot, Function.update_of_ne hks, hw'', hw', Slot.inTree]
  by_cases hnew : (w.slots k).inUse ∧ (w.slots k).name = new
  · simp [hnew, hne, hunder, ramfsFreeEntry, setSlot]
  · by_cases hu : (w.slots k).inUse <;> simp_all

/-- Every name fits after the rename. -/
def Fits (w : World) (old new : Path) : Prop :=
  ∀ k < maxRamfsFiles, (w.slots k).inTree old = true → ((w.slots k).moved old new).name.length < 64

/-- How a rename of a directory may end: it moved, or nothing has changed; and it did not move if a name would not fit. -/
structure Renames (old new : Path) (w : World) (r : Int × World) : Prop where
  moved : r.1 = 0 → Moved old new w r.2
  refused : r.1 ≠ 0 → r.2 = w
  long : ¬ w.Fits old new → r.1 < 0

theorem Renames.error {e : Int} (he : 0 < e) : Renames old new w (-e, w) :=
  ⟨fun h => by simp only at h; omega, fun _ => rfl, fun _ => by simp only; omega⟩

theorem moved_self {x : Slot} (h : x.inTree old) : x.moved old old = x := by
  simp only [Slot.inTree, Bool.and_eq_true, Bool.or_eq_true, decide_eq_true_eq, pathIsUnder_iff] at h
  obtain ⟨-, h | ⟨rest, h⟩⟩ := h <;> cases x <;> simp_all [Slot.moved]

/-- CORRECT but for the file that is replaced: a rename of a ramfs directory moves it and what is below it, removes an empty
    directory that had the new name, and changes no other file; one that is refused changes nothing, and one that would
    leave a name too long is refused. -/
theorem rename_moves_subtree (hw : w.Named) (hs : w.findRamfs old = some s) (hdir : isDir (w.slots s).mode = true)
    (hunder : pathIsUnder old new = false) (rename : Option Done) : Renames old new w (w.fsRename old new rename) := by
  simp only [fsRename, hs, hunder, hdir, true_and, not_true, false_and, Bool.false_eq_true, if_false, if_true]
  split_ifs with _ hsame _ _ _ _ hlong hfits
  case pos => exact .error (by decide)
  case pos =>
    subst hsame
    refine ⟨fun _ k _ => ?_, fun _ => rfl, fun hlong => (hlong fun k _ hk => ?_).elim⟩
    · split_ifs with hk hk'
      · exact (moved_self hk).symm
      · simp [Slot.inTree, hk'] at hk
      · rfl
    · rw [moved_self hk]
      exact hw.short k
  case neg =>
    refine ⟨fun _ => moved_of_rename hw hs (.symm hsame) hunder, fun h => absurd rfl h, fun hno => (hno fun k hk hin => ?_).elim⟩
    have hall : w.subtreeFits old new := by simpa using hfits
    have hk' := all_eq_true.mp hall k (mem_range.mpr hk)
    simp only [Slot.inTree, Slot.moved, Bool.and_eq_true, Bool.or_eq_true, decide_eq_true_eq] at hin ⊢
    obtain ⟨huse, hk | hk⟩ := hin
    · simp [hk]
      omega
    · simp [huse, hk] at hk' ⊢
      omega
  all_goals exact .error (by decide)

end World

/-- Two directories of ramfs: `d` with a file in it, and `e`, which is empty. -/
def twoDirs : World where
  vol := tiny 9
  lookup := fun _ => none
  heap := ⟨fun _ _ => true, 0⟩
  slots
    | 0 => ⟨true, [100], 0o040755, 0, .empty, 0⟩
    | 1 => ⟨true, [101], 0o040755, 0, .empty, 1⟩
    | 2 => ⟨true, [100, 47, 102], 0o100644, 0, .empty, 2⟩
    | _ => ⟨false, [], 0, 0, .empty, 0⟩
  modules := fun _ => none

theorem twoDirs_named : twoDirs.Named := by
  constructor
  · rintro (_ | _ | _ | s) (_ | _ | _ | t) <;> simp [twoDirs]
  · rintro (_ | _ | _ | s) <;> simp [twoDirs]

/-- `rename("d", "g")` -/
theorem rename_moves_subtree_d : World.Renames [100] [103] twoDirs (twoDirs.fsRename [100] [103] none) ∧
    (twoDirs.fsRename [100] [103] none).1 = 0 :=
  ⟨World.rename_moves_subtree (s := 0) twoDirs_named (by decide) (by decide) (by decide) none, by decide +kernel⟩

/-- INCORRECT as said: `rename("d", "e")` succeeds and removes `e`, which is neither `d` nor below it. -/
theorem rename_replaces : twoDirs.Named ∧ pathIsUnder [100] [101] = false ∧ (twoDirs.fsRename [100] [101] none).1 = 0 ∧
    (twoDirs.slots 1).inTree [100] = false ∧ (twoDirs.slots 1).inUse = true ∧
    ((twoDirs.fsRename [100] [101] none).2.slots 1).inUse = false :=
  ⟨twoDirs_named, by decide +kernel⟩

end Orthox.Open
