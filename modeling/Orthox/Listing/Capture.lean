import Orthox.Listing.Dirents

/-! What the builders capture and what `getdents64` delivers of it. The captured array is delivered in order, each dirent
    once, as long as every buffer has room for one record. A builder that has room for all its items captures each of their
    names once; `xv6fs_list_dir` puts its names behind the ones that are there, without a look at them. -/

namespace Orthox.Listing
open Open List
open Namespace (slash dot dotdot)
open Paths (normalizeFsPath)

/-! ### `getdents64` delivers the array in order -/

variable {d n p : Path} {rf : RamfsFile} {ram : List RamfsFile}

@[simp] theorem names_nil : names [] = [] := rfl

@[simp] theorem names_cons (e : Dirent) (es : List Dirent) : names (e :: es) = e.name :: names es := rfl

@[simp] theorem names_append (a b : List Dirent) : names (a ++ b) = names a ++ names b := by
  simp [names]

@[simp] theorem length_names (a : List Dirent) : (names a).length = a.length := by
  simp [names]

@[simp] theorem encode_name (index : Nat) (e : Dirent) : (encode index e).name = e.name :=
  take_of_length_le (by have := e.name_le; omega)

theorem encode_reclen (index : Nat) (e : Dirent) : (encode index e).reclen = reclen e.name :=
  congrArg reclen (encode_name index e)

/-- The length of the longest record. -/
def maxReclen : Nat := 272

theorem reclen_le (e : Dirent) : reclen e.name ≤ maxReclen := by
  have := e.name_le
  simp only [reclen, maxReclen]
  omega

/-- A call delivers a first part of what is left, and not the empty one if the buffer has room for a record. -/
theorem fillRecords_spec : ∀ (es : List Dirent) (index room : Nat),
    ∃ j ≤ es.length, (fillRecords es index room).1.map Record.name = names (es.take j) ∧
      (fillRecords es index room).2 = index + j ∧ (es ≠ [] → maxReclen ≤ room → 0 < j)
  | [], _, _ => ⟨0, by simp [fillRecords]⟩
  | e :: es, index, room => by
    obtain ⟨j, hj, hnames, hindex, -⟩ := fillRecords_spec es (index + 1) (room - (encode index e).reclen)
    rw [fillRecords]
    split_ifs with hroom
    · refine ⟨j + 1, by simpa using hj, ?_, ?_, fun _ _ => Nat.succ_pos j⟩
      · simp [hnames]
      · dsimp only
        omega
    refine ⟨0, Nat.zero_le _, rfl, rfl, ?_⟩
    intro _ hmax
    have := reclen_le e
    rw [encode_reclen] at hroom
    omega

/-- With room for a record in every buffer the calls go on to the end of the array. -/
theorem drain_names (ents : List Dirent) (counts : Nat → Nat) (hroom : ∀ k, maxReclen ≤ counts k) :
    ∀ fuel k index, ents.length < fuel + index → (drain ents counts fuel k index).map Record.name = names (ents.drop index)
  | 0, _, index, hfuel => by
    rw [drop_of_length_le (by omega)]
    rfl
  | fuel + 1, k, index, hfuel => by
    obtain ⟨j, -, hnames, hindex, hpos⟩ := fillRecords_spec (ents.drop index) index (counts k)
    rw [drain, getdents64]
    split
    · next heq =>
      rw [heq] at hnames hindex
      rcases eq_nil_or_concat (ents.drop index) with hnil | ⟨_, _, hne⟩
      · simp [hnil]
      have hne : ents.drop index ≠ [] := by simp [hne]
      have hj : (names ((ents.drop index).take j)).length = 0 := by simp [← hnames]
      have := length_pos_iff.2 hne
      have := hpos hne (hroom k)
      simp only [length_names, length_take] at hj
      omega
    · next r rs index' heq =>
      rw [heq] at hnames hindex
      dsimp only at hnames hindex
      have hj : (names ((ents.drop index).take j)).length = rs.length + 1 := by simp [← hnames]
      simp only [length_names, length_take] at hj
      have hrest := drain_names ents counts hroom fuel (k + 1) index' (by omega)
      rw [map_append, hnames, hrest, hindex]
      conv_rhs => rw [← take_append_drop j (ents.drop index), names_append, drop_drop]

theorem readAll_names (ents : List Dirent) (counts : Nat → Nat) (hroom : ∀ k, maxReclen ≤ counts k) :
    (readAll ents counts).map Record.name = names ents := by
  have h := drain_names ents counts hroom (ents.length + 1) 0 0 (by omega)
  rwa [drop_zero] at h

/-! ### What the builders capture -/

/-- A name the array can hold as it is. -/
def Item.Fits (it : Item) : Prop := it.name ≠ [] ∧ it.name.length ≤ 247

/-- With room in the array every name is captured, once. -/
theorem appendAll_spec (its : List Item) :
    ∀ ents : List Dirent, (∀ it ∈ its, it.Fits) → ents.length + its.length ≤ maxEntries → (names ents).Nodup →
      ∃ l, appendAll ents its = some l ∧ (names l).Nodup ∧ l.length ≤ ents.length + its.length ∧
        ∀ n, n ∈ names l ↔ n ∈ names ents ∨ n ∈ its.map Item.name := by
  induction its with
  | nil =>
    intro ents _ _ hnodup
    exact ⟨ents, rfl, hnodup, by simp, by simp⟩
  | cons it its ih =>
    intro ents hfits hroom hnodup
    obtain ⟨hne, hlen⟩ := hfits it mem_cons_self
    have hfits := fun it' h => hfits it' (mem_cons_of_mem it h)
    rw [length_cons] at hroom
    have hstep : appendAll ents (it :: its) = (direntAppend ents it).bind fun ents => appendAll ents its := rfl
    rw [hstep, direntAppend, if_neg hne]
    split_ifs with hold hfull
    · obtain ⟨l, hl, hnd, hle, hmem⟩ := ih ents hfits (by omega) hnodup
      refine ⟨l, hl, hnd, by rw [length_cons]; omega, fun n => ?_⟩
      rw [hmem, map_cons, mem_cons]
      constructor
      · rintro (h | h)
        · exact .inl h
        · exact .inr (.inr h)
      · rintro (h | rfl | h)
        · exact .inl h
        · exact .inl hold
        · exact .inr h
    · omega
    · have hname : (Dirent.of it.name it.mode it.size).name = it.name := take_of_length_le hlen
      obtain ⟨l, hl, hnd, hle, hmem⟩ := ih (ents ++ [.of it.name it.mode it.size]) hfits
        (by simp only [length_append, length_singleton]; omega)
        (by simpa [hname, nodup_append] using ⟨hnodup, fun a ha h => hold (h ▸ ha)⟩)
      refine ⟨l, hl, hnd, ?_, fun n => ?_⟩
      · simp only [length_append, length_singleton] at hle
        rw [length_cons]
        omega
      · rw [hmem]
        simp [hname, or_assoc]

/-- The names `xv6fs_list_dir` lists of a directory. -/
def xv6Names (slots : List (Option Xv6Dirent)) : List Path :=
  ((slots.filterMap id).filter Xv6Dirent.listed).map Xv6Dirent.name

/-- With room in the array a directory that can be read is listed to its end, without a look at the names before. -/
theorem xv6fsListDir_names : ∀ (slots : List (Option Xv6Dirent)) (ents : List Dirent), none ∉ slots →
    ents.length + (xv6Names slots).length ≤ maxEntries → names (xv6fsListDir slots ents) = names ents ++ xv6Names slots
  | [], ents, _, _ => by simp [xv6fsListDir, xv6Names]
  | none :: slots, ents, hread, _ => by simp at hread
  | some de :: slots, ents, hread, hroom => by
    have hread : none ∉ slots := fun h => hread (mem_cons_of_mem _ h)
    have hname : (Dirent.of de.name de.mode de.size).name = de.name := take_of_length_le (by have := de.name_le; omega)
    rw [xv6fsListDir]
    rcases hlisted : de.listed with _ | _
    · have hxs : xv6Names (some de :: slots) = xv6Names slots := by simp [xv6Names, hlisted]
      rw [hxs]
      exact xv6fsListDir_names slots ents hread (hxs ▸ hroom)
    have hxs : xv6Names (some de :: slots) = de.name :: xv6Names slots := by simp [xv6Names, hlisted]
    rw [hxs, length_cons] at hroom
    rw [if_pos rfl, if_neg (by omega), xv6fsListDir_names slots _ hread, hxs]
    · simp [hname]
    · simp only [length_append, length_singleton]
      omega

/-! ### Names below a directory -/

/-- A path is the one of the name after the directory and a slash, or goes on below it. -/
def Under (d n p : Path) : Prop := p = d ++ slash :: n ∨ (d ++ slash :: n) ++ [slash] <+: p

theorem Under.length_le (h : Under d n p) : n.length ≤ p.length := by
  rcases h with rfl | ⟨t, rfl⟩
  · simp
    omega
  · simp
    omega

theorem below_eq_some {rest : Path} : below d p = some rest ↔ p = d ++ slash :: rest := by
  simp only [below, Option.ite_none_right_eq_some, isPrefixOf_iff_prefix, Option.some.injEq]
  constructor
  · rintro ⟨⟨t, rfl⟩, rfl⟩
    simp
  · rintro rfl
    exact ⟨⟨rest, by simp⟩, by simp⟩

/-- The first component of a path that is not too long. -/
theorem firstComponent_eq {rest : Path} (hn : slash ∉ n) (hlen : rest.length ≤ 247) :
    (firstComponent rest).1 = n ↔ rest = n ∨ n ++ [slash] <+: rest := by
  have htake : (firstComponent rest).1 = rest.takeWhile (· ≠ slash) :=
    take_of_length_le ((List.takeWhile_prefix _).length_le.trans hlen)
  have hpass : ∀ x ∈ n, decide (x ≠ slash) := by
    intro x hx
    simpa using fun h : x = slash => hn (h ▸ hx)
  rw [htake]
  constructor
  · rintro rfl
    have hsplit := takeWhile_append_dropWhile (p := fun x => decide (x ≠ slash)) (l := rest)
    rcases hdrop : rest.dropWhile (fun x => decide (x ≠ slash)) with _ | ⟨c, tail⟩
    · left
      rw [hdrop, append_nil] at hsplit
      exact hsplit.symm
    right
    have hc := head_dropWhile_not (fun x => decide (x ≠ slash)) (by rw [hdrop]; exact cons_ne_nil c tail)
    simp only [hdrop, head_cons] at hc
    have hc : c = slash := by simpa using hc
    rw [hdrop, hc] at hsplit
    exact ⟨tail, by simpa using hsplit⟩
  · rintro (rfl | ⟨t, rfl⟩)
    · exact takeWhile_eq_self_iff.2 hpass
    · rw [append_assoc, takeWhile_append_of_pos hpass]
      simp

theorem slash_notMem_firstComponent (rest : Path) : slash ∉ (firstComponent rest).1 := by
  intro h
  have h := mem_takeWhile_imp (mem_of_mem_take h)
  simp at h

/-- The component after a directory, for paths that are not too long. -/
theorem below_firstComponent (hlen : p.length ≤ 247) :
    (∃ rest, below d p = some rest ∧ (firstComponent rest).1 = n) ↔ slash ∉ n ∧ Under d n p := by
  simp only [below_eq_some]
  constructor
  · rintro ⟨rest, rfl, rfl⟩
    have hslash := slash_notMem_firstComponent rest
    refine ⟨hslash, ?_⟩
    rcases (firstComponent_eq hslash (by simp at hlen; omega)).1 rfl with h | ⟨t, h⟩
    · exact .inl (by rw [← h])
    · exact .inr ⟨t, by simpa using congrArg (d ++ slash :: ·) h⟩
  · rintro ⟨hn, rfl | ⟨t, rfl⟩⟩
    · exact ⟨n, rfl, (firstComponent_eq hn (by simp at hlen; omega)).2 (.inl rfl)⟩
    · refine ⟨n ++ slash :: t, by simp, (firstComponent_eq hn ?_).2 (.inr ⟨t, by simp⟩)⟩
      simp at hlen ⊢
      omega

/-! ### What ramfs shows -/

/-- ramfs shows a name of a directory through a file that is no directory, at the name or below it. -/
def Shown (ram : List RamfsFile) (d n : Path) : Prop := ∃ rf ∈ ram, isDir rf.mode = false ∧ Under d n rf.name

/-- The names `build_ramfs_subdir_dirents` appends, the dots apart. -/
def ramfsNames (ram : List RamfsFile) (d : Path) : List Path := (ram.filterMap (ramfsChild d)).map Item.name

theorem ramfsChild_eq_some (hd : d ≠ []) : (∃ it, ramfsChild d rf = some it ∧ it.name = n) ↔
      setsFoundDir d rf = false ∧ (∃ rest, below d rf.name = some rest ∧ (firstComponent rest).1 = n) ∧ n ≠ [] := by
  rw [ramfsChild]
  rcases hset : setsFoundDir d rf with _ | _
  · rcases below d rf.name with _ | rest
    · simp [hd]
    rcases firstComponent rest with ⟨child, more⟩
    simp only [Bool.false_eq_true, hd, or_self, if_false, Option.ite_none_left_eq_some, Option.some.injEq]
    constructor
    · rintro ⟨_, ⟨hne, rfl⟩, rfl⟩
      exact ⟨trivial, ⟨rest, rfl, rfl⟩, hne⟩
    · rintro ⟨-, ⟨_, rfl, rfl⟩, hne⟩
      exact ⟨_, ⟨hne, rfl⟩, rfl⟩
  · simp

/-- A file that is found below the directory is passed over if and only if it is a directory. -/
theorem setsFoundDir_of_under (h : Under d n rf.name) : setsFoundDir d rf = isDir rf.mode := by
  have hne : rf.name ≠ d := by
    intro heq
    rw [heq] at h
    rcases h with h | ⟨t, h⟩
    · simpa using congrArg length h
    · have := congrArg length h
      simp at this
  simp [setsFoundDir, hne]

theorem mem_ramfsNames (hd : d ≠ []) : n ∈ ramfsNames ram d ↔ n ≠ [] ∧ slash ∉ n ∧ Shown ram d n := by
  simp only [ramfsNames, mem_map, mem_filterMap]
  constructor
  · rintro ⟨it, ⟨rf, hrf, hit⟩, hname⟩
    obtain ⟨hset, hbelow, hne⟩ := (ramfsChild_eq_some hd).1 ⟨it, hit, hname⟩
    obtain ⟨hslash, hunder⟩ := (below_firstComponent (by have := rf.name_lt; omega)).1 hbelow
    exact ⟨hne, hslash, rf, hrf, setsFoundDir_of_under hunder ▸ hset, hunder⟩
  · rintro ⟨hne, hslash, rf, hrf, hdir, hunder⟩
    obtain ⟨it, hit, hname⟩ := (ramfsChild_eq_some hd).2 ⟨(setsFoundDir_of_under hunder).trans hdir,
      (below_firstComponent (by have := rf.name_lt; omega)).2 ⟨hslash, hunder⟩, hne⟩
    exact ⟨it, ⟨rf, hrf, hit⟩, hname⟩

/-- What ramfs appends for a directory. -/
def ramfsItems (ram : List RamfsFile) (d : Path) : List Item :=
  ram.filterMap (ramfsChild d) ++ if ram.any (setsFoundDir d) then dots else []

theorem appendAll_append (ents : List Dirent) (a b : List Item) :
    appendAll ents (a ++ b) = (appendAll ents a).bind fun l => appendAll l b :=
  foldlM_append

/-- The builder appends its items in order, and finds the directory if it has any. -/
theorem buildRamfsSubdirDirents_eq (ram : List RamfsFile) (d : Path) (ents : List Dirent) :
    buildRamfsSubdirDirents ram d ents = if ramfsItems ram d = [] then none else appendAll ents (ramfsItems ram d) := by
  rw [ramfsItems, appendAll_append, buildRamfsSubdirDirents]
  rcases ram.any (setsFoundDir d) with _ | _
  · rcases ram.filterMap (ramfsChild d) with _ | ⟨it, its⟩
    · rfl
    rfl
  · have hne : ram.filterMap (ramfsChild d) ++ dots ≠ [] := by simp [dots]
    simp only [if_true, if_neg hne, Bool.true_or, Option.bind_eq_bind, Option.bind_fun_some]

theorem ramfsItems_fits (hd : d ≠ []) : ∀ it ∈ ramfsItems ram d, it.Fits := by
  intro it h
  rcases mem_append.1 h with h | h
  · obtain ⟨rf, -, h⟩ := mem_filterMap.1 h
    obtain ⟨-, ⟨rest, -, hrest⟩, hne⟩ := (ramfsChild_eq_some hd).1 ⟨it, h, rfl⟩
    exact ⟨hne, hrest ▸ by simp [firstComponent]⟩
  have hit : it ∈ dots := by
    split_ifs at h
    · exact h
    · simp at h
  rcases mem_pair.1 hit with rfl | rfl <;> exact ⟨by decide, by decide⟩

theorem ramfsItems_length (ram : List RamfsFile) (d : Path) : (ramfsItems ram d).length ≤ ram.length + 2 := by
  have hlen : (ram.filterMap (ramfsChild d)).length ≤ ram.length := length_filterMap_le ..
  rw [ramfsItems, length_append]
  split_ifs
  · exact Nat.add_le_add_right hlen 2
  · rw [length_nil]
    omega

/-- Besides the names shown, ramfs appends nothing but the dots. -/
theorem mem_ramfsItems (h : n ∈ (ramfsItems ram d).map Item.name) : n ∈ ramfsNames ram d ∨ n = dot ∨ n = dotdot := by
  rw [ramfsItems, map_append] at h
  rcases mem_append.1 h with h | h
  · exact .inl h
  right
  split_ifs at h
  · simpa [dots] using h
  · simp at h

/-- The part of ramfs, with room for all of it: every name it has, once. -/
theorem buildRamfsSubdirDirents_spec (ram : List RamfsFile) (hd : d ≠ []) (hroom : ram.length + 2 ≤ maxEntries) :
    ∃ l, buildRamfsSubdirDirents ram d [] = (if ramfsItems ram d = [] then none else some l) ∧
      (buildRamfsSubdirDirents ram d []).getD [] = l ∧ (names l).Nodup ∧ l.length ≤ ram.length + 2 ∧
      ∀ n, n ∈ names l ↔ n ∈ (ramfsItems ram d).map Item.name := by
  have hlen := ramfsItems_length ram d
  obtain ⟨l, hl, hnd, hle, hmem⟩ := appendAll_spec (ramfsItems ram d) [] (ramfsItems_fits hd)
    (by rw [length_nil]; omega) nodup_nil
  rw [length_nil] at hle
  refine ⟨l, ?_, ?_, hnd, by omega, fun n => by simp [hmem]⟩
  · rw [buildRamfsSubdirDirents_eq, hl]
  · rw [buildRamfsSubdirDirents_eq, hl]
    split_ifs with hnil
    · rw [hnil] at hl
      exact Option.some.inj hl
    · rfl

/-! ### Boot modules and the USB stick -/

/-- The names `build_module_dirents` appends, in a directory whose path is not empty. -/
theorem moduleChild_eq_some (hd : d.head? = some slash) {m : BootModule} (hlen : (normalizeFsPath m.path).length ≤ 247) :
    (∃ it, moduleChild d m = some it ∧ it.name = n) ↔ n ≠ [] ∧ slash ∉ n ∧ Under d n (normalizeFsPath m.path) := by
  have hne : d ≠ [] := by
    rintro rfl
    simp at hd
  have hnorm : normalizeFsPath d = d := by
    rcases d with _ | ⟨c, d⟩
    · rfl
    · obtain rfl : c = slash := by simpa using hd
      rfl
  rw [← below_firstComponent hlen, moduleChild, splitChildPath]
  simp only [if_neg hne, hnorm, Option.map_eq_some_iff]
  rcases below d (normalizeFsPath m.path) with _ | rest
  · simp
  rcases firstComponent rest with ⟨child, more⟩
  simp only [Option.ite_none_left_eq_some, Option.some.injEq]
  constructor
  · rintro ⟨_, ⟨_, ⟨hchild, rfl⟩, rfl⟩, rfl⟩
    exact ⟨hchild, rest, rfl, rfl⟩
  · rintro ⟨hchild, _, rfl, rfl⟩
    exact ⟨_, ⟨_, ⟨hchild, rfl⟩, rfl⟩, rfl⟩

end Orthox.Listing
