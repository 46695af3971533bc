import Orthox.Overlay.Calls

/-! Whether ramfs over xv6fs is one namespace. The calls disagree about a path exactly when both have it: `stat` sees the
    file of ramfs and `unlink` or `rmdir` takes the one of xv6fs away. An `open` with `O_CREAT` is how both come to have it:
    a directory or a link of xv6fs, and whatever is below `/tmp` there, gets a new file of ramfs put over it. And `O_TRUNC`
    reaches a file of xv6fs only by way of `O_CREAT`. -/

namespace Orthox.Overlay
open Option
open Images (wantCreat wantTrunc devKout)
open Open (Path pathIsUnderTmp)
open Paths (vfsFindMountpoint)
open Pipes (oAccmode oWronly oRdwr)

namespace State
variable (st : State) (p : Path)

/-- What a call on the name itself takes a link for, gone on behind the link. -/
def follow : Obj → Option Obj
  | .xv6fs i => if st.tree.kind i = .symlink then (st.tree.namei p).map .xv6fs else some (.xv6fs i)
  | o => some o

/-- Any two calls that succeed take the path for the same object, links followed. -/
def Agree : Prop :=
  ∀ c d : Call, ∀ a b : Obj, c.target st p = some a → d.target st p = some b → st.follow p a = st.follow p b

/-- An `open` with `O_CREAT` of a path that denotes an object opens this object and makes none. -/
def OpensIt (flags : BitVec 32) (alloc : Option Nat) : Prop :=
  wantCreat flags = true → ∀ o, st.fsStat p = some o → ∀ r, st.fsOpen p flags alloc = some r →
    r.created = false ∧ r.obj = o

/-- The object is a regular file, one that was made just now included. -/
def Regular (r : Opened) : Prop :=
  match r.obj with
  | .ramfs _ => True
  | .xv6fs i => r.created = true ∨ st.tree.kind i = .file
  | .module _ => True
  | .usb _ => True
  | _ => False

/-- An `open` with `O_TRUNC` that makes a regular file writable leaves it empty. -/
def Empties (flags : BitVec 32) (alloc : Option Nat) : Prop :=
  wantTrunc flags = true → flags &&& oAccmode = oWronly ∨ flags &&& oAccmode = oRdwr →
    ∀ r, st.fsOpen p flags alloc = some r → st.Regular r → r.size = 0

/-- The overlay behaves as one namespace at the path. -/
def OneNamespace (flags : BitVec 32) (alloc : Option Nat) : Prop :=
  st.Agree p ∧ st.OpensIt p flags alloc ∧ st.Empties p flags alloc

/-! ### The condition -/

/-- A path of the overlay: not on the stick, not the raw device, and none the boot modules have. -/
structure Plain : Prop where
  ne : p ≠ []
  stick : vfsFindMountpoint p = none
  kout : p ≠ devKout ∧ p ≠ devKout.tail
  module : st.module p = none
  moduleDir : st.moduleDir p = false

/-- Not both file systems have the path. -/
def InOne : Prop := st.findRamfs p = none ∨ st.rootEntry p = none

/-- What `xv6fs_create_file` gives back as it is: a file, a device or a FIFO. -/
def Reusable : Prop := ∃ i, st.rootEntry p = some i ∧ st.tree.kind i ≠ .dir ∧ st.tree.kind i ≠ .symlink

/-- With `O_CREAT`, a path only xv6fs has is not below `/tmp` and leads to a file, device or FIFO directly, unless the
    table is full. -/
def CreatReuses (flags : BitVec 32) : Prop :=
  wantCreat flags = true → st.findRamfs p = none → (st.rootNode p).isSome → st.freeSlot.isSome →
    pathIsUnderTmp p = false ∧ st.Reusable p

/-- With `O_TRUNC` for writing, a file only xv6fs has is empty already, or `O_CREAT` is there too and reuses it or makes
    a new one. -/
def TruncReaches (flags : BitVec 32) : Prop :=
  wantTrunc flags = true → flags &&& oAccmode = oWronly ∨ flags &&& oAccmode = oRdwr → st.findRamfs p = none →
    ∀ i, st.rootNode p = some i → st.tree.kind i = .file →
      st.tree.size i = 0 ∨ wantCreat flags = true ∧ (pathIsUnderTmp p = false ∧ st.Reusable p ∨ st.freeSlot.isSome)

variable {st p}

/-! ### What the calls find -/

variable {i s : Nat}

theorem rootNode_of_entry (h : st.rootEntry p = some i) (hk : st.tree.kind i ≠ .symlink) : st.rootNode p = some i := by
  obtain ⟨hroot, h⟩ := ite_none_right_eq_some.1 h
  rw [rootNode, if_pos hroot]
  exact st.tree.namei_of_entry h hk

theorem namei_of_rootNode (h : st.rootNode p = some i) : st.tree.namei p = some i := (ite_none_right_eq_some.1 h).2

theorem follow_namei (h : st.tree.namei p = some i) : st.follow p (.xv6fs i) = (st.tree.namei p).map .xv6fs := by
  rw [follow, if_neg (st.tree.kind_namei h), h, map_some]

theorem follow_entry (h : st.rootEntry p = some i) : st.follow p (.xv6fs i) = (st.tree.namei p).map .xv6fs := by
  rw [follow]
  split_ifs with hk
  · rfl
  · rw [st.tree.namei_of_entry (ite_none_right_eq_some.1 h).2 hk, map_some]

/-- `O_CREAT` gives back what xv6fs has, if it is a file, device or FIFO outside of `/tmp`. -/
theorem openCreat_reuses (htmp : pathIsUnderTmp p = false) (hi : st.rootEntry p = some i)
    (hdir : st.tree.kind i ≠ .dir) (hlink : st.tree.kind i ≠ .symlink) (flags : BitVec 32) (alloc : Option Nat) :
    st.openCreat p flags alloc =
      some ⟨.xv6fs i, false, if st.tree.kind i = .file ∧ wantTrunc flags then 0 else st.tree.size i⟩ := by
  obtain ⟨hroot, hi⟩ := ite_none_right_eq_some.1 hi
  simp [openCreat, htmp, hroot, xv6fsCreateFile, st.tree.parent_of_entry hi, hi, hdir, hlink]

/-- Otherwise `xv6fs_create_file` fails, or makes a file where there was none. -/
theorem xv6fsCreateFile_of_not_reusable (hroot : st.onRoot) (h : ¬ st.Reusable p) (alloc : Option Nat) :
    st.xv6fsCreateFile p alloc = none ∨ st.rootNode p = none ∧ ∃ i, st.xv6fsCreateFile p alloc = some (i, true) := by
  rw [xv6fsCreateFile]
  split_ifs with hparent
  · rcases hentry : st.tree.entry p with _ | i
    · rcases alloc with _ | i
      · exact .inl rfl
      refine .inr ⟨?_, i, rfl⟩
      rw [rootNode, if_pos hroot]
      exact st.tree.namei_of_parent hparent hentry
    · left
      by_contra hne
      refine h ⟨i, by rw [rootEntry, if_pos hroot, hentry], ?_⟩
      simpa using hne
  · exact .inl rfl

/-- Then the file is new, or the table is full and the path is looked up as without the flag. -/
theorem openCreat_makes (h : ¬ (pathIsUnderTmp p = false ∧ st.Reusable p)) (flags : BitVec 32) (alloc : Option Nat) :
    st.openCreat p flags alloc = st.freeSlot.elim (st.openRoot p) (fun s => some ⟨.ramfs s, true, 0⟩) ∨
      st.rootNode p = none ∧ ∃ i, st.openCreat p flags alloc = some ⟨.xv6fs i, true, 0⟩ := by
  have hfail : (if pathIsUnderTmp p = false ∧ st.onRoot then st.xv6fsCreateFile p alloc else none) = none →
      st.openCreat p flags alloc = st.freeSlot.elim (st.openRoot p) (fun s => some ⟨.ramfs s, true, 0⟩) := by
    intro hnone
    rw [openCreat, hnone]
    rcases st.freeSlot with _ | s <;> rfl
  rcases hxv6 : decide (pathIsUnderTmp p = false ∧ st.onRoot) with _ | _
  · exact .inl (hfail (if_neg (of_decide_eq_false hxv6)))
  have hxv6 := of_decide_eq_true hxv6
  rcases xv6fsCreateFile_of_not_reusable hxv6.2 (fun hr => h ⟨hxv6.1, hr⟩) alloc with hc | ⟨hnode, i, hc⟩
  · exact .inl (hfail (by rw [if_pos hxv6, hc]))
  · exact .inr ⟨hnode, i, by rw [openCreat, if_pos hxv6, hc]⟩

section
variable (hp : st.Plain p)
include hp

theorem fsStat_ramfs (hs : st.findRamfs p = some s) : st.fsStat p = some (.ramfs s) := by
  simp [fsStat, hp.ne, hp.stick, hs]

theorem fsStat_root (hs : st.findRamfs p = none) : st.fsStat p = (st.rootNode p).map .xv6fs := by
  rcases hn : st.rootNode p with _ | i
  · simp [fsStat, hp.ne, hp.stick, hs, hn, hp.moduleDir, hp.module]
  · simp [fsStat, hp.ne, hp.stick, hs, hn]

theorem fsOpen_ramfs (hs : st.findRamfs p = some s) (flags : BitVec 32) (alloc : Option Nat) : st.fsOpen p flags alloc =
      if st.ramIsDir s then none else some ⟨.ramfs s, false, if wantTrunc flags then 0 else st.ramSize s⟩ := by
  simp [fsOpen, hp.stick, hs]

theorem fsOpen_root (hs : st.findRamfs p = none) (flags : BitVec 32) (alloc : Option Nat) :
    st.fsOpen p flags alloc = if wantCreat flags then st.openCreat p flags alloc else st.openRoot p := by
  simp [fsOpen, hp.stick, hs, hp.kout]

theorem openRoot_eq_some {r : Opened} : st.openRoot p = some r ↔
      ∃ i, st.rootNode p = some i ∧ st.tree.kind i ≠ .dir ∧ r = ⟨.xv6fs i, false, st.tree.size i⟩ := by
  rw [openRoot]
  rcases st.rootNode p with _ | i
  · simp [hp.module]
  · simp [eq_comm]

/-! ### Agreement -/

/-- A path of ramfs that xv6fs has no entry for is the file of ramfs for every call. -/
theorem target_ramfs (hs : st.findRamfs p = some s) (he : st.rootEntry p = none)
    {c : Call} {a : Obj} (h : c.target st p = some a) : a = .ramfs s := by
  cases c with
  | opens flags alloc =>
    rw [Call.target, fsOpen_ramfs hp hs] at h
    rcases hdir : st.ramIsDir s with _ | _
    · rw [hdir] at h
      exact (some.inj h).symm
    · rw [hdir] at h
      cases h
  | stat => exact some.inj (h.symm.trans (fsStat_ramfs hp hs))
  | truncate length grows =>
    simp only [Call.target, fsTruncate, hs, ite_none_left_eq_some] at h
    exact (some.inj h.2).symm
  | unlink =>
    simp only [Call.target, fsUnlink, he, fsUnlink.ram, hs, ite_none_left_eq_some] at h
    exact (some.inj h.2).symm
  | rmdir =>
    simp only [Call.target, fsRmdir, hp.ne, if_false, he, fsRmdir.ram, hs, ite_none_right_eq_some] at h
    exact (some.inj h.2).symm
  | renameFrom new moves =>
    obtain ⟨r, hr, rfl⟩ := map_eq_some_iff.1 h
    rw [fsRename, ite_none_left_eq_some, hs] at hr
    obtain ⟨-, ⟨⟩⟩ := ite_none_right_eq_some.1 hr.2
    rfl
  | renameOnto old moves =>
    obtain ⟨r, hr, hsnd⟩ := bind_eq_some_iff.1 h
    rw [fsRename, ite_none_left_eq_some, hs] at hr
    rcases hold : st.findRamfs old with _ | s'
    · simp [hold] at hr
    rw [hold] at hr
    obtain ⟨-, ⟨⟩⟩ := ite_none_right_eq_some.1 hr.2
    obtain ⟨t, ht, rfl⟩ := map_eq_some_iff.1 hsnd
    rw [some.inj (filter_eq_some_iff.1 ht).1]

/-- A path that ramfs does not have is what xv6fs leads to for every call, links followed. -/
theorem target_xv6fs (hs : st.findRamfs p = none) {c : Call} {a : Obj} (h : c.target st p = some a) :
    st.follow p a = (st.tree.namei p).map .xv6fs := by
  have hroot : ∀ r, st.openRoot p = some r → st.follow p r.obj = (st.tree.namei p).map .xv6fs := by
    intro r hr
    obtain ⟨i, hi, -, rfl⟩ := (openRoot_eq_some hp).1 hr
    exact follow_namei (namei_of_rootNode hi)
  cases c with
  | opens flags alloc =>
    obtain ⟨r, hr, rfl⟩ := map_eq_some_iff.1 h
    obtain ⟨hr, hold⟩ := filter_eq_some_iff.1 hr
    rw [fsOpen_root hp hs] at hr
    split_ifs at hr
    · rcases em (pathIsUnderTmp p = false ∧ st.Reusable p) with ⟨htmp, i, hi, hdir, hlink⟩ | hmake
      · rw [openCreat_reuses htmp hi hdir hlink] at hr
        obtain rfl := some.inj hr
        exact follow_entry hi
      rcases openCreat_makes hmake flags alloc with hm | ⟨-, i, hm⟩
      · rw [hm] at hr
        rcases hfree : st.freeSlot with _ | s
        · exact hroot r (by rwa [hfree] at hr)
        rw [hfree] at hr
        obtain rfl := some.inj hr
        simp at hold
      · obtain rfl := some.inj (hm.symm.trans hr)
        simp at hold
    · exact hroot r hr
  | stat =>
    rw [Call.target, fsStat_root hp hs] at h
    obtain ⟨i, hi, rfl⟩ := map_eq_some_iff.1 h
    exact follow_namei (namei_of_rootNode hi)
  | truncate length grows =>
    simp only [Call.target, fsTruncate, hs, ite_none_left_eq_some] at h
    obtain ⟨i, hi, rfl⟩ := map_eq_some_iff.1 h.2
    exact follow_namei hi
  | unlink =>
    rw [Call.target, fsUnlink, fsUnlink.ram, hs] at h
    rcases he : st.rootEntry p with _ | i
    · simp [he] at h
    simp only [he, ite_none_right_eq_some] at h
    obtain rfl := some.inj h.2
    exact follow_entry he
  | rmdir =>
    rw [Call.target, fsRmdir, if_neg hp.ne, fsRmdir.ram, hs] at h
    rcases he : st.rootEntry p with _ | i
    · simp [he] at h
    simp only [he, ite_none_right_eq_some] at h
    obtain rfl := some.inj h.2
    exact follow_entry he
  | renameFrom new moves =>
    obtain ⟨r, hr, rfl⟩ := map_eq_some_iff.1 h
    rw [fsRename, ite_none_left_eq_some, hs] at hr
    have hr := (ite_none_left_eq_some.1 hr.2).2
    rcases he : st.rootEntry p with _ | i
    · simp [he] at hr
    simp only [he, ite_none_right_eq_some] at hr
    obtain rfl := some.inj hr.2
    exact follow_entry he
  | renameOnto old moves =>
    obtain ⟨r, hr, hsnd⟩ := bind_eq_some_iff.1 h
    rw [fsRename, ite_none_left_eq_some, hs] at hr
    rcases hold : st.findRamfs old with _ | s'
    · rw [hold] at hr
      have hr := (ite_none_left_eq_some.1 hr.2).2
      rcases hi : st.rootEntry old with _ | i
      · simp [hi] at hr
      simp only [hi, ite_none_right_eq_some] at hr
      obtain rfl := some.inj hr.2
      obtain ⟨j, hj, rfl⟩ := map_eq_some_iff.1 hsnd
      exact follow_entry hj
    · rw [hold] at hr
      obtain ⟨-, ⟨⟩⟩ := ite_none_right_eq_some.1 hr.2
      simp at hsnd

/-- The calls agree about a path if and only if it is in one of the two. -/
theorem agree_iff : st.Agree p ↔ st.InOne p := by
  constructor
  · intro hagree
    by_contra hboth
    rw [InOne, not_or] at hboth
    obtain ⟨s, hs⟩ := ne_none_iff_exists'.1 hboth.1
    obtain ⟨i, hi⟩ := ne_none_iff_exists'.1 hboth.2
    have htaken : ∃ c : Call, c.target st p = some (.xv6fs i) := by
      rcases em (st.tree.kind i = .dir) with hk | hk
      · exact ⟨.rmdir, by simp [Call.target, fsRmdir, hp.ne, hi, hk]⟩
      · exact ⟨.unlink, by simp [Call.target, fsUnlink, hi, hk]⟩
    obtain ⟨c, hc⟩ := htaken
    have heq := hagree .stat c _ _ (fsStat_ramfs hp hs) hc
    rw [follow_entry hi] at heq
    obtain ⟨_, -, h⟩ := map_eq_some_iff.1 heq.symm
    cases h
  · rintro hone c d a b ha hb
    rcases hs : st.findRamfs p with _ | s
    · rw [target_xv6fs hp hs ha, target_xv6fs hp hs hb]
    · have he : st.rootEntry p = none := hone.resolve_left (by simp [hs])
      rw [target_ramfs hp hs he ha, target_ramfs hp hs he hb]

/-! ### `O_CREAT` -/

theorem opensIt_iff (flags : BitVec 32) (alloc : Option Nat) : st.OpensIt p flags alloc ↔ st.CreatReuses p flags := by
  constructor
  · intro hopens hcreat hs hnode hfree
    by_contra hmake
    obtain ⟨i, hi⟩ := isSome_iff_exists.1 hnode
    obtain ⟨s, hfree⟩ := isSome_iff_exists.1 hfree
    rcases openCreat_makes hmake flags alloc with hm | ⟨hnone, -⟩
    · have hopen : st.fsOpen p flags alloc = some ⟨.ramfs s, true, 0⟩ := by
        rw [fsOpen_root hp hs, if_pos hcreat, hm, hfree, elim_some]
      exact absurd (hopens hcreat _ (by rw [fsStat_root hp hs, hi, map_some]) _ hopen).1 (by simp)
    · simp [hnone] at hnode
  · intro hreuses hcreat o ho r hr
    rcases hs : st.findRamfs p with _ | s
    · rw [fsStat_root hp hs] at ho
      obtain ⟨i, hi, rfl⟩ := map_eq_some_iff.1 ho
      rw [fsOpen_root hp hs, if_pos hcreat] at hr
      rcases em (pathIsUnderTmp p = false ∧ st.Reusable p) with ⟨htmp, j, hj, hdir, hlink⟩ | hmake
      · rw [openCreat_reuses htmp hj hdir hlink] at hr
        obtain rfl := some.inj hr
        exact ⟨rfl, congrArg Obj.xv6fs (some.inj ((rootNode_of_entry hj hlink).symm.trans hi))⟩
      have hfree : st.freeSlot = none := by
        by_contra hsome
        exact hmake (hreuses hcreat hs (by simp [hi]) (isSome_iff_ne_none.2 hsome))
      rcases openCreat_makes hmake flags alloc with hm | ⟨hnone, -⟩
      · rw [hm, hfree] at hr
        obtain ⟨j, hj, -, rfl⟩ := (openRoot_eq_some hp).1 hr
        exact ⟨rfl, congrArg Obj.xv6fs (some.inj (hj.symm.trans hi))⟩
      · simp [hnone] at hi
    · rw [fsStat_ramfs hp hs] at ho
      rw [fsOpen_ramfs hp hs, ite_none_left_eq_some] at hr
      obtain rfl := some.inj ho
      obtain rfl := some.inj hr.2
      exact ⟨rfl, rfl⟩

/-! ### `O_TRUNC` -/

theorem empties_iff (flags : BitVec 32) (alloc : Option Nat) : st.Empties p flags alloc ↔ st.TruncReaches p flags := by
  constructor
  · intro hempty htrunc hwrite hs i hi hfile
    have hroot : st.openRoot p = some ⟨.xv6fs i, false, st.tree.size i⟩ := (openRoot_eq_some hp).2 ⟨i, hi, by simp [hfile], rfl⟩
    have hzero : st.fsOpen p flags alloc = st.openRoot p → st.tree.size i = 0 := by
      intro heq
      exact hempty htrunc hwrite _ (heq.trans hroot) (.inr hfile)
    rcases hcreat : wantCreat flags with _ | _
    · exact .inl (hzero (by rw [fsOpen_root hp hs, hcreat, if_neg nofun]))
    rcases em (pathIsUnderTmp p = false ∧ st.Reusable p) with hreuse | hmake
    · exact .inr ⟨rfl, .inl hreuse⟩
    rcases hfree : st.freeSlot with _ | s
    · rcases openCreat_makes hmake flags alloc with hm | ⟨hnone, -⟩
      · exact .inl (hzero (by rw [fsOpen_root hp hs, if_pos hcreat, hm, hfree, elim_none]))
      · simp [hnone] at hi
    · exact .inr ⟨rfl, .inr rfl⟩
  · intro hreach htrunc hwrite r hr hreg
    rcases hs : st.findRamfs p with _ | s
    · have hroot : st.openRoot p = some r → ∃ i, st.rootNode p = some i ∧ st.tree.kind i = .file ∧ r.size = st.tree.size i := by
        intro h
        obtain ⟨i, hi, -, rfl⟩ := (openRoot_eq_some hp).1 h
        exact ⟨i, hi, hreg.resolve_left (by simp), rfl⟩
      rw [fsOpen_root hp hs] at hr
      split_ifs at hr with hcreat
      · rcases em (pathIsUnderTmp p = false ∧ st.Reusable p) with ⟨htmp, j, hj, hdir, hlink⟩ | hmake
        · rw [openCreat_reuses htmp hj hdir hlink] at hr
          obtain rfl := some.inj hr
          have hfile : st.tree.kind j = .file := hreg.resolve_left (by simp)
          simp [hfile, htrunc]
        rcases openCreat_makes hmake flags alloc with hm | ⟨-, i, hm⟩
        · rw [hm] at hr
          rcases hfree : st.freeSlot with _ | s
          · rw [hfree] at hr
            obtain ⟨i, hi, hfile, hsize⟩ := hroot hr
            rcases hreach htrunc hwrite hs i hi hfile with h | ⟨-, h | h⟩
            · exact hsize.trans h
            · exact absurd h hmake
            · simp [hfree] at h
          · rw [hfree] at hr
            obtain rfl := some.inj hr
            rfl
        · obtain rfl := some.inj (hm.symm.trans hr)
          rfl
      · obtain ⟨i, hi, hfile, hsize⟩ := hroot hr
        rcases hreach htrunc hwrite hs i hi hfile with h | ⟨h, -⟩
        · exact hsize.trans h
        · exact absurd h hcreat
    · rw [fsOpen_ramfs hp hs, ite_none_left_eq_some, if_pos htrunc] at hr
      obtain rfl := some.inj hr.2
      rfl

end

/-- CORRECT exactly there: on the paths of ramfs and xv6fs the overlay is one namespace if and only if the path is not in
    both, `O_CREAT` finds a node it can reuse, and `O_TRUNC` finds the file empty or comes with such an `O_CREAT`. -/
theorem one_namespace_iff (st : State) (p : Path) (flags : BitVec 32) (alloc : Option Nat) (hp : st.Plain p) :
    st.OneNamespace p flags alloc ↔ st.InOne p ∧ st.CreatReuses p flags ∧ st.TruncReaches p flags := by
  rw [OneNamespace, agree_iff hp, opensIt_iff hp, empties_iff hp]

/-- An xv6fs with one node, at one path. -/
def oneNode (q : Path) (kind : Kind) (hkind : kind ≠ .symlink) (size : Nat) : Tree where
  kind _ := kind
  size _ := size
  parent _ := true
  entry p := if p = q then some 5 else none
  namei p := if p = q then some 5 else none
  parent_of_entry _ := rfl
  namei_of_entry h _ := h
  namei_of_parent _ h := h
  kind_namei _ := hkind

/-- That xv6fs as the root, with a ramfs table over it. -/
def withNode (ram : Nat → Option RamfsFile) (q : Path) (kind : Kind) (hkind : kind ≠ .symlink) (size : Nat) : State where
  ram := ram
  tree := oneNode q kind hkind size
  onRoot := true
  ready := false
  fat _ := none
  module _ := none
  moduleDir _ := false

/-- `"/etc/a"` and `"/tmp/a"` -/
def etcA : Path := [47, 101, 116, 99, 47, 97]
def tmpA : Path := [47, 116, 109, 112, 47, 97]

/-- `O_WRONLY | O_CREAT | O_TRUNC` -/
def wct : BitVec 32 := 0x241

theorem findRamfs_empty {q : Path} {kind : Kind} {hkind : kind ≠ .symlink} {size : Nat} (p : Path) :
    (withNode (fun _ => none) q kind hkind size).findRamfs p = none := by
  simp [findRamfs, withNode]

theorem one_namespace_etc : (withNode (fun _ => none) etcA .file (by decide) 9).OneNamespace etcA wct none := by
  refine (one_namespace_iff _ _ _ _ ⟨by decide, by decide, by decide, rfl, rfl⟩).2 ⟨.inl (findRamfs_empty _), ?_, ?_⟩
  · intro _ _ _ _
    exact ⟨by decide, 5, rfl, by decide, by decide⟩
  · intro _ _ _ i _ _
    exact .inr ⟨by decide, .inl ⟨by decide, 5, rfl, by decide, by decide⟩⟩

/-- A file `"/tmp/a"` on xv6fs, also in slot 0 of ramfs or not; a directory and a file at `"/etc/a"`. -/
def tmpInBoth : State := withNode (fun s => if s = 0 then some ⟨tmpA, 0o100644, 3⟩ else none) tmpA .file (by decide) 9
def tmpOnDisk : State := withNode (fun _ => none) tmpA .file (by decide) 9
def etcDir : State := withNode (fun _ => none) etcA .dir (by decide) 64
def etcFile : State := withNode (fun _ => none) etcA .file (by decide) 9

/-- INCORRECT in general. With a `"/tmp/a"` in both, `stat` finds the one in ramfs and `unlink` removes the one on xv6fs.
    With it on xv6fs alone, `O_CREAT` makes the second one, and so it does over a directory. And `O_WRONLY | O_TRUNC` of a
    file of xv6fs leaves its nine bytes. -/
theorem not_one_namespace : (tmpInBoth.fsStat tmpA = some (.ramfs 0) ∧ tmpInBoth.fsUnlink tmpA = some (.xv6fs 5) ∧
      ¬ tmpInBoth.OneNamespace tmpA 0 none) ∧
    (tmpOnDisk.fsStat tmpA = some (.xv6fs 5) ∧ tmpOnDisk.fsOpen tmpA wct none = some ⟨.ramfs 0, true, 0⟩ ∧
      ¬ tmpOnDisk.OneNamespace tmpA wct none) ∧
    (etcDir.fsOpen etcA wct none = some ⟨.ramfs 0, true, 0⟩ ∧ ¬ etcDir.OneNamespace etcA wct none) ∧
    (etcFile.fsOpen etcA 0x201 none = some ⟨.xv6fs 5, false, 9⟩ ∧ ¬ etcFile.OneNamespace etcA 0x201 none) := by
  refine ⟨⟨rfl, rfl, ?_⟩, ⟨rfl, rfl, ?_⟩, ⟨rfl, ?_⟩, ⟨rfl, ?_⟩⟩
  · rintro ⟨hagree, -, -⟩
    have := hagree .stat .unlink (.ramfs 0) (.xv6fs 5) rfl rfl
    exact absurd this (by decide)
  · rintro ⟨-, hopens, -⟩
    exact absurd (hopens rfl (.xv6fs 5) rfl ⟨.ramfs 0, true, 0⟩ rfl).1 (by decide)
  · rintro ⟨-, hopens, -⟩
    exact absurd (hopens rfl (.xv6fs 5) rfl ⟨.ramfs 0, true, 0⟩ rfl).1 (by decide)
  · rintro ⟨-, -, hempty⟩
    exact absurd (hempty rfl (.inl rfl) ⟨.xv6fs 5, false, 9⟩ rfl (.inr rfl)) (by decide)

end State

end Orthox.Overlay
