import Orthox.Listing.Capture

/-! Whether a listing is complete. The entries of a directory are the ramfs files and directories at a name in it, the
    dirents of xv6fs, the modules at or below a name and, in the root, the mount point. Ramfs directories are passed over
    by an inverted test, no file of ramfs is below `"/"` for the prefix rule, the names of xv6fs are not compared with the
    ones of ramfs, the array ends at 1024, and a buffer too small for the next record looks like the end. -/

namespace Orthox.Listing
open Open List Option
open Namespace (slash dot dotdot)
open Paths (normalizeFsPath vfsFindMountpoint usb)

/-- The path of a name in a directory. -/
def full (d n : Path) : Path := if d = [slash] then slash :: n else d ++ slash :: n

/-- A name of an entry: one component that is neither of the dots. -/
def IsName (n : Path) : Prop := n ≠ [] ∧ slash ∉ n ∧ n ≠ dot ∧ n ≠ dotdot

namespace Overlay
variable (fs : Overlay)

/-- A slot of ramfs has the path of the name. -/
def RamEntry (d n : Path) : Prop := ∃ rf ∈ fs.ram, rf.name = full d n

/-- The directory of xv6fs at the path, if there is one. -/
def Xv6Dir (d : Path) (slots : List (Option Xv6Dirent)) : Prop :=
  ∃ namei, fs.xv6 = some namei ∧ namei d = some (.dir slots)

/-- A dirent of xv6fs in use has the name. -/
def Xv6Entry (d n : Path) : Prop := ∃ slots, fs.Xv6Dir d slots ∧ ∃ de, some de ∈ slots ∧ de.inum ≠ 0 ∧ de.name = n

/-- Without xv6fs the modules are the root: one is at the name, or below it. -/
def ModuleEntry (d n : Path) : Prop :=
  fs.xv6 = none ∧ ∃ m ∈ fs.boot, normalizeFsPath m.path = full d n ∨ full d n ++ [slash] <+: normalizeFsPath m.path

/-- In the root, the mount point of a stick that is there. -/
def MountEntry (d n : Path) : Prop := d = [slash] ∧ fs.stick.isSome ∧ n = usb

/-- An entry of a directory of the stick. -/
def UsbEntry (d n : Path) : Prop := ∃ dir items, fs.stick = some dir ∧ dir d = some items ∧ n ∈ items.map FatItem.name

/-- The names a directory holds. -/
def Entry (d n : Path) : Prop :=
  IsName n ∧ if (vfsFindMountpoint d).isSome then fs.UsbEntry d n
    else fs.RamEntry d n ∨ fs.Xv6Entry d n ∨ fs.ModuleEntry d n ∨ fs.MountEntry d n

/-- Opening the directory and calling `getdents64` with the buffers `counts` until it answers 0 yields every name once. -/
def Complete (d : Path) (counts : Nat → Nat) : Prop :=
  ∃ ents, fs.openDir d = some ents ∧ ∀ n, fs.Entry d n → ((readAll ents counts).map Record.name).count n = 1

/-- The states in which the merge of a directory loses and repeats nothing. `usb`: the directory is on the stick, with
    names the array holds whole and no more than it has places for. `both`: it is in xv6fs and can be read; no name is
    twice in it or also shown by ramfs; what xv6fs does not have, ramfs shows; and everything fits. `ram`: ramfs finds it
    and xv6fs has nothing there, and ramfs shows every entry. `modules`: there is no xv6fs, and neither another directory
    of ramfs nor a file below it. -/
inductive Plain (d : Path) : Prop
  | usb (dir : Path → Option (List FatItem)) (items : List FatItem) (hd : d ≠ [])
      (hmount : (vfsFindMountpoint d).isSome = true) (hready : fs.stick = some dir) (hdir : dir d = some items)
      (hfits : ∀ it ∈ items, it.name ≠ [] ∧ it.name.length ≤ 247) (hroom : items.length ≤ maxEntries)
  | both (slots : List (Option Xv6Dirent)) (hd : d ≠ []) (hmount : vfsFindMountpoint d = none) (hdir : fs.Xv6Dir d slots)
      (hread : none ∉ slots) (hnodup : (xv6Names slots).Nodup) (hroom : fs.ram.length + 2 + slots.length ≤ maxEntries)
      (hdisjoint : ∀ n ∈ xv6Names slots, ¬ Shown fs.ram d n)
      (hshown : ∀ n, IsName n → fs.RamEntry d n ∨ fs.MountEntry d n → n ∈ xv6Names slots ∨ Shown fs.ram d n)
  | ram (hd : d ≠ []) (hmount : vfsFindMountpoint d = none) (hdir : ∀ namei, fs.xv6 = some namei → namei d = none)
      (hroom : fs.ram.length + 2 ≤ maxEntries)
      (hfinds : (∃ rf ∈ fs.ram, setsFoundDir d rf) ∨ ∃ n, IsName n ∧ Shown fs.ram d n)
      (hshown : ∀ n, IsName n → fs.RamEntry d n ∨ fs.ModuleEntry d n ∨ fs.MountEntry d n → Shown fs.ram d n)
  | modules (hd : d.head? = some slash) (hroot : d ≠ [slash]) (hmount : vfsFindMountpoint d = none) (hxv6 : fs.xv6 = none)
      (halone : ∀ rf ∈ fs.ram, setsFoundDir d rf = false) (hshown : ∀ n, ¬ Shown fs.ram d n)
      (hsome : ∃ n, IsName n ∧ fs.ModuleEntry d n) (hroom : fs.boot.length ≤ maxEntries)
      (hfits : ∀ m ∈ fs.boot, (normalizeFsPath m.path).length ≤ 247)

variable {fs} {d : Path} {counts : Nat → Nat}

/-- A captured array with every entry, once, is delivered so. -/
theorem Complete.of_capture (hcounts : ∀ k, maxReclen ≤ counts k) (ents : List Dirent)
    (hopen : fs.openDir d = some ents) (hnodup : (names ents).Nodup)
    (hall : ∀ n, fs.Entry d n → n ∈ names ents) : fs.Complete d counts := by
  refine ⟨ents, hopen, fun n hn => ?_⟩
  rw [readAll_names ents counts hcounts]
  exact count_eq_one_of_mem hnodup (hall n hn)

theorem Shown.mem {ram : List RamfsFile} {n : Path} (h : Shown ram d n) (hn : IsName n) (hd : d ≠ []) :
    n ∈ (ramfsItems ram d).map Item.name := by
  rw [ramfsItems, map_append]
  exact mem_append_left _ ((mem_ramfsNames hd).2 ⟨hn.1, hn.2.1, h⟩)

variable {slots : List (Option Xv6Dirent)}

theorem mem_xv6Names {n : Path} : n ∈ xv6Names slots ↔ ∃ de, some de ∈ slots ∧ de.listed ∧ de.name = n := by
  simp [xv6Names, and_assoc]

section
variable (hcounts : ∀ k, maxReclen ≤ counts k)
include hcounts

theorem Plain.complete_usb {dir : Path → Option (List FatItem)} {items : List FatItem} (hd : d ≠ [])
    (hmount : (vfsFindMountpoint d).isSome) (hready : fs.stick = some dir) (hdir : dir d = some items)
    (hfits : ∀ it ∈ items, it.name ≠ [] ∧ it.name.length ≤ 247) (hroom : items.length ≤ maxEntries) : fs.Complete d counts := by
  have hitems : ∀ it ∈ items.filterMap usbChild, it.Fits := by
    intro it h
    obtain ⟨f, hf, hchild⟩ := mem_filterMap.1 h
    obtain ⟨-, ⟨⟩⟩ := ite_none_left_eq_some.1 hchild
    exact hfits f hf
  have hlen : (items.filterMap usbChild).length ≤ items.length := length_filterMap_le ..
  obtain ⟨l, hl, hnodup, -, hmem⟩ := appendAll_spec _ [] hitems (by rw [length_nil]; omega) nodup_nil
  refine .of_capture hcounts l ?_ hnodup ?_
  · simp [openDir, hd, hmount, buildUsbDirents, hready, hdir, hl]
  · rintro n ⟨⟨-, -, hdot, hdotdot⟩, hentry⟩
    rw [if_pos hmount] at hentry
    obtain ⟨_, _, hready', hdir', hn⟩ := hentry
    obtain rfl := some.inj (hready.symm.trans hready')
    obtain rfl := some.inj (hdir.symm.trans hdir')
    obtain ⟨f, hf, rfl⟩ := mem_map.1 hn
    rw [hmem]
    refine .inr (mem_map.2 ⟨_, mem_filterMap.2 ⟨f, hf, if_neg (by simp [hdot, hdotdot])⟩, rfl⟩)

theorem Plain.complete_both (hd : d ≠ []) (hmount : vfsFindMountpoint d = none) (hdir : fs.Xv6Dir d slots)
    (hread : none ∉ slots) (hnodup : (xv6Names slots).Nodup) (hroom : fs.ram.length + 2 + slots.length ≤ maxEntries)
    (hdisjoint : ∀ n ∈ xv6Names slots, ¬ Shown fs.ram d n)
    (hshown : ∀ n, IsName n → fs.RamEntry d n ∨ fs.MountEntry d n → n ∈ xv6Names slots ∨ Shown fs.ram d n) :
    fs.Complete d counts := by
  obtain ⟨namei, hxv6, hnamei⟩ := hdir
  have hlen : (xv6Names slots).length ≤ slots.length := by
    rw [xv6Names, length_map]
    exact (length_filter_le ..).trans (length_filterMap_le ..)
  obtain ⟨l, -, hl, hnd, hle, hmem⟩ := buildRamfsSubdirDirents_spec fs.ram hd (by omega)
  have hnames := xv6fsListDir_names slots l hread (by omega)
  refine .of_capture hcounts (xv6fsListDir slots l) ?_ ?_ ?_
  · simp [openDir, hd, hmount, buildActiveRootDirents, hxv6, hnamei, hl]
  · rw [hnames, nodup_append]
    refine ⟨hnd, hnodup, ?_⟩
    rintro n hn _ hx rfl
    obtain ⟨de, -, hlisted, rfl⟩ := mem_xv6Names.1 hx
    rcases mem_ramfsItems ((hmem _).1 hn) with h | h | h
    · exact hdisjoint _ hx ((mem_ramfsNames hd).1 h).2.2
    · simp [Xv6Dirent.listed, h] at hlisted
    · simp [Xv6Dirent.listed, h] at hlisted
  · rintro n ⟨hname, hentry⟩
    rw [if_neg (by simp [hmount])] at hentry
    rw [hnames, mem_append]
    have hram : n ∈ xv6Names slots ∨ Shown fs.ram d n → n ∈ names l ∨ n ∈ xv6Names slots := by
      rintro (h | h)
      · exact .inr h
      · exact .inl ((hmem n).2 (Shown.mem h hname hd))
    rcases hentry with h | ⟨slots', ⟨namei', hxv6', hnamei'⟩, de, hde, hinum, rfl⟩ | ⟨hnone, -⟩ | h
    · exact hram (hshown n hname (.inl h))
    · obtain rfl := some.inj (hxv6.symm.trans hxv6')
      obtain ⟨⟩ := hnamei.symm.trans hnamei'
      exact .inr (mem_xv6Names.2 ⟨de, hde, by simp [Xv6Dirent.listed, hinum, hname.2.2.1, hname.2.2.2], rfl⟩)
    · simp [hxv6] at hnone
    · exact hram (hshown n hname (.inr h))

theorem Plain.complete_ram (hd : d ≠ [])
    (hmount : vfsFindMountpoint d = none) (hdir : ∀ namei, fs.xv6 = some namei → namei d = none)
    (hroom : fs.ram.length + 2 ≤ maxEntries) (hfinds : (∃ rf ∈ fs.ram, setsFoundDir d rf) ∨ ∃ n, IsName n ∧ Shown fs.ram d n)
    (hshown : ∀ n, IsName n → fs.RamEntry d n ∨ fs.ModuleEntry d n ∨ fs.MountEntry d n → Shown fs.ram d n) :
    fs.Complete d counts := by
  obtain ⟨l, hbuild, -, hnd, -, hmem⟩ := buildRamfsSubdirDirents_spec fs.ram hd hroom
  have hitems : ramfsItems fs.ram d ≠ [] := by
    rcases hfinds with ⟨rf, hrf, hset⟩ | ⟨n, hn, hshown⟩
    · have hany : fs.ram.any (setsFoundDir d) := any_eq_true.2 ⟨rf, hrf, hset⟩
      simp [ramfsItems, hany, dots]
    intro hnil
    have := Shown.mem hshown hn hd
    simp [hnil] at this
  rw [if_neg hitems] at hbuild
  refine .of_capture hcounts l ?_ hnd ?_
  · rcases hxv6 : fs.xv6 with _ | namei
    · simp [openDir, hd, hmount, buildActiveRootDirents, hxv6, hbuild]
    · simp [openDir, hd, hmount, buildActiveRootDirents, hxv6, hdir namei hxv6, hbuild]
  · rintro n ⟨hname, hentry⟩
    rw [if_neg (by simp [hmount])] at hentry
    refine (hmem n).2 (Shown.mem ?_ hname hd)
    rcases hentry with h | ⟨slots, ⟨namei, hxv6, hnamei⟩, -⟩ | h | h
    · exact hshown n hname (.inl h)
    · rw [hdir namei hxv6] at hnamei
      cases hnamei
    · exact hshown n hname (.inr (.inl h))
    · exact hshown n hname (.inr (.inr h))

theorem Plain.complete_modules
    (hd : d.head? = some slash) (hroot : d ≠ [slash]) (hmount : vfsFindMountpoint d = none) (hxv6 : fs.xv6 = none)
    (halone : ∀ rf ∈ fs.ram, setsFoundDir d rf = false) (hshown : ∀ n, ¬ Shown fs.ram d n)
    (hsome : ∃ n, IsName n ∧ fs.ModuleEntry d n) (hroom : fs.boot.length ≤ maxEntries)
    (hfits : ∀ m ∈ fs.boot, (normalizeFsPath m.path).length ≤ 247) : fs.Complete d counts := by
  have hne : d ≠ [] := by
    rintro rfl
    simp at hd
  have hfull : ∀ n, full d n = d ++ slash :: n := fun n => if_neg hroot
  -- ramfs has nothing for this directory, so the modules are asked
  have hram : buildRamfsSubdirDirents fs.ram d [] = none := by
    have hany : fs.ram.any (setsFoundDir d) = false := by simpa using halone
    have hnil : ramfsItems fs.ram d = [] := by
      rw [ramfsItems, hany]
      simp only [Bool.false_eq_true, if_false, append_nil, ← map_eq_nil_iff (f := Item.name)]
      exact eq_nil_iff_forall_not_mem.2 fun n hn => hshown n ((mem_ramfsNames hne).1 hn).2.2
    rw [buildRamfsSubdirDirents_eq, if_pos hnil]
  have hitems : ∀ it ∈ fs.boot.filterMap (moduleChild d), it.Fits := by
    intro it h
    obtain ⟨m, hm, hchild⟩ := mem_filterMap.1 h
    obtain ⟨hit, -, hunder⟩ := (moduleChild_eq_some hd (hfits m hm)).1 ⟨it, hchild, rfl⟩
    exact ⟨hit, hunder.length_le.trans (hfits m hm)⟩
  have hlen : (fs.boot.filterMap (moduleChild d)).length ≤ fs.boot.length := length_filterMap_le ..
  obtain ⟨l, hl, hnodup, -, hmem⟩ := appendAll_spec _ [] hitems (by rw [length_nil]; omega) nodup_nil
  have hmodule : ∀ n, IsName n → fs.ModuleEntry d n → n ∈ (fs.boot.filterMap (moduleChild d)).map Item.name := by
    rintro n hn ⟨-, m, hm, hunder⟩
    rw [hfull] at hunder
    obtain ⟨it, hit, rfl⟩ := (moduleChild_eq_some hd (hfits m hm)).2 ⟨hn.1, hn.2.1, hunder⟩
    exact mem_map.2 ⟨it, mem_filterMap.2 ⟨m, hm, hit⟩, rfl⟩
  obtain ⟨n₀, hn₀, hentry₀⟩ := hsome
  have hsome := hmodule n₀ hn₀ hentry₀
  have hchildren : fs.boot.filterMap (moduleChild d) ≠ [] := by
    intro hnil
    simp [hnil] at hsome
  have hpos : 0 < l.length := by
    rw [← length_names]
    exact length_pos_of_mem ((hmem n₀).2 (.inr hsome))
  refine .of_capture hcounts l ?_ hnodup ?_
  · simp [openDir, hne, hmount, buildActiveRootDirents, hxv6, hram, moduleDirents, buildModuleDirents, hchildren, hl, hpos]
  · rintro n ⟨hname, hentry⟩
    rw [if_neg (by simp [hmount])] at hentry
    rcases hentry with ⟨rf, hrf, hpath⟩ | ⟨_, ⟨_, hsome', -⟩, -⟩ | h | ⟨h, -⟩
    · rw [hfull] at hpath
      have hunder : Under d n rf.name := .inl hpath
      exact absurd ⟨rf, hrf, (setsFoundDir_of_under hunder).symm.trans (halone rf hrf), hunder⟩ (hshown n)
    · simp [hxv6] at hsome'
    · exact (hmem n).2 (.inr (hmodule n hname h))
    · exact absurd h hroot

end

/-- `"/etc"` and `"/tmp"` -/
def etc : Path := [47, 101, 116, 99]
def tmp : Path := [47, 116, 109, 112]

/-- An xv6fs root with a directory at one path, next to a ramfs. -/
def withDir (ram : List RamfsFile) (d : Path) (slots : List (Option Xv6Dirent)) : Overlay where
  ram := ram
  xv6 := some fun p => if p = d then some (.dir slots) else none
  boot := []
  stick := none

/-- The directory `"/tmp"` every boot makes in ramfs. -/
def tmpDir : RamfsFile := ⟨tmp, 0o041777, 0, by decide⟩

/-- A `"/tmp"` with the directory `a` and the file `b` in ramfs, and a file `b` in the `"/tmp"` of xv6fs. -/
def mixed : Overlay :=
  withDir [tmpDir, ⟨tmp ++ [47, 97], 0o040755, 0, by decide⟩, ⟨tmp ++ [47, 98], 0o100644, 7, by decide⟩] tmp
    [some ⟨9, [98], modeFile, 7, by decide⟩]

end Overlay

end Orthox.Listing
