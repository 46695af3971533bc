import Orthox.Memory.Cow

/-! Page tables as trees, and the x86-64 fork of an address space (`vmm_copy_pml4`, `kernel/x86_64/vmm.c`).

    The copy walks four levels of tables. Only the allocation of the new root is checked: a lower table
    whose allocation fails is built over frame 0, and the root of the unfinished copy is returned. -/

namespace Orthox.Memory
open List

/-- The entries of a page table from some index on: not present, a leaf, or a lower table with its frame and its other bits. -/
inductive Slots where
  | nil
  | hole (rest : Slots)
  | leaf (e : Pte) (rest : Slots)
  | table (page flags : Nat) (sub rest : Slots)
  deriving DecidableEq

/-- The access a leaf gives once its first store has faulted: a marked leaf is a writable one. -/
def Pte.access (e : Pte) : Pte := { e with writable := e.writable || e.cow, cow := false }

namespace Slots

/-- The frames of the tables below. -/
def tables : Slots → List Nat
  | nil => []
  | hole rest => rest.tables
  | leaf _ rest => rest.tables
  | table page _ sub rest => page :: (sub.tables ++ rest.tables)

def leaves : Slots → List Pte
  | nil => []
  | hole rest => rest.leaves
  | leaf e rest => e :: rest.leaves
  | table _ _ sub rest => sub.leaves ++ rest.leaves

/-- The frames the leaves lead to. -/
def frames (t : Slots) : List Nat := t.leaves.map Pte.phys

/-- What a process can tell about its tables: everything but where the tables are and which stores fault first. -/
def seen : Slots → Slots
  | nil => nil
  | hole rest => hole rest.seen
  | leaf e rest => leaf e.access rest.seen
  | table _ flags sub rest => table 0 flags sub.seen rest.seen

end Slots

/-! ### The copy -/

/-- A table being copied: the new one, the old one with its leaves marked, the allocator, the frames written. -/
structure Copy where
  dst : Slots
  src : Slots
  pmm : Pmm
  wrote : List Nat

/-- The body of the four nested loops of `vmm_copy_pml4`. The result of `pmm_alloc` is used unchecked; tables built over
    frame 0 overwrite each other there, and `dst` is what each loop stores. -/
def copyEntries (m : Pmm) : Slots → Copy
  | .nil => ⟨.nil, .nil, m, []⟩
  | .hole rest =>
    let r := copyEntries m rest
    ⟨.hole r.dst, .hole r.src, r.pmm, r.wrote⟩
  | .leaf e rest =>
    let s := vmCowShareLeaf m e e.pages
    let r := copyEntries s.2 rest
    ⟨.leaf s.1 r.dst, .leaf s.1 r.src, r.pmm, r.wrote⟩
  | .table page flags sub rest =>
    let a := m.alloc 1
    let c := copyEntries a.2 sub
    let r := copyEntries c.pmm rest
    ⟨.table a.1 flags c.dst r.dst, .table page flags c.src r.src, r.pmm, a.1 :: (c.wrote ++ r.wrote)⟩

/-- An address space: its lower half, which is the process's, and the entries of the upper half, which all share. -/
structure Pml4 where
  user : Slots
  kernel : Slots

/-- What `vmm_copy_pml4` returns and leaves behind. -/
structure Pml4Copy where
  ret : Nat
  new : Pml4
  old : Pml4
  pmm : Pmm
  wrote : List Nat

def vmmCopyPml4 (m : Pmm) (old : Pml4) : Pml4Copy :=
  let a := m.alloc 1
  if a.1 = 0 then ⟨0, ⟨.nil, .nil⟩, old, a.2, []⟩
  else
    let c := copyEntries a.2 old.user
    ⟨a.1, ⟨c.dst, old.kernel⟩, ⟨c.src, old.kernel⟩, c.pmm, a.1 :: c.wrote⟩

/-- A complete clone: tables of its own on frames that were free, which lead to the parent's pages with the parent's
    access, and a parent that sees what it saw. -/
structure Pml4Copy.Complete (m : Pmm) (old : Pml4) (c : Pml4Copy) : Prop where
  nodup : (c.ret :: c.new.user.tables).Nodup
  fresh : ∀ q ∈ c.ret :: c.new.user.tables, m.Free q ∧ ¬ c.pmm.Free q ∧ c.pmm.getRef q = 1
  wrote : c.wrote = c.ret :: c.new.user.tables
  child : c.new.user.seen = old.user.seen ∧ c.new.kernel = old.kernel
  parent : c.old.user.seen = old.user.seen ∧ c.old.kernel = old.kernel

/-- A fork that failed cleanly: 0 is returned, nothing was written, and allocator and parent are as before. -/
structure Pml4Copy.Refused (m : Pmm) (old : Pml4) (c : Pml4Copy) : Prop where
  ret : c.ret = 0
  wrote : c.wrote = []
  pmm : Pmm.Same m c.pmm
  parent : c.old = old

/-! ### What allocating and counting leave alone -/

/-- Between two states of the allocator frames were only taken, and only the frames of `l` gained references. -/
structure Pmm.Later (l : List Nat) (m m' : Pmm) : Prop where
  ok : m'.Ok
  free : ∀ pa, m'.Free pa → m.Free pa
  keep : ∀ pa, ¬ m.Free pa → pa ∉ l → m'.getRef pa = m.getRef pa
  counted : ∀ pa, m.getRef pa ≠ 0 → m'.getRef pa ≠ 0
  reserved : ∀ pa, m.Reserved pa → m'.Reserved pa

namespace Pmm

variable {m : Pmm}

theorem Later.refl (hok : m.Ok) (l : List Nat) : Later l m m :=
  ⟨hok, fun _ h => h, fun _ _ _ => rfl, fun _ h => h, fun _ h => h⟩

variable {l l' : List Nat}

theorem Later.trans {m' m'' : Pmm} (h : Later l m m') (h' : Later l' m' m'') : Later (l ++ l') m m'' where
  ok := h'.ok
  free pa hf := h.free pa (h'.free pa hf)
  keep pa hnf hl := by
    rw [mem_append, not_or] at hl
    exact (h'.keep pa (fun hf => hnf (h.free pa hf)) hl.2).trans (h.keep pa hnf hl.1)
  counted pa hc := h'.counted pa (h.counted pa hc)
  reserved pa hr := h'.reserved pa (h.reserved pa hr)

theorem Later.mono {m' : Pmm} (h : Later l m m') (hl : ∀ pa ∈ l, pa ∈ l') : Later l' m m' :=
  { h with keep := fun pa hnf hout => h.keep pa hnf fun hin => hout (hl pa hin) }

theorem Later.alloc (hok : m.Ok) : Later [] m (m.alloc 1).2 := by
  refine ⟨alloc_ok hok 1, ?_, ?_, ?_, fun pa hr => hr.alloc hok 1⟩
  all_goals rcases alloc_spec hok 1 with ⟨-, hsame⟩ | ⟨-, -, hfree, href, hleft⟩
  · exact fun pa hf => (hsame.free pa).mp hf
  · exact fun pa hf => ((hleft pa).mp hf).1
  · exact fun pa _ _ => hsame.ref pa
  · intro pa hnf _
    rw [href, if_neg fun hin => hnf (hfree pa hin)]
  · exact fun pa hc => (hsame.ref pa).trans_ne hc
  · intro pa hc
    rwa [href, if_neg fun hin => hc (hok.free (hfree pa hin))]

theorem Later.incref (hok : m.Ok) {p : Nat} (hp : m.getRef p ≠ 0) : Later [p] m (m.incref p) where
  ok := incref_ok hok hp
  free pa hf := ((incref_counted hp).2 pa).mp hf
  keep pa _ hout := by
    rw [(incref_counted hp).1, if_neg fun h => hout (mem_singleton.mpr h.1)]
  counted pa hc := fun hz => hc ((incref_zero hp pa).mp hz)
  reserved _ hr := hr.incref hp

end Pmm

/-- A leaf of an address space leads to one counted page, or to memory the allocator does not manage. -/
def Pte.Backed (m : Pmm) (e : Pte) : Prop := (m.getRef e.phys ≠ 0 ∧ e.pages = 1) ∨ m.Reserved e.phys

variable {m : Pmm} {e : Pte}

theorem Pte.Backed.later {m' : Pmm} (h : m.Later l m') (hb : e.Backed m) : e.Backed m' :=
  hb.imp (fun hc => ⟨h.counted _ hc.1, hc.2⟩) (h.reserved _)

theorem Pte.Backed.not_free (hok : m.Ok) (hb : e.Backed m) : ¬ m.Free e.phys := by
  rcases hb with ⟨hc, -⟩ | hr
  · exact fun hf => hc (hok.free hf)
  · exact hr.2

/-- `vm_cow_share_leaf` keeps the access of a leaf and takes no frame. -/
theorem shareLeaf_spec (hok : m.Ok) (hb : e.Backed m) : let s := vmCowShareLeaf m e e.pages
    s.1.access = e.access ∧ m.Later [e.phys] s.2 ∧ s.2.freeCount = m.freeCount := by
  intro s
  simp only [s, vmCowShareLeaf]
  rcases hb with ⟨hc, hpages⟩ | hr
  · rw [if_neg hc, hpages]
    have hphys : (if e.writable then e.mkcow else e).phys = e.phys := by split_ifs <;> rfl
    refine ⟨?_, ?_, ?_⟩
    · rcases hw : e.writable with - | -
      · rfl
      · simp [Pte.access, Pte.mkcow, hw]
    · simpa only [range_one, foldl_cons, foldl_nil, hphys, add_zero] using Pmm.Later.incref hok hc
    · exact Pmm.incref_count m _
  · rw [if_pos hr.1]
    exact ⟨rfl, .refl hok _, rfl⟩

/-! ### The copied table -/

/-- What copying a table comes to, whether or not there was memory for it. -/
structure Copied (m : Pmm) (t : Slots) (c : Copy) : Prop where
  later : m.Later t.frames c.pmm
  src : c.src.seen = t.seen
  dst : c.dst.seen = t.seen
  wrote : c.wrote = c.dst.tables
  enough : t.tables.length ≤ m.freeCount → c.pmm.freeCount + t.tables.length = m.freeCount ∧ c.dst.tables.Nodup ∧
    ∀ q ∈ c.dst.tables, m.Free q ∧ ¬ c.pmm.Free q ∧ c.pmm.getRef q = 1
  short : m.freeCount < t.tables.length → 0 ∈ c.dst.tables

/-- One allocated page: it was free, and it is the taker's now. -/
theorem alloc_one (hok : m.Ok) (hne : (m.alloc 1).1 ≠ 0) :
    m.Free (m.alloc 1).1 ∧ ¬ (m.alloc 1).2.Free (m.alloc 1).1 ∧ (m.alloc 1).2.getRef (m.alloc 1).1 = 1 := by
  obtain ⟨-, -, hfree, href, hleft⟩ := (Pmm.alloc_spec hok 1).resolve_left fun h => hne h.1
  refine ⟨hfree _ (by omega), fun hf => ((hleft _).mp hf).2 (by omega), ?_⟩
  rw [href, if_pos (by omega)]

variable {t : Slots} {q : Nat}

/-- A frame taken before a table is copied is still the taker's afterwards. -/
theorem Copied.keeps {c : Copy} (h : Copied m t c) (hq : ¬ m.Free q) (hl : q ∉ t.frames)
    (hone : m.getRef q = 1) : ¬ c.pmm.Free q ∧ c.pmm.getRef q = 1 :=
  ⟨fun hf => hq (h.later.free q hf), (h.later.keep q hq hl).trans hone⟩

theorem not_mem_frames (hok : m.Ok) (hb : ∀ e ∈ t.leaves, e.Backed m) (hq : m.Free q) : q ∉ t.frames := by
  intro hin
  obtain ⟨e, he, rfl⟩ := mem_map.mp hin
  exact (hb e he).not_free hok hq

theorem copyEntries_spec : ∀ {m : Pmm} (t : Slots), m.Ok → (∀ e ∈ t.leaves, e.Backed m) → Copied m t (copyEntries m t)
  | m, .nil, hok, _ => ⟨.refl hok _, rfl, rfl, rfl, fun _ => ⟨rfl, nodup_nil, nofun⟩, nofun⟩
  | m, .hole rest, hok, hb => by
    obtain ⟨hl, hs, hd, hw, he, hn⟩ := copyEntries_spec rest hok hb
    exact ⟨hl, congrArg Slots.hole hs, congrArg Slots.hole hd, hw, he, hn⟩
  | m, .leaf e rest, hok, hb => by
    obtain ⟨hacc, hlater, hcount⟩ := shareLeaf_spec hok (hb e mem_cons_self)
    have hrest : ∀ e' ∈ rest.leaves, e'.Backed m := fun e' he' => hb e' (mem_cons_of_mem _ he')
    obtain ⟨hl, hs, hd, hw, he, hn⟩ := copyEntries_spec rest hlater.ok fun e' he' => (hrest e' he').later hlater
    refine ⟨hlater.trans hl, ?_, ?_, hw, fun hle => ?_, fun hlt => hn (hcount.trans_lt hlt)⟩
    · exact congrArg₂ Slots.leaf hacc hs
    · exact congrArg₂ Slots.leaf hacc hd
    · obtain ⟨hleft, hnodup, hall⟩ := he (hle.trans_eq hcount.symm)
      exact ⟨hleft.trans hcount, hnodup, fun q hq => ⟨hlater.free q (hall q hq).1, (hall q hq).2⟩⟩
  | m, .table page flags sub rest, hok, hb => by
    have ha := Pmm.Later.alloc hok
    have hbs : ∀ e ∈ sub.leaves, e.Backed m := fun e he => hb e (mem_append_left _ he)
    have hbr : ∀ e ∈ rest.leaves, e.Backed m := fun e he => hb e (mem_append_right _ he)
    have hc := copyEntries_spec sub ha.ok fun e he => (hbs e he).later ha
    have hr := copyEntries_spec rest hc.later.ok fun e he => ((hbr e he).later ha).later hc.later
    obtain ⟨hzero, hcount⟩ := Pmm.alloc_count hok
    refine ⟨?_, ?_, ?_, ?_, fun hle => ?_, fun hlt => ?_⟩
    · refine (ha.trans (hc.later.trans hr.later)).mono fun pa hpa => ?_
      rwa [Slots.frames, Slots.frames, ← map_append] at hpa
    · exact congrArg₂ (Slots.table 0 flags) hc.src hr.src
    · exact congrArg₂ (Slots.table 0 flags) hc.dst hr.dst
    · exact congrArg (cons _) (congrArg₂ (· ++ ·) hc.wrote hr.wrote)
    · rw [Slots.tables, length_cons, length_append] at hle ⊢
      have hne : (m.alloc 1).1 ≠ 0 := fun hz => by have := hzero.mp hz; omega
      obtain ⟨hleft, hnodup, hsub⟩ := hc.enough (by omega)
      obtain ⟨hleft', hnodup', hrest⟩ := hr.enough (by omega)
      obtain ⟨hq, hq', href⟩ := alloc_one hok hne
      refine ⟨by simp only [copyEntries]; omega, nodup_cons.mpr ⟨?_, nodup_append.mpr ⟨hnodup, hnodup', ?_⟩⟩, ?_⟩
      · rw [mem_append]
        rintro (hin | hin)
        · exact hq' (hsub _ hin).1
        · exact hq' (hc.later.free _ (hrest _ hin).1)
      · rintro x hx y hy rfl
        exact (hsub x hx).2.1 (hrest x hy).1
      · intro x hx
        rcases mem_cons.mp hx with rfl | hx
        · obtain ⟨hnf, hone'⟩ := hc.keeps hq' (not_mem_frames hok hbs hq) href
          exact ⟨hq, hr.keeps hnf (not_mem_frames hok hbr hq) hone'⟩
        rcases mem_append.mp hx with hx | hx
        · obtain ⟨hf, hnf, hone'⟩ := hsub x hx
          exact ⟨ha.free x hf, hr.keeps hnf (not_mem_frames hok hbr (ha.free x hf)) hone'⟩
        · obtain ⟨hf, hnf⟩ := hrest x hx
          exact ⟨ha.free x (hc.later.free x hf), hnf⟩
    · -- the allocation that fails is this one, one below, or one of the later entries
      rw [Slots.tables, length_cons, length_append] at hlt
      simp only [copyEntries, Slots.tables, mem_cons, mem_append]
      rcases eq_or_ne (m.alloc 1).1 0 with hz | hne
      · exact .inl hz.symm
      rcases lt_or_ge (m.alloc 1).2.freeCount sub.tables.length with hlt' | hge
      · exact .inr (.inl (hc.short hlt'))
      · have hleft := (hc.enough hge).1
        exact .inr (.inr (hr.short (by omega)))

/-! ### The fork -/

theorem vmmCopyPml4_refused (hok : m.Ok) (old : Pml4) (hz : (m.alloc 1).1 = 0) : (vmmCopyPml4 m old).Refused m old := by
  have hsame := (Pmm.alloc_spec hok 1).resolve_right fun h => h.1 hz
  rw [vmmCopyPml4, if_pos hz]
  exact ⟨rfl, rfl, hsame.2, rfl⟩

/-- A parent with one empty table under its root: the root on frame 1, the table on frame 2. -/
def Pml4.sparse : Pml4 := ⟨.table 2 7 (.hole .nil) .nil, .nil⟩

/-- The memory of that parent, with `n` frames left. -/
def Pmm.leaving (n : Nat) : Pmm := ⟨1, n + 2, fun i => i < 2, fun i => if i < 2 then 1 else 0, 0⟩

theorem Pmm.leaving_ok (n : Nat) : (leaving n).Ok := by
  refine ⟨fun {pa} hf => ?_, fun hf => ?_, ?_⟩
  · obtain ⟨hin, hbit⟩ := free_iff.mp hf
    rw [getRef_eq, if_pos hin]
    exact if_neg (of_decide_eq_false hbit)
  · exact absurd (free_iff.mp hf).1.1 (Nat.not_succ_le_zero 0)
  · rw [getRef_eq, if_neg fun h => Nat.not_succ_le_zero 0 h.1]

end Orthox.Memory
