import Orthox.Memory.Sv39Trees

/-! Mapping a page in a user root of riscv64. On the way down `riscv64_sv39_walk_create` meets a missing table, one of
    the kernel's or a private one; after each turn the walk stands at a private table. So only private and new tables
    are written, and the tree under the root gains the new tables and exchanges one leaf. -/

namespace Orthox.Memory.Sv39
open List Function Option

/-! ### Walks -/

section walks
variable {mem mem' : Mem} {page page' q f i : Nat} {t : Slots}

/-- What stands below a table entry of a tree. -/
theorem Reads.entry (h : Reads mem page i t) {j : Nat} (hij : i ≤ j) (hj : j < 512) (he : mem page j = .table q f) :
    ∃ sub, Reads mem q 0 sub ∧ q ∈ t.tables ∧ ∀ x ∈ sub.tables, x ∈ t.tables := by
  induction t generalizing i with
  | nil => exact absurd (h ▸ hij) (Nat.not_le_of_lt hj)
  | hole _ ih | leaf _ _ ih =>
    rcases eq_or_lt_of_le hij with rfl | hij
    · exact absurd (he.symm.trans h.1) nofun
    · exact ih h.2 hij
  | table p g sub r _ ih =>
    rcases eq_or_lt_of_le hij with rfl | hij
    · obtain ⟨rfl, rfl⟩ := Entry.table.inj (he.symm.trans h.1)
      exact ⟨sub, h.2.1, mem_cons_self, fun x hx => mem_cons_of_mem _ (mem_append_left _ hx)⟩
    · obtain ⟨s, hs, hq, hin⟩ := ih h.2.2 hij
      exact ⟨s, hs, mem_cons_of_mem _ (mem_append_right _ hq), fun x hx => mem_cons_of_mem _ (mem_append_right _ (hin x hx))⟩

/-- A copy of a page reads the same. -/
theorem Reads.moved (h : Reads mem page i t) (hpage : ∀ j, mem' page' j = mem page j) (htables : ∀ x ∈ t.tables, mem' x = mem x) :
    Reads mem' page' i t := by
  induction t generalizing i with
  | nil => exact h
  | hole _ ih | leaf _ _ ih => exact ⟨(hpage i).trans h.1, ih h.2 htables⟩
  | table q f sub r _ ih =>
    have hq : mem' q = mem q := htables q mem_cons_self
    refine ⟨(hpage i).trans h.1, h.2.1.congr (fun j _ => by rw [hq]) fun x hx => ?_, ih h.2.2 fun x hx => ?_⟩
    · exact htables x (mem_cons_of_mem _ (mem_append_left _ hx))
    · exact htables x (mem_cons_of_mem _ (mem_append_right _ hx))

/-- A walk sees only the tables of the tree it walks. -/
theorem walkLeaf_congr {path : List Nat} (h : Reads mem page 0 t) (hpath : ∀ j ∈ path, j < 512) (hpage : ∀ j < 512, mem' page' j = mem page j)
    (htables : ∀ x ∈ t.tables, mem' x = mem x) : walkLeaf mem' path page' = walkLeaf mem path page := by
  induction path generalizing page page' t with
  | nil => rfl
  | cons j rest ih =>
    have hj : j < 512 := hpath j mem_cons_self
    rcases rest with - | ⟨k, rest⟩
    · rw [walkLeaf, walkLeaf, hpage j hj]
    rw [walkLeaf, walkLeaf, hpage j hj]
    rcases he : mem page j with - | ⟨q, f⟩ | e
    · rfl
    · obtain ⟨sub, hsub, hq, hin⟩ := h.entry (Nat.zero_le j) hj he
      exact ih hsub (fun x hx => hpath x (mem_cons_of_mem _ hx)) (fun k _ => by rw [htables q hq]) fun x hx => htables x (hin x hx)
    · rfl

theorem vpnIndex_lt (va level : Nat) : vpnIndex va level < 512 := Nat.mod_lt _ (by decide)

theorem translate_congr (h : Reads mem page 0 t) (hmem : ∀ x ∈ page :: t.tables, mem' x = mem x) (va : Nat) :
    translate mem' page va = translate mem page va := by
  refine walkLeaf_congr h (fun j hj => ?_) (fun j _ => by rw [hmem page mem_cons_self]) fun x hx => hmem x (mem_cons_of_mem _ hx)
  simp only [mem_cons, not_mem_nil, or_false] at hj
  rcases hj with rfl | rfl | rfl
  all_goals exact vpnIndex_lt ..

/-- The tables a root leads to are those of its tree. -/
theorem TableOf.mem_tables (h : TableOf mem page q) (hr : Reads mem page 0 t) :
    q ∈ page :: t.tables ∧ ∃ sub, Reads mem q 0 sub ∧ ∀ x ∈ sub.tables, x ∈ t.tables := by
  induction h with
  | root => exact ⟨mem_cons_self, t, hr, fun _ => id⟩
  | next i _ hi he ih =>
    obtain ⟨-, sub, hsub, hin⟩ := ih
    obtain ⟨s, hs, hq, hin'⟩ := hsub.entry (Nat.zero_le i) hi he
    exact ⟨mem_cons_of_mem _ (hin _ hq), s, hs, fun x hx => hin x (hin' x hx)⟩

end walks

/-! ### One entry of a page -/

/-- The page a leaf holds for the user. -/
def held : Option Pte → List Nat
  | some e => if e.user then [e.phys] else []
  | none => []

/-- The entries of a page before an index, as a context for the others. -/
structure Before (K : Nat → Prop) (mem : Mem) (kt kt' : Option Slots) (level d page i j : Nat) (pre : Slots → Slots) (ts fs : List Nat) :
    Prop where
  tables : ∀ u, (own riscv64 kt level (pre u)).tables = ts ++ (own riscv64 kt' level u).tables
  frames : ∀ u, (own riscv64 kt level (pre u)).frames = fs ++ (own riscv64 kt' level u).frames
  depth : ∀ u, Depth d u → Depth d (pre u)
  reads : ∀ mem' u, (∀ k < j, mem' page k = mem page k) → (∀ q ∈ ts, mem' q = mem q) → (∀ q, K q → mem' q = mem q) →
    Reads mem' page j u → Reads mem' page i (pre u)

section entry
variable {K : Nat → Prop} {mem : Mem} {kernel : Option Nat} {kt kt' : Option Slots} {level d page i j : Nat} {pre : Slots → Slots}
  {ts fs : List Nat} {m : Pmm} {t : Slots}

theorem Depth.rest (h : Depth d t) : Depth d t.rest := by
  rcases t with - | r | ⟨e, r⟩ | ⟨q, f, sub, r⟩
  · exact h
  · exact h
  · exact h.2
  rcases d with - | d
  · exact absurd h id
  · exact h.2

theorem own_leaf_parts (level : Nat) (hok : KernelOk riscv64 m kt) (e : Pte) (v : Slots) :
    (own riscv64 kt level (.leaf e v)).tables = (own riscv64 (next kt) level v).tables ∧
    (own riscv64 kt level (.leaf e v)).frames = held (some e) ++ (own riscv64 (next kt) level v).frames := by
  rcases hu : e.user with - | -
  · rw [own_leaf_skip (by simp [riscv64, hu]), held, hu]
    exact ⟨rfl, rfl⟩
  · rw [own_leaf (hok.leaf hu) rfl hu, held, hu]
    exact ⟨rfl, rfl⟩

theorem Before.cons (h : Before K mem (next kt) kt' level d page (i + 1) j pre ts fs) (hij : i < j) (entry : Slots → Slots) {ts₀ fs₀ : List Nat}
    (htables : ∀ u, (own riscv64 kt level (entry u)).tables = ts₀ ++ (own riscv64 (next kt) level u).tables)
    (hframes : ∀ u, (own riscv64 kt level (entry u)).frames = fs₀ ++ (own riscv64 (next kt) level u).frames)
    (hdepth : ∀ u, Depth d u → Depth d (entry u))
    (hreads : ∀ mem' u, mem' page i = mem page i → (∀ q ∈ ts₀, mem' q = mem q) → (∀ q, K q → mem' q = mem q) →
      Reads mem' page (i + 1) u → Reads mem' page i (entry u)) :
    Before K mem kt kt' level d page i j (entry ∘ pre) (ts₀ ++ ts) (fs₀ ++ fs) := by
  refine ⟨fun u => ?_, fun u => ?_, fun u hu => hdepth _ (h.depth u hu), fun mem' u hpage hts hk hu => hreads mem' _ (hpage i hij) ?_ hk
    (h.reads mem' u hpage ?_ hk hu)⟩
  · rw [comp_apply, htables, h.tables, append_assoc]
  · rw [comp_apply, hframes, h.frames, append_assoc]
  · exact fun q hq => hts q (mem_append_left _ hq)
  · exact fun q hq => hts q (mem_append_right _ hq)

/-- A tree with one of its entries brought out. -/
theorem Reads.split (level : Nat) {n : Nat} (h : Reads mem page i t) (hd : Depth d t) (hk : Kernel K mem i kernel kt)
    (hok : KernelOk riscv64 m kt) (hn : i + n < 512) :
    ∃ kt' pre ts fs u, t = pre u ∧ Reads mem page (i + n) u ∧ Depth d u ∧ Kernel K mem (i + n) kernel kt' ∧ KernelOk riscv64 m kt' ∧
      Before K mem kt kt' level d page i (i + n) pre ts fs := by
  induction n generalizing i t kt with
  | zero => exact ⟨kt, id, [], [], t, rfl, h, hd, hk, hok, (⟨fun _ => rfl, fun _ => rfl, fun _ => id, fun _ _ _ _ _ => id⟩)⟩
  | succ n ih =>
    have hi : i < 512 := by omega
    have hlt : i < i + (n + 1) := by omega
    obtain ⟨kt', pre, ts, fs, u, hu, hread, hdepth, hkernel, hok', hbefore⟩ := ih (h.rest hi) hd.rest (hk.next hi) hok.next (by omega)
    rw [add_right_comm] at hread hkernel hbefore
    rcases t with - | r | ⟨e, r⟩ | ⟨q, f, sub, r⟩
    · exact absurd rfl (h.ne_nil hi)
    · refine ⟨kt', .hole ∘ pre, [] ++ ts, [] ++ fs, u, congrArg _ hu, hread, hdepth, hkernel, hok', hbefore.cons hlt .hole (fun _ => rfl)
        (fun _ => rfl) (fun _ => id) fun mem' v hm _ _ hv => ⟨hm.trans h.1, hv⟩⟩
    · have hown := own_leaf_parts level hok e
      exact ⟨kt', .leaf e ∘ pre, [] ++ ts, held (some e) ++ fs, u, congrArg _ hu, hread, hdepth, hkernel, hok', hbefore.cons hlt (.leaf e)
        (fun v => (hown v).1) (fun v => (hown v).2) (fun v hv => ⟨hd.1, hv⟩) fun mem' v hm _ _ hv => ⟨hm.trans h.1, hv⟩⟩
    rcases d with - | d
    · exact absurd hd id
    rcases hkt : kernelTable kt q f with - | -
    · refine ⟨kt', .table q f sub ∘ pre, (q :: (own riscv64 (below kt) (level + 1) sub).tables) ++ ts, (own riscv64 (below kt) (level + 1) sub).frames ++ fs, u,
        congrArg _ hu, hread, hdepth, hkernel, hok', hbefore.cons hlt (.table q f sub) (fun v => (own_parts level sub v hkt).1)
        (fun v => (own_parts level sub v hkt).2) (fun v hv => ⟨hd.1, hv⟩) fun mem' v hm hts hK hv => ⟨hm.trans h.1, ?_, hv⟩⟩
      exact ((hk.below hi).reads_congr (level + 1) h.2.1 mem' hts hK).1
    obtain ⟨hq, hsub, -⟩ := hk.shared h.2.1 hkt
    refine ⟨kt', .table q f sub ∘ pre, [] ++ ts, [] ++ fs, u, congrArg _ hu, hread, hdepth, hkernel, hok', hbefore.cons hlt (.table q f sub)
      (fun v => ?_) (fun v => ?_) (fun v hv => ⟨hd.1, hv⟩) fun mem' v hm _ hK hv => ⟨hm.trans h.1, ?_, hv⟩⟩
    · rw [own_table_skip hkt]
      rfl
    · rw [own_table_skip hkt]
      rfl
    · exact h.2.1.congr (fun k _ => by rw [hK q hq]) fun x hx => hK x (hsub x hx)

end entry

/-! ### The walk -/

/-- A private table and the tree that stands there from an index on. -/
structure Stands (K : Nat → Prop) (kernel : Option Nat) (kt : Option Slots) (level d page i : Nat) (t : Slots) (s : Store) : Prop where
  ok : s.pmm.Ok
  max : ∀ pa, s.pmm.getRef pa ≤ 65535
  kernelOk : KernelOk riscv64 s.pmm kt
  kernelUsed : ∀ q, K q → ¬ s.pmm.Free q
  reads : Reads s.mem page i t
  depth : Depth d t
  kernel : Kernel K s.mem i kernel kt
  priv : Private K kt level page t
  used : ∀ q ∈ page :: (own riscv64 kt level t).tables, ¬ s.pmm.Free q

/-- What a walk does to the tree: new tables, and `new` in place of `old` among the pages held. -/
structure Mapped (kt : Option Slots) (level d page : Nat) (t t' : Slots) (ts old new : List Nat) (s s' : Store) : Prop where
  grown : riscv64.Grown s.pmm s'.pmm ts []
  reads : Reads s'.mem page 0 t'
  depth : Depth d t'
  tables : (own riscv64 kt level t').tables.Perm (ts ++ (own riscv64 kt level t).tables)
  frames : ∃ mid, (own riscv64 kt level t').frames.Perm (new ++ mid) ∧ (own riscv64 kt level t).frames.Perm (old ++ mid)
  mem : ∀ q, q ∉ page :: (own riscv64 kt level t').tables → s'.mem q = s.mem q
  freed : s'.freed = s.freed

section walk
variable {K : Nat → Prop} {kernel : Option Nat} {kt kt' : Option Slots} {level d page : Nat} {t : Slots} {s s₁ s' : Store}

theorem Private.mono {t t' : Slots} (h : Private K kt level page t)
    (hsub : (own riscv64 kt' level t').tables.Sublist (own riscv64 kt level t).tables) : Private K kt' level page t' :=
  ⟨h.nodup.sublist (hsub.cons_cons _), fun q hq => h.kernel q ((hsub.cons_cons _).subset hq)⟩

/-- The entry at an index, in its context. -/
theorem Stands.at (h : Stands K kernel kt level d page 0 t s) {i : Nat} (hi : i < 512) :
    ∃ kt' pre ts fs u, t = pre u ∧ Stands K kernel kt' level d page i u s ∧ Before K s.mem kt kt' level d page 0 i pre ts fs := by
  obtain ⟨kt', pre, ts, fs, u, rfl, hread, hdepth, hk, hok, hb⟩ := h.reads.split level (n := i) h.depth h.kernel h.kernelOk (by omega)
  rw [zero_add] at hread hk hb
  have hsub : (own riscv64 kt' level u).tables.Sublist (own riscv64 kt level (pre u)).tables := by
    rw [hb.tables]
    exact sublist_append_right _ _
  exact ⟨kt', pre, ts, fs, u, rfl, ⟨h.ok, h.max, hok, h.kernelUsed, hread, hdepth, hk, h.priv.mono hsub,
    fun q hq => h.used q ((hsub.cons_cons _).subset hq)⟩, hb⟩

/-- At the last table the leaf is put in. -/
theorem Stands.put (h : Stands K kernel kt level 0 page 0 t s) {i : Nat} (hi : i < 512) (e : Pte) :
    ∃ t', Mapped kt level 0 page t t' [] (held (walkLeaf s.mem [i] page)) (held (some e)) s (s.set page i (.leaf e)) := by
  obtain ⟨kt', pre, ts, fs, u, rfl, hs, hb⟩ := h.at hi
  have hu : (own riscv64 kt' level u).tables = (own riscv64 (next kt') level u.rest).tables ∧
      (own riscv64 kt' level u).frames = held (walkLeaf s.mem [i] page) ++ (own riscv64 (next kt') level u.rest).frames := by
    have hread := hs.reads
    rcases u with - | r | ⟨e', r⟩ | ⟨q, f, sub, r⟩
    · exact absurd rfl (hread.ne_nil hi)
    · rw [walkLeaf, hread.1]
      exact ⟨rfl, rfl⟩
    · rw [walkLeaf, hread.1]
      exact own_leaf_parts level hs.kernelOk e' r
    · exact absurd hs.depth id
  obtain ⟨hnew, hheld⟩ := own_leaf_parts level hs.kernelOk e u.rest
  have hpriv : Private K (next kt') level page u.rest := hs.priv.mono (hu.1 ▸ List.Sublist.refl _)
  obtain ⟨hrest, -⟩ := hpriv.set (hs.kernel.next hi) (hs.reads.rest hi)
  have hne : ∀ q ∈ ts, q ≠ page := by
    rintro q hq rfl
    refine (nodup_cons.mp h.priv.nodup).1 ?_
    rw [hb.tables]
    exact mem_append_left _ hq
  refine ⟨pre (.leaf e u.rest), .refl riscv64 h.max, ?_, hb.depth _ ⟨rfl, hs.depth.rest⟩, ?_,
    ⟨fs ++ (own riscv64 (next kt') level u.rest).frames, ?_, ?_⟩, fun q hq => set_of_ne (ne_of_not_mem_cons hq), rfl⟩
  · exact hb.reads _ _ (fun k hk => set_other (ne_of_lt hk)) (fun q hq => set_of_ne (hne q hq))
      (fun q hq => set_of_ne fun heq => h.priv.kernel page mem_cons_self (heq ▸ hq)) ⟨set_at, hrest⟩
  · rw [hb.tables, hb.tables, hnew, hu.1]
    rfl
  · rw [hb.frames, hheld]
    exact perm_append_comm_assoc ..
  · rw [hb.frames, hu.2]
    exact perm_append_comm_assoc ..

/-- One turn of the walk: the table of the next level stands private, with the tables `ts` taken for it. -/
structure Stepped (K : Nat → Prop) (kernel : Option Nat) (kt : Option Slots) (level d page i child f : Nat) (u sub : Slots) (ts os : List Nat)
    (s s₁ : Store) : Prop where
  grown : riscv64.Grown s.pmm s₁.pmm ts []
  mem : ∀ q, q ≠ page → q ∉ ts → s₁.mem q = s.mem q
  other : ∀ j, j ≠ i → s₁.mem page j = s.mem page j
  entry : s₁.mem page i = .table child f
  table : kernelTable kt child f = false
  freed : s₁.freed = s.freed
  stands : Stands K (kernelChild s.mem kernel i) (below kt) (level + 1) d child 0 sub s₁
  taken : child :: (own riscv64 (below kt) (level + 1) sub).tables = ts ++ os
  tables : (own riscv64 kt level u).tables = os ++ (own riscv64 (next kt) level u.rest).tables
  frames : (own riscv64 kt level u).frames = (own riscv64 (below kt) (level + 1) sub).frames ++ (own riscv64 (next kt) level u.rest).frames
  leaf : ∀ path, (∀ j ∈ path, j < 512) → path ≠ [] → walkLeaf s₁.mem path child = walkLeaf s.mem (i :: path) page

section turn
variable {i : Nat} {u sub : Slots}

/-- A new table, with what it starts with. -/
theorem Stands.fresh (h : Stands K kernel kt level (d + 1) page i u s) (hi : i < 512) (hne : (s.pmm.alloc 1).1 ≠ 0)
    (hpmm : s₁.pmm = (s.pmm.alloc 1).2) (hfreed : s₁.freed = s.freed) (hmem : ∀ q, q ≠ page → q ≠ (s.pmm.alloc 1).1 → s₁.mem q = s.mem q)
    (hother : ∀ j, j ≠ i → s₁.mem page j = s.mem page j) (hentry : s₁.mem page i = .table (s.pmm.alloc 1).1 1)
    (hreads : Reads s₁.mem (s.pmm.alloc 1).1 0 sub) (hdepth : Depth d sub) (hsub : Inert riscv64 (below kt) (level + 1) sub)
    (htables : (own riscv64 kt level u).tables = (own riscv64 (next kt) level u.rest).tables)
    (hframes : (own riscv64 kt level u).frames = (own riscv64 (next kt) level u.rest).frames)
    (hleaf : ∀ path, (∀ j ∈ path, j < 512) → path ≠ [] → walkLeaf s₁.mem path (s.pmm.alloc 1).1 = walkLeaf s.mem (i :: path) page) :
    Stepped K kernel kt level d page i (s.pmm.alloc 1).1 1 u sub [(s.pmm.alloc 1).1] [] s s₁ := by
  have hg : riscv64.Grown s.pmm s₁.pmm [(s.pmm.alloc 1).1] [] := hpmm ▸ Port.Grown.alloc h.ok h.max hne
  have hnew : s.pmm.Free (s.pmm.alloc 1).1 := hg.fresh _ (mem_singleton_self _)
  have hK : ¬ K (s.pmm.alloc 1).1 := fun hin => h.kernelUsed _ hin hnew
  have hkernel : ∀ q, K q → s₁.mem q = s.mem q := fun q hq =>
    hmem q (fun heq => h.priv.kernel page mem_cons_self (heq ▸ hq)) fun heq => hK (heq ▸ hq)
  have hone : ∀ q ∈ (s.pmm.alloc 1).1 :: (own riscv64 (below kt) (level + 1) sub).tables, q = (s.pmm.alloc 1).1 := fun q hq => by
    rw [hsub.1] at hq
    exact mem_singleton.mp hq
  refine ⟨hg, fun q hp hq => hmem q hp fun heq => hq (heq ▸ mem_singleton_self _), hother, hentry, h.kernelOk.table hnew 1, hfreed, ?_, ?_,
    htables, ?_, hleaf⟩
  · refine ⟨hg.ok h.ok, hg.max, h.kernelOk.below.grown hg, fun q hq hf => h.kernelUsed q hq ((hg.free q).mp hf).1, hreads, hdepth,
      (h.kernel.below hi).congr hkernel, ⟨?_, fun q hq => hone q hq ▸ hK⟩, fun q hq hf => ?_⟩
    · rw [hsub.1]
      exact nodup_singleton _
    · rw [hone q hq] at hf
      exact ((hg.free _).mp hf).2 (mem_singleton_self _)
  · rw [hsub.1]
    rfl
  · rw [hframes, hsub.2]
    rfl

/-- So many entries that are not valid. -/
def holes : Nat → Slots
  | 0 => .nil
  | n + 1 => .hole (holes n)

variable {mem : Mem} {child p : Nat}

theorem reads_holes (h : ∀ j, mem p j = .invalid) : ∀ {n i : Nat}, i + n = 512 → Reads mem p i (holes n)
  | 0, _, hn => hn
  | _ + 1, i, hn => ⟨h i, reads_holes h (by omega)⟩

theorem holes_depth (d : Nat) : ∀ n, Depth d (holes n)
  | 0 => trivial
  | n + 1 => holes_depth d n

theorem holes_empty : ∀ n, (holes n).tables = [] ∧ (holes n).leaves = []
  | 0 => ⟨rfl, rfl⟩
  | n + 1 => holes_empty n

theorem holes_inert : ∀ (kt : Option Slots) (level n : Nat), Inert riscv64 kt level (holes n)
  | _, _, 0 => ⟨rfl, rfl⟩
  | kt, level, n + 1 => holes_inert (next kt) level n

/-- A page without valid entries. -/
theorem reads_empty (d : Nat) (h : ∀ j, mem p j = .invalid) :
    ∃ t, Reads mem p 0 t ∧ Depth d t ∧ t.tables = [] ∧ t.leaves = [] ∧ ∀ kt level, Inert riscv64 kt level t := by
  obtain ⟨n, hn⟩ : ∃ n, 0 + n = 512 := ⟨512, rfl⟩
  exact ⟨holes n, reads_holes h hn, holes_depth d n, (holes_empty n).1, (holes_empty n).2, fun kt level => holes_inert kt level n⟩

theorem walkLeaf_invalid (h : ∀ j, mem p j = .invalid) : ∀ path, walkLeaf mem path p = none
  | [] => rfl
  | [i] => by rw [walkLeaf, h i]
  | i :: _ :: _ => by rw [walkLeaf, h i]

theorem allocTable_some (hne : (s.pmm.alloc 1).1 ≠ 0) :
    s.allocTable = ((s.pmm.alloc 1).1, ⟨update s.mem (s.pmm.alloc 1).1 fun _ => .invalid, (s.pmm.alloc 1).2, s.freed⟩) := by
  rw [Store.allocTable, if_neg hne]

theorem allocTable_none (hz : (s.pmm.alloc 1).1 = 0) : s.allocTable.1 = 0 := by
  rw [Store.allocTable, if_pos hz]

theorem Stands.new_ne (h : Stands K kernel kt level d page i u s) (hne : (s.pmm.alloc 1).1 ≠ 0) : (s.pmm.alloc 1).1 ≠ page := by
  intro heq
  have hg := Port.Grown.alloc (P := riscv64) h.ok h.max hne
  exact h.used page mem_cons_self (heq ▸ hg.fresh _ (mem_singleton_self _))

theorem walkStep_stepped (h : Stands K kernel kt level (d + 1) page i u s) (hi : i < 512)
    (hstep : walkStep s page kernel i = some (child, s₁)) : ∃ f sub ts os, Stepped K kernel kt level d page i child f u sub ts os s s₁ := by
  have hr := h.reads
  rcases u with - | r | ⟨e, r⟩ | ⟨q, f, sub, r⟩
  · exact absurd rfl (hr.ne_nil hi)
  · -- no table yet
    rw [walkStep, hr.1] at hstep
    rcases eq_or_ne (s.pmm.alloc 1).1 0 with hz | hne
    · rw [if_pos (allocTable_none hz)] at hstep
      exact absurd hstep nofun
    rw [allocTable_some hne, if_neg hne] at hstep
    obtain ⟨rfl, rfl⟩ := Prod.mk.inj (some.inj hstep)
    have hpage := h.new_ne hne
    have hzero : ∀ j, (Store.set ⟨update s.mem (s.pmm.alloc 1).1 fun _ => .invalid, (s.pmm.alloc 1).2, s.freed⟩ page i
        (.table (s.pmm.alloc 1).1 1)).mem (s.pmm.alloc 1).1 j = .invalid := fun j => by
      rw [set_of_ne hpage]
      change (update s.mem (s.pmm.alloc 1).1 (fun _ => .invalid) : Mem) (s.pmm.alloc 1).1 j = _
      rw [update_self]
    obtain ⟨sub, hreads, hdepth, -, -, hinert⟩ := reads_empty d hzero
    refine ⟨1, sub, _, _, h.fresh hi hne rfl rfl (fun q hp hq => ?_) (fun j hj => ?_) set_at hreads hdepth (hinert _ _) rfl rfl fun path _ hpath => ?_⟩
    · rw [set_of_ne hp]
      exact update_of_ne hq _ _
    · rw [set_other hj]
      exact congrFun (update_of_ne hpage.symm _ _) j
    · obtain ⟨j, rest, rfl⟩ := exists_cons_of_ne_nil hpath
      rw [walkLeaf_invalid hzero, walkLeaf, hr.1]
  · exact absurd h.depth.1 nofun
  · have hentry : s.mem page i ≠ .invalid := fun heq => absurd (hr.1.symm.trans heq) nofun
    rw [walkStep, if_neg hentry, hr.1, (h.kernel.isKernels_eq hi).2] at hstep
    rcases hkt : kernelTable kt q f with - | -
    · -- private already
      rw [hkt] at hstep
      obtain ⟨rfl, rfl⟩ := Prod.mk.inj (some.inj hstep)
      obtain ⟨htables, hframes⟩ := own_parts level sub r hkt
      have hin : ∀ x ∈ q :: (own riscv64 (below kt) (level + 1) sub).tables, x ∈ page :: (own riscv64 kt level (.table q f sub r)).tables :=
        fun x hx => mem_cons_of_mem _ (htables ▸ mem_append_left _ hx)
      refine ⟨f, sub, [], _, .refl riscv64 h.max, fun _ _ _ => rfl, fun _ _ => rfl, hr.1, hkt, rfl, ?_, rfl, htables, hframes, fun path _ hpath => ?_⟩
      · exact ⟨h.ok, h.max, h.kernelOk.below, h.kernelUsed, hr.2.1, h.depth.1, h.kernel.below hi, (h.priv.parts hkt).1, fun x hx => h.used x (hin x hx)⟩
      · obtain ⟨j, rest, rfl⟩ := exists_cons_of_ne_nil hpath
        rw [walkLeaf, hr.1]
    · -- the kernel's: a copy takes its place
      rw [hkt] at hstep
      rcases eq_or_ne (s.pmm.alloc 1).1 0 with hz | hne
      · rw [if_pos (allocTable_none hz)] at hstep
        exact absurd hstep nofun
      rw [allocTable_some hne, if_neg hne] at hstep
      obtain ⟨rfl, rfl⟩ := Prod.mk.inj (some.inj hstep)
      have hpage := h.new_ne hne
      obtain ⟨hq, hsub, hbelow⟩ := h.kernel.shared hr.2.1 hkt
      have hfree : s.pmm.Free (s.pmm.alloc 1).1 := (Port.Grown.alloc (P := riscv64) h.ok h.max hne).fresh _ (mem_singleton_self _)
      have hused : ∀ x, K x → x ≠ (s.pmm.alloc 1).1 := fun x hx heq => h.kernelUsed x hx (heq ▸ hfree)
      have hkept : ∀ x, x ≠ page → x ≠ (s.pmm.alloc 1).1 → (((Store.mk (update s.mem (s.pmm.alloc 1).1 fun _ => .invalid) (s.pmm.alloc 1).2
          s.freed).copy (s.pmm.alloc 1).1 q).set page i (.table (s.pmm.alloc 1).1 1)).mem x = s.mem x := fun x hp hx => by
        rw [set_of_ne hp]
        exact (update_of_ne hx _ _).trans (update_of_ne hx _ _)
      have hcopy : (((Store.mk (update s.mem (s.pmm.alloc 1).1 fun _ => .invalid) (s.pmm.alloc 1).2
          s.freed).copy (s.pmm.alloc 1).1 q).set page i (.table (s.pmm.alloc 1).1 1)).mem (s.pmm.alloc 1).1 = s.mem q := by
        rw [set_of_ne hpage]
        exact (update_self _ _ _).trans (update_of_ne (hused q hq) _ _)
      have hkernel : ∀ x, K x → _ := fun x hx => hkept x (fun heq => h.priv.kernel page mem_cons_self (heq ▸ hx)) (hused x hx)
      have hsame : ∀ x ∈ sub.tables, _ := fun x hx => hkernel x (hsub x hx)
      refine ⟨1, sub, _, _, h.fresh hi hne rfl rfl hkept (fun j hj => ?_) set_at ?_ h.depth.1 (hbelow ▸ kernel_inert (level + 1) sub) ?_ ?_
        fun path hin hpath => ?_⟩
      · rw [set_other hj]
        exact congrFun ((update_of_ne hpage.symm _ _).trans (update_of_ne hpage.symm _ _)) j
      · exact hr.2.1.moved (fun k => congrFun hcopy k) hsame
      · rw [own_table_skip hkt]
        rfl
      · rw [own_table_skip hkt]
        rfl
      · obtain ⟨j, rest, rfl⟩ := exists_cons_of_ne_nil hpath
        refine (walkLeaf_congr hr.2.1 hin (fun k _ => congrFun hcopy k) hsame).trans ?_
        rw [walkLeaf, hr.1]

/-- The walk below a turn, seen from above it. -/
theorem Stepped.mapped (h : Stands K kernel kt level (d + 1) page 0 t s) (hi : i < 512) {pre : Slots → Slots} {ts fs : List Nat} (ht : t = pre u)
    (hs : Stands K kernel kt' level (d + 1) page i u s) (hb : Before K s.mem kt kt' level (d + 1) page 0 i pre ts fs)
    {f : Nat} {sub' : Slots} {ts₀ os ts₁ old new : List Nat}
    (hstep : Stepped K kernel kt' level d page i child f u sub ts₀ os s s₁)
    (hsub : Mapped (below kt') (level + 1) d child sub sub' ts₁ old new s₁ s') :
    Mapped kt level (d + 1) page t (pre (.table child f sub' u.rest)) (ts₀ ++ ts₁) old new s s' := by
  subst ht
  have hg : riscv64.Grown s.pmm s'.pmm (ts₀ ++ ts₁) [] := hstep.grown.trans hsub.grown nofun
  obtain ⟨htables, hframes⟩ := own_parts level sub' u.rest hstep.table
  -- the new tree has the new tables besides the old ones
  have hperm : (own riscv64 kt level (pre (.table child f sub' u.rest))).tables.Perm ((ts₀ ++ ts₁) ++ (own riscv64 kt level (pre u)).tables) := by
    rw [hb.tables, hb.tables, htables, hstep.tables]
    rw [perm_iff_count]
    intro x
    have h₁ := perm_iff_count.mp (hsub.tables.cons child) x
    have h₂ := congrArg (count x) hstep.taken
    simp only [count_append, count_cons] at h₁ h₂ ⊢
    omega
  have hused : ∀ x, x ∈ page :: (own riscv64 kt level (pre u)).tables ∨ K x → ¬ s.pmm.Free x := fun x hx => hx.elim (h.used x) (h.kernelUsed x)
  have hnodup : (page :: (own riscv64 kt level (pre (.table child f sub' u.rest))).tables).Nodup := by
    refine (hperm.cons page).nodup_iff.mpr ((perm_middle.symm).nodup_iff.mpr ?_)
    exact nodup_append.mpr ⟨hg.nodup, h.priv.nodup, fun x hx y hy heq => hused y (.inl hy) (heq ▸ hg.fresh x hx)⟩
  have hnew : ∀ x, K x → x ∉ (own riscv64 kt level (pre (.table child f sub' u.rest))).tables := fun x hx hin =>
    (mem_append.mp (hperm.mem_iff.mp hin)).elim (fun hin => h.kernelUsed x hx (hg.fresh x hin))
      fun hin => h.priv.kernel x (mem_cons_of_mem _ hin) hx
  rw [hb.tables, htables] at hnodup hnew
  obtain ⟨hpage, hparts⟩ := nodup_cons.mp hnodup
  obtain ⟨-, hbelow, hts⟩ := nodup_append.mp hparts
  obtain ⟨-, -, hrest⟩ := nodup_append.mp hbelow
  have hold : ∀ x ∈ ts ++ (own riscv64 (next kt') level u.rest).tables, x ∈ (own riscv64 kt level (pre u)).tables := fun x hx => by
    rw [hb.tables, hstep.tables]
    exact (mem_append.mp hx).elim (mem_append_left _) fun hx => mem_append_right _ (mem_append_right _ hx)
  -- nothing but the tables on the way was written
  have hsame : ∀ x, x ∈ ts ++ (own riscv64 (next kt') level u.rest).tables ∨ K x → s'.mem x = s.mem x := by
    intro x hx
    rw [hsub.mem x, hstep.mem x]
    · rintro rfl
      exact hx.elim (fun hx => (nodup_cons.mp h.priv.nodup).1 (hold x hx)) (h.priv.kernel x mem_cons_self)
    · exact fun hin => hused x (hx.imp_left fun hx => mem_cons_of_mem _ (hold x hx)) (hstep.grown.fresh x hin)
    · rcases hx with hx | hx
      · rcases mem_append.mp hx with hx | hx
        · exact fun hin => hts x hx x (mem_append_left _ hin) rfl
        · exact fun hin => hrest x hin x hx rfl
      · exact fun hin => hnew x hx (mem_append_right _ (mem_append_left _ hin))
  have hhere : s'.mem page = s₁.mem page := hsub.mem page fun hin => hpage (mem_append_right _ (mem_append_left _ hin))
  refine ⟨hg, ?_, hb.depth _ ⟨hsub.depth, hs.depth.rest⟩, hperm, ?_, fun q hq => ?_, hsub.freed.trans hstep.freed⟩
  · refine hb.reads _ _ (fun k hk => ?_) (fun x hx => hsame x (.inl (mem_append_left _ hx))) (fun x hx => hsame x (.inr hx))
      ⟨by rw [hhere, hstep.entry], hsub.reads, (hs.reads.rest hi).congr (fun k hk => ?_) fun x hx => hsame x ?_⟩
    · rw [hhere, hstep.other k (ne_of_lt hk)]
    · rw [hhere, hstep.other k (ne_of_gt hk)]
    · exact ((hs.kernel.next hi).table_cases (hs.reads.rest hi) x hx).imp_left fun hx => mem_append_right _ hx
  · obtain ⟨mid, hnew', hold'⟩ := hsub.frames
    refine ⟨fs ++ mid ++ (own riscv64 (next kt') level u.rest).frames, ?_, ?_⟩
    · rw [hb.frames, hframes, perm_iff_count]
      intro x
      have := perm_iff_count.mp hnew' x
      simp only [count_append] at this ⊢
      omega
    · rw [hb.frames, hstep.frames, perm_iff_count]
      intro x
      have := perm_iff_count.mp hold' x
      simp only [count_append] at this ⊢
      omega
  · have hq' := not_mem_of_not_mem_cons hq
    rw [hsub.mem q, hstep.mem q (ne_of_not_mem_cons hq)]
    · exact fun hin => hq' (hperm.mem_iff.mpr (mem_append_left _ (mem_append_left _ hin)))
    · rw [hb.tables, htables] at hq'
      exact fun hin => hq' (mem_append_right _ (mem_append_left _ hin))

end turn

theorem walkMap_mapped {path : List Nat} (e : Pte) : ∀ {d page level : Nat} {kernel : Option Nat} {kt : Option Slots} {t : Slots} {s s' : Store},
    path.length = d + 1 → (∀ i ∈ path, i < 512) → Stands K kernel kt level d page 0 t s → walkMap (.leaf e) path kernel page s = some s' →
    ∃ t' ts, Mapped kt level d page t t' ts (held (walkLeaf s.mem path page)) (held (some e)) s s' := by
  induction path with
  | nil => exact fun hlen => absurd hlen nofun
  | cons i rest ih =>
    intro d page level kernel kt t s s' hlen hpath hs hwalk
    have hi : i < 512 := hpath i mem_cons_self
    rcases rest with - | ⟨j, rest⟩
    · obtain rfl : d = 0 := by simpa using hlen.symm
      obtain rfl := some.inj hwalk
      obtain ⟨t', ht'⟩ := hs.put hi e
      exact ⟨t', [], ht'⟩
    obtain ⟨d, rfl⟩ : ∃ d', d = d' + 1 := ⟨rest.length, by simpa using hlen.symm⟩
    obtain ⟨⟨child, s₁⟩, hstep, hwalk⟩ := bind_eq_some_iff.mp hwalk
    obtain ⟨kt', pre, ts, fs, u, ht, hu, hb⟩ := hs.at hi
    obtain ⟨f, sub, ts₀, os, hstepped⟩ := walkStep_stepped hu hi hstep
    have hrest : ∀ k ∈ j :: rest, k < 512 := fun k hk => hpath k (mem_cons_of_mem _ hk)
    obtain ⟨sub', ts₁, hmapped⟩ := ih (by simpa using hlen) hrest hstepped.stands hwalk
    rw [hstepped.leaf _ hrest nofun] at hmapped
    exact ⟨_, _, hstepped.mapped hs hi ht hu hb hmapped⟩

end walk

end Orthox.Memory.Sv39
