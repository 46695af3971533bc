import Orthox.Memory.Tables
import Orthox.Schemes.Holders

/-! Mapping a page on aarch64 while other CPUs do the same. The builder routines of `aarch64/vm.c` take the table
    to edit from the global `g_build_root_pa`; `WITH_ROOT` saves it, sets it and puts it back around each call. A
    step here is one access to memory shared by the CPUs: the global, an entry of a table, the page allocator.
    Addresses are counted in pages, as the allocator counts them. -/

namespace Orthox.Memory.BuildRoot
open Memory Function Option List

/-! ### Tables -/

/-- A descriptor, as its fields: `VALID`, `TABLE`, the address and the attribute bits. -/
structure Desc where
  valid : Bool
  table : Bool
  addr : Nat
  attr : Nat
deriving DecidableEq

/-- A descriptor of all zeros. -/
def Desc.zero : Desc := ⟨false, false, 0, 0⟩

/-- The 512 descriptors of every page that is used as a table. -/
abbrev Tables := Nat → Nat → Desc

/-- `aarch64_vm_index`, for an address counted in pages. -/
def vmIndex (va level : Nat) : Nat := va / 512 ^ (3 - level) % 512

def Tables.set (m : Tables) (page index : Nat) (d : Desc) : Tables := update m page (update (m page) index d)

def Tables.clear (m : Tables) (page : Nat) : Tables := update m page fun _ => .zero

/-- What the walk of `aarch64_vm_translate_in` finds for a page; `none` where there is no translation. -/
def Tables.translateIn (m : Tables) (root va : Nat) : Option (Nat × Nat) :=
  let e₁ := m root (vmIndex va 1)
  if !e₁.valid then none
  else if !e₁.table then some (e₁.addr + va % 512 ^ 2, e₁.attr)
  else
    let e₂ := m e₁.addr (vmIndex va 2)
    if !e₂.valid then none
    else if !e₂.table then some (e₂.addr + va % 512, e₂.attr)
    else
      let e₃ := m e₂.addr (vmIndex va 3)
      if !e₃.valid then none else some (e₃.addr, e₃.attr)

/-- The tables reached from a root: itself, those its entries name, and those their entries name. -/
inductive Tables.Reach (m : Tables) (root : Nat) : Nat → Nat → Prop where
  | root : Reach m root 1 root
  | next {level page : Nat} (i : Nat) (h : Reach m root level page) (hlevel : level < 3) (hvalid : (m page i).valid = true)
    (htable : (m page i).table = true) : Reach m root (level + 1) (m page i).addr

/-! ### One call of `arch_vm_map_page` -/

/-- Where a call stands; `saved` is its copy of the global. -/
inductive Pc where
  | save
  | set (saved : Nat)
  | load (saved : Nat)
  | walk (saved table level : Nat)
  | alloc (saved table level : Nat)
  | link (saved table level next : Nat)
  | leaf (saved table : Nat)
  | restore (saved : Nat)
  | returned
deriving DecidableEq

/-- The call has set the global and not read it yet. -/
def Pc.loads : Pc → Bool
  | .load _ => true
  | _ => false

structure Call where
  root : Nat
  va : Nat
  pa : Nat
  attr : Nat
  pc : Pc
deriving DecidableEq

/-- The shared state, the address spaces there are and the calls in progress on each CPU. -/
structure Machine (C : Type) where
  pmm : Pmm
  tables : Tables
  buildRoot : Nat
  vmFailed : Bool
  roots : List Nat
  calls : C → Option Call

variable {C : Type} [DecidableEq C]

namespace Machine

def setCall (s : Machine C) (c : C) (k : Option Call) : Machine C := { s with calls := update s.calls c k }

/-- The call goes on at another place. -/
def goTo (s : Machine C) (c : C) (k : Call) (pc : Pc) : Machine C := s.setCall c (some { k with pc := pc })

/-- `aarch64_vm_next_table` found the table of the next level. -/
def descend (level saved next : Nat) : Pc := if level < 2 then .walk saved next (level + 1) else .leaf saved next

/-- One access of a call. -/
def go (s : Machine C) (c : C) (k : Call) : Machine C :=
  match k.pc with
  | .save => s.goTo c k (.set s.buildRoot)
  | .set saved => { s.goTo c k (.load saved) with buildRoot := k.root }
  | .load saved => s.goTo c k (.walk saved s.buildRoot 1)
  | .walk saved table level =>
    let entry := s.tables table (vmIndex k.va level)
    if entry.valid then
      if entry.table then s.goTo c k (descend level saved entry.addr)
      else { s.goTo c k (.restore saved) with vmFailed := true }
    else s.goTo c k (.alloc saved table level)
  | .alloc saved table level =>
    -- `aarch64_pmm_alloc` clears the page it hands out
    let claim := s.pmm.claimLocked 1
    if claim.1 = 0 then { s.goTo c k (.restore saved) with pmm := claim.2, vmFailed := true }
    else { s.goTo c k (.link saved table level claim.1) with pmm := claim.2, tables := s.tables.clear claim.1 }
  | .link saved table level next =>
    { s.goTo c k (descend level saved next) with tables := s.tables.set table (vmIndex k.va level) ⟨true, true, next, 0⟩ }
  | .leaf saved table =>
    { s.goTo c k (.restore saved) with tables := s.tables.set table (vmIndex k.va 3) ⟨true, true, k.pa, k.attr⟩ }
  | .restore saved => { s.goTo c k .returned with buildRoot := saved }
  | .returned => s.setCall c none

end Machine

/-- `arch_vm_create_user_address_space`, a call of `arch_vm_map_page` with a root that no other call in progress has, and
    the next access of a call. -/
inductive Ev (C : Type) where
  | create
  | map (c : C) (root va pa attr : Nat)
  | go (c : C)

/-- The effect of an event; `none` when it cannot happen. -/
def Machine.step (s : Machine C) : Ev C → Option (Machine C)
  | .create =>
    let claim := s.pmm.claimLocked 1
    some (if claim.1 = 0 then { s with pmm := claim.2 }
      else { s with pmm := claim.2, tables := s.tables.clear claim.1, roots := claim.1 :: s.roots })
  | .map c root va pa attr =>
    if (s.calls c).isNone ∧ root ∈ s.roots then some (s.setCall c (some ⟨root, va, pa, attr, .save⟩)) else none
  | .go c => (s.calls c).map fun k => s.go c k

/-- Calls in progress are on different address spaces. -/
def Apart (s : Machine C) : Ev C → Prop
  | .map _ root _ _ _ => ∀ d, ∀ k ∈ s.calls d, k.root ≠ root
  | _ => True

/-- The global is written only while no other call is between its own write of it and its read, and a table that is
    needed finds a page. -/
def Alone (s : Machine C) : Ev C → Prop
  | .go c => ∀ k ∈ s.calls c, match k.pc with
    | .set _ | .restore _ => ∀ d, d ≠ c → ∀ k' ∈ s.calls d, k'.pc.loads = false
    | .alloc .. => (s.pmm.claimLocked 1).1 ≠ 0
    | _ => True
  | _ => True

/-- The states reached, with no address space at first, by events that all meet a condition. -/
inductive Reaches (ok : Machine C → Ev C → Prop) : Machine C → Prop where
  | boot {s : Machine C} (hok : s.pmm.Ok) (hroots : s.roots = []) (hcalls : ∀ c, s.calls c = none) : Reaches ok s
  | step {s s' : Machine C} {e : Ev C} (h : Reaches ok s) (hok : ok s e) (hs : s.step e = some s') : Reaches ok s'

/-- The next access of a call changes only tables reached from the root it was given (or clears a free page), and a call
    that has returned has left the translation it was asked for. -/
structure Confined (s : Machine C) : Prop where
  edits : ∀ {c k f}, s.calls c = some k → (s.go c k).tables f ≠ s.tables f → (∃ level, s.tables.Reach k.root level f) ∨ s.pmm.Free f
  present : ∀ {c k}, s.calls c = some k → k.pc = .returned → s.tables.translateIn k.root k.va = some (k.pa, k.attr)

/-! ### Who owns a table -/

/-- The root a table belongs to and its level. -/
abbrev Owner := Nat → Option (Nat × Nat)

/-- The descriptor names the table of the next level. -/
def Desc.Names (d : Desc) (page : Nat) : Prop := d.valid = true ∧ d.table = true ∧ d.addr = page

/-- The table of a level on the way from a root to an address. -/
def Path (m : Tables) (root va : Nat) : Nat → Nat → Prop
  | 1, page => page = root
  | 2, page => (m root (vmIndex va 1)).Names page
  | 3, page => ∃ mid, (m root (vmIndex va 1)).Names mid ∧ (m mid (vmIndex va 2)).Names page
  | _, _ => False

/-- The valid entries of the upper tables name tables of the same owner. -/
def Tree (m : Tables) (owner : Owner) : Prop :=
  ∀ {f root level i}, owner f = some (root, level) → level < 3 → (m f i).valid = true →
    (m f i).table = true ∧ owner (m f i).addr = some (root, level + 1)

/-- Nothing that belongs to the root differs. -/
def SameFor (owner : Owner) (root : Nat) (m m' : Tables) : Prop := ∀ {f level}, owner f = some (root, level) → m' f = m f

variable {m m' : Tables} {owner owner' : Owner} {root va level page : Nat}

theorem Path.reach : ∀ {level page : Nat}, Path m root va level page → m.Reach root level page
  | 1, _, rfl => .root
  | 2, _, ⟨hv, ht, hp⟩ => hp ▸ .next _ .root (by decide) hv ht
  | 3, _, ⟨mid, ⟨hv, ht, hp⟩, hv', ht', hp'⟩ => by
    have hmid : m.Reach root 2 mid := hp ▸ .next _ .root (by decide) hv ht
    exact hp' ▸ .next _ hmid (by decide) hv' ht'

section
variable (htree : Tree m owner) (hroot : owner root = some (root, 1))
include htree hroot

theorem Path.owned : ∀ {level page : Nat}, Path m root va level page → owner page = some (root, level)
  | 1, _, rfl => hroot
  | 2, _, ⟨hv, _, hp⟩ => hp ▸ (htree hroot (by decide) hv).2
  | 3, _, ⟨mid, ⟨hv, _, hp⟩, hv', _, hp'⟩ => by
    have hmid : owner mid = some (root, 2) := hp ▸ (htree hroot (by decide) hv).2
    exact hp' ▸ (htree hmid (by decide) hv').2

theorem Path.congr (hsame : SameFor owner root m m') :
    ∀ {level page : Nat}, Path m root va level page → Path m' root va level page
  | 1, _, h => h
  | 2, _, h => by
    rw [Path, hsame hroot]
    exact h
  | 3, _, ⟨mid, h, h'⟩ => by
    refine ⟨mid, ?_, ?_⟩
    · rw [hsame hroot]
      exact h
    · have hmid : owner mid = some (root, 2) := h.2.2 ▸ (htree hroot (by decide) h.1).2
      rw [hsame hmid]
      exact h'

end

/-- The way to the next level, once the entry names it. -/
theorem Path.next : ∀ {level page next : Nat}, level < 3 → Path m root va level page →
    (m page (vmIndex va level)).Names next → Path m root va (level + 1) next
  | 1, _, _, _, rfl, hn => hn
  | 2, page, _, _, h, hn => ⟨page, h, hn⟩

variable {d : Desc} {buildRoot f i : Nat}

/-- The translation that the three entries on the way give. -/
theorem translateIn_of_path (h : Path m root va 3 page) (hd : m page (vmIndex va 3) = d) (hvalid : d.valid) :
    m.translateIn root va = some (d.addr, d.attr) := by
  obtain ⟨mid, ⟨hv, ht, rfl⟩, hv', ht', rfl⟩ := h
  rw [Tables.translateIn]
  simp only [hv, ht, hv', ht', hd, hvalid, Bool.not_true, Bool.false_eq_true, if_false]

theorem Tables.set_of_ne (h : f ≠ page) : m.set page i d f = m f := update_of_ne h _ _

theorem Tables.set_self : m.set page i d page i = d := by
  rw [set, update_self, update_self]

/-- Writing an entry of the table a way leads to leaves the way as it was. -/
theorem Path.set (htree : Tree m owner) (hroot : owner root = some (root, 1)) : ∀ {level page : Nat},
    Path m root va level page → Path (m.set page i d) root va level page
  | 1, _, h => h
  | 2, page, h => by
    have hne : root ≠ page := by
      rintro rfl
      cases hroot.symm.trans (owned htree hroot h)
    rw [Path, Tables.set_of_ne hne]
    exact h
  | 3, page, ⟨mid, h, h'⟩ => by
    have hmid : owner mid = some (root, 2) := h.2.2 ▸ (htree hroot (by decide) h.1).2
    have hpage : owner page = some (root, 3) := h'.2.2 ▸ (htree hmid (by decide) h'.1).2
    have hne : root ≠ page := by
      rintro rfl
      cases hroot.symm.trans hpage
    have hne' : mid ≠ page := by
      rintro rfl
      cases hmid.symm.trans hpage
    refine ⟨mid, ?_, ?_⟩
    · rw [Tables.set_of_ne hne]
      exact h
    · rw [Tables.set_of_ne hne']
      exact h'

/-! ### The invariant -/

/-- The translation a call was asked for is there. -/
def Mapped (m : Tables) (k : Call) : Prop :=
  ∃ page, Path m k.root k.va 3 page ∧ m page (vmIndex k.va 3) = ⟨true, true, k.pa, k.attr⟩

/-- What holds where a call stands. -/
def At (m : Tables) (owner : Owner) (buildRoot : Nat) (k : Call) : Prop :=
  match k.pc with
  | .save | .set _ => True
  | .load _ => buildRoot = k.root
  | .walk _ table level => level < 3 ∧ Path m k.root k.va level table
  | .alloc _ table level => level < 3 ∧ Path m k.root k.va level table ∧ (m table (vmIndex k.va level)).valid = false
  | .link _ table level next => level < 3 ∧ Path m k.root k.va level table ∧ owner next = some (k.root, level + 1) ∧
      ∀ i, m next i = .zero
  | .leaf _ table => Path m k.root k.va 3 table
  | .restore _ | .returned => Mapped m k

structure Inv (s : Machine C) (owner : Owner) : Prop where
  ok : s.pmm.Ok
  inUse : ∀ {f o}, owner f = some o → ¬ s.pmm.Free f
  roots : ∀ {r}, r ∈ s.roots → owner r = some (r, 1)
  tree : Tree s.tables owner
  calls : ∀ {c k}, s.calls c = some k → k.root ∈ s.roots ∧ At s.tables owner s.buildRoot k
  apart : ∀ {c d k k'}, s.calls c = some k → s.calls d = some k' → c ≠ d → k.root ≠ k'.root

/-- A call stays where it is while nothing that belongs to its root changes and, before its read, neither does the global. -/
theorem At.congr {buildRoot' : Nat} {k : Call} (htree : Tree m owner) (hroot : owner k.root = some (k.root, 1))
    (hsame : SameFor owner k.root m m') (howner : ∀ {f o}, owner f = some o → owner' f = some o)
    (hglobal : k.pc.loads = false ∨ buildRoot' = buildRoot) (h : At m owner buildRoot k) : At m' owner' buildRoot' k := by
  obtain ⟨r, va, pa, attr, pc⟩ := k
  cases pc with
  | save | set => trivial
  | load saved => exact (hglobal.resolve_left Bool.noConfusion).trans h
  | walk saved table level => exact ⟨h.1, h.2.congr htree hroot hsame⟩
  | alloc saved table level =>
    refine ⟨h.1, h.2.1.congr htree hroot hsame, ?_⟩
    rw [hsame (h.2.1.owned htree hroot)]
    exact h.2.2
  | link saved table level next =>
    refine ⟨h.1, h.2.1.congr htree hroot hsame, howner h.2.2.1, fun i => ?_⟩
    rw [hsame h.2.2.1]
    exact h.2.2.2 i
  | leaf saved table =>
    have hpath : Path m r va 3 table := h
    exact hpath.congr htree hroot hsame
  | restore | returned =>
    obtain ⟨page, hpath, hentry⟩ := h
    refine ⟨page, hpath.congr htree hroot hsame, ?_⟩
    rw [hsame (hpath.owned htree hroot)]
    exact hentry

variable {s s' : Machine C} {c : C} {k : Call}

/-- A step of one call: the others stay where they are if it changes nothing of theirs. -/
theorem Inv.advance (h : Inv s owner) (hc : s.calls c = some k) {pc : Pc} (hok : s'.pmm.Ok)
    (hroots : s'.roots = s.roots) (hcalls : s'.calls = update s.calls c (some { k with pc := pc }))
    (howner : ∀ {f o}, owner f = some o → owner' f = some o) (huse : ∀ {f o}, owner' f = some o → ¬ s'.pmm.Free f)
    (htree : Tree s'.tables owner') (hsame : ∀ {r}, r ≠ k.root → SameFor owner r s.tables s'.tables)
    (hglobal : s'.buildRoot = s.buildRoot ∨ ∀ d, d ≠ c → ∀ k' ∈ s.calls d, k'.pc.loads = false)
    (hat : At s'.tables owner' s'.buildRoot { k with pc := pc }) : Inv s' owner' := by
  have hcases : ∀ {d k'}, s'.calls d = some k' → d = c ∧ k' = { k with pc := pc } ∨ d ≠ c ∧ s.calls d = some k' :=
    fun hd => Schemes.update_some (hcalls ▸ hd)
  refine ⟨hok, huse, fun hr => howner (h.roots (hroots ▸ hr)), htree, ?_, ?_⟩
  · intro d k' hd
    rcases hcases hd with ⟨rfl, rfl⟩ | ⟨hne, hd⟩
    · exact ⟨hroots ▸ (h.calls hc).1, hat⟩
    obtain ⟨hmem, hat'⟩ := h.calls hd
    refine ⟨hroots ▸ hmem, hat'.congr h.tree (h.roots hmem) (hsame ?_) howner ?_⟩
    · exact h.apart hd hc hne
    · exact hglobal.symm.imp_left fun hno => hno d hne k' hd
  · intro d d' k₁ k₂ hd hd' hne
    rcases hcases hd with ⟨rfl, rfl⟩ | ⟨-, hd⟩
    · rcases hcases hd' with ⟨rfl, -⟩ | ⟨-, hd'⟩
      · exact absurd rfl hne
      · exact (h.apart hc hd' hne :)
    rcases hcases hd' with ⟨rfl, rfl⟩ | ⟨-, hd'⟩
    · exact (h.apart hd hc hne :)
    · exact h.apart hd hd' hne

/-! ### Steps -/

theorem descend_at {saved next : Nat} (hlevel : level < 3) (h : Path m k.root k.va (level + 1) next) :
    At m owner buildRoot { k with pc := Machine.descend level saved next } := by
  rw [Machine.descend]
  split_ifs with hlt
  · exact ⟨by omega, h⟩
  · obtain rfl : level = 2 := by omega
    exact h

section
variable (htree : Tree m owner) (hroot : owner root = some (root, 1)) (h : Path m root va level page)
include htree hroot h

theorem Tree.set (hd : level < 3 → d.table ∧ owner d.addr = some (root, level + 1)) : Tree (m.set page i d) owner := by
  intro f r l j hf hl hvalid
  rcases eq_or_ne f page with rfl | hne
  · obtain ⟨rfl, rfl⟩ := Prod.mk.inj (some.inj (hf.symm.trans (h.owned htree hroot)))
    rw [Tables.set, update_self] at hvalid ⊢
    rcases eq_or_ne j i with rfl | hji
    · rw [update_self]
      exact hd hl
    · rw [update_of_ne hji] at hvalid ⊢
      exact htree hf hl hvalid
  · rw [Tables.set_of_ne hne] at hvalid ⊢
    exact htree hf hl hvalid

theorem SameFor.set {r : Nat} (hr : r ≠ root) : SameFor owner r m (m.set page i d) := by
  intro f l hf
  refine Tables.set_of_ne ?_
  rintro rfl
  exact hr (Prod.mk.inj (some.inj (hf.symm.trans (h.owned htree hroot)))).1

end

omit [DecidableEq C] in
/-- A page of the allocator that becomes an empty table. -/
theorem Inv.claim (h : Inv s owner) (hne : (s.pmm.claimLocked 1).1 ≠ 0) (o : Nat × Nat) :
    let r := s.pmm.claimLocked 1
    let owner' := update owner r.1 (some o)
    s.pmm.Free r.1 ∧ r.2.Ok ∧ (∀ {f o}, owner f = some o → owner' f = some o) ∧ (∀ {f o}, owner' f = some o → ¬ r.2.Free f) ∧
      Tree (s.tables.clear r.1) owner' ∧ ∀ {r'}, SameFor owner r' s.tables (s.tables.clear r.1) := by
  rcases Pmm.claimLocked_spec h.ok 1 with ⟨hz, -⟩ | ⟨-, -, hfree, href, hleft⟩
  · exact absurd hz hne
  have hpage := hfree _ (Pmm.within_one.mpr rfl)
  have hnew : ∀ {f o}, owner f = some o → f ≠ (s.pmm.claimLocked 1).1 := by
    rintro f o hf rfl
    exact h.inUse hf hpage
  refine ⟨hpage, ?_, fun hf => (update_of_ne (hnew hf) _ _).trans hf, ?_, ?_, fun hf => update_of_ne (hnew hf) _ _⟩
  · exact ⟨fun hf => (href _).trans (h.ok.free ((hleft _).mp hf).1), fun hf => h.ok.null ((hleft 0).mp hf).1,
      (href 0).trans h.ok.null_ref⟩
  · intro f o' hf hfr
    rw [hleft, Pmm.within_one] at hfr
    rw [update_of_ne hfr.2] at hf
    exact h.inUse hf hfr.1
  · intro f r l i hf hl hvalid
    rcases eq_or_ne f (s.pmm.claimLocked 1).1 with rfl | hne'
    · rw [Tables.clear, update_self] at hvalid
      cases hvalid
    rw [update_of_ne hne'] at hf
    rw [Tables.clear, update_of_ne hne'] at hvalid ⊢
    obtain ⟨htable, hown⟩ := h.tree hf hl hvalid
    exact ⟨htable, (update_of_ne (hnew hown) _ _).trans hown⟩

theorem Inv.go (h : Inv s owner) (hc : s.calls c = some k) (halone : Alone s (.go c)) : ∃ owner', Inv (s.go c k) owner' := by
  obtain ⟨hmem, hat⟩ := h.calls hc
  have hroot := h.roots hmem
  have hmay := halone k hc
  obtain ⟨r, va, pa, attr, pc⟩ := k
  cases pc with
  | save => exact ⟨owner, h.advance hc h.ok rfl rfl id h.inUse h.tree (fun _ _ _ _ => rfl) (.inl rfl) trivial⟩
  | set saved => exact ⟨owner, h.advance hc h.ok rfl rfl id h.inUse h.tree (fun _ _ _ _ => rfl) (.inr hmay) rfl⟩
  | load saved =>
    refine ⟨owner, h.advance hc h.ok rfl rfl id h.inUse h.tree (fun _ _ _ _ => rfl) (.inl rfl) ⟨by decide, ?_⟩⟩
    exact hat
  | walk saved table level =>
    obtain ⟨hlevel, hpath⟩ := hat
    rw [Machine.go]
    dsimp only
    rcases hvalid : (s.tables table (vmIndex va level)).valid with - | -
    · rw [if_neg nofun]
      exact ⟨owner, h.advance hc h.ok rfl rfl id h.inUse h.tree (fun _ _ _ _ => rfl) (.inl rfl) ⟨hlevel, hpath, hvalid⟩⟩
    have htable := (h.tree (hpath.owned h.tree hroot) hlevel hvalid).1
    rw [if_pos htable]
    refine ⟨owner, h.advance hc h.ok rfl rfl id h.inUse h.tree (fun _ _ _ _ => rfl) (.inl rfl) ?_⟩
    exact descend_at hlevel (hpath.next hlevel ⟨hvalid, htable, rfl⟩)
  | alloc saved table level =>
    obtain ⟨hlevel, hpath, -⟩ := hat
    obtain ⟨-, hok, hext, huse, htree, hsame⟩ := h.claim hmay (r, level + 1)
    rw [Machine.go]
    dsimp only
    rw [if_neg hmay]
    refine ⟨_, h.advance hc hok rfl rfl hext huse htree (fun _ => hsame) (.inl rfl) ⟨hlevel, ?_, ?_, fun i => ?_⟩⟩
    · exact hpath.congr h.tree hroot hsame
    · exact update_self _ _ _
    · change s.tables.clear _ _ i = _
      rw [Tables.clear, update_self]
  | link saved table level next =>
    obtain ⟨hlevel, hpath, hown, -⟩ := hat
    refine ⟨owner, h.advance hc h.ok rfl rfl id h.inUse (Tree.set h.tree hroot hpath fun _ => ⟨rfl, hown⟩)
      (fun hr => SameFor.set h.tree hroot hpath hr) (.inl rfl) ?_⟩
    refine descend_at hlevel (.next hlevel (hpath.set h.tree hroot) ?_)
    change (s.tables.set table (vmIndex va level) ⟨true, true, next, 0⟩ table (vmIndex va level)).Names next
    rw [Tables.set_self]
    exact ⟨rfl, rfl, rfl⟩
  | leaf saved table =>
    have hpath : Path s.tables r va 3 table := hat
    refine ⟨owner, h.advance hc h.ok rfl rfl id h.inUse (Tree.set h.tree hroot hpath fun hlt => absurd hlt (by decide))
      (fun hr => SameFor.set h.tree hroot hpath hr) (.inl rfl) ⟨table, hpath.set h.tree hroot, Tables.set_self⟩⟩
  | restore saved => exact ⟨owner, h.advance hc h.ok rfl rfl id h.inUse h.tree (fun _ _ _ _ => rfl) (.inr hmay) hat⟩
  | returned =>
    have hold : ∀ {d k'}, update s.calls c none d = some k' → s.calls d = some k' := fun hd => (Schemes.update_none hd).2
    exact ⟨owner, h.ok, h.inUse, h.roots, h.tree, fun hd => h.calls (hold hd), fun hd hd' => h.apart (hold hd) (hold hd')⟩

theorem Inv.step (h : Inv s owner) {e : Ev C} (hok : Apart s e ∧ Alone s e) (hs : s.step e = some s') : ∃ owner', Inv s' owner' := by
  cases e with
  | create =>
    rw [Machine.step, some.injEq] at hs
    subst hs
    rcases eq_or_ne (s.pmm.claimLocked 1).1 0 with hz | hne
    · rw [if_pos hz]
      rcases Pmm.claimLocked_spec h.ok 1 with ⟨-, hsame⟩ | ⟨hne, -⟩
      · exact ⟨owner, hsame.ok h.ok, fun hf hfree => h.inUse hf ((hsame.free _).mp hfree), h.roots, h.tree, h.calls, h.apart⟩
      · exact absurd hz hne
    rw [if_neg hne]
    obtain ⟨hfree, hok', hext, huse, htree, hsame⟩ := h.claim hne ((s.pmm.claimLocked 1).1, 1)
    refine ⟨_, hok', huse, ?_, htree, ?_, h.apart⟩
    · intro r hr
      rcases mem_cons.mp hr with rfl | hr
      · exact update_self _ _ _
      · exact hext (h.roots hr)
    · intro c k hc
      obtain ⟨hmem, hat⟩ := h.calls hc
      exact ⟨mem_cons_of_mem _ hmem, hat.congr h.tree (h.roots hmem) hsame hext (.inr rfl)⟩
  | map c root va pa attr =>
    obtain ⟨⟨-, hmem⟩, rfl⟩ := Schemes.guarded hs
    have hcases : ∀ {d k'}, update s.calls c (some ⟨root, va, pa, attr, .save⟩) d = some k' →
        d = c ∧ k' = ⟨root, va, pa, attr, .save⟩ ∨ s.calls d = some k' := fun hd => (Schemes.update_some hd).imp_right And.right
    refine ⟨owner, h.ok, h.inUse, h.roots, h.tree, ?_, ?_⟩
    · intro d k' hd
      rcases hcases hd with ⟨-, rfl⟩ | hd
      · exact ⟨hmem, trivial⟩
      · exact h.calls hd
    · intro d d' k₁ k₂ hd hd' hne
      rcases hcases hd with ⟨rfl, rfl⟩ | hd₁
      · rcases hcases hd' with ⟨rfl, -⟩ | hd'
        · exact absurd rfl hne
        · exact (hok.1 d' k₂ hd').symm
      rcases hcases hd' with ⟨rfl, rfl⟩ | hd''
      · exact hok.1 d k₁ hd₁
      · exact h.apart hd₁ hd'' hne
  | go c =>
    obtain ⟨k, hc, rfl⟩ := map_eq_some_iff.mp hs
    exact h.go hc hok.2

theorem Reaches.inv (h : Reaches (fun s e => Apart s e ∧ Alone s e) s) : ∃ owner, Inv s owner := by
  induction h with
  | boot hok hroots hcalls =>
    refine ⟨fun _ => none, hok, nofun, fun hr => ?_, nofun, fun hc => ?_, fun hc => ?_⟩
    · rw [hroots] at hr
      cases hr
    · rw [hcalls] at hc
      cases hc
    · rw [hcalls] at hc
      cases hc
  | step _ hok hs ih =>
    obtain ⟨owner, hinv⟩ := ih
    exact hinv.step hok hs

/-! ### The result -/

/-- Where a step may write, read off where the call stands. -/
theorem Inv.edits (h : Inv s owner) (hc : s.calls c = some k) (hf : (s.go c k).tables f ≠ s.tables f) :
    (∃ level, s.tables.Reach k.root level f) ∨ s.pmm.Free f := by
  obtain ⟨-, hat⟩ := h.calls hc
  obtain ⟨r, va, pa, attr, pc⟩ := k
  cases pc with
  | save | set | load | restore | returned => exact absurd rfl hf
  | walk saved table level =>
    rw [Machine.go] at hf
    dsimp only at hf
    split_ifs at hf <;> exact absurd rfl hf
  | alloc saved table level =>
    rcases Pmm.claimLocked_spec h.ok 1 with ⟨hz, -⟩ | ⟨hne, -, hfree, -⟩
    · rw [Machine.go] at hf
      dsimp only at hf
      rw [if_pos hz] at hf
      exact absurd rfl hf
    rw [Machine.go] at hf
    dsimp only at hf
    rw [if_neg hne] at hf
    rcases eq_or_ne f (s.pmm.claimLocked 1).1 with rfl | hfne
    · exact .inr (hfree _ (Pmm.within_one.mpr rfl))
    · exact absurd (update_of_ne hfne _ _) hf
  | link saved table level next =>
    rcases eq_or_ne f table with rfl | hne
    · exact .inl ⟨level, hat.2.1.reach⟩
    · exact absurd (Tables.set_of_ne hne) hf
  | leaf saved table =>
    have hpath : Path s.tables r va 3 table := hat
    rcases eq_or_ne f table with rfl | hne
    · exact .inl ⟨3, hpath.reach⟩
    · exact absurd (Tables.set_of_ne hne) hf

/-- CORRECT where the calls leave the global to each other and memory lasts: for any number of CPUs and any interleaving of
    calls on different address spaces. -/
theorem mapPage_confined (h : Reaches (fun s e => Apart s e ∧ Alone s e) s) : Confined s := by
  obtain ⟨owner, hinv⟩ := h.inv
  refine ⟨hinv.edits, fun hc hpc => ?_⟩
  obtain ⟨-, hat⟩ := hinv.calls hc
  rw [At, hpc] at hat
  obtain ⟨page, hpath, hentry⟩ := hat
  exact translateIn_of_path hpath hentry rfl

/-! ### Two CPUs -/

section
variable [Fintype C]

instance (s : Machine C) (e : Ev C) : Decidable (Apart s e) := by
  cases e <;> unfold Apart <;> infer_instance

instance (s : Machine C) (e : Ev C) : Decidable (Alone s e) := by
  cases e with
  | go c =>
    have : DecidablePred fun k : Call => match k.pc with
        | .set _ | .restore _ => ∀ d, d ≠ c → ∀ k' ∈ s.calls d, k'.pc.loads = false
        | .alloc .. => (s.pmm.claimLocked 1).1 ≠ 0
        | _ => True := fun k => by dsimp only; split <;> infer_instance
    exact inferInstanceAs (Decidable (∀ k ∈ s.calls c, _))
  | create | map => exact .isTrue trivial

end

/-- The machine after the events, if each is enabled and meets the condition. -/
def Machine.run (ok : Machine C → Ev C → Prop) [∀ s e, Decidable (ok s e)] (s : Machine C) :
    List (Ev C) → Option (Machine C)
  | [] => some s
  | e :: es => if ok s e then (s.step e).bind (·.run ok es) else none

theorem run_reaches {ok : Machine C → Ev C → Prop} [∀ s e, Decidable (ok s e)] {es : List (Ev C)} {s s' : Machine C}
    (h : Reaches ok s) (hs : s.run ok es = some s') : Reaches ok s' := by
  induction es generalizing s with
  | nil => exact some.inj hs ▸ h
  | cons e es ih =>
    obtain ⟨hok, hs⟩ := ite_none_right_eq_some.mp hs
    obtain ⟨s₁, hstep, hs⟩ := bind_eq_some_iff.mp hs
    exact ih (h.step hok hstep) hs

/-- Two CPUs, eight free pages. -/
def Machine.two : Machine Bool := ⟨.leaving 8, fun _ _ => .zero, 0, false, [], fun _ => none⟩

theorem two_reaches (ok : Machine Bool → Ev Bool → Prop) : Reaches ok .two := .boot (Pmm.leaving_ok 8) rfl fun _ => rfl

/-- Two address spaces, and a call on each of them. -/
def twoCalls : List (Ev Bool) := [.create, .create, .map false 3 0 77 1, .map true 4 5 88 1]

/-- The second call sets the global after the first has set it and before the first reads it. -/
def overtaking : List (Ev Bool) :=
  twoCalls ++ [.go false, .go false, .go true, .go true] ++ replicate 9 (.go false)

/-- One call after the other. -/
def inTurn : List (Ev Bool) := twoCalls ++ replicate 11 (.go false) ++ replicate 11 (.go true)

theorem mapPage_confined_two : ∃ s : Machine Bool, Reaches (fun s e => Apart s e ∧ Alone s e) s ∧
    s.calls true = some ⟨4, 5, 88, 1, .returned⟩ ∧ Confined s := by
  obtain ⟨s, hs, hcall⟩ : ∃ s, Machine.two.run (fun s e => Apart s e ∧ Alone s e) inTurn = some s ∧
      s.calls true = some ⟨4, 5, 88, 1, .returned⟩ := by
    decide +kernel
  have hreach := run_reaches (two_reaches _) hs
  exact ⟨s, hreach, hcall, mapPage_confined hreach⟩

/-- INCORRECT for two CPUs in general: the call on the first address space reads the root of the second, so its page is
    mapped there and the translation it was asked for is missing. -/
theorem mapPage_under_other_root : ∃ s : Machine Bool, Reaches Apart s ∧ s.calls false = some ⟨3, 0, 77, 1, .returned⟩ ∧
    s.tables.translateIn 3 0 = none ∧ s.tables.translateIn 4 0 = some (77, 1) ∧ ¬ Confined s := by
  obtain ⟨s, hs, hcall, hmine, hother⟩ : ∃ s, Machine.two.run Apart overtaking = some s ∧
      s.calls false = some ⟨3, 0, 77, 1, .returned⟩ ∧ s.tables.translateIn 3 0 = none ∧
      s.tables.translateIn 4 0 = some (77, 1) := by
    have h : (Machine.two.run Apart overtaking).map
        (fun s => (s.calls false, s.tables.translateIn 3 0, s.tables.translateIn 4 0)) =
        some (some ⟨3, 0, 77, 1, .returned⟩, none, some (77, 1)) := by decide +kernel
    obtain ⟨s, hs, heq⟩ := map_eq_some_iff.mp h
    simp only [Prod.mk.injEq] at heq
    exact ⟨s, hs, heq⟩
  refine ⟨s, run_reaches (two_reaches _) hs, hcall, hmine, hother, fun hconf => ?_⟩
  rw [hconf.present hcall rfl] at hmine
  exact some_ne_none _ hmine

end Orthox.Memory.BuildRoot
