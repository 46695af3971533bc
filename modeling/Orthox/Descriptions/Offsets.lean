import Orthox.Descriptions.Sharing
import Orthox.Files.Exact

/-! The offset of a shared description. `pread64` and `pwrite64` borrow it, so whoever else holds the description sees it
    moved, and a write sets it from what it found when it was entered. It is accounted for in the runs where positional
    calls are made on a description nobody else holds, below 4 GiB and without `O_APPEND`, where nothing moves the
    offset during a write, and where no chunk behind the first is refused. -/

namespace Orthox.Descriptions
open Blocks Files Function Option Sys

variable {T F : Type}

/-- The description a call works on. -/
def Op.file : Op F → F
  | .save f _ _ | .seek f _ _ | .enter f _ _ _ _ | .sample f _ _ _ | .chunk f _ _ _ _ _ _ | .finish f _ _ _ _ | .read f _ _
  | .advance f _ _ | .restore f _ => f

/-- Inside `pread64` or `pwrite64`. -/
def Op.positional : Op F → Bool
  | .save .. | .seek .. | .restore .. => true
  | .enter _ _ _ _ p | .sample _ _ _ p | .chunk _ _ _ _ _ _ p | .finish _ _ _ _ p | .read _ _ p | .advance _ _ p => p.isSome

/-- Every holder that is not itself in a positional call sees the offset that the results of the calls account for,
    and no positional call transferred elsewhere than at its offset. -/
structure Accounted (s : Sys T F) : Prop where
  seen : ∀ t f, s.holds t f = true → (∀ o, s.ops t = some o → o.file = f → o.positional = false) → s.offset f = s.book f
  placed : s.astray = false

/-- The events that keep the account: positional calls on a description of one's own, below 4 GiB and not appending; no
    refused chunk behind the first; and at the end of a write the offset is where the write found it. -/
def Orderly (s : Sys T F) : Ev T F → Prop
  | .pread t f _ offset => offset < 2 ^ 32 ∧ ∀ u, u ≠ t → s.holds u f = false
  | .pwrite t f append _ offset => append = false ∧ offset < 2 ^ 32 ∧ ∀ u, u ≠ t → s.holds u f = false
  | .go t _ _ _ => ∀ o, s.ops t = some o →
    match o with
    | .chunk _ _ src _ start written none =>
      0 < written → written < src.length → (start + written) % 2 ^ 32 + min (src.length - written) writeChunkMax < 2 ^ 32
    | .finish f false start _ none => s.offset f = start
    | _ => True
  | _ => True

/-! ### The invariant -/

def Body.Plain : Body → Prop
  | .read _ => True
  | .write append _ _ => append = false

/-- What a positional call relies on: the offset it goes back to is the one accounted for, and until the transfer the
    offset is the one asked for. -/
def Op.Kept (offset book : F → Nat) : Op F → Prop
  | .save f body asked => offset f = book f ∧ body.Plain ∧ asked < 2 ^ 32
  | .seek f body p => p.old = book f ∧ body.Plain ∧ p.asked < 2 ^ 32
  | .enter f append _ _ (some p) => p.old = book f ∧ append = false ∧ offset f = p.asked ∧ p.asked < 2 ^ 32
  | .sample _ _ _ (some _) => False
  | .chunk f append _ _ start written (some p) => p.old = book f ∧ append = false ∧ start = p.asked ∧ p.asked + written < 2 ^ 32
  | .finish f _ _ _ (some p) => p.old = book f
  | .read f _ (some p) => p.old = book f ∧ offset f = p.asked ∧ p.asked < 2 ^ 32
  | .advance f _ (some p) => p.old = book f
  | .restore f old => old = book f
  | _ => True

structure Account (s : Sys T F) : Prop where
  held : ∀ {t o}, s.ops t = some o → s.holds t o.file = true
  alone : ∀ {t o}, s.ops t = some o → o.positional = true → ∀ u, u ≠ t → s.holds u o.file = false
  kept : ∀ {t o}, s.ops t = some o → o.Kept s.offset s.book
  even : ∀ f, (∀ t o, s.ops t = some o → o.file = f → o.positional = false) → s.offset f = s.book f
  placed : s.astray = false

variable {s s' : Sys T F} {t : T} {o : Op F} {f : F}

theorem Account.accounted (h : Account s) : Accounted s := by
  refine ⟨fun t f hold hplain => h.even f fun u o hu hf => ?_, h.placed⟩
  rcases hpos : o.positional with - | -
  · rfl
  have hne : t ≠ u := by
    rintro rfl
    exact Bool.false_ne_true ((hplain o hu hf).symm.trans hpos)
  have := h.alone hu hpos t hne
  rw [hf, hold] at this
  cases this

/-- A plain call finds the account even. -/
theorem Account.plain (h : Account s) (hop : s.ops t = some o) (hplain : o.positional = false) :
    s.offset o.file = s.book o.file :=
  h.accounted.seen t o.file (h.held hop) fun x hx _ => by
    rw [hop] at hx
    cases hx
    exact hplain

/-- What a call relies on is not touched by changes to other descriptions; a call that is not positional relies on nothing. -/
theorem Op.Kept.congr {offset offset' book book' : F → Nat} (h : o.Kept offset book) (hoff : offset' o.file = offset o.file)
    (hbook : book' o.file = book o.file) : o.Kept offset' book' := by
  rcases o with _ | _ | ⟨_, _, _, _, _ | _⟩ | ⟨_, _, _, _ | _⟩ | ⟨_, _, _, _, _, _, _ | _⟩ | ⟨_, _, _, _, _ | _⟩ |
    ⟨_, _, _ | _⟩ | ⟨_, _, _ | _⟩ | _ <;> simp only [file] at hoff hbook <;> simp only [Op.Kept] at h ⊢ <;>
    simp only [hoff, hbook] <;> exact h

theorem Op.kept_of_plain {offset book : F → Nat} (h : o.positional = false) : o.Kept offset book := by
  rcases o with _ | _ | ⟨_, _, _, _, _ | _⟩ | ⟨_, _, _, _ | _⟩ | ⟨_, _, _, _, _, _, _ | _⟩ | ⟨_, _, _, _, _ | _⟩ |
    ⟨_, _, _ | _⟩ | ⟨_, _, _ | _⟩ | _ <;> trivial

variable [DecidableEq T]

/-- A section of a call changes only the description it works on. Behind it the account must be even, unless the call is
    positional and goes on. -/
theorem Account.turn (h : Account s) (hop : s.ops t = some o) {n : Option (Op F)} (hops : s'.ops = update s.ops t n)
    (hholds : s'.holds = s.holds) (hoff : ∀ g, g ≠ o.file → s'.offset g = s.offset g)
    (hbook : ∀ g, g ≠ o.file → s'.book g = s.book g)
    (hnext : ∀ x, n = some x → x.file = o.file ∧ x.positional = o.positional ∧ x.Kept s'.offset s'.book)
    (heven : o.positional = false ∨ n = none → s'.offset o.file = s'.book o.file) (hplaced : s'.astray = false) : Account s' := by
  -- another task in a positional call works on another description
  have hother : ∀ u x, u ≠ t → s.ops u = some x → x.positional → x.file ≠ o.file := by
    intro u x hne hu hpos hf
    have := h.alone hu hpos t (symm hne)
    rw [hf, h.held hop] at this
    cases this
  refine ⟨?_, ?_, ?_, ?_, hplaced⟩
  · intro u x hu
    rw [hops] at hu
    rw [hholds]
    rcases Schemes.update_cases hu with ⟨rfl, hx⟩ | ⟨-, hu⟩
    · rw [(hnext x hx).1]
      exact h.held hop
    · exact h.held hu
  · intro u x hu hpos
    rw [hops] at hu
    rw [hholds]
    rcases Schemes.update_cases hu with ⟨rfl, hx⟩ | ⟨-, hu⟩
    · obtain ⟨hf, hp, -⟩ := hnext x hx
      rw [hf]
      exact h.alone hop (hp ▸ hpos)
    · exact h.alone hu hpos
  · intro u x hu
    rw [hops] at hu
    rcases Schemes.update_cases hu with ⟨rfl, hx⟩ | ⟨hne, hu⟩
    · exact (hnext x hx).2.2
    rcases hpos : x.positional with - | -
    · exact Op.kept_of_plain hpos
    · have hf := hother u x hne hu hpos
      exact (h.kept hu).congr (hoff _ hf) (hbook _ hf)
  · intro g hg
    rcases eq_or_ne g o.file with rfl | hne
    · refine heven ?_
      rcases n with - | x
      · exact .inr rfl
      obtain ⟨hf, hp, -⟩ := hnext x rfl
      left
      rw [← hp]
      exact hg t x (by rw [hops, update_self]) hf
    · rw [hoff g hne, hbook g hne]
      refine h.even g fun u x hu hf => ?_
      rcases eq_or_ne u t with rfl | hut
      · rw [hop] at hu
        cases hu
        exact absurd hf.symm hne
      · exact hg u x (by rw [hops, update_of_ne hut, hu]) hf

/-- A call is entered. -/
theorem Account.enter (h : Account s) (hidle : s.ops t = none) (hhold : s.holds t o.file)
    (hops : s'.ops = update s.ops t (some o)) (hholds : s'.holds = s.holds) (hoff : s'.offset = s.offset)
    (hbook : s'.book = s.book) (hplaced : s'.astray = s.astray) (hkept : o.Kept s.offset s.book)
    (halone : o.positional → ∀ u, u ≠ t → s.holds u o.file = false) : Account s' := by
  refine ⟨?_, ?_, ?_, ?_, hplaced.trans h.placed⟩
  · intro u x hu
    rw [hops] at hu
    rw [hholds]
    rcases Schemes.update_cases hu with ⟨rfl, hx⟩ | ⟨-, hu⟩
    · cases hx
      exact hhold
    · exact h.held hu
  · intro u x hu hpos
    rw [hops] at hu
    rw [hholds]
    rcases Schemes.update_cases hu with ⟨rfl, hx⟩ | ⟨-, hu⟩
    · cases hx
      exact halone hpos
    · exact h.alone hu hpos
  · intro u x hu
    rw [hops] at hu
    rw [hoff, hbook]
    rcases Schemes.update_cases hu with ⟨rfl, hx⟩ | ⟨-, hu⟩
    · cases hx
      exact hkept
    · exact h.kept hu
  · intro g hg
    rw [hoff, hbook]
    refine h.even g fun u x hu hf => hg u x ?_ hf
    rw [hops, update_of_ne, hu]
    rintro rfl
    rw [hidle] at hu
    cases hu

/-! ### Sections -/

variable {src : Nat → BitVec 8} {ip : Inode} {v : Vol}

/-- A chunk that was not refused ends below 4 GiB. -/
theorem writei_end {off n now : Nat} (ho : off < 2 ^ 32) (hn : n ≤ writeChunkMax)
    (h : ¬ (xv6fsWritei v ip src off n now).1 < 0) : off + n < 2 ^ 32 := by
  by_contra hge
  rw [writei_refused (by omega) ho (by unfold writeChunkMax at hn; omega)] at h
  exact h (show (-1) < 0 by decide)

theorem writeLoop_tot_le (src : Nat → BitVec 8) (n : Nat) : ∀ (fuel tot off : Nat) (ip : Inode) (v : Vol), tot ≤ n →
    (writeLoop src n fuel tot off ip v).tot ≤ n := by
  intro fuel
  induction fuel with
  | zero => exact fun _ _ _ _ h => h
  | succ fuel ih =>
    intro tot off ip v h
    rw [writeLoop]
    dsimp only
    split_ifs
    · exact h
    · exact ih _ _ _ _ (by omega)
    · exact h

/-- A chunk that ends below 4 GiB is not refused. -/
theorem writei_nonneg {off n now : Nat} (h : off + n < 2 ^ 32) (hn : n ≤ writeChunkMax) :
    ¬ (xv6fsWritei v ip src off n now).1 < 0 := by
  have hmax : off + n ≤ maxFile * bsize := le_trans h.le (by decide)
  have htot := writeLoop_tot_le src n n 0 off ip v (Nat.zero_le n)
  rw [xv6fsWritei, if_neg (by omega), if_neg (by omega)]
  dsimp only
  unfold writeChunkMax at hn
  rw [toInt32_of_lt (by omega)]
  omega

variable {p : Option Positional}

section
variable (h : Account s)
include h

/-- The call returns without having moved the offset, or moved it as accounted. -/
theorem Account.leave (hop : s.ops t = some o) (hp : o.positional = p.isSome)
    (hold : ∀ q, p = some q → q.old = s'.book o.file) (hops : s'.ops = s.ops)
    (hholds : s'.holds = s.holds) (hoff : ∀ g, g ≠ o.file → s'.offset g = s.offset g)
    (hbook : ∀ g, g ≠ o.file → s'.book g = s.book g) (heven : p = none → s'.offset o.file = s'.book o.file)
    (hplaced : s'.astray = false) : Account (s'.leave t o.file p) := by
  rcases p with - | q
  · refine h.turn hop (n := none) (by rw [← hops]; rfl) hholds hoff hbook nofun (fun _ => heven rfl) hplaced
  refine h.turn hop (by rw [← hops]; rfl) hholds hoff hbook ?_ ?_ hplaced
  · rintro x ⟨⟩
    exact ⟨rfl, hp.symm, hold q rfl⟩
  · rintro (hplain | hnone)
    · rw [hp] at hplain
      cases hplain
    · cases hnone

variable {now : BitVec 32} {x : Op F}

/-- A section that changes no offset and goes on with the call. -/
theorem Account.next (hop : s.ops t = some o) (hf : x.file = o.file) (hp : x.positional = o.positional)
    (hkept : o.positional → x.Kept s.offset s.book) (hops : s'.ops = update s.ops t (some x))
    (hholds : s'.holds = s.holds) (hoff : s'.offset = s.offset) (hbook : s'.book = s.book) (hplaced : s'.astray = false) :
    Account s' := by
  refine h.turn hop hops hholds (fun g _ => by rw [hoff]) (fun g _ => by rw [hbook]) ?_ ?_ hplaced
  · rintro y ⟨⟩
    refine ⟨hf, hp, ?_⟩
    rw [hoff, hbook]
    rcases hpos : o.positional with - | -
    · exact Op.kept_of_plain (hp.trans hpos)
    · exact hkept hpos
  · rintro (hplain | hnone)
    · rw [hoff, hbook]
      exact h.plain hop hplain
    · cases hnone

variable [DecidableEq F]

theorem Account.chunkTurn {append : Bool} {src : Str} {id start written : Nat}
    (hop : s.ops t = some (.chunk f append src id start written p)) (hfits : p = none → 0 < written → written < src.length →
      (start + written) % 2 ^ 32 + min (src.length - written) writeChunkMax < 2 ^ 32) :
    Account (s.chunkTurn t f append src id start written p now) := by
  rw [Sys.chunkTurn]
  have hpos : (Op.chunk f append src id start written p).positional = p.isSome := rfl
  have hkept := h.kept hop
  rcases lt_or_ge written src.length with hlt | hge
  · rw [if_pos hlt]
    dsimp only
    obtain ⟨n, hn⟩ : ∃ n, n = min (src.length - written) writeChunkMax := ⟨_, rfl⟩
    obtain ⟨pos, hpdef⟩ : ∃ pos, pos = (start + written) % 2 ^ 32 := ⟨_, rfl⟩
    have hplt : pos < 2 ^ 32 := hpdef ▸ Nat.mod_lt _ (by decide)
    rw [← hn, ← hpdef]
    generalize hr : xv6fsWritei s.vol (inodeAt s.vol s.inum) (fun j => src.getD (written + j) 0) pos n now.toNat = r
    -- the chunk of a positional write goes where it was asked to
    have hplaced : ({ s with vol := r.2.2 }.transfer pos r.1.toNat (p.map fun q : Positional => q.asked + written)).astray = false := by
      rcases p with - | q
      · exact h.placed
      obtain ⟨-, -, hstart, hlow⟩ := hkept
      have : pos = q.asked + written := by rw [hpdef, hstart, Nat.mod_eq_of_lt hlow]
      simp [transfer, h.placed, this]
    have htrans : ∀ a : Option Nat, ({ s with vol := r.2.2 }.transfer pos r.1.toNat a).ops = s.ops ∧
        ({ s with vol := r.2.2 }.transfer pos r.1.toNat a).holds = s.holds ∧
        ({ s with vol := r.2.2 }.transfer pos r.1.toNat a).offset = s.offset ∧
        ({ s with vol := r.2.2 }.transfer pos r.1.toNat a).book = s.book := by
      rintro (- | a) <;> exact ⟨rfl, rfl, rfl, rfl⟩
    obtain ⟨hops, hholds, hoff, hbook⟩ := htrans (p.map fun q : Positional => q.asked + written)
    generalize { s with vol := r.2.2 }.transfer pos r.1.toNat (p.map fun q : Positional => q.asked + written) = s₁ at *
    rcases lt_or_ge r.1 0 with hneg | hnn
    · rw [if_pos hneg]
      rcases p with - | q
      · -- only the first chunk of a plain write may be refused
        rcases Nat.eq_zero_or_pos written with rfl | hfirst
        · rw [if_neg (lt_irrefl 0)]
          refine h.leave hop hpos nofun hops hholds (fun g _ => by rw [hoff]) (fun g _ => by rw [hbook]) (fun _ => ?_) hplaced
          rw [hoff, hbook]
          exact h.plain hop rfl
        · refine absurd hneg ?_
          have hfit := hfits rfl hfirst hlt
          rw [← hn, ← hpdef] at hfit
          exact hr ▸ writei_nonneg hfit (hn ▸ min_le_right _ _)
      · have hsame : (if 0 < written then s₁.wrote f append start written (some q) else s₁) = s₁ := ite_self _
        rw [hsame]
        refine h.leave hop hpos ?_ hops hholds (fun g _ => by rw [hoff]) (fun g _ => by rw [hbook]) nofun hplaced
        rintro q' ⟨⟩
        rw [hbook]
        exact hkept.1
    · rw [if_neg (not_lt.mpr hnn)]
      split_ifs with hshort
      · refine h.next hop (x := .finish f append start (written + r.1.toNat) p) rfl rfl ?_ (by rw [← hops]; rfl) hholds hoff hbook hplaced
        intro hp
        rcases p with - | q
        · cases hp
        · exact hkept.1
      refine h.next hop (x := .chunk f append src id start (written + n) p) rfl rfl ?_ (by rw [← hops]; rfl) hholds hoff hbook hplaced
      intro hp
      rcases p with - | q
      · cases hp
      obtain ⟨hold, happ, hstart, hlow⟩ := hkept
      have hend := writei_end hplt (hn ▸ min_le_right _ _) (hr ▸ not_lt.mpr hnn)
      refine ⟨hold, happ, hstart, ?_⟩
      omega
  · rw [if_neg (Nat.not_lt_of_le hge)]
    refine h.next hop (x := .finish f append start written p) rfl rfl ?_ rfl rfl rfl rfl h.placed
    intro hp
    rcases p with - | q
    · cases hp
    · exact hkept.1

theorem Account.go {env : Cache.Env} {bio : Cache.Bio} (hok : Orderly s (.go t now env bio))
    (hs : s.go t now env bio = some s') : Account s' := by
  obtain ⟨o, hop, rfl⟩ := map_eq_some_iff.mp hs
  have hok := hok o hop
  have hkept := h.kept hop
  rcases o with ⟨f, body, asked⟩ | ⟨f, body, q⟩ | ⟨f, append, src, id, p⟩ | ⟨f, src, id, p⟩ | ⟨f, append, src, id, start, written, p⟩ |
    ⟨f, append, start, written, p⟩ | ⟨f, count, p⟩ | ⟨f, n, p⟩ | ⟨f, old⟩
  · obtain ⟨heven, hplain, hlow⟩ := hkept
    dsimp only
    split_ifs
    · exact h.turn hop rfl rfl (fun _ _ => rfl) (fun _ _ => rfl) nofun (fun _ => heven) h.placed
    · exact h.next hop (x := .seek f body ⟨s.offset f, asked⟩) rfl rfl (fun _ => ⟨heven, hplain, hlow⟩) rfl rfl rfl rfl h.placed
  · obtain ⟨hold, hplain, hlow⟩ := hkept
    have hoff : ∀ g, g ≠ f → update s.offset f q.asked g = s.offset g := fun g hg => update_of_ne hg _ _
    have hat : update s.offset f q.asked f = q.asked := update_self ..
    rcases body with count | ⟨append, src, id⟩
    · refine h.turn hop rfl rfl hoff (fun _ _ => rfl) ?_ ?_ h.placed
      · rintro x ⟨⟩
        exact ⟨rfl, rfl, hold, hat, hlow⟩
      · rintro (hx | hx) <;> cases hx
    refine h.turn hop rfl rfl hoff (fun _ _ => rfl) ?_ ?_ h.placed
    · rintro x ⟨⟩
      exact ⟨rfl, rfl, hold, hplain, hat, hlow⟩
    · rintro (hx | hx) <;> cases hx
  · rcases append with - | -
    · refine h.next hop (x := .chunk f false src id (s.offset f) 0 p) rfl rfl ?_ rfl rfl rfl rfl h.placed
      intro hp
      rcases p with - | q
      · cases hp
      · exact ⟨hkept.1, rfl, hkept.2.2.1, hkept.2.2.2⟩
    refine h.next hop (x := .sample f src id p) rfl rfl ?_ rfl rfl rfl rfl h.placed
    intro hp
    rcases p with - | q
    · cases hp
    · cases hkept.2.1
  · refine h.next hop (x := .chunk f true src id s.size 0 p) rfl rfl ?_ rfl rfl rfl rfl h.placed
    intro hp
    rcases p with - | q
    · cases hp
    · exact hkept.elim
  · refine h.chunkTurn hop ?_
    rintro rfl
    exact hok
  · rcases p with - | q
    · refine h.leave hop rfl nofun rfl rfl (fun g hg => update_of_ne hg _ _)
        (fun g hg => update_of_ne hg _ _) (fun _ => ?_) h.placed
      have heven := h.plain hop rfl
      have hbook : (if append then start else s.book f) = start := by
        rcases append with - | -
        · rw [if_neg nofun]
          exact heven.symm.trans hok
        · exact if_pos rfl
      simp only [Op.file, wrote, setBook, setOffset, update_self, hbook]
    · exact h.leave hop rfl (fun q' hq => by cases hq; exact hkept) rfl rfl (fun g hg => update_of_ne hg _ _) (fun _ _ => rfl)
        nofun h.placed
  · dsimp only
    split_ifs
    · refine h.leave hop rfl ?_ rfl rfl (fun _ _ => rfl) (fun _ _ => rfl) ?_ h.placed
      · rintro q rfl
        exact hkept.1
      · rintro rfl
        exact h.plain hop rfl
    generalize (fsRead env bio s.vol s.inum (s.offset f) count fun _ => 0).1.toNat = n
    rcases p with - | q
    · exact h.next hop (x := .advance f n none) rfl rfl nofun rfl rfl rfl rfl h.placed
    refine h.next hop (x := .advance f n (some q)) rfl rfl (fun _ => hkept.1) rfl rfl rfl rfl ?_
    obtain ⟨-, hat, hlow⟩ := hkept
    have hpos : s.offset f % 2 ^ 32 = q.asked := by rw [hat, Nat.mod_eq_of_lt hlow]
    simp only [transfer, setOp, map_some, hpos, ne_eq, not_true_eq_false, and_false, decide_false, h.placed, Bool.or_self]
  · rcases p with - | q
    · refine h.leave hop rfl nofun rfl rfl (fun g hg => update_of_ne hg _ _)
        (fun g hg => update_of_ne hg _ _) (fun _ => ?_) h.placed
      have heven : s.offset f = s.book f := h.plain hop rfl
      simp only [Op.file, setBook, setOffset, update_self, heven]
    · exact h.leave hop rfl (fun q' hq => by cases hq; exact hkept) rfl rfl (fun g hg => update_of_ne hg _ _) (fun _ _ => rfl)
        nofun h.placed
  · refine h.turn hop rfl rfl (fun g hg => update_of_ne hg _ _) (fun _ _ => rfl) nofun (fun _ => ?_) h.placed
    exact (update_self ..).trans hkept

/-! ### Runs -/

omit [DecidableEq F] in
/-- A call is entered on a description that its task holds. -/
theorem Account.start {calls : List Str} (hkept : s.ops t = none → o.Kept s.offset s.book)
    (halone : o.positional → ∀ u, u ≠ t → s.holds u o.file = false)
    (hs : { s with calls := calls }.start t o.file o = some s') : Account s' := by
  rw [Sys.start] at hs
  split_ifs at hs with hcond
  cases hs
  have hidle := isNone_iff_eq_none.mp hcond.1
  exact h.enter hidle hcond.2 rfl rfl rfl rfl rfl (hkept hidle) halone

section
variable (hidle : s.ops t = none)
include hidle

omit [DecidableEq T] [DecidableEq F] in
/-- A holder that is in no call shares the description with no positional call. -/
theorem Account.idle (hhold : s.holds t f) {u : T} (hu : s.ops u = some x) (hpos : x.positional) : x.file ≠ f := by
  rintro rfl
  have hne : t ≠ u := by
    rintro rfl
    rw [hu] at hidle
    cases hidle
  have := h.alone hu hpos t hne
  rw [hhold] at this
  cases this

omit [DecidableEq T] [DecidableEq F] in
/-- Nobody else is in a call on a description that only one task holds. -/
theorem Account.own (halone : ∀ u, u ≠ t → s.holds u f = false) : s.offset f = s.book f := by
  refine h.even f fun u x hu hf => ?_
  rcases eq_or_ne u t with rfl | hne
  · rw [hidle] at hu
    cases hu
  have := h.held hu
  rw [hf, halone u hne] at this
  cases this

omit [DecidableEq T] in
theorem Account.lseek (hhold : s.holds t f) (position : Nat) : Account ((s.setOffset f position).setBook f position) := by
  refine ⟨h.held, h.alone, ?_, ?_, h.placed⟩
  · intro u x hu
    rcases hpos : x.positional with - | -
    · exact Op.kept_of_plain hpos
    · have hf := h.idle hidle hhold hu hpos
      exact (h.kept hu).congr (update_of_ne hf _ _) (update_of_ne hf _ _)
  · intro g hg
    change update s.offset f position g = update s.book f position g
    rcases eq_or_ne g f with rfl | hne
    · rw [update_self, update_self]
    · rw [update_of_ne hne, update_of_ne hne]
      exact h.even g hg

end

omit h in
/-- One entry of the table of holders set. -/
theorem holds_update (holds : T → F → Bool) (u v : T) (f g : F) (b : Bool) :
    update holds u (update (holds u) f b) v g = if v = u ∧ g = f then b else holds v g := by
  rcases eq_or_ne v u with rfl | hne
  · rw [update_self, update_apply]
    simp
  · rw [update_of_ne hne, if_neg fun h => hne h.1]

theorem Account.step {e : Ev T F} (hok : Orderly s e) (hs : s.step e = some s') : Account s' := by
  rcases e with ⟨t, f, append, src⟩ | ⟨t, f, count⟩ | ⟨t, f, count, off⟩ | ⟨t, f, append, src, off⟩ | ⟨t, f, pos⟩ | ⟨t, u, f⟩ |
    ⟨t, f⟩ | ⟨t, now, env, bio⟩
  · exact h.start (o := .enter f append src s.calls.length none) (fun _ => trivial) nofun hs
  · exact h.start (o := .read f count none) (fun _ => trivial) nofun hs
  · rw [Sys.step] at hs
    split_ifs at hs
    exact h.start (o := .save f (.read count) off) (fun hidle => ⟨h.own hidle hok.2, trivial, hok.1⟩) (fun _ => hok.2) hs
  · rw [Sys.step] at hs
    split_ifs at hs
    exact h.start (o := .save f (.write append src s.calls.length) off) (fun hidle => ⟨h.own hidle hok.2.2, hok.1, hok.2.1⟩)
      (fun _ => hok.2.2) hs
  · rw [Sys.step] at hs
    split_ifs at hs with hcond
    cases hs
    exact h.lseek (isNone_iff_eq_none.mp hcond.1) hcond.2.1 pos
  · rw [Sys.step] at hs
    split_ifs at hs with hcond
    cases hs
    refine ⟨?_, ?_, h.kept, h.even, h.placed⟩
    · intro v x hv
      dsimp only
      rw [holds_update]
      split_ifs
      · rfl
      · exact h.held hv
    · intro v x hv hpos w hw
      dsimp only
      rw [holds_update, if_neg fun hc => h.idle (isNone_iff_eq_none.mp hcond.1) hcond.2 hv hpos hc.2]
      exact h.alone hv hpos w hw
  · rw [Sys.step] at hs
    split_ifs at hs with hcond
    cases hs
    refine ⟨?_, ?_, h.kept, h.even, h.placed⟩
    · intro v x hv
      dsimp only at hv ⊢
      rw [holds_update, if_neg]
      · exact h.held hv
      · rintro ⟨rfl, -⟩
        rw [(isNone_iff_eq_none.mp hcond)] at hv
        cases hv
    · intro v x hv hpos w hw
      dsimp only
      rw [holds_update]
      split_ifs
      · rfl
      · exact h.alone hv hpos w hw
  · exact h.go hok hs

end

omit [DecidableEq T] in
theorem Fresh.account (h : Fresh s) : Account s where
  held := fun hop => by
    rw [h.idle] at hop
    cases hop
  alone := fun hop => by
    rw [h.idle] at hop
    cases hop
  kept := fun hop => by
    rw [h.idle] at hop
    cases hop
  even := fun f _ => by rw [h.book]
  placed := h.astray

variable [DecidableEq F]

/-- Two tasks, and the empty file of the small volume with one description, held by the tasks below `n`. -/
def Sys.small (n : Nat) : Sys (Fin 2) Nat where
  vol := tiny 9
  inum := 1
  offset := fun _ => 0
  holds := fun t f => decide (t.val < n ∧ f = 0)
  ops := fun _ => none
  book := fun _ => 0
  astray := false
  calls := []

theorem Sys.small_fresh (n : Nat) : Fresh (.small n) :=
  ⟨tiny_wellFormed (by decide), tiny_one 9, fun _ => rfl, fun _ => Nat.two_pow_pos 64, rfl, rfl, rfl⟩

/-- A section of a call on the small volume. -/
def Ev.turn (t : Fin 2) : Ev (Fin 2) Nat := .go t 0 (Setting.plain (tiny 9)).env (Setting.plain (tiny 9)).bio

end Orthox.Descriptions
