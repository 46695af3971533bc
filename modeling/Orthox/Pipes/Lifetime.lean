import Orthox.Pipes.Stream

/-! How long the shared pipe of a FIFO lives. An opener is counted in the table when it enters the open, and in the pipe only
    after it met the other end. In between the pipe may be given up under it, or refuse a writer that was let through
    because of it; and an opener that fails as the last one takes the entry with it but not the pipe. -/

namespace Orthox.Pipes
open Schemes List Function Option

variable {T F : Type}

/-- The ends of an opener that is counted in the table only. -/
def Op.asks : Op F → Option Ends
  | .opening e _ | .admitted e => some e
  | _ => none

/-- Somebody has entered an open of the pipe and has neither failed nor closed. -/
def Sys.Used (s : Sys T F) : Prop := s.files ≠ [] ∨ ∃ t o, s.ops t = some o ∧ o.opens = true

/-- The pages were given back, or are about to be. -/
def Sys.GivenUp (s : Sys T F) : Prop := s.freed = true ∨ ∃ t, s.ops t = some (.released true)

/-- One task gives the pages back, once. -/
def Sys.Once (s : Sys T F) : Prop :=
  ∀ t, s.ops t = some (.released true) → s.freed = false ∧ ∀ u, s.ops u = some (.released true) → u = t

/-- The openers are careful, the last one to leave does not fail in the open, and nobody writes while a reader is counted
    in the table only. -/
def Steady (s : Sys T F) (e : Ev T F) : Prop := Careful s e ∧ match e with
  | .refuse t => s.files ≠ [] ∨ ∃ u o, u ≠ t ∧ s.ops u = some o ∧ o.opens = true
  | .go t => ∀ {f src written id}, s.ops t = some (.writing f src written id) →
    ∀ {u o e}, s.ops u = some o → o.asks = some e → e.reads = false
  | _ => True

/-- One event in the life of the pipe: the pages are not given up while somebody uses the pipe, one task gives them back, and
    it does when the last user leaves, who also takes the entry; a writer is refused only without a reader, open or opening. -/
structure Lifetime (s : Sys T F) (e : Ev T F) (s' : Sys T F) : Prop where
  kept : s'.GivenUp → ¬ s'.Used
  once : s'.Once
  last : s.Used → ¬ s'.Used → ¬ s.GivenUp ∧ s'.GivenUp ∧ s'.fifo.any FifoEntry.inUse = false
  epipe : ∀ {t f src written id}, e = .go t → s.ops t = some (.writing f src written id) →
    s'.ops t = some (.answered (-epipe)) → (∀ x ∈ s.files, x.ends.reads = false) ∧
      ∀ {u o e}, s.ops u = some o → o.asks = some e → e.reads = false

variable {s s' : Sys T F} {t u : T} {o : Op F}

theorem Inv.kept (h : Inv s) (hup : s.GivenUp) : ¬ s.Used := by
  have hsealed : s.Sealed := hup.elim h.gone fun ⟨_, hu⟩ => h.going hu
  rintro (hfiles | ⟨t, o, ho, hopens⟩)
  · exact hfiles hsealed.files
  · exact absurd (hsealed.openers ho) (hopens ▸ Bool.noConfusion)

theorem Sys.Once.frame (h : s.Once) (hfreed : s'.freed = s.freed)
    (hops : ∀ {u}, s'.ops u = some (.released true) → s.ops u = some (.released true)) : s'.Once :=
  fun t ht => ⟨hfreed.trans (h t (hops ht)).1, fun u hu => (h t (hops ht)).2 u (hops hu)⟩

variable [DecidableEq T]

theorem Sys.Once.update (h : s.Once) {o' : Option (Op F)} (hops : s'.ops = update s.ops t o') (ho : o' ≠ some (.released true))
    (hfreed : s'.freed = s.freed) : s'.Once :=
  h.frame hfreed fun hu => ((update_cases (hops ▸ hu)).resolve_left fun h => ho h.2).2

/-- A move of a task that is not opening the pipe. -/
theorem Sys.Used.update (h : s.Used) {o' : Option (Op F)} (hops : s'.ops = update s.ops t o')
    (ht : ∀ o, s.ops t = some o → o.opens = false) (hfiles : s'.files = [] → s.files = []) : s'.Used := by
  refine h.imp (mt hfiles) fun ⟨u, o, ho, hopens⟩ => ⟨u, o, ?_, hopens⟩
  rw [hops, update_of_ne, ho]
  rintro rfl
  exact absurd (ht o ho) (hopens ▸ Bool.noConfusion)

variable [DecidableEq F]

theorem Sys.Once.step (h : s.Once) (hinv : Inv s) {e : Ev T F} (hm : Moves s e s') : s'.Once := by
  cases hm with
  | @release t f e waking op =>
    obtain ⟨hlive, hnone⟩ := hinv.not_sealed_of_file (hinv.releasing op).2
    have hself : ∀ {u}, (s.releaseTurn t f e).ops u = some (.released true) → u = t := by
      intro u hu
      exact (update_cases hu).elim And.left fun h => absurd h.2 (hnone u)
    intro v hv
    exact ⟨hlive, fun u hu => (hself hu).trans (hself hv).symm⟩
  | @released t free op =>
    intro v hv
    obtain ⟨hne, hv₁⟩ := update_none hv
    cases free with
    | true => exact absurd ((h t op).2 v hv₁) hne
    | false => exact ⟨(Bool.or_false _).trans (h v hv₁).1, fun u hu => (h v hv₁).2 u (update_none hu).2⟩
  | wake | rouse | share | closeShared | reuse => exact h.frame rfl id
  | write | read | writeDone | writeRefused | writeBlocked | writeStored | writeWoken | readEof | readBlocked | readTaken
  | readWoken | answer | giveBack | closeLast | openFifo | meet | noReader | noFile | join | poll | unpoll =>
    exact h.update rfl nofun rfl

theorem Reaches.once (h : Reaches Steady s) : s.Once := by
  induction h with
  | fresh h => cases h <;> exact nofun
  | step hr _ hs ih => exact ih.step (hr.inv fun _ _ hok => hok.1) (step_moves hs)

/-- The last user leaves by a release, and the pipe and the entry are given up there. -/
theorem Inv.last (hinv : Inv s) {e : Ev T F} (hok : Steady s e) (hm : Moves s e s') (h : s.Used) (hno : ¬ s'.Used) :
    ¬ s.GivenUp ∧ s'.GivenUp ∧ s'.fifo.any FifoEntry.inUse = false := by
  refine ⟨fun hup => hinv.kept hup h, ?_⟩
  cases hm with
  | @release t f e waking op =>
    have hinv' := hinv.release op hok.1
    have hfiles : (s.releaseTurn t f e).files = [] := not_not.mp fun hne => hno (.inl hne)
    have hzero : s.pipe.refCount - 1 = 0 := by
      have hrefs := hinv'.refs (hinv.not_sealed_of_file (hinv.releasing op).2).1
      rw [hfiles] at hrefs
      exact hrefs
    have hgoing : (s.releaseTurn t f e).ops t = some (.released true) := by
      change update s.ops t (some (.released (decide (s.pipe.refCount - 1 = 0)))) t = _
      rw [update_self, decide_eq_true hzero]
    exact ⟨.inr ⟨t, hgoing⟩, (hinv'.going hgoing).entry⟩
  | noReader op | noFile op =>
    refine absurd (hok.2.imp id fun ⟨u, o, hne, ho, hopens⟩ => ⟨u, o, ?_, hopens⟩) hno
    exact (update_of_ne hne ..).trans ho
  | meet op => exact absurd (.inr ⟨_, _, update_self .., rfl⟩) hno
  | join op new => exact absurd (.inl (cons_ne_nil _ _)) hno
  | wake | rouse | share | closeShared | reuse => exact absurd h hno
  | write idle | read idle | closeLast idle | openFifo idle | poll idle =>
    exact (hno (h.update rfl (fun o ho => absurd (idle.symm.trans ho) nofun) id)).elim
  | giveBack op => exact (hno (h.update rfl (fun o ho => by cases op.symm.trans ho; rfl) map_eq_nil_iff.mp)).elim
  | writeDone op | writeRefused op | writeBlocked op | writeStored _ op | writeWoken op | readEof op | readBlocked op
  | readTaken _ op | readWoken op | answer op | released op | unpoll op =>
    exact (hno (h.update rfl (fun o ho => by cases op.symm.trans ho; rfl) id)).elim

end Orthox.Pipes
