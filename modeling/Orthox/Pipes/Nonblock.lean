import Orthox.Pipes.Descriptors

/-! `O_NONBLOCK` on pipes. The flag is accepted by `pipe2`, `open` and `F_SETFL`, and the last two keep it in the
    descriptor, but the loops of `fs_read` and `fs_write` never look at it: a call through such a descriptor sleeps exactly
    when a call through any other would. -/

namespace Orthox.Pipes
open Function

variable {T F : Type}

/-! ### Turns that sleep -/

/-- The next turn of the task's call finds nothing to do and puts it to sleep. -/
def Sys.Blocks (s : Sys T F) (t : T) : Prop :=
  (∃ f count, s.ops t = some (.reading f count) ∧ s.pipe.Stuck .read) ∨
  (∃ f src written id, s.ops t = some (.writing f src written id) ∧ written < src.length ∧ s.pipe.Stuck .write)

/-- The call was put to sleep. -/
def Sys.Slept (s : Sys T F) (t : T) : Prop := ∃ o side, s.ops t = some o ∧ o.slept = some side

variable [DecidableEq T] [DecidableEq F] {s s' : Sys T F}

omit [DecidableEq F] in
/-- A call moved to a place where it does not sleep. -/
theorem Sys.Slept.of_update {t u : T} {o' : Option (Op F)} (ho' : ∀ o, o' = some o → o.slept = none)
    (hops : s'.ops = update s.ops t o') (h : s'.Slept u) : s.Slept u := by
  obtain ⟨o, side, ho, hside⟩ := h
  exact ⟨o, side, (waits_update ho' (hops ▸ ho) hside).2, hside⟩

/-- A call that goes to sleep is at its own turn, which finds nothing to do. -/
theorem slept_step {e : Ev T F} (hm : Moves s e s') {u : T} (h : s'.Slept u) : s.Slept u ∨ e = .go u ∧ s.Blocks u := by
  cases hm with
  | writeBlocked op more readers full =>
    rename_i t f src written id
    rcases eq_or_ne u t with rfl | hne
    · exact .inr ⟨rfl, .inr ⟨f, src, written, id, op, more, full, readers⟩⟩
    · obtain ⟨o, side, ho, hside⟩ := h
      exact .inl ⟨o, side, (update_of_ne hne ..).symm.trans ho, hside⟩
  | readBlocked op nothing writers =>
    rename_i t f count
    rcases eq_or_ne u t with rfl | hne
    · exact .inr ⟨rfl, .inl ⟨f, count, op, nothing, writers⟩⟩
    · obtain ⟨o, side, ho, hside⟩ := h
      exact .inl ⟨o, side, (update_of_ne hne ..).symm.trans ho, hside⟩
  | wake | rouse | share | closeShared | reuse => exact .inl h
  | answer | released | join | unpoll => exact .inl (h.of_update (fun o ho => by cases ho) rfl)
  | _ => exact .inl (h.of_update (fun o ho => by cases ho; rfl) rfl)

/-- A turn that finds nothing to do sleeps. -/
theorem Sys.Blocks.slept {t : T} (h : s.Blocks t) (hm : Moves s (.go t) s') : s'.Slept t := by
  rcases h with ⟨f, count, op, nothing, writers⟩ | ⟨f, src, written, id, op, more, full, readers⟩
  · cases hm with
    | readBlocked op' => exact ⟨_, .read, update_self .., rfl⟩
    | readEof op' _ gone => exact absurd gone writers
    | readTaken _ op' nonempty => exact absurd nothing nonempty
    | writeDone op' | writeRefused op' | writeBlocked op' | writeStored _ op' | writeWoken op' | readWoken op' | answer op'
    | giveBack op' | release _ op' | released op' => cases op.symm.trans op'
  cases hm with
  | writeBlocked op' => exact ⟨_, .write, update_self .., rfl⟩
  | writeDone op' all =>
    cases op.symm.trans op'
    exact absurd more (not_lt.mpr all)
  | writeRefused op' _ gone => exact absurd gone readers
  | writeStored _ op' _ _ space => exact absurd full space
  | readEof op' | readBlocked op' | readTaken _ op' | writeWoken op' | readWoken op' | answer op'
  | giveBack op' | release _ op' | released op' => cases op.symm.trans op'

/-! ### Turns that get on -/

/-- How many turns a read or write has left at most, when none of them sleeps. -/
def Op.left : Op F → Nat
  | .writing _ src written _ => src.length - written + 1
  | .reading .. => 1
  | _ => 0

/-- A turn that does not sleep is done or has less left to do. -/
theorem go_advances {t : T} {o : Op F} (op : s.ops t = some o) (ho : 0 < o.left) (waking : s.toWake t = [])
    (hfree : ¬ s.Blocks t) : ∃ s' o', s.step (.go t) = some s' ∧ s'.ops t = some o' ∧ o'.left < o.left := by
  have hgo : ∃ s', s.step (.go t) = some s' := by
    cases o with
    | writing | reading => simp [Sys.step, Sys.go, waking, op]
    | _ => cases ho
  obtain ⟨s', hs⟩ := hgo
  have hm := step_moves hs
  cases hm with
  | writeDone op' | writeRefused op' | readEof op' | readTaken _ op' =>
    cases op.symm.trans op'
    exact ⟨_, _, hs, update_self .., ho⟩
  | writeStored _ op' more readers space stored =>
    cases op.symm.trans op'
    refine ⟨_, _, hs, update_self .., ?_⟩
    have hroom : 0 < s.pipe.room := Nat.sub_pos_of_lt (lt_of_le_of_ne s.pipe.ring.count_le space)
    simp only [Op.left]
    omega
  | writeBlocked op' more readers full =>
    exact absurd (.inr ⟨_, _, _, _, op', more, full, readers⟩) hfree
  | readBlocked op' nothing writers => exact absurd (.inl ⟨_, _, op', nothing, writers⟩) hfree
  | writeWoken op' | readWoken op' | answer op' | giveBack op' | release _ op' | released op' =>
    cases op.symm.trans op'
    cases ho

/-! ### Calls through descriptors that asked not to wait -/

namespace Desk

variable {d d' : Desk T F}

/-- No read or write through a descriptor on which `O_NONBLOCK` was requested was put to sleep, and every turn of one
    that has nothing to wait for brings it nearer to its answer. -/
structure Honoured (d : Desk T F) : Prop where
  awake : ∀ t, d.call t = true → ¬ d.sys.Slept t
  returns : ∀ t o, d.call t = true → d.sys.ops t = some o → 0 < o.left → d.sys.toWake t = [] → ¬ d.sys.Blocks t →
    ∃ d' o', d.step (.turn (.go t)) = some d' ∧ d'.sys.ops t = some o' ∧ o'.left < o.left

/-- A turn of a call through such a descriptor finds bytes or the end (a read), room or no reader (a write). -/
def Ready (d : Desk T F) (a : Act T F) : Prop := ∀ t, a = .turn (.go t) → d.call t = true → ¬ d.sys.Blocks t

theorem honoured_iff : Honoured d ↔ ∀ t, d.call t → ¬ d.sys.Slept t := by
  refine ⟨Honoured.awake, fun h => ⟨h, fun t o _ op ho waking hfree => ?_⟩⟩
  obtain ⟨s', o', hs, op', hlt⟩ := go_advances op ho waking hfree
  exact ⟨{ d with sys := s' }, o', by simp only [step, Ev.inner, if_true, hs, Option.map_some], op', hlt⟩

/-- From a state where the flag is honoured, it stays so exactly over the actions that do not have to wait. -/
theorem Honoured.step_iff (h : Honoured d) {a : Act T F} (hs : d.step a = some d') : Honoured d' ↔ Ready d a := by
  obtain ⟨hsys, hcall⟩ := step_sys hs
  constructor
  · rintro hd t rfl hasked hblocks
    rcases hsys with ⟨⟨_, _, _, hno⟩, -⟩ | ⟨e, he, hse⟩
    · cases hno
    cases he
    have hslept := hblocks.slept (step_moves hse)
    refine hd.awake t ?_ hslept
    rcases hcall t with hsame | hidle
    · exact hsame.trans hasked
    · rcases hblocks with ⟨_, _, op, -⟩ | ⟨_, _, _, _, op, -⟩ <;> cases hidle.symm.trans op
  · refine fun hready => honoured_iff.mpr fun t hasked hslept => ?_
    have hold : d.call t → ¬ d.sys.Slept t := h.awake t
    rcases hsys with ⟨-, hsame⟩ | ⟨e, he, hse⟩
    · rw [hsame] at hslept
      rcases hcall t with hc | hidle
      · exact hold (hc ▸ hasked) hslept
      · obtain ⟨o, _, op, -⟩ := hslept
        cases hidle.symm.trans op
    rcases slept_step (step_moves hse) hslept with hslept | ⟨rfl, hblocks⟩
    · rcases hcall t with hc | hidle
      · exact hold (hc ▸ hasked) hslept
      · obtain ⟨o, _, op, -⟩ := hslept
        cases hidle.symm.trans op
    have ha : a = .turn (.go t) := by
      cases a with
      | turn => cases he; rfl
      | openFifo | install | setfl => cases he
      | write | read | share | close =>
        obtain ⟨_, -, hno⟩ := Option.map_eq_some_iff.mp he
        cases hno
    rcases hcall t with hc | hidle
    · exact hready t ha (hc ▸ hasked) hblocks
    · rcases hblocks with ⟨_, _, op, -⟩ | ⟨_, _, _, _, op, -⟩ <;> cases hidle.symm.trans op

theorem Fresh.honoured (h : Fresh d) : Honoured d := by
  cases h <;> exact honoured_iff.mpr nofun

/-- CORRECT where nobody has to wait: while every turn of a call through a descriptor on which `O_NONBLOCK` was requested
    finds something to do, no such call sleeps and each gets on; the first turn that does not puts its task to sleep. -/
theorem nonblocking_calls_stay_awake (h : Reaches Ready d) :
    Honoured d ∧ ∀ a d', d.step a = some d' → (Honoured d' ↔ Ready d a) := by
  have hd : Honoured d := by
    induction h with
    | fresh h => exact h.honoured
    | step _ hok hs ih => exact (ih.step_iff hs).mpr hok
  exact ⟨hd, fun a d' hs => hd.step_iff hs⟩

/-- A pipe made with `O_NONBLOCK`: a byte is written, then read. -/
theorem nonblocking_calls_stay_awake_byte : ∃ d d' : Desk Nat Nat, (Desk.pipe2 oNonblock (fun _ => 0) 0 10 11 3 4).run
        [.write 0 4 [7], .turn (.go 0), .turn (.go 0), .turn (.go 0), .read 0 3 1] = some d ∧
      d.step (.turn (.go 0)) = some d' ∧ d.call 0 = true ∧ Honoured d ∧ Honoured d' ∧ d'.sys.got = [7] := by
  have hnew : Fresh (pipe2 oNonblock (fun _ => 0) 0 10 11 3 4) :=
    .pipe2 (by decide) (fun _ => 0) 0 (show 10 ≠ 11 by decide) (show 3 ≠ 4 by decide)
  have hsend : Reaches Ready _ := .step (a := .write 0 4 [7]) (.fresh hnew) (by rintro t ⟨⟩) rfl
  have hsent := Reaches.step hsend (a := .turn (.go 0)) (by
    rintro t ⟨⟩ - (⟨f, count, ⟨⟩, -⟩ | ⟨f, src, written, id, ⟨⟩, -, full, -⟩)
    exact absurd full (by decide)) rfl
  have hdone := Reaches.step hsent (a := .turn (.go 0)) (by
    rintro t ⟨⟩ - (⟨f, count, ⟨⟩, -⟩ | ⟨f, src, written, id, ⟨⟩, more, -⟩)
    exact absurd more (by decide)) rfl
  have hanswered := Reaches.step hdone (a := .turn (.go 0)) (by
    rintro t ⟨⟩ - (⟨f, count, ⟨⟩, -⟩ | ⟨f, src, written, id, ⟨⟩, -⟩)) rfl
  have hread := Reaches.step hanswered (a := .read 0 3 1) (by rintro t ⟨⟩) rfl
  obtain ⟨hd, hnext⟩ := nonblocking_calls_stay_awake hread
  refine ⟨_, _, rfl, rfl, rfl, hd, Iff.mpr (hnext (.turn (.go 0)) _ ?_) ?_, ?_⟩
  · rfl
  · rintro t ⟨⟩ - (⟨f, count, -, nothing, -⟩ | ⟨f, src, written, id, ⟨⟩, -⟩)
    exact absurd nothing (by decide)
  · rfl

/-- INCORRECT in general: a pipe made with `O_NONBLOCK` puts the reader to sleep when it is empty; nothing in the
    descriptor even tells that the flag was asked for. -/
theorem nonblocking_read_sleeps : ∃ d : Desk Nat Nat, Reaches (fun _ _ => True) d ∧
      (Desk.pipe2 oNonblock (fun _ => 0) 0 10 11 3 4).run [.read 0 3 1, .turn (.go 0)] = some d ∧
      d.call 0 = true ∧ d.sys.Slept 0 ∧ ¬ Honoured d := by
  have hnew : Fresh (pipe2 oNonblock (fun _ => 0) 0 10 11 3 4) :=
    .pipe2 (by decide) (fun _ => 0) 0 (show 10 ≠ 11 by decide) (show 3 ≠ 4 by decide)
  have hread : Reaches (fun _ _ => True) _ := .step (a := .read 0 3 1) (.fresh hnew) trivial rfl
  have hstuck : Reaches (fun _ _ => True) _ := .step (a := .turn (.go 0)) hread trivial rfl
  exact ⟨_, hstuck, rfl, rfl, ⟨_, .read, rfl, rfl⟩, fun h => h.awake 0 rfl ⟨_, .read, rfl, rfl⟩⟩

end Desk

end Orthox.Pipes
