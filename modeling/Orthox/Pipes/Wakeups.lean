import Orthox.Pipes.Stream

/-! Sleepers of a pipe. A task that sleeps in a read or write stands in the queue of its side and still has to
    wait, or a task that took it off the queue is about to wake it. A section that changes what a side waits for
    takes the whole queue of that side, so no wake-up is lost, as long as a task that goes to sleep finds a slot:
    the answer of `fs_waitq_add` is ignored by `fs_read` and `fs_write`. -/

namespace Orthox.Pipes
open Schemes List Function WaitQueue

variable {T F : Type}

/-! ### The two sides -/

/-- A task sleeps for bytes to read or for room to write. -/
inductive Side where
  | read
  | write

/-- The side a call sleeps on. -/
def Op.slept : Op F → Option Side
  | .readSlept .. => some .read
  | .writeSlept .. => some .write
  | _ => none

/-- The queue of a side. -/
def Pipe.queue (p : Pipe T) : Side → WaitQueue T fsWaitqMax
  | .read => p.readWq
  | .write => p.writeWq

/-- The side has to wait: a turn of its loop would sleep. -/
def Pipe.Stuck (p : Pipe T) : Side → Prop
  | .read => p.ring.count = 0 ∧ p.writers ≠ 0
  | .write => p.ring.count = pipeBufSize ∧ p.readers ≠ 0

/-- The task is asleep in a read or write. -/
def Sys.Waits (s : Sys T F) (side : Side) (t : T) : Prop :=
  s.asleep t = true ∧ ∃ o, s.ops t = some o ∧ o.slept = some side

/-- The task will be woken: it stands in the queue and has to wait, or it was taken off and its wake-up is due. -/
def Sys.Heard (s : Sys T F) (side : Side) (t : T) : Prop :=
  (s.pipe.queue side).Holds t ∧ s.pipe.Stuck side ∨ ∃ u, t ∈ s.toWake u

/-- Nobody is forgotten. -/
def Watched (s : Sys T F) : Prop := ∀ side t, s.Waits side t → s.Heard side t

variable [DecidableEq T] [DecidableEq F]

/-- A turn that goes to sleep finds a slot in its queue; opening is careful. -/
def Attended (s : Sys T F) (e : Ev T F) : Prop :=
  Careful s e ∧ ∀ t, e = .go t →
    (∀ f count, s.ops t = some (.reading f count) → s.pipe.Stuck .read → s.pipe.readWq.Room t) ∧
    (∀ f src written id, s.ops t = some (.writing f src written id) → written < src.length → s.pipe.Stuck .write →
      s.pipe.writeWq.Room t)

/-! ### What an event does to a sleeper -/

variable {s s' : Sys T F} {t : T}

section
omit [DecidableEq F]

variable {o' : Option (Op F)} {v u : T}

/-- A task whose call is somewhere else now does not sleep in it; the others are where they were. -/
theorem waits_update {ops : T → Option (Op F)} {side : Side} {o : Op F}
    (ho' : ∀ o, o' = some o → o.slept = none) (h : update ops t o' v = some o) (hside : o.slept = some side) :
    v ≠ t ∧ ops v = some o := by
  rcases update_cases h with ⟨-, heq⟩ | hold
  · rw [ho' o heq] at hside
    cases hside
  · exact hold

/-- An event after which a task is not asleep in its call, and nothing changed for the others. -/
theorem Watched.others (h : Watched s) (ho' : ∀ o, o' = some o → o.slept = none)
    (hops : s'.ops = update s.ops t o') (hasleep : s'.asleep = s.asleep)
    (hkeep : ∀ side v, v ≠ t → s.Waits side v → s.Heard side v → s'.Heard side v) : Watched s' := by
  rintro side v ⟨hv, o, hop, hside⟩
  obtain ⟨hne, hold⟩ := waits_update ho' (hops ▸ hop) hside
  have hwaits : s.Waits side v := ⟨hasleep ▸ hv, o, hold, hside⟩
  exact hkeep side v hne hwaits (h side v hwaits)

/-- A task that took a queue will wake everybody in it. -/
theorem heard_of_taken {wake : List T} {side : Side} (waking : s.toWake t = [])
    (hwake : s'.toWake = update s.toWake t wake) (htaken : (s.pipe.queue side).Holds v → s.pipe.Stuck side → v ∈ wake)
    (h : s.Heard side v) : s'.Heard side v := by
  refine .inr ?_
  rcases h with ⟨hin, hstuck⟩ | ⟨u, hu⟩
  · exact ⟨t, by rw [hwake, update_self]; exact htaken hin hstuck⟩
  have hne : u ≠ t := by
    rintro rfl
    rw [waking] at hu
    cases hu
  exact ⟨u, by rw [hwake, update_of_ne hne]; exact hu⟩

/-- A task that goes to sleep is registered; the others of its queue stay. -/
theorem Watched.sleep (h : Watched s) (side : Side) {o' : Op F} (hside : o'.slept = some side)
    (hops : s'.ops = update s.ops t (some o')) (hasleep : s'.asleep = update s.asleep t true)
    (hwake : s'.toWake = s.toWake) (hstuck : ∀ side', s.pipe.Stuck side' → s'.pipe.Stuck side')
    (hqueue : ∀ side' v, (s.pipe.queue side').Holds v → (s'.pipe.queue side').Holds v)
    (hself : (s'.pipe.queue side).Holds t ∧ s.pipe.Stuck side) : Watched s' := by
  rintro side' v ⟨hv, o, hop, ho⟩
  rw [hops] at hop
  rw [hasleep] at hv
  rcases update_cases hop with ⟨rfl, heq⟩ | ⟨hne, hold⟩
  · obtain rfl := Option.some.inj heq
    obtain rfl := Option.some.inj (hside.symm.trans ho)
    exact .inl ⟨hself.1, hstuck _ hself.2⟩
  rw [update_of_ne hne] at hv
  rcases h side' v ⟨hv, o, hold, ho⟩ with ⟨hin, hst⟩ | hdue
  · exact .inl ⟨hqueue side' v hin, hstuck side' hst⟩
  · exact .inr (hwake ▸ hdue)

theorem add_ite_ne_zero {c : UInt16} {b : Bool} (hfit : c.toNat + b.toNat < 2 ^ 16) (hc : c ≠ 0) :
    (c + if b then 1 else 0) ≠ 0 := by
  intro hzero
  have hsum := toNat_add_ite c b hfit
  rw [hzero] at hsum
  refine hc (UInt16.toNat_inj.mp ?_)
  change 0 = _ at hsum
  change c.toNat = 0
  omega

omit [DecidableEq T] in
/-- One more open end does not end anybody's wait, if the counter does not overflow. -/
theorem Pipe.Stuck.join {p : Pipe T} {e : Ends} (hr : p.readers.toNat + e.reads.toNat < 2 ^ 16)
    (hw : p.writers.toNat + e.writes.toNat < 2 ^ 16) : ∀ side, p.Stuck side → (p.join e).Stuck side
  | .read, h => ⟨h.1, add_ite_ne_zero hw h.2⟩
  | .write, h => ⟨h.1, add_ite_ne_zero hr h.2⟩

/-- Who is still asleep after a task was woken. -/
theorem asleep_update {asleep : T → Bool} (h : update asleep u false v) : v ≠ u ∧ asleep v :=
  (update_cases h).resolve_left fun h => Bool.false_ne_true h.2

/-- A sleeper that some other event wakes is out of the matter. -/
theorem Watched.rouse (h : Watched s) (u : T) : Watched { s with asleep := update s.asleep u false } := by
  rintro side v ⟨hv, hop⟩
  exact h side v ⟨(asleep_update hv).2, hop⟩

/-- A wake-up that is carried out is no longer due, and its task no longer asleep. -/
theorem Watched.wake (h : Watched s) {us : List T} (list : s.toWake t = u :: us) :
    Watched { s with asleep := update s.asleep u false, toWake := update s.toWake t us } := by
  rintro side v ⟨hv, hop⟩
  obtain ⟨hne, hv⟩ := asleep_update hv
  rcases h side v ⟨hv, hop⟩ with hin | ⟨w, hw⟩
  · exact .inl hin
  refine .inr ⟨w, ?_⟩
  change v ∈ update s.toWake t us w
  rcases eq_or_ne w t with rfl | hwt
  · rw [update_self]
    rw [list] at hw
    exact (mem_cons.mp hw).resolve_left hne
  · rw [update_of_ne hwt]
    exact hw

end

theorem Watched.step (h : Watched s) (hinv : Inv s) {e : Ev T F} (hok : Attended s e) (hm : Moves s e s') : Watched s' := by
  have hnone : ∀ o : Op F, none = some o → o.slept = none := nofun
  cases hm with
  | write | read | writeDone | writeRefused | readEof | answer | giveBack | released | closeLast | openFifo | meet | noReader | noFile =>
    refine h.others ?_ rfl rfl fun side v _ _ hv => hv
    first | exact hnone | (rintro _ ⟨⟩; rfl)
  | share | closeShared => exact h
  | rouse => exact h.rouse _
  | wake list => exact h.wake list
  | @writeBlocked t f src written n op more readers full =>
    have hroom := (hok.2 t rfl).2 f src written n op more ⟨full, readers⟩
    refine h.sleep .write rfl rfl rfl rfl (fun side' => ?_) (fun side' v => ?_) ⟨holds_add_self hroom, full, readers⟩
    · cases side' <;> exact id
    · cases side' with
      | read => exact id
      | write => exact holds_add t
  | @readBlocked t f count op nothing writers =>
    have hroom := (hok.2 t rfl).1 f count op ⟨nothing, writers⟩
    refine h.sleep .read rfl rfl rfl rfl (fun side' => ?_) (fun side' v => ?_) ⟨holds_add_self hroom, nothing, writers⟩
    · cases side' <;> exact id
    · cases side' with
      | read => exact holds_add t
      | write => exact id
  | writeStored waking op more readers space =>
    refine h.others (by rintro _ ⟨⟩; rfl) rfl rfl fun side v _ _ hv => heard_of_taken waking rfl ?_ hv
    cases side with
    | read => exact fun hin _ => mem_takeAll hin
    | write => exact fun _ hstuck => absurd hstuck.1 space
  | readTaken waking op nonempty =>
    refine h.others (by rintro _ ⟨⟩; rfl) rfl rfl fun side v _ _ hv => heard_of_taken waking rfl ?_ hv
    cases side with
    | read => exact fun _ hstuck => absurd hstuck.1 nonempty
    | write => exact fun hin _ => mem_takeAll hin
  | release waking op =>
    refine h.others (by rintro _ ⟨⟩; rfl) rfl rfl fun side v _ _ hv => heard_of_taken waking rfl ?_ hv
    cases side with
    | read => exact fun hin _ => mem_append_left _ (mem_takeAll hin)
    | write => exact fun hin _ => mem_append_right _ (mem_takeAll hin)
  | writeWoken op awake | readWoken op awake | unpoll op =>
    refine h.others ?_ rfl rfl fun side v hne _ hv => ?_
    · first | exact hnone | (rintro _ ⟨⟩; rfl)
    · refine hv.imp_left (.imp_left fun hin => ?_)
      cases side <;> first | exact holds_remove hne hin | exact hin
  | @poll t f pollin pollout idle fd =>
    refine h.others (by rintro _ ⟨⟩; rfl) rfl rfl fun side v hne _ hv => ?_
    refine hv.imp_left (.imp (fun hin => ?_) fun hstuck => by cases side <;> exact hstuck)
    cases side with
    | read => cases pollin with
      | true => exact holds_add t hin
      | false => exact hin
    | write => cases pollout with
      | true => exact holds_add t hin
      | false => exact hin
  | @join t f e op new =>
    obtain ⟨-, hr, hw⟩ := hok.1 e op
    refine h.others hnone rfl rfl fun side v hne _ hv => hv.imp_left (.imp (fun hin => ?_) (Pipe.Stuck.join hr hw side))
    cases side <;> exact hin
  | reuse freed =>
    rintro side v ⟨-, o, hop, ho⟩
    have hlive : s.freed = false := by
      cases o <;> first | exact hinv.live hop rfl | cases ho
    exact absurd (hlive.symm.trans freed) nofun

/-- CORRECT where every sleeper finds a slot: in every run, a task asleep in a read or write stands in the queue of its
    side as long as it has to wait, and its wake-up is due as soon as it has not. -/
theorem no_sleeper_forgotten (h : Reaches Attended s) : Watched s := by
  induction h with
  | fresh h =>
    rintro side t ⟨hasleep, -⟩
    cases h <;> cases hasleep
  | step hr hok hs ih => exact ih.step (hr.inv fun _ _ => And.left) hok (step_moves hs)

/-- One reader asleep in an empty pipe, registered. -/
theorem no_sleeper_forgotten_one : ∃ s : Sys Nat Nat, (Sys.pipe₀ (fun _ => 0) 0 10 11).run [.read 0 10 1, .go 0] = some s ∧
      s.Waits .read 0 ∧ Watched s := by
  have ten_ne_eleven : 10 ≠ 11 := by decide
  refine ⟨_, rfl, ⟨rfl, _, rfl, rfl⟩, no_sleeper_forgotten ?_⟩
  refine .step (e := .go 0) (.step (e := .read 0 10 1) (.fresh (.pipe _ 0 ten_ne_eleven)) ⟨trivial, nofun⟩ rfl) ⟨?_, ?_⟩ rfl
  · rintro f e ⟨⟩
  · rintro t ⟨⟩
    refine ⟨fun _ _ _ _ => .inr ⟨⟨0, by decide⟩, rfl⟩, ?_⟩
    rintro f src written id ⟨⟩

/-! ### The fifth sleeper -/

/-- Five children read from an empty pipe; the parent then writes a byte and wakes those it finds in the queue. -/
def fiveReaders : List (Ev Nat Nat) :=
  [.share 0 1 10, .share 0 2 10, .share 0 3 10, .share 0 4 10, .share 0 5 10,
   .read 1 10 1, .go 1, .read 2 10 1, .go 2, .read 3 10 1, .go 3, .read 4 10 1, .go 4, .read 5 10 1, .go 5,
   .write 0 11 [7], .go 0, .wake 0, .wake 0, .wake 0, .wake 0, .go 0]

/-- INCORRECT in general: the fifth reader sleeps on with a byte in the pipe, in no queue and on nobody's list. -/
theorem fifth_reader_forgotten :
    ∃ s : Sys Nat Nat, Reaches (fun _ _ => True) s ∧ (Sys.pipe₀ (fun _ => 0) 0 10 11).run fiveReaders = some s ∧
      s.Waits .read 5 ∧ ¬ (s.pipe.queue .read).Holds 5 ∧ s.pipe.ring.contents = [7] ∧ ¬ Watched s := by
  have ten_ne_eleven : 10 ≠ 11 := by decide
  refine ⟨_, run_reaches (fun _ _ => trivial) fiveReaders (.fresh (.pipe (fun _ => 0) 0 ten_ne_eleven)) rfl, rfl,
    ⟨rfl, _, rfl, rfl⟩, by decide, rfl, fun h => ?_⟩
  rcases h .read 5 ⟨rfl, _, rfl, rfl⟩ with ⟨hin, -⟩ | ⟨u, hu⟩
  · exact absurd hin (by decide)
  · rcases u with - | u <;> cases hu

end Orthox.Pipes
