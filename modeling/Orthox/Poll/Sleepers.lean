import Orthox.Poll.Poll
import Orthox.Schemes.Holders

/-! Tasks asleep in `ppoll` without a deadline. Whoever makes a pipe or the console ready takes the waiters of a queue in which
    a `ppoll` stands that asked for the event, or for the other one in the case of a hang-up. So a sleeper is woken, as long as
    it is in the queues at all: it is in no queue of a socket, in no queue of a pipe of which it asked nothing, and in none that
    was emptied between its registration and the mark that it is asleep, when a wake-up has no effect yet. -/

namespace Orthox.Poll
open Schemes Pipes Sockets List Function Option WaitQueue

variable {T P K : Type}

/-! ### Event bits -/

theorem or_and (a b c : UInt16) : (a ||| b) &&& c = (a &&& c) ||| (b &&& c) :=
  UInt16.eq_of_toBitVec_eq BitVec.and_or_distrib_right

theorem and_or (a b c : UInt16) : a &&& (b ||| c) = (a &&& b) ||| (a &&& c) :=
  UInt16.eq_of_toBitVec_eq BitVec.and_or_distrib_left

theorem masked_or (a b : UInt16) (x : PollFd) : masked (a ||| b) x = masked a x ||| masked b x := or_and ..

theorem masked_flag (b : Bool) (bit : UInt16) (x : PollFd) : masked (flag b bit) x = 0 ↔ b → masked bit x = 0 := by
  cases b with
  | true => exact ⟨fun h _ => h, fun h => h rfl⟩
  | false => exact ⟨fun _ h => Bool.noConfusion h, fun _ => UInt16.zero_and⟩

variable {r : Ring UInt8 pipeBufSize} {q : WaitQueue T fsWaitqMax} {e : Ev T P K} {bit : UInt16} {l : List T} {env : Env}

/-- A bit that is not always reported is reported where it was asked for. -/
theorem masked_bit (h : bit &&& (pollerr ||| pollhup ||| pollnval) = 0) (x : PollFd) : masked bit x = 0 ↔ x.asks bit = false := by
  rw [masked, and_or, h, UInt16.or_zero, UInt16.and_comm, PollFd.asks, decide_eq_false_iff_not, not_not]

/-- Errors and hang-ups are always reported. -/
theorem masked_always (h : bit &&& (pollerr ||| pollhup ||| pollnval) ≠ 0) (x : PollFd) : masked bit x ≠ 0 := by
  rw [masked, and_or]
  exact fun hzero => h (UInt16.or_eq_zero_iff.mp hzero).2

/-- Nothing that was asked of the pipe, no hang-up and no error. -/
structure Quiet (p : Pipe T) (x : PollFd) : Prop where
  bytes : 0 < p.ring.count → x.asks pollin = false
  room : p.ring.count < pipeBufSize → x.asks pollout = false
  writers : p.writers ≠ 0
  readers : p.readers = 0 → x.asks pollout = false

theorem quiet_iff (p : Pipe T) (x : PollFd) : masked (pipeReady p x) x = 0 ↔ Quiet p x := by
  have hup : masked pollhup x ≠ 0 := masked_always (by decide) x
  have herr : masked pollerr x ≠ 0 := masked_always (by decide) x
  rw [pipeReady, masked_or, masked_or, masked_or, UInt16.or_eq_zero_iff, UInt16.or_eq_zero_iff, UInt16.or_eq_zero_iff,
    masked_flag, masked_flag, masked_flag, masked_flag, masked_bit (by decide), masked_bit (by decide)]
  simp only [decide_eq_true_eq, hup, herr, imp_false, Bool.and_eq_true, not_and, Bool.not_eq_true]
  constructor
  · rintro ⟨⟨⟨hbytes, hroom⟩, hwriters⟩, hreaders⟩
    exact ⟨hbytes, hroom, hwriters, hreaders⟩
  · intro h
    exact ⟨⟨⟨h.bytes, h.room⟩, h.writers⟩, h.readers⟩

/-! ### What the sections do to a pipe that is not ready -/

theorem count_fill (r : Ring UInt8 pipeBufSize) (src : List UInt8) : r.count ≤ (r.fill src).1.count := by
  have hlen := congrArg length (Ring.fill_spec src r).1
  rw [length_append, Ring.length_contents, Ring.length_contents] at hlen
  exact hlen ▸ Nat.le_add_right ..

theorem count_drain (r : Ring UInt8 pipeBufSize) (k : Nat) : (r.drain k).2.count ≤ r.count := by
  have hlen := congrArg length (Ring.drain_spec k r).2
  rw [length_drop, Ring.length_contents, Ring.length_contents] at hlen
  exact hlen ▸ Nat.sub_le ..

/-- The task stands in the queues of the events it asked for. -/
structure Enrolled (p : Pipe T) (x : PollFd) (t : T) : Prop where
  reads : x.asks pollin = true → p.readWq.Holds t
  writes : x.asks pollout = true → p.writeWq.Holds t

/-- A change of a pipe leaves a waiter in its queues and makes nothing ready for it. -/
def PipeSpares (p q : Pipe T) (x : PollFd) (t : T) : Prop := Enrolled p x t → Enrolled q x t ∧ (Quiet p x → Quiet q x)

variable {p : Pipe T} {x : PollFd} {t u : T}

theorem PipeSpares.refl : PipeSpares p p x t := fun h => ⟨h, id⟩

/-- Who changes only the queues, and keeps the task in them. -/
theorem PipeSpares.queues {r w : WaitQueue T fsWaitqMax} (hr : p.readWq.Holds t → r.Holds t)
    (hw : p.writeWq.Holds t → w.Holds t) : PipeSpares p { p with readWq := r, writeWq := w } x t :=
  fun h => ⟨⟨fun ha => hr (h.reads ha), fun ha => hw (h.writes ha)⟩, fun hq => ⟨hq.bytes, hq.room, hq.writers, hq.readers⟩⟩

/-- A writer that wakes the readers spares who is not among them. -/
theorem PipeSpares.filled (hcount : p.ring.count ≤ r.count)
    (hnot : t ∉ p.readWq.takeAll.1) : PipeSpares p { p with ring := r, readWq := p.readWq.takeAll.2 } x t := by
  intro h
  have hasks : x.asks pollin = false := by
    rcases ha : x.asks pollin with - | -
    · rfl
    · exact absurd (mem_takeAll (h.reads ha)) hnot
  refine ⟨⟨fun ha => absurd (ha.symm.trans hasks) Bool.noConfusion, h.writes⟩, fun hq => ?_⟩
  exact ⟨fun _ => hasks, fun hroom => hq.room (lt_of_le_of_lt hcount hroom), hq.writers, hq.readers⟩

/-- A reader that wakes the writers spares who is not among them. -/
theorem PipeSpares.drained (hcount : r.count ≤ p.ring.count)
    (hnot : t ∉ p.writeWq.takeAll.1) : PipeSpares p { p with ring := r, writeWq := p.writeWq.takeAll.2 } x t := by
  intro h
  have hasks : x.asks pollout = false := by
    rcases ha : x.asks pollout with - | -
    · rfl
    · exact absurd (mem_takeAll (h.writes ha)) hnot
  refine ⟨⟨h.reads, fun ha => absurd (ha.symm.trans hasks) Bool.noConfusion⟩, fun hq => ?_⟩
  exact ⟨fun hbytes => hq.bytes (lt_of_lt_of_le hbytes hcount), fun _ => hasks, hq.writers, hq.readers⟩

/-- `fs_release_pipe_file` takes both queues, so it takes who asked for anything. -/
theorem mem_release (h : Enrolled p x t) (hasks : x.asks pollin ∨ x.asks pollout) (e : Ends) : t ∈ (p.release e).2 := by
  rcases hasks with ha | ha
  · exact mem_append_left _ (mem_takeAll (h.reads ha))
  · exact mem_append_right _ (mem_takeAll (h.writes ha))

/-- A counter that does not wrap around is not 0 after an end was added, unless it was before. -/
theorem count_join {n : UInt16} {b : Bool} (h : n.toNat + b.toNat < 2 ^ 16) (hzero : n + (if b then 1 else 0) = 0) : n = 0 := by
  cases b with
  | false => exact (UInt16.add_zero n).symm.trans hzero
  | true =>
    have hnat : (n.toNat + 1) % 2 ^ 16 = 0 := (UInt16.toNat_add n 1).symm.trans (congrArg UInt16.toNat hzero)
    have hlt : n.toNat + 1 < 2 ^ 16 := h
    rw [Nat.mod_eq_of_lt hlt] at hnat
    exact absurd hnat (Nat.succ_ne_zero _)

/-- An end that is opened makes nothing ready, as long as the counters do not wrap around. -/
theorem PipeSpares.join {e : Ends} (hreaders : p.readers.toNat + e.reads.toNat < 2 ^ 16)
    (hwriters : p.writers.toNat + e.writes.toNat < 2 ^ 16) : PipeSpares p (p.join e) x t :=
  fun h => ⟨⟨h.reads, h.writes⟩, fun hq => ⟨hq.bytes, hq.room, fun hzero => hq.writers (count_join hwriters hzero),
    fun hzero => hq.readers (count_join hreaders hzero)⟩⟩

/-! ### Sleepers -/

namespace Sys

/-- The descriptor is not a socket, and a pipe is asked for something. -/
def Suited (s : Sys T P K) (t : T) (x : PollFd) : Prop :=
  match s.obj t x.fd with
  | some (.socket (some _)) => False
  | some (.pipe (some _)) => x.asks pollin = true ∨ x.asks pollout = true
  | _ => True

/-- The task stands in the wait queue of the object. -/
def InQueue (s : Sys T P K) (t : T) (x : PollFd) : Prop :=
  match s.obj t x.fd with
  | some .console => s.console.wq.Holds t
  | some (.pipe (some p)) => (s.pipes p).readWq.Holds t ∨ (s.pipes p).writeWq.Holds t
  | _ => False

/-- The registration of a descriptor is in effect. -/
def Registered (s : Sys T P K) (t : T) (x : PollFd) : Prop :=
  match s.obj t x.fd with
  | some .console => s.console.wq.Holds t
  | some (.pipe (some p)) => Enrolled (s.pipes p) x t
  | _ => True

end Sys

/-! ### What an event does to a sleeper -/

variable {s s' : Sys T P K} {w : Wait}

/-- The event leaves the task in its queues and makes nothing ready that it waits for. -/
def Spares (s s' : Sys T P K) (t : T) : Prop :=
  ∀ x, s.Suited t x → s.Registered t x → s'.Registered t x ∧ (s.revents t x = 0 → s'.revents t x = 0)

theorem obj_congr (hfds : s'.fds t = s.fds t) (fd : Int) : s'.obj t fd = s.obj t fd := by
  rw [Sys.obj, Sys.obj, hfds]

/-- It is enough that the console and each pipe spare the task. -/
theorem Spares.of (hfds : s'.fds t = s.fds t)
    (hconsole : s.console.wq.Holds t → s'.console.wq.Holds t ∧ (0 < s'.console.input → 0 < s.console.input))
    (hpipes : ∀ p x, x.asks pollin ∨ x.asks pollout → PipeSpares (s.pipes p) (s'.pipes p) x t) : Spares s s' t := by
  intro x hsuited hreg
  unfold Sys.revents Sys.pollFdRevents
  unfold Sys.Registered at hreg ⊢
  unfold Sys.Suited at hsuited
  rw [obj_congr hfds]
  rcases hobj : s.obj t x.fd with - | (- | (- | p) | (- | k) | -) <;> rw [hobj] at hreg hsuited <;> dsimp only at hreg hsuited ⊢
  · exact ⟨trivial, id⟩
  · refine ⟨(hconsole hreg).1, ?_⟩
    split_ifs
    · exact id
    rw [masked_or, masked_or, UInt16.or_eq_zero_iff, UInt16.or_eq_zero_iff, masked_flag, masked_flag]
    refine .imp_left fun hquiet hinput => hquiet ?_
    exact decide_eq_true ((hconsole hreg).2 (of_decide_eq_true hinput))
  · exact ⟨trivial, id⟩
  · obtain ⟨hin, hquiet⟩ := hpipes p x hsuited hreg
    refine ⟨hin, ?_⟩
    split_ifs
    · exact id
    · rw [quiet_iff, quiet_iff]
      exact hquiet
  · exact ⟨trivial, id⟩
  · exact ⟨trivial, id⟩

section
variable (hfds : s'.fds = s.fds) (hconsole : s'.console = s.console)
include hfds hconsole

/-- Nothing happens to the objects. -/
theorem Spares.same (hpipes : s'.pipes = s.pipes) (t : T) : Spares s s' t := by
  refine of (congrFun hfds t) ?_ ?_
  · rw [hconsole]
    exact fun h => ⟨h, id⟩
  · rw [hpipes]
    exact fun _ _ _ => .refl

/-- One pipe changes. -/
theorem Spares.pipe [DecidableEq P] {p : P} {q : Pipe T} (hpipes : s'.pipes = update s.pipes p q)
    (hspares : ∀ x : PollFd, x.asks pollin ∨ x.asks pollout → PipeSpares (s.pipes p) q x t) : Spares s s' t := by
  refine of (congrFun hfds t) ?_ fun p' x hasks => ?_
  · rw [hconsole]
    exact fun h => ⟨h, id⟩
  · rw [hpipes]
    rcases eq_or_ne p' p with rfl | hne
    · rw [update_self]
      exact hspares x hasks
    · rw [update_of_ne hne]
      exact .refl

end

/-- Only consoles, pipes and sockets become ready, and where it is registered the task stands in their queues. -/
theorem inQueue_of_ready (hsuited : s.Suited t x) (hreg : s.Registered t x) (hfds : s'.fds t = s.fds t)
    (hold : s.revents t x = 0) (hnew : s'.revents t x ≠ 0) : s.InQueue t x := by
  unfold Sys.revents Sys.pollFdRevents at hold hnew
  rw [obj_congr hfds] at hnew
  unfold Sys.InQueue
  unfold Sys.Registered at hreg
  unfold Sys.Suited at hsuited
  rcases hobj : s.obj t x.fd with - | (- | (- | p) | (- | k) | -) <;> rw [hobj] at hold hnew hreg hsuited <;>
    dsimp only at hold hnew hreg hsuited ⊢
  · exact hnew hold
  · exact hreg
  · exact hnew hold
  · exact hsuited.imp hreg.reads hreg.writes
  · exact hnew hold
  · exact hnew hold

/-- A task's place in the call, its sleep and its due wake-ups stay as they were, or it is about to be woken. -/
structure Kept (s s' : Sys T P K) (t : T) : Prop where
  phase : s'.phase t = s.phase t
  fds : s'.fds t = s.fds t
  sleep : s'.sleep t = .forever → s.sleep t = .forever
  due : s'.sleep t = .forever → t ∈ s.due → t ∈ s'.due
  spares : Spares s s' t ∨ t ∈ s'.due ∧ ∀ w now all rest, s.phase t ≠ .registering w now all rest

/-! ### The invariant -/

namespace Sys

/-- What was asked without a timeout suits. -/
def Proper (s : Sys T P K) (t : T) (w : Wait) : Prop := w.deadline = none → ∀ x ∈ w.fds, s.Suited t x

/-- Where a task stands, it has registered what it has passed, and found nothing ready in what it has looked at. -/
def Stands (s : Sys T P K) (t : T) : Phase → Prop
  | .out | .back .. => True
  | .scanning w .. | .clearing w _ => s.Proper t w
  | .registering w _ all rest =>
    s.Proper t w ∧ (w.deadline = none → all = true → ∀ x ∈ w.fds, x ∈ rest ∨ s.Registered t x)
  | .rescanning w revents rest =>
    s.Proper t w ∧ (s.sleep t = .forever → w.deadline = none ∧ (t ∈ s.due ∨ ∀ x ∈ w.fds, s.Registered t x ∧
      (x ∈ rest ∨ (readyCount revents = 0 → s.revents t x = 0))))
  | .yielded w =>
    s.Proper t w ∧ (s.sleep t = .forever → w.deadline = none ∧ (t ∈ s.due ∨ ∀ x ∈ w.fds, s.Registered t x ∧
      s.revents t x = 0))

end Sys

def Inv (s : Sys T P K) : Prop := ∀ t, s.Stands t (s.phase t)

theorem suited_congr (hfds : s'.fds t = s.fds t) (x : PollFd) : s'.Suited t x ↔ s.Suited t x := by
  unfold Sys.Suited
  rw [obj_congr hfds]

theorem Sys.Proper.congr (h : s.Proper t w) (hfds : s'.fds t = s.fds t) : s'.Proper t w :=
  fun hnone x hx => (suited_congr hfds x).mpr (h hnone x hx)

theorem Kept.stands (hk : Kept s s' t) (h : s.Stands t (s.phase t)) : s'.Stands t (s'.phase t) := by
  rw [hk.phase]
  cases hp : s.phase t with
  | out | back value revents => trivial
  | scanning w revents rest | clearing w rest =>
    rw [hp] at h
    exact Sys.Proper.congr h hk.fds
  | registering w now all rest =>
    rw [hp] at h
    refine ⟨h.1.congr hk.fds, fun hnone hall x hx => (h.2 hnone hall x hx).imp_right fun hreg => ?_⟩
    rcases hk.spares with hspares | ⟨-, hnot⟩
    · exact (hspares x (h.1 hnone x hx) hreg).1
    · exact absurd hp (hnot w now all rest)
  | rescanning w revents rest =>
    rw [hp] at h
    refine ⟨h.1.congr hk.fds, fun hsleep => ?_⟩
    obtain ⟨hnone, hdue | hall⟩ := h.2 (hk.sleep hsleep)
    · exact ⟨hnone, .inl (hk.due hsleep hdue)⟩
    refine ⟨hnone, hk.spares.symm.imp And.left fun hspares x hx => ?_⟩
    obtain ⟨hreg, hquiet⟩ := hspares x (h.1 hnone x hx) (hall x hx).1
    exact ⟨hreg, (hall x hx).2.imp_right fun hzero hcount => hquiet (hzero hcount)⟩
  | yielded w =>
    rw [hp] at h
    refine ⟨h.1.congr hk.fds, fun hsleep => ?_⟩
    obtain ⟨hnone, hdue | hall⟩ := h.2 (hk.sleep hsleep)
    · exact ⟨hnone, .inl (hk.due hsleep hdue)⟩
    refine ⟨hnone, hk.spares.symm.imp And.left fun hspares x hx => ?_⟩
    obtain ⟨hreg, hquiet⟩ := hspares x (h.1 hnone x hx) (hall x hx).1
    exact ⟨hreg, hquiet (hall x hx).2⟩

/-! ### Sections -/

variable [DecidableEq T]

/-- A section of `fs_write` takes the readers when it stores something. -/
theorem PipeSpares.written {src : List UInt8} (hnot : t ∉ (match p.write u src with | .stored _ _ wake => wake | _ => [])) :
    PipeSpares p (Sys.written p u src) x t := by
  unfold Sys.written
  unfold Pipe.write at hnot ⊢
  split_ifs at hnot ⊢
  · exact refl
  · exact queues id (holds_add u)
  · exact filled (count_fill ..) hnot

/-- A section of `fs_read` takes the writers when it takes something. -/
theorem PipeSpares.readFrom {count : Nat} (hnot : t ∉ (match p.read u count with | .taken _ _ wake => wake | _ => [])) :
    PipeSpares p (Sys.readFrom p u count) x t := by
  unfold Sys.readFrom
  unfold Pipe.read at hnot ⊢
  split_ifs at hnot ⊢
  · exact refl
  · exact queues (holds_add u) id
  · exact drained (count_drain ..) hnot
  · exact drained (count_drain ..) hnot

/-- Who leaves the queues leaves the others there. -/
theorem PipeSpares.left (hne : t ≠ u) : PipeSpares p (Sys.left p u) x t :=
  queues (holds_remove hne) (holds_remove hne)

/-! ### Steps of a call -/

section
variable (h : Inv s)
include h

/-- One task moves in its call. -/
theorem Inv.own {p : Phase} (hphase : s'.phase = update s.phase t p) (hfds : s'.fds = s.fds)
    (hsleep : ∀ u, u ≠ t → s'.sleep u = s.sleep u) (hdue : s'.due = s.due) (hspares : ∀ u, u ≠ t → Spares s s' u)
    (hself : s'.Stands t p) : Inv s' := by
  intro u
  rcases eq_or_ne u t with rfl | hut
  · rw [hphase, update_self]
    exact hself
  have hkept : Kept s s' u :=
    { phase := by rw [hphase, update_of_ne hut]
      fds := congrFun hfds u
      sleep := fun hforever => hsleep u hut ▸ hforever
      due := fun _ => hdue ▸ id
      spares := .inl (hspares u hut) }
  exact hkept.stands (h u)

/-- A task goes on and nothing else changes. -/
theorem Inv.move {p : Phase} (hself : (s.goto t p).Stands t p) : Inv (s.goto t p) :=
  h.own rfl rfl (fun _ _ => rfl) rfl (fun u _ => .same rfl rfl rfl u) hself

/-- A task falls asleep, or not after all. -/
theorem Inv.settle {p : Phase} {v : Sleep} (hself : ({ s with sleep := update s.sleep t v }.goto t p).Stands t p) :
    Inv ({ s with sleep := update s.sleep t v }.goto t p) :=
  h.own rfl rfl (fun _ hut => update_of_ne hut ..) rfl (fun u _ => .same rfl rfl rfl u) hself

/-- An event on the objects, which takes some waiters off the queues. -/
theorem Inv.change (hphase : s'.phase = s.phase)
    (hfds : ∀ t, s.phase t ≠ .out → s'.fds t = s.fds t) (hsleep : s'.sleep = s.sleep) (hdue : s'.due = s.due ++ l)
    (hcalm : ∀ t ∈ l, ∀ w now all rest, s.phase t ≠ .registering w now all rest)
    (hspares : ∀ t, s.phase t ≠ .out → t ∉ l → Spares s s' t) : Inv s' := by
  intro t
  rcases eq_or_ne (s.phase t) .out with hout | hin
  · rw [hphase, hout]
    trivial
  have hspared : Spares s s' t ∨ t ∈ s'.due ∧ ∀ w now all rest, s.phase t ≠ .registering w now all rest := by
    rcases em (t ∈ l) with hmem | hnot
    · exact .inr ⟨hdue ▸ mem_append_right _ hmem, hcalm t hmem⟩
    · exact .inl (hspares t hin hnot)
  have hkept : Kept s s' t :=
    { phase := congrFun hphase t
      fds := hfds t hin
      sleep := fun hforever => hsleep ▸ hforever
      due := fun _ hmem => hdue ▸ mem_append_left _ hmem
      spares := hspared }
  exact hkept.stands (h t)

/-- A task is woken. -/
theorem Inv.wake (hdue : ∀ u, u ≠ t → u ∈ s.due → u ∈ l) : Inv { s with due := l, sleep := update s.sleep t .awake } := by
  intro u
  have hawake : ∀ {v : T}, update s.sleep t .awake v = .forever → v ≠ t ∧ s.sleep v = .forever :=
    fun hv => (update_cases hv).resolve_left fun h => nomatch h.2
  have hkept : Kept s { s with due := l, sleep := update s.sleep t .awake } u :=
    { phase := rfl
      fds := rfl
      sleep := fun hforever => (hawake hforever).2
      due := fun hforever => hdue u (hawake hforever).1
      spares := .inl (.same rfl rfl rfl u) }
  exact hkept.stands (h u)

end

omit [DecidableEq T] in
/-- Who is in `ppoll` is not the task of another call. -/
theorem ne_of_out (ht : s.phase t ≠ .out) (hu : s.phase u = .out) : t ≠ u := by
  rintro rfl
  exact ht hu

/-! ### Registering -/

theorem holds_join (asked : Bool) (h : q.Holds u) : (Sys.join asked q t).1.Holds u := by
  cases asked with
  | false => exact h
  | true => exact holds_add t h

theorem join_holds {asked : Bool} (h : (Sys.join asked q t).2) (ha : asked) : (Sys.join asked q t).1.Holds t := by
  subst ha
  exact holds_of_add h

variable [DecidableEq P]

/-- Registering touches only the queues. -/
theorem register_rest (s : Sys T P K) (t : T) (x : PollFd) : (s.register t x).1.fds = s.fds ∧
    (s.register t x).1.phase = s.phase ∧ (s.register t x).1.sleep = s.sleep ∧ (s.register t x).1.due = s.due := by
  unfold Sys.register
  split
  · split <;> exact ⟨rfl, rfl, rfl, rfl⟩
  · exact ⟨rfl, rfl, rfl, rfl⟩
  · exact ⟨rfl, rfl, rfl, rfl⟩

theorem unregister_rest (s : Sys T P K) (t : T) (x : PollFd) : (s.unregister t x).fds = s.fds ∧
    (s.unregister t x).phase = s.phase ∧ (s.unregister t x).sleep = s.sleep ∧ (s.unregister t x).due = s.due := by
  unfold Sys.unregister
  split <;> exact ⟨rfl, rfl, rfl, rfl⟩

/-- Who registers pushes nobody out. -/
theorem register_spares (s : Sys T P K) (t u : T) (x : PollFd) : Spares s (s.register t x).1 u := by
  unfold Sys.register
  split
  · split
    · exact .of rfl (fun h => ⟨holds_add t h, id⟩) fun _ _ _ => .refl
    · exact .same rfl rfl rfl u
  · exact .pipe rfl rfl rfl fun _ _ => .queues (holds_join _) (holds_join _)
  · exact .same rfl rfl rfl u

/-- A registration that succeeded is in effect. -/
theorem registered_register (h : (s.register t x).2) : (s.register t x).1.Registered t x := by
  have hobj := obj_congr (congrFun (register_rest s t x).1 t) x.fd
  unfold Sys.Registered
  rw [hobj]
  unfold Sys.register at h ⊢
  rcases hobj : s.obj t x.fd with - | (- | (- | p) | k | -) <;> rw [hobj] at h <;> dsimp only at h ⊢
  · cases harch : s.arch with
    | riscv64 =>
      rw [harch] at h
      exact holds_of_add h
    | aarch64 =>
      rw [harch] at h
      cases h
  · obtain ⟨hr, hw⟩ := Bool.and_eq_true_iff.mp h
    dsimp only [Sys.setPipe]
    rw [update_self]
    exact ⟨join_holds hr, join_holds hw⟩

/-- Who leaves the queues leaves the others there. -/
theorem unregister_spares (hne : u ≠ t) (x : PollFd) : Spares s (s.unregister t x) u := by
  unfold Sys.unregister
  split
  · exact .of rfl (fun h => ⟨holds_remove hne h, id⟩) fun _ _ _ => .refl
  · exact .pipe rfl rfl rfl fun _ _ => .left hne
  · exact .same rfl rfl rfl u

theorem readyCount_concat (revents : List UInt16) (r : UInt16) :
    Sys.readyCount (revents ++ [r]) = 0 ↔ Sys.readyCount revents = 0 ∧ r = 0 := by
  rw [Sys.readyCount, filter_append, length_append, Nat.add_eq_zero_iff]
  refine and_congr_right fun _ => ?_
  simp

theorem Inv.go (h : Inv s) (hs : s.go t env = some s') : Inv s' := by
  have ht := h t
  unfold Sys.go at hs
  cases hp : s.phase t with
  | out =>
    rw [hp] at hs
    cases hs
  | scanning w revents rest =>
    rw [hp] at hs ht
    cases rest with
    | nil =>
      refine some.inj hs ▸ h.move ?_
      split_ifs
      · trivial
      · trivial
      · trivial
      · exact ⟨ht, fun _ _ x hx => .inl hx⟩
    | cons x rest =>
      exact some.inj hs ▸ h.move ht
  | registering w now all rest =>
    rw [hp] at hs ht
    cases rest with
    | nil =>
      refine some.inj hs ▸ h.settle ⟨ht.1, fun hsleep => ?_⟩
      dsimp only [Sys.goto] at hsleep
      rw [update_self] at hsleep
      cases hd : w.deadline with
      | some d =>
        rw [hd] at hsleep
        cases hsleep
      | none =>
        rw [hd] at hsleep
        cases all with
        | false => cases hsleep
        | true => exact ⟨rfl, .inr fun x hx => ⟨(ht.2 hd rfl x hx).resolve_left not_mem_nil, .inl hx⟩⟩
    | cons x rest =>
      obtain ⟨hfds, hphase, hsleep, hdue⟩ := register_rest s t x
      refine some.inj hs ▸ h.own (congrArg (update · t _) hphase) hfds (fun u _ => congrFun hsleep u) hdue
        (fun u _ => register_spares s t u x) ⟨ht.1.congr (congrFun hfds t), fun hnone hall y hy => ?_⟩
      obtain ⟨hall, hok⟩ := Bool.and_eq_true_iff.mp hall
      rcases ht.2 hnone hall y hy with hmem | hreg
      · rcases mem_cons.mp hmem with rfl | hrest
        · exact .inr (registered_register hok)
        · exact .inl hrest
      · exact .inr (register_spares s t t x y (ht.1 hnone y hy) hreg).1
  | rescanning w revents rest =>
    rw [hp] at hs ht
    cases rest with
    | nil =>
      refine some.inj hs ▸ h.settle ⟨ht.1, fun hsleep => ?_⟩
      dsimp only [Sys.goto] at hsleep
      rw [update_self] at hsleep
      split_ifs at hsleep with hready
      have hcount : Sys.readyCount revents = 0 := Nat.eq_zero_of_not_pos fun hpos => hready (.inl hpos)
      obtain ⟨hnone, hdue | hall⟩ := ht.2 hsleep
      · exact ⟨hnone, .inl hdue⟩
      · exact ⟨hnone, .inr fun x hx => ⟨(hall x hx).1, (hall x hx).2.resolve_left not_mem_nil hcount⟩⟩
    | cons x rest =>
      refine some.inj hs ▸ h.move ⟨ht.1, fun hsleep => ?_⟩
      obtain ⟨hnone, hdue | hall⟩ := ht.2 hsleep
      · exact ⟨hnone, .inl hdue⟩
      refine ⟨hnone, .inr fun y hy => ⟨(hall y hy).1, ?_⟩⟩
      rcases (hall y hy).2 with hmem | hquiet
      · rcases mem_cons.mp hmem with rfl | hrest
        · exact .inr fun hcount => ((readyCount_concat ..).mp hcount).2
        · exact .inl hrest
      · exact .inr fun hcount => hquiet ((readyCount_concat ..).mp hcount).1
  | yielded w =>
    rw [hp] at hs ht
    dsimp only at hs
    split_ifs at hs
    exact some.inj hs ▸ h.move ht.1
  | clearing w rest =>
    rw [hp] at hs ht
    cases rest with
    | nil => exact some.inj hs ▸ h.move ht
    | cons x rest =>
      obtain ⟨hfds, hphase, hsleep, hdue⟩ := unregister_rest s t x
      exact some.inj hs ▸ h.own (congrArg (update · t _) hphase) hfds (fun u _ => congrFun hsleep u) hdue
        (fun u hut => unregister_spares hut x) (Sys.Proper.congr ht (congrFun hfds t))
  | back value revents =>
    rw [hp] at hs
    exact some.inj hs ▸ h.move trivial

theorem go_fds (hs : s.go t env = some s') : s'.fds = s.fds := by
  unfold Sys.go at hs
  split at hs
  · cases hs
  · exact some.inj hs ▸ rfl
  · exact some.inj hs ▸ rfl
  · exact some.inj hs ▸ (register_rest ..).1
  · exact some.inj hs ▸ rfl
  · exact some.inj hs ▸ rfl
  · exact some.inj hs ▸ rfl
  · obtain ⟨-, rfl⟩ := guarded hs
    exact rfl
  · exact some.inj hs ▸ (unregister_rest ..).1
  · exact some.inj hs ▸ rfl
  · exact some.inj hs ▸ rfl

/-! ### Every event -/

variable [DecidableEq K]

/-- A task asleep in `ppoll` without a deadline is about to be woken, or nothing is ready and it stands in the queue of
    each object that an event could make ready. -/
def Vigilant (s : Sys T P K) : Prop :=
  ∀ t w, s.phase t = .yielded w → s.sleep t = .forever → t ∈ s.due ∨
    ∀ x ∈ w.fds, s.revents t x = 0 ∧ ∀ e s', s.step e = some s' → s'.revents t x ≠ 0 → s.InQueue t x

/-- A `ppoll` without a timeout has no socket among its descriptors and asks something of each pipe; nobody takes a
    waiter off a queue before it has marked itself asleep; and the counters of a FIFO do not wrap around. -/
def Calm (s : Sys T P K) : Ev T P K → Prop
  | .ppoll t fds timeout _ => timeout = none → ∀ x ∈ fds, s.Suited t x
  | .openEnd p e => (s.pipes p).readers.toNat + e.reads.toNat < 2 ^ 16 ∧ (s.pipes p).writers.toNat + e.writes.toNat < 2 ^ 16
  | e => ∀ t ∈ s.taken e, ∀ w now all rest, s.phase t ≠ .registering w now all rest

theorem Inv.step (h : Inv s) (hok : Calm s e) (hs : s.step e = some s') : Inv s' := by
  cases e with
  | ppoll t fds timeout now =>
    obtain ⟨-, rfl⟩ := guarded hs
    refine h.move ?_
    split_ifs
    · trivial
    · exact fun hnone => hok (map_eq_none_iff.mp hnone)
  | go t env => exact h.go hs
  | setFd t fd o =>
    obtain ⟨hout, hs⟩ := ite_none_right_eq_some.mp hs
    have hfds : ∀ u, s.phase u ≠ .out → update s.fds t (update (s.fds t) fd o) u = s.fds u :=
      fun u hu => update_of_ne (ne_of_out hu hout) ..
    exact some.inj hs ▸ h.change rfl hfds rfl (append_nil _).symm nofun fun u hu _ =>
      .of (hfds u hu) (fun hin => ⟨hin, id⟩) fun _ _ _ => .refl
  | write u p src =>
    obtain ⟨-, rfl⟩ := guarded hs
    exact h.change rfl (fun _ _ => rfl) rfl rfl hok fun t _ hnot =>
      .pipe rfl rfl rfl fun _ _ => .written hnot
  | read u p count =>
    obtain ⟨-, rfl⟩ := guarded hs
    exact h.change rfl (fun _ _ => rfl) rfl rfl hok fun t _ hnot =>
      .pipe rfl rfl rfl fun _ _ => .readFrom hnot
  | leave u p =>
    obtain ⟨hout, rfl⟩ := guarded hs
    exact h.change rfl (fun _ _ => rfl) rfl (append_nil _).symm nofun fun t ht _ =>
      .pipe rfl rfl rfl fun _ _ => .left (ne_of_out ht hout)
  | release p e =>
    exact some.inj hs ▸ h.change rfl (fun _ _ => rfl) rfl rfl hok fun t _ hnot =>
      .pipe rfl rfl rfl fun _ hasks hin => absurd (mem_release hin hasks e) hnot
  | openEnd p e =>
    exact some.inj hs ▸ h.change rfl (fun _ _ => rfl) rfl (append_nil _).symm nofun fun t _ _ =>
      .pipe rfl rfl rfl fun _ _ => .join hok.1 hok.2
  | input n =>
    refine some.inj hs ▸ h.change rfl (fun _ _ => rfl) rfl rfl hok fun t _ hnot =>
      .of rfl (fun hin => ?_) fun _ _ _ => .refl
    unfold Sys.taken at hnot
    unfold Sys.input
    dsimp only at hnot ⊢
    split_ifs at hnot ⊢
    · exact ⟨hin, id⟩
    · exact absurd (mem_takeAll hin) hnot
  | readConsole u count =>
    obtain ⟨-, rfl⟩ := guarded hs
    refine h.change rfl (fun _ _ => rfl) rfl (append_nil _).symm nofun fun t _ _ =>
      .of rfl (fun hin => ?_) fun _ _ _ => .refl
    unfold Sys.readConsole
    split_ifs
    · exact ⟨holds_add u hin, id⟩
    · exact ⟨hin, fun hpos => lt_of_lt_of_le hpos (Nat.sub_le ..)⟩
  | leaveConsole u =>
    obtain ⟨hout, rfl⟩ := guarded hs
    exact h.change rfl (fun _ _ => rfl) rfl (append_nil _).symm nofun fun t ht _ =>
      .of rfl (fun hin => ⟨holds_remove (ne_of_out ht hout) hin, id⟩) fun _ _ _ => .refl
  | net k e =>
    obtain ⟨x, -, rfl⟩ := map_eq_some_iff.mp hs
    exact h.change rfl (fun _ _ => rfl) rfl (append_nil _).symm nofun fun t _ _ =>
      .of rfl (fun hin => ⟨hin, id⟩) fun _ _ _ => .refl
  | wake t =>
    obtain ⟨-, rfl⟩ := guarded hs
    exact h.wake fun u hut hu => (mem_erase_of_ne hut).mpr hu
  | rouse t => exact some.inj hs ▸ h.wake fun _ _ => id

/-- Nobody changes the descriptors of a task in `ppoll`. -/
theorem step_fds (hs : s.step e = some s') (hin : s.phase t ≠ .out) : s'.fds t = s.fds t := by
  cases e with
  | go u env => exact congrFun (go_fds hs) t
  | setFd u fd o =>
    obtain ⟨hout, rfl⟩ := guarded hs
    exact update_of_ne (ne_of_out hin hout) ..
  | ppoll u fds timeout now | write u p src | read u p count | leave u p | readConsole u count | leaveConsole u | wake u =>
    obtain ⟨-, rfl⟩ := guarded hs
    exact rfl
  | release p e | openEnd p e | input n | rouse u => exact some.inj hs ▸ rfl
  | net k e =>
    obtain ⟨x, -, rfl⟩ := map_eq_some_iff.mp hs
    rfl

/-- CORRECT for pipes and consoles: in every run in which a `ppoll` without a timeout asks something of each of its pipes,
    names no socket and is not disturbed before it is asleep, it sleeps only while nothing is ready, in the queues of
    all that can become ready. -/
theorem ppoll_never_oversleeps (h : Reaches Calm s) : Vigilant s := by
  have hinv : Inv s := by
    induction h with
    | start h => exact fun t => h t ▸ trivial
    | step _ hok hs ih => exact ih.step hok hs
  intro t w hp hsleep
  have ht := hinv t
  rw [hp] at ht
  obtain ⟨hnone, hdue | hall⟩ := ht.2 hsleep
  · exact .inl hdue
  refine .inr fun x hx => ⟨(hall x hx).2, fun e s' hs hready => ?_⟩
  have hfds : s'.fds t = s.fds t := step_fds hs (by rw [hp]; exact nofun)
  exact inQueue_of_ready (ht.1 hnone x hx) (hall x hx).1 hfds (hall x hx).2 hready

/-! ### Runs -/

/-- A task whose descriptor 0 is one object: the console, a pipe with one reader, or a connection. -/
def desk (o : Obj Unit Unit) (writers : UInt16) : Sys Unit Unit Unit where
  arch := .riscv64
  console := ⟨0, .init⟩
  pipes := fun _ => ⟨.empty (fun _ => 0) pipeBufSize_pos, 2, 1, writers, .init, .init⟩
  socks := fun _ => .start .child
  fds := fun _ => Function.update (fun _ => none) 0 (some o)
  phase := fun _ => .out
  sleep := fun _ => .awake
  due := []

/-- Steps of the task at time 0. -/
def turns (n : Nat) : List (Ev Unit Unit Unit) := List.replicate n (.go () ⟨0, false⟩)

/-- The task waits for a byte of the pipe. -/
theorem ppoll_never_oversleeps_pipe :
    ∃ s, (desk (.pipe (some ())) 1).run (.ppoll () [⟨0, pollin⟩] none 0 :: turns 6) = some s ∧ s.sleep () = .forever ∧
      s.phase () = .yielded ⟨[⟨0, pollin⟩], none⟩ ∧ Vigilant s := by
  have hstart : Reaches Calm (desk (.pipe (some ())) 1) := .start fun _ => rfl
  have hcall : Reaches Calm ((desk (.pipe (some ())) 1).goto () (.scanning ⟨[⟨0, pollin⟩], none⟩ [] [⟨0, pollin⟩])) := by
    refine hstart.step (e := .ppoll () [⟨0, pollin⟩] none 0) (fun _ x hx => ?_) rfl
    rw [mem_singleton.mp hx]
    exact .inl rfl
  have hturns : ∀ s : Sys Unit Unit Unit, ∀ e ∈ turns 6, Calm s e := by
    intro s e he
    rw [eq_of_mem_replicate he]
    exact nofun
  exact ⟨_, rfl, rfl, rfl, ppoll_never_oversleeps (run_reaches (turns 6) hturns hcall rfl)⟩

/-- A segment arrives at the connection the task waits for. -/
def segmentArrives : List (Ev Unit Unit Unit) :=
  .ppoll () [⟨0, pollin⟩] none 0 :: turns 6 ++ [.net () (.callback (.received (some ⟨[7], short_seven⟩) .ok 1))]

/-- The last writer of a pipe of which the task asked nothing closes its end. -/
def writerGoes : List (Ev Unit Unit Unit) := .ppoll () [⟨0, 0⟩] none 0 :: turns 6 ++ [.release () ⟨false, true⟩]

/-- One of two writers closes its end when the task has registered and is not asleep yet; then the other one closes. -/
def wakesEarly : List (Ev Unit Unit Unit) :=
  .ppoll () [⟨0, pollin⟩] none 0 :: turns 3 ++ [.release () ⟨false, true⟩, .wake ()] ++ turns 3 ++ [.release () ⟨false, true⟩]

/-- A task that sleeps on, and of which nobody knows, while its descriptor is ready. -/
theorem oversleeps {s₀ : Sys Unit Unit Unit} {es : List (Ev Unit Unit Unit)} {x : PollFd} {r : UInt16}
    (hstart : ∀ t, s₀.phase t = .out) (hr : r ≠ 0)
    (hend : (s₀.run es).map (fun s => (s.phase (), s.sleep (), s.due, s.revents () x)) =
      some (.yielded ⟨[x], none⟩, .forever, [], r)) :
    ∃ s, Reaches (fun _ _ => True) s ∧ s₀.run es = some s ∧ s.sleep () = .forever ∧ s.revents () x = r ∧ ¬ Vigilant s := by
  obtain ⟨s, hrun, hs⟩ := map_eq_some_iff.mp hend
  simp only [Prod.mk.injEq] at hs
  obtain ⟨hp, hsleep, hdue, hready⟩ := hs
  refine ⟨s, run_reaches es (fun _ _ _ => trivial) (.start hstart) hrun, hrun, hsleep, hready, fun h => ?_⟩
  rcases h () _ hp hsleep with hmem | hall
  · exact absurd (hdue ▸ hmem) not_mem_nil
  · exact hr (hready.symm.trans (hall x (mem_singleton_self x)).1)

/-- INCORRECT in general: a task sleeps without a deadline and is not woken when a byte arrives at its connection, when
    the pipe it polls hangs up, or when it was taken off the queue before it was asleep. -/
theorem ppoll_oversleeps : (∃ s, Reaches (fun _ _ => True) s ∧ (desk (.socket (some ())) 1).run segmentArrives = some s ∧
      s.sleep () = .forever ∧ s.revents () ⟨0, pollin⟩ = pollin ∧ ¬ Vigilant s) ∧
    (∃ s, Reaches (fun _ _ => True) s ∧ (desk (.pipe (some ())) 1).run writerGoes = some s ∧
      s.sleep () = .forever ∧ s.revents () ⟨0, 0⟩ = pollhup ∧ ¬ Vigilant s) ∧
    ∃ s, Reaches (fun _ _ => True) s ∧ (desk (.pipe (some ())) 2).run wakesEarly = some s ∧
      s.sleep () = .forever ∧ s.revents () ⟨0, pollin⟩ = pollhup ∧ ¬ Vigilant s := by
  exact ⟨oversleeps (fun _ => rfl) (by decide) rfl, oversleeps (fun _ => rfl) (by decide) rfl,
    oversleeps (fun _ => rfl) (by decide) rfl⟩

end Orthox.Poll
