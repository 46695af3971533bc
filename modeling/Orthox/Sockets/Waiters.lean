import Orthox.Sockets.Calls
import Orthox.Schemes.Holders

/-! Tasks asleep in the calls of a socket. Each slot of a socket holds one task, so a second sleeper of the same kind takes the
    place of the first, which no callback finds any more. Where that does not happen a sleeper stays in its slot as long as it
    has to wait: the callbacks wake the slot of every condition they make true, except for a datagram of which only a part could
    be queued, and a connect that lwIP refuses ends the attempt of the others without waking them. -/

namespace Orthox.Sockets.Calls
open Schemes List Function Option

variable {T : Type} {l : Slot}

/-- A task asleep in `kernel_yield` is in the slot of its call, and the condition it waits for does not hold. -/
def Remembered (s : Sys T) : Prop :=
  ∀ ⦃t c⦄, s.asleep t = true → s.phase t = .yielded c → s.waiter c.slot = some t ∧ s.sock.ready c.slot = false

/-- For one slot: who registers finds nobody else asleep there, a connect is not refused while somebody sleeps in
    connect, and a datagram finds all the pages it needs or none. -/
def AttendedAt (l : Slot) (s : Sys T) : Ev T → Prop
  | .go t _ => ∀ c, s.phase t = .marked c → c.slot = l → ∀ u, s.waiter l = some u → u ≠ t → s.asleep u = false
  | .connect _ r => l = .connect → r ≠ .ok → ∀ u, s.waiter .connect = some u → s.asleep u = false
  | .callback (.datagram d pages) => l = .rx → pages = 0 ∨ d.packet.payload.length ≤ pages * chunkSize
  | _ => True

def Attended (s : Sys T) (e : Ev T) : Prop := ∀ l, AttendedAt l s e

/-! ### The invariant -/

/-- The task has marked itself asleep. -/
def Phase.down : Phase → Bool
  | .marked _ | .registered _ | .yielded _ => true
  | _ => false

/-- The call of a task that is in a slot. -/
def Phase.waits : Phase → Option Call
  | .registered c | .yielded c => some c
  | _ => none

structure Inv (l : Slot) (s : Sys T) : Prop where
  up : ∀ {t}, (s.phase t).down = false → s.asleep t = false
  slot : ∀ {t c}, s.asleep t = true → (s.phase t).waits = some c → c.slot = l → s.waiter l = some t
  wait : ∀ {t c}, s.asleep t = true → s.phase t = .yielded c → c.slot = l → s.sock.ready l = false

/-- Nobody sleeps in the slot. -/
def Sys.Vacant (s : Sys T) (l : Slot) : Prop := ∀ {t c}, (s.phase t).waits = some c → c.slot = l → s.asleep t = false

variable {k : Sock} {cb : Callback} {p : Phase} {c : Call} {u : T}

/-- A change of the socket that makes a condition true only where nobody sleeps. -/
theorem Inv.change {s : Sys T} (h : Inv l s) (hready : k.ready l → s.sock.ready l ∨ s.Vacant l) : Inv l { s with sock := k } := by
  refine ⟨h.up, h.slot, fun {t c} ht hp hl => ?_⟩
  rcases hr : k.ready l with - | -
  · exact rfl
  rcases hready hr with hold | hvacant
  · exact absurd (hold.symm.trans (h.wait ht hp hl)) Bool.noConfusion
  · have hp' : s.phase t = .yielded c := hp
    exact absurd (ht.symm.trans (hvacant (by rw [hp']; rfl) hl)) Bool.noConfusion

variable [DecidableEq T] {s s' : Sys T} {t : T}

/-! ### Waking -/

/-- Who is asleep after a slot was woken was so before, and is not the task of the slot. -/
theorem asleep_wake {l : Slot} (h : (s.wake l).asleep u) : s.asleep u ∧ s.waiter l ≠ some u := by
  rw [Sys.wake] at h
  rcases hw : s.waiter l with - | v
  · rw [hw] at h
    exact ⟨h, nofun⟩
  rw [hw] at h
  obtain ⟨hne, h⟩ := (update_cases h).resolve_left fun h => Bool.false_ne_true h.2
  exact ⟨h, fun heq => hne (some.inj heq).symm⟩

theorem Inv.wake (h : Inv l s) (l' : Slot) : Inv l (s.wake l') := by
  refine ⟨fun {u} hp => ?_, fun {u c} hu hp hl => ?_, fun hu hp hl => h.wait (asleep_wake hu).1 hp hl⟩
  · rcases hu : (s.wake l').asleep u with - | -
    · rfl
    · exact absurd ((asleep_wake hu).1.symm.trans (h.up hp)) Bool.noConfusion
  · obtain ⟨hold, hne⟩ := asleep_wake hu
    have hslot := h.slot hold hp hl
    have hother : l ≠ l' := fun heq => hne (heq ▸ hslot)
    exact (update_of_ne hother ..).trans hslot

theorem Inv.vacant_wake (h : Inv l s) : (s.wake l).Vacant l := by
  intro u c hp hl
  rcases hu : (s.wake l).asleep u with - | -
  · rfl
  · obtain ⟨hold, hne⟩ := asleep_wake hu
    exact absurd (h.slot hold hp hl) hne

/-- A slot that is vacant stays so when another one is woken. -/
theorem Sys.Vacant.wake (h : s.Vacant l) (l' : Slot) : (s.wake l').Vacant l := by
  intro u c hp hl
  rcases hu : (s.wake l').asleep u with - | -
  · rfl
  · exact absurd ((asleep_wake hu).1.symm.trans (h hp hl)) Bool.noConfusion

/-- Waking several slots leaves them vacant. -/
theorem Inv.wakeAll (h : Inv l s) (ls : List Slot) :
    Inv l (ls.foldl .wake s) ∧ (l ∈ ls ∨ s.Vacant l → (ls.foldl .wake s).Vacant l) := by
  induction ls generalizing s with
  | nil => exact ⟨h, fun hl => hl.resolve_left not_mem_nil⟩
  | cons l' ls ih =>
    obtain ⟨hinv, hvacant⟩ := ih (h.wake l')
    refine ⟨hinv, fun hl => hvacant ?_⟩
    rcases hl with hmem | hold
    · rcases mem_cons.mp hmem with rfl | hrest
      · exact .inr h.vacant_wake
      · exact .inl hrest
    · exact .inr (hold.wake l')

/-- Waking does not look at the socket. -/
theorem wakeAll_sock (k : Sock) (ls : List Slot) (s : Sys T) :
    ls.foldl .wake { s with sock := k } = { ls.foldl .wake s with sock := k } := by
  induction ls generalizing s with
  | nil => rfl
  | cons l ls ih => exact ih (s.wake l)

theorem wakeAll_same (ls : List Slot) (s : Sys T) : (ls.foldl .wake s).sock = s.sock := by
  induction ls generalizing s with
  | nil => rfl
  | cons l ls ih => exact ih (s.wake l)

/-! ### Callbacks -/

/-- A packet of which nothing could be queued leaves the queue alone. -/
theorem queueLoop_zero (sender : Sender) (bytes : List UInt8) : (queueLoop sender bytes 0).1 = [] := by
  cases bytes <;> rfl

/-- A datagram that is not accepted leaves the queue alone, if it found all its pages or none. -/
theorem udpSocketRecv_refused {queue : List Chunk} {d : Datagrams.Datagram} {pages : Nat}
    (hpages : pages = 0 ∨ d.packet.payload.length ≤ pages * chunkSize)
    (h : (Datagrams.udpSocketRecv queue d pages).2 = false) : (Datagrams.udpSocketRecv queue d pages).1 = queue := by
  unfold Datagrams.udpSocketRecv at h ⊢
  cases haddr : d.sender.addr with
  | none => rfl
  | some addr =>
    rw [haddr] at h
    rcases hpages with rfl | hpages
    · exact (congrArg (queue ++ ·) (queueLoop_zero ..)).trans (append_nil _)
    · have hall : (queueLoop d.sender d.packet.payload pages).2 := (Stream.queueLoop_ok ..).mpr hpages
      exact absurd (hall.symm.trans h) Bool.noConfusion

omit [DecidableEq T] in
/-- A callback wakes the slot of every condition it makes true. -/
theorem callback_ready (hok : AttendedAt l s (.callback cb))
    (h : (k.callback cb).1.ready l) : k.ready l ∨ l ∈ (k.callback cb).2 := by
  cases cb with
  | connected e =>
    unfold Sock.callback at h ⊢
    dsimp only at h ⊢
    split_ifs at h ⊢ <;> cases l <;> first | exact .inl h | exact .inr (mem_singleton_self _)
  | err e => cases l <;> first | exact .inl h | exact .inr (by simp [Sock.callback])
  | received p e pages =>
    rcases ne_or_eq e .ok with he | he
    · have hreply : (Stream.tcpStreamRecv k.rx p e pages).sock = { k.rx with error := e } :=
        congrArg Stream.Reply.sock (if_pos he)
      rw [Sock.callback, hreply] at h
      exact .inl (by cases l <;> exact h)
    · cases l with
      | rx => exact .inr (by rw [Sock.callback, if_neg (not_not_intro he)]; exact mem_singleton_self _)
      | _ => exact .inl h
  | sent v => cases l <;> first | exact .inl h | exact .inr (mem_singleton_self _)
  | accepted page => cases page with
    | true => cases l <;> first | exact .inl h | exact .inr (mem_singleton_self _)
    | false => exact .inl h
  | datagram d pages =>
    cases l with
    | rx =>
      rw [Sock.callback] at h ⊢
      dsimp only at h ⊢
      rcases hqueued : (Datagrams.udpSocketRecv k.rx.queue d pages).2 with - | -
      · rw [udpSocketRecv_refused (hok rfl) hqueued] at h
        exact .inl h
      · exact .inr (mem_singleton_self _)
    | _ => exact .inl h

section
variable (h : Inv l s)
include h

theorem Inv.callback (hok : AttendedAt l s (.callback cb)) : Inv l (s.callback cb) := by
  obtain ⟨hinv, hvacant⟩ := h.wakeAll (s.sock.callback cb).2
  rw [Sys.callback, wakeAll_sock]
  refine hinv.change fun hl => ?_
  rw [wakeAll_same]
  exact (callback_ready hok hl).imp_right fun hmem => hvacant (.inl hmem)

/-! ### Steps of a task -/

/-- One task moves: the others sleep as before and keep the slot, no sleeper's condition becomes true, and the task
    itself is where it should be. -/
theorem Inv.own (hphase : s'.phase = update s.phase t p) (hothers : ∀ u, u ≠ t → s'.asleep u = s.asleep u)
    (hwaiter : ∀ u, u ≠ t → s.asleep u → s.waiter l = some u → s'.waiter l = some u)
    (hready : s'.sock.ready l → s.sock.ready l ∨ s.Vacant l) (hup : p.down = false → s'.asleep t = false)
    (hslot : ∀ c, s'.asleep t → p.waits = some c → c.slot = l → s'.waiter l = some t)
    (hwait : ∀ c, s'.asleep t → p = .yielded c → c.slot = l → s'.sock.ready l = false) : Inv l s' := by
  have hat : s'.phase t = p := by rw [hphase, update_self]
  have hoff : ∀ {u}, u ≠ t → s'.phase u = s.phase u := by
    intro u hut
    rw [hphase, update_of_ne hut]
  refine ⟨fun {u} hd => ?_, fun {u c} hu hw hl => ?_, fun {u c} hu hy hl => ?_⟩
  · rcases eq_or_ne u t with rfl | hut
    · exact hup (hat ▸ hd)
    · exact (hothers u hut).trans (h.up (hoff hut ▸ hd))
  · rcases eq_or_ne u t with rfl | hut
    · exact hslot c hu (hat ▸ hw) hl
    · have ha := hothers u hut ▸ hu
      exact hwaiter u hut ha (h.slot ha (hoff hut ▸ hw) hl)
  · rcases eq_or_ne u t with rfl | hut
    · exact hwait c hu (hat.symm.trans hy) hl
    have ha := hothers u hut ▸ hu
    have hy' := (hoff hut).symm.trans hy
    rcases hr : s'.sock.ready l with - | -
    · rfl
    rcases hready hr with hwas | hvacant
    · exact absurd (hwas.symm.trans (h.wait ha hy' hl)) Bool.noConfusion
    · exact absurd (ha.symm.trans (hvacant (by rw [hy']; rfl) hl)) Bool.noConfusion

/-- A task goes on awake. -/
theorem Inv.move (hphase : s'.phase = update s.phase t p)
    (hself : s'.asleep t = false) (hothers : ∀ u, u ≠ t → s'.asleep u = s.asleep u)
    (hwaiter : ∀ u, u ≠ t → s.asleep u → s.waiter l = some u → s'.waiter l = some u)
    (hready : s'.sock.ready l → s.sock.ready l ∨ s.Vacant l) : Inv l s' :=
  h.own hphase hothers hwaiter hready (fun _ => hself) (fun _ ha => absurd (ha.symm.trans hself) Bool.noConfusion)
    fun _ ha => absurd (ha.symm.trans hself) Bool.noConfusion

/-- A task that is awake goes to another place in its call. -/
theorem Inv.goto (hup : (s.phase t).down = false)
    (hready : k.ready l → s.sock.ready l ∨ s.Vacant l) (p : Phase) : Inv l ({ s with sock := k }.goto t p) :=
  h.move rfl (h.up hup) (fun _ _ => rfl) (fun _ _ _ => id) hready

/-- A task takes the slot of its call, in which nobody else sleeps. -/
theorem Inv.register (hfree : c.slot = l → ∀ u, s.waiter l = some u → u ≠ t → s.asleep u = false) :
    Inv l ((s.setWaiter c.slot t).goto t (.registered c)) := by
  refine h.own rfl (fun _ _ => rfl) (fun u hut ha hl => ?_) .inl nofun (fun c' _ hc hl => ?_) nofun
  · have hother : l ≠ c.slot := fun heq => absurd (ha.symm.trans (hfree heq.symm u hl hut)) Bool.noConfusion
    exact (update_of_ne hother ..).trans hl
  · obtain rfl := some.inj hc
    exact hl ▸ update_self ..

end

/-- The other tasks keep their slots when one leaves its own. -/
theorem waiter_clear (hut : u ≠ t) {l' : Slot} (h : s.waiter l' = some u) : (s.clearWaiter l t).waiter l' = some u := by
  rw [Sys.clearWaiter]
  split_ifs with hw
  · have hother : l' ≠ l := by
      rintro rfl
      exact hut (some.inj (h.symm.trans hw))
    exact (update_of_ne hother ..).trans h
  · exact h

theorem asleep_clear (s : Sys T) (l : Slot) (t : T) : (s.clearWaiter l t).asleep = s.asleep := by
  rw [Sys.clearWaiter]
  split_ifs <;> rfl

theorem phase_clear (s : Sys T) (l : Slot) (t : T) : (s.clearWaiter l t).phase = s.phase := by
  rw [Sys.clearWaiter]
  split_ifs <;> rfl

theorem sock_clear (s : Sys T) (l : Slot) (t : T) : (s.clearWaiter l t).sock = s.sock := by
  rw [Sys.clearWaiter]
  split_ifs <;> rfl

/-- A task leaves its slot and goes back to the head of its loop. -/
theorem Inv.leave (h : Inv l s) (c : Call) {a : T → Bool} (hself : a t = false)
    (hothers : ∀ u, u ≠ t → a u = s.asleep u) : Inv l ({ s.clearWaiter c.slot t with asleep := a }.goto t (.head c)) := by
  refine h.move (p := .head c) ?_ hself hothers (fun u hut _ hl => waiter_clear hut hl) fun hl => .inl ?_
  · rw [Sys.goto, phase_clear]
  · rwa [Sys.goto, sock_clear] at hl

/-- A task whose condition does not hold gives the processor away. -/
theorem Inv.yield (h : Inv l s) (hp : s.phase t = .registered c) (hready : s.sock.ready c.slot = false) :
    Inv l (s.goto t (.yielded c)) := by
  refine h.own rfl (fun _ _ => rfl) (fun _ _ _ => id) .inl nofun (fun c' ha hc => ?_) fun c' _ hc hl => ?_
  · obtain rfl := some.inj hc
    exact h.slot ha (by rw [hp]; rfl)
  · obtain rfl := Phase.yielded.inj hc
    exact hl ▸ hready

/-! ### What the calls do to the conditions -/

/-- Taking bytes, connections or room makes no condition true. -/
theorem head_ready (k : Sock) (env : Env) (c : Call) (l : Slot) (h : (k.head env c).1.ready l) : k.ready l := by
  cases c with
  | recv len nonblock =>
    rw [Sock.head] at h
    split_ifs at h with hqueue
    · cases l with
      | rx => exact Bool.or_eq_true_iff.mpr (.inl hqueue)
      | _ =>
        rw [Sock.take] at h
        split at h
        · exact h
        · split at h <;> exact h
    all_goals exact h
  | send | connect =>
    rw [Sock.head] at h
    split_ifs at h <;> exact h
  | accept nonblock =>
    unfold Sock.head at h
    dsimp only at h
    rcases eq_or_ne k.backlog 0 with hzero | hne
    · rw [if_pos hzero] at h
      cases nonblock <;> exact h
    rw [if_neg hne] at h
    cases l with
    | accept => exact decide_eq_true hne
    | _ => cases hfd : env.fd <;> rw [hfd] at h <;> exact h

theorem write_ready (k : Sock) (env : Env) (len sent : Nat) (chunk : UInt16) (nonblock : Bool) (l : Slot)
    (h : (k.write env len sent chunk nonblock).1.ready l) : k.ready l := by
  unfold Sock.write at h
  rcases Bool.eq_false_or_eq_true k.pcb with hpcb | hpcb
  · rw [if_neg (by rw [hpcb]; exact Bool.noConfusion)] at h
    split at h
    · split_ifs at h <;> exact h
    · rename_i hwrite
      cases l with
      | tx =>
        rcases eq_or_ne k.sndbuf 0 with hzero | hne
        · -- lwIP takes nothing when it has no room, so nothing was to be written.
          have hle : ¬ k.sndbuf < chunk := by
            intro hlt
            rw [if_pos hlt] at hwrite
            cases hwrite
          rw [hzero] at hle
          have hchunk : chunk = 0 := UInt16.le_zero_iff.mp (UInt16.not_lt.mp hle)
          rw [hzero, hchunk] at h
          have hsame : 0 - 0 = 0 := rfl
          exact absurd hsame (of_decide_eq_true h)
        · exact decide_eq_true hne
      | _ => exact h
    · exact h
  · rw [if_pos hpcb] at h
    exact h

/-- A connect makes its own condition true only when lwIP refuses it. -/
theorem connect_ready (k : Sock) (r : Err) (l : Slot) (h : (k.connect r).1.ready l) : k.ready l ∨ l = .connect ∧ r ≠ .ok := by
  -- Forgetting that the peer has closed makes no receive ready.
  have hrx : (!k.rx.queue.isEmpty || k.stream && false) → k.ready .rx := by
    rw [Bool.and_false, Bool.or_false]
    exact fun hqueue => Bool.or_eq_true_iff.mpr (.inl hqueue)
  unfold Sock.connect at h
  split_ifs at h with hstream hlisten hpcb hconn hr hr
  · exact .inl h
  · exact .inl h
  · exact .inl h
  · cases l with
    | rx => exact .inl (hrx h)
    | connect => exact .inr ⟨rfl, hr⟩
    | _ => exact .inl h
  · cases l with
    | rx => exact .inl (hrx h)
    | connect => cases h
    | _ => exact .inl h
  · exact .inl h
  · exact .inl h

/-! ### Runs -/

/-- What an access of an awake task comes to keeps the invariant. -/
theorem Inv.settle (h : Inv l s) (hup : (s.phase t).down = false) (c : Call) {r : Sock × Outcome}
    (hready : r.1.ready l → s.sock.ready l) : Inv l (s.settle t c r) := by
  obtain ⟨k, o⟩ := r
  cases o with
  | goto p => exact h.goto hup (fun hl => .inl (hready hl)) p
  | sleep => exact h.own rfl (fun _ hut => update_of_ne hut ..) (fun _ _ _ => id) (fun hl => .inl (hready hl)) nofun nofun nofun
  | fault =>
    have hchange := h.change fun hl => .inl (hready hl)
    exact ⟨hchange.up, hchange.slot, hchange.wait⟩

theorem Inv.rouse (h : Inv l s) (t : T) : Inv l (s.rouse t) := by
  have hold : ∀ {u}, (s.rouse t).asleep u → s.asleep u := by
    intro u hu
    exact ((update_cases hu).resolve_left fun h => Bool.false_ne_true h.2).2
  refine ⟨fun {u} hd => ?_, fun hu hw => h.slot (hold hu) hw, fun hu hy => h.wait (hold hu) hy⟩
  rcases hu : (s.rouse t).asleep u with - | -
  · rfl
  · exact absurd ((hold hu).symm.trans (h.up hd)) Bool.noConfusion

theorem Inv.go (h : Inv l s) {env : Env} (hok : AttendedAt l s (.go t env)) (hs : s.go t env = some s') : Inv l s' := by
  rw [Sys.go] at hs
  cases hp : s.phase t with
  | out =>
    rw [hp] at hs
    cases hs
  | head c =>
    rw [hp] at hs
    exact some.inj hs ▸ h.settle (by rw [hp]; rfl) c (head_ready s.sock env c l)
  | writing len sent chunk nonblock =>
    rw [hp] at hs
    exact some.inj hs ▸ h.settle (by rw [hp]; rfl) _ (write_ready s.sock env len sent chunk nonblock l)
  | flushing len sent nonblock =>
    rw [hp] at hs
    exact some.inj hs ▸ h.settle (by rw [hp]; rfl) _ id
  | marked c =>
    rw [hp] at hs
    exact some.inj hs ▸ h.register (hok c hp)
  | registered c =>
    rw [hp] at hs
    dsimp only at hs
    split_ifs at hs with hgone hready
    · exact some.inj hs ▸ ⟨h.up, h.slot, h.wait⟩
    · refine some.inj hs ▸ h.leave c (update_self ..) fun u hut => ?_
      rw [update_of_ne hut, asleep_clear]
    · exact some.inj hs ▸ h.yield hp (Bool.not_eq_true _ ▸ hready)
  | yielded c =>
    rw [hp] at hs
    split_ifs at hs with hasleep
    refine some.inj hs ▸ h.leave c (a := (s.clearWaiter c.slot t).asleep) ?_ fun u _ => ?_
    · rw [asleep_clear]
      exact Bool.not_eq_true _ ▸ hasleep
    · rw [asleep_clear]
  | back value =>
    rw [hp] at hs
    exact some.inj hs ▸ h.goto (by rw [hp]; rfl) .inl .out

theorem Inv.step (h : Inv l s) {e : Ev T} (hok : AttendedAt l s e) (hs : s.step e = some s') : Inv l s' := by
  cases e with
  | recv t len nonblock =>
    obtain ⟨hp, rfl⟩ := guarded hs
    exact h.goto (by rw [hp]; rfl) .inl _
  | send | accept =>
    obtain ⟨⟨hp, -⟩, rfl⟩ := guarded hs
    exact h.goto (by rw [hp]; rfl) .inl _
  | connect t r =>
    obtain ⟨hp, rfl⟩ := guarded hs
    refine h.goto (by rw [hp]; rfl) (fun hl => ?_) _
    refine (connect_ready s.sock r l hl).imp_right ?_
    rintro ⟨rfl, hr⟩ u c hw hc
    rcases hu : s.asleep u with - | -
    · rfl
    · exact absurd (hu.symm.trans (hok rfl hr u (h.slot hu hw hc))) Bool.noConfusion
  | listen | soError =>
    obtain ⟨-, rfl⟩ := guarded hs
    exact h.change fun hl => .inl (by cases l <;> exact hl)
  | go t env => exact h.go hok hs
  | rouse t => exact some.inj hs ▸ h.rouse t
  | callback cb =>
    obtain ⟨-, rfl⟩ := guarded hs
    exact h.callback hok

omit [DecidableEq T] in
theorem Fresh.inv (h : Fresh s) : Inv l s := by
  cases h <;> exact ⟨fun _ => rfl, nofun, nofun⟩

/-- The invariant of one slot in the runs that meet the condition for that slot. -/
theorem Reaches.inv {ok : Sys T → Ev T → Prop} (hok : ∀ {s e}, ok s e → AttendedAt l s e) (h : Reaches ok s) : Inv l s := by
  induction h with
  | fresh h => exact h.inv
  | step _ hmeets hs ih => exact ih.step (hok hmeets) hs

/-- CORRECT where no sleeper is pushed out of its slot: in every run in which a task that registers finds nobody else
    asleep there, a task asleep on the socket is in its slot and still has to wait. -/
theorem no_socket_sleeper_forgotten (h : Reaches Attended s) : Remembered s := by
  intro t c ht hp
  have hinv : Inv c.slot s := h.inv fun hall => hall c.slot
  exact ⟨hinv.slot ht (by rw [hp]; rfl) rfl, hinv.wait ht hp rfl⟩

omit [DecidableEq T] in
/-- Where there is one task, nobody else is in its slot. -/
theorem attended_go (s : Sys Unit) (env : Env) : Attended s (.go () env) := by
  intro l c _ _ u _ hne
  exact absurd rfl hne

/-- What the kernel answers where nothing is asked of it. -/
def Env.idle : Env := ⟨.ok, .ok, none, true⟩

/-- A receive of one task that finds nothing and goes to sleep. -/
def fallsAsleep (t : T) : List (Ev T) := [.recv t 16 false, .go t .idle, .go t .idle, .go t .idle]

/-- One receiver asleep on a connection. -/
theorem no_socket_sleeper_forgotten_one : ∃ s : Sys Unit, (Sys.start .child).run (fallsAsleep ()) = some s ∧ s.asleep () = true ∧
      s.phase () = .yielded (.recv 16 false) ∧ Remembered s := by
  refine ⟨_, rfl, rfl, rfl, no_socket_sleeper_forgotten (run_reaches (fallsAsleep ()) (.fresh .child) ?_ rfl)⟩
  exact ⟨fun _ => trivial, fun s₁ _ => ⟨attended_go s₁ _, fun s₂ _ => ⟨attended_go s₂ _, fun s₃ _ =>
    ⟨attended_go s₃ _, fun _ _ => trivial⟩⟩⟩⟩

/-- Two processes share a connection and both receive; then a segment of one byte arrives. -/
def twoReceivers : List (Ev Bool) :=
  fallsAsleep true ++ fallsAsleep false ++ [.callback (.received (some ⟨[7], short_seven⟩) .ok 1)]

/-- INCORRECT in general: the second receiver takes the slot of the first, which sleeps on although a byte is there. -/
theorem first_receiver_forgotten : ∃ s : Sys Bool, Reaches (fun _ _ => True) s ∧ (Sys.start .child).run twoReceivers = some s ∧
      s.asleep true = true ∧ s.phase true = .yielded (.recv 16 false) ∧ s.sock.ready .rx = true ∧
      s.waiter .rx = none ∧ ¬ Remembered s := by
  refine ⟨_, run_reaches twoReceivers (.fresh .child) (meets_true _ _) rfl, rfl, rfl, rfl, rfl, rfl, fun h => ?_⟩
  exact absurd (h (t := true) rfl rfl).2 Bool.noConfusion

end Orthox.Sockets.Calls
