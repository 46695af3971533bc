import Orthox.Sockets.Waiters

/-! When the protocol block of a TCP socket goes. lwIP frees the block of a connection that was refused, reset or given
    up and calls `tcp_stream_err`, which forgets the block, records the error and wakes the sleepers. It leaves
    `connecting` set, so a connect that was waiting goes back to sleep; a send that was under way reads its room from
    the block that is gone; and a receive takes the end of the stream for the error. Where the block goes while nothing
    of this is under way, the calls on the socket end as they should. -/

namespace Orthox.Sockets.Calls
open Schemes Function Option

variable {T : Type}

/-- The slot of the call a task is in. -/
def Phase.kind : Phase → Option Slot
  | .out | .back _ => none
  | .head c | .marked c | .registered c | .yielded c => some c.slot
  | .writing .. | .flushing .. => some .tx

/-- The call sends or receives. -/
def Phase.transfers (p : Phase) : Prop := p.kind = some .rx ∨ p.kind = some .tx

/-- The fields that say how a connection stands. -/
def Sock.link (k : Sock) : Bool × Bool × Bool × Err := (k.pcb, k.connecting, k.connected, k.rx.error)

/-- An attempt to connect is under way, has succeeded or has failed with an error. -/
def Sock.Told (k : Sock) : Prop := k.connecting = true ∨ k.connected = true ∨ k.rx.error ≠ .ok

variable {p : Phase}

/-- Who is in no call neither sends nor receives. -/
theorem not_transfers (h : p.kind = none) : ¬ p.transfers := by
  rw [Phase.transfers, h]
  rintro (h' | h') <;> cases h'

variable [DecidableEq T]

/-- Once the block is gone no attempt is under way; a connect sleeps only while its attempt is under way, and returns
    the error of an attempt that failed; sends and receives return errors; and no call has used a block that is gone. -/
structure Completes (s : Sys T) : Prop where
  cleared : s.sock.pcb = false → s.sock.connecting = false
  awake : ∀ {t}, s.asleep t = true → s.phase t = .yielded .connect → s.sock.connecting = true
  fails : ∀ {t} env, s.phase t = .head .connect → s.sock.connecting = false → s.sock.connected = false →
    0 < socketErrnoFromLwip s.sock.rx.error ∧
      s.sock.head env .connect = (s.sock, .goto (.back (-socketErrnoFromLwip s.sock.rx.error)))
  sends : s.sock.pcb = false → ∀ {t len nonblock s'}, s.step (.send t len nonblock) = some s' →
    ∃ e > 0, s'.phase t = .back (-e)
  transfers : s.sock.pcb = false → ∀ {t c} env, s.phase t = .head c → c.slot = .rx ∨ c.slot = .tx →
    ∃ e > 0, (s.sock.head env c).2 = .goto (.back (-e))
  safe : s.fault = false

/-- The block goes only while no attempt to connect is under way and nobody sends or receives; nobody receives on a
    socket whose block is gone; and the error of a failed attempt is not cleared before its connect has returned. -/
def Orderly (s : Sys T) (e : Ev T) : Prop :=
  AttendedAt .connect s e ∧ match e with
  | .callback (.err _) => s.sock.connecting = false ∧ ∀ t, ¬ (s.phase t).transfers
  | .recv .. => s.sock.pcb = true
  | .soError _ => s.sock.connecting = true ∨ s.sock.connected = true ∨ ∀ t, (s.phase t).kind ≠ some .connect
  | _ => True

/-! ### The invariant -/

structure Sound (s : Sys T) : Prop where
  cleared : s.sock.pcb = false → s.sock.connecting = false
  idle : s.sock.pcb = false → ∀ t, ¬ (s.phase t).transfers
  told : ∀ {t}, (s.phase t).kind = some .connect → s.sock.Told
  safe : s.fault = false

variable {s s' : Sys T} {t : T}

theorem Sound.completes (h : Sound s) (hinv : Inv .connect s) : Completes s := by
  refine ⟨h.cleared, fun ha hp => ?_, fun {t} env hp hing hed => ?_, fun hpcb t len nonblock s' hs => ?_,
    fun hpcb t c env hp hc => ?_, h.safe⟩
  · exact Bool.not_eq_false' .. ▸ hinv.wait ha hp rfl
  · have herror : s.sock.rx.error ≠ .ok := by
      rcases h.told (by rw [hp]; rfl) with h' | h' | h'
      · exact absurd (h'.symm.trans hing) Bool.noConfusion
      · exact absurd (h'.symm.trans hed) Bool.noConfusion
      · exact h'
    refine ⟨socketErrnoFromLwip_pos herror, ?_⟩
    rw [Sock.head, hing, hed]
    rfl
  · obtain ⟨-, hs⟩ := ite_none_right_eq_some.mp hs
    refine ⟨enotconn, by decide, ?_⟩
    rw [← some.inj hs, hpcb]
    exact update_self ..
  · exact absurd (by rw [hp]; exact hc.imp (congrArg some) (congrArg some)) (h.idle hpcb t)

/-! ### Steps of a task -/

/-- One task moves and the connection stays as it is. -/
theorem Sound.own (h : Sound s) (hphase : s'.phase = update s.phase t p)
    (hlink : s'.sock.link = s.sock.link) (hfault : s'.fault = s.fault)
    (hidle : s.sock.pcb = false → ¬ p.transfers) (htold : p.kind = some .connect → s.sock.Told) : Sound s' := by
  simp only [Sock.link, Prod.mk.injEq] at hlink
  obtain ⟨hpcb, hing, hed, herror⟩ := hlink
  have htold' : s.sock.Told → s'.sock.Told := by
    rw [Sock.Told, Sock.Told, hing, hed, herror]
    exact id
  refine ⟨?_, fun hgone u => ?_, fun {u} hu => htold' ?_, hfault.trans h.safe⟩
  · rw [hpcb, hing]
    exact h.cleared
  · rw [hpcb] at hgone
    rw [hphase]
    rcases eq_or_ne u t with rfl | hut
    · rw [update_self]
      exact hidle hgone
    · rw [update_of_ne hut]
      exact h.idle hgone u
  · rw [hphase] at hu
    rcases eq_or_ne u t with rfl | hut
    · rw [update_self] at hu
      exact htold hu
    · rw [update_of_ne hut] at hu
      exact h.told hu

/-- A task goes on in its call, or ends it. -/
theorem Sound.goOn (h : Sound s) (hphase : s'.phase = update s.phase t p)
    (hlink : s'.sock.link = s.sock.link) (hfault : s'.fault = s.fault)
    (hkind : p.kind = (s.phase t).kind ∨ p.kind = none) : Sound s' := by
  refine h.own hphase hlink hfault (fun hgone htransfers => ?_) fun hconnect => ?_
  · rcases hkind with hk | hk
    · rw [Phase.transfers, hk] at htransfers
      exact h.idle hgone t htransfers
    · exact not_transfers hk htransfers
  · rcases hkind with hk | hk
    · exact h.told (hk ▸ hconnect)
    · rw [hk] at hconnect
      cases hconnect

/-- Where an access of a call may lead. -/
def Outcome.Within (k : Sock) (l : Slot) : Outcome → Prop
  | .goto p => p.kind = some l ∨ p.kind = none
  | .sleep => True
  | .fault => l = .tx ∧ k.pcb = false

/-- An access of a call leaves the connection as it is. -/
def Keeps (k : Sock) (l : Slot) (r : Sock × Outcome) : Prop := r.1.link = k.link ∧ r.2.Within k l

theorem Sound.settle (h : Sound s) {c : Call} (hkind : (s.phase t).kind = some c.slot) {r : Sock × Outcome}
    (hkeeps : Keeps s.sock c.slot r) : Sound (s.settle t c r) := by
  obtain ⟨k, o⟩ := r
  obtain ⟨hlink, hwithin⟩ := hkeeps
  cases o with
  | goto p => exact h.goOn rfl hlink rfl (hkind ▸ hwithin)
  | sleep => exact h.goOn rfl hlink rfl (.inl hkind.symm)
  | fault => exact absurd (.inr (hwithin.1 ▸ hkind)) (h.idle hwithin.2 t)

theorem take_link (k : Sock) (len : Nat) : (k.take len).1.link = k.link := by
  rw [Sock.take]
  split
  · rfl
  · split <;> rfl

theorem head_keeps (k : Sock) (env : Env) (c : Call) : Keeps k c.slot (k.head env c) := by
  cases c with
  | recv len nonblock =>
    rw [Sock.head]
    split_ifs
    · exact ⟨take_link k len, .inr rfl⟩
    · exact ⟨rfl, .inr rfl⟩
    · exact ⟨rfl, .inr rfl⟩
    · exact ⟨rfl, trivial⟩
  | send len sent nonblock =>
    unfold Sock.head
    dsimp only
    split_ifs with hdone hgone hroom
    · exact ⟨rfl, .inr rfl⟩
    · exact ⟨rfl, rfl, hgone⟩
    · exact ⟨rfl, .inr rfl⟩
    · exact ⟨rfl, .inr rfl⟩
    · exact ⟨rfl, trivial⟩
    · exact ⟨rfl, .inl rfl⟩
  | connect =>
    rw [Sock.head]
    split
    · exact ⟨rfl, trivial⟩
    · exact ⟨rfl, .inr rfl⟩
  | accept nonblock =>
    unfold Sock.head
    dsimp only
    rcases eq_or_ne k.backlog 0 with hzero | hne
    · rw [if_pos hzero]
      cases nonblock
      · exact ⟨rfl, trivial⟩
      · exact ⟨rfl, .inr rfl⟩
    · rw [if_neg hne]
      cases env.fd <;> exact ⟨rfl, .inr rfl⟩

theorem write_keeps (k : Sock) (env : Env) (len sent : Nat) (chunk : UInt16) (nonblock : Bool) :
    Keeps k .tx (k.write env len sent chunk nonblock) := by
  unfold Sock.write
  rcases Bool.eq_false_or_eq_true k.pcb with hpcb | hpcb
  · rw [if_neg (by rw [hpcb]; exact Bool.noConfusion)]
    split
    · cases nonblock
      · exact ⟨rfl, trivial⟩
      · exact ⟨rfl, .inr rfl⟩
    · exact ⟨rfl, .inl rfl⟩
    · exact ⟨rfl, .inr rfl⟩
  · rw [if_pos hpcb]
    exact ⟨rfl, rfl, hpcb⟩

theorem flush_keeps (k : Sock) (env : Env) (len sent : Nat) (nonblock : Bool) :
    Keeps k .tx (k, k.flush env len sent nonblock) := by
  unfold Sock.flush
  split_ifs with hpcb
  · exact ⟨rfl, rfl, hpcb⟩
  split
  · exact ⟨rfl, .inl rfl⟩
  · exact ⟨rfl, .inr rfl⟩

section
variable (h : Sound s)
include h

/-- A task leaves its slot and goes back to the head of its loop. -/
theorem Sound.leave {c : Call} (hkind : (s.phase t).kind = some c.slot) (asleep : T → Bool) :
    Sound ({ s.clearWaiter c.slot t with asleep := asleep }.goto t (.head c)) := by
  refine h.goOn (p := .head c) ?_ ?_ (by dsimp only [Sys.goto, Sys.clearWaiter]; split_ifs <;> rfl) (.inl hkind.symm)
  · rw [Sys.goto, phase_clear]
  · rw [Sys.goto, sock_clear]

theorem Sound.go {env : Env} (hs : s.go t env = some s') : Sound s' := by
  rw [Sys.go] at hs
  cases hp : s.phase t with
  | out =>
    rw [hp] at hs
    cases hs
  | head c =>
    rw [hp] at hs
    exact some.inj hs ▸ h.settle (by rw [hp]; rfl) (head_keeps s.sock env c)
  | writing len sent chunk nonblock =>
    rw [hp] at hs
    exact some.inj hs ▸ h.settle (by rw [hp]; rfl) (write_keeps s.sock env len sent chunk nonblock)
  | flushing len sent nonblock =>
    rw [hp] at hs
    exact some.inj hs ▸ h.settle (by rw [hp]; rfl) (flush_keeps s.sock env len sent nonblock)
  | marked c =>
    rw [hp] at hs
    exact some.inj hs ▸ h.goOn rfl rfl rfl (.inl (by rw [hp]; rfl))
  | registered c =>
    rw [hp] at hs
    dsimp only at hs
    have hkind : (s.phase t).kind = some c.slot := by rw [hp]; rfl
    split_ifs at hs with hgone hready
    · exact absurd (.inr (hgone.1 ▸ hkind)) (h.idle hgone.2 t)
    · exact some.inj hs ▸ h.leave hkind _
    · exact some.inj hs ▸ h.goOn rfl rfl rfl (.inl hkind.symm)
  | yielded c =>
    rw [hp] at hs
    split_ifs at hs with hasleep
    exact some.inj hs ▸ h.leave (by rw [hp]; rfl) _
  | back value =>
    rw [hp] at hs
    exact some.inj hs ▸ h.goOn rfl rfl rfl (.inr rfl)

/-! ### Changes of the connection -/

omit [DecidableEq T] in
/-- A change of the connection under which the block stays. -/
theorem Sound.change {k : Sock} (hpcb : k.pcb = s.sock.pcb) (hcleared : k.pcb = false → k.connecting = false)
    (htold : (∃ t, (s.phase t).kind = some .connect) → s.sock.Told → k.Told) : Sound { s with sock := k } :=
  ⟨hcleared, fun hgone => h.idle (hpcb ▸ hgone), fun {t} ht => htold ⟨t, ht⟩ (h.told ht), h.safe⟩

/-- A task changes the connection so that a connect that waits is told how it went, and goes on. -/
theorem Sound.tell {k : Sock} (hpcb : k.pcb = s.sock.pcb)
    (hcleared : k.pcb = false → k.connecting = false) (htold : k.Told) (hidle : k.pcb = false → ¬ p.transfers) :
    Sound ({ s with sock := k }.goto t p) :=
  (h.change hpcb hcleared fun _ _ => htold).own rfl rfl rfl hidle fun _ => htold

/-- What `net_socket_connect` does before its loop. -/
theorem Sound.connect (t : T) (r : Err) : Sound ({ s with sock := (s.sock.connect r).1 }.goto t (s.sock.connect r).2) := by
  have hsame : ∀ v, Sound (s.goto t (.back v)) := fun v => h.goOn rfl rfl rfl (.inr rfl)
  unfold Sock.connect
  split_ifs with hstream hlisten hpcb hconn hr hr
  · exact hsame _
  · exact hsame _
  · exact hsame _
  · exact h.tell rfl (fun _ => rfl) (.inr (.inr hr)) fun _ => not_transfers rfl
  · exact h.tell rfl (fun hgone => absurd hgone hpcb) (.inl rfl) fun hgone => absurd hgone hpcb
  · exact hsame _
  · exact h.tell rfl h.cleared (.inr (.inl rfl)) fun _ => not_transfers rfl

end

/-- An error that was recorded stays or is replaced by another one. -/
theorem tcpStreamRecv_error (k : Stream.Socket) (p : Option Pbuf) (e : Err) (pages : Nat) (h : k.error ≠ .ok) :
    (Stream.tcpStreamRecv k p e pages).sock.error ≠ .ok := by
  unfold Stream.tcpStreamRecv
  split_ifs with he
  · exact he
  cases p with
  | none => exact h
  | some p =>
    dsimp only
    split_ifs
    · exact nofun
    · exact h

theorem wakeAll_rest (ls : List Slot) (s : Sys T) : (ls.foldl .wake s).phase = s.phase ∧ (ls.foldl .wake s).fault = s.fault := by
  induction ls generalizing s with
  | nil => exact ⟨rfl, rfl⟩
  | cons l ls ih => exact ih (s.wake l)

/-- Waking changes neither the connection nor where the tasks stand. -/
theorem Sound.wakeAll (h : Sound s) (ls : List Slot) : Sound (ls.foldl .wake s) := by
  obtain ⟨hphase, hfault⟩ := wakeAll_rest ls s
  refine ⟨?_, ?_, ?_, hfault.trans h.safe⟩
  · rw [wakeAll_same]
    exact h.cleared
  · rw [wakeAll_same, hphase]
    exact h.idle
  · rw [wakeAll_same, hphase]
    exact h.told

theorem Sound.callback (h : Sound s) {cb : Callback} (hok : Orderly s (.callback cb)) (hhears : s.sock.hears cb) :
    Sound (s.callback cb) := by
  refine wakeAll ?_ _
  cases cb with
  | connected e =>
    unfold Sock.callback
    dsimp only
    split_ifs with he
    · exact h.change rfl (fun _ => rfl) fun _ _ => .inr (.inr he)
    · exact h.change rfl (fun _ => rfl) fun _ _ => .inr (.inl rfl)
  | err e =>
    have he : e ≠ .ok := of_decide_eq_true (Bool.and_eq_true_iff.mp hhears).2
    exact ⟨fun _ => hok.2.1, fun _ => hok.2.2, fun _ => .inr (.inr he), h.safe⟩
  | received p e pages =>
    refine h.change rfl h.cleared fun _ htold => ?_
    exact htold.imp_right (.imp_right (tcpStreamRecv_error s.sock.rx p e pages))
  | sent | datagram => exact h.change rfl h.cleared fun _ => id
  | accepted page =>
    cases page with
    | true => exact h.change rfl h.cleared fun _ => id
    | false => exact h

theorem Sound.step (h : Sound s) {e : Ev T} (hok : Orderly s e) (hs : s.step e = some s') : Sound s' := by
  cases e with
  | recv t len nonblock =>
    obtain ⟨-, hs⟩ := ite_none_right_eq_some.mp hs
    have hpcb : s.sock.pcb := hok.2
    refine some.inj hs ▸ h.own rfl rfl rfl (fun hgone => ?_) nofun
    exact absurd (hpcb.symm.trans hgone) Bool.noConfusion
  | send t len nonblock =>
    obtain ⟨-, hs⟩ := ite_none_right_eq_some.mp hs
    rw [← some.inj hs]
    rcases hpcb : s.sock.pcb with - | -
    · exact h.goOn rfl rfl rfl (.inr rfl)
    · refine h.own rfl rfl rfl (fun hgone => ?_) nofun
      exact absurd (hpcb.symm.trans hgone) Bool.noConfusion
  | connect t r =>
    obtain ⟨-, rfl⟩ := guarded hs
    exact h.connect t r
  | listen t r =>
    obtain ⟨-, rfl⟩ := guarded hs
    exact h.change rfl h.cleared fun _ => id
  | accept t nonblock =>
    obtain ⟨-, rfl⟩ := guarded hs
    refine h.own rfl rfl rfl (fun _ htransfers => ?_) nofun
    rcases htransfers with h' | h' <;> cases h'
  | soError t =>
    obtain ⟨-, rfl⟩ := guarded hs
    refine h.change rfl h.cleared ?_
    rintro ⟨u, hu⟩ -
    rcases hok.2 with hing | hed | hnone
    · exact .inl hing
    · exact .inr (.inl hed)
    · exact absurd hu (hnone u)
  | go t env => exact h.go hs
  | rouse t => exact some.inj hs ▸ ⟨h.cleared, h.idle, h.told, h.safe⟩
  | callback cb =>
    obtain ⟨hhears, rfl⟩ := guarded hs
    exact h.callback hok hhears

/-! ### Runs -/

/-- CORRECT where the block goes between the calls: in every run in which no attempt to connect, send or receive is
    under way when the block goes, every connect completes and no call uses the block. -/
theorem connect_completes (h : Reaches Orderly s) : Completes s := by
  have hsound : Sound s := by
    induction h with
    | fresh h =>
      cases h <;> exact ⟨fun _ => rfl, nofun, nofun, rfl⟩
    | step _ hok hs ih => exact ih.step hok hs
  exact hsound.completes (h.inv And.left)

/-- A connection that nobody uses is reset. -/
theorem connect_completes_reset :
    ∃ s : Sys Unit, (Sys.start .child).run [.callback (.err .rst)] = some s ∧ s.sock.pcb = false ∧ Completes s := by
  have horderly : Orderly (.start .child : Sys Unit) (.callback (.err .rst)) := ⟨trivial, rfl, fun _ => not_transfers rfl⟩
  exact ⟨_, rfl, rfl, connect_completes (.step (.fresh .child) horderly rfl)⟩

/-- A connect sleeps, the peer refuses, and the connect goes round its loop. -/
def refused : List (Ev Unit) :=
  [.connect () .ok, .go () .idle, .go () .idle, .go () .idle, .callback (.err .rst),
   .go () .idle, .go () .idle, .go () .idle, .go () .idle]

/-- The peer resets the connection between the two reads of a send. -/
def resetInSend : List (Ev Unit) := [.send () 1 false, .go () .idle, .callback (.err .rst), .go () .idle]

/-- INCORRECT in general: the connect sleeps again on a socket whose block is gone, where nothing will wake it; and a
    send uses the block that is gone. -/
theorem refused_connect_sleeps : (∃ s : Sys Unit, Reaches (fun _ _ => True) s ∧ (Sys.start (.fresh true)).run refused = some s ∧
      s.sock.pcb = false ∧ s.sock.connecting = true ∧ s.asleep () = true ∧ s.phase () = .yielded .connect ∧ ¬ Completes s) ∧
    ∃ s : Sys Unit, Reaches (fun _ _ => True) s ∧ (Sys.start .child).run resetInSend = some s ∧ s.fault = true ∧
      ¬ Completes s := by
  refine ⟨⟨_, run_reaches refused (.fresh (.new true)) (meets_true _ _) rfl, rfl, rfl, rfl, rfl, rfl, fun h => ?_⟩,
    ⟨_, run_reaches resetInSend (.fresh .child) (meets_true _ _) rfl, rfl, rfl, fun h => ?_⟩⟩
  · exact absurd (h.cleared rfl) Bool.noConfusion
  · exact absurd h.safe Bool.noConfusion

end Orthox.Sockets.Calls
