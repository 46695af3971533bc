import Orthox.Sockets.Backend

/-! `socket_send_stream` of `kernel/net_socket.c`. A turn of its loop asks lwIP for the room in the send buffer, offers the next
    bytes to `tcp_write` and goes on, or waits for room. The number of bytes offered is the rest of the request cut to sixteen
    bits, and the room is read a second time before the task sleeps. The bytes that `tcp_write` took are always the first ones
    of the buffer; a turn is idle when the rest is a multiple of 65536 or when the second reading finds room. -/

namespace Orthox.Sockets
open List

/-! ### One turn -/

/-- What lwIP answers in one turn: `tcp_sndbuf` at its head and before sleeping, `tcp_write` and `tcp_output`. -/
structure Answers where
  wnd : UInt16
  again : UInt16
  write : Err
  output : Err

/-- Where a turn leads. -/
inductive Next where
  | loop
  | sleep
  | ret (value : Int)
deriving DecidableEq

/-- The bytes `tcp_write` took in a turn, and where the turn leads. -/
structure Turn where
  handed : Nat
  next : Next
deriving DecidableEq

/-- `socket_send_error` -/
def socketSendError (e : Err) (sent : Nat) : Int := if sent ≠ 0 then sent else -socketErrnoFromLwip e

/-- A socket that may not wait answers at once; another sleeps unless there is room by now. -/
def waitRoom (nonblock : Bool) (sent : Nat) (again : UInt16) : Turn :=
  if nonblock then ⟨0, .ret (if sent ≠ 0 then sent else -eagain)⟩
  else if again ≠ 0 then ⟨0, .loop⟩
  else ⟨0, .sleep⟩

/-- How many bytes are offered to `tcp_write`: the rest as a `uint16_t`, at most the room. -/
def chunkOf (len sent : Nat) (wnd : UInt16) : UInt16 :=
  if UInt16.ofNat (len - sent) > wnd then wnd else UInt16.ofNat (len - sent)

/-- One turn of the loop with `sent` bytes sent so far. -/
def sendTurn (nonblock : Bool) (len sent : Nat) (a : Answers) : Turn :=
  if a.wnd = 0 then waitRoom nonblock sent a.again
  else
    let chunk := chunkOf len sent a.wnd
    match a.write with
    | .mem => waitRoom nonblock sent a.again
    | .ok =>
      match a.output with
      | .ok => ⟨chunk.toNat, .loop⟩
      | e => ⟨chunk.toNat, .ret (socketSendError e (sent + chunk.toNat))⟩
    | e => ⟨0, .ret (socketSendError e sent)⟩

/-! ### The call -/

/-- A call in progress: the bytes sent, the bytes lwIP took so far, and the value once it has returned. -/
structure Sending where
  sent : Nat
  handed : List UInt8
  value : Option Int
deriving DecidableEq

/-- The head of the loop: everything is sent, or there is one more turn. -/
def Sending.head (buf : List UInt8) (s : Sending) : Sending :=
  if s.sent < buf.length then s else { s with value := some s.sent }

/-- `socket_send_stream` on a socket with a protocol block, before its first turn. -/
def Sending.start (buf : List UInt8) : Sending := Sending.head buf ⟨0, [], none⟩

/-- The effect of a turn on the call. -/
def Sending.after (buf : List UInt8) (s : Sending) (t : Turn) : Sending :=
  let s' : Sending := ⟨s.sent + t.handed, s.handed ++ (buf.drop s.sent).take t.handed, s.value⟩
  match t.next with
  | .ret v => { s' with value := some v }
  | _ => s'.head buf

/-- A turn of the call; nothing happens any more after it has returned. -/
def Sending.turn (nonblock : Bool) (buf : List UInt8) (s : Sending) (a : Answers) : Sending :=
  if s.value.isSome then s else s.after buf (sendTurn nonblock buf.length s.sent a)

/-- The call after the turns with the given answers. -/
def Sending.run (nonblock : Bool) (buf : List UInt8) : Sending → List Answers → Sending
  | s, [] => s
  | s, a :: answers => Sending.run nonblock buf (s.turn nonblock buf a) answers

/-! ### What is asked of the call -/

/-- The turn hands over a byte, sleeps or returns. -/
def Turn.Productive (t : Turn) : Prop := 0 < t.handed ∨ t.next = .sleep ∨ ∃ v, t.next = .ret v

/-- Every turn the call makes with these answers is productive. -/
def AllProductive (nonblock : Bool) (buf : List UInt8) : Sending → List Answers → Prop
  | _, [] => True
  | s, a :: answers =>
    (s.value = none → (sendTurn nonblock buf.length s.sent a).Productive) ∧
      AllProductive nonblock buf (s.turn nonblock buf a) answers

/-- The value says exactly which bytes were handed over, an error that there were none. -/
def Sending.Exact (buf : List UInt8) (s : Sending) : Prop :=
  ∀ v ∈ s.value, (0 ≤ v → v ≤ buf.length ∧ s.handed = buf.take v.toNat) ∧ (v < 0 → s.handed = [])

/-- There is something to offer, and no room at the second look. -/
def Able (nonblock : Bool) (len sent : Nat) (a : Answers) : Prop :=
  (a.wnd = 0 ∨ a.write = .mem → nonblock = true ∨ a.again = 0) ∧
    (a.wnd ≠ 0 → a.write = .ok → a.output = .ok → (len - sent) % 2 ^ 16 ≠ 0)

/-- The turns the call makes with these answers all meet the condition. -/
def AllAble (nonblock : Bool) (buf : List UInt8) : Sending → List Answers → Prop
  | _, [] => True
  | s, a :: answers =>
    (s.value = none → Able nonblock buf.length s.sent a) ∧ AllAble nonblock buf (s.turn nonblock buf a) answers

/-! ### Progress -/

theorem waitRoom_productive (nonblock : Bool) (sent : Nat) (again : UInt16) :
    (waitRoom nonblock sent again).Productive ↔ nonblock ∨ again = 0 := by
  cases nonblock with
  | true => exact ⟨fun _ => .inl rfl, fun _ => .inr (.inr ⟨_, rfl⟩)⟩
  | false =>
    rcases eq_or_ne again 0 with rfl | hroom
    · exact ⟨fun _ => .inr rfl, fun _ => .inr (.inl rfl)⟩
    rw [waitRoom, if_pos hroom]
    refine ⟨?_, fun h => absurd (h.resolve_left nofun) hroom⟩
    rintro (h | h | ⟨v, h⟩) <;> cases h

/-- With room in the send buffer, something is offered unless the rest is a multiple of 65536. -/
theorem chunkOf_pos {len sent : Nat} {wnd : UInt16} (hwnd : wnd ≠ 0) :
    0 < (chunkOf len sent wnd).toNat ↔ (len - sent) % 2 ^ 16 ≠ 0 := by
  have hpos : 0 < wnd.toNat := Nat.pos_of_ne_zero fun h => hwnd (UInt16.toNat_inj.mp h)
  have hrest : (UInt16.ofNat (len - sent)).toNat = (len - sent) % 2 ^ 16 := UInt16.toNat_ofNat'
  rw [chunkOf]
  split_ifs with hgt
  · have : wnd.toNat < (UInt16.ofNat (len - sent)).toNat := UInt16.lt_iff_toNat_lt.mp hgt
    exact ⟨fun _ => by omega, fun _ => hpos⟩
  · rw [hrest, Nat.pos_iff_ne_zero]

theorem sendTurn_productive (nonblock : Bool) (len sent : Nat) (a : Answers) :
    (sendTurn nonblock len sent a).Productive ↔ Able nonblock len sent a := by
  obtain ⟨wnd, again, write, output⟩ := a
  rw [sendTurn]
  rcases eq_or_ne wnd 0 with rfl | hwnd
  · rw [if_pos rfl, waitRoom_productive]
    exact ⟨fun h => ⟨fun _ => h, fun h => absurd rfl h⟩, fun h => h.1 (.inl rfl)⟩
  have hret n v : Turn.Productive ⟨n, .ret v⟩ := .inr (.inr ⟨v, rfl⟩)
  have hloop : Turn.Productive ⟨(chunkOf len sent wnd).toNat, .loop⟩ ↔ (len - sent) % 2 ^ 16 ≠ 0 := by
    rw [← chunkOf_pos hwnd]
    refine ⟨?_, .inl⟩
    rintro (h | h | ⟨v, h⟩)
    · exact h
    · cases h
    · cases h
  rw [if_neg hwnd]
  cases write with
  | mem =>
    rw [waitRoom_productive]
    exact ⟨fun h => ⟨fun _ => h, nofun⟩, fun h => h.1 (.inr rfl)⟩
  | ok => cases output with
    | ok =>
      refine ⟨fun h => ⟨(Or.elim · (absurd · hwnd) nofun), fun _ _ _ => hloop.mp h⟩, fun h => ?_⟩
      exact hloop.mpr (h.2 hwnd rfl rfl)
    | _ => exact ⟨fun _ => ⟨(Or.elim · (absurd · hwnd) nofun), nofun⟩, fun _ => hret _ _⟩
  | _ => exact ⟨fun _ => ⟨(Or.elim · (absurd · hwnd) nofun), nofun⟩, fun _ => hret _ _⟩

/-! ### Exactness -/

/-- What holds between two turns: the bytes handed over are the first `sent` ones, and so says the value. -/
structure Sending.Good (buf : List UInt8) (s : Sending) : Prop where
  within : s.sent ≤ buf.length
  handed : s.handed = buf.take s.sent
  value : ∀ v ∈ s.value, v = s.sent ∨ v < 0 ∧ s.sent = 0

variable {s : Sending} {nonblock : Bool} {buf : List UInt8}

theorem Sending.Good.exact (h : s.Good buf) : s.Exact buf := by
  have hwithin := h.within
  intro v hv
  rcases h.value v hv with rfl | ⟨hneg, hzero⟩
  · exact ⟨fun _ => ⟨by omega, h.handed⟩, fun hneg => absurd hneg (by omega)⟩
  · refine ⟨fun hpos => absurd hneg (by omega), fun _ => ?_⟩
    rw [h.handed, hzero, take_zero]

theorem Sending.Good.head (h : s.Good buf) : (s.head buf).Good buf := by
  rw [Sending.head]
  split_ifs
  · exact h
  refine ⟨h.within, h.handed, ?_⟩
  rintro _ ⟨⟩
  exact .inl rfl

theorem Sending.good_start (buf : List UInt8) : (Sending.start buf).Good buf :=
  Sending.Good.head ⟨Nat.zero_le _, rfl, nofun⟩

/-- A value that is the count of the bytes sent, or an error when there are none. -/
theorem sent_or_error {n : Nat} {e : Int} (he : 0 < e) :
    (if n ≠ 0 then (n : Int) else -e) = n ∨ (if n ≠ 0 then (n : Int) else -e) < 0 ∧ n = 0 := by
  rcases eq_or_ne n 0 with rfl | hn
  · exact .inr ⟨by rw [if_neg (not_not_intro rfl)]; omega, rfl⟩
  · exact .inl (if_pos hn)

/-- A turn offers no more than the rest, and a value it returns counts what is handed over with it. -/
theorem sendTurn_within (nonblock : Bool) {len sent : Nat} (a : Answers) (h : sent ≤ len) :
    sent + (sendTurn nonblock len sent a).handed ≤ len ∧ ∀ v, (sendTurn nonblock len sent a).next = .ret v →
        v = (sent + (sendTurn nonblock len sent a).handed : Nat) ∨ v < 0 ∧ sent + (sendTurn nonblock len sent a).handed = 0 := by
  have hwait : sent + (waitRoom nonblock sent a.again).handed ≤ len ∧
      ∀ v, (waitRoom nonblock sent a.again).next = .ret v → v = (sent + (waitRoom nonblock sent a.again).handed : Nat) ∨
          v < 0 ∧ sent + (waitRoom nonblock sent a.again).handed = 0 := by
    rw [waitRoom]
    cases nonblock with
    | true =>
      refine ⟨h, ?_⟩
      rintro v ⟨⟩
      exact sent_or_error (by decide)
    | false =>
      rcases eq_or_ne a.again 0 with hz | hz
      · rw [if_neg (not_not_intro hz)]
        exact ⟨h, nofun⟩
      · rw [if_pos hz]
        exact ⟨h, nofun⟩
  have hchunk : (chunkOf len sent a.wnd).toNat ≤ len - sent := by
    have hrest : (UInt16.ofNat (len - sent)).toNat = (len - sent) % 2 ^ 16 := UInt16.toNat_ofNat'
    rw [chunkOf]
    split_ifs with hgt
    · have := UInt16.lt_iff_toNat_lt.mp hgt
      omega
    · omega
  have herr n {e : Err} he : socketSendError e n = n ∨ socketSendError e n < 0 ∧ n = 0 :=
    sent_or_error (socketErrnoFromLwip_pos he)
  rw [sendTurn]
  split_ifs
  · exact hwait
  split
  · exact hwait
  · split
    · exact ⟨by dsimp only; omega, nofun⟩
    rename_i he
    refine ⟨by dsimp only; omega, ?_⟩
    rintro v ⟨⟩
    exact herr _ he
  · rename_i he
    refine ⟨h, ?_⟩
    rintro v ⟨⟩
    exact herr sent he

theorem Sending.Good.turn (h : s.Good buf) (a : Answers) : (s.turn nonblock buf a).Good buf := by
  rw [Sending.turn]
  split_ifs with hv
  · exact h
  obtain ⟨hwithin, hvalue⟩ := sendTurn_within nonblock a h.within
  have hhanded : s.handed ++ (buf.drop s.sent).take (sendTurn nonblock buf.length s.sent a).handed =
      buf.take (s.sent + (sendTurn nonblock buf.length s.sent a).handed) := by
    rw [h.handed, take_add]
  have hnone : s.value = none := Option.not_isSome_iff_eq_none.mp hv
  rw [after]
  split
  · rename_i v hnext
    refine ⟨hwithin, hhanded, ?_⟩
    rintro _ ⟨⟩
    exact hvalue v hnext
  · refine Sending.Good.head ⟨hwithin, hhanded, ?_⟩
    rw [hnone]
    exact nofun

/-- The bytes handed over are the first ones at every point of a call. -/
theorem Sending.Good.run (answers : List Answers) : ∀ {s : Sending}, s.Good buf → (s.run nonblock buf answers).Good buf := by
  induction answers with
  | nil => exact id
  | cons a answers ih => exact fun h => ih (h.turn a)

theorem allProductive_iff (nonblock : Bool) (buf : List UInt8) (answers : List Answers) :
    ∀ s : Sending, AllProductive nonblock buf s answers ↔ AllAble nonblock buf s answers := by
  induction answers with
  | nil => exact fun _ => .rfl
  | cons a answers ih =>
    intro s
    rw [AllProductive, AllAble, ih, sendTurn_productive]

/-- CORRECT exactly where every turn finds something to offer and no room at a second look: with any answers of lwIP
    each turn hands over a byte, sleeps or returns. The value is exact in every case. -/
theorem send_productive_and_exact (nonblock : Bool) (buf : List UInt8) (answers : List Answers) :
    AllProductive nonblock buf (.start buf) answers ∧ ((Sending.start buf).run nonblock buf answers).Exact buf ↔
      AllAble nonblock buf (.start buf) answers := by
  rw [allProductive_iff]
  exact ⟨And.left, fun h => ⟨h, ((Sending.good_start buf).run answers).exact⟩⟩

/-! ### A request of 65536 bytes -/

/-- Room for four segments, and lwIP takes what it is offered. -/
def roomy : Answers := ⟨5840, 5840, .ok, .ok⟩

section
variable {buf : List UInt8}

section
variable (hlen : buf.length = 65536)
include hlen

theorem start_of_65536 : Sending.start buf = ⟨0, [], none⟩ := by
  rw [Sending.start, Sending.head, hlen]
  rfl

theorem turn_of_65536 : sendTurn false buf.length 0 roomy = ⟨0, .loop⟩ := by
  rw [hlen]
  decide

/-- However many turns the call makes, it has sent nothing and goes on. -/
theorem run_of_65536 (n : Nat) : Sending.run false buf ⟨0, [], none⟩ (replicate n roomy) = ⟨0, [], none⟩ := by
  have hsame : Sending.turn false buf ⟨0, [], none⟩ roomy = ⟨0, [], none⟩ := by
    rw [Sending.turn, Sending.after, Sending.head, hlen]
    rfl
  induction n with
  | zero => rfl
  | succ n ih => rw [replicate_succ, Sending.run, hsame, ih]

end

end

/-- INCORRECT in general: of 65536 bytes the first turn offers none, and so do all the others. -/
theorem send_of_65536_spins : ¬ AllProductive false (replicate 65536 0) (.start (replicate 65536 0)) [roomy] ∧
      ∀ n, (Sending.start (replicate 65536 0)).run false (replicate 65536 0) (replicate n roomy) =
        ⟨0, [], none⟩ := by
  have hlen : (replicate 65536 (0 : UInt8)).length = 65536 := length_replicate
  rw [start_of_65536 hlen]
  refine ⟨fun h => ?_, run_of_65536 hlen⟩
  have hfirst := h.1 rfl
  rw [turn_of_65536 hlen] at hfirst
  rcases hfirst with h | h | ⟨v, h⟩ <;> cases h

end Orthox.Sockets
