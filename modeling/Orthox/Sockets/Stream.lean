import Orthox.Sockets.Backend

/-! The receiving side of a TCP socket of `kernel/net_socket.c`, with what lwIP does around it. lwIP passes each
    segment to `tcp_stream_recv`, which copies it into the receive queue, reopens the window and frees the packet;
    when a page is missing it frees the packet too and answers `ERR_MEM`. lwIP keeps a segment for another try only
    if the callback answered an error and did not take the packet. A receive takes bytes from the queue. -/

namespace Orthox.Sockets.Stream
open List Option

/-- `TCP_WND` of `lwipopts.h` -/
def tcpWnd : Nat := 4 * 1460

/-- The fields of a socket the receiving side uses. -/
structure Socket where
  queue : List Chunk
  eof : Bool
  error : Err
deriving DecidableEq

/-- What a callback leaves behind: the socket, its answer to lwIP, whether it freed the packet, and the bytes it told
    `tcp_recved`. -/
structure Reply where
  sock : Socket
  err : Err
  freed : Bool
  recved : Nat

/-- TCP nodes have no sender. -/
def noSender : Sender := ⟨none, 0⟩

/-- `tcp_stream_recv` on a socket, with the number of pages that are free; without a packet the peer has closed. -/
def tcpStreamRecv (sock : Socket) (p : Option Pbuf) (err : Err) (pages : Nat) : Reply :=
  if err ≠ .ok then ⟨{ sock with error := err }, err, true, 0⟩
  else match p with
  | none => ⟨{ sock with eof := true }, .ok, false, 0⟩
  | some p =>
    let (queue, ok) := queuePbufData sock.queue p noSender pages
    if ok = false then ⟨{ sock with queue := queue, error := .mem }, .mem, true, 0⟩
    else ⟨{ sock with queue := queue }, .ok, true, p.payload.length⟩

/-! ### The socket under lwIP -/

/-- A connection: the socket, lwIP's receive window and the segment it keeps for another try. The history is what the
    peer's segments carried and what the receives returned; `deferred` is the window there would be if `tcp_recved`
    were told of the bytes that were read, which no code keeps. -/
structure Conn where
  sock : Socket
  rcvWnd : Nat
  refused : Option Pbuf
  delivered : List UInt8
  got : List UInt8
  deferred : Nat

/-- What happens to a connection. -/
inductive Ev where
  /-- lwIP passes the next segment of the peer, while so many pages are free. -/
  | segment (p : Pbuf) (pages : Nat)
  /-- lwIP passes the segment it kept. -/
  | again (pages : Nat)
  | close
  | receive (len : Nat)

namespace Conn

/-- An established connection on which nothing was received. -/
def established : Conn := ⟨⟨[], false, .ok⟩, tcpWnd, none, [], [], tcpWnd⟩

/-- lwIP calls the receive callback and keeps the packet if it is still its own; `tcp_recved` reopens the window. -/
def offer (c : Conn) (p : Pbuf) (pages : Nat) : Conn :=
  let r := tcpStreamRecv c.sock (some p) .ok pages
  { c with
    sock := r.sock
    rcvWnd := min tcpWnd (c.rcvWnd + r.recved)
    refused := if r.err ≠ .ok ∧ r.freed = false then some p else none }

/-- A segment within the window is accepted and offered to the socket. -/
def segment (c : Conn) (p : Pbuf) (pages : Nat) : Conn :=
  { c with
    rcvWnd := c.rcvWnd - p.payload.length
    delivered := c.delivered ++ p.payload
    deferred := c.deferred - p.payload.length }.offer p pages

/-- `socket_recv_stream` -/
def receive (c : Conn) (len : Nat) : Conn :=
  { c with
    sock := { c.sock with queue := (recvLoop len c.sock.queue).2 }
    got := c.got ++ (recvLoop len c.sock.queue).1
    deferred := c.deferred + (recvLoop len c.sock.queue).1.length }

/-- The effect of an event; `none` when it cannot happen. New segments wait for the one that was kept. -/
def step (c : Conn) : Ev → Option Conn
  | .segment p pages => if c.refused = none ∧ p.payload.length ≤ c.rcvWnd then some (c.segment p pages) else none
  | .again pages => c.refused.map fun p => c.offer p pages
  | .close => some { c with sock := (tcpStreamRecv c.sock none .ok 0).sock }
  | .receive len => some (c.receive len)

/-- The run of a list of events. -/
def run (c : Conn) : List Ev → Option Conn
  | [] => some c
  | e :: es => (c.step e).bind fun c' => c'.run es

end Conn

/-- The states of a connection after events that all meet a condition. -/
inductive Reaches (ok : Conn → Ev → Prop) : Conn → Prop where
  | established : Reaches ok .established
  | step {c c' : Conn} {e : Ev} (h : Reaches ok c) (hok : ok c e) (hs : c.step e = some c') : Reaches ok c'

theorem run_reaches {ok : Conn → Ev → Prop} (hok : ∀ c e, ok c e) (es : List Ev) :
    ∀ {c c' : Conn}, Reaches ok c → c.run es = some c' → Reaches ok c' := by
  induction es with
  | nil =>
    rintro c c' h ⟨⟩
    exact h
  | cons e es ih =>
    intro c c' h hrun
    obtain ⟨c₁, hstep, hrest⟩ := bind_eq_some_iff.mp hrun
    exact ih (h.step (hok c e) hstep) hrest

/-! ### What the callback does -/

/-- A packet is queued as a whole exactly if there are pages for all its bytes. -/
theorem queueLoop_ok (sender : Sender) (bytes : List UInt8) (pages : Nat) :
    (queueLoop sender bytes pages).2 ↔ bytes.length ≤ pages * chunkSize := by
  induction pages generalizing bytes with
  | zero => cases bytes with
    | nil | cons => simp [queueLoop]
  | succ pages ih => cases bytes with
    | nil => simp [queueLoop]
    | cons b bytes =>
      have hrest := ih ((b :: bytes).drop chunkSize)
      rw [length_drop] at hrest
      refine hrest.trans ?_
      rw [Nat.succ_mul]
      omega

/-- The callback queues what there are pages for and frees the packet in every case. -/
theorem tcpStreamRecv_packet (sock : Socket) (p : Pbuf) (pages : Nat) :
    (tcpStreamRecv sock (some p) .ok pages).sock.queue = sock.queue ++ (queueLoop noSender p.payload pages).1 ∧
      (tcpStreamRecv sock (some p) .ok pages).freed := by
  rw [tcpStreamRecv]
  rcases hloop : queueLoop noSender p.payload pages with ⟨queue, ok⟩
  cases ok <;> simp [queuePbufData, hloop]

/-- What a packet adds to the queue is its beginning, and all of it if the pages are there; lwIP never keeps it. -/
theorem offer_cases (c : Conn) (p : Pbuf) (pages : Nat) :
    ∃ queue, contents queue <+: p.payload ∧ (p.payload.length ≤ pages * chunkSize → contents queue = p.payload) ∧
      (c.offer p pages).sock.queue = c.sock.queue ++ queue ∧ (c.offer p pages).refused = none := by
  obtain ⟨hpre, hall⟩ := queueLoop_contents noSender p.payload pages
  obtain ⟨hqueue, hfreed⟩ := tcpStreamRecv_packet c.sock p pages
  refine ⟨_, hpre, fun h => hall ((queueLoop_ok ..).mpr h), hqueue, if_neg fun h => ?_⟩
  rw [hfreed] at h
  exact Bool.noConfusion h.2

/-! ### Nothing lost, nothing twice -/

/-- What was returned is the beginning of what the peer sent. -/
def Faithful (c : Conn) : Prop := c.got <+: c.delivered

/-- The pages a segment needs are free. -/
def Afforded (_ : Conn) : Ev → Prop
  | .segment p pages => p.payload.length ≤ pages * chunkSize
  | _ => True

/-- Every byte that came is returned or in the queue, and lwIP keeps no segment. -/
structure Whole (c : Conn) : Prop where
  bytes : c.delivered = c.got ++ contents c.sock.queue
  none : c.refused = none

theorem Whole.segment {c : Conn} (h : Whole c) {p : Pbuf} {pages : Nat} (hpages : p.payload.length ≤ pages * chunkSize) :
    Whole (c.segment p pages) := by
  obtain ⟨queue, -, hall, hqueue, hrefused⟩ := offer_cases _ p pages
  refine ⟨?_, hrefused⟩
  rw [Conn.segment, hqueue, contents_append, hall hpages]
  change c.delivered ++ p.payload = c.got ++ _
  rw [h.bytes, append_assoc]

theorem Whole.receive {c : Conn} (h : Whole c) (len : Nat) : Whole (c.receive len) := by
  obtain ⟨hbytes, hqueue⟩ := recvLoop_spec c.sock.queue len
  refine ⟨?_, h.none⟩
  rw [Conn.receive]
  rw [hbytes, hqueue, append_assoc, take_append_drop, h.bytes]

theorem Whole.step {c c' : Conn} (h : Whole c) {e : Ev} (hok : Afforded c e) (hs : c.step e = some c') : Whole c' := by
  cases e with
  | segment p pages =>
    obtain ⟨-, hs⟩ := ite_none_right_eq_some.mp hs
    exact some.inj hs ▸ h.segment hok
  | again pages =>
    rw [Conn.step, h.none] at hs
    cases hs
  | close => exact some.inj hs ▸ ⟨h.bytes, h.none⟩
  | receive len => exact some.inj hs ▸ h.receive len

theorem Reaches.whole {c : Conn} (h : Reaches Afforded c) : Whole c := by
  induction h with
  | established => exact ⟨rfl, rfl⟩
  | step _ hok hs ih => exact ih.step hok hs

/-- CORRECT where the pages for every segment are there: in every run the bytes returned so far are the first ones the
    peer sent. -/
theorem received_is_prefix {c : Conn} (h : Reaches Afforded c) : Faithful c := (⟨contents c.sock.queue, h.whole.bytes.symm⟩)

/-- A segment of two bytes and one of one byte. -/
def firstSegment : Pbuf := ⟨[1, 2], by decide⟩
def secondSegment : Pbuf := ⟨[3], by decide⟩

/-- Two segments are read with three requests. -/
theorem received_is_prefix_two :
    ∃ c, Conn.established.run [.segment firstSegment 1, .segment secondSegment 1, .receive 1, .receive 8] = some c ∧
      c.got = [1, 2, 3] ∧ Faithful c := by
  refine ⟨_, rfl, by decide, received_is_prefix ?_⟩
  refine .step (e := .receive 8) (.step (e := .receive 1) (.step (e := .segment secondSegment 1)
    (.step (e := .segment firstSegment 1) .established ?_ rfl) ?_ rfl) trivial rfl) trivial rfl
  · exact (by decide : 2 ≤ 1 * chunkSize)
  · exact (by decide : 1 ≤ 1 * chunkSize)

/-- INCORRECT in general: the first segment finds no page, is freed and not kept by lwIP, and the receive returns the
    second one in its place. -/
theorem segment_without_page_lost : ∃ c, Reaches (fun _ _ => True) c ∧
      Conn.established.run [.segment firstSegment 0, .segment secondSegment 1, .receive 8] = some c ∧
      c.delivered = [1, 2, 3] ∧ c.got = [3] ∧ ¬ Faithful c := by
  refine ⟨_, run_reaches (fun _ _ => trivial) [.segment firstSegment 0, .segment secondSegment 1, .receive 8]
    .established rfl, rfl, rfl, rfl, ?_⟩
  rw [Faithful]
  decide

end Orthox.Sockets.Stream
