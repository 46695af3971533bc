import Orthox.Sockets.Datagrams
import Orthox.Sockets.Stream

/-! How much a socket of `kernel/net_socket.c` buffers. `tcp_stream_recv` tells lwIP that a segment was processed as soon as it
    is queued, so the window the peer sees is always fully open and does not depend on the reader; each segment takes at least
    one page, however short it is. A UDP socket queues whatever comes. The queue stays within the window only if the peer keeps
    to the one it would see if `tcp_recved` were called for the bytes that were read. -/

namespace Orthox.Sockets
open List Option

/-! ### TCP -/

namespace Stream

/-- The unread bytes fit the configured window, and so do the pages that hold them. -/
def WithinWindow (c : Conn) : Prop := (contents c.sock.queue).length ≤ tcpWnd ∧ c.sock.queue.length ≤ tcpWnd

/-- The peer keeps to the window a receiver would advertise that reopens it for the bytes it has read. -/
def Paced (c : Conn) : Ev → Prop
  | .segment p _ => p.payload.length ≤ c.deferred
  | _ => True

/-- What is unread and what is left of the deferred window are together at most the configured one. -/
structure Fits (c : Conn) : Prop where
  bytes : (contents c.sock.queue).length + c.deferred ≤ tcpWnd
  none : c.refused = none

theorem Fits.withinWindow {c : Conn} (h : Fits c) : WithinWindow c := by
  have hbytes := h.bytes
  have hpages := length_le_contents c.sock.queue
  exact ⟨by omega, by omega⟩

theorem Fits.segment {c : Conn} (h : Fits c) {p : Pbuf} (pages : Nat) (hpaced : p.payload.length ≤ c.deferred) :
    Fits (c.segment p pages) := by
  obtain ⟨queue, hpre, -, hqueue, hrefused⟩ := offer_cases { c with
    rcvWnd := c.rcvWnd - p.payload.length
    delivered := c.delivered ++ p.payload
    deferred := c.deferred - p.payload.length } p pages
  have hbytes := h.bytes
  have hadded := hpre.length_le
  refine ⟨?_, hrefused⟩
  rw [Conn.segment, hqueue, contents_append, length_append]
  change (contents c.sock.queue).length + _ + (c.deferred - p.payload.length) ≤ tcpWnd
  omega

theorem Fits.receive {c : Conn} (h : Fits c) (len : Nat) : Fits (c.receive len) := by
  obtain ⟨hgot, hqueue⟩ := recvLoop_spec c.sock.queue len
  have hbytes := h.bytes
  refine ⟨?_, h.none⟩
  rw [Conn.receive]
  dsimp only
  rw [hgot, hqueue, length_take, length_drop]
  omega

theorem Fits.step {c c' : Conn} (h : Fits c) {e : Ev} (hok : Paced c e) (hs : c.step e = some c') : Fits c' := by
  cases e with
  | segment p pages =>
    obtain ⟨-, hs⟩ := ite_none_right_eq_some.mp hs
    exact some.inj hs ▸ h.segment pages hok
  | again pages =>
    rw [Conn.step, h.none] at hs
    cases hs
  | close => exact some.inj hs ▸ ⟨h.bytes, h.none⟩
  | receive len => exact some.inj hs ▸ h.receive len

theorem Reaches.fits {c : Conn} (h : Reaches Paced c) : Fits c := by
  induction h with
  | established => exact ⟨Nat.le_refl _, rfl⟩
  | step _ hok hs ih => exact ih.step hok hs

end Stream

/-! ### UDP -/

namespace Datagrams

/-- The nodes of one packet: a new one is begun only for bytes that did not fit the one before. -/
theorem length_queueLoop (sender : Sender) (bytes : List UInt8) (pages : Nat) :
    (queueLoop sender bytes pages).1.length * chunkSize < bytes.length + chunkSize := by
  have hsize : 0 < chunkSize := by decide
  induction pages generalizing bytes with
  | zero => cases bytes with
    | nil => simpa [queueLoop] using hsize
    | cons b bytes => simpa [queueLoop] using Nat.add_pos_right _ hsize
  | succ pages ih => cases bytes with
    | nil => simpa [queueLoop] using hsize
    | cons b bytes =>
      rcases Nat.lt_or_ge chunkSize (b :: bytes).length with hlong | hshort
      · have hrest := ih ((b :: bytes).drop chunkSize)
        rw [length_drop] at hrest
        rw [queueLoop]
        rw [length_cons, Nat.succ_mul]
        omega
      · rw [queueLoop, drop_of_length_le hshort]
        cases pages <;> simp [queueLoop]

/-- The most nodes a packet can need. -/
def nodesMax : Nat := 17

theorem nodes_of_packet (sender : Sender) (p : Pbuf) (pages : Nat) : (queueLoop sender p.payload pages).1.length ≤ nodesMax := by
  have hnodes := length_queueLoop sender p.payload pages
  have hshort := p.short
  unfold nodesMax
  unfold chunkSize at hnodes
  omega

/-- A datagram comes only while at most so many nodes wait to be received. -/
def Drained (bound : Nat) (s : Socket) : Ev → Prop
  | .arrive _ _ => s.queue.length ≤ bound
  | .receive _ _ => True

theorem Reaches.nodes {bound : Nat} {s : Socket} (h : Reaches (Drained bound) s) : s.queue.length ≤ bound + nodesMax := by
  induction h with
  | empty => exact Nat.zero_le _
  | @step s e _ hok ih => cases e with
    | arrive d pages =>
      have hnodes := nodes_of_packet d.sender d.packet pages
      have hbound : s.queue.length ≤ bound := hok
      rw [Socket.step, Socket.arrive, udpSocketRecv]
      cases d.sender.addr with
      | none => exact ih
      | some addr =>
        dsimp only [queuePbufData]
        rw [length_append]
        omega
    | receive len addrlen =>
      rw [Socket.step, Socket.receive]
      rcases hqueue : s.queue with - | ⟨c, queue⟩
      · simp only [recvDgram, hqueue]
        exact Nat.zero_le _
      · rw [hqueue] at ih
        exact Nat.le_of_succ_le ih

end Datagrams

/-! ### Both -/

/-- CORRECT where the peer is held back: in every run of a connection in which each segment fits the window of a receiver
    that reports what it has read, unread bytes and pages fit the configured window; and in every run of a UDP socket
    in which a datagram comes only while at most so many nodes wait, the pages are bounded by that. -/
theorem receive_queue_bounded {c : Stream.Conn} (hc : Stream.Reaches Stream.Paced c) {bound : Nat} {s : Datagrams.Socket}
    (hs : Datagrams.Reaches (Datagrams.Drained bound) s) : Stream.WithinWindow c ∧ s.queue.length ≤ bound + Datagrams.nodesMax :=
  ⟨hc.fits.withinWindow, hs.nodes⟩

/-- Two segments and a datagram that nobody read yet. -/
theorem receive_queue_bounded_two :
    ∃ c, Stream.Conn.established.run [.segment Stream.firstSegment 1, .segment Stream.secondSegment 1] = some c ∧
      (contents c.sock.queue).length = 3 ∧ Stream.WithinWindow c ∧
      (Datagrams.Socket.empty.step (.arrive Datagrams.threeBytes 1)).queue.length ≤ 0 + Datagrams.nodesMax := by
  have hdatagram : Datagrams.Drained 0 .empty (.arrive Datagrams.threeBytes 1) := Nat.le_refl 0
  refine ⟨_, rfl, by decide, receive_queue_bounded ?_ (Datagrams.Reaches.empty.step hdatagram)⟩
  refine .step (e := .segment Stream.secondSegment 1) (.step (e := .segment Stream.firstSegment 1) .established ?_ rfl) ?_ rfl
  · exact (by decide : 2 ≤ Stream.tcpWnd)
  · exact (by decide : 1 ≤ Stream.tcpWnd - 2)

/-! ### A reader that does not read -/

/-- A segment of one byte. -/
def oneByte : Pbuf := ⟨[0], by decide⟩

/-- After any number of segments of one byte the window is fully open and each byte has a page of its own. -/
theorem segments_pile_up (n : Nat) : ∃ c, Stream.Reaches (fun _ _ => True) c ∧ c.rcvWnd = Stream.tcpWnd ∧ c.refused = none ∧
      (contents c.sock.queue).length = n ∧ c.sock.queue.length = n := by
  induction n with
  | zero => exact ⟨.established, .established, rfl, rfl, rfl, rfl⟩
  | succ n ih =>
    obtain ⟨c, hreach, hwnd, hrefused, hbytes, hpages⟩ := ih
    have hfits : oneByte.payload.length ≤ c.rcvWnd := by
      rw [hwnd]
      decide
    have hstep : c.step (.segment oneByte 1) = some (c.segment oneByte 1) := if_pos ⟨hrefused, hfits⟩
    refine ⟨c.segment oneByte 1, hreach.step trivial hstep, ?_, rfl, ?_, ?_⟩
    · change min Stream.tcpWnd (c.rcvWnd - 1 + 1) = Stream.tcpWnd
      rw [hwnd]
      decide
    · change (contents (c.sock.queue ++ (queueLoop Stream.noSender [0] 1).1)).length = n + 1
      rw [contents_append, length_append, hbytes]
      rfl
    · change (c.sock.queue ++ (queueLoop Stream.noSender [0] 1).1).length = n + 1
      rw [length_append, hpages]
      rfl

/-- After any number of datagrams of three bytes each has a page. -/
theorem datagrams_pile_up (n : Nat) : ∃ s, Datagrams.Reaches (fun _ _ => True) s ∧ s.queue.length = n := by
  induction n with
  | zero => exact ⟨.empty, .empty, rfl⟩
  | succ n ih =>
    obtain ⟨s, hreach, hpages⟩ := ih
    refine ⟨s.step (.arrive Datagrams.threeBytes 1), hreach.step trivial, ?_⟩
    change (s.queue ++ (queueLoop Datagrams.threeBytes.sender [1, 2, 3] 1).1).length = n + 1
    rw [length_append, hpages]
    rfl

/-- INCORRECT in general: 5841 segments of one byte, all within the window lwIP advertises, leave more unread bytes than
    the configured window, and no number of pages is enough for what a peer may send. -/
theorem receive_queue_unbounded :
    (∃ c, Stream.Reaches (fun _ _ => True) c ∧ (contents c.sock.queue).length = 5841 ∧ ¬ Stream.WithinWindow c) ∧
      (∀ pages, ∃ c, Stream.Reaches (fun _ _ => True) c ∧ pages < c.sock.queue.length) ∧
      (∀ pages, ∃ s, Datagrams.Reaches (fun _ _ => True) s ∧ pages < s.queue.length) := by
  refine ⟨?_, fun pages => ?_, fun pages => ?_⟩
  · obtain ⟨c, hreach, -, -, hbytes, -⟩ := segments_pile_up 5841
    refine ⟨c, hreach, hbytes, fun h => ?_⟩
    have hle := h.1
    rw [hbytes] at hle
    exact absurd hle (by decide)
  · obtain ⟨c, hreach, -, -, -, hpages⟩ := segments_pile_up (pages + 1)
    exact ⟨c, hreach, hpages ▸ Nat.lt_succ_self pages⟩
  · obtain ⟨s, hreach, hpages⟩ := datagrams_pile_up (pages + 1)
    exact ⟨s, hreach, hpages ▸ Nat.lt_succ_self pages⟩

end Orthox.Sockets
