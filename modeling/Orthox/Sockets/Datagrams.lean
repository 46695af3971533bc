import Orthox.Sockets.Backend

/-! UDP sockets of `kernel/net_socket.c`. A datagram that arrives is copied into nodes of the receive queue and a receive takes
    one node, so a datagram is kept together as long as it needs exactly one node: one without any bytes leaves no node, one of
    more than 4072 bytes leaves several. A send cuts the length to sixteen bits and reports the length it was asked for. -/

namespace Orthox.Sockets.Datagrams
open List

/-! ### Arrivals and receives -/

/-- A datagram as lwIP passes it to the socket. -/
structure Datagram where
  packet : Pbuf
  sender : Sender
deriving DecidableEq

/-- `udp_socket_recv`: the queue, and whether the datagram was queued. -/
def udpSocketRecv (queue : List Chunk) (d : Datagram) (pages : Nat) : List Chunk × Bool :=
  match d.sender.addr with
  | none => (queue, false)
  | some _ => queuePbufData queue d.packet d.sender pages

/-- A receive that returned: what the caller had room for and what it got. -/
structure Receipt where
  len : Nat
  addrlen : Option Nat
  bytes : List UInt8
  source : Option SockaddrIn
deriving DecidableEq

/-- A socket with its history: the datagrams that were queued and the receives that returned one. -/
structure Socket where
  queue : List Chunk
  queued : List Datagram
  receipts : List Receipt
deriving DecidableEq

/-- What happens to the socket: a datagram comes while so many pages are free, or a receive is called. -/
inductive Ev where
  | arrive (d : Datagram) (pages : Nat)
  | receive (len : Nat) (addrlen : Option Nat)

namespace Socket

/-- A new socket. -/
def empty : Socket := ⟨[], [], []⟩

def arrive (s : Socket) (d : Datagram) (pages : Nat) : Socket :=
  { s with
    queue := (udpSocketRecv s.queue d pages).1
    queued := if (udpSocketRecv s.queue d pages).2 then s.queued ++ [d] else s.queued }

/-- `socket_recv_dgram`; with nothing in the queue it waits, or fails with `EAGAIN`, and changes nothing. -/
def receive (s : Socket) (len : Nat) (addrlen : Option Nat) : Socket :=
  match recvDgram len addrlen s.queue with
  | none => s
  | some ((bytes, source), queue) =>
    { s with queue := queue, receipts := s.receipts ++ [⟨len, addrlen, bytes, source⟩] }

def step (s : Socket) : Ev → Socket
  | .arrive d pages => s.arrive d pages
  | .receive len addrlen => s.receive len addrlen

end Socket

/-- The states a new socket reaches by events that all meet a condition. -/
inductive Reaches (ok : Socket → Ev → Prop) : Socket → Prop where
  | empty : Reaches ok .empty
  | step {s : Socket} {e : Ev} (h : Reaches ok s) (hok : ok s e) : Reaches ok (s.step e)

/-! ### Message boundaries -/

/-- The receive returned the beginning of this datagram and its sender. -/
def Answers (d : Datagram) (r : Receipt) : Prop :=
  r.bytes = d.packet.payload.take r.len ∧
    r.source = fillSockaddrIn r.addrlen (d.sender.addr.getD 0) (be16 d.sender.port)

/-- The receives returned the queued datagrams, one each and in order. -/
def Kept (s : Socket) : Prop := ∃ done, done <+: s.queued ∧ List.Forall₂ Answers done s.receipts

/-- The datagram needs exactly one node, or is not queued at all. -/
def Whole (_ : Socket) : Ev → Prop
  | .arrive d pages =>
    d.sender.addr = none ∨ d.packet.payload ≠ [] ∧ (pages = 0 ∨ d.packet.payload.length ≤ chunkSize)
  | .receive _ _ => True

/-- The node holds this datagram. -/
def Holds (d : Datagram) (c : Chunk) : Prop :=
  c.data = d.packet.payload ∧ c.addr = d.sender.addr.getD 0 ∧ c.port = be16 d.sender.port

/-- The datagrams that were queued are those that were received and those in the queue. -/
def Sorted (s : Socket) : Prop :=
  ∃ done waiting, s.queued = done ++ waiting ∧ List.Forall₂ Answers done s.receipts ∧ List.Forall₂ Holds waiting s.queue

variable {s : Socket} {d : Datagram} {pages : Nat}

theorem Sorted.kept (h : Sorted s) : Kept s := by
  obtain ⟨done, waiting, hqueued, hdone, -⟩ := h
  exact ⟨done, hqueued ▸ prefix_append done waiting, hdone⟩

/-- A datagram that fits a node becomes one node; without a page nothing is queued. -/
theorem queueLoop_whole (hne : d.packet.payload ≠ []) (hfit : pages = 0 ∨ d.packet.payload.length ≤ chunkSize) :
    queueLoop d.sender d.packet.payload pages = ([], false) ∨
      ∃ c, queueLoop d.sender d.packet.payload pages = ([c], true) ∧ Holds d c := by
  obtain ⟨b, bytes, hbytes⟩ := exists_cons_of_ne_nil hne
  cases pages with
  | zero => exact .inl (by rw [hbytes, queueLoop])
  | succ pages =>
    have hlen := hfit.resolve_left (Nat.succ_ne_zero _)
    rw [hbytes] at hlen
    refine .inr ⟨.ofFront d.sender b bytes, ?_, ?_, rfl, rfl⟩
    · rw [hbytes, queueLoop, drop_of_length_le hlen]
      cases pages <;> rfl
    · rw [hbytes]
      exact take_of_length_le hlen

theorem Sorted.arrive (h : Sorted s) (hok : Whole s (.arrive d pages)) : Sorted (s.arrive d pages) := by
  obtain ⟨done, waiting, hqueued, hdone, hwaiting⟩ := h
  rw [Socket.arrive, udpSocketRecv]
  rcases haddr : d.sender.addr with - | addr
  · exact ⟨done, waiting, hqueued, hdone, hwaiting⟩
  have hwhole := hok.resolve_left (by rw [haddr]; exact nofun)
  rcases queueLoop_whole hwhole.1 hwhole.2 with hnone | ⟨c, hone, hc⟩
  · refine ⟨done, waiting, ?_, hdone, ?_⟩
    · simpa only [queuePbufData, hnone, Bool.false_eq_true, if_false] using hqueued
    · simpa only [queuePbufData, hnone, append_nil] using hwaiting
  refine ⟨done, waiting ++ [d], ?_, hdone, ?_⟩
  · simp only [queuePbufData, hone, if_true, hqueued, append_assoc]
  · simp only [queuePbufData, hone]
    exact rel_append hwaiting (.cons hc .nil)

theorem Sorted.receive (h : Sorted s) (len : Nat) (addrlen : Option Nat) : Sorted (s.receive len addrlen) := by
  obtain ⟨done, waiting, hqueued, hdone, hwaiting⟩ := h
  rw [Socket.receive]
  rcases hqueue : s.queue with - | ⟨c, queue⟩
  · exact ⟨done, waiting, hqueued, hdone, hwaiting⟩
  rw [hqueue] at hwaiting
  cases hwaiting with
  | @cons d _ waiting _ hc hrest =>
    obtain ⟨hdata, haddr, hport⟩ := hc
    refine ⟨done ++ [d], waiting, ?_, rel_append hdone (.cons ⟨?_, ?_⟩ .nil), hrest⟩
    · rw [append_assoc]
      exact hqueued
    · exact hdata ▸ rfl
    · exact haddr ▸ hport ▸ rfl

theorem Sorted.step (h : Sorted s) {e : Ev} (hok : Whole s e) : Sorted (s.step e) := by
  cases e with
  | arrive d pages => exact h.arrive hok
  | receive len addrlen => exact h.receive len addrlen

theorem Reaches.sorted (h : Reaches Whole s) : Sorted s := by
  induction h with
  | empty => exact ⟨[], [], rfl, .nil, .nil⟩
  | step _ hok ih => exact ih.step hok

/-! ### Sending -/

/-- What the allocator of packet buffers and lwIP answer to a send: `pbuf_alloc`, `pbuf_take`, `udp_send`. -/
structure Carrier where
  alloc : Bool
  take : Err
  send : Err

/-- A datagram lwIP sent, with its destination if the call named one. -/
structure Wire where
  bytes : List UInt8
  dest : Option (UInt32 × UInt16)

/-- The value of a send and what went out. -/
structure Sent where
  value : Int
  wire : Option Wire

/-- A call that failed. -/
def Sent.fail (errno : Int) : Sent := ⟨-errno, none⟩

/-- `MSG_NOSIGNAL` -/
def msgNosignal : UInt32 := 0x4000

/-- The packet buffer has `(uint16_t)len` bytes. -/
def packetOf (buf : List UInt8) : List UInt8 := buf.take (UInt16.ofNat buf.length).toNat

/-- `udp_sendto` or `udp_send` and the end of the call. -/
def transmit (buf : List UInt8) (c : Carrier) (dest : Option (UInt32 × UInt16)) : Sent :=
  if c.send ≠ .ok then .fail (socketErrnoFromLwip c.send) else ⟨buf.length, some ⟨packetOf buf, dest⟩⟩

/-- The packet buffer of a send could not be made or filled. -/
def Carrier.lacks (c : Carrier) (buf : List UInt8) : Bool := !c.alloc || (!buf.isEmpty && decide (c.take ≠ .ok))

/-- `net_socket_sendto` on a UDP socket. -/
def netSocketSendto (connected : Bool) (buf : List UInt8) (flags : UInt32) (dest : Option SockaddrIn) (addrlen : Nat)
    (c : Carrier) : Sent :=
  if flags &&& ~~~msgNosignal ≠ 0 then .fail eopnotsupp
  else if c.lacks buf then .fail enobufs
  else match dest with
  | some peer =>
    if addrlen < sockaddrSize then .fail einval
    else if peer.family ≠ afInet then .fail eafnosupport
    else transmit buf c (some (peer.addr, be16 peer.port))
  | none => if connected then transmit buf c none else .fail edestaddrreq

/-- `net_socket_write_fd` on a UDP socket. -/
def netSocketWriteFd (connected : Bool) (buf : List UInt8) (c : Carrier) : Sent :=
  if connected = false then .fail edestaddrreq
  else if c.lacks buf then .fail enobufs
  else transmit buf c none

/-- The call failed, or one datagram of exactly these bytes went out. -/
def Sent.Exact (buf : List UInt8) (r : Sent) : Prop :=
  r.value < 0 ∨ r.value = buf.length ∧ ∃ dest, r.wire = some ⟨buf, dest⟩

/-- The arguments of a `sendto` are refused, or a buffer or the network is not to be had. -/
def SendtoRefused (connected : Bool) (buf : List UInt8) (flags : UInt32) (dest : Option SockaddrIn) (addrlen : Nat)
    (c : Carrier) : Prop :=
  flags &&& ~~~msgNosignal ≠ 0 ∨ c.lacks buf = true ∨ c.send ≠ .ok ∨
    (∃ peer ∈ dest, addrlen < sockaddrSize ∨ peer.family ≠ afInet) ∨ dest = none ∧ connected = false

/-- A `write` finds no peer, no buffer or no network. -/
def WriteRefused (connected : Bool) (buf : List UInt8) (c : Carrier) : Prop :=
  connected = false ∨ c.lacks buf = true ∨ c.send ≠ .ok

theorem Sent.exact_fail (buf : List UInt8) {errno : Int} (h : 0 < errno) : (Sent.fail errno).Exact buf := by
  have hneg : -errno < 0 := by omega
  exact .inl hneg

/-- The packet is the whole buffer when its length has sixteen bits. -/
theorem packetOf_eq_iff (buf : List UInt8) : packetOf buf = buf ↔ buf.length < 2 ^ 16 := by
  have hmod : (UInt16.ofNat buf.length).toNat = buf.length % 2 ^ 16 := UInt16.toNat_ofNat'
  rw [packetOf, hmod]
  constructor
  · intro h
    have hlen := congrArg length h
    rw [length_take] at hlen
    omega
  · intro h
    rw [Nat.mod_eq_of_lt h, take_length]

theorem exact_transmit (buf : List UInt8) (c : Carrier) (dest : Option (UInt32 × UInt16)) :
    (transmit buf c dest).Exact buf ↔ buf.length < 2 ^ 16 ∨ c.send ≠ .ok := by
  rw [transmit]
  rcases ne_or_eq c.send .ok with hsend | hsend
  · rw [if_pos hsend]
    exact ⟨fun _ => .inr hsend, fun _ => Sent.exact_fail buf (socketErrnoFromLwip_pos hsend)⟩
  rw [if_neg (not_not_intro hsend), ← packetOf_eq_iff]
  constructor
  · rintro (hneg | ⟨-, dest', hwire⟩)
    · exact absurd hneg (Int.not_lt.mpr (Int.natCast_nonneg _))
    · exact .inl (congrArg Wire.bytes (Option.some.inj hwire))
  · intro h
    have hall := h.resolve_right (not_not_intro hsend)
    exact .inr ⟨rfl, dest, by rw [hall]⟩

theorem exact_sendto (connected : Bool) (buf : List UInt8) (flags : UInt32) (dest : Option SockaddrIn) (addrlen : Nat)
    (c : Carrier) : (netSocketSendto connected buf flags dest addrlen c).Exact buf ↔
      buf.length < 2 ^ 16 ∨ SendtoRefused connected buf flags dest addrlen c := by
  unfold netSocketSendto SendtoRefused
  rcases ne_or_eq (flags &&& ~~~msgNosignal) 0 with hflags | hflags
  · rw [if_pos hflags]
    exact ⟨fun _ => .inr (.inl hflags), fun _ => Sent.exact_fail buf (by decide)⟩
  rw [if_neg (not_not_intro hflags)]
  rcases hlacks : c.lacks buf with - | -
  case true => exact ⟨fun _ => .inr (.inr (.inl rfl)), fun _ => Sent.exact_fail buf (by decide)⟩
  rw [if_neg nofun]
  cases dest with
  | none => cases connected with
    | false => exact ⟨fun _ => .inr (by simp), fun _ => Sent.exact_fail buf (by decide)⟩
    | true =>
      rw [if_pos rfl, exact_transmit]
      simp [hflags]
  | some peer =>
    dsimp only
    rcases Nat.lt_or_ge addrlen sockaddrSize with hroom | hroom
    · rw [if_pos hroom]
      exact ⟨fun _ => .inr (by simp [hroom]), fun _ => Sent.exact_fail buf (by decide)⟩
    rw [if_neg (Nat.not_lt.mpr hroom)]
    rcases ne_or_eq peer.family afInet with hfamily | hfamily
    · rw [if_pos hfamily]
      exact ⟨fun _ => .inr (by simp [hfamily]), fun _ => Sent.exact_fail buf (by decide)⟩
    · rw [if_neg (not_not_intro hfamily), exact_transmit]
      simp [hflags, hfamily, Nat.not_lt.mpr hroom]

theorem exact_write (connected : Bool) (buf : List UInt8) (c : Carrier) :
    (netSocketWriteFd connected buf c).Exact buf ↔ buf.length < 2 ^ 16 ∨ WriteRefused connected buf c := by
  rw [netSocketWriteFd, WriteRefused]
  cases connected with
  | false => exact ⟨fun _ => .inr (.inl rfl), fun _ => Sent.exact_fail buf (by decide)⟩
  | true =>
    rw [if_neg Bool.noConfusion]
    rcases hlacks : c.lacks buf with - | -
    · rw [if_neg nofun, exact_transmit]
      simp
    · exact ⟨fun _ => .inr (.inr (.inl rfl)), fun _ => Sent.exact_fail buf (by decide)⟩

/-! ### Both directions -/

/-- CORRECT for datagrams of one node and sends of at most 65535 bytes: in every run in which each datagram that is
    queued has 1 to 4072 bytes the receives return the queued datagrams one by one, and a send is one datagram of
    exactly its bytes or fails if and only if its length has sixteen bits or the call is refused. -/
theorem datagrams_keep_boundaries {s : Socket} (h : Reaches Whole s) : Kept s ∧
    (∀ connected buf flags dest addrlen c, (netSocketSendto connected buf flags dest addrlen c).Exact buf ↔
      buf.length < 2 ^ 16 ∨ SendtoRefused connected buf flags dest addrlen c) ∧
    (∀ connected buf c, (netSocketWriteFd connected buf c).Exact buf ↔ buf.length < 2 ^ 16 ∨ WriteRefused connected buf c) :=
  ⟨h.sorted.kept, exact_sendto, exact_write⟩

/-- Three bytes from port 53 of 10.0.2.3. -/
def threeBytes : Datagram := ⟨⟨[1, 2, 3], by decide⟩, ⟨some 0x0302000a, 53⟩⟩

/-- Three bytes arrive and two are asked for: the first two and the sender come back, and the queue is empty. -/
theorem datagrams_keep_boundaries_cut : ((Socket.empty.step (.arrive threeBytes 1)).step (.receive 2 (some 16)) =
      ⟨[], [threeBytes], [⟨2, some 16, [1, 2], some ⟨afInet, be16 53, 0x0302000a⟩⟩]⟩) ∧
    Kept ((Socket.empty.step (.arrive threeBytes 1)).step (.receive 2 (some 16))) := by
  have hwhole : Whole .empty (.arrive threeBytes 1) := .inr ⟨by decide, .inr (by decide)⟩
  have hreceive : Whole (Socket.empty.step (.arrive threeBytes 1)) (.receive 2 (some 16)) := trivial
  exact ⟨by decide, (datagrams_keep_boundaries ((Reaches.empty.step hwhole).step hreceive)).1⟩

/-- A datagram without bytes, and the same three bytes after it. -/
def noBytes : Datagram := ⟨⟨[], by decide⟩, threeBytes.sender⟩

/-- INCORRECT in general: a datagram without bytes is accepted and never received, so the first receive returns the
    second datagram; and a send of 65536 bytes reports success for a datagram without bytes. -/
theorem empty_datagram_lost :
    ¬ Kept (((Socket.empty.step (.arrive noBytes 1)).step (.arrive threeBytes 1)).step (.receive 8 none)) ∧
      ¬ (netSocketSendto true (replicate 65536 0) 0 none 0 ⟨true, .ok, .ok⟩).Exact (replicate 65536 0) := by
  refine ⟨?_, fun h => ?_⟩
  · have hstate : ((Socket.empty.step (.arrive noBytes 1)).step (.arrive threeBytes 1)).step (.receive 8 none) =
        ⟨[], [noBytes, threeBytes], [⟨8, none, [1, 2, 3], none⟩]⟩ := by decide
    rintro ⟨done, hpre, hdone⟩
    cases hdone with
    | @cons d _ _ _ hd _ =>
      obtain ⟨rfl, -⟩ := cons_prefix_cons.mp hpre
      exact absurd hd.1 (by decide)
  · rcases (exact_sendto ..).mp h with hlen | (h | h | h | ⟨_, ⟨⟩, _⟩ | ⟨-, h⟩)
    · rw [length_replicate] at hlen
      exact absurd hlen (by decide)
    · exact h (by decide)
    · simp [Carrier.lacks] at h
    · exact h rfl
    · cases h

end Orthox.Sockets.Datagrams
