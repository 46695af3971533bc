import Mathlib

/-! The sockets of `kernel/net_socket.c`: the error numbers, the receive queue and the two ways to take bytes out
    of it. Received data is copied from lwIP's packet buffers into nodes of one page each; TCP and UDP sockets use
    the same nodes. A stream receive goes on from node to node, a datagram receive takes one node and drops what
    does not fit the caller's buffer. -/

namespace Orthox.Sockets
open List

/-! ### Errors -/

/-- `err_t` -/
inductive Err where
  | ok | mem | buf | timeout | rte | inprogress | val | wouldblock | use | already | isconn | conn | netif
  | abrt | rst | clsd | arg
deriving DecidableEq

/-- The error numbers of the socket calls. -/
def eagain : Int := 11
def einval : Int := 22
def edestaddrreq : Int := 89
def eopnotsupp : Int := 95
def eafnosupport : Int := 97
def enobufs : Int := 105
def enotconn : Int := 107

/-- `socket_errno_from_lwip` -/
def socketErrnoFromLwip : Err → Int
  | .ok => 0
  | .timeout => 110
  | .rte => 113
  | .abrt => 103
  | .rst => 104
  | .clsd | .conn => enotconn
  | _ => einval

/-- Every error of lwIP becomes a true error number. -/
theorem socketErrnoFromLwip_pos {e : Err} (h : e ≠ .ok) : 0 < socketErrnoFromLwip e := by
  cases e <;> first | exact absurd rfl h | decide

/-! ### Addresses -/

/-- `be16_to_cpu`, which is also `cpu_to_be16`. -/
def be16 (v : UInt16) : UInt16 := (v >>> 8) ||| (v <<< 8)

/-- `AF_INET` -/
def afInet : UInt16 := 2

/-- `struct orth_sockaddr_in`, with the port in network order. -/
structure SockaddrIn where
  family : UInt16
  port : UInt16
  addr : UInt32
deriving DecidableEq

/-- `sizeof(struct orth_sockaddr_in)` -/
def sockaddrSize : Nat := 16

/-- `fill_sockaddr_in`, with the room the caller has for an address, if it asks for one. -/
def fillSockaddrIn (addrlen : Option Nat) (ip : UInt32) (port : UInt16) : Option SockaddrIn :=
  addrlen.bind fun room => if room < sockaddrSize then none else some ⟨afInet, port, ip⟩

/-! ### Packet buffers and nodes -/

/-- A chain of packet buffers with its bytes in order; `tot_len` has sixteen bits. -/
structure Pbuf where
  payload : List UInt8
  short : payload.length < 2 ^ 16
deriving DecidableEq

theorem short_seven : [(7 : UInt8)].length < 2 ^ 16 := by decide

/-- `sizeof(chunk->data)`: a page without the header of the node. -/
def chunkSize : Nat := 4096 - 24

/-- `socket_rx_chunk_t`. A node in the queue has bytes that were not read yet. -/
structure Chunk where
  data : List UInt8
  offset : Nat
  port : UInt16
  addr : UInt32
  fits : data.length ≤ chunkSize
  unread : offset < data.length
deriving DecidableEq

/-- The bytes of a node that were not read yet. -/
def Chunk.rest (c : Chunk) : List UInt8 := c.data.drop c.offset

theorem Chunk.length_rest (c : Chunk) : c.rest.length = c.data.length - c.offset := length_drop

theorem Chunk.rest_pos (c : Chunk) : 0 < c.rest.length := by
  have := c.unread
  rw [c.length_rest]
  omega

/-- Where a packet came from; TCP passes no address and port 0. -/
structure Sender where
  addr : Option UInt32
  port : UInt16
deriving DecidableEq

/-- The node for the first bytes of what is left of a packet. -/
def Chunk.ofFront (sender : Sender) (b : UInt8) (bytes : List UInt8) : Chunk where
  data := (b :: bytes).take chunkSize
  offset := 0
  port := be16 sender.port
  addr := sender.addr.getD 0
  fits := length_take_le _ _
  unread := by
    rw [length_take, length_cons]
    exact Nat.lt_min.mpr ⟨by decide, Nat.succ_pos _⟩

/-- The loop of `queue_pbuf_data` over what was not copied yet: a page for each node, as long as there are pages. The
    answer says whether the whole packet was queued; the nodes made before a page was missing stay in the queue. -/
def queueLoop (sender : Sender) : List UInt8 → (pages : Nat) → List Chunk × Bool
  | [], _ => ([], true)
  | _ :: _, 0 => ([], false)
  | b :: bytes, pages + 1 =>
    let (chunks, ok) := queueLoop sender ((b :: bytes).drop chunkSize) pages
    (Chunk.ofFront sender b bytes :: chunks, ok)

/-- `queue_pbuf_data` -/
def queuePbufData (queue : List Chunk) (p : Pbuf) (sender : Sender) (pages : Nat) : List Chunk × Bool :=
  let (chunks, ok) := queueLoop sender p.payload pages
  (queue ++ chunks, ok)

/-- The bytes in a queue that were not read yet. -/
def contents (queue : List Chunk) : List UInt8 := queue.flatMap Chunk.rest

@[simp] theorem contents_cons (c : Chunk) (queue : List Chunk) : contents (c :: queue) = c.rest ++ contents queue := rfl

@[simp] theorem contents_append (queue queue' : List Chunk) :
    contents (queue ++ queue') = contents queue ++ contents queue' := flatMap_append

/-- Every node holds a byte, so there are no more nodes than bytes. -/
theorem length_le_contents (queue : List Chunk) : queue.length ≤ (contents queue).length := by
  induction queue with
  | nil => exact Nat.le_refl 0
  | cons c queue ih =>
    have := c.rest_pos
    rw [contents_cons, length_append, length_cons]
    omega

/-- What is queued of a packet is its beginning, and all of it if no page was missing. -/
theorem queueLoop_contents (sender : Sender) (bytes : List UInt8) (pages : Nat) :
    contents (queueLoop sender bytes pages).1 <+: bytes ∧
      ((queueLoop sender bytes pages).2 → contents (queueLoop sender bytes pages).1 = bytes) := by
  induction pages generalizing bytes with
  | zero => cases bytes with
    | nil => exact ⟨prefix_rfl, fun _ => rfl⟩
    | cons b bytes => exact ⟨List.nil_prefix, nofun⟩
  | succ pages ih => cases bytes with
    | nil => exact ⟨prefix_rfl, fun _ => rfl⟩
    | cons b bytes =>
      obtain ⟨hpre, hall⟩ := ih ((b :: bytes).drop chunkSize)
      have hsplit := take_append_drop chunkSize (b :: bytes)
      refine ⟨?_, fun hok => ?_⟩
      · have happend := (prefix_append_right_inj (take chunkSize (b :: bytes))).mpr hpre
        rw [hsplit] at happend
        exact happend
      · exact (congrArg (take chunkSize (b :: bytes) ++ ·) (hall hok)).trans hsplit

/-! ### Receiving from a stream -/

/-- What is left of a node of which the next bytes were read; a node read to its end is freed. -/
def Chunk.advance (c : Chunk) (take : Nat) : Option Chunk :=
  if h : c.offset + take < c.data.length then some { c with offset := c.offset + take, unread := h } else none

/-- The second loop of `socket_recv_stream`: the bytes copied to the caller and the queue afterwards. -/
def recvLoop (len : Nat) : List Chunk → List UInt8 × List Chunk
  | [] => ([], [])
  | c :: queue =>
    if len = 0 then ([], c :: queue)
    else
      let take := min len c.rest.length
      match c.advance take with
      | some c' => (c.rest.take take, c' :: queue)
      | none =>
        let (bytes, queue') := recvLoop (len - take) queue
        (c.rest.take take ++ bytes, queue')

/-- A node of which not everything was read stays in the queue. -/
theorem Chunk.advance_of_lt {c : Chunk} {take : Nat} (h : take < c.rest.length) :
    ∃ c', c.advance take = some c' ∧ c'.rest = c.rest.drop take := by
  have hlt : c.offset + take < c.data.length := by
    rw [c.length_rest] at h
    omega
  exact ⟨_, dif_pos hlt, (drop_drop ..).symm⟩

/-- A node that was read to its end goes. -/
theorem Chunk.advance_of_le {c : Chunk} {take : Nat} (h : c.rest.length ≤ take) : c.advance take = none := by
  rw [c.length_rest] at h
  exact dif_neg (by omega)

/-- A receive takes the oldest bytes, as many as it asked for if there are so many, and leaves the others. -/
theorem recvLoop_spec (queue : List Chunk) (len : Nat) : (recvLoop len queue).1 = (contents queue).take len ∧
      contents (recvLoop len queue).2 = (contents queue).drop len := by
  induction queue generalizing len with
  | nil => exact ⟨take_nil.symm, drop_nil.symm⟩
  | cons c queue ih =>
    rw [recvLoop]
    rcases eq_or_ne len 0 with rfl | hlen
    · rw [if_pos rfl]
      exact ⟨rfl, rfl⟩
    rw [if_neg hlen, contents_cons, take_append, drop_append]
    rcases Nat.lt_or_ge len c.rest.length with hlt | hle
    · -- The request ends inside the first node.
      obtain ⟨c', hadv, hrest⟩ := Chunk.advance_of_lt hlt
      have hzero : len - c.rest.length = 0 := Nat.sub_eq_zero_of_le (Nat.le_of_lt hlt)
      simp only [Nat.min_eq_left (Nat.le_of_lt hlt), hadv, contents_cons, hrest, hzero]
      exact ⟨(append_nil _).symm, rfl⟩
    · obtain ⟨hbytes, hqueue⟩ := ih (len - c.rest.length)
      simp only [Nat.min_eq_right hle, Chunk.advance_of_le (Nat.le_refl _), hbytes, hqueue]
      rw [take_length, take_of_length_le hle, drop_of_length_le hle]
      exact ⟨rfl, rfl⟩

/-! ### Receiving a datagram -/

/-- The end of `socket_recv_dgram`: one node, its first bytes and its sender. -/
def recvDgram (len : Nat) (addrlen : Option Nat) : List Chunk → Option ((List UInt8 × Option SockaddrIn) × List Chunk)
  | [] => none
  | c :: queue => some ((c.data.take len, fillSockaddrIn addrlen c.addr c.port), queue)

end Orthox.Sockets
