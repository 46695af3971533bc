import Orthox.Pipes.Pipe
import Orthox.Schemes.Holders

/-! What each event of a pipe's system does, one constructor per outcome. The invariants of the other modules
    are proved by cases on it, so the code of a section is looked at once, here. -/

namespace Orthox.Pipes
open Schemes List Option Function

variable {T F : Type} [DecidableEq T] [DecidableEq F]

/-- The free cells of the ring. -/
def Pipe.room (p : Pipe T) : Nat := pipeBufSize - p.ring.count

/-- The outcomes of the events. -/
inductive Moves (s : Sys T F) : Ev T F → Sys T F → Prop where
  | write {t f src} (idle : s.ops t = none) (fd : (t, f) ∈ s.fds) :
    Moves s (.write t f src) { s.setOp t (some (.writing f src 0 s.calls.length)) with calls := s.calls ++ [src] }
  | read {t f count} (idle : s.ops t = none) (fd : (t, f) ∈ s.fds) :
    Moves s (.read t f count) (s.setOp t (some (.reading f count)))
  | writeDone {t f src written id} (op : s.ops t = some (.writing f src written id)) (all : src.length ≤ written) :
    Moves s (.go t) (s.setOp t (some (.answered written)))
  | writeRefused {t f src written id} (op : s.ops t = some (.writing f src written id)) (more : written < src.length)
    (gone : s.pipe.readers = 0) :
    Moves s (.go t) (s.setOp t (some (.answered (if 0 < written then written else -epipe))))
  | writeBlocked {t f src written id} (op : s.ops t = some (.writing f src written id)) (more : written < src.length)
    (readers : s.pipe.readers ≠ 0) (full : s.pipe.ring.count = pipeBufSize) :
    Moves s (.go t) { s.setOp t (some (.writeSlept f src written id)) with
      pipe := { s.pipe with writeWq := (s.pipe.writeWq.add t).1 }
      asleep := update s.asleep t true }
  | writeStored {t f src written id} {ring : Ring UInt8 pipeBufSize} (waking : s.toWake t = [])
    (op : s.ops t = some (.writing f src written id)) (more : written < src.length)
    (readers : s.pipe.readers ≠ 0) (space : s.pipe.ring.count ≠ pipeBufSize)
    (stored : ring.contents = s.pipe.ring.contents ++ (src.drop written).take s.pipe.room) :
    Moves s (.go t) { s.setOp t (some (.writing f src (min src.length (written + s.pipe.room)) id)) with
      pipe := { s.pipe with ring := ring, readWq := .init }
      toWake := update s.toWake t s.pipe.readWq.takeAll.1
      sent := s.sent ++ ((src.drop written).take s.pipe.room).map (id, ·) }
  | writeWoken {t f src written id} (op : s.ops t = some (.writeSlept f src written id)) (awake : s.asleep t = false) :
    Moves s (.go t) { s.setOp t (some (.writing f src written id)) with
      pipe := { s.pipe with writeWq := s.pipe.writeWq.remove t } }
  | readEof {t f count} (op : s.ops t = some (.reading f count)) (nothing : s.pipe.ring.count = 0) (gone : s.pipe.writers = 0) :
    Moves s (.go t) (s.setOp t (some (.answered 0)))
  | readBlocked {t f count} (op : s.ops t = some (.reading f count)) (nothing : s.pipe.ring.count = 0)
    (writers : s.pipe.writers ≠ 0) :
    Moves s (.go t) { s.setOp t (some (.readSlept f count)) with
      pipe := { s.pipe with readWq := (s.pipe.readWq.add t).1 }
      asleep := update s.asleep t true }
  | readTaken {t f count} {ring : Ring UInt8 pipeBufSize} (waking : s.toWake t = []) (op : s.ops t = some (.reading f count))
    (nonempty : s.pipe.ring.count ≠ 0)
    (taken : ring.contents = s.pipe.ring.contents.drop count) :
    Moves s (.go t) { s.setOp t (some (.answered (s.pipe.ring.contents.take count).length)) with
      pipe := { s.pipe with ring := ring, writeWq := .init }
      toWake := update s.toWake t s.pipe.writeWq.takeAll.1
      got := s.got ++ s.pipe.ring.contents.take count }
  | readWoken {t f count} (op : s.ops t = some (.readSlept f count)) (awake : s.asleep t = false) :
    Moves s (.go t) { s.setOp t (some (.reading f count)) with
      pipe := { s.pipe with readWq := s.pipe.readWq.remove t } }
  | answer {t value} (op : s.ops t = some (.answered value)) : Moves s (.go t) (s.setOp t none)
  | giveBack {t f e} (op : s.ops t = some (.releasing f e true)) :
    Moves s (.go t) { s.setOp t (some (.releasing f e false)) with
      pipe := { s.pipe with refCount := s.pipe.refCount - 1 }
      files := Sys.giveBack s.files f }
  | release {t f e} (waking : s.toWake t = []) (op : s.ops t = some (.releasing f e false)) :
    Moves s (.go t) (s.releaseTurn t f e)
  | released {t free} (op : s.ops t = some (.released free)) :
    Moves s (.go t) { s.setOp t none with freed := s.freed || free }
  | wake {t u us} (list : s.toWake t = u :: us) :
    Moves s (.wake t) { s with asleep := update s.asleep u false, toWake := update s.toWake t us }
  | rouse {t} : Moves s (.rouse t) { s with asleep := update s.asleep t false }
  | share {t u f} (idle : s.ops t = none) (fd : (t, f) ∈ s.fds) : Moves s (.share t u f) { s with fds := (u, f) :: s.fds }
  | closeShared {t f} (idle : s.ops t = none) (fd : (t, f) ∈ s.fds) (others : f ∈ (s.fds.erase (t, f)).map Prod.snd) :
    Moves s (.close t f) { s with fds := s.fds.erase (t, f) }
  | closeLast {t x} (idle : s.ops t = none) (fd : (t, x.id) ∈ s.fds) (last : x.id ∉ (s.fds.erase (t, x.id)).map Prod.snd)
    (file : x ∈ s.files) :
    Moves s (.close t x.id) ({ s with fds := s.fds.erase (t, x.id) }.closeFile t x)
  | openFifo {t e nonblock} (idle : s.ops t = none) (inUse : s.fifo.any FifoEntry.inUse = true) :
    Moves s (.openFifo t e nonblock) ((s.onEntry fun x => x.enter e).setOp t (some (.opening e nonblock)))
  | meet {t e nonblock} (op : s.ops t = some (.opening e nonblock)) : Moves s (.meet t) (s.setOp t (some (.admitted e)))
  | noReader {t e nonblock} (op : s.ops t = some (.opening e nonblock)) :
    Moves s (.refuse t) ((s.onEntry fun x => x.leave e).setOp t (some (.answered (-enxio))))
  | noFile {t e} (op : s.ops t = some (.admitted e)) :
    Moves s (.refuse t) ((s.onEntry fun x => x.leave e).setOp t (some (.answered (-1))))
  | join {t f e} (op : s.ops t = some (.admitted e)) (new : f ∉ s.files.map File.id) :
    Moves s (.join t f) { s.setOp t none with
      pipe := s.pipe.join e
      files := ⟨f, e, e.weight⟩ :: s.files
      fds := (t, f) :: s.fds }
  | poll {t f pollin pollout} (idle : s.ops t = none) (fd : (t, f) ∈ s.fds) :
    Moves s (.poll t f pollin pollout) { s.setOp t (some .polling) with
      pipe := { s.pipe with
        readWq := if pollin then (s.pipe.readWq.add t).1 else s.pipe.readWq
        writeWq := if pollout then (s.pipe.writeWq.add t).1 else s.pipe.writeWq } }
  | unpoll {t} (op : s.ops t = some .polling) : Moves s (.unpoll t) { s.setOp t none with
      pipe := { s.pipe with readWq := s.pipe.readWq.remove t, writeWq := s.pipe.writeWq.remove t } }
  | reuse {p} (freed : s.freed = true) : Moves s (.reuse p) { s with pipe := p }

/-! ### Reads and writes -/

variable {s s' : Sys T F} {t : T} {f : F}

/-- A turn that stored something advances by what there was room for. -/
theorem stored_length {src : List UInt8} {written room : Nat} (h : written < src.length) :
    src.length - ((src.drop written).drop room).length = min src.length (written + room) := by
  rw [drop_drop, length_drop]
  omega

theorem stored_bytes (src : List UInt8) (written room : Nat) :
    (src.take (min src.length (written + room))).drop written = (src.drop written).take room := by
  refine ext_getElem? fun i => ?_
  simp only [getElem?_take, getElem?_drop]
  split_ifs <;> first | rfl | (rw [getElem?_eq_none]; omega)

theorem writeTurn_moves {src : List UInt8} {written id : Nat} (waking : s.toWake t = []) (op : s.ops t = some (.writing f src written id)) :
    Moves s (.go t) (s.writeTurn t f src written id) := by
  rw [Sys.writeTurn]
  split
  case isTrue more =>
    rw [Pipe.write]
    rcases eq_or_ne s.pipe.readers 0 with hr | hr
    · rw [if_pos hr]
      exact .writeRefused op more hr
    rcases eq_or_ne s.pipe.ring.count pipeBufSize with hf | hf
    · rw [if_neg hr, if_pos hf]
      exact .writeBlocked op more hr hf
    obtain ⟨hc, hrest⟩ := Ring.fill_spec (src.drop written) s.pipe.ring
    rw [if_neg hr, if_neg hf]
    dsimp only
    rw [hrest, stored_length more, stored_bytes]
    exact .writeStored waking op more hr hf hc
  case isFalse all => exact .writeDone op (not_lt.mp all)

/-- A read takes the oldest bytes, as many as it asked for if there are so many. -/
theorem taken_bytes (ring : Ring UInt8 pipeBufSize) (count : Nat) :
    (ring.drain (if count > ring.count then ring.count else count)).1 = ring.contents.take count ∧
      (ring.drain (if count > ring.count then ring.count else count)).2.contents = ring.contents.drop count := by
  obtain ⟨hout, hrest⟩ := Ring.drain_spec (if count > ring.count then ring.count else count) ring
  rw [hout, hrest]
  split_ifs with h
  · have hle : ring.contents.length ≤ count := ring.length_contents ▸ le_of_lt h
    have hself : ring.contents.length ≤ ring.count := le_of_eq ring.length_contents
    rw [take_of_length_le hself, take_of_length_le hle, drop_of_length_le hself, drop_of_length_le hle]
    exact ⟨rfl, rfl⟩
  · exact ⟨rfl, rfl⟩

theorem readTurn_moves {count : Nat} (waking : s.toWake t = []) (op : s.ops t = some (.reading f count)) :
    Moves s (.go t) (s.readTurn t f count) := by
  rw [Sys.readTurn, Pipe.read]
  rcases eq_or_ne s.pipe.ring.count 0 with hc | hc
  · rcases eq_or_ne s.pipe.writers 0 with hw | hw
    · rw [if_pos ⟨hc, hw⟩]
      exact .readEof op hc hw
    · rw [if_neg fun h => hw h.2, if_pos hc]
      exact .readBlocked op hc hw
  obtain ⟨hout, hrest⟩ := taken_bytes s.pipe.ring count
  rw [if_neg fun h => hc h.1, if_neg hc]
  dsimp only
  rw [hout]
  exact .readTaken waking op hc hrest

/-! ### All events -/

theorem go_moves (h : s.go t = some s') : Moves s (.go t) s' := by
  rw [Sys.go] at h
  rcases ne_or_eq (s.toWake t) [] with hwake | hwake
  · rw [if_pos hwake] at h
    cases h
  rw [if_neg (not_not_intro hwake)] at h
  rcases hop : s.ops t with - | op
  · rw [hop] at h
    cases h
  rw [hop] at h
  cases op with
  | writing f src written id => exact some.inj h ▸ writeTurn_moves hwake hop
  | writeSlept f src written id =>
    split_ifs at h with hs
    exact some.inj h ▸ .writeWoken hop (Bool.not_eq_true _ ▸ hs)
  | reading f count => exact some.inj h ▸ readTurn_moves hwake hop
  | readSlept f count =>
    split_ifs at h with hs
    exact some.inj h ▸ .readWoken hop (Bool.not_eq_true _ ▸ hs)
  | answered value => exact some.inj h ▸ .answer hop
  | releasing f e extra =>
    cases extra with
    | true => exact some.inj h ▸ .giveBack hop
    | false => exact some.inj h ▸ .release hwake hop
  | released free => exact some.inj h ▸ .released hop
  | opening | admitted | polling => cases h

/-- Every event does one of the listed things. -/
theorem step_moves {e : Ev T F} (h : s.step e = some s') : Moves s e s' := by
  cases e with
  | write t f src =>
    obtain ⟨hg, rfl⟩ := guarded h
    exact .write (isNone_iff_eq_none.mp hg.1) hg.2
  | read t f count =>
    obtain ⟨hg, rfl⟩ := guarded h
    exact .read (isNone_iff_eq_none.mp hg.1) hg.2
  | go t => exact go_moves h
  | wake t =>
    rw [Sys.step] at h
    rcases hlist : s.toWake t with - | ⟨u, us⟩
    · rw [hlist] at h
      cases h
    · rw [hlist] at h
      exact some.inj h ▸ .wake hlist
  | rouse t => exact some.inj h ▸ .rouse
  | share t u f =>
    obtain ⟨hg, rfl⟩ := guarded h
    exact .share (isNone_iff_eq_none.mp hg.1) hg.2.2
  | close t f =>
    obtain ⟨hfd, h⟩ := ite_none_right_eq_some.mp h
    split_ifs at h with hothers
    · exact some.inj h ▸ .closeShared (isNone_iff_eq_none.mp hfd.1) hfd.2 hothers
    obtain ⟨x, hx, rfl⟩ := map_eq_some_iff.mp h
    have hid := find?_some hx
    obtain rfl : x.id = f := of_decide_eq_true hid
    exact .closeLast (isNone_iff_eq_none.mp hfd.1) hfd.2 hothers (mem_of_find?_eq_some hx)
  | openFifo t e nonblock =>
    obtain ⟨hg, rfl⟩ := guarded h
    exact .openFifo (isNone_iff_eq_none.mp hg.1) hg.2
  | meet t =>
    rw [Sys.step] at h
    split at h
    case h_1 e nonblock hop =>
      split_ifs at h
      exact some.inj h ▸ .meet hop
    case h_2 => cases h
  | refuse t =>
    rw [Sys.step] at h
    split at h
    case h_1 e nonblock hop =>
      split_ifs at h
      exact some.inj h ▸ .noReader hop
    case h_2 e hop => exact some.inj h ▸ .noFile hop
    case h_3 => cases h
  | join t f =>
    rw [Sys.step] at h
    split at h
    case h_1 e hop =>
      split_ifs at h with hnew
      exact some.inj h ▸ .join hop hnew
    case h_2 => cases h
  | poll t f pollin pollout =>
    obtain ⟨hg, rfl⟩ := guarded h
    exact .poll (isNone_iff_eq_none.mp hg.1) hg.2
  | unpoll t =>
    rw [Sys.step] at h
    split at h
    case h_1 hop => exact some.inj h ▸ .unpoll hop
    case h_2 => cases h
  | reuse p =>
    obtain ⟨hg, rfl⟩ := guarded h
    exact .reuse hg

end Orthox.Pipes
