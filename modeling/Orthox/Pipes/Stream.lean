import Orthox.Pipes.Objects

/-! The byte stream of a pipe. What the readers were handed, followed by what the ring holds, is what was accepted from the
    writers, in the order of the sections under the lock. A read ends at the end of file only without a writer and a write is
    refused only without a reader, since the counters of the ends are those of the open objects. -/

namespace Orthox.Pipes
open Schemes List Function Option

variable {T F : Type} [DecidableEq T] [DecidableEq F]

/-! ### The history -/

/-- The bytes handed out are the first of those accepted; while the pages are the pipe's, the ring has the others. -/
structure History (s : Sys T F) : Prop where
  got : s.got <+: s.sent.map Prod.snd
  rest : s.freed = false → s.sent.map Prod.snd = s.got ++ s.pipe.ring.contents

variable {s s' : Sys T F}

omit [DecidableEq T] [DecidableEq F] in
/-- The history does not look at anything but the ring. -/
theorem History.frame (h : History s) (hsent : s'.sent = s.sent) (hgot : s'.got = s.got) (hring : s'.pipe.ring = s.pipe.ring)
    (hfreed : s'.freed = false → s.freed = false) : History s' :=
  ⟨hgot ▸ hsent ▸ h.got, fun hf => hsent ▸ hgot ▸ hring ▸ h.rest (hfreed hf)⟩

theorem History.step (h : History s) (hinv : Inv s) {e : Ev T F} (hm : Moves s e s') : History s' := by
  cases hm with
  | writeStored waking op more readers space stored =>
    have hrest := h.rest (hinv.live op rfl)
    refine ⟨?_, fun _ => ?_⟩
    · rw [map_append]
      exact h.got.trans (prefix_append _ _)
    · rw [map_append, hrest, stored, append_assoc, List.map_map]
      exact congrArg _ (congrArg _ (map_id _))
  | @readTaken t f count ring waking op nonempty taken =>
    have hrest := h.rest (hinv.live op rfl)
    have hsplit : s.sent.map Prod.snd = (s.got ++ s.pipe.ring.contents.take count) ++ ring.contents := by
      rw [hrest, taken, append_assoc, take_append_drop]
    exact ⟨⟨_, hsplit.symm⟩, fun _ => hsplit⟩
  | released op => exact h.frame rfl rfl rfl fun hor => (Bool.or_eq_false_iff.mp hor).1
  | reuse freed => exact ⟨h.got, fun hlive => absurd (hlive.symm.trans freed) nofun⟩
  | write | read | writeDone | writeRefused | writeBlocked | writeWoken | readEof | readBlocked | readWoken | answer | giveBack
  | release | wake | rouse | share | closeShared | closeLast | openFifo | meet | noReader | noFile | join | poll | unpoll =>
    exact h.frame rfl rfl rfl id

omit [DecidableEq T] [DecidableEq F] in
theorem Fresh.history (h : Fresh s) : History s := by
  cases h with
  | pipe | fifo => exact ⟨List.nil_prefix, fun _ => rfl⟩

theorem Reaches.history (h : Reaches Careful s) : History s := by
  induction h with
  | fresh h => exact h.history
  | step hr hok hs ih => exact ih.step (hr.inv fun _ _ => id) (step_moves hs)

/-! ### The law -/

/-- The byte-stream law of a pipe at one moment: what was handed out, how full the ring is, and what the next turn of a
    read or write may answer. -/
structure StreamLaw (s : Sys T F) : Prop where
  order : s.got <+: s.sent.map Prod.snd
  count : s.freed = false → s.pipe.ring.count + s.got.length = s.sent.length
  room : s.pipe.ring.count ≤ pipeBufSize
  eof : ∀ {t f count s'}, s.ops t = some (.reading f count) → count ≠ 0 → s.step (.go t) = some s' →
    s'.ops t = some (.answered 0) → s.pipe.ring.contents = [] ∧ ∀ x ∈ s.files, x.ends.writes = false
  epipe : ∀ {t f src written id s'}, s.ops t = some (.writing f src written id) → s.step (.go t) = some s' →
    s'.ops t = some (.answered (-epipe)) → ∀ x ∈ s.files, x.ends.reads = false

omit [DecidableEq T] [DecidableEq F] in
/-- A counter at zero: no open object has the end. -/
theorem none_of_zero {c : UInt16} {files : List (File F)} {q : File F → Bool} (hc : c.toNat = files.countP q) (hzero : c = 0) :
    ∀ x ∈ files, q x = false := by
  intro x hx
  have hnone := countP_eq_zero.mp (hc.symm.trans (congrArg UInt16.toNat hzero))
  exact Bool.eq_false_iff.mpr (hnone x hx)

/-- A read answers zero only at the end of file. -/
theorem eof_only (hinv : Inv s) {t : T} {f : F} {count : Nat} (op : s.ops t = some (.reading f count)) (hcount : count ≠ 0)
    (hs : s.step (.go t) = some s') (hans : s'.ops t = some (.answered 0)) :
    s.pipe.ring.contents = [] ∧ ∀ x ∈ s.files, x.ends.writes = false := by
  have hlive := hinv.live op rfl
  cases step_moves hs with
  | readEof op' nothing gone =>
    exact ⟨eq_nil_of_length_eq_zero (s.pipe.ring.length_contents.trans nothing), none_of_zero (hinv.writers hlive) gone⟩
  | @readTaken _ _ count' _ waking op' nonempty taken =>
    cases op.symm.trans op'
    have hlen : ((s.pipe.ring.contents.take count).length : Int) = 0 := Op.answered.inj (some.inj ((update_self t _ s.ops).symm.trans hans))
    rw [length_take, Ring.length_contents] at hlen
    omega
  | readBlocked op' => cases (update_self ..).symm.trans hans
  | writeDone op' | writeRefused op' | writeBlocked op' | writeStored _ op' | writeWoken op' | readWoken op' | answer op' | giveBack op'
  | release _ op' | released op' => cases op.symm.trans op'

/-- A write is refused only without a reader. -/
theorem epipe_only (hinv : Inv s) {t : T} {f : F} {src : List UInt8} {written id : Nat}
    (op : s.ops t = some (.writing f src written id)) (hs : s.step (.go t) = some s')
    (hans : s'.ops t = some (.answered (-epipe))) : ∀ x ∈ s.files, x.ends.reads = false := by
  have hlive := hinv.live op rfl
  cases step_moves hs with
  | writeRefused op' more gone => exact none_of_zero (hinv.readers hlive) gone
  | writeDone op' =>
    have := Op.answered.inj (some.inj ((update_self t _ s.ops).symm.trans hans))
    have hneg : -epipe < 0 := by decide
    omega
  | writeBlocked op' | writeStored _ op' => cases (update_self ..).symm.trans hans
  | readEof op' | readTaken _ op' | readBlocked op' | writeWoken op' | readWoken op' | answer op' | giveBack op' | release _ op'
  | released op' => cases op.symm.trans op'

/-- CORRECT under care in opening: in every run, however the sections of any number of readers, writers and closers
    interleave. -/
theorem pipe_byte_stream (h : Reaches Careful s) : StreamLaw s := by
  have hinv := h.inv fun _ _ => id
  have hhist := h.history
  refine ⟨hhist.got, fun hlive => ?_, s.pipe.ring.count_le, eof_only hinv, epipe_only hinv⟩
  have hlen := congrArg length (hhist.rest hlive)
  rw [length_map, length_append, Ring.length_contents] at hlen
  omega

/-- A pipe whose caller writes two bytes: the run is careful, and the ring has what was accepted. -/
theorem pipe_byte_stream_two : ∃ s : Sys Nat Nat, (Sys.pipe₀ (fun _ => 0) 0 10 11).run [.write 0 11 [1, 2], .go 0] = some s ∧
      s.pipe.ring.contents = [1, 2] ∧ StreamLaw s := by
  have ten_ne_eleven : 10 ≠ 11 := by decide
  refine ⟨_, rfl, rfl, pipe_byte_stream ?_⟩
  refine .step (e := .go 0) (.step (e := .write 0 11 [1, 2]) (.fresh (.pipe _ 0 ten_ne_eleven)) trivial rfl) ?_ rfl
  rintro f e ⟨⟩

/-! ### A FIFO given up too early -/

theorem run_reaches {ok : Sys T F → Ev T F → Prop} (hok : ∀ s e, ok s e) : ∀ (es : List (Ev T F)) {s s' : Sys T F},
    Reaches ok s → s.run es = some s' → Reaches ok s'
  | [], _, _, h, hrun => some.inj hrun ▸ h
  | _ :: es, _, _, h, hrun => by
    obtain ⟨s₁, hs, hrun⟩ := bind_eq_some_iff.mp hrun
    exact run_reaches hok es (.step h (hok _ _) hs) hrun

/-- Another pipe, with one byte in its ring, in the pages of a pipe that was freed. -/
def strangerPipe : Pipe Nat := ⟨(Ring.empty (fun _ => 0) pipeBufSize_pos).push 42 (by decide), 2, 1, 1, .init, .init⟩

/-- A reader meets a writer in the table; before the reader is counted in the pipe the writer closes, and the pipe is
    freed under the reader. -/
def earlyRelease : List (Ev Nat Nat) :=
  [.openFifo 0 ⟨true, false⟩ false, .openFifo 1 ⟨false, true⟩ false, .meet 0, .meet 1, .join 1 11, .close 1 11, .go 1, .go 1,
   .reuse strangerPipe, .join 0 10, .read 0 10 1, .go 0]

/-- INCORRECT in general: the reader of the FIFO is handed a byte of a pipe of somebody else. -/
theorem fifo_reader_gets_strangers_byte :
    ∃ s : Sys Nat Nat, Reaches (fun _ _ => True) s ∧ (Sys.fifo₀ fun _ => 0).run earlyRelease = some s ∧
      s.got = [42] ∧ s.sent = [] ∧ ¬ StreamLaw s := by
  refine ⟨_, run_reaches (fun _ _ => trivial) earlyRelease (.fresh (.fifo fun _ => 0)) rfl, rfl, rfl, rfl, fun h => ?_⟩
  exact absurd h.order (by decide)

end Orthox.Pipes
