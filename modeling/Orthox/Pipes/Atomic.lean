import Orthox.Pipes.Wakeups

/-! Small writes. A write stores what there is room for and then lets the lock go, so a write of at most
    `PIPE_BUF_SIZE` bytes stays in one piece only if the turn that stores its first byte has room for all of it. -/

namespace Orthox.Pipes
open Schemes List Option

variable {T F : Type}

/-! ### Pieces of the stream -/

/-- The bytes with one number stand together. -/
structure InOnePiece (sent : List (Nat × UInt8)) (id : Nat) (b : List UInt8) : Prop where
  split : ∃ a c, sent = a ++ b.map (id, ·) ++ c ∧ ∀ p ∈ a ++ c, p.1 ≠ id

/-- Every write of at most `PIPE_BUF_SIZE` bytes is in the stream in one piece, or not at all. -/
def Contiguous (s : Sys T F) : Prop :=
  ∀ {id src}, s.calls[id]? = some src → src.length ≤ pipeBufSize → InOnePiece s.sent id [] ∨ InOnePiece s.sent id src

variable {sent : List (Nat × UInt8)} {id : Nat}

theorem inOnePiece_nil : InOnePiece sent id [] ↔ ∀ p ∈ sent, p.1 ≠ id := by
  constructor
  · rintro ⟨a, c, rfl, hne⟩
    simpa using hne
  · intro hne
    exact ⟨sent, [], by simp, by simpa using hne⟩

variable {b src : List UInt8}

/-- Bytes of another write come after. -/
theorem InOnePiece.append {more : List (Nat × UInt8)} (h : InOnePiece sent id b)
    (hmore : ∀ p ∈ more, p.1 ≠ id) : InOnePiece (sent ++ more) id b := by
  obtain ⟨a, c, rfl, hne⟩ := h.split
  refine ⟨a, c ++ more, by rw [append_assoc _ c more], fun p hp => ?_⟩
  rw [← append_assoc] at hp
  exact (mem_append.mp hp).elim (hne p) (hmore p)

/-- After the piece nothing with its number comes. -/
theorem InOnePiece.tail (h : InOnePiece sent id b) :
    ∀ p ∈ (sent.dropWhile fun p => p.1 ≠ id).dropWhile fun p => p.1 = id, p.1 ≠ id := by
  obtain ⟨a, c, rfl, hne⟩ := h.split
  have ha : ∀ p ∈ a, (decide (p.1 ≠ id)) := fun p hp => decide_eq_true (hne p (mem_append_left _ hp))
  have hc : ∀ p ∈ c, p.1 ≠ id := fun p hp => hne p (mem_append_right _ hp)
  rw [append_assoc, dropWhile_append_of_pos ha]
  intro p hp
  rcases b with - | ⟨x, xs⟩
  · exact hc p ((dropWhile_sublist _).subset ((dropWhile_sublist _).subset hp))
  rw [map_cons, cons_append, dropWhile_cons_of_neg (by simp)] at hp
  have hb : ∀ p ∈ (id, x) :: xs.map (id, ·), (decide (p.1 = id)) := by
    intro p hp
    rcases mem_cons.mp hp with rfl | hp
    · exact decide_eq_true rfl
    · obtain ⟨y, -, rfl⟩ := mem_map.mp hp
      exact decide_eq_true rfl
  rw [← cons_append, dropWhile_append_of_pos hb] at hp
  exact hc p ((dropWhile_sublist _).subset hp)

/-! ### Numbered writes -/

/-- The buffer, progress and number of a write in progress. -/
def Op.write? : Op F → Option (List UInt8 × Nat × Nat)
  | .writing _ src written id | .writeSlept _ src written id => some (src, written, id)
  | _ => none

/-- The turn that stores the first byte of a small write has room for the whole of it. -/
def Roomy (s : Sys T F) (e : Ev T F) : Prop :=
  ∀ t, e = .go t → ∀ f src id, s.ops t = some (.writing f src 0 id) → src.length ≤ pipeBufSize →
    s.pipe.readers ≠ 0 → s.pipe.ring.count ≠ pipeBufSize → src.length ≤ s.pipe.room

/-- Numbers are given once, and a small write has stored nothing or everything. -/
structure Numbered (s : Sys T F) : Prop where
  known : ∀ p ∈ s.sent, p.1 < s.calls.length
  call : ∀ {t o src written id}, s.ops t = some o → o.write? = some (src, written, id) → s.calls[id]? = some src
  alone : ∀ {t u o o' src src' written written' id}, s.ops t = some o → s.ops u = some o' →
    o.write? = some (src, written, id) → o'.write? = some (src', written', id) → t = u
  start : ∀ {t o src written id}, s.ops t = some o → o.write? = some (src, written, id) → src.length ≤ pipeBufSize →
    written = 0 ∧ InOnePiece s.sent id [] ∨ written = src.length
  whole : Contiguous s

variable [DecidableEq T] [DecidableEq F] {s s' : Sys T F} {t : T}

section
variable (h : Numbered s)
include h

omit [DecidableEq F] in
/-- An event that starts no write and stores nothing. -/
theorem Numbered.frame {o' : Option (Op F)} (hops : s'.ops = Function.update s.ops t o')
    (hsent : s'.sent = s.sent) (hcalls : s'.calls = s.calls)
    (ho' : ∀ o w, o' = some o → o.write? = some w → ∃ o₁, s.ops t = some o₁ ∧ o₁.write? = some w) : Numbered s' := by
  have hold : ∀ {u o w}, s'.ops u = some o → o.write? = some w → ∃ o₁, s.ops u = some o₁ ∧ o₁.write? = some w := by
    intro u o w hu hw
    rw [hops] at hu
    rcases update_cases hu with ⟨rfl, heq⟩ | ⟨-, hu⟩
    · exact ho' o w heq hw
    · exact ⟨o, hu, hw⟩
  refine ⟨by rw [hsent, hcalls]; exact h.known, ?_, ?_, ?_, ?_⟩
  · intro u o src written id hu hw
    obtain ⟨o₁, hu, hw⟩ := hold hu hw
    exact hcalls ▸ h.call hu hw
  · intro u v o o₂ src src' written written' id hu hv hw hw'
    obtain ⟨o₁, hu, hw⟩ := hold hu hw
    obtain ⟨o₂, hv, hw'⟩ := hold hv hw'
    exact h.alone hu hv hw hw'
  · intro u o src written id hu hw
    obtain ⟨o₁, hu, hw⟩ := hold hu hw
    rw [hsent]
    exact h.start hu hw
  · intro id src
    rw [hsent, hcalls]
    exact h.whole

omit [DecidableEq F] in
/-- A new write gets a number nothing in the stream has. -/
theorem Numbered.write {f : F} :
    Numbered { s.setOp t (some (.writing f src 0 s.calls.length)) with calls := s.calls ++ [src] } := by
  have hfresh : InOnePiece s.sent s.calls.length [] := inOnePiece_nil.mpr fun p hp => ne_of_lt (h.known p hp)
  have hcases : ∀ {u o w}, Function.update s.ops t (some (.writing f src 0 s.calls.length)) u = some o → o.write? = some w →
      u = t ∧ w = (src, 0, s.calls.length) ∨ s.ops u = some o := by
    intro u o w hu hw
    rcases update_cases hu with ⟨rfl, heq⟩ | ⟨-, hu⟩
    · cases heq
      exact .inl ⟨rfl, (some.inj hw).symm⟩
    · exact .inr hu
  have hlt : ∀ {u o src' written id}, s.ops u = some o → o.write? = some (src', written, id) → id < s.calls.length :=
    fun hu hw => (List.getElem?_eq_some_iff.mp (h.call hu hw)).1
  have hknown : ∀ p ∈ s.sent, p.1 < (s.calls ++ [src]).length := by
    intro p hp
    rw [length_append]
    exact Nat.lt_add_right _ (h.known p hp)
  refine ⟨hknown, ?_, ?_, ?_, ?_⟩
  · intro u o src' written id hu hw
    rcases hcases hu hw with ⟨-, heq⟩ | hu
    · cases heq
      exact getElem?_concat_length
    · exact getElem?_append_left (hlt hu hw) ▸ h.call hu hw
  · intro u v o o' src₁ src₂ w₁ w₂ id hu hv hw hw'
    rcases hcases hu hw with ⟨rfl, heq⟩ | hu'
    · rcases hcases hv hw' with ⟨rfl, -⟩ | hv'
      · rfl
      · cases heq
        exact absurd (hlt hv' hw') (lt_irrefl _)
    rcases hcases hv hw' with ⟨rfl, heq⟩ | hv'
    · cases heq
      exact absurd (hlt hu' hw) (lt_irrefl _)
    · exact h.alone hu' hv' hw hw'
  · intro u o src' written id hu hw hsmall
    rcases hcases hu hw with ⟨-, heq⟩ | hu
    · cases heq
      exact .inl ⟨rfl, hfresh⟩
    · exact h.start hu hw hsmall
  · intro id src' hcall hsmall
    rcases lt_or_ge id s.calls.length with hid | hid
    · exact h.whole (getElem?_append_left hid ▸ hcall) hsmall
    refine .inl (inOnePiece_nil.mpr fun p hp => ?_)
    have := h.known p hp
    omega

omit [DecidableEq F] in
/-- A turn that stores bytes: all of a small write, which had stored nothing, or some of a large one. -/
theorem Numbered.stored {f : F} {written n : Nat} {p : Pipe T} {wake : T → List T}
    (hroomy : Roomy s (.go t)) (op : s.ops t = some (.writing f src written n)) (more : written < src.length)
    (readers : s.pipe.readers ≠ 0) (space : s.pipe.ring.count ≠ pipeBufSize) :
    Numbered { s.setOp t (some (.writing f src (min src.length (written + s.pipe.room)) n)) with
      pipe := p
      toWake := wake
      sent := s.sent ++ ((src.drop written).take s.pipe.room).map (n, ·) } := by
  have hcall := h.call op rfl
  have hnum : ∀ {b : List UInt8} {id : Nat}, id ≠ n → ∀ q ∈ b.map (n, ·), q.1 ≠ id := by
    intro b id hne q hq
    obtain ⟨x, -, rfl⟩ := mem_map.mp hq
    exact hne.symm
  -- a small write is at its beginning, and there is room for all of it
  have hsmall : src.length ≤ pipeBufSize →
      InOnePiece s.sent n [] ∧ (src.drop written).take s.pipe.room = src ∧ min src.length (written + s.pipe.room) = src.length := by
    intro hlen
    rcases h.start op rfl hlen with ⟨rfl, hnone⟩ | rfl
    · have hroom := hroomy t rfl f src n op hlen readers space
      exact ⟨hnone, by rw [drop_zero, take_of_length_le hroom], by omega⟩
    · exact absurd more (lt_irrefl _)
  have hcases : ∀ {u o w}, Function.update s.ops t (some (.writing f src (min src.length (written + s.pipe.room)) n)) u = some o →
      o.write? = some w → u = t ∧ w = (src, min src.length (written + s.pipe.room), n) ∨ u ≠ t ∧ s.ops u = some o := by
    intro u o w hu hw
    rcases update_cases hu with ⟨rfl, heq⟩ | hu
    · cases heq
      exact .inl ⟨rfl, (some.inj hw).symm⟩
    · exact .inr hu
  refine ⟨?_, ?_, ?_, ?_, ?_⟩
  · intro q hq
    rcases mem_append.mp hq with hq | hq
    · exact h.known q hq
    · obtain ⟨x, -, rfl⟩ := mem_map.mp hq
      exact (List.getElem?_eq_some_iff.mp hcall).1
  · intro u o src' written' id hu hw
    rcases hcases hu hw with ⟨-, heq⟩ | ⟨-, hu⟩
    · cases heq
      exact hcall
    · exact h.call hu hw
  · intro u v o o' src₁ src₂ w₁ w₂ id hu hv hw hw'
    rcases hcases hu hw with ⟨rfl, heq⟩ | ⟨-, hu'⟩
    · cases heq
      rcases hcases hv hw' with ⟨rfl, -⟩ | ⟨-, hv'⟩
      · rfl
      · exact h.alone op hv' rfl hw'
    rcases hcases hv hw' with ⟨rfl, heq⟩ | ⟨-, hv'⟩
    · cases heq
      exact h.alone hu' op hw rfl
    · exact h.alone hu' hv' hw hw'
  · intro u o src' written' id hu hw hlen
    rcases hcases hu hw with ⟨-, heq⟩ | ⟨hne, hu'⟩
    · cases heq
      exact .inr (hsmall hlen).2.2
    have hid : id ≠ n := by
      rintro rfl
      exact hne (h.alone hu' op hw rfl)
    exact (h.start hu' hw hlen).imp_left fun hstart => ⟨hstart.1, hstart.2.append (hnum hid)⟩
  · intro id src' hid hlen
    rcases eq_or_ne id n with rfl | hne
    · obtain rfl := some.inj (hcall.symm.trans hid)
      obtain ⟨hnone, hall, -⟩ := hsmall hlen
      refine .inr ⟨s.sent, [], ?_, ?_⟩
      · rw [append_nil, hall]
      · rw [append_nil]
        exact inOnePiece_nil.mp hnone
    · exact (h.whole hid hlen).imp (fun hp => hp.append (hnum hne)) fun hp => hp.append (hnum hne)

theorem Numbered.step {e : Ev T F} (hok : Roomy s e) (hm : Moves s e s') : Numbered s' := by
  cases hm with
  | write idle fd => exact h.write
  | writeStored waking op more readers space => exact h.stored hok op more readers space
  | writeBlocked op | writeWoken op =>
    refine h.frame rfl rfl rfl ?_
    rintro _ w ⟨⟩ hw
    exact ⟨_, op, hw⟩
  | read | writeDone | writeRefused | readEof | readBlocked | readTaken | readWoken | answer | giveBack | release | released | closeLast
  | openFifo | meet | noReader | noFile | join | poll | unpoll =>
    refine h.frame rfl rfl rfl ?_
    rintro _ w ⟨⟩ ⟨⟩
  | wake | rouse | share | closeShared | reuse => exact ⟨h.known, h.call, h.alone, h.start, h.whole⟩

end

omit [DecidableEq T] [DecidableEq F] in
theorem Fresh.numbered (h : Fresh s) : Numbered s := by
  cases h with
  | pipe | fifo => exact ⟨nofun, nofun, nofun, nofun, nofun⟩

theorem Reaches.numbered (h : Reaches Roomy s) : Numbered s := by
  induction h with
  | fresh h => exact h.numbered
  | step _ hok hs ih => exact ih.step hok (step_moves hs)

/-- CORRECT where there is room for the whole of a small write when it starts to store: in every run, its bytes stand
    together in the stream. -/
theorem small_writes_contiguous (h : Reaches Roomy s) : Contiguous s := h.numbered.whole

/-- Two bytes written into an empty pipe. -/
theorem small_writes_contiguous_two :
    ∃ s : Sys Nat Nat, (Sys.pipe₀ (fun _ => 0) 0 10 11).run [.write 0 11 [1, 2], .go 0] = some s ∧
      s.sent = [(0, 1), (0, 2)] ∧ Contiguous s := by
  have ten_ne_eleven : 10 ≠ 11 := by decide
  refine ⟨_, rfl, rfl, small_writes_contiguous ?_⟩
  refine .step (e := .go 0) (.step (e := .write 0 11 [1, 2]) (.fresh (.pipe _ 0 ten_ne_eleven)) nofun rfl) ?_ rfl
  rintro t ⟨⟩ f src id ⟨⟩ - - -
  decide

/-! ### A write that is split -/

/-- With one byte of room left, a write of two bytes stores one and sleeps; a reader makes room, another writer uses it
    first, and the second byte follows. -/
def splitWrite : List (Ev Nat Nat) :=
  [.share 0 1 11, .share 0 2 11, .write 0 11 (List.replicate 4095 0), .go 0, .go 0, .go 0,
   .write 1 11 [1, 2], .go 1, .go 1, .read 0 10 2, .go 0, .wake 0, .go 0,
   .write 2 11 [9], .go 2, .go 2, .go 2, .go 1, .go 1, .go 1, .go 1]

/-- INCORRECT in general: all three writes succeed, and the byte of the third stands inside the second. -/
theorem small_write_interleaved :
    ∃ s : Sys Nat Nat, Reaches (fun _ _ => True) s ∧ (Sys.pipe₀ (fun _ => 0) 0 10 11).run splitWrite = some s ∧
      s.sent.drop 4095 = [(1, 1), (2, 9), (1, 2)] ∧ ¬ Contiguous s := by
  have ten_ne_eleven : 10 ≠ 11 := by decide
  have hend : ((Sys.pipe₀ (fun _ => 0) 0 10 11).run splitWrite).map (fun s => (s.sent.drop 4095, s.calls[1]?,
      (s.sent.dropWhile fun p => p.1 ≠ 1).dropWhile fun p => p.1 = 1)) =
      some ([(1, 1), (2, 9), (1, 2)], some [1, 2], [(2, 9), (1, 2)]) := by
    decide +kernel
  obtain ⟨s, hrun, hs⟩ := map_eq_some_iff.mp hend
  obtain ⟨hsent, hcall, htail⟩ : s.sent.drop 4095 = _ ∧ s.calls[1]? = _ ∧ _ = _ := by simpa only [Prod.mk.injEq] using hs
  refine ⟨s, run_reaches (fun _ _ => trivial) splitWrite (.fresh (.pipe (fun _ => 0) 0 ten_ne_eleven)) hrun, hrun, hsent,
    fun h => ?_⟩
  have hpiece : (1, 2) ∈ (s.sent.dropWhile fun p => p.1 ≠ 1).dropWhile fun p => p.1 = 1 := by
    rw [htail]
    decide
  rcases h hcall (by decide) with hp | hp
  · exact hp.tail _ hpiece rfl
  · exact hp.tail _ hpiece rfl

end Orthox.Pipes
