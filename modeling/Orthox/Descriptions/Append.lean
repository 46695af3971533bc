import Orthox.Descriptions.Offsets

/-! Appending. With `O_APPEND`, `fs_write` looks up the end of the file under the inode lock and lets the lock go before it
    writes; every chunk takes the lock again. The strings stay whole and behind one another in the runs where each
    chunk still finds the end of the file where the call expects it. -/

namespace Orthox.Descriptions
open Blocks Files List Function Sys Schemes

variable {T F : Type} [DecidableEq T] [DecidableEq F]

/-- There is room for the next chunk, and `pwrite64` is not refused for the offset it has to go back to. -/
def Sys.Serves (s : Sys T F) : Op F → Prop
  | .save f _ _ => s.offset f < 2 ^ 63
  | .chunk _ _ src _ start written _ => written < src.length →
    start + written + min (src.length - written) writeChunkMax < 2 ^ 32 ∧
    stored s.vol (inodeAt s.vol s.inum) (start + written) (min (src.length - written) writeChunkMax) =
      min (src.length - written) writeChunkMax
  | _ => True

/-- The runs in question: all writes append and all are served. -/
def Appending (s : Sys T F) : Ev T F → Prop
  | .write _ _ append _ => append = true
  | .pwrite _ _ append _ _ => append = true
  | .go t _ _ _ => ∀ o ∈ s.ops t, s.Serves o
  | _ => True

/-- The file ends where the call takes its end to be. -/
def Sys.Ends (s : Sys T F) : Op F → Prop
  | .chunk _ _ src _ start written _ => written < src.length → start + written = s.size
  | _ => True

/-- Every chunk is written at the end of the file. -/
def AtEnd (s : Sys T F) : Ev T F → Prop
  | .go t _ _ _ => ∀ o ∈ s.ops t, s.Ends o
  | _ => True

/-- Once no call is in progress, the file is its old contents and then the strings of all writes, in some order. -/
def Appended (old : Str) (s : Sys T F) : Prop :=
  (∀ t, s.ops t = none) → ∃ order : List Str, order.Perm s.calls ∧ s.contents = old ++ order.flatten

/-! ### Pieces -/

/-- The write a task is in: its string and number, what is written of it, and from where on. -/
structure Writing where
  src : Str
  id : Nat
  written : Nat
  start : Nat

def Op.writing? : Op F → Option Writing
  | .save _ (.write _ src id) _ | .seek _ (.write _ src id) _ | .enter _ _ src id _ | .sample _ src id _ => some ⟨src, id, 0, 0⟩
  | .chunk _ _ src id start written _ => some ⟨src, id, written, if written = 0 then 0 else start⟩
  | _ => none

/-- The write each task is in. -/
def Sys.writes (s : Sys T F) (t : T) : Option Writing := (s.ops t).bind Op.writing?

/-- The strings of numbered pieces. -/
def strings (pieces : List (Nat × Str)) : Str := (pieces.map Prod.snd).flatten

/-- The file is its old contents and then pieces: the strings of the writes that are over, and of each write in progress
    what is written so far. -/
structure Pieces (old : Str) (s : Sys T F) (pieces : List (Nat × Str)) : Prop where
  wf : WellFormed s.vol
  live : Live s.vol s.inum
  contents : s.contents = old ++ strings pieces
  nodup : (pieces.map Prod.fst).Nodup
  known : ∀ q ∈ pieces, q.1 < s.calls.length
  call : ∀ {t w}, s.writes t = some w → s.calls[w.id]? = some w.src ∧ w.written ≤ w.src.length
  alone : ∀ {t u w w'}, s.writes t = some w → s.writes u = some w' → w.id = w'.id → t = u
  fresh : ∀ {t w}, s.writes t = some w → w.written = 0 → w.id ∉ pieces.map Prod.fst
  part : ∀ {t w}, s.writes t = some w → 0 < w.written →
    ∃ a b, pieces = a ++ (w.id, w.src.take w.written) :: b ∧ w.start = old.length + (strings a).length
  ended : ∀ {id src}, s.calls[id]? = some src → (∀ t w, s.writes t = some w → w.id ≠ id) → (id, src) ∈ pieces

variable {w : Writing}

@[simp] theorem strings_append (a b : List (Nat × Str)) : strings (a ++ b) = strings a ++ strings b := by
  simp only [strings, map_append, flatten_append]

@[simp] theorem strings_cons (q : Nat × Str) (a : List (Nat × Str)) : strings (q :: a) = q.2 ++ strings a := rfl

variable {old : Str} {s s' : Sys T F} {t : T} {pieces : List (Nat × Str)}

section
omit [DecidableEq F]

variable {src : Str} {n : Option (Op F)} {o : Op F}

theorem writes_update (hops : s'.ops = update s.ops t n) : s'.writes = update s.writes t (n.bind Op.writing?) := by
  funext u
  rcases eq_or_ne u t with rfl | hne
  · simp only [writes, hops, update_self]
  · simp only [writes, hops, update_of_ne hne]

theorem left_update (hwrites : s'.writes = update s.writes t none) {u : T} (hu : s'.writes u = some w) :
    u ≠ t ∧ s.writes u = some w := update_none (hwrites ▸ hu)

omit [DecidableEq T] in
theorem contents_congr (hvol : s'.vol = s.vol) (hinum : s'.inum = s.inum) : s'.contents = s.contents := by
  simp only [contents, size, hvol, hinum]

/-- The bytes of a write that begins at the end. -/
theorem map_overlay_end (d src : Nat → BitVec 8) (n k : Nat) :
    (range (n + k)).map (overlay d src n k) = (range n).map d ++ (range k).map src := by
  rw [range_add, map_append, map_map]
  congr 1
  · refine map_congr_left fun p hp => ?_
    have := mem_range.mp hp
    rw [overlay, if_neg (by omega)]
  · refine map_congr_left fun p hp => ?_
    have := mem_range.mp hp
    simp only [comp_apply, overlay]
    rw [if_pos (by omega), Nat.add_sub_cancel_left]

theorem range_map_getD (src : Str) {a k : Nat} (h : a + k ≤ src.length) :
    (range k).map (fun j => src.getD (a + j) 0) = (src.drop a).take k := by
  refine ext_getElem (by simp; omega) fun j h₁ h₂ => ?_
  rw [length_map, length_range] at h₁
  have hlt : a + j < src.length := by omega
  simp [getElem?_eq_getElem hlt]

theorem eq_nil_of_strings {b : List (Nat × Str)} (h : strings b = []) {q : Nat × Str} (hq : q ∈ b) : q.2 = [] :=
  flatten_eq_nil_iff.mp h q.2 (mem_map_of_mem hq)

/-- The piece of a write so far; none if nothing is written. -/
def Writing.piece (w : Writing) : List (Nat × Str) := if w.written = 0 then [] else [(w.id, w.src.take w.written)]

theorem Writing.strings_piece (w : Writing) : strings w.piece = w.src.take w.written := by
  rw [piece]
  split_ifs with h
  · rw [h]
    rfl
  · exact append_nil _

variable (h : Pieces old s pieces)
include h

omit [DecidableEq T] in
/-- At rest every write is over. -/
theorem Pieces.appended : Appended old s := by
  intro hidle
  have hmem : ∀ {id src}, s.calls[id]? = some src → (id, src) ∈ pieces := fun hc => h.ended hc fun t w ht => by
    rw [writes, hidle] at ht
    cases ht
  have hids : (pieces.map Prod.fst).Perm (range s.calls.length) := by
    rw [perm_ext_iff_of_nodup h.nodup nodup_range]
    intro id
    rw [mem_range]
    constructor
    · intro hid
      obtain ⟨q, hq, rfl⟩ := mem_map.mp hid
      exact h.known q hq
    · intro hid
      exact mem_map.mpr ⟨_, hmem (getElem?_eq_getElem hid), rfl⟩
  -- a number has one piece, which is its string
  have hstr : ∀ q ∈ pieces, s.calls.getD q.1 [] = q.2 := by
    intro q hq
    have hlt := h.known q hq
    have hsame := inj_on_of_nodup_map h.nodup hq (hmem (getElem?_eq_getElem hlt)) rfl
    rw [getD, getElem?_eq_getElem hlt]
    exact (congrArg Prod.snd hsame).symm
  have hrange : (range s.calls.length).map (fun id => s.calls.getD id []) = s.calls := by
    refine ext_getElem (by simp) fun i h₁ h₂ => ?_
    simp [getElem?_eq_getElem h₂]
  refine ⟨pieces.map Prod.snd, ?_, h.contents⟩
  calc (pieces.map Prod.snd) = (pieces.map Prod.fst).map fun id => s.calls.getD id [] := by
        rw [map_map]
        exact map_congr_left fun q hq => (hstr q hq).symm
    _ |>.Perm ((range s.calls.length).map fun id => s.calls.getD id []) := hids.map _
    _ = s.calls := hrange

/-! ### Sections -/

section
variable (hw : s.writes t = some w)
include hw

omit [DecidableEq T] in
/-- Every write but one is over. -/
theorem Pieces.ended_other {id : Nat} (hne : w.id ≠ id)
    (hc : s.calls[id]? = some src) (hnone : ∀ u x, u ≠ t → s.writes u = some x → x.id ≠ id) : (id, src) ∈ pieces := by
  refine h.ended hc fun u x hu => ?_
  rcases eq_or_ne u t with rfl | hut
  · exact Option.some.inj (hw.symm.trans hu) ▸ hne
  · exact hnone u x hut hu

omit [DecidableEq T] in
/-- Where the piece of a write stands that is at the end of the file: only empty pieces come behind it. -/
theorem Pieces.place {start : Nat} (hstart : 0 < w.written → w.start = start) (hend : start + w.written = s.size) :
    ∃ a b, pieces = a ++ (w.piece ++ b) ∧ strings b = [] ∧ start = old.length + (strings a).length ∧
      w.id ∉ (a ++ b).map Prod.fst := by
  have hsize : s.size = old.length + (strings pieces).length := by
    have := congrArg length h.contents
    rwa [Sys.contents, length_map, length_range, length_append] at this
  rcases Nat.eq_zero_or_pos w.written with hz | hpos
  · refine ⟨pieces, [], ?_, rfl, by omega, ?_⟩
    · rw [Writing.piece, if_pos hz, append_nil, append_nil]
    · rw [append_nil]
      exact h.fresh hw hz
  obtain ⟨a, b, hp, hs⟩ := h.part hw hpos
  have hlen := (h.call hw).2
  refine ⟨a, b, ?_, ?_, by rw [← hstart hpos, hs], ?_⟩
  · rw [Writing.piece, if_neg hpos.ne', hp]
    rfl
  · rw [hp, strings_append, strings_cons, length_append, length_append, length_take, ← hend, ← hstart hpos] at hsize
    exact eq_nil_of_length_eq_zero (by omega)
  · have hnd := h.nodup
    rw [hp, map_append, map_cons, nodup_middle, nodup_cons] at hnd
    rw [map_append]
    exact hnd.1

/-- A chunk written at the end of the file becomes part of its piece. -/
theorem Pieces.chunk {k start : Nat} (hk : 0 < k)
    (hle : w.written + k ≤ w.src.length) (hstart : 0 < w.written → w.start = start) (hend : start + w.written = s.size)
    (hwf : WellFormed s'.vol) (hlive : Live s'.vol s'.inum) (hcalls : s'.calls = s.calls)
    (hcontents : s'.contents = s.contents ++ (w.src.drop w.written).take k)
    (hwrites : s'.writes = update s.writes t (some ⟨w.src, w.id, w.written + k, start⟩)) : ∃ pieces', Pieces old s' pieces' := by
  obtain ⟨a, b, hp, hb, hs, hid⟩ := h.place hw hstart hend
  rw [map_append, mem_append, not_or] at hid
  have hmem : ∀ {q}, q ∈ pieces → q.1 ≠ w.id → q ∈ a ++ (w.id, w.src.take (w.written + k)) :: b := by
    intro q hq hne
    rw [hp, mem_append, mem_append, Writing.piece] at hq
    rw [mem_append, mem_cons]
    rcases hq with hq | hq | hq
    · exact .inl hq
    · split_ifs at hq
      · cases hq
      · rw [mem_singleton] at hq
        exact absurd (congrArg Prod.fst hq) hne
    · exact .inr (.inr hq)
  have hback : ∀ {q}, q ∈ a ++ (w.id, w.src.take (w.written + k)) :: b → q.1 = w.id ∨ q ∈ pieces := by
    intro q hq
    rw [mem_append, mem_cons] at hq
    rw [hp, mem_append, mem_append]
    rcases hq with hq | rfl | hq
    · exact .inr (.inl hq)
    · exact .inl rfl
    · exact .inr (.inr (.inr hq))
  have hlt : w.id < s.calls.length := (List.getElem?_eq_some_iff.mp (h.call hw).1).1
  have hother : ∀ {u x}, u ≠ t → s.writes u = some x → x.id ≠ w.id := fun hne hu heq => hne (h.alone hu hw heq)
  refine ⟨a ++ (w.id, w.src.take (w.written + k)) :: b, hwf, hlive, ?_, ?_, ?_, ?_, ?_, ?_, ?_, ?_⟩
  · rw [hcontents, h.contents, hp, strings_append, strings_append, strings_append, strings_cons, hb, Writing.strings_piece,
      append_nil, append_nil, take_add]
    simp
  · have hnd := h.nodup
    rw [hp] at hnd
    simp only [map_append] at hnd
    rw [map_append, map_cons, nodup_middle, nodup_cons]
    refine ⟨by rw [mem_append, not_or]; exact hid, ?_⟩
    exact hnd.sublist (List.Sublist.append_left (sublist_append_right _ _) _)
  · intro q hq
    rw [hcalls]
    rcases hback hq with heq | hq
    · rw [heq]
      exact hlt
    · exact h.known q hq
  · intro u x hu
    rw [hwrites] at hu
    rw [hcalls]
    rcases update_cases hu with ⟨rfl, hx⟩ | ⟨-, hu⟩
    · cases hx
      exact ⟨(h.call hw).1, hle⟩
    · exact h.call hu
  · intro u v x y hu hv heq
    rw [hwrites] at hu hv
    rcases update_cases hu with ⟨rfl, hx⟩ | ⟨hut, hu₁⟩ <;> rcases update_cases hv with ⟨rfl, hy⟩ | ⟨hvt, hv₁⟩
    · rfl
    · cases hx
      exact absurd heq.symm (hother hvt hv₁)
    · cases hy
      exact absurd heq (hother hut hu₁)
    · exact h.alone hu₁ hv₁ heq
  · intro u x hu hz hin
    rw [hwrites] at hu
    rcases update_cases hu with ⟨rfl, hx⟩ | ⟨hne, hu⟩
    · cases hx
      exact absurd hz (by simp only; omega)
    obtain ⟨q, hq, heq⟩ := mem_map.mp hin
    rcases hback hq with hself | hq
    · exact hother hne hu (heq ▸ hself)
    · exact h.fresh hu hz (mem_map.mpr ⟨q, hq, heq⟩)
  · intro u x hu hpos
    rw [hwrites] at hu
    rcases update_cases hu with ⟨rfl, hx⟩ | ⟨hne, hu⟩
    · cases hx
      exact ⟨a, b, rfl, hs⟩
    obtain ⟨a', b', hp', hs'⟩ := h.part hu hpos
    -- the piece of another write is not empty, so it stands before the place
    have hin : (x.id, x.src.take x.written) ∉ w.piece ++ b := by
      intro hin
      rcases mem_append.mp hin with hin | hin
      · rw [Writing.piece] at hin
        split_ifs at hin
        · cases hin
        · rw [mem_singleton] at hin
          exact hother hne hu (congrArg Prod.fst hin)
      · have hnil := eq_nil_of_strings hb hin
        have hlen := congrArg length hnil
        rw [length_take, min_eq_left (h.call hu).2, length_nil] at hlen
        omega
    rw [hp] at hp'
    rcases append_eq_append_iff.mp hp' with ⟨c, rfl, hc⟩ | ⟨c, rfl, hc⟩
    · exact absurd (hc ▸ mem_append_right c mem_cons_self) hin
    rcases c with - | ⟨y, c⟩
    · exact absurd ((hc) ▸ mem_cons_self) hin
    · obtain ⟨rfl, -⟩ := cons.inj hc
      exact ⟨a', c ++ (w.id, w.src.take (w.written + k)) :: b, by rw [append_assoc]; rfl, hs'⟩
  · intro id src hc hnone
    rw [hcalls] at hc
    rw [hwrites] at hnone
    have hne : w.id ≠ id := hnone t ⟨w.src, w.id, w.written + k, start⟩ (update_self ..)
    exact hmem (h.ended_other hw hne hc fun u x hut hu => hnone u x (by rw [update_of_ne hut, hu])) (symm hne)

end

section
variable (hvol : s'.vol = s.vol) (hinum : s'.inum = s.inum)
include hvol hinum

omit [DecidableEq T] in
/-- Steps that neither write nor start or end a write. -/
theorem Pieces.frame (hcalls : s'.calls = s.calls) (hwrites : s'.writes = s.writes) : Pieces old s' pieces := by
  exact {
    wf := hvol ▸ h.wf
    live := by rw [hvol, hinum]; exact h.live
    contents := (contents_congr hvol hinum).trans h.contents
    nodup := h.nodup
    known := hcalls ▸ h.known
    call := by rw [hcalls, hwrites]; exact h.call
    alone := by rw [hwrites]; exact h.alone
    fresh := by rw [hwrites]; exact h.fresh
    part := by rw [hwrites]; exact h.part
    ended := by rw [hcalls, hwrites]; exact h.ended }

/-- A write is entered and gets the next number. -/
theorem Pieces.enter (hcalls : s'.calls = s.calls ++ [src]) (hidle : s.writes t = none)
    (hwrites : s'.writes = update s.writes t (some ⟨src, s.calls.length, 0, 0⟩)) : Pieces old s' pieces := by
  have hlt : ∀ {u w}, s.writes u = some w → w.id < s.calls.length := fun hu => (List.getElem?_eq_some_iff.mp (h.call hu).1).1
  refine ⟨hvol ▸ h.wf, by rw [hvol, hinum]; exact h.live, (contents_congr hvol hinum).trans h.contents, h.nodup, ?_, ?_, ?_, ?_, ?_, ?_⟩
  · intro q hq
    rw [hcalls, length_append]
    exact Nat.lt_add_right _ (h.known q hq)
  · intro u w hu
    rw [hwrites] at hu
    rw [hcalls]
    rcases update_cases hu with ⟨rfl, hw⟩ | ⟨-, hu⟩
    · cases hw
      exact ⟨getElem?_concat_length, Nat.zero_le _⟩
    · rw [getElem?_append_left (hlt hu)]
      exact h.call hu
  · intro u v w w' hu hv heq
    rw [hwrites] at hu hv
    rcases update_cases hu with ⟨rfl, hw⟩ | ⟨-, hu₁⟩ <;> rcases update_cases hv with ⟨rfl, hw'⟩ | ⟨-, hv₁⟩
    · rfl
    · cases hw
      exact absurd heq (hlt hv₁).ne'
    · cases hw'
      exact absurd heq (hlt hu₁).ne
    · exact h.alone hu₁ hv₁ heq
  · intro u w hu hz
    rw [hwrites] at hu
    rcases update_cases hu with ⟨rfl, hw⟩ | ⟨-, hu⟩
    · cases hw
      intro hmem
      obtain ⟨q, hq, heq⟩ := mem_map.mp hmem
      exact absurd heq (h.known q hq).ne
    · exact h.fresh hu hz
  · intro u w hu hpos
    rw [hwrites] at hu
    rcases update_cases hu with ⟨rfl, hw⟩ | ⟨-, hu⟩
    · cases hw
      exact absurd hpos (lt_irrefl 0)
    · exact h.part hu hpos
  · intro id src' hc hnone
    rw [hcalls] at hc
    rw [hwrites] at hnone
    have hne : id ≠ s.calls.length := (hnone t _ (update_self ..)).symm
    have hid : id < s.calls.length := by
      have := (List.getElem?_eq_some_iff.mp hc).1
      rw [length_append, length_singleton] at this
      omega
    rw [getElem?_append_left hid] at hc
    refine h.ended hc fun u w hu => hnone u w ?_
    rw [update_of_ne, hu]
    rintro rfl
    rw [hidle] at hu
    cases hu

/-- A write whose string is a piece ends. -/
theorem Pieces.finish (hw : s.writes t = some w) (hmem : (w.id, w.src) ∈ pieces) (hcalls : s'.calls = s.calls)
    (hwrites : s'.writes = update s.writes t none) : Pieces old s' pieces := by
  have hold : ∀ {u x}, s'.writes u = some x → s.writes u = some x := fun hu => (left_update hwrites hu).2
  refine ⟨hvol ▸ h.wf, by rw [hvol, hinum]; exact h.live, (contents_congr hvol hinum).trans h.contents, h.nodup, hcalls ▸ h.known,
    fun hu => hcalls ▸ h.call (hold hu), fun hu hv => h.alone (hold hu) (hold hv), fun hu => h.fresh (hold hu),
    fun hu => h.part (hold hu), ?_⟩
  intro id src hc hnone
  rw [hcalls] at hc
  rcases eq_or_ne w.id id with rfl | hne
  · rw [(h.call hw).1] at hc
    cases hc
    exact hmem
  · exact h.ended_other hw hne hc fun u x hut hu => hnone u x (by rw [hwrites, update_of_ne hut, hu])

/-- A write of no bytes ends, with an empty piece at the end. -/
theorem Pieces.finish_empty (hw : s.writes t = some w) (hnil : w.src = []) (hcalls : s'.calls = s.calls)
    (hwrites : s'.writes = update s.writes t none) : Pieces old s' (pieces ++ [(w.id, [])]) := by
  have hcall := h.call hw
  have hold : ∀ {u x}, s'.writes u = some x → u ≠ t ∧ s.writes u = some x := left_update hwrites
  have hzero : w.written = 0 := by
    have := hcall.2
    rw [hnil] at this
    exact Nat.le_zero.mp this
  refine ⟨hvol ▸ h.wf, by rw [hvol, hinum]; exact h.live, ?_, ?_, ?_, fun hu => hcalls ▸ h.call (hold hu).2,
    fun hu hv => h.alone (hold hu).2 (hold hv).2, ?_, ?_, ?_⟩
  · rw [contents_congr hvol hinum, h.contents, strings_append]
    simp only [strings_cons, nil_append]
    rw [show strings [] = [] from rfl, append_nil]
  · rw [map_append, map_singleton, nodup_append_comm, singleton_append, nodup_cons]
    exact ⟨h.fresh hw hzero, h.nodup⟩
  · intro q hq
    rw [hcalls]
    rcases mem_append.mp hq with hq | hq
    · exact h.known q hq
    · rw [mem_singleton.mp hq]
      exact (List.getElem?_eq_some_iff.mp hcall.1).1
  · intro u x hu hz hin
    obtain ⟨hne, hu⟩ := hold hu
    rw [map_append, mem_append] at hin
    rcases hin with hin | hin
    · exact h.fresh hu hz hin
    · rw [map_singleton, mem_singleton] at hin
      exact hne (h.alone hu hw hin)
  · intro u x hu hpos
    obtain ⟨a, b, hp, hs⟩ := h.part (hold hu).2 hpos
    exact ⟨a, b ++ [(w.id, [])], by rw [hp, append_assoc]; rfl, hs⟩
  · intro id src hc hnone
    rw [hcalls] at hc
    rw [mem_append, mem_singleton]
    rcases eq_or_ne w.id id with rfl | hne
    · rw [hcall.1] at hc
      cases hc
      exact .inr (by rw [hnil])
    · exact .inl (h.ended_other hw hne hc fun u x hut hu => hnone u x (by rw [hwrites, update_of_ne hut, hu]))

/-- A section that only moves its task on inside its call, or out of one that writes nothing. -/
theorem Pieces.next (hcalls : s'.calls = s.calls) (hops : s'.ops = update s.ops t n) (hsame : n.bind Op.writing? = s.writes t) :
    Pieces old s' pieces := by
  refine h.frame hvol hinum hcalls ?_
  rw [writes_update hops, hsame, update_eq_self]

end

/-- A call that writes nothing is entered. -/
theorem Pieces.start {f : F} (ho : o.writing? = none) (hs : s.start t f o = some s') : Pieces old s' pieces := by
  rw [Sys.start] at hs
  split_ifs at hs with hcond
  cases hs
  refine h.next rfl rfl rfl rfl ?_
  rw [writes, Option.isNone_iff_eq_none.mp hcond.1]
  exact ho

/-- A write is entered. -/
theorem Pieces.startWrite {f : F} (ho : o.writing? = some ⟨src, s.calls.length, 0, 0⟩)
    (hs : { s with calls := s.calls ++ [src] }.start t f o = some s') : Pieces old s' pieces := by
  rw [Sys.start] at hs
  split_ifs at hs with hcond
  cases hs
  have hidle : s.writes t = none := by
    rw [writes, Option.isNone_iff_eq_none.mp hcond.1]
    rfl
  refine h.enter rfl rfl rfl hidle ?_
  rw [writes_update rfl]
  exact congrArg _ ho

end

section
variable (h : Pieces old s pieces)
include h

variable {now : BitVec 32}

theorem Pieces.chunkTurn {f : F} {append : Bool} {src : Str} {id start written : Nat} {p : Option Positional}
    (hop : s.ops t = some (.chunk f append src id start written p))
    (hroom : s.Serves (.chunk f append src id start written p)) (hend : s.Ends (.chunk f append src id start written p)) :
    ∃ pieces', Pieces old (s.chunkTurn t f append src id start written p now) pieces' := by
  have hw : s.writes t = some ⟨src, id, written, if written = 0 then 0 else start⟩ := by rw [writes, hop]; rfl
  rw [Sys.chunkTurn]
  rcases lt_or_ge written src.length with hlt | hge
  · rw [if_pos hlt]
    obtain ⟨hlow, hstored⟩ := hroom hlt
    have hend := hend hlt
    obtain ⟨n, hn⟩ : ∃ n, n = min (src.length - written) writeChunkMax := ⟨_, rfl⟩
    have hn0 : 0 < n := by rw [hn]; unfold writeChunkMax; omega
    have hnmax : n ≤ writeChunkMax := hn ▸ min_le_right _ _
    rw [← hn] at hlow hstored ⊢
    dsimp only
    rw [Nat.mod_eq_of_lt (by omega)]
    obtain ⟨hret, hwrote⟩ := writei_spec h.wf h.live (fun j => src.getD (written + j) 0) hlow now.isLt
    rw [hstored] at hret hwrote
    rw [toInt32_of_lt (by unfold writeChunkMax at hnmax; omega)] at hret
    generalize xv6fsWritei s.vol (inodeAt s.vol s.inum) (fun j => src.getD (written + j) 0) (start + written) n now.toNat = r at *
    rw [hret, if_neg (by omega), if_neg (by omega), Int.toNat_natCast]
    have hle : written + n ≤ src.length := by omega
    obtain ⟨s₁, hs₁⟩ : ∃ s₁, s₁ = { s with vol := r.2.2 }.transfer (start + written) n (p.map fun q : Positional => q.asked + written) :=
      ⟨_, rfl⟩
    rw [← hs₁]
    have hsame : s₁.vol = r.2.2 ∧ s₁.inum = s.inum ∧ s₁.ops = s.ops ∧ s₁.calls = s.calls := by
      rw [hs₁]
      rcases p with - | q <;> exact ⟨rfl, rfl, rfl, rfl⟩
    obtain ⟨hvol, hinum, hops, hcalls⟩ := hsame
    have hbytes : (s₁.setOp t (some (.chunk f append src id start (written + n) p))).contents =
        s.contents ++ (src.drop written).take n := by
      have hsize : (inodeAt r.2.2 s.inum).size = s.size + n := by
        rw [hwrote.inode, hwrote.size, hend]
        exact max_eq_right (Nat.le_add_right _ _)
      change (range (inodeAt s₁.vol s₁.inum).size).map (data s₁.vol (inodeAt s₁.vol s₁.inum)) = _
      rw [hvol, hinum, hsize, hwrote.inode, hwrote.data, hend, map_overlay_end, range_map_getD src hle]
      rfl
    refine h.chunk hw hn0 hle (fun hpos => if_neg hpos.ne') hend ?_ ?_ hcalls hbytes ?_
    · exact hvol ▸ hwrote.wf
    · change Live s₁.vol s₁.inum
      rw [hvol, hinum]
      exact hwrote.live
    · have hnext : (s₁.setOp t (some (.chunk f append src id start (written + n) p))).ops =
          update s.ops t (some (.chunk f append src id start (written + n) p)) := by
        rw [← hops]
        rfl
      rw [writes_update hnext]
      simp only [Option.bind_some, Op.writing?, if_neg (by omega : ¬ written + n = 0)]
  · rw [if_neg (Nat.not_lt_of_le hge)]
    have hall : written = src.length := le_antisymm (h.call hw).2 hge
    have hwrites : (s.setOp t (some (.finish f append start written p))).writes = update s.writes t none := writes_update (n := some (.finish f append start written p)) rfl
    rcases Nat.eq_zero_or_pos written with hz | hpos
    · exact ⟨_, h.finish_empty rfl rfl hw (eq_nil_of_length_eq_zero (hall ▸ hz)) rfl hwrites⟩
    obtain ⟨a, b, hp, -⟩ := h.part hw hpos
    refine ⟨pieces, h.finish rfl rfl hw ?_ rfl hwrites⟩
    rw [hp]
    simp only [hall, take_length, mem_append, mem_cons, true_or, or_true]

theorem Pieces.go {env : Cache.Env} {bio : Cache.Bio}
    (hroom : Appending s (.go t now env bio)) (hend : AtEnd s (.go t now env bio)) (hs : s.go t now env bio = some s') :
    ∃ pieces', Pieces old s' pieces' := by
  obtain ⟨o, hop, rfl⟩ := Option.map_eq_some_iff.mp hs
  have hroom := hroom o hop
  have hend := hend o hop
  have hw : s.writes t = o.writing? := by rw [writes, hop]; rfl
  have hleave : ∀ {s₁ : Sys T F} f p, o.writing? = none → s₁.vol = s.vol → s₁.inum = s.inum →
      s₁.calls = s.calls → s₁.ops = s.ops → Pieces old (s₁.leave t f p) pieces := by
    intro s₁ f p hnone hvol hinum hcalls hops
    rcases p with - | q
    · exact h.next (n := none) hvol hinum hcalls (by rw [← hops]; rfl) (hw.trans hnone).symm
    · exact h.next (n := some (.restore f q.old)) hvol hinum hcalls (by rw [← hops]; rfl) (hw.trans hnone).symm
  rcases o with ⟨f, body, asked⟩ | ⟨f, body, q⟩ | ⟨f, append, src, id, p⟩ | ⟨f, src, id, p⟩ | ⟨f, append, src, id, start, written, p⟩ |
    ⟨f, append, start, written, p⟩ | ⟨f, count, p⟩ | ⟨f, n, p⟩ | ⟨f, old'⟩
  · dsimp only
    rw [if_neg (Nat.not_le_of_lt hroom)]
    refine ⟨pieces, h.next rfl rfl rfl rfl ?_⟩
    rcases body <;> exact hw.symm
  · rcases body with count | ⟨append, src, id⟩
    · exact ⟨pieces, h.next rfl rfl rfl rfl hw.symm⟩
    · exact ⟨pieces, h.next rfl rfl rfl rfl hw.symm⟩
  · rcases append with - | -
    · exact ⟨pieces, h.next rfl rfl rfl rfl hw.symm⟩
    · exact ⟨pieces, h.next rfl rfl rfl rfl hw.symm⟩
  · exact ⟨pieces, h.next rfl rfl rfl rfl hw.symm⟩
  · exact h.chunkTurn hop hroom hend
  · refine ⟨pieces, hleave f p rfl ?_ ?_ ?_ ?_⟩ <;> rcases p with - | q <;> rfl
  · dsimp only
    split_ifs
    · exact ⟨pieces, hleave f p rfl rfl rfl rfl rfl⟩
    generalize (fsRead env bio s.vol s.inum (s.offset f) count fun _ => 0).1.toNat = k
    refine ⟨pieces, h.next (n := some (.advance f k p)) ?_ ?_ ?_ ?_ hw.symm⟩
    all_goals rcases p with - | q <;> rfl
  · refine ⟨pieces, hleave f p rfl ?_ ?_ ?_ ?_⟩ <;> rcases p with - | q <;> rfl
  · exact ⟨pieces, h.next rfl rfl rfl rfl hw.symm⟩

theorem Pieces.step {e : Ev T F} (hroom : Appending s e) (hend : AtEnd s e) (hs : s.step e = some s') :
    ∃ pieces', Pieces old s' pieces' := by
  rcases e with ⟨t, f, append, src⟩ | ⟨t, f, count⟩ | ⟨t, f, count, off⟩ | ⟨t, f, append, src, off⟩ | ⟨t, f, pos⟩ | ⟨t, u, f⟩ |
    ⟨t, f⟩ | ⟨t, now, env, bio⟩
  · exact ⟨pieces, h.startWrite rfl hs⟩
  · exact ⟨pieces, h.start rfl hs⟩
  · rw [Sys.step] at hs
    split_ifs at hs
    exact ⟨pieces, h.start rfl hs⟩
  · rw [Sys.step] at hs
    split_ifs at hs
    exact ⟨pieces, h.startWrite rfl hs⟩
  · rw [Sys.step] at hs
    split_ifs at hs
    cases hs
    exact ⟨pieces, h.frame rfl rfl rfl rfl⟩
  · rw [Sys.step] at hs
    split_ifs at hs
    cases hs
    exact ⟨pieces, h.frame rfl rfl rfl rfl⟩
  · rw [Sys.step] at hs
    split_ifs at hs
    cases hs
    exact ⟨pieces, h.frame rfl rfl rfl rfl⟩
  · exact h.go hroom hend hs

end

omit [DecidableEq T] [DecidableEq F] in
/-- Before the first call there are no pieces. -/
theorem Fresh.unwritten (h : Fresh s) : Pieces s.contents s [] := by
  have hnone : ∀ {t w}, s.writes t ≠ some w := fun hw => by
    rw [writes, h.idle] at hw
    cases hw
  refine ⟨h.wf, h.live, (append_nil _).symm, nodup_nil, nofun, fun hw => absurd hw hnone,
    fun hw => absurd hw hnone, fun hw => absurd hw hnone, fun hw => absurd hw hnone, fun hc => ?_⟩
  rw [h.calls] at hc
  cases hc

instance (s : Sys T F) : DecidablePred s.Serves := fun o => by cases o <;> dsimp only [Serves] <;> infer_instance

instance (s : Sys T F) : DecidablePred s.Ends := fun o => by cases o <;> dsimp only [Ends] <;> infer_instance

instance (s : Sys T F) : DecidablePred (Appending s) := fun e => by cases e <;> dsimp only [Appending] <;> infer_instance

instance (s : Sys T F) : DecidablePred (AtEnd s) := fun e => by cases e <;> dsimp only [AtEnd] <;> infer_instance

/-- Two appends of one byte, one after the other. -/
def inTurn : List (Ev (Fin 2) Nat) :=
  [.write 0 0 true [7], .turn 0, .turn 0, .turn 0, .turn 0, .turn 0, .write 1 0 true [8], .turn 1, .turn 1, .turn 1, .turn 1, .turn 1]

/-- Both tasks look up the end of the empty file before either writes. -/
def overtaken : List (Ev (Fin 2) Nat) :=
  [.write 0 0 true [7], .write 1 0 true [8], .turn 0, .turn 1, .turn 0, .turn 1, .turn 0, .turn 1, .turn 0, .turn 1, .turn 0, .turn 1]

end Orthox.Descriptions
