import Mathlib

/-! A block device that loses power. A command names the blocks it writes; commands reach the device in issue order, and the one
    in flight at the cut may leave any subset of its blocks behind. `CrashTo ws d d'` says that `d'` is a disk the cut may leave
    while `ws` is being issued from `d`.

    The rules below speak about one value per address: a list of commands *agrees* with `v` when every block it writes is the
    one `v` gives for that address. Such a list leaves each address either alone or at `v`, wherever the cut falls
    (`crash_cell`), and run to its end it puts every address it touches at `v` (`applyAll_touched`). -/

namespace Schemes.Crash
open List Function

variable {ι β : Type*}

/-- One device command: the block it writes at each address, if any. -/
def Write (ι β : Type*) := ι → Option β

/-- The command carried out in full. -/
def put (w : Write ι β) (d : ι → β) : ι → β := fun i => (w i).getD (d i)

/-- The command cut short: any subset of its blocks was written. -/
def Torn (w : Write ι β) (d d' : ι → β) : Prop := ∀ i, d' i = d i ∨ w i = some (d' i)

/-- All commands carried out, in issue order. -/
def applyAll : List (Write ι β) → (ι → β) → ι → β
  | [], d => d
  | w :: ws, d => applyAll ws (put w d)

/-- The disks a power cut may leave while `ws` is being issued. -/
inductive CrashTo : List (Write ι β) → (ι → β) → (ι → β) → Prop
  | cut (ws : List (Write ι β)) (d : ι → β) : CrashTo ws d d
  | torn {w : Write ι β} {ws : List (Write ι β)} {d d' : ι → β} : Torn w d d' → CrashTo (w :: ws) d d'
  | next {w : Write ι β} {ws : List (Write ι β)} {d d' : ι → β} : CrashTo ws (put w d) d' → CrashTo (w :: ws) d d'

theorem applyAll_append : ∀ (ws vs : List (Write ι β)) (d : ι → β), applyAll (ws ++ vs) d = applyAll vs (applyAll ws d)
  | [], _, _ => rfl
  | w :: ws, vs, d => by simp only [cons_append]; exact applyAll_append ws vs (put w d)

/-- Running to the end is one of the places the power may go. -/
theorem crashTo_applyAll : ∀ (ws : List (Write ι β)) (d : ι → β), CrashTo ws d (applyAll ws d)
  | [], d => .cut [] d
  | w :: ws, d => .next (crashTo_applyAll ws (put w d))

/-- A cut during `ws ++ vs` falls in `ws`, or in `vs` once `ws` is done. -/
theorem crashTo_append : ∀ {ws vs : List (Write ι β)} {d d' : ι → β}, CrashTo (ws ++ vs) d d' →
    CrashTo ws d d' ∨ CrashTo vs (applyAll ws d) d'
  | [], _, _, _, h => .inr h
  | w :: ws, vs, d, d', h => by
    cases h with
    | cut => exact .inl (.cut _ _)
    | torn ht => exact .inl (.torn ht)
    | next hn =>
      rcases crashTo_append hn with h | h
      · exact .inl (.next h)
      · exact .inr h

/-- Later cuts stay possible while earlier commands are still pending. -/
theorem CrashTo.append_right : ∀ {ws vs : List (Write ι β)} {d d' : ι → β},
    CrashTo vs (applyAll ws d) d' → CrashTo (ws ++ vs) d d'
  | [], _, _, _, h => h
  | _ :: _, _, _, _, h => .next (append_right h)

variable {v : ι → β} {x : β} {a i : ι} {ws : List (Write ι β)}

/-- A command for one address is all-or-nothing. -/
theorem torn_single [DecidableEq ι] {d d' : ι → β}
    (h : Torn (fun i => if i = a then some x else none) d d') : d' = d ∨ d' = update d a x := by
  rcases h a with ha | ha
  · left
    funext i
    rcases h i with hi | hi
    · exact hi
    by_cases hia : i = a
    · rw [hia, ha]
    · simp [hia] at hi
  · right
    funext i
    by_cases hia : i = a
    · subst hia; simp at ha; simp [← ha]
    rcases h i with hi | hi
    · simp [hia, hi]
    · simp [hia] at hi

theorem put_single [DecidableEq ι] (a : ι) (x : β) (d : ι → β) :
    put (fun i => if i = a then some x else none) d = update d a x := by
  funext i
  by_cases hia : i = a
  · subst hia; simp [put]
  · simp [put, hia]

/-- A cut while a single one-address command is pending. -/
theorem crashTo_single [DecidableEq ι] {d d' : ι → β} (h : CrashTo [fun i => if i = a then some x else none] d d') :
    d' = d ∨ d' = update d a x := by
  cases h with
  | cut => exact .inl rfl
  | torn ht => exact torn_single ht
  | next hn => cases hn; exact .inr (put_single a x d)

/-! ### One value per address -/

/-- Every block the commands write is the one `v` gives for its address. -/
def Agrees (v : ι → β) (ws : List (Write ι β)) : Prop := ∀ w ∈ ws, ∀ i x, w i = some x → x = v i

/-- Some command writes address `i`. -/
def Touches (ws : List (Write ι β)) (i : ι) : Prop := ∃ w ∈ ws, ∃ x, w i = some x

variable {vs : List (Write ι β)}

theorem Agrees.append (hw : Agrees v ws) (hv : Agrees v vs) : Agrees v (ws ++ vs) := by
  intro w hmem
  rcases mem_append.mp hmem with h | h
  · exact hw w h
  · exact hv w h

theorem touches_append : Touches (ws ++ vs) i ↔ Touches ws i ∨ Touches vs i := by
  constructor
  · rintro ⟨w, hw, hx⟩
    rcases mem_append.mp hw with h | h
    · exact .inl ⟨w, h, hx⟩
    · exact .inr ⟨w, h, hx⟩
  · rintro (⟨w, hw, hx⟩ | ⟨w, hw, hx⟩)
    · exact ⟨w, mem_append_left _ hw, hx⟩
    · exact ⟨w, mem_append_right _ hw, hx⟩

/-- A cut leaves each address as it was, or at the agreed value if some command writes it. -/
theorem crash_cell : ∀ {ws : List (Write ι β)} {d d' : ι → β}, Agrees v ws →
    CrashTo ws d d' → ∀ i, d' i = d i ∨ (Touches ws i ∧ d' i = v i) := by
  intro ws d d' hag h
  induction h with
  | cut => exact fun i => .inl rfl
  | @torn w ws d d' ht =>
    intro i
    rcases ht i with hi | hi
    · exact .inl hi
    · exact .inr ⟨⟨w, mem_cons_self, _, hi⟩, hag w mem_cons_self i _ hi⟩
  | @next w ws d d' _ ih =>
    intro i
    rcases ih (fun u hu => hag u (mem_cons_of_mem _ hu)) i with hi | ⟨⟨u, hu, hx⟩, hi⟩
    · cases hw : w i with
      | none => left; rw [hi]; simp [put, hw]
      | some x =>
        refine .inr ⟨⟨w, mem_cons_self, x, hw⟩, ?_⟩
        rw [hi, ← hag w mem_cons_self i x hw]; simp [put, hw]
    · exact .inr ⟨⟨u, mem_cons_of_mem _ hu, hx⟩, hi⟩

theorem applyAll_untouched (hag : Agrees v ws) (d : ι → β) (hi : ¬ Touches ws i) : applyAll ws d i = d i := by
  rcases crash_cell hag (crashTo_applyAll ws d) i with h | ⟨h, _⟩
  · exact h
  · exact absurd h hi

/-- Run to the end, every touched address holds the agreed value. -/
theorem applyAll_touched : ∀ {ws : List (Write ι β)}, Agrees v ws → ∀ (d : ι → β) {i : ι}, Touches ws i → applyAll ws d i = v i
  | [], _, _, _, ⟨_, hw, _⟩ => by simp at hw
  | w :: ws, hag, d, i, ht => by
    have hag' : Agrees v ws := fun u hu => hag u (mem_cons_of_mem _ hu)
    by_cases hrest : Touches ws i
    · exact applyAll_touched hag' (put w d) hrest
    obtain ⟨u, hu, x, hx⟩ := ht
    rcases mem_cons.mp hu with rfl | hmem
    · rw [applyAll, applyAll_untouched hag' _ hrest, ← hag u mem_cons_self i x hx]
      simp [put, hx]
    · exact absurd ⟨u, hmem, x, hx⟩ hrest

end Schemes.Crash
