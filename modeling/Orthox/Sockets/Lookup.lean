import Orthox.Sockets.Backend

/-! `lwip_port_lookup_ipv4` of `kernel/lwip_port.c`. All lookups share one set of variables: whether a query is under
    way, whether it is done, its result and address, and a generation number that is passed to lwIP with the query.
    The callback ends the busy period, so another lookup may begin before the first one has read its result; the
    number protects only against the answers of queries that were given up. One event here is one access of a task to
    the variables, one callback or one tick of the clock. The generation number is unbounded. -/

namespace Orthox.Sockets.Lookup
open Function Option

/-- `ORTHOX_DNS_TIMEOUT_MS` -/
def dnsTimeoutMs : Nat := 5000

/-- How long a waiting task sleeps at most before it looks at the deadline again. -/
def sliceMs : Nat := 100

/-- A query: its generation number and the deadline of the lookup that asked it. -/
structure Query where
  gen : Nat
  deadline : Nat
deriving DecidableEq

/-- Where a task stands in a lookup. -/
inductive Phase where
  | idle
  /-- The variables were found free and are to be set. -/
  | passed
  /-- lwIP is to be asked. -/
  | prepared (gen : Nat)
  /-- The head of the loop; marked asleep and registered; asleep in `kernel_yield`. -/
  | waiting (q : Query)
  | registered (q : Query)
  | yielded (q : Query)
  /-- The loop is left and the result is to be read. -/
  | ready (q : Query)
  /-- The lookup returned an address, or failure, with the query if it was asked. -/
  | found (addr : UInt32) (gen : Nat)
  | failed (q : Option Query)
deriving DecidableEq

/-- What lwIP did with the query of a generation. -/
inductive Entry where
  | unasked
  | outstanding
  | answered (addr : Option UInt32) (time : Nat)
deriving DecidableEq

/-- The variables of `lwip_port.c`, the tasks, lwIP's queries and the clock. -/
structure Sys (T : Type) where
  gen : Nat
  pending : Bool
  done : Bool
  result : Err
  addr : UInt32
  waiter : Option T
  asleep : T → Option Nat
  phase : T → Phase
  book : Nat → Entry
  now : Nat

/-- What `dns_gethostbyname` answers. -/
inductive Answer where
  | ok (addr : UInt32)
  | inprogress
  | refused

/-- What happens next. -/
inductive Ev (T : Type) where
  /-- A lookup is called; the flag says that lwIP is ready and the arguments are there. -/
  | call (t : T) (usable : Bool)
  | set (t : T)
  | ask (t : T) (r : Answer)
  | look (t : T)
  | check (t : T)
  | resume (t : T)
  | read (t : T)
  | leave (t : T)
  /-- lwIP calls back with the answer to a query, or with none. -/
  | answer (gen : Nat) (addr : Option UInt32)
  | tick

variable {T : Type} [DecidableEq T]

/-- Nobody has looked anything up yet. -/
def Sys.boot : Sys T := ⟨0, false, false, .ok, 0, none, fun _ => none, fun _ => .idle, fun _ => .unasked, 0⟩

namespace Sys

/-- Moves a task to another place in its lookup. -/
def goto (s : Sys T) (t : T) (p : Phase) : Sys T := { s with phase := update s.phase t p }

@[simp] theorem goto_self (s : Sys T) (t : T) (p : Phase) : (s.goto t p).phase t = p := update_self ..

theorem goto_of_ne (s : Sys T) {t u : T} (p : Phase) (h : u ≠ t) : (s.goto t p).phase u = s.phase u := update_of_ne h ..

/-- `orthox_lwip_clear_dns_waiter` -/
def clearWaiter (s : Sys T) (t : T) : Sys T := { s with waiter := if s.waiter = some t then none else s.waiter }

/-- A task is awake. -/
def rouse (s : Sys T) (t : T) : Sys T := { s with asleep := update s.asleep t none }

/-- `orthox_lwip_wake_dns_waiter` -/
def wakeWaiter (s : Sys T) : Sys T :=
  { s with asleep := s.waiter.elim s.asleep fun t => update s.asleep t none, waiter := none }

/-- The second half of the head of the call: the variables for a new query. -/
def begin (s : Sys T) (t : T) : Sys T :=
  { s with gen := s.gen + 1, pending := true, done := false, result := .ok, addr := 0 }.goto t (.prepared (s.gen + 1))

/-- `dns_gethostbyname`, which writes an address it knows into the shared variable, and what follows it. -/
def query (s : Sys T) (t : T) (gen : Nat) : Answer → Sys T
  | .ok a =>
    { s with addr := a, pending := false, done := true,
             book := update s.book gen (.answered (some a) s.now) }.goto t (.waiting ⟨gen, s.now + dnsTimeoutMs⟩)
  | .inprogress =>
    { s with book := update s.book gen .outstanding }.goto t (.waiting ⟨gen, s.now + dnsTimeoutMs⟩)
  | .refused => { s with pending := false }.goto t (.failed none)

/-- The head of the loop: it ends, the lookup gives up, or the task gets ready to sleep. -/
def lookAt (s : Sys T) (t : T) (q : Query) : Sys T :=
  if s.done then s.goto t (.ready q)
  else if q.deadline < s.now then { s.clearWaiter t with pending := false }.goto t (.failed (some q))
  else { s with asleep := update s.asleep t (some (s.now + sliceMs)), waiter := some t }.goto t (.registered q)

/-- `orthox_lwip_dns_found` -/
def dnsFound (s : Sys T) (gen : Nat) (a : Option UInt32) : Sys T :=
  let s := { s with book := update s.book gen (.answered a s.now) }
  if gen ≠ s.gen then s
  else
    { s with
      addr := a.getD s.addr
      result := if a.isSome then .ok else .val
      done := true
      pending := false }.wakeWaiter

/-- The effect of an event; `none` when it cannot happen. -/
def step (s : Sys T) : Ev T → Option (Sys T)
  | .call t usable =>
    match s.phase t with
    | .idle => some (s.goto t (if usable = false ∨ s.pending = true then .failed none else .passed))
    | _ => none
  | .set t =>
    match s.phase t with
    | .passed => some (s.begin t)
    | _ => none
  | .ask t r =>
    match s.phase t with
    | .prepared gen => some (s.query t gen r)
    | _ => none
  | .look t =>
    match s.phase t with
    | .waiting q => some (s.lookAt t q)
    | _ => none
  | .check t =>
    match s.phase t with
    | .registered q => some (if s.done then ((s.clearWaiter t).rouse t).goto t (.ready q) else s.goto t (.yielded q))
    | _ => none
  | .resume t =>
    match s.phase t with
    | .yielded q =>
      if (s.asleep t).any fun till => s.now < till then none
      else some (((s.clearWaiter t).rouse t).goto t (.waiting q))
    | _ => none
  | .read t =>
    match s.phase t with
    | .ready q => some (s.goto t (if s.result ≠ .ok then .failed (some q) else .found s.addr q.gen))
    | _ => none
  | .leave t =>
    match s.phase t with
    | .found .. | .failed _ => some (s.goto t .idle)
    | _ => none
  | .answer gen a => if s.book gen = .outstanding then some (s.dnsFound gen a) else none
  | .tick => some { s with now := s.now + 1 }

/-- The run of a list of events. -/
def run (s : Sys T) : List (Ev T) → Option (Sys T)
  | [] => some s
  | e :: es => (s.step e).bind fun s' => s'.run es

end Sys

/-- The states reached from the start by events that all meet a condition. -/
inductive Reaches (ok : Sys T → Ev T → Prop) : Sys T → Prop where
  | boot : Reaches ok .boot
  | step {s s' : Sys T} {e : Ev T} (h : Reaches ok s) (hok : ok s e) (hs : s.step e = some s') : Reaches ok s'

theorem run_reaches {ok : Sys T → Ev T → Prop} (hok : ∀ s e, ok s e) (es : List (Ev T)) :
    ∀ {s s' : Sys T}, Reaches ok s → s.run es = some s' → Reaches ok s' := by
  induction es with
  | nil =>
    rintro s s' h ⟨⟩
    exact h
  | cons e es ih =>
    intro s s' h hrun
    obtain ⟨s₁, hstep, hrest⟩ := bind_eq_some_iff.mp hrun
    exact ih (h.step (hok s e) hstep) hrest

/-! ### What is asked of the lookups -/

/-- The task is between the check of `g_dns_pending` and its return. -/
def Phase.active : Phase → Bool
  | .passed | .prepared _ | .waiting _ | .registered _ | .yielded _ | .ready _ => true
  | .idle | .found .. | .failed _ => false

/-- The query of a lookup that is waiting for its result or about to read it. -/
def Phase.asked : Phase → Option Query
  | .waiting q | .registered q | .yielded q | .ready q => some q
  | _ => none

/-- The next look of the task ends its loop, and it will return this address. -/
def Sys.Serves (s : Sys T) (a : UInt32) : Prop := s.done = true ∧ s.result = .ok ∧ s.addr = a

/-- An address that was returned was delivered for that query; a lookup that failed was not answered in time; and one
    that was answered in time finds its answer. -/
structure Unmixed (s : Sys T) : Prop where
  own : ∀ {t a gen}, s.phase t = .found a gen → ∃ time, s.book gen = .answered (some a) time
  late : ∀ {t q a time}, s.phase t = .failed (some q) → s.book q.gen = .answered (some a) time → q.deadline < time
  served : ∀ {t q a time}, (s.phase t).asked = some q → s.book q.gen = .answered (some a) time → time ≤ q.deadline →
    s.Serves a

/-- A lookup that finds the variables free is the only one under way. -/
def Alone (s : Sys T) : Ev T → Prop
  | .call t _ => s.pending = false → ∀ u, (s.phase u).active = true → u = t
  | _ => True

/-! ### The invariant -/

/-- The shared variables hold the state of the query of the current generation. -/
def Sys.Told (s : Sys T) : Prop :=
  match s.book s.gen with
  | .unasked => False
  | .outstanding => s.done = false
  | .answered (some a) _ => s.Serves a
  | .answered none _ => s.done = true ∧ s.result ≠ .ok

/-- What holds of a task in each phase. -/
def Phase.Sound (s : Sys T) : Phase → Prop
  | .idle | .passed | .failed none => True
  | .prepared gen => gen = s.gen ∧ s.book gen = .unasked ∧ s.done = false ∧ s.result = .ok
  | .waiting q | .registered q | .yielded q => q.gen = s.gen ∧ s.Told
  | .ready q => q.gen = s.gen ∧ s.Told ∧ s.done = true
  | .found a gen => ∃ time, s.book gen = .answered (some a) time
  | .failed (some q) =>
    match s.book q.gen with
    | .unasked => False
    | .outstanding => q.deadline < s.now
    | .answered (some _) time => q.deadline < time
    | .answered none _ => True

structure Inv (s : Sys T) : Prop where
  alone : ∀ {t u}, (s.phase t).active = true → (s.phase u).active = true → t = u
  sound : ∀ t, (s.phase t).Sound s
  fresh : ∀ {gen}, s.gen < gen → s.book gen = .unasked

variable {p : Phase} {q : Query}

omit [DecidableEq T] in
theorem Phase.Sound.told {s : Sys T} (h : p.Sound s) (hq : p.asked = some q) : q.gen = s.gen ∧ s.Told := by
  cases p with
  | waiting q' | registered q' | yielded q' =>
    obtain rfl := some.inj hq
    exact h
  | ready q' =>
    obtain rfl := some.inj hq
    exact ⟨h.1, h.2.1⟩
  | _ => cases hq

omit [DecidableEq T] in
/-- The invariant gives what is asked. -/
theorem Inv.unmixed {s : Sys T} (h : Inv s) : Unmixed s := by
  refine ⟨fun {t a gen} hp => ?_, fun {t q a time} hp hbook => ?_, fun {t q a time} hp hbook _ => ?_⟩
  · have hsound := h.sound t
    rw [hp] at hsound
    exact hsound
  · have hsound := h.sound t
    rw [hp, Phase.Sound, hbook] at hsound
    exact hsound
  · obtain ⟨hgen, htold⟩ := (h.sound t).told hp
    rw [Sys.Told, ← hgen, hbook] at htold
    exact htold

/-! ### What an event does to the lookups that are over -/

/-- Queries are answered once, and not before they are answered. -/
def Entry.Grows (now : Nat) : Entry → Entry → Prop
  | .unasked, _ => True
  | .outstanding, e => e = .outstanding ∨ ∃ a time, now ≤ time ∧ e = .answered a time
  | .answered a time, e => e = .answered a time

theorem Entry.Grows.refl (now : Nat) (e : Entry) : e.Grows now e := by
  cases e with
  | unasked => exact trivial
  | outstanding => exact .inl rfl
  | answered a time => exact rfl

omit [DecidableEq T] in
/-- A lookup that is over stays as it was. -/
theorem Phase.Sound.settled {s s' : Sys T} (h : p.Sound s) (hp : p.active = false)
    (hgrows : ∀ gen, (s.book gen).Grows s.now (s'.book gen)) (hnow : s.now ≤ s'.now) : p.Sound s' := by
  cases p with
  | found a gen =>
    obtain ⟨time, hbook⟩ := h
    have hsame := hgrows gen
    rw [hbook] at hsame
    exact ⟨time, hsame⟩
  | failed q => cases q with
    | none => exact trivial
    | some q =>
      have hsame := hgrows q.gen
      rw [Phase.Sound] at h ⊢
      rcases hbook : s.book q.gen with - | - | ⟨a, time⟩
      · rw [hbook] at h
        exact h.elim
      · rw [hbook] at h hsame
        rcases hsame with hsame | ⟨a, time, htime, hsame⟩
        · rw [hsame]
          exact Nat.lt_of_lt_of_le h hnow
        rw [hsame]
        cases a with
        | none => exact trivial
        | some a => exact Nat.lt_of_lt_of_le h htime
      · rw [hbook] at h hsame
        rw [hsame]
        cases a <;> exact h
  | idle => exact trivial
  | _ => cases hp

/-- A lookup that is over or not begun goes on to another such place. -/
theorem Inv.leave {s : Sys T} (h : Inv s) (t : T) (hp : p.active = false) (hsound : p.Sound s) : Inv (s.goto t p) := by
  have hactive : ∀ {u}, ((s.goto t p).phase u).active → (s.phase u).active := by
    intro u hu
    rcases eq_or_ne u t with rfl | hne
    · rw [Sys.goto_self, hp] at hu
      cases hu
    · rwa [Sys.goto_of_ne _ _ hne] at hu
  refine ⟨fun hu hv => h.alone (hactive hu) (hactive hv), fun u => ?_, h.fresh⟩
  rcases eq_or_ne u t with rfl | hne
  · rw [Sys.goto_self]
    exact hsound
  · rw [Sys.goto_of_ne _ _ hne]
    exact h.sound u

/-- The lookup under way goes on: the others are over, and only its own query changed. -/
theorem Inv.goOn {s s' : Sys T} (h : Inv s) {t : T} (halone : ∀ u, (s.phase u).active → u = t)
    (hphase : s'.phase = update s.phase t p) (hsound : p.Sound s')
    (hgrows : ∀ gen, (s.book gen).Grows s.now (s'.book gen)) (hnow : s.now ≤ s'.now)
    (hfresh : ∀ {gen}, s'.gen < gen → s'.book gen = .unasked) : Inv s' := by
  have hself : ∀ {u}, (s'.phase u).active → u = t := by
    intro u hu
    rcases eq_or_ne u t with rfl | hne
    · rfl
    · rw [hphase, update_of_ne hne] at hu
      exact halone u hu
  refine ⟨fun hu hv => (hself hu).trans (hself hv).symm, fun u => ?_, hfresh⟩
  rw [hphase]
  rcases eq_or_ne u t with rfl | hne
  · rw [update_self]
    exact hsound
  rw [update_of_ne hne]
  refine (h.sound u).settled ?_ hgrows hnow
  rcases hactive : (s.phase u).active with - | -
  · rfl
  · exact absurd (halone u hactive) hne

/-! ### The steps of a lookup -/

section
variable {s s' : Sys T} {t : T}

section
variable (h : Inv s)
include h

theorem Inv.call {usable : Bool} (hok : Alone s (.call t usable)) :
    Inv (s.goto t (if usable = false ∨ s.pending then .failed none else .passed)) := by
  split_ifs with hrefused
  · exact h.leave t rfl trivial
  · have hfree : s.pending = false := Bool.not_eq_true _ ▸ (not_or.mp hrefused).2
    exact h.goOn (hok hfree) rfl trivial (fun _ => .refl ..) (Nat.le_refl _) h.fresh

omit [DecidableEq T] in
/-- While a lookup is under way there is no other. -/
theorem Inv.only (hp : s.phase t = p) (hactive : p.active) :
    ∀ u, (s.phase u).active → u = t := fun _ hu => h.alone hu (hp ▸ hactive)

theorem Inv.begin (hp : s.phase t = .passed) : Inv (s.begin t) := by
  have hnew : s.book (s.gen + 1) = .unasked := h.fresh (Nat.lt_succ_self _)
  refine h.goOn (h.only hp rfl) rfl ⟨rfl, hnew, rfl, rfl⟩ (fun _ => .refl ..) (Nat.le_refl _) fun {gen} hgen => ?_
  exact h.fresh (Nat.lt_of_succ_lt hgen)

variable {gen : Nat}

omit h in
/-- Only the entry of one query changes. -/
theorem grows_update {book : Nat → Entry} {now : Nat} {e : Entry} (h : (book gen).Grows now e) (gen' : Nat) :
    (book gen').Grows now (update book gen e gen') := by
  rcases eq_or_ne gen' gen with rfl | hne
  · rwa [update_self]
  · rw [update_of_ne hne]
    exact .refl ..

theorem Inv.query (hp : s.phase t = .prepared gen) (r : Answer) : Inv (s.query t gen r) := by
  have hsound := h.sound t
  rw [hp] at hsound
  obtain ⟨rfl, hbook, hdone, hresult⟩ := hsound
  have hgrows e : (s.book s.gen).Grows s.now e := by
    rw [hbook]
    exact trivial
  have hfresh e {gen : Nat} (hgen : s.gen < gen) : update s.book s.gen e gen = .unasked := by
    rw [update_of_ne (Nat.ne_of_gt hgen)]
    exact h.fresh hgen
  cases r with
  | ok a =>
    refine h.goOn (h.only hp rfl) rfl ⟨rfl, ?_⟩ (grows_update (hgrows _)) (Nat.le_refl _) (hfresh _)
    simp only [Sys.Told, Sys.query, Sys.goto, update_self]
    exact ⟨rfl, hresult, rfl⟩
  | inprogress =>
    refine h.goOn (h.only hp rfl) rfl ⟨rfl, ?_⟩ (grows_update (hgrows _)) (Nat.le_refl _) (hfresh _)
    simp only [Sys.Told, Sys.query, Sys.goto, update_self]
    exact hdone
  | refused => exact h.goOn (h.only hp rfl) rfl trivial (fun _ => .refl ..) (Nat.le_refl _) h.fresh

theorem Inv.lookAt (hp : s.phase t = .waiting q) : Inv (s.lookAt t q) := by
  have hsound := h.sound t
  rw [hp] at hsound
  obtain ⟨hgen, htold⟩ := hsound
  have hgrows : ∀ gen, (s.book gen).Grows s.now (s.book gen) := fun _ => .refl ..
  rw [Sys.lookAt]
  split_ifs with hdone hlate
  · exact h.goOn (h.only hp rfl) rfl ⟨hgen, htold, hdone⟩ hgrows (Nat.le_refl _) h.fresh
  · refine h.goOn (h.only hp rfl) rfl ?_ hgrows (Nat.le_refl _) h.fresh
    -- Nobody has answered, or the loop would have ended.
    have hopen : s.book q.gen = .outstanding := by
      rw [Sys.Told, ← hgen] at htold
      rcases hbook : s.book q.gen with - | - | ⟨- | a, time⟩
      · rw [hbook] at htold
        exact htold.elim
      · rfl
      · rw [hbook] at htold
        exact absurd htold.1 hdone
      · rw [hbook] at htold
        exact absurd htold.1 hdone
    simp only [Phase.Sound, Sys.goto, Sys.clearWaiter, hopen]
    exact hlate
  · exact h.goOn (h.only hp rfl) rfl ⟨hgen, htold⟩ hgrows (Nat.le_refl _) h.fresh

theorem Inv.read (hp : s.phase t = .ready q) :
    Inv (s.goto t (if s.result ≠ .ok then .failed (some q) else .found s.addr q.gen)) := by
  have hsound := h.sound t
  rw [hp] at hsound
  obtain ⟨hgen, htold, hdone⟩ := hsound
  rw [Sys.Told, ← hgen] at htold
  rcases hbook : s.book q.gen with - | - | ⟨- | a, time⟩ <;> rw [hbook] at htold
  · exact htold.elim
  · exact absurd (hdone.symm.trans htold) Bool.noConfusion
  · rw [if_pos htold.2]
    refine h.leave t rfl ?_
    rw [Phase.Sound, hbook]
    exact trivial
  · rw [if_neg (not_not_intro htold.2.1), htold.2.2]
    exact h.leave t rfl ⟨time, hbook⟩

/-! ### Answers -/

theorem Inv.dnsFound (hopen : s.book gen = .outstanding) (a : Option UInt32) : Inv (s.dnsFound gen a) := by
  have hbook : (s.dnsFound gen a).book = update s.book gen (.answered a s.now) := by
    rw [Sys.dnsFound]
    split_ifs <;> rfl
  have hphase : (s.dnsFound gen a).phase = s.phase := by
    rw [Sys.dnsFound]
    split_ifs <;> rfl
  have hgen : (s.dnsFound gen a).gen = s.gen := by
    rw [Sys.dnsFound]
    split_ifs <;> rfl
  have hnow : (s.dnsFound gen a).now = s.now := by
    rw [Sys.dnsFound]
    split_ifs <;> rfl
  have hgrows : ∀ gen', (s.book gen').Grows s.now ((s.dnsFound gen a).book gen') := by
    rw [hbook]
    refine grows_update ?_
    rw [hopen]
    exact .inr ⟨a, s.now, Nat.le_refl _, rfl⟩
  -- The lookup under way keeps its variables, or finds its own answer in them.
  have htold : s.Told → (s.dnsFound gen a).Told ∧ (s.done → (s.dnsFound gen a).done) := by
    intro htold
    rcases eq_or_ne gen s.gen with rfl | hne
    · rw [Sys.Told, hgen, hbook, update_self, Sys.dnsFound, if_neg (not_not_intro rfl)]
      cases a with
      | none => exact ⟨⟨rfl, nofun⟩, fun _ => rfl⟩
      | some a => exact ⟨⟨rfl, rfl, rfl⟩, fun _ => rfl⟩
    · rw [Sys.Told] at htold
      rw [Sys.Told, hgen, hbook, update_of_ne hne.symm, Sys.dnsFound, if_pos hne]
      exact ⟨htold, id⟩
  refine ⟨fun {t u} => hphase ▸ h.alone, fun t => ?_, fun {gen'} hgt => ?_⟩
  · rw [hphase]
    have hsound := h.sound t
    rcases hactive : (s.phase t).active with - | -
    · exact hsound.settled hactive hgrows (Nat.le_of_eq hnow.symm)
    cases hp : s.phase t with
    | passed => exact trivial
    | prepared gen' =>
      rw [hp] at hsound
      obtain ⟨rfl, hunasked, hdone, hresult⟩ := hsound
      have hne : gen ≠ s.gen := by
        rintro rfl
        rw [hopen] at hunasked
        cases hunasked
      refine ⟨hgen.symm, ?_, ?_⟩
      · rw [hbook, update_of_ne hne.symm]
        exact hunasked
      · rw [Sys.dnsFound, if_pos hne]
        exact ⟨hdone, hresult⟩
    | waiting q | registered q | yielded q =>
      rw [hp] at hsound
      exact ⟨hgen ▸ hsound.1, (htold hsound.2).1⟩
    | ready q =>
      rw [hp] at hsound
      obtain ⟨hnew, hdone⟩ := htold hsound.2.1
      exact ⟨hgen ▸ hsound.1, hnew, hdone hsound.2.2⟩
    | _ =>
      rw [hp] at hactive
      cases hactive
  · have hne : gen' ≠ gen := by
      rintro rfl
      rw [h.fresh (hgen ▸ hgt)] at hopen
      cases hopen
    rw [hbook, update_of_ne hne]
    exact h.fresh (hgen ▸ hgt)

omit [DecidableEq T] in
theorem Inv.tick : Inv { s with now := s.now + 1 } := by
  refine ⟨h.alone, fun t => ?_, h.fresh⟩
  have hsound := h.sound t
  rcases hactive : (s.phase t).active with - | -
  · exact hsound.settled hactive (fun _ => .refl ..) (Nat.le_succ _)
  cases hp : s.phase t with
  | passed => exact trivial
  | prepared gen | waiting q | registered q | yielded q | ready q =>
    rw [hp] at hsound
    exact hsound
  | _ =>
    rw [hp] at hactive
    cases hactive

/-! ### Runs -/

theorem Inv.step {e : Ev T} (hok : Alone s e) (hs : s.step e = some s') : Inv s' := by
  have hgrows : ∀ gen, (s.book gen).Grows s.now (s.book gen) := fun _ => .refl ..
  cases e with
  | call t usable =>
    rw [Sys.step] at hs
    split at hs
    · exact some.inj hs ▸ h.call hok
    · cases hs
  | set t =>
    rw [Sys.step] at hs
    split at hs
    case h_1 hp => exact some.inj hs ▸ h.begin hp
    case h_2 => cases hs
  | ask t r =>
    rw [Sys.step] at hs
    split at hs
    case h_1 gen hp => exact some.inj hs ▸ h.query hp r
    case h_2 => cases hs
  | look t =>
    rw [Sys.step] at hs
    split at hs
    case h_1 q hp => exact some.inj hs ▸ h.lookAt hp
    case h_2 => cases hs
  | check t =>
    rw [Sys.step] at hs
    split at hs
    case h_1 q hp =>
      have hsound := h.sound t
      rw [hp] at hsound
      rw [← some.inj hs]
      split_ifs with hdone
      · exact h.goOn (h.only hp rfl) rfl ⟨hsound.1, hsound.2, hdone⟩ hgrows (Nat.le_refl _) h.fresh
      · exact h.goOn (h.only hp rfl) rfl hsound hgrows (Nat.le_refl _) h.fresh
    case h_2 => cases hs
  | resume t =>
    rw [Sys.step] at hs
    split at hs
    case h_1 q hp =>
      have hsound := h.sound t
      rw [hp] at hsound
      split_ifs at hs
      exact some.inj hs ▸ h.goOn (h.only hp rfl) rfl hsound hgrows (Nat.le_refl _) h.fresh
    case h_2 => cases hs
  | read t =>
    rw [Sys.step] at hs
    split at hs
    case h_1 q hp => exact some.inj hs ▸ h.read hp
    case h_2 => cases hs
  | leave t =>
    rw [Sys.step] at hs
    split at hs
    · exact some.inj hs ▸ h.leave t rfl trivial
    · exact some.inj hs ▸ h.leave t rfl trivial
    · cases hs
  | answer gen a =>
    obtain ⟨hopen, hs⟩ := ite_none_right_eq_some.mp hs
    exact some.inj hs ▸ h.dnsFound hopen a
  | tick => exact some.inj hs ▸ h.tick

end

theorem Reaches.inv (h : Reaches Alone s) : Inv s := by
  induction h with
  | boot => exact ⟨nofun, fun _ => trivial, fun _ => rfl⟩
  | step _ hok hs ih => exact ih.step hok hs

end

/-- The event begins a lookup. -/
def Ev.begins : Ev T → Bool
  | .call .. => true
  | _ => false

/-- Where no lookup begins the condition holds. -/
theorem run_alone (es : List (Ev T)) :
    ∀ {s s' : Sys T}, Reaches Alone s → (∀ e ∈ es, e.begins = false) → s.run es = some s' → Reaches Alone s' := by
  induction es with
  | nil =>
    rintro s s' h - ⟨⟩
    exact h
  | cons e es ih =>
    intro s s' h hall hrun
    obtain ⟨s₁, hstep, hrest⟩ := bind_eq_some_iff.mp hrun
    have halone : Alone s e := by
      have hbegins := hall e List.mem_cons_self
      cases e <;> first | exact trivial | cases hbegins
    exact ih (h.step halone hstep) (fun e' he' => hall e' (List.mem_cons_of_mem _ he')) hrest

/-- Task 0, which has called, asks, sleeps, is answered and reads the address. -/
def oneLookup : List (Ev Nat) :=
  [.set 0, .ask 0 .inprogress, .look 0, .check 0, .answer 1 (some 11), .resume 0, .look 0, .read 0]

/-- Task 0 has been answered and is still asleep when task 1 looks up another name. -/
def overlapping : List (Ev Nat) :=
  [.call 0 true, .set 0, .ask 0 .inprogress, .look 0, .check 0, .answer 1 (some 11),
   .call 1 true, .set 1, .ask 1 .inprogress, .look 1, .check 1, .answer 2 (some 22), .resume 0, .look 0, .read 0]

end Orthox.Sockets.Lookup
