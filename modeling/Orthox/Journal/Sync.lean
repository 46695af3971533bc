import Orthox.Journal.Machine
import Orthox.Schemes.Holders

/-! What a returned sync is worth.

    `xv6log_flush` commits only when no operation is inside and no commit is running. When either is the case it returns all the
    same, and operations that had ended long before are still only in memory (`sync_returns_early`). Taken at a moment when the
    log is empty or the journal is idle, its promise holds for good (`sync_durable`): the disk under the log is always the
    history up to the last finished commit, and a commit takes it from there to the whole history. -/

namespace Orthox.Journal
open Schemes Schemes.Crash Relation List Function Finset Sys

/-! ### The log as a history -/

theorem replay_append (d : Nat → Block) (h : List Entry) (e : Entry) :
    replay d (h ++ [e]) = update (replay d h) e.block.toNat e.data := by
  simp [replay]

/-- The disk shows the first `k` blocks of the history, the pinned buffers show the rest. -/
structure Tracks (size : Nat) (base : Nat → Block) (h : List Entry) (k : Nat) (s : Sys) : Prop where
  le : k ≤ h.length
  ready : Ready size (replay base h) s
  kept : ∀ i ∉ logArea s.start, s.disk i = replay base (h.take k) i
  rest : ∀ i ∉ logArea s.start, i ∉ homes s.block → s.disk i = replay base h i
  all : s.block = [] → k = h.length

variable {size k : Nat} {base : Nat → Block} {h : List Entry} {s : Sys} {new : Nat → Block} {data : Block} {b : Word}

theorem Ready.xv6bread (hr : Ready size new s) (b : Nat) : Ready size new (s.xv6bread b).2 where
  size_lt := hr.size_lt
  clean := by simpa using hr.clean
  length_le := by simpa using hr.length_le
  inside := by simpa using hr.inside
  outside := by simpa using hr.outside
  pinned := by simpa using hr.pinned.xv6bread b
  fresh := by simpa using hr.fresh

theorem Tracks.xv6bread (ht : Tracks size base h k s) (b : Nat) : Tracks size base h k (s.xv6bread b).2 where
  le := ht.le
  ready := ht.ready.xv6bread b
  kept := by simpa using ht.kept
  rest := by simpa using ht.rest
  all := by simpa using ht.all

/-- The blocks logged after `xv6log_write`. -/
theorem mem_xv6logWrite {c : Word} : c ∈ (s.xv6logWrite b data).block ↔ c ∈ s.block ∨ c = b := by
  unfold xv6logWrite
  by_cases hb : b ∈ s.block
  · simp only [fill, xv6bread_block, hb]
    exact ⟨.inl, fun hc => hc.elim id fun e => e ▸ hb⟩
  · simp [fill, hb]

theorem xv6logWrite_disk (s : Sys) (b : Word) (data : Block) : (s.xv6logWrite b data).disk = s.disk ∧
    (s.xv6logWrite b data).start = s.start ∧ (s.xv6logWrite b data).issued = s.issued := by
  unfold xv6logWrite
  by_cases hb : b ∈ s.block <;> simp [fill, hb]

theorem xv6logWrite_length (hlt : s.block.length < logBlocks) : (s.xv6logWrite b data).block.length ≤ logBlocks := by
  unfold xv6logWrite
  by_cases hb : b ∈ s.block <;> simp [fill, hb] <;> omega

/-- Every logged buffer stays pinned, and the one written holds the new data. -/
theorem Holds.xv6logWrite (hh : Holds new s.block s) (b : Word) (data : Block) :
    Holds (update new b.toNat data) (s.xv6logWrite b data).block (s.xv6logWrite b data) := by
  intro c hc
  rcases eq_or_ne c b with rfl | hne
  · by_cases hmem : c ∈ s.block
    · have hp := (hh c hmem).1
      simp [Sys.xv6logWrite, Sys.fill, hmem, hp]
    · simp [Sys.xv6logWrite, Sys.fill, hmem]
  have hcs : c ∈ s.block := (mem_xv6logWrite.mp hc).resolve_right hne
  obtain ⟨hp, hv⟩ := hh.xv6bread b.toNat c hcs
  have hnat : c.toNat ≠ b.toNat := fun e => hne (BitVec.eq_of_toNat_eq e)
  by_cases hmem : b ∈ s.block
  · simpa [Sys.xv6logWrite, Sys.fill, hmem, update_of_ne hnat] using ⟨by simpa using hp, hv⟩
  · simpa [Sys.xv6logWrite, Sys.fill, hmem, update_of_ne hnat] using ⟨by simpa using hp, hv⟩

/-- Logging a block appends it to the history and leaves the disk alone. -/
theorem Tracks.xv6logWrite (ht : Tracks size base h k s) (id : Nat)
    (hlt : s.block.length < logBlocks) (hb : Home size s.start b.toNat) :
    Tracks size base (h ++ [⟨id, b, data⟩]) k (s.xv6logWrite b data) := by
  obtain ⟨hd, hs, hi⟩ := xv6logWrite_disk s b data
  have hle := ht.le
  refine ⟨by rw [length_append]; omega, ⟨ht.ready.size_lt, ?_, xv6logWrite_length hlt, ?_, ?_, ?_, ?_⟩, ?_, ?_, ?_⟩
  · rw [hd, hs]; exact ht.ready.clean
  · intro c hc
    rcases mem_xv6logWrite.mp hc with h | rfl
    · exact ht.ready.inside c h
    · exact hb.1
  · intro c hc
    rw [hs]
    rcases mem_xv6logWrite.mp hc with h | rfl
    · exact ht.ready.outside c h
    · exact hb.2
  · rw [replay_append]; exact ht.ready.pinned.xv6logWrite b data
  · rw [hi]; exact ht.ready.fresh
  · intro i hi'
    rw [hs] at hi'
    rw [hd, take_append_of_le_length hle]
    exact ht.kept i hi'
  · intro i hi' hn
    rw [hs] at hi'
    have hib : i ≠ b.toNat := fun e => hn ⟨b, mem_xv6logWrite.mpr (.inr rfl), e.symm⟩
    rw [hd, replay_append, update_of_ne hib]
    exact ht.rest i hi' fun ⟨c, hc, e⟩ => hn ⟨c, mem_xv6logWrite.mpr (.inl hc), e⟩
  · intro hnil
    have : b ∈ (s.xv6logWrite b data).block := mem_xv6logWrite.mpr (.inr rfl)
    rw [hnil] at this
    cases this

theorem commit_block (s : Sys) : (commit s).block = [] := by
  by_cases hne : s.block = []
  · simp [commit, hne]
  · simp [commit, hne, writeHead, xv6bwrite, issue, fill]

theorem commit_start (hr : Ready size new s) : (commit s).start = s.start := by
  by_cases hne : s.block = []
  · simp [commit, hne]
  · obtain ⟨L, hb, I, hb', hw, -⟩ := commit_shape hr hne
    exact hw.start

/-- After a finished commit the disk shows the whole history. -/
theorem Tracks.commit (ht : Tracks size base h k s) : Tracks size base h h.length { commit s with issued := [] } := by
  have hdone := commit_done ht.ready
  have hst : (Journal.commit s).start = s.start := commit_start ht.ready
  have hnil := commit_block s
  have hdisk : ∀ i ∉ logArea s.start, (Journal.commit s).disk i = replay base h i := by
    intro i hi
    by_cases hm : i ∈ homes s.block
    · exact hdone.home i hm
    · rw [hdone.frame i hi hm]; exact ht.rest i hi hm
  refine ⟨le_rfl, ⟨ht.ready.size_lt, ?_, by simp [hnil], by simp [hnil], by simp [hnil], ?_, rfl⟩, ?_, ?_, fun _ => rfl⟩
  · simpa [hst] using hdone.clean
  · intro b hb; simp [hnil] at hb
  · intro i hi; rw [take_length]; exact hdisk i (by simpa [hst] using hi)
  · intro i hi _; exact hdisk i (by simpa [hst] using hi)

variable {d₁ d₂ : Nat → Block}

/-- Cut while a commit is under way, and recovered: the history up to the commit before, or all of it. -/
theorem Tracks.crash (ht : Tracks size base h k s)
    (hcut : CrashTo (Journal.commit s).issued s.disk d₁) (hrec : ReflTransGen (CutRecovery s.start) d₁ d₂)
    (boot : Boot) : (∀ i ∉ logArea s.start, recovered boot s.start d₂ i = replay base (h.take k) i) ∨
      ∀ i ∉ logArea s.start, recovered boot s.start d₂ i = replay base h i := by
  have he := ht.ready.entries
  have hend := phase_recovered boot he (phase_cuts he (commit_phase ht.ready hcut) hrec)
  rcases hend with ho | hn
  · exact .inl fun i hi => (ho.home i hi).trans (ht.kept i hi)
  right
  intro i hi
  by_cases hm : i ∈ homes (sortLogBlocks s.block)
  · exact hn.home i hm
  · rw [hn.frame i hi hm]
    exact ht.rest i hi (by rwa [← homes_perm (sortLogBlocks_perm s.block)])

namespace Machine
variable {Task : Type*} [DecidableEq Task]

/-! ### One action -/

/-- Everything an action can do. -/
inductive Moves (size : Nat) (t : Task) (m : Machine Task) : Act → Machine Task → Prop
  | beginOp (n : Int) : m.pc t = .idle → Moves size t m (.beginOp n) (m.goto t (.begin (clampNeed n)))
  | enter (need : Nat) : m.pc t = .begin need → m.Admits need → Moves size t m .beginTest
      { m.goto t (.op m.nextId need) with
        outstanding := m.outstanding + 1, reserved := m.reserved + need, nextId := m.nextId + 1 }
  | retry (need : Nat) : m.pc t = .begin need → m.Idle → Moves size t m .beginTest (m.startCommit t (.retry need))
  | wait : Moves size t m .beginTest m
  | read (b : Nat) : Moves size t m (.read b) { m with sys := (m.sys.xv6bread b).2 }
  | write (id need : Nat) (b : Word) (data : Block) : m.pc t = .op id need → m.sys.block.length < logBlocks →
      Home size m.sys.start b.toNat → Moves size t m (.write b data)
        { m with sys := m.sys.xv6logWrite b data, history := m.history ++ [⟨id, b, data⟩] }
  | endOp (id need : Nat) : m.pc t = .op id need → Moves size t m .endOp
      { m.goto t .idle with
        outstanding := m.outstanding - 1, reserved := m.reserved - need, ended := id :: m.ended }
  | sync : m.pc t = .idle → Moves size t m .sync (m.goto t (.flush m.ended))
  | syncCommit (asked : List Nat) : m.pc t = .flush asked → m.Idle →
      Moves size t m .syncTest (m.startCommit t (.ret asked))
  | syncSkip (asked : List Nat) : m.pc t = .flush asked → ¬ m.Idle →
      Moves size t m .syncTest { m.goto t .idle with promised := asked ++ m.promised }
  | io (after : After) (w : Write Nat Block) (f : Flight) : m.pc t = .committing after →
      m.flight = some ⟨w :: f.todo, f.result⟩ → Moves size t m .io
        { m with sys := { m.sys with disk := put w m.sys.disk }, flight := some f }
  | commitEnd (after : After) (result : Sys) : m.pc t = .committing after → m.flight = some ⟨[], result⟩ →
      Moves size t m .commitEnd
        { m.goto t (.committed after) with sys := { result with issued := [] }, flight := none }
  | unflagRetry (need : Nat) : m.pc t = .committed (.retry need) →
      Moves size t m .unflag { m.goto t (.begin need) with committing := false }
  | unflagRet (asked : List Nat) : m.pc t = .committed (.ret asked) → Moves size t m .unflag
      { m.goto t .idle with committing := false, promised := asked ++ m.promised }

variable {a : Act} {t : Task} {m m' : Machine Task}

theorem moves_of_step (hs : step size t a m = some m') : Moves size t m a m' := by
  unfold step at hs
  split at hs
  · cases hs; exact .beginOp _ (by assumption)
  · split at hs
    · cases hs; exact .enter _ (by assumption) (by assumption)
    split at hs
    · cases hs; exact .retry _ (by assumption) (by assumption)
    · cases hs; exact .wait
  · cases hs; exact .read _
  · split at hs
    · rename_i hpc hg
      cases hs; exact .write _ _ _ _ hpc hg.1 hg.2.2
    · cases hs
  · split at hs
    · cases hs
    · cases hs; exact .endOp _ _ (by assumption)
  · cases hs; exact .sync (by assumption)
  · split at hs
    · cases hs; exact .syncCommit _ (by assumption) (by assumption)
    · cases hs; exact .syncSkip _ (by assumption) (by assumption)
  · split at hs
    · rename_i hpc _ w todo result hf
      cases hs; exact .io _ w ⟨todo, result⟩ hpc hf
    · cases hs
  · split at hs
    · cases hs; exact .commitEnd _ _ (by assumption) (by assumption)
    · cases hs
  · cases hs; exact .unflagRetry _ (by assumption)
  · cases hs; exact .unflagRet _ (by assumption)
  · cases hs

/-! ### Who is where -/

/-- Inside an operation. -/
def InOp (m : Machine Task) (t : Task) : Prop := ∃ id need, m.pc t = .op id need

/-- Between setting and clearing `lg.committing`. -/
def InCommit (m : Machine Task) (t : Task) : Prop := ∃ after, m.pc t = .committing after ∨ m.pc t = .committed after

/-- The counters and the flag say who is inside. -/
structure Turns (m : Machine Task) : Prop where
  ops : ∃ F : Finset Task, (∀ t, t ∈ F ↔ m.InOp t) ∧ F.card = m.outstanding
  flag : ∀ t, m.InCommit t → m.committing = true
  one : ∀ t u, m.InCommit t → m.InCommit u → t = u
  alone : m.committing = true → m.outstanding = 0
  flying : m.flight ≠ none → m.committing = true
  down : ∀ t after, m.pc t = .committed after → m.flight = none

/-- Operation numbers are never used twice, and a sync asks only for ended ones. -/
structure Numbers (m : Machine Task) : Prop where
  current : ∀ t id need, m.pc t = .op id need → id < m.nextId ∧ id ∉ m.ended
  uniq : ∀ t u id need need', m.pc t = .op id need → m.pc u = .op id need' → t = u
  past : ∀ id ∈ m.ended, id < m.nextId
  asked : ∀ t l, m.pc t = .flush l ∨ m.pc t = .committing (.ret l) ∨ m.pc t = .committed (.ret l) →
    ∀ id ∈ l, id ∈ m.ended
  promised : ∀ id ∈ m.promised, id ∈ m.ended

/-- A task moves, and not into an operation. -/
theorem Numbers.goto {p : Pc} (hn : Numbers m) (hpc : m'.pc = update m.pc t p) (hop : ∀ id need, p ≠ .op id need)
    (hnext : m'.nextId = m.nextId) (hended : m'.ended = m.ended)
    (hask : ∀ l, p = .flush l ∨ p = .committing (.ret l) ∨ p = .committed (.ret l) → ∀ id ∈ l, id ∈ m.ended)
    (hprom : ∀ id ∈ m'.promised, id ∈ m.ended) : Numbers m' := by
  have hold : ∀ u id need, m'.pc u = .op id need → m.pc u = .op id need := by
    intro u id need hu
    rcases update_cases (hpc ▸ hu) with ⟨-, e⟩ | ⟨-, hu⟩
    · exact absurd e (hop id need)
    · exact hu
  refine ⟨fun u id need hu => ?_, fun u v id n n' hu hv => ?_, ?_, fun u l hu => ?_, ?_⟩
  · rw [hnext, hended]; exact hn.current u id need (hold u id need hu)
  · exact hn.uniq u v id n n' (hold u id n hu) (hold v id n' hv)
  · rw [hnext, hended]; exact hn.past
  · rw [hpc, update_apply] at hu
    rw [hended]
    split at hu
    · exact hask l hu
    · exact hn.asked u l hu
  · rw [hended]; exact hprom

theorem Numbers.move (hn : Numbers m) (hm : Moves size t m a m') : Numbers m' := by
  cases hm with
  | beginOp | retry | unflagRetry => exact hn.goto rfl (by simp) rfl rfl (by simp) hn.promised
  | enter need hpc ha =>
    -- the new number is above all ended and current ones
    have hself : ∀ u id n, update m.pc t (.op m.nextId need) u = .op id n →
        (u = t ∧ id = m.nextId) ∨ (u ≠ t ∧ m.pc u = .op id n) := by
      intro u id n hu
      exact (update_cases hu).imp_left fun ⟨hut, e⟩ => ⟨hut, (Pc.op.inj e).1.symm⟩
    refine ⟨fun u id n hu => ?_, fun u v id n n' hu hv => ?_, fun id hid => ?_, fun u l hu => ?_, hn.promised⟩
    · rcases hself u id n hu with ⟨-, rfl⟩ | ⟨-, hu⟩
      · exact ⟨Nat.lt_succ_self _, fun hmem => lt_irrefl _ (hn.past _ hmem)⟩
      · exact ⟨Nat.lt_succ_of_lt (hn.current u id n hu).1, (hn.current u id n hu).2⟩
    · rcases hself u id n hu with ⟨eu, ei⟩ | ⟨-, hu'⟩
      · rcases hself v id n' hv with ⟨ev, -⟩ | ⟨-, hv'⟩
        · exact eu.trans ev.symm
        · exact absurd (hn.current v id n' hv').1 (by omega)
      rcases hself v id n' hv with ⟨-, ei⟩ | ⟨-, hv'⟩
      · exact absurd (hn.current u id n hu').1 (by omega)
      · exact hn.uniq u v id n n' hu' hv'
    · exact Nat.lt_succ_of_lt (hn.past id hid)
    · refine hn.asked u l ?_
      simp only [Machine.goto, update_apply] at hu
      split at hu
      · simp at hu
      · exact hu
  | wait => exact hn
  | read | write | io => exact ⟨hn.current, hn.uniq, hn.past, hn.asked, hn.promised⟩
  | endOp id need hpc =>
    have hother : ∀ u id' n, update m.pc t .idle u = .op id' n → u ≠ t ∧ m.pc u = .op id' n :=
      fun u id' n hu => (update_cases hu).resolve_left fun h => nomatch h.2
    refine ⟨fun u id' n hu => ?_, fun u v id' n n' hu hv => ?_, fun id' hid => ?_, fun u l hu => ?_, ?_⟩
    · obtain ⟨hne, hu'⟩ := hother u id' n hu
      refine ⟨(hn.current u id' n hu').1, fun hmem => ?_⟩
      rcases mem_cons.mp hmem with e | hmem
      · exact hne (hn.uniq u t id n need (e ▸ hu') hpc)
      · exact (hn.current u id' n hu').2 hmem
    · exact hn.uniq u v id' n n' (hother u id' n hu).2 (hother v id' n' hv).2
    · rcases mem_cons.mp hid with rfl | hmem
      · exact (hn.current t _ need hpc).1
      · exact hn.past id' hmem
    · simp only [Machine.goto, update_apply] at hu
      split at hu
      · simp at hu
      · exact fun id' hid => mem_cons_of_mem _ (hn.asked u l hu id' hid)
    · exact fun id' hid => mem_cons_of_mem _ (hn.promised id' hid)
  | sync hpc =>
    exact hn.goto rfl (by simp) rfl rfl (by rintro l (h | h | h) <;> cases h; exact fun _ h => h) hn.promised
  | syncCommit asked hpc hi =>
    refine hn.goto rfl (by simp) rfl rfl ?_ hn.promised
    rintro l (h | h | h) <;> cases h
    exact hn.asked t asked (.inl hpc)
  | syncSkip asked hpc hi =>
    exact hn.goto rfl (by simp) rfl rfl (by simp) (forall_mem_append.mpr ⟨hn.asked t asked (.inl hpc), hn.promised⟩)
  | commitEnd after result hpc hf =>
    refine hn.goto rfl (by simp) rfl rfl ?_ hn.promised
    rintro l (h | h | h) <;> cases h
    exact hn.asked t l (.inr (.inl hpc))
  | unflagRet asked hpc =>
    exact hn.goto rfl (by simp) rfl rfl (by simp) (forall_mem_append.mpr ⟨hn.asked t asked (.inr (.inr hpc)), hn.promised⟩)

section
variable {t : Task} {p : Pc} {m m' : Machine Task} (hpc : m'.pc = update m.pc t p)
include hpc

variable {u : Task}

theorem inOp_of_ne (hu : u ≠ t) : m'.InOp u ↔ m.InOp u := by
  simp [InOp, hpc, update_of_ne hu]

theorem inOp_self : m'.InOp t ↔ ∃ id need, p = .op id need := by simp [InOp, hpc]

theorem inCommit_of_ne (hu : u ≠ t) : m'.InCommit u ↔ m.InCommit u := by
  simp [InCommit, hpc, update_of_ne hu]

theorem inCommit_self : m'.InCommit t ↔ ∃ after, p = .committing after ∨ p = .committed after := by
  simp [InCommit, hpc]

/-- A move that neither enters nor leaves operations keeps their count. -/
theorem ops_keep (ht : ∃ F : Finset Task, (∀ u, u ∈ F ↔ m.InOp u) ∧ F.card = m.outstanding)
    (ho : m'.outstanding = m.outstanding) (hself : (∃ id need, p = .op id need) ↔ m.InOp t) :
    ∃ F : Finset Task, (∀ u, u ∈ F ↔ m'.InOp u) ∧ F.card = m'.outstanding := by
  obtain ⟨F, hF, hcard⟩ := ht
  refine ⟨F, fun u => ?_, hcard.trans ho.symm⟩
  rcases eq_or_ne u t with rfl | hu
  · rw [hF, inOp_self hpc, hself]
  · rw [hF, inOp_of_ne hpc hu]

end

section
variable {t : Task} {p : Pc} {m m' : Machine Task} (ht : Turns m)
include ht

/-- A move to a place outside commits: only the operations are counted anew. -/
theorem Turns.outside (hpc : m'.pc = update m.pc t p) (hco : ¬ ∃ after, p = .committing after ∨ p = .committed after)
    (hsame : m'.committing = m.committing ∧ m'.flight = m.flight)
    (hops : ∃ F : Finset Task, (∀ u, u ∈ F ↔ m'.InOp u) ∧ F.card = m'.outstanding)
    (halone : m.committing → m'.outstanding = 0) : Turns m' := by
  have hold : ∀ u, m'.InCommit u → m.InCommit u := by
    intro u hu
    rcases eq_or_ne u t with rfl | hne
    · exact absurd ((inCommit_self hpc).mp hu) hco
    · exact (inCommit_of_ne hpc hne).mp hu
  refine ⟨hops, fun u hu => hsame.1.trans (ht.flag u (hold u hu)),
    fun u v hu hv => ht.one u v (hold u hu) (hold v hv), hsame.1 ▸ halone, by rw [hsame.1, hsame.2]; exact ht.flying,
    fun u after hu => ?_⟩
  rcases update_cases (hpc ▸ hu) with ⟨-, e⟩ | ⟨-, hu⟩
  · exact absurd ⟨after, .inr e⟩ hco
  · exact hsame.2.trans (ht.down u after hu)

/-- A task outside operations and commits moves to such a place again. -/
theorem Turns.goto (hpc : m'.pc = update m.pc t p) (hout : ¬ m.InOp t) (hop : ¬ ∃ id need, p = .op id need)
    (hco : ¬ ∃ after, p = .committing after ∨ p = .committed after)
    (hsame : m'.outstanding = m.outstanding ∧ m'.committing = m.committing ∧ m'.flight = m.flight) : Turns m' :=
  ht.outside hpc hco hsame.2 (ops_keep hpc ht.ops hsame.1 (iff_of_false hop hout)) (hsame.1 ▸ ht.alone)

/-- Setting the flag: the journal was idle, so the task is the only one in `commit`. -/
theorem Turns.startCommit (after : After) (hout : ¬ m.InOp t) (hidle : m.Idle) : Turns (m.startCommit t after) := by
  have hpc : (m.startCommit t after).pc = update m.pc t (.committing after) := rfl
  have hnone : ∀ u, ¬ m.InCommit u := fun u hu => by
    have := ht.flag u hu
    rw [hidle.1] at this
    cases this
  have hwho : ∀ u, (m.startCommit t after).InCommit u → u = t := fun u hu => by
    by_contra hne
    exact hnone u ((inCommit_of_ne hpc hne).mp hu)
  refine ⟨ops_keep hpc ht.ops rfl (iff_of_false (by simp) hout), fun _ _ => rfl,
    fun u v hu hv => (hwho u hu).trans (hwho v hv).symm, fun _ => hidle.2.1, fun _ => rfl, fun u after' hu => ?_⟩
  have hut := hwho u ⟨after', .inr hu⟩
  rw [hpc, hut, update_self] at hu
  cases hu

variable {after : After}

/-- Clearing the flag. -/
theorem Turns.unflag (hat : m.pc t = .committed after) (hpc : m'.pc = update m.pc t p) (hop : ¬ ∃ id need, p = .op id need)
    (hco : ¬ ∃ after, p = .committing after ∨ p = .committed after)
    (hsame : m'.outstanding = m.outstanding ∧ m'.committing = false ∧ m'.flight = m.flight) : Turns m' := by
  obtain ⟨ho, hc, hf⟩ := hsame
  have hin : m.InCommit t := ⟨after, .inr hat⟩
  have hnone : ∀ u, ¬ m'.InCommit u := fun u hu => by
    rcases eq_or_ne u t with rfl | hne
    · exact hco ((inCommit_self hpc).mp hu)
    · exact hne (ht.one u t ((inCommit_of_ne hpc hne).mp hu) hin)
  have hout : ¬ m.InOp t := by rintro ⟨id, need, h⟩; rw [hat] at h; cases h
  refine ⟨ops_keep hpc ht.ops ho (iff_of_false hop hout), fun u hu => absurd hu (hnone u),
    fun u _ hu => absurd hu (hnone u), fun h => ?_, fun h => ?_, fun u _ hu => absurd ⟨_, .inr hu⟩ (hnone u)⟩
  · rw [hc] at h; cases h
  · exact absurd (hf.trans (ht.down t after hat)) h

omit [DecidableEq Task] in
theorem Turns.not_committing (hin : m.InOp t) : m.committing = false := by
  obtain ⟨F, hF, hcard⟩ := ht.ops
  have hpos : 0 < F.card := card_pos.mpr ⟨t, (hF t).mpr hin⟩
  cases hc : m.committing with
  | false => rfl
  | true => have := ht.alone hc; omega

theorem Turns.enter {need : Nat} (hout : ¬ m.InOp t) (hpc : m'.pc = update m.pc t (.op m.nextId need)) (hc : m.committing = false)
    (ho : m'.outstanding = m.outstanding + 1) (hsame : m'.committing = m.committing ∧ m'.flight = m.flight) : Turns m' := by
  obtain ⟨F, hF, hcard⟩ := ht.ops
  have hnot : t ∉ F := by rwa [hF]
  refine ht.outside hpc (by simp) hsame ⟨insert t F, fun u => ?_, ?_⟩ fun h => absurd h (by simp [hc])
  · rcases eq_or_ne u t with rfl | hne
    · simp [inOp_self hpc]
    · rw [mem_insert, inOp_of_ne hpc hne, hF]; simp [hne]
  · rw [card_insert_of_notMem hnot, hcard, ho]

theorem Turns.endOp (hin : m.InOp t) (hpc : m'.pc = update m.pc t .idle) (ho : m'.outstanding = m.outstanding - 1)
    (hsame : m'.committing = m.committing ∧ m'.flight = m.flight) : Turns m' := by
  obtain ⟨F, hF, hcard⟩ := ht.ops
  have hmem : t ∈ F := (hF t).mpr hin
  refine ht.outside hpc (by simp) hsame ⟨F.erase t, fun u => ?_, ?_⟩ fun h => absurd h (by simp [ht.not_committing hin])
  · rcases eq_or_ne u t with rfl | hne
    · simp [inOp_self hpc]
    · rw [mem_erase, inOp_of_ne hpc hne, hF]; simp [hne]
  · rw [card_erase_of_mem hmem, hcard, ho]

theorem Turns.commitEnd (hat : m.pc t = .committing after) (hpc : m'.pc = update m.pc t (.committed after))
    (hf : m'.flight = none) (hsame : m'.outstanding = m.outstanding ∧ m'.committing = m.committing) : Turns m' := by
  have hin : m.InCommit t := ⟨after, .inl hat⟩
  have hsub : ∀ u, m'.InCommit u → m.InCommit u := fun u hu => by
    rcases eq_or_ne u t with rfl | hne
    · exact hin
    · exact (inCommit_of_ne hpc hne).mp hu
  refine ⟨ops_keep hpc ht.ops hsame.1 (iff_of_false (by simp) (by simp [InOp, hat])),
    fun u hu => hsame.2.trans (ht.flag u (hsub u hu)), fun u v hu hv => ht.one u v (hsub u hu) (hsub v hv),
    by rw [hsame.1, hsame.2]; exact ht.alone, fun h => absurd hf h, fun _ _ _ => hf⟩

theorem Turns.move (hm : Moves size t m a m') : Turns m' := by
  cases hm with
  | beginOp _ hpc | sync hpc | syncSkip _ hpc =>
    exact ht.goto rfl (by simp [InOp, hpc]) (by simp) (by simp) ⟨rfl, rfl, rfl⟩
  | enter need hpc ha => exact ht.enter (by simp [InOp, hpc]) rfl ha.1 rfl ⟨rfl, rfl⟩
  | retry _ hpc hi | syncCommit _ hpc hi => exact ht.startCommit _ (by simp [InOp, hpc]) hi
  | wait => exact ht
  | read | write => exact ⟨ht.ops, ht.flag, ht.one, ht.alone, ht.flying, ht.down⟩
  | endOp id need hpc => exact ht.endOp ⟨id, need, hpc⟩ rfl rfl ⟨rfl, rfl⟩
  | io after w f hpc hf =>
    have hc := ht.flag t ⟨after, .inl hpc⟩
    refine ⟨ht.ops, ht.flag, ht.one, ht.alone, fun _ => hc, fun u after' hu => ?_⟩
    have := ht.down u after' hu
    rw [hf] at this
    cases this
  | commitEnd after result hpc hf => exact ht.commitEnd hpc rfl rfl ⟨rfl, rfl⟩
  | unflagRetry _ hpc | unflagRet _ hpc => exact ht.unflag hpc rfl (by simp) (by simp) ⟨rfl, rfl, rfl⟩

end

/-! ### What is on the disk -/

/-- A commit on its way from `s₀`: `done` has reached the disk. -/
structure Flies (s : Sys) (f : Flight) (s₀ : Sys) (done : List (Write Nat Block)) : Prop where
  start : s.start = s₀.start
  block : s.block = s₀.block
  some : s₀.block ≠ []
  result : f.result = commit s₀
  issued : (commit s₀).issued = done ++ f.todo
  disk : s.disk = applyAll done s₀.disk

/-- The journal tracks the history with `k` blocks of it on the disk, now or when the running commit began. -/
def Data (size : Nat) (base : Nat → Block) (k : Nat) (m : Machine Task) : Prop :=
  match m.flight with
  | none => Tracks size base m.history k m.sys ∧ (m.committing = true → m.sys.block = [])
  | .some f => ∃ s₀ done, Tracks size base m.history k s₀ ∧ Flies m.sys f s₀ done

/-- Every promise lies among the first `k` blocks of the history. -/
def Covered (k : Nat) (m : Machine Task) : Prop := ∀ id ∈ m.promised, ∀ e ∈ m.history.drop k, e.op ≠ id

/-- A sync is well timed when its test finds the log empty or the journal idle. -/
def Timely (a : Act) (m : Machine Task) : Prop :=
  a = .syncTest → m.sys.block = [] ∨ (m.committing = false ∧ m.outstanding = 0)

omit [DecidableEq Task] in
theorem Data.length_of_empty (hd : Data size base k m) (hnil : m.sys.block = []) : k = m.history.length := by
  unfold Data at hd
  split at hd
  · exact hd.1.all hnil
  · obtain ⟨s₀, done, -, hf⟩ := hd
    exact absurd (hf.block.symm.trans hnil) hf.some

omit [DecidableEq Task] in
theorem covered_all : Covered m.history.length m := by
  intro id _ e he; simp at he

theorem Data.startCommit (hd : Data size base k m) (ht : Turns m) (hi : m.Idle)
    (after : After) : Data size base k (m.startCommit t after) := by
  have hf : m.flight = none := by
    by_contra hne
    have := ht.flying hne
    rw [hi.1] at this
    cases this
  simp only [Data, hf] at hd
  refine ⟨m.sys, [], hd.1, rfl, rfl, fun e => ?_, rfl, rfl, rfl⟩
  have := hi.2.2
  rw [e] at this
  exact lt_irrefl _ this

/-- The data invariant through one action, under a well-timed sync. -/
theorem data_move (hn : Numbers m) (ht : Turns m)
    (hd : ∃ k, Data size base k m ∧ Covered k m) (htime : Timely a m) (hm : Moves size t m a m') :
    ∃ k, Data size base k m' ∧ Covered k m' := by
  obtain ⟨k, hd, hc⟩ := hd
  cases hm with
  | beginOp | enter | wait | endOp | sync => exact ⟨k, hd, hc⟩
  | retry _ _ hi | syncCommit _ _ hi => exact ⟨k, hd.startCommit ht hi _, hc⟩
  | read b =>
    refine ⟨k, ?_, hc⟩
    cases hf : m.flight with
    | none =>
      simp only [Data, hf] at hd ⊢
      exact ⟨hd.1.xv6bread b, by simpa using hd.2⟩
    | some f =>
      simp only [Data, hf] at hd ⊢
      obtain ⟨s₀, done, htr, h⟩ := hd
      exact ⟨s₀, done, htr, by simpa using h.start, by simpa using h.block, h.some, h.result, h.issued, by simpa using h.disk⟩
  | write id need b data hpc hlt hb =>
    have hcom := ht.not_committing ⟨id, need, hpc⟩
    have hf : m.flight = none := by
      by_contra hne
      have := ht.flying hne
      rw [hcom] at this
      cases this
    simp only [Data, hf] at hd
    refine ⟨k, ?_, fun id' hid e he => ?_⟩
    · simp only [hf]
      exact ⟨hd.1.xv6logWrite id hlt hb, fun h => by rw [hcom] at h; cases h⟩
    · rw [drop_append_of_le_length hd.1.le] at he
      rcases mem_append.mp he with he | he
      · exact hc id' hid e he
      rw [List.mem_singleton.mp he]
      rintro rfl
      exact (hn.current t _ need hpc).2 (hn.promised _ hid)
  | syncSkip asked hpc hi =>
    -- the test failed, so a well-timed one found the log empty: all of the history is on the disk
    have hnil : m.sys.block = [] := by
      rcases htime rfl with h | ⟨h1, h2⟩
      · exact h
      · by_contra hne
        exact hi ⟨h1, h2, length_pos_iff.mpr hne⟩
    have hk := hd.length_of_empty hnil
    exact ⟨k, hd, by rw [hk]; exact covered_all⟩
  | io after w f hpc hf =>
    simp only [Data, hf] at hd
    obtain ⟨s₀, done, htr, h⟩ := hd
    refine ⟨k, ⟨s₀, done ++ [w], htr, h.start, h.block, h.some, h.result, ?_, ?_⟩, hc⟩
    · rw [h.issued]; simp
    · simp only [applyAll_append, applyAll, h.disk]
  | commitEnd after result hpc hf =>
    simp only [Data, hf] at hd
    obtain ⟨s₀, done, htr, h⟩ := hd
    have hres : result = commit s₀ := h.result
    refine ⟨m.history.length, ⟨?_, fun _ => ?_⟩, covered_all⟩
    · rw [hres]; exact htr.commit
    · rw [hres]; exact commit_block s₀
  | unflagRetry need hpc =>
    have hf := ht.down t _ hpc
    refine ⟨k, ?_, hc⟩
    simp only [Data, hf] at hd
    simp only [goto, hf]
    exact ⟨hd.1, Bool.noConfusion⟩
  | unflagRet asked hpc =>
    have hf := ht.down t _ hpc
    have hcom := ht.flag t ⟨_, .inr hpc⟩
    simp only [Data, hf] at hd
    have hk := hd.1.all (hd.2 hcom)
    refine ⟨k, ?_, by rw [hk]; exact covered_all⟩
    simp only [goto, hf]
    exact ⟨hd.1, Bool.noConfusion⟩

/-! ### Runs -/

/-- One action of some task. -/
def Steps (size : Nat) (m m' : Machine Task) : Prop := ∃ t a, step size t a m = some m'

/-- One action of some task, a sync being well timed. -/
def TimelySteps (size : Nat) (m m' : Machine Task) : Prop := ∃ t a, Timely a m ∧ step size t a m = some m'

/-- What every well-timed run keeps. -/
structure Kept (size : Nat) (base : Nat → Block) (m : Machine Task) : Prop where
  numbers : Numbers m
  turns : Turns m
  data : ∃ k, Data size base k m ∧ Covered k m

omit [DecidableEq Task] in
theorem Fresh.kept (h : Fresh m) (hsize : size < 2 ^ 32) : Kept size m.sys.disk m := by
  refine ⟨⟨?_, ?_, ?_, ?_, ?_⟩, ⟨⟨∅, ?_, by simp [h.outstanding]⟩, ?_, ?_, ?_, ?_, ?_⟩, 0, ?_, ?_⟩
  · intro t id need hpc; rw [h.pc] at hpc; cases hpc
  · intro t u id n n' hpc; rw [h.pc] at hpc; cases hpc
  · intro id hid; rw [h.ended] at hid; cases hid
  · intro t l hpc; rw [h.pc] at hpc; simp at hpc
  · intro id hid; rw [h.promised] at hid; cases hid
  · intro t; simp [InOp, h.pc]
  · intro t ⟨after, hpc⟩; rw [h.pc] at hpc; simp at hpc
  · intro t u ⟨after, hpc⟩; rw [h.pc] at hpc; simp at hpc
  · intro hc; rw [h.committing] at hc; cases hc
  · intro hf; exact absurd h.flight hf
  · intro t after hpc; rw [h.pc] at hpc; cases hpc
  · simp only [Data, h.flight, h.history]
    refine ⟨⟨le_rfl, ⟨hsize, h.clean, by simp [h.block], by simp [h.block], by simp [h.block], ?_, h.issued⟩,
      fun _ _ => rfl, fun _ _ _ => rfl, fun _ => rfl⟩, fun _ => h.block⟩
    intro b hb; simp [h.block] at hb
  · intro id hid; rw [h.promised] at hid; cases hid

theorem Kept.run {m₀ : Machine Task} (h : Kept size base m₀) (hrun : ReflTransGen (TimelySteps size) m₀ m) :
    Kept size base m := by
  induction hrun with
  | refl => exact h
  | tail _ hstep ih =>
    obtain ⟨t, a, htime, hs⟩ := hstep
    have hm := moves_of_step hs
    exact ⟨ih.numbers.move hm, ih.turns.move hm, data_move ih.numbers ih.turns ih.data htime hm⟩

omit [DecidableEq Task] in
/-- Whatever is covered survives a power cut. -/
theorem Data.crash (hd : Data size base k m)
    (hcut : CrashTo m.pending m.sys.disk d₁) (hrec : ReflTransGen (CutRecovery m.sys.start) d₁ d₂) (boot : Boot) :
    (∀ i ∉ logArea m.sys.start, recovered boot m.sys.start d₂ i = replay base (m.history.take k) i) ∨
      ∀ i ∉ logArea m.sys.start, recovered boot m.sys.start d₂ i = replay base m.history i := by
  cases hf : m.flight with
  | none =>
    simp only [Data, hf] at hd
    have hpend : m.pending = [] := by simp [pending, hf]
    rw [hpend] at hcut
    cases hcut
    exact hd.1.crash (.cut _ _) hrec boot
  | some f =>
    simp only [Data, hf] at hd
    obtain ⟨s₀, done, htr, h⟩ := hd
    have hpend : m.pending = f.todo := by simp [pending, hf]
    rw [hpend, h.disk] at hcut
    rw [h.start] at hrec ⊢
    refine htr.crash ?_ hrec boot
    rw [h.issued]
    exact hcut.append_right

/-- CORRECT (durability): in every run whose syncs make their test on an empty log or an idle
    journal, every operation that had ended before a returned sync survives any later power cut. -/
theorem sync_durable {m₀ m : Machine Task} (hsize : size < 2 ^ 32) (h₀ : Fresh m₀)
    (hrun : ReflTransGen (TimelySteps size) m₀ m) : Durable m₀.sys.disk m := by
  obtain ⟨-, -, k, hd, hc⟩ := (h₀.kept hsize).run hrun
  intro id hid d₁ d₂ hcut hrec boot
  rcases hd.crash hcut hrec boot with h | h
  · exact ⟨k, hc id hid, h⟩
  · exact ⟨m.history.length, by simp, by rwa [take_length]⟩

/-- Two tasks on a zeroed disk. -/
def mounted : Machine (Fin 2) where
  sys := { oneLogged with cache := fun _ => none, pins := fun _ => 0, block := [] }
  outstanding := 0
  reserved := 0
  committing := false
  flight := none
  pc := fun _ => .idle
  nextId := 0
  history := []
  ended := []
  promised := []

theorem mounted_fresh : mounted.Fresh := ⟨rfl, rfl, rfl, rfl, rfl, rfl, fun _ => rfl, rfl, rfl, rfl⟩

/-- Task 0 logs a block, ends its operation and syncs; nobody else is there. -/
theorem sync_durable_alone : ∃ m, ReflTransGen (TimelySteps 1000) mounted m ∧ m.promised = [0] ∧ Durable mounted.sys.disk m := by
  have hrun : ∃ m, ReflTransGen (TimelySteps 1000) mounted m ∧ m.promised = [0] := by
    refine ⟨_, .head ⟨0, .beginOp 1, by simp [Timely], rfl⟩ <| .head ⟨0, .beginTest, by simp [Timely], rfl⟩ <|
      .head ⟨0, .write 200 fun _ => 7, by simp [Timely], rfl⟩ <| .head ⟨0, .endOp, by simp [Timely], rfl⟩ <|
      .head ⟨0, .sync, by simp [Timely], rfl⟩ <| .head ⟨0, .syncTest, fun _ => .inr ⟨rfl, rfl⟩, rfl⟩ <|
      .head ⟨0, .io, by simp [Timely], rfl⟩ <| .head ⟨0, .io, by simp [Timely], rfl⟩ <|
      .head ⟨0, .io, by simp [Timely], rfl⟩ <| .head ⟨0, .io, by simp [Timely], rfl⟩ <|
      .head ⟨0, .commitEnd, by simp [Timely], rfl⟩ <| .head ⟨0, .unflag, by simp [Timely], rfl⟩ .refl, rfl⟩
  obtain ⟨m, hrun, hp⟩ := hrun
  exact ⟨m, hrun, hp, sync_durable (by decide) mounted_fresh hrun⟩

/-- INCORRECT without that: task 1 is inside an operation, so the sync of task 0 commits nothing and
    returns; the power cut takes the block task 0 had logged. -/
theorem sync_returns_early : ∃ m, ReflTransGen (Steps 1000) mounted m ∧ m.promised = [0] ∧ ¬ Durable mounted.sys.disk m := by
  have hrun : ∃ m, ReflTransGen (Steps 1000) mounted m ∧ m.promised = [0] ∧ m.pending = [] ∧
      m.sys.disk = mounted.sys.disk ∧ m.sys.start = 2 ∧ m.history = [⟨0, 200, fun _ => 7⟩] := by
    refine ⟨_, .head ⟨0, .beginOp 1, rfl⟩ <| .head ⟨0, .beginTest, rfl⟩ <|
      .head ⟨0, .write 200 fun _ => 7, rfl⟩ <| .head ⟨0, .endOp, rfl⟩ <| .head ⟨1, .beginOp 1, rfl⟩ <|
      .head ⟨1, .beginTest, rfl⟩ <| .head ⟨0, .sync, rfl⟩ <| .head ⟨0, .syncTest, rfl⟩ .refl,
      rfl, rfl, rfl, rfl, rfl⟩
  obtain ⟨m, hrun, hp, -, hdisk, hstart, hhist⟩ := hrun
  refine ⟨m, hrun, hp, fun hdur => ?_⟩
  have hcut : CrashTo m.pending m.sys.disk m.sys.disk := .cut _ _
  obtain ⟨k, hk, heq⟩ := hdur 0 (by rw [hp]; exact List.mem_singleton_self 0) _ _ hcut .refl ⟨true, true, fun _ _ => true⟩
  have hclean : word (m.sys.disk m.sys.start) 0 = 0 := by rw [hdisk]; rfl
  have h200 := heq 200 (by simp [hstart, logArea, logBlocks])
  rw [(recover_clean _ hclean).2, hdisk] at h200
  cases k with
  | zero => rw [hhist] at hk; exact hk _ mem_cons_self rfl
  | succ k =>
    rw [hhist] at h200
    have := congrFun h200 0
    simp [replay, mounted, oneLogged] at this

end Machine

end Orthox.Journal
