import Orthox.Cache.Read

/-! Device reads that fail (`kernel/xv6bio.c`, `kernel/xv6log.c`).

    The file system is seen through its traffic with the cache: reading files, looking at blocks, changing blocks inside a
    transaction, commit, recovery and the superblock written at mount. Every operation reports the buffers whose bytes it passed
    on: to the caller of `xv6fs_readi`, into the log area, to their home blocks or back in place. Device writes succeed here;
    reads need not, and `xv6bread` marks the buffer valid all the same. -/

namespace Orthox.Cache
open List Function Option
open Journal (Block Word runLen sortLogBlocks packHead unpackHead)
open Blocks

/-- The cache with the journal in front of it. -/
structure Store where
  bio : Bio
  /-- `lg.start` -/
  start : Nat
  /-- `lg.lh.block[0 .. lg.lh.n)` -/
  log : List Word
  /-- Whether `xv6log_init` got the relay buffer. -/
  gStage : Bool
  /-- What the relay buffer holds while `g_stage_valid` is set. -/
  stage : Option (List Buf)
  /-- The task waits for a buffer lock that it holds itself. -/
  stuck : Bool

/-- What an operation passed on, and what it left. -/
abbrev Effect := List Buf × Store

/-- Go on with `f`, unless the task is stuck. -/
def Effect.andThen (e : Effect) (f : Store → Effect) : Effect :=
  if e.2.stuck then e else (e.1 ++ (f e.2).1, (f e.2).2)

namespace Bio

/-- One device write of consecutive blocks. -/
def write (s : Bio) (b : Nat) (ds : List Block) : Bio :=
  { s with disk := fun i => if b ≤ i then (ds[i - b]?).getD (s.disk i) else s.disk i }

def xv6bpin (s : Bio) (b : Nat) : Bio := { s with pins := update s.pins b (s.pins b + 1) }

def xv6bunpin (s : Bio) (b : Nat) : Bio := { s with pins := update s.pins b (s.pins b - 1) }

end Bio

namespace Store
variable (env : Env)

/-- `xv6log_write` with its absorption. -/
def xv6logWrite (s : Store) (b : Nat) : Store :=
  if BitVec.ofNat 32 b ∈ s.log then s
  else { s with bio := s.bio.xv6bpin b, log := s.log ++ [BitVec.ofNat 32 b] }

/-- Look at a block without passing its bytes on. -/
def look (b : Nat) (s : Store) : Effect := ([], { s with bio := (s.bio.xv6bread env false b).2 })

/-- Change part of a block inside a transaction: bitmap bits, inodes, tables, entries, file bytes. -/
def update (b : Nat) (f : Block → Block) (s : Store) : Effect :=
  let r := s.bio.xv6bread env false b
  ([], { s with bio := r.2.setBuf b ⟨f r.1.data, r.1.good⟩ }.xv6logWrite b)

/-- Overwrite a whole block inside a transaction: `bzero`, and `writei` at a whole block. -/
def overwrite (b : Nat) (d : Block) (s : Store) : Effect :=
  ([], { s with bio := (s.bio.xv6bread env true b).2.setBuf b ⟨d, true⟩ }.xv6logWrite b)

/-- Change part of a block and write it back in place. -/
def rewrite (b : Nat) (f : Block → Block) (s : Store) : Effect :=
  let r := s.bio.xv6bread env false b
  ([⟨f r.1.data, r.1.good⟩], { s with bio := (r.2.setBuf b ⟨f r.1.data, r.1.good⟩).write b [f r.1.data] })

def writeHead (s : Store) : Effect := rewrite env s.start (fun hb => packHead hb s.log) s

/-! ### `write_log` -/

/-- Collect the pinned buffers in log order. -/
def gather : List Word → Bio → List Buf × Bio
  | [], s => ([], s)
  | b :: bs, s =>
    let r := s.xv6bread env false b.toNat
    let t := gather bs r.2
    (r.1 :: t.1, t.2)

/-- The loop that writes log blocks one at a time, from entry `tail` on. -/
def writeLogEach : Nat → List Word → Store → Effect
  | _, [], s => ([], s)
  | tail, b :: bs, s =>
    -- `from` would be the buffer `to`, whose lock is held
    if b.toNat = s.start + tail + 1 then ([], { s with stuck := true })
    else
      let r := (s.bio.xv6bread env true (s.start + tail + 1)).2.xv6bread env false b.toNat
      let bio := (r.2.setBuf (s.start + tail + 1) r.1).write (s.start + tail + 1) [r.1.data]
      Effect.andThen ([r.1], { s with bio := bio }) (writeLogEach (tail + 1) bs)

def writeLog (s : Store) : Effect :=
  if s.gStage = true ∧ s.log ≠ [] then
    let r := gather env s.log s.bio
    (r.1, { s with bio := r.2.write (s.start + 1) (r.1.map Buf.data), stage := some r.1 })
  else writeLogEach env 0 s.log s

/-! ### `install_trans` -/

/-- Cache side of a run: `memcpy` into the home buffers, then unpin. -/
def installBufs (recovering : Bool) : List Word → List Buf → Bio → Bio
  | b :: bs, B :: Bs, s =>
    let s := (s.xv6bread env true b.toNat).2.setBuf b.toNat B
    installBufs recovering bs Bs (if recovering then s else s.xv6bunpin b.toNat)
  | _, _, s => s

/-- The staged loop: consecutive destinations go out in one command. Every round consumes at least
    one entry, so as much fuel as there are entries is enough. -/
def installRuns (recovering : Bool) : Nat → List Word → List Buf → Bio → Bio
  | _, [], _, s => s
  | 0, _ :: _, _, s => s
  | fuel + 1, b :: bs, Bs, s =>
    let run := runLen b.toInt bs 1
    let s := installBufs env recovering ((b :: bs).take run) (Bs.take run) s
    installRuns recovering fuel ((b :: bs).drop run) (Bs.drop run) (s.write b.toNat ((Bs.take run).map Buf.data))

/-- The unstaged loop: read each log block back and write it home. -/
def installEach (recovering : Bool) : Nat → List Word → Store → Effect
  | _, [], s => ([], s)
  | tail, b :: bs, s =>
    -- `lbuf` would be the buffer `dbuf`, whose lock is held
    if b.toNat = s.start + tail + 1 then ([], { s with stuck := true })
    else
      let r := (s.bio.xv6bread env true b.toNat).2.xv6bread env false (s.start + tail + 1)
      let bio := (r.2.setBuf b.toNat r.1).write b.toNat [r.1.data]
      Effect.andThen ([r.1], { s with bio := if recovering then bio else bio.xv6bunpin b.toNat })
        (installEach recovering (tail + 1) bs)

/-- The blocks the staged loop installs from, when there are any: the relay buffer as `write_log`
    left it, or one run read of the log area. -/
def staged (recovering : Bool) (s : Store) : Option (List Buf) :=
  if s.gStage = true ∧ s.log ≠ [] then
    if recovering = false ∧ s.stage.isSome = true then s.stage
    else if env.failsRun s.bio.gets then none
    else some ((range s.log.length).map fun k => ⟨s.bio.disk (s.start + 1 + k), true⟩)
  else none

def installTrans (recovering : Bool) (s : Store) : Effect :=
  match staged env recovering s with
  | some Bs => (Bs, { s with bio := installRuns env recovering s.log.length s.log Bs s.bio, stage := none })
  | none => (installEach env recovering 0 s.log s).andThen fun s => ([], { s with stage := none })

/-! ### Commit, recovery and reading -/

/-- `lg.lh.n = 0; write_head()` -/
def clearHead (s : Store) : Effect := writeHead env { s with log := [] }

def commit (s : Store) : Effect :=
  if s.log = [] then ([], s)
  else
    ((writeLog env { s with log := sortLogBlocks s.log }).andThen (writeHead env)).andThen (installTrans env false)
      |>.andThen (clearHead env)

/-- `read_head` -/
def readHead (s : Store) : Effect :=
  let r := s.bio.xv6bread env false s.start
  ([], { s with bio := r.2, log := unpackHead r.1.data })

def recoverFromLog (s : Store) : Effect := ((readHead env s).andThen (installTrans env true)).andThen (clearHead env)

/-- A file read; only a successful one hands its bytes out. -/
def readi (ip : Inode) (off n : Nat) (s : Store) : Effect :=
  let r := xv6fsReadi env s.bio ip (fun _ => 0) off n
  (if r.1 < 0 then [] else r.2.used, { s with bio := r.2.bio })

end Store

/-- What the file system does with the cache. -/
inductive Act
  | readi (ip : Inode) (off n : Nat)
  | look (b : Nat)
  | update (b : Nat) (f : Block → Block)
  | overwrite (b : Nat) (d : Block)
  | commit
  | recover
  | writesb (f : Block → Block)

def Act.exec (env : Env) : Act → Store → Effect
  | .readi ip off n => Store.readi env ip off n
  | .look b => Store.look env b
  | .update b f => Store.update env b f
  | .overwrite b d => Store.overwrite env b d
  | .commit => Store.commit env
  | .recover => Store.recoverFromLog env
  | .writesb f => Store.rewrite env 1 f

/-- A run, with all the buffers whose bytes were passed on. -/
def perform (env : Env) : List Act → Store → Effect
  | [], s => ([], s)
  | a :: as, s => (a.exec env s).andThen (perform env as)

/-! ### Buffers without failed reads -/

/-- No buffer has bytes of a failed read, that of block `c` apart. -/
def Bio.GoodBut (c : Option Nat) (s : Bio) : Prop := ∀ b B, c ≠ some b → s.buf b = some B → B.good = true

namespace Bio.GoodBut
variable {env : Env} {s : Bio} {c : Option Nat} {b : Nat} {B : Buf}

theorem bget (h : s.GoodBut c) (b : Nat) : (s.bget env b).2.GoodBut c := by
  intro i B hi hB
  rcases resident_eq env s i with e | ⟨-, e⟩
  · exact h i B hi (e ▸ hB)
  · exact absurd (e.symm.trans hB) (by simp)

/-- Filling the buffer that was left out makes all of them good. -/
theorem fill (h : s.GoodBut (some b)) (hB : B.good) : (s.setBuf b B).GoodBut none := by
  intro i B' _ hi
  rcases Schemes.update_some hi with ⟨-, rfl⟩ | ⟨hib, hi⟩
  · exact hB
  · exact h i B' (fun hc => hib (some.inj hc).symm) hi

theorem weaken (h : s.GoodBut none) (c : Option Nat) : s.GoodBut c := fun i B _ => h i B (by simp)

theorem setBuf (h : s.GoodBut c) (hB : B.good) : (s.setBuf b B).GoodBut c := by
  intro i B' hc hi
  rcases Schemes.update_some hi with ⟨-, rfl⟩ | ⟨-, hi⟩
  · exact hB
  · exact h i B' hc hi

/-- A read whose bytes are used gives good ones, if it is not of the block left out. -/
theorem xv6bread (h : s.GoodBut c) (he : env.Reads) (hb : c ≠ some b) :
    (s.xv6bread env false b).1.good ∧ (s.xv6bread env false b).2.GoodBut c := by
  have hfetch : s.fetch env false b = ⟨s.disk b, true⟩ := by simp [fetch, he s.gets]
  unfold Bio.xv6bread
  split
  · rename_i B hB
    exact ⟨h.bget b b B hb hB, h.bget b⟩
  · rw [hfetch]
    exact ⟨rfl, (h.bget b).setBuf rfl⟩

/-- A read whose bytes are about to be overwritten may fail. -/
theorem xv6bread_whole (h : s.GoodBut none) : (s.xv6bread env true b).2.GoodBut (some b) := by
  unfold Bio.xv6bread
  split
  · exact (h.bget b).weaken _
  intro i B hi hB
  have hib : i ≠ b := fun e => hi (congrArg some e.symm)
  simp only [Bio.setBuf, update_of_ne hib] at hB
  exact h.bget b i B (by simp) hB

theorem xv6bioFillCache : ∀ {ds : List Block} {b : Nat} {s : Bio}, s.GoodBut none → (s.xv6bioFillCache env b ds).GoodBut none
  | [], _, _, h => h
  | _ :: _, b, _, h => by
    unfold Bio.xv6bioFillCache
    split
    · exact xv6bioFillCache (h.bget b)
    · exact xv6bioFillCache ((h.bget b).setBuf rfl)

end Bio.GoodBut

/-! ### Reading files -/

section
variable {env : Env} (he : env.Reads) {ip : Inode}
include he

theorem bmapWalk_good : ∀ (is : List (Fin 256)) {a : Nat} {s : Bio}, s.GoodBut none → (bmapWalk env is a s).2.GoodBut none
  | [], _, _, h => h
  | i :: is, a, s, h => by
    have hs := (h.xv6bread he (b := a) (by simp)).2
    simp only [bmapWalk]
    split
    · exact hs
    · exact bmapWalk_good is hs

theorem bmapPeek_good (ip : Inode) {s : Bio} (h : s.GoodBut none) (bn : Nat) : (bmapPeek env s ip bn).2.GoodBut none := by
  unfold bmapPeek
  split
  · exact h
  split
  · exact h
  · exact bmapWalk_good he _ h

theorem runLength_good {addr bn : Nat} : ∀ (k run : Nat) {s : Bio}, s.GoodBut none →
    (runLength env ip addr bn k run s).2.GoodBut none
  | 0, _, _, h => h
  | k + 1, run, s, h => by
    have hs := bmapPeek_good he ip h (bn + run)
    simp only [runLength]
    split
    · exact runLength_good k (run + 1) hs
    · exact hs

/-- Everything copied so far came from good buffers. -/
structure Read.Clean (r : Read) : Prop where
  used : ∀ B ∈ r.used, B.good = true
  bio : r.bio.GoodBut none

namespace Read.Clean
variable {r : Read}

theorem copyBlock (h : r.Clean) (addr m : Nat) : (r.copyBlock env addr m).Clean := by
  obtain ⟨hB, hs⟩ := h.bio.xv6bread he (by simp)
  exact ⟨forall_mem_cons.mpr ⟨hB, h.used⟩, hs⟩

theorem copyBlocks : ∀ (n addr : Nat) {r : Read}, r.Clean → (Read.copyBlocks env n addr r).Clean
  | 0, _, _, h => h
  | n + 1, addr, _, h => copyBlocks n (addr + 1) (h.copyBlock he addr bsize)

theorem round (h : r.Clean) (n : Nat) : (r.round env ip n).Clean := by
  have hq : Read.Clean { r with bio := (bmapPeek env r.bio ip (r.off / bsize)).2 } := ⟨h.used, bmapPeek_good he ip h.bio _⟩
  have hl (a k) : Read.Clean
      { r with bio := (runLength env ip a (r.off / bsize) k 1 (bmapPeek env r.bio ip (r.off / bsize)).2).2 } :=
    ⟨h.used, runLength_good he _ _ hq.bio⟩
  unfold Read.round
  dsimp only
  split
  · exact ⟨h.used, hq.bio⟩
  split
  · split
    · split
      · exact ⟨h.used, (hl _ _).bio.xv6bioFillCache⟩
      · exact copyBlocks he _ _ (hl _ _)
    · exact (hl _ _).copyBlock he _ _
  · exact hq.copyBlock he _ _

theorem loop (n : Nat) : ∀ (fuel : Nat) {r : Read}, r.Clean → (r.loop env ip n fuel).Clean
  | 0, _, h => h
  | fuel + 1, r, h => by
    unfold Read.loop
    split
    · exact loop n fuel (h.round he n)
    · exact h

end Read.Clean

theorem readi_clean (ip : Inode) {s : Bio} (h : s.GoodBut none) (dst : Nat → BitVec 8) (off n : Nat) :
    (xv6fsReadi env s ip dst off n).2.Clean := by
  have h₀ : Read.Clean ⟨0, off, dst, [], s⟩ := ⟨by simp, h⟩
  unfold xv6fsReadi
  split
  · exact h₀
  · exact Read.Clean.loop he _ _ h₀

end

/-! ### The journal -/

/-- No bytes of a failed read in the cache or in the relay buffer. -/
structure Store.Clean (s : Store) : Prop where
  bio : s.bio.GoodBut none
  stage : ∀ Bs, s.stage = some Bs → ∀ B ∈ Bs, B.good = true

/-- Only good bytes were passed on, and only good ones are left. -/
structure Effect.Clean (e : Effect) : Prop where
  taken : ∀ B ∈ e.1, B.good = true
  store : e.2.Clean

theorem Effect.Clean.andThen {e : Effect} {f : Store → Effect} (h : e.Clean) (hf : ∀ s : Store, s.Clean → Effect.Clean (f s)) :
    (e.andThen f).Clean := by
  unfold Effect.andThen
  split
  · exact h
  · obtain ⟨ht, hs⟩ := hf e.2 h.store
    exact ⟨forall_mem_append.mpr ⟨h.taken, ht⟩, hs⟩

namespace Store.Clean
variable {env : Env} {s : Store}

section
variable (h : s.Clean)
include h

theorem of_bio {bio : Bio} (hb : bio.GoodBut none) : Store.Clean { s with bio := bio } := ⟨hb, h.stage⟩

/-- An operation that passes nothing on. -/
theorem silent : Effect.Clean ([], s) := ⟨by simp, h⟩

theorem single {B : Buf} (hB : B.good) : Effect.Clean ([B], s) :=
  ⟨fun B' hB' => by rw [mem_singleton.mp hB']; exact hB, h⟩

theorem xv6logWrite (b : Nat) : (s.xv6logWrite b).Clean := by
  unfold Store.xv6logWrite
  split
  · exact h
  · exact ⟨h.bio, h.stage⟩

theorem overwrite (b : Nat) (d : Block) : Effect.Clean (Store.overwrite env b d s) := by
  refine silent (xv6logWrite (h.of_bio ?_) b)
  exact h.bio.xv6bread_whole.fill rfl

/-- The staged loop has the relay buffer or what one successful run read brought. -/
theorem staged (recovering : Bool) {Bs : List Buf} (hBs : staged env recovering s = some Bs) : ∀ B ∈ Bs, B.good := by
  unfold Store.staged at hBs
  split at hBs
  · split at hBs
    · exact h.stage Bs hBs
    split at hBs
    · cases hBs
    intro B hB
    rw [← some.inj hBs] at hB
    obtain ⟨k, -, rfl⟩ := mem_map.mp hB
    rfl
  · cases hBs

end

theorem installBufs (recovering : Bool) : ∀ (bs : List Word) {Bs : List Buf} {s : Bio}, s.GoodBut none →
    (∀ B ∈ Bs, B.good) → (installBufs env recovering bs Bs s).GoodBut none
  | [], _, _, h, _ => by simpa only [Store.installBufs] using h
  | _ :: _, [], _, h, _ => by simpa only [Store.installBufs] using h
  | b :: bs, B :: Bs, s, h, hBs => by
    have hs : ((s.xv6bread env true b.toNat).2.setBuf b.toNat B).GoodBut none := h.xv6bread_whole.fill (hBs B mem_cons_self)
    refine installBufs recovering bs ?_ fun B' hB' => hBs B' (mem_cons_of_mem _ hB')
    cases recovering
    · exact hs
    · exact hs

theorem installRuns (recovering : Bool) : ∀ (fuel : Nat) (bs : List Word) {Bs : List Buf} {s : Bio}, s.GoodBut none →
    (∀ B ∈ Bs, B.good) → (installRuns env recovering fuel bs Bs s).GoodBut none
  | _, [], _, _, h, _ => by simpa only [Store.installRuns] using h
  | 0, _ :: _, _, _, h, _ => by simpa only [Store.installRuns] using h
  | fuel + 1, b :: bs, Bs, s, h, hBs => by
    refine installRuns recovering fuel _ ?_ fun B hB => hBs B (mem_of_mem_drop hB)
    exact installBufs recovering _ h fun B hB => hBs B (mem_of_mem_take hB)

section
variable (he : env.Reads)
include he

theorem gather : ∀ (bs : List Word) {s : Bio}, s.GoodBut none →
    (∀ B ∈ (gather env bs s).1, B.good) ∧ (gather env bs s).2.GoodBut none
  | [], _, h => ⟨by simp [Store.gather], h⟩
  | b :: bs, s, h => by
    obtain ⟨hB, hs⟩ := h.xv6bread he (by simp)
    obtain ⟨ht, hs'⟩ := gather bs hs
    exact ⟨forall_mem_cons.mpr ⟨hB, ht⟩, hs'⟩

/-- One block through two held buffers: the target is overwritten whole, the source is read for use. -/
theorem transfer {s : Bio} (h : s.GoodBut none) {src dst : Nat} (hne : src ≠ dst) :
    ((s.xv6bread env true dst).2.xv6bread env false src).1.good ∧
      (((s.xv6bread env true dst).2.xv6bread env false src).2.setBuf dst
        ((s.xv6bread env true dst).2.xv6bread env false src).1).GoodBut none := by
  obtain ⟨hB, hs⟩ := h.xv6bread_whole.xv6bread he (fun e => hne (some.inj e).symm)
  exact ⟨hB, hs.fill hB⟩

theorem writeLogEach : ∀ (bs : List Word) (tail : Nat) {s : Store}, s.Clean → Effect.Clean (writeLogEach env tail bs s)
  | [], _, _, h => h.silent
  | b :: bs, tail, s, h => by
    unfold Store.writeLogEach
    split
    · exact silent ⟨h.bio, h.stage⟩
    rename_i hne
    obtain ⟨hB, hs⟩ := transfer he h.bio hne
    refine Effect.Clean.andThen (single (h.of_bio ?_) hB) fun _ h' => writeLogEach bs (tail + 1) h'
    exact hs

theorem installEach (recovering : Bool) : ∀ (bs : List Word) (tail : Nat) {s : Store}, s.Clean →
    Effect.Clean (installEach env recovering tail bs s)
  | [], _, _, h => h.silent
  | b :: bs, tail, s, h => by
    unfold Store.installEach
    split
    · exact silent ⟨h.bio, h.stage⟩
    rename_i hne
    obtain ⟨hB, hs⟩ := transfer he h.bio (symm hne)
    refine Effect.Clean.andThen (single (h.of_bio ?_) hB) fun _ h' => installEach recovering bs (tail + 1) h'
    cases recovering
    · exact hs
    · exact hs

section
variable (h : s.Clean)
include h

theorem update (b : Nat) (f : Block → Block) : Effect.Clean (update env b f s) := by
  obtain ⟨hB, hs⟩ := h.bio.xv6bread he (by simp)
  refine silent (xv6logWrite (h.of_bio ?_) b)
  exact hs.setBuf hB

theorem rewrite (b : Nat) (f : Block → Block) : Effect.Clean (Store.rewrite env b f s) := by
  obtain ⟨hB, hs⟩ := h.bio.xv6bread he (by simp)
  refine single (h.of_bio ?_) hB
  exact hs.setBuf hB

theorem writeHead : Effect.Clean (writeHead env s) := h.rewrite he _ _

theorem clearHead : Effect.Clean (Store.clearHead env s) := writeHead he ⟨h.bio, h.stage⟩

theorem writeLog : Effect.Clean (writeLog env s) := by
  unfold Store.writeLog
  split
  · obtain ⟨ht, hs⟩ := gather he s.log h.bio
    exact ⟨ht, hs, fun Bs hBs => some.inj hBs ▸ ht⟩
  · exact writeLogEach he _ _ h

theorem installTrans (recovering : Bool) : Effect.Clean (installTrans env recovering s) := by
  unfold Store.installTrans
  split
  · rename_i Bs hBs
    have hgood := h.staged recovering hBs
    exact ⟨hgood, installRuns recovering _ _ h.bio hgood, by simp⟩
  · exact (installEach he recovering _ _ h).andThen fun _ h' => silent ⟨h'.bio, by simp⟩

theorem commit : Effect.Clean (commit env s) := by
  unfold Store.commit
  split
  · exact h.silent
  have hsort : Store.Clean { s with log := sortLogBlocks s.log } := ⟨h.bio, h.stage⟩
  exact (((hsort.writeLog he).andThen fun _ h' => h'.writeHead he).andThen
    fun _ h' => h'.installTrans he false).andThen fun _ h' => h'.clearHead he

theorem recoverFromLog : Effect.Clean (recoverFromLog env s) := by
  have hread : Effect.Clean (readHead env s) := silent ⟨(h.bio.xv6bread he (by simp)).2, h.stage⟩
  exact (hread.andThen fun _ h' => h'.installTrans he true).andThen fun _ h' => h'.clearHead he

theorem readi (ip : Inode) (off n : Nat) : Effect.Clean (Store.readi env ip off n s) := by
  obtain ⟨hused, hbio⟩ := readi_clean he ip h.bio (fun _ => 0) off n
  refine ⟨fun B hB => ?_, hbio, h.stage⟩
  simp only [Store.readi] at hB
  split at hB
  · cases hB
  · exact hused B hB

/-- One operation passes on good bytes only and leaves good ones. -/
theorem exec : ∀ a : Act, Effect.Clean (a.exec env s)
  | .readi ip off n => h.readi he ip off n
  | .look b => silent (h.of_bio (h.bio.xv6bread he (by simp)).2)
  | .update b f => h.update he b f
  | .overwrite b d => h.overwrite b d
  | .commit => h.commit he
  | .recover => h.recoverFromLog he
  | .writesb f => h.rewrite he 1 f

end

/-- So does a run. -/
theorem perform : ∀ (as : List Act) {s : Store}, s.Clean → Effect.Clean (perform env as s)
  | [], _, h => h.silent
  | a :: as, _, h => (h.exec he a).andThen fun _ h' => perform as h'

end

end Store.Clean

/-- After `xv6bio_init` and the start of `xv6log_init`: nothing cached, nothing logged. -/
def Store.boot (disk : Nat → Block) (start : Nat) (gStage : Bool) : Store :=
  ⟨⟨disk, fun _ => none, fun _ => 0, 0⟩, start, [], gStage, none, false⟩

/-- CORRECT when the reads that count succeed: then, in any run after boot, no byte handed to a reader,
    put in the log, installed or written back comes from a buffer whose read failed. Reads of runs and
    reads into buffers that are overwritten whole may fail at will. -/
theorem failed_read_never_data (env : Env) (he : env.Reads) (disk : Nat → Block) (start : Nat) (gStage : Bool)
    (as : List Act) : ∀ B ∈ (perform env as (Store.boot disk start gStage)).1, B.good = true := by
  have hboot : (Store.boot disk start gStage).Clean := ⟨fun _ _ _ h => (by cases h), fun _ h => (by cases h)⟩
  exact (Store.Clean.perform he as hboot).taken

/-- A device that fails on run reads and on every read into a buffer to be overwritten. -/
def Env.runless : Env := ⟨fun _ _ => false, fun whole _ => whole, fun _ => true, fun _ _ => 7⟩

/-- A block cleared, another changed, and both committed over such a device. -/
theorem failed_read_never_data_runless : ((perform .runless
    [.recover, .overwrite 200 (fun _ => 0), .update 201 (fun d => update d 0 1), .commit]
    (Store.boot (fun _ _ => 0) 2 true)).1.all Buf.good) = true :=
  all_eq_true.mpr (failed_read_never_data _ (fun _ => rfl) _ _ _ _)

/-- A device whose first single-block read fails and leaves the words at 7. -/
def Env.firstFails : Env := ⟨fun _ _ => false, fun _ k => k == 0, fun _ => false, fun _ _ => 7⟩

/-- A one-byte file in block 131. -/
def oneByte : Inode := ⟨1, 2, 0, 0, 1, 1, 0, fun _ => 131⟩

/-- INCORRECT for arbitrary read failures. The disk is all zeros and the first read fails: a read of
    one byte succeeds and returns a 7 from the failed read; and one word changed in block 200 takes the
    other 255 into the log and home with it, all passed on from a buffer whose read failed. -/
theorem failed_read_becomes_data :
    (xv6fsReadi .firstFails (Store.boot (fun _ _ => 0) 2 true).bio oneByte (fun _ => 0) 0 1).1 = 1 ∧
    (xv6fsReadi .firstFails (Store.boot (fun _ _ => 0) 2 true).bio oneByte (fun _ => 0) 0 1).2.dst 0 = 7 ∧
    ((perform .firstFails [.readi oneByte 0 1] (Store.boot (fun _ _ => 0) 2 true)).1.map Buf.good = [false]) ∧
    (false ∈ (perform .firstFails [.update 200 (fun d => update d 0 1), .commit]
      (Store.boot (fun _ _ => 0) 2 true)).1.map Buf.good) ∧
    (perform .firstFails [.update 200 (fun d => update d 0 1), .commit]
      (Store.boot (fun _ _ => 0) 2 true)).2.bio.disk 3 5 = 7 ∧
    (perform .firstFails [.update 200 (fun d => update d 0 1), .commit]
      (Store.boot (fun _ _ => 0) 2 true)).2.bio.disk 200 5 = 7 := by
  refine ⟨?_, ?_, ?_, ?_, ?_, ?_⟩ <;> decide +kernel

end Orthox.Cache
