import Orthox.Pipes.Moves

/-! The open file objects of a pipe. The pipe's counters say how many there are of each end and how many
    references keep its pages, as long as the openers are careful: no opener asks for neither end, sixteen bits
    are enough for each counter, and the last object of a FIFO is not given up while somebody is opening it. -/

namespace Orthox.Pipes
open Schemes List Function Option

variable {T F : Type}

/-! ### What the operations use -/

/-- The object a read or write in progress works on. -/
def Op.uses : Op F → Option F
  | .writing f .. | .writeSlept f .. | .reading f _ | .readSlept f _ => some f
  | _ => none

/-- The task has found the pipe in the table of FIFOs and is not counted in the pipe yet. -/
def Op.opens : Op F → Bool
  | .opening .. | .admitted _ => true
  | _ => false

/-- Nothing but a use of the pipe: neither an open nor a release. -/
def Op.plain : Op F → Bool
  | .opening .. | .admitted _ | .releasing .. | .released true => false
  | _ => true

/-- Nobody is opening the pipe or can find it in the table. -/
structure Sys.Unlisted (s : Sys T F) : Prop where
  entry : s.fifo.any FifoEntry.inUse = false
  openers : ∀ {t o}, s.ops t = some o → o.opens = false

/-- No object is open and nobody can open one. -/
structure Sys.Sealed (s : Sys T F) : Prop extends s.Unlisted where
  files : s.files = []

/-- The open that counts itself in the pipe asks for an end and does not overflow a counter; the release that gives the
    last reference back finds the entry gone and nobody opening. -/
def Careful (s : Sys T F) : Ev T F → Prop
  | .join t _ => ∀ e, s.ops t = some (.admitted e) → e.weight ≠ 0 ∧
      s.pipe.readers.toNat + e.reads.toNat < 2 ^ 16 ∧ s.pipe.writers.toNat + e.writes.toNat < 2 ^ 16
  | .go t => ∀ f e, s.ops t = some (.releasing f e false) → s.pipe.refCount = 1 → s.Unlisted
  | _ => True

/-! ### The invariant -/

/-- The counters are those of the open objects, and each operation in progress has what it works on. -/
structure Inv (s : Sys T F) : Prop where
  ids : (s.files.map File.id).Nodup
  fd : ∀ {t f}, (t, f) ∈ s.fds → f ∈ s.files.map File.id
  whole : ∀ {x}, x ∈ s.files → x.id ∈ s.fds.map Prod.snd → x.held = x.ends.weight
  holds : ∀ {x}, x ∈ s.files → x.held ≠ 0
  uses : ∀ {t o f}, s.ops t = some o → o.uses = some f → (t, f) ∈ s.fds
  releasing : ∀ {t f e x}, s.ops t = some (.releasing f e x) →
    f ∉ s.fds.map Prod.snd ∧ (⟨f, e, if x then 2 else 1⟩ : File F) ∈ s.files
  alone : ∀ {t u f e e' x x'}, s.ops t = some (.releasing f e x) → s.ops u = some (.releasing f e' x') → t = u
  anon : s.fifo = none → (∀ x ∈ s.files, x.ends.weight = 1) ∧ ∀ {t o}, s.ops t = some o → o.opens = false
  gone : s.freed = true → s.Sealed
  going : ∀ {t}, s.ops t = some (.released true) → s.Sealed
  refs : s.freed = false → s.pipe.refCount = (s.files.map File.held).sum
  readers : s.freed = false → s.pipe.readers.toNat = s.files.countP fun x => x.ends.reads
  writers : s.freed = false → s.pipe.writers.toNat = s.files.countP fun x => x.ends.writes

variable {s s' : Sys T F} {t : T} {f : F} {o : Op F} {x : File F} {u : T}

theorem Sys.Sealed.frame (h : s.Sealed) (hfifo : s'.fifo = s.fifo) (hops : s'.ops = s.ops) (hfiles : s'.files = s.files) : s'.Sealed :=
  ⟨⟨hfifo ▸ h.entry, hops ▸ h.openers⟩, hfiles ▸ h.files⟩

section
variable (h : Inv s)
include h

/-- While an object is open the pages are the pipe's. -/
theorem Inv.live_of_file (hf : f ∈ s.files.map File.id) : s.freed = false := by
  rcases hfreed : s.freed with - | -
  · rfl
  · rw [(h.gone hfreed).files] at hf
    cases hf

theorem Inv.live (op : s.ops t = some o) (hf : o.uses = some f) : s.freed = false :=
  h.live_of_file (h.fd (h.uses op hf))

/-- An object in the list and all the others. -/
theorem Inv.split (hx : x ∈ s.files) : ∃ l₁ l₂, s.files = l₁ ++ x :: l₂ ∧ ∀ y, y ∈ l₁ ++ l₂ ↔ y ∈ s.files ∧ y.id ≠ x.id := by
  obtain ⟨l₁, l₂, heq⟩ := append_of_mem hx
  have hnd : (x.id :: (l₁ ++ l₂).map File.id).Nodup := by
    have := h.ids
    rw [heq, map_append] at this
    rw [map_append]
    exact nodup_middle.mp this
  refine ⟨l₁, l₂, heq, fun y => ?_⟩
  rw [heq, mem_append, mem_append, mem_cons, or_left_comm, ← mem_append]
  refine ⟨fun hy => ⟨.inr hy, fun hid => (nodup_cons.mp hnd).1 (hid ▸ mem_map_of_mem hy)⟩, fun ⟨hy, hne⟩ => ?_⟩
  exact hy.resolve_left fun e => hne (e ▸ rfl)

/-- Somebody who is opening keeps the pipe from being given up. -/
theorem Inv.not_sealed (op : s.ops t = some o) (ho : o.opens) :
    s.freed = false ∧ (∀ u, s.ops u ≠ some (.released true)) ∧ s.fifo ≠ none := by
  have hsealed : ¬ s.Sealed := fun hs => absurd (hs.openers op) (ho ▸ Bool.noConfusion)
  refine ⟨?_, fun u hu => hsealed (h.going hu), fun hnone => absurd ((h.anon hnone).2 op) (ho ▸ Bool.noConfusion)⟩
  rcases hfreed : s.freed with - | -
  · rfl
  · exact absurd (h.gone hfreed) hsealed

/-- Somebody who holds an object keeps the pipe from being given up. -/
theorem Inv.not_sealed_of_file (hx : x ∈ s.files) : s.freed = false ∧ ∀ u, s.ops u ≠ some (.released true) := by
  refine ⟨h.live_of_file (mem_map_of_mem hx), fun u hu => ?_⟩
  rw [(h.going hu).files] at hx
  cases hx

end

/-- A new pipe has one object for each end, a new FIFO none. -/
theorem Fresh.inv (h : Fresh s) : Inv s := by
  cases h with
  | @pipe buffer t r w hne =>
    have hfile : ∀ {x}, x ∈ (Sys.pipe₀ buffer t r w).files → x = ⟨r, ⟨true, false⟩, 1⟩ ∨ x = ⟨w, ⟨false, true⟩, 1⟩ := by
      intro x hx
      simpa [Sys.pipe₀] using hx
    refine ⟨?_, ?_, ?_, ?_, nofun, nofun, nofun, fun _ => ⟨?_, nofun⟩, nofun, nofun, fun _ => rfl, fun _ => rfl, fun _ => rfl⟩
    · simpa [Sys.pipe₀] using hne
    · intro u f hfd
      have hrw : u = t ∧ (f = r ∨ f = w) := by simpa [Sys.pipe₀, ← and_or_left] using hfd
      simpa [Sys.pipe₀] using hrw.2
    · intro x hx _
      rcases hfile hx with rfl | rfl <;> rfl
    · intro x hx
      rcases hfile hx with rfl | rfl <;> exact one_ne_zero
    · intro x hx
      rcases hfile hx with rfl | rfl <;> rfl
  | fifo buffer =>
    exact ⟨nodup_nil, nofun, nofun, nofun, nofun, nofun, nofun, nofun, nofun, nofun, fun _ => rfl, fun _ => rfl, fun _ => rfl⟩

/-! ### Events that open and release nothing -/

/-- A use of the pipe by a task that has the object's descriptor. -/
def Op.Fits (fds : List (T × F)) (t : T) (o : Op F) : Prop := o.plain = true ∧ ∀ f, o.uses = some f → (t, f) ∈ fds

variable {fds : List (T × F)} {e : Ends} {o' : Op F}

theorem Op.Fits.opens {o : Op F} (h : o.Fits fds t) : o.opens = false := by
  cases o <;> first | rfl | exact absurd h.1 nofun

/-- A call that goes on with the same object. -/
theorem Inv.fits_same (h : Inv s) (op : s.ops t = some o) (hplain : o'.plain) (hsame : o'.uses = o.uses) :
    ∀ o₁, some o' = some o₁ → o₁.Fits s.fds t := by
  rintro _ ⟨⟩
  exact ⟨hplain, fun f hf => h.uses op (hsame ▸ hf)⟩

/-- An answer uses no object. -/
theorem fits_answered (fds : List (T × F)) (t : T) (v : Int) : ∀ o, some (Op.answered v) = some o → o.Fits fds t := by
  rintro _ ⟨⟩
  exact ⟨rfl, nofun⟩

/-- The invariant does not look at the ring, the queues or who sleeps. -/
theorem Inv.frame (h : Inv s) (hfiles : s'.files = s.files) (hfds : s'.fds = s.fds) (hfifo : s'.fifo = s.fifo)
    (hfreed : s'.freed = s.freed) (href : s'.pipe.refCount = s.pipe.refCount) (hr : s'.pipe.readers = s.pipe.readers)
    (hw : s'.pipe.writers = s.pipe.writers) (hops : ∀ {u o}, s'.ops u = some o → s.ops u = some o ∨ o.Fits s.fds u) : Inv s' := by
  have hreleasing : ∀ {u f e x}, s'.ops u = some (.releasing f e x) → s.ops u = some (.releasing f e x) := by
    intro u f e x hu
    exact (hops hu).resolve_right fun hfit => absurd hfit.1 nofun
  have hgoing : ∀ {u}, s'.ops u = some (.released true) → s.ops u = some (.released true) := by
    intro u hu
    exact (hops hu).resolve_right fun hfit => absurd hfit.1 nofun
  have hopens : (∀ {u o}, s.ops u = some o → o.opens = false) → ∀ {u o}, s'.ops u = some o → o.opens = false := by
    intro hno u o hu
    rcases hops hu with hu | hfit
    · exact hno hu
    · exact hfit.opens
  have hsealed : s.Sealed → s'.Sealed := by
    intro hs
    exact ⟨⟨hfifo ▸ hs.entry, hopens hs.openers⟩, hfiles ▸ hs.files⟩
  refine ⟨hfiles ▸ h.ids, hfiles ▸ hfds ▸ h.fd, hfiles ▸ hfds ▸ h.whole, hfiles ▸ h.holds, ?_, ?_, ?_, ?_, ?_, ?_, ?_, ?_, ?_⟩
  · intro u o f hu hf
    rw [hfds]
    rcases hops hu with hu | hfit
    · exact h.uses hu hf
    · exact hfit.2 f hf
  · intro u f e x hu
    rw [hfiles, hfds]
    exact h.releasing (hreleasing hu)
  · intro u v f e e' x x' hu hv
    exact h.alone (hreleasing hu) (hreleasing hv)
  · intro hnone
    obtain ⟨hall, hno⟩ := h.anon (hfifo ▸ hnone)
    exact ⟨hfiles ▸ hall, hopens hno⟩
  · exact fun hf => hsealed (h.gone (hfreed ▸ hf))
  · exact fun hu => hsealed (h.going (hgoing hu))
  · exact fun hf => href ▸ hfiles ▸ h.refs (hfreed ▸ hf)
  · exact fun hf => hr ▸ hfiles ▸ h.readers (hfreed ▸ hf)
  · exact fun hf => hw ▸ hfiles ▸ h.writers (hfreed ▸ hf)

variable [DecidableEq T]

theorem plain_update {ops : T → Option (Op F)} {o' : Option (Op F)}
    (ho : ∀ o, o' = some o → o.Fits fds t) (h : update ops t o' u = some o) : ops u = some o ∨ o.Fits fds u := by
  rcases update_cases h with ⟨rfl, ho'⟩ | ⟨-, hu⟩
  · exact .inr (ho o ho')
  · exact .inl hu

/-! ### Opening -/

/-- A task that starts, stops or goes on opening changes no object. -/
theorem Inv.opener (h : Inv s) {y : Option FifoEntry} (hlive : s.freed = false)
    (hgoing : ∀ u, s.ops u ≠ some (.released true)) (hy : y ≠ none) (hplain : o'.opens ∨ ∃ v, o' = .answered v) :
    Inv { s.setOp t (some o') with fifo := y } := by
  have hold : ∀ {u o}, update s.ops t (some o') u = some o → s.ops u = some o ∨ o = o' :=
    fun hu => ((update_some hu).imp And.right And.right).symm
  have hnot : ∀ {o : Op F}, o = o' → o.uses = none ∧ (∀ f e x, o ≠ .releasing f e x) ∧ o ≠ .released true := by
    rintro o rfl
    rcases hplain with hopen | ⟨v, rfl⟩
    · cases o <;> simp_all [Op.opens, Op.uses]
    · exact ⟨rfl, nofun, nofun⟩
  have hreleasing : ∀ {u f e x}, update s.ops t (some o') u = some (.releasing f e x) → s.ops u = some (.releasing f e x) :=
    fun hu => (hold hu).resolve_right fun heq => (hnot heq).2.1 _ _ _ rfl
  refine ⟨h.ids, h.fd, h.whole, h.holds, ?_, fun hu => h.releasing (hreleasing hu),
    fun hu hv => h.alone (hreleasing hu) (hreleasing hv), fun hnone => absurd hnone hy, ?_, ?_, h.refs, h.readers, h.writers⟩
  · intro u o f hu hf
    rcases hold hu with hu | heq
    · exact h.uses hu hf
    · rw [(hnot heq).1] at hf
      cases hf
  · exact fun hfreed => absurd (hlive.symm.trans hfreed) nofun
  · intro u hu
    rcases hold hu with hu | heq
    · exact absurd hu (hgoing u)
    · exact absurd rfl (hnot heq).2.2

theorem toNat_add_ite (c : UInt16) (b : Bool) (h : c.toNat + b.toNat < 2 ^ 16) :
    (c + if b then 1 else 0).toNat = c.toNat + b.toNat := by
  rw [← Nat.mod_eq_of_lt h]
  cases b <;> rfl

/-- The opener that is counted in the pipe brings a new object. -/
theorem Inv.join (h : Inv s) (op : s.ops t = some (.admitted e)) (new : f ∉ s.files.map File.id) (hcare : Careful s (.join t f)) :
    Inv { s.setOp t none with pipe := s.pipe.join e, files := ⟨f, e, e.weight⟩ :: s.files, fds := (t, f) :: s.fds } := by
  obtain ⟨hlive, hgoing, hfifo⟩ := h.not_sealed op rfl
  obtain ⟨hweight, hr, hw⟩ := hcare e op
  have hold : ∀ {u o}, update s.ops t none u = some o → s.ops u = some o := fun hu => (update_none hu).2
  refine ⟨nodup_cons.mpr ⟨new, h.ids⟩, ?_, ?_, ?_, ?_, ?_, ?_, ?_, ?_, ?_, ?_, ?_, ?_⟩
  · intro u g hfd
    rcases mem_cons.mp hfd with heq | hfd
    · exact (Prod.mk.inj heq).2 ▸ mem_cons_self
    · exact mem_cons_of_mem _ (h.fd hfd)
  · intro x hx hid
    rcases mem_cons.mp hx with rfl | hx
    · rfl
    refine h.whole hx ((mem_cons.mp hid).resolve_left ?_)
    rintro (heq : x.id = f)
    exact new (heq ▸ mem_map_of_mem hx)
  · intro x hx
    rcases mem_cons.mp hx with rfl | hx
    · exact hweight
    · exact h.holds hx
  · exact fun hu hf => mem_cons_of_mem _ (h.uses (hold hu) hf)
  · intro u g e' x hu
    obtain ⟨hno, hmem⟩ := h.releasing (hold hu)
    refine ⟨fun hin => ?_, mem_cons_of_mem _ hmem⟩
    rcases mem_cons.mp hin with rfl | hin
    · exact new (mem_map_of_mem hmem)
    · exact hno hin
  · exact fun hu hv => h.alone (hold hu) (hold hv)
  · exact fun hnone => absurd hnone hfifo
  · exact fun hfreed => absurd (hlive.symm.trans hfreed) nofun
  · exact fun hu => absurd (hold hu) (hgoing _)
  · intro _
    change s.pipe.refCount + e.weight = ((⟨f, e, e.weight⟩ :: s.files).map File.held).sum
    rw [h.refs hlive, map_cons]
    exact add_comm _ _
  · intro _
    change (s.pipe.readers + if e.reads then 1 else 0).toNat = _
    rw [toNat_add_ite _ _ hr, h.readers hlive, countP_cons]
    cases e.reads <;> rfl
  · intro _
    change (s.pipe.writers + if e.writes then 1 else 0).toNat = _
    rw [toNat_add_ite _ _ hw, h.writers hlive, countP_cons]
    cases e.writes <;> rfl

/-! ### Descriptors -/

omit [DecidableEq T] in
/-- `dup` and `fork` give one more descriptor of an object that has one. -/
theorem Inv.share (h : Inv s) (fd : (t, f) ∈ s.fds) : Inv { s with fds := (u, f) :: s.fds } := by
  have hf : f ∈ s.fds.map Prod.snd := mem_map.mpr ⟨_, fd, rfl⟩
  have hsame : ∀ {g}, g ∈ ((u, f) :: s.fds).map Prod.snd → g ∈ s.fds.map Prod.snd := by
    intro g hg
    rcases mem_cons.mp hg with rfl | hg
    · exact hf
    · exact hg
  refine ⟨h.ids, ?_, fun hx hid => h.whole hx (hsame hid), h.holds, fun hu hg => mem_cons_of_mem _ (h.uses hu hg), ?_, h.alone,
    h.anon, fun hfreed => (h.gone hfreed).frame rfl rfl rfl, fun hu => (h.going hu).frame rfl rfl rfl, h.refs, h.readers, h.writers⟩
  · intro v g hg
    rcases mem_cons.mp hg with heq | hg
    · cases heq
      exact h.fd fd
    · exact h.fd hg
  · intro v g e x hv
    obtain ⟨hno, hmem⟩ := h.releasing hv
    exact ⟨fun hg => hno (hsame hg), hmem⟩

variable [DecidableEq F]

theorem erase_snd {g : F} (hg : g ∈ (fds.erase (t, f)).map Prod.snd) : g ∈ fds.map Prod.snd := by
  obtain ⟨p, hp, rfl⟩ := mem_map.mp hg
  exact mem_map_of_mem (mem_of_mem_erase hp)

/-- A descriptor of a task that is in no call. -/
theorem Inv.closeFd (h : Inv s) (idle : s.ops t = none) : Inv { s with fds := s.fds.erase (t, f) } := by
  refine ⟨h.ids, fun hg => h.fd (mem_of_mem_erase hg), fun hx hid => h.whole hx (erase_snd hid), h.holds, ?_, ?_, h.alone,
    h.anon, fun hfreed => (h.gone hfreed).frame rfl rfl rfl, fun hu => (h.going hu).frame rfl rfl rfl, h.refs, h.readers, h.writers⟩
  · intro u o g hu hg
    refine (mem_erase_of_ne fun heq => ?_).mpr (h.uses hu hg)
    rw [(Prod.mk.inj heq).1, idle] at hu
    cases hu
  · intro u g e x hu
    obtain ⟨hno, hmem⟩ := h.releasing hu
    exact ⟨fun hg => hno (erase_snd hg), hmem⟩

/-! ### Releasing -/

theorem giveBack_split {l₁ l₂ : List (File F)} (hother : ∀ y ∈ l₁ ++ l₂, y.id ≠ x.id) :
    Sys.giveBack (l₁ ++ x :: l₂) x.id = l₁ ++ { x with held := x.held - 1 } :: l₂ := by
  have hid : ∀ l : List (File F), (∀ y ∈ l, y.id ≠ x.id) → Sys.giveBack l x.id = l := by
    intro l hl
    exact (map_congr_left fun y hy => if_neg (hl y hy)).trans (map_id' l)
  have h₁ := hid l₁ fun y hy => hother y (mem_append_left _ hy)
  have h₂ := hid l₂ fun y hy => hother y (mem_append_right _ hy)
  rw [Sys.giveBack] at h₁ h₂ ⊢
  rw [map_append, h₁, map_cons, if_pos rfl, h₂]

/-- An object whose last descriptor is closed starts to be released. -/
theorem Inv.closeLast (h : Inv s) (idle : s.ops t = none) (fd : (t, x.id) ∈ s.fds)
    (last : x.id ∉ (s.fds.erase (t, x.id)).map Prod.snd) (file : x ∈ s.files) :
    Inv ({ s with fds := s.fds.erase (t, x.id) }.closeFile t x) := by
  obtain ⟨hlive, hgoing⟩ := h.not_sealed_of_file file
  have hin : x.id ∈ s.fds.map Prod.snd := mem_map.mpr ⟨_, fd, rfl⟩
  have hheld := h.whole file hin
  have h' : Inv { s with fds := s.fds.erase (t, x.id) } := h.closeFd idle
  have hextra : (⟨x.id, x.ends, if (s.fifo.isSome && x.ends.reads && x.ends.writes) then 2 else 1⟩ : File F) = x := by
    have hpos := h.holds file
    rcases x with ⟨g, ⟨r, w⟩, k⟩
    cases hfifo : s.fifo with
    | none =>
      have := (h.anon hfifo).1 _ file
      exact congrArg _ (this.symm.trans hheld.symm)
    | some y =>
      refine congrArg _ (trans ?_ hheld.symm)
      cases r <;> cases w <;> first | rfl | exact absurd hheld hpos
  have hops : ∀ {u o}, ({ s with fds := s.fds.erase (t, x.id) }.closeFile t x).ops u = some o →
      u = t ∧ o = .releasing x.id x.ends (s.fifo.isSome && x.ends.reads && x.ends.writes) ∨ u ≠ t ∧ s.ops u = some o := update_some
  have hother : ∀ {u e b}, s.ops u ≠ some (.releasing x.id e b) := fun hu => (h.releasing hu).1 hin
  refine ⟨h.ids, h'.fd, h'.whole, h.holds, ?_, ?_, ?_, ?_, ?_, ?_, h.refs, h.readers, h.writers⟩
  · intro u o g hu hg
    rcases hops hu with ⟨-, rfl⟩ | ⟨-, hu⟩
    · cases hg
    · exact h'.uses hu hg
  · intro u g e b hu
    rcases hops hu with ⟨rfl, ho⟩ | ⟨-, hu⟩
    · cases ho
      exact ⟨last, hextra.symm ▸ file⟩
    · exact h'.releasing hu
  · intro u v g e e' b b' hu hv
    rcases hops hu with ⟨rfl, ho⟩ | ⟨-, hu₁⟩ <;> rcases hops hv with ⟨rfl, ho'⟩ | ⟨-, hv₁⟩
    · rfl
    · cases ho
      exact absurd hv₁ hother
    · cases ho'
      exact absurd hu₁ hother
    · exact h.alone hu₁ hv₁
  · intro hnone
    obtain ⟨hall, hno⟩ := h.anon (map_eq_none_iff.mp hnone)
    refine ⟨hall, fun {u o} hu => ?_⟩
    rcases hops hu with ⟨-, rfl⟩ | ⟨-, hu⟩
    · rfl
    · exact hno hu
  · exact fun hfreed => absurd (hlive.symm.trans hfreed) nofun
  · intro u hu
    rcases hops hu with ⟨-, ho⟩ | ⟨-, hu⟩
    · cases ho
    · exact absurd hu (hgoing u)

/-- The second reference of an object with both ends is given back first. -/
theorem Inv.giveBack (h : Inv s) (op : s.ops t = some (.releasing f e true)) : Inv { s.setOp t (some (.releasing f e false)) with
      pipe := { s.pipe with refCount := s.pipe.refCount - 1 }
      files := Sys.giveBack s.files f } := by
  obtain ⟨hno, hmem⟩ := h.releasing op
  obtain ⟨hlive, hgoing⟩ := h.not_sealed_of_file hmem
  obtain ⟨l₁, l₂, heq, hother⟩ := h.split hmem
  have hback : Sys.giveBack s.files f = l₁ ++ ⟨f, e, 1⟩ :: l₂ := heq ▸ giveBack_split fun y hy => ((hother y).mp hy).2
  have hids : (Sys.giveBack s.files f).map File.id = s.files.map File.id := by
    rw [hback, heq, map_append, map_append]
    rfl
  have hcases : ∀ {y}, y ∈ Sys.giveBack s.files f ↔ y = ⟨f, e, 1⟩ ∨ y ∈ s.files ∧ y.id ≠ f := by
    intro y
    rw [hback, mem_append, mem_cons, or_left_comm, ← mem_append, hother]
  have hops : ∀ {u o}, update s.ops t (some (.releasing f e false)) u = some o →
      u = t ∧ o = .releasing f e false ∨ u ≠ t ∧ s.ops u = some o := update_some
  refine ⟨hids ▸ h.ids, fun hg => hids ▸ h.fd hg, ?_, ?_, ?_, ?_, ?_, ?_, ?_, ?_, ?_, ?_, ?_⟩
  · intro y hy hid
    rcases hcases.mp hy with rfl | ⟨hy, -⟩
    · exact absurd hid hno
    · exact h.whole hy hid
  · intro y hy
    rcases hcases.mp hy with rfl | ⟨hy, -⟩
    · exact one_ne_zero
    · exact h.holds hy
  · intro u o g hu hg
    rcases hops hu with ⟨-, rfl⟩ | ⟨-, hu⟩
    · cases hg
    · exact h.uses hu hg
  · intro u g e' b hu
    rcases hops hu with ⟨rfl, ho⟩ | ⟨hne, hu'⟩
    · cases ho
      exact ⟨hno, hback ▸ mem_append_right _ mem_cons_self⟩
    obtain ⟨hno', hmem'⟩ := h.releasing hu'
    refine ⟨hno', hcases.mpr (.inr ⟨hmem', ?_⟩)⟩
    rintro rfl
    exact hne (h.alone hu' op)
  · intro u v g e₁ e₂ b₁ b₂ hu hv
    rcases hops hu with ⟨rfl, ho⟩ | ⟨-, hu₁⟩ <;> rcases hops hv with ⟨rfl, ho'⟩ | ⟨-, hv₁⟩
    · rfl
    · cases ho
      exact h.alone op hv₁
    · cases ho'
      exact h.alone hu₁ op
    · exact h.alone hu₁ hv₁
  · intro hnone
    obtain ⟨hall, hopen⟩ := h.anon hnone
    refine ⟨fun y hy => ?_, fun {u o} hu => ?_⟩
    · rcases hcases.mp hy with rfl | ⟨hy, -⟩
      · exact (hall _ hmem :)
      · exact hall y hy
    · rcases hops hu with ⟨-, rfl⟩ | ⟨-, hu⟩
      · rfl
      · exact hopen hu
  · exact fun hfreed => absurd (hlive.symm.trans hfreed) nofun
  · intro u hu
    rcases hops hu with ⟨-, ho⟩ | ⟨-, hu⟩
    · cases ho
    · exact absurd hu (hgoing u)
  · intro _
    rw [h.refs hlive, hback, heq]
    simp only [map_append, map_cons, sum_append, sum_cons, if_true]
    omega
  · intro _
    rw [h.readers hlive, hback, heq, countP_append, countP_append, countP_cons, countP_cons]
  · intro _
    rw [h.writers hlive, hback, heq, countP_append, countP_append, countP_cons, countP_cons]

/-- A counter above what is taken off it. -/
theorem toNat_sub_ite {c : UInt16} {b : Bool} {k : Nat} (h : c.toNat = k + b.toNat) :
    (if b ∧ c > 0 then c - 1 else c).toNat = k := by
  cases b with
  | false => simpa using h
  | true =>
    have hpos : 1 ≤ c := UInt16.le_iff_toNat_le.mpr (h ▸ Nat.le_add_left 1 k)
    have hgt : c > 0 := UInt16.lt_iff_toNat_lt.mpr (h ▸ Nat.succ_pos k)
    rw [if_pos ⟨rfl, hgt⟩, UInt16.toNat_sub_of_le _ _ hpos, h]
    rfl

/-- The object is gone; with the last reference, so is everything that could lead to the pipe. -/
theorem Inv.release (h : Inv s) (op : s.ops t = some (.releasing f e false)) (hcare : Careful s (.go t)) :
    Inv (s.releaseTurn t f e) := by
  obtain ⟨hno, hmem⟩ := h.releasing op
  obtain ⟨hlive, hgoing⟩ := h.not_sealed_of_file hmem
  obtain ⟨l₁, l₂, heq, hother⟩ := h.split hmem
  have hrest : (s.releaseTurn t f e).files = l₁ ++ l₂ := by
    change (s.files.eraseP fun y => y.id = f) = l₁ ++ l₂
    rw [heq]
    rw [eraseP_append_right _ fun y hy => by simpa using (fun y hy => ((hother y).mp hy).2) y (mem_append_left _ hy)]
    rw [eraseP_cons_of_pos (by simp)]
  have hsub : ∀ {y}, y ∈ l₁ ++ l₂ → y ∈ s.files := fun hy => ((hother _).mp hy).1
  have hops : ∀ {u o}, (s.releaseTurn t f e).ops u = some o →
      u = t ∧ o = .released (decide (s.pipe.refCount - 1 = 0)) ∨ u ≠ t ∧ s.ops u = some o := update_some
  have hsum : s.pipe.refCount = ((l₁ ++ l₂).map File.held).sum + 1 := by
    rw [h.refs hlive, heq]
    simp only [map_append, map_cons, sum_append, sum_cons, Bool.false_eq_true, if_false]
    omega
  have hcount : ∀ q : File F → Bool, s.files.countP q = (l₁ ++ l₂).countP q + (q ⟨f, e, 1⟩).toNat := by
    intro q
    rw [heq, countP_append, countP_cons]
    change _ + (_ + if q ⟨f, e, 1⟩ then 1 else 0) = _
    cases q ⟨f, e, 1⟩
    · simp
    · simp [add_assoc]
  refine ⟨?_, ?_, ?_, ?_, ?_, ?_, ?_, ?_, ?_, ?_, ?_, ?_, ?_⟩
  · rw [hrest]
    refine h.ids.sublist (List.Sublist.map _ ?_)
    rw [heq]
    exact List.Sublist.append_left (sublist_cons_self _ _) l₁
  · intro u g hg
    rw [hrest]
    obtain ⟨y, hy, rfl⟩ := mem_map.mp (h.fd hg)
    refine mem_map_of_mem ((hother _).mpr ⟨hy, ?_⟩)
    rintro rfl
    exact hno (mem_map.mpr ⟨_, hg, rfl⟩)
  · exact fun hy hid => h.whole (hsub (hrest ▸ hy)) hid
  · exact fun hy => h.holds (hsub (hrest ▸ hy))
  · intro u o g hu hg
    rcases hops hu with ⟨-, rfl⟩ | ⟨-, hu⟩
    · cases hg
    · exact h.uses hu hg
  · intro u g e' b hu
    rcases hops hu with ⟨-, ho⟩ | ⟨hne, hu'⟩
    · cases ho
    obtain ⟨hno', hmem'⟩ := h.releasing hu'
    refine ⟨hno', hrest ▸ (hother _).mpr ⟨hmem', ?_⟩⟩
    rintro rfl
    exact hne (h.alone hu' op)
  · intro u v g e₁ e₂ b₁ b₂ hu hv
    rcases hops hu with ⟨-, ho⟩ | ⟨-, hu⟩
    · cases ho
    rcases hops hv with ⟨-, ho⟩ | ⟨-, hv⟩
    · cases ho
    · exact h.alone hu hv
  · intro hnone
    obtain ⟨hall, hopen⟩ := h.anon hnone
    refine ⟨fun y hy => hall y (hsub (hrest ▸ hy)), fun {u o} hu => ?_⟩
    rcases hops hu with ⟨-, rfl⟩ | ⟨-, hu⟩
    · rfl
    · exact hopen hu
  · exact fun hfreed => absurd (hlive.symm.trans hfreed) nofun
  · intro u hu
    rcases hops hu with ⟨-, ho⟩ | ⟨-, hu⟩
    · have hzero : s.pipe.refCount - 1 = 0 := of_decide_eq_true (Op.released.inj ho).symm
      have hunlisted := hcare f e op (by omega)
      have hnil : l₁ ++ l₂ = [] := by
        refine eq_nil_iff_forall_not_mem.mpr fun y hy => h.holds (hsub hy) ?_
        have := single_le_sum (fun _ _ => Nat.zero_le _) _ (mem_map_of_mem (f := File.held) hy)
        omega
      refine ⟨⟨hunlisted.entry, fun {v o} hv => ?_⟩, hrest.trans hnil⟩
      rcases hops hv with ⟨-, rfl⟩ | ⟨-, hv⟩
      · rfl
      · exact hunlisted.openers hv
    · exact absurd hu (hgoing u)
  · intro _
    rw [hrest]
    change s.pipe.refCount - 1 = _
    omega
  · intro _
    rw [hrest]
    exact toNat_sub_ite ((h.readers hlive).trans (hcount _))
  · intro _
    rw [hrest]
    exact toNat_sub_ite ((h.writers hlive).trans (hcount _))

omit [DecidableEq F] in
/-- The pages are given back when nothing leads to them any more. -/
theorem Inv.released (h : Inv s) {free : Bool} (op : s.ops t = some (.released free)) :
    Inv { s.setOp t none with freed := s.freed || free } := by
  have hold : ∀ {u o}, update s.ops t none u = some o → s.ops u = some o := fun hu => (update_none hu).2
  have hsealed : s.Sealed → Sys.Sealed { s.setOp t none with freed := s.freed || free } :=
    fun hs => ⟨⟨hs.entry, fun hu => hs.openers (hold hu)⟩, hs.files⟩
  have hlive : (s.freed || free) = false → s.freed = false := fun hor => (Bool.or_eq_false_iff.mp hor).1
  refine ⟨h.ids, h.fd, h.whole, h.holds, fun hu hg => h.uses (hold hu) hg, fun hu => h.releasing (hold hu),
    fun hu hv => h.alone (hold hu) (hold hv), fun hnone => ⟨(h.anon hnone).1, fun hu => (h.anon hnone).2 (hold hu)⟩, fun hfreed => ?_,
    fun hu => hsealed (h.going (hold hu)), fun hor => h.refs (hlive hor), fun hor => h.readers (hlive hor),
    fun hor => h.writers (hlive hor)⟩
  rcases Bool.or_eq_true_iff.mp hfreed with hfreed | rfl
  · exact hsealed (h.gone hfreed)
  · exact hsealed (h.going op)

/-! ### Every event -/

theorem Inv.step (h : Inv s) {e : Ev T F} (hcare : Careful s e) (hm : Moves s e s') : Inv s' := by
  cases hm with
  | write idle fd | read idle fd =>
    refine h.frame rfl rfl rfl rfl rfl rfl rfl (plain_update ?_)
    rintro _ ⟨⟩
    exact ⟨rfl, by rintro _ ⟨⟩; exact fd⟩
  | writeDone op | writeRefused op | readEof op | readTaken waking op =>
    exact h.frame rfl rfl rfl rfl rfl rfl rfl (plain_update (fits_answered _ _ _))
  | writeBlocked op | writeStored waking op | writeWoken op | readBlocked op | readWoken op =>
    refine h.frame rfl rfl rfl rfl rfl rfl rfl (plain_update ?_)
    exact h.fits_same op rfl rfl
  | answer op | unpoll op =>
    refine h.frame rfl rfl rfl rfl rfl rfl rfl (plain_update ?_)
    rintro _ ⟨⟩
  | poll idle fd =>
    refine h.frame rfl rfl rfl rfl rfl rfl rfl (plain_update ?_)
    rintro _ ⟨⟩
    exact ⟨rfl, nofun⟩
  | wake | rouse => exact h.frame rfl rfl rfl rfl rfl rfl rfl .inl
  | giveBack op => exact h.giveBack op
  | release waking op => exact h.release op hcare
  | released op => exact h.released op
  | share idle fd => exact h.share fd
  | closeShared idle fd others => exact h.closeFd idle
  | closeLast idle fd last file => exact h.closeLast idle fd last file
  | openFifo idle inUse =>
    have hsealed : ¬ s.Sealed := fun hs => absurd (hs.entry.symm.trans inUse) nofun
    have hlive : s.freed = false := Bool.eq_false_iff.mpr fun hfreed => hsealed (h.gone hfreed)
    refine h.opener hlive (fun u hu => hsealed (h.going hu)) ?_ (.inl rfl)
    intro hnone
    rw [map_eq_none_iff.mp hnone] at inUse
    cases inUse
  | meet op =>
    obtain ⟨hlive, hgoing, hfifo⟩ := h.not_sealed op rfl
    exact h.opener hlive hgoing hfifo (.inl rfl)
  | noReader op | noFile op =>
    obtain ⟨hlive, hgoing, hfifo⟩ := h.not_sealed op rfl
    exact h.opener hlive hgoing (mt map_eq_none_iff.mp hfifo) (.inr ⟨_, rfl⟩)
  | join op new => exact h.join op new hcare
  | reuse freed =>
    have hdead : ∀ {P : Prop}, s.freed = false → P := fun hlive => absurd (hlive.symm.trans freed) nofun
    exact ⟨h.ids, h.fd, h.whole, h.holds, h.uses, h.releasing, h.alone, h.anon,
      fun hf => (h.gone hf).frame rfl rfl rfl, fun hu => (h.going hu).frame rfl rfl rfl, hdead, hdead, hdead⟩

theorem Reaches.inv {ok : Sys T F → Ev T F → Prop} (hok : ∀ s e, ok s e → Careful s e) (h : Reaches ok s) : Inv s := by
  induction h with
  | fresh h => exact h.inv
  | step _ hcond hs ih => exact ih.step (hok _ _ hcond) (step_moves hs)

end Orthox.Pipes
