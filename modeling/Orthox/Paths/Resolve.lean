import Orthox.Namespace.Calls
import Orthox.Open.Names
import Orthox.Schemes.Segments

/-! From the path a call is given to the string the file systems see: `resolve_task_path` and `resolve_dirfd_path` of
    `kernel/fs.c`, which copy the directory and the path into 256 bytes and stop silently when these are full, and
    their counterparts of `kernel/riscv64/fs.c`, one of which fails instead. Both layers fold `.` and `..` in the
    string. What a string names are its elements. -/

namespace Orthox.Paths
open Schemes List Option
open Namespace (slash dirsiz dot dotdot)
open Open (Path)

/-! ### Copying -/

/-- `while (src[j] && i + 1 < size) out[i++] = src[j++]`, with 256 bytes. -/
def copy (out src : Path) : Path := out ++ src.take (255 - out.length)

/-- The `/` between the directory and the path. -/
def separate (out : Path) : Path :=
  if out ≠ [] ∧ out.getLast? ≠ some slash ∧ out.length + 1 < 256 then out ++ [slash] else out

/-! ### `kernel/fs.c` -/

/-- `if (ti > 1) { ti--; while (ti > 1 && tmp[ti - 1] != '/') ti--; }` -/
def dropName (tmp : Path) : Path :=
  if tmp.length ≤ 1 then tmp else tmp.take 1 ++ (tmp.drop 1).dropLast.rdropWhile (· ≠ slash)

/-- The loop of `canonicalize_path_inplace`; each round takes a byte of the path at least. -/
def canonicalizeLoop : Nat → Path → Path → Path
  | 0, _, tmp => tmp
  | fuel + 1, path, tmp =>
    if path = [] ∨ 256 ≤ tmp.length + 1 then tmp
    else
      let path := path.dropWhile (· = slash)
      let name := path.takeWhile (· ≠ slash)
      if path = [] then tmp
      else if name = dot then canonicalizeLoop fuel (path.drop 2) tmp
      else if name = dotdot then canonicalizeLoop fuel (path.drop 3) (dropName tmp)
      else
        let tmp := if tmp.getLast? = some slash then tmp else tmp ++ [slash]
        let part := name.take (255 - tmp.length)
        canonicalizeLoop fuel (path.drop part.length) (tmp ++ part)

/-- `canonicalize_path_inplace` -/
def canonicalizePathInplace (path : Path) : Path :=
  let tmp := canonicalizeLoop path.length path (if path.head? = some slash then [] else [slash])
  if tmp = [] then [slash] else tmp

/-- `resolve_task_path` -/
def resolveTaskPath (cwd path : Path) : Path :=
  if path = [] then []
  else if path.head? = some slash ∨ cwd = [] then canonicalizePathInplace (copy [] path)
  else
    let out := if cwd.head? = some slash then copy [slash] cwd.tail else copy [] cwd
    canonicalizePathInplace (copy (separate out) path)

/-- Where a path starts: `AT_FDCWD`, or a descriptor with the name it has if it is an open directory. -/
inductive At where
  | cwd
  | fd (name : Option Path)

/-- `resolve_dirfd_path` -/
def resolveDirfdPath (cwd : Path) (dir : At) (path : Path) : Option Path :=
  if path.head? = some slash then some (resolveTaskPath cwd path)
  else match dir with
  | .cwd => some (resolveTaskPath cwd path)
  | .fd none => none
  | .fd (some name) => if name = [] then none else some (canonicalizePathInplace (copy (separate (copy [] name)) path))

/-! ### `kernel/riscv64/fs.c` -/

/-- The loop of `riscv64_fs_normalize_path`. The source writes over the string it reads, always behind the point it has
    read to. -/
def normalizeLoop : Nat → Path → Path → Path
  | 0, _, w => w
  | fuel + 1, r, w =>
    let r := r.dropWhile (· = slash)
    let seg := r.takeWhile (· ≠ slash)
    if r = [] then w
    else if seg = dot then normalizeLoop fuel (r.drop seg.length) w
    else if seg = dotdot then
      let w := w.rdropWhile (· ≠ slash)
      normalizeLoop fuel (r.drop seg.length) (if w.length > 1 then w.dropLast else w)
    else
      let w := if w ≠ [] ∧ w.getLast? ≠ some slash then w ++ [slash] else w
      normalizeLoop fuel (r.drop seg.length) (w ++ seg)

/-- `riscv64_fs_normalize_path` -/
def riscv64FsNormalizePath (p : Path) : Path :=
  let w := if p.head? = some slash then normalizeLoop p.length p.tail [slash] else normalizeLoop p.length p []
  if w = [] then [slash] else w

/-- `riscv64_fs_resolve_path` -/
def riscv64FsResolvePath (cwd path : Path) : Option Path :=
  if path.head? = some slash then
    if (copy [] path).length < path.length then none else some (riscv64FsNormalizePath (copy [] path))
  else if cwd = [] ∨ (copy [] cwd).length < cwd.length then none
  else
    let base := separate (copy [] cwd)
    let out := copy base path
    if out.length < base.length + path.length then none else some (riscv64FsNormalizePath out)

/-- `riscv64_fs_resolve_dirfd_path` -/
def riscv64FsResolveDirfdPath (cwd : Path) (dir : At) (path : Path) : Option Path :=
  if path.head? = some slash then riscv64FsResolvePath cwd path
  else match dir with
  | .cwd => riscv64FsResolvePath cwd path
  | .fd none => none
  | .fd (some name) => if name = [] then none else some (copy (separate (copy [] name)) path)

/-! ### Elements -/

/-- What a string names. -/
def elements (p : Path) : List Path := segments slash p

/-- `.` stays and `..` goes back. -/
def fold (es : List Path) : List Path := climbed dot dotdot es

/-- The complete path: the directory, a `/` and the path. -/
def join (base path : Path) : Path := base ++ slash :: path

/-- The names a walk asks the directories for: `skipelem` until the path ends. -/
def walked : Nat → Path → List Path
  | 0, _ => []
  | fuel + 1, p =>
    match Namespace.skipelem p with
    | none => []
    | some (name, rest) => name :: walked fuel rest

variable {fuel : Nat} {p tmp path s base cwd : Path} {st : List Path}

/-- They are the elements, each cut to `XV6FS_DIRSIZ` bytes. -/
theorem walked_eq (h : p.length ≤ fuel) : walked fuel p = (elements p).map (·.take dirsiz) := by
  induction fuel generalizing p with
  | zero =>
    obtain rfl := eq_nil_of_length_eq_zero (Nat.le_zero.mp h)
    rfl
  | succ fuel ih =>
    rcases eq_or_ne (p.dropWhile (· = slash)) [] with hnil | hne
    · have hp : elements p = [] := by rw [elements, ← segments_dropWhile, hnil, segments_nil]
      simp [walked, Namespace.skipelem, hnil, hp]
    obtain ⟨x, rest, hq, hx, hpiece, -, hel, hlen⟩ := segments_next hne
    have hdrop : (p.dropWhile (· = slash)).dropWhile (· ≠ slash) = rest := by
      have hsplit : _ ++ (p.dropWhile (· = slash)).dropWhile (· ≠ slash) = _ := takeWhile_append_dropWhile
      rw [hx] at hsplit
      exact append_cancel_left (hsplit.trans hq)
    have hle : (rest.dropWhile (· = slash)).length ≤ fuel := by
      have h₁ := length_dropWhile_le (fun c => decide (c = slash)) rest
      have h₂ := length_pos_of_ne_nil hpiece.1
      omega
    simp only [walked, Namespace.skipelem, if_neg hne, hdrop, hx, ih hle]
    rw [elements, elements, hel, segments_dropWhile]
    rfl

/-! ### What the buffer shows -/

/-- The buffer has these names, perhaps with a `/` behind. -/
def Shows (tmp : Path) (st : List Path) : Prop := tmp = spell slash st ∨ tmp = spell slash st ++ [slash]

theorem Shows.named (h : Shows tmp st) (hst : ∀ x ∈ st, Piece slash x) : elements tmp = st := by
  unfold elements
  rcases h with rfl | rfl
  · exact segments_spell hst
  · rw [segments_concat_sep, segments_spell hst]

/-- A name does not end in `/`. -/
theorem getLast?_spell (hst : ∀ x ∈ st, Piece slash x) : (spell slash st).getLast? ≠ some slash := by
  rcases eq_nil_or_concat st with rfl | ⟨st, x, rfl⟩
  · exact nofun
  obtain ⟨hne, hmem⟩ := hst x (by simp)
  rcases eq_nil_or_concat x with rfl | ⟨y, c, rfl⟩
  · exact absurd rfl hne
  simp only [concat_eq_append] at hmem ⊢
  rw [spell_concat, ← cons_append, ← append_assoc, getLast?_concat]
  rintro ⟨⟩
  exact hmem (by simp)

variable {x r : Path}

/-- Back over a name to the `/` before it. -/
theorem rdropWhile_name {u : Path} (hx : slash ∉ x) (hu : u = [] ∨ u.getLast? = some slash) :
    (u ++ x).rdropWhile (· ≠ slash) = u := by
  have hall : ∀ c ∈ x.reverse, decide (c ≠ slash) := fun c hc =>
    decide_eq_true fun h => hx (h ▸ mem_reverse.mp hc)
  rw [rdropWhile, reverse_append, dropWhile_append_of_pos hall]
  rcases hu with rfl | hu
  · rfl
  rw [← head?_reverse] at hu
  obtain ⟨v, hv⟩ := head?_eq_some_iff.mp hu
  rw [hv, dropWhile_cons_of_neg (by simp), ← hv, reverse_reverse]

/-- The names as the buffer has them, with a `/` behind or not. -/
def shown (t : Bool) (st : List Path) : Path := spell slash st ++ if t then [slash] else []

variable {t : Bool}

/-- Adding a name. -/
theorem shown_push (hst : ∀ x ∈ st, Piece slash x) (name : Path) :
    (if (shown t st).getLast? = some slash then shown t st else shown t st ++ [slash]) ++ name = shown false (st ++ [name]) := by
  rw [shown, shown, spell_concat]
  cases t
  · rw [if_neg Bool.false_ne_true, append_nil, if_neg (getLast?_spell hst)]
    simp
  · rw [if_pos rfl]
    simp

/-- The `/` before the last name, with what is before it. -/
theorem spell_slash (st : List Path) : ∃ u, spell slash st ++ [slash] = slash :: u ∧ (u = [] ∨ u.getLast? = some slash) := by
  rcases st with - | ⟨x, st⟩
  · exact ⟨[], rfl, .inl rfl⟩
  · exact ⟨x ++ spell slash st ++ [slash], rfl, .inr (getLast?_concat ..)⟩

/-- Dropping the last name. -/
theorem shown_pop (hst : ∀ x ∈ st, Piece slash x) : dropName (shown t st) = shown (t || st ≠ []) st.dropLast := by
  rcases eq_nil_or_concat st with rfl | ⟨st, x, rfl⟩
  · cases t <;> rfl
  have hx : Piece slash x := hst x (by simp)
  obtain ⟨u, hu, hlast⟩ := spell_slash st
  have hname : ∀ y : Path, slash ∉ y.dropLast → y ≠ [] → dropName (slash :: (u ++ y)) = slash :: u := by
    intro y hy hne
    have hlen := length_pos_of_ne_nil hne
    rw [dropName, if_neg (by rw [length_cons, length_append]; omega)]
    simp only [drop_succ_cons, drop_zero]
    rw [dropLast_append_of_ne_nil hne, rdropWhile_name hy hlast]
    rfl
  have hspell : spell slash (st.concat x) = slash :: (u ++ x) := by
    rw [concat_eq_append, spell_concat, ← singleton_append, ← append_assoc, hu]
    rfl
  have hleft : shown (t || st.concat x ≠ []) (st.concat x).dropLast = slash :: u := by
    rw [concat_eq_append, dropLast_concat, ← hu, shown, if_pos (by simp)]
  rw [hleft, shown, hspell]
  cases t
  · rw [if_neg nofun, append_nil]
    exact hname x (fun hmem => hx.2 (dropLast_subset _ hmem)) hx.1
  · rw [cons_append, append_assoc]
    refine hname (x ++ [slash]) ?_ (by simp)
    rw [dropLast_concat]
    exact hx.2

theorem length_dropName_le (tmp : Path) : (dropName tmp).length ≤ tmp.length := by
  unfold dropName
  split
  · exact le_refl _
  have hdrop := (List.rdropWhile_prefix (p := fun c => decide (c ≠ slash)) (tmp.drop 1).dropLast).length_le
  simp only [length_append, length_take, length_dropLast, length_drop] at hdrop ⊢
  omega

/-- The buffer has 256 bytes, one of them for the NUL. -/
theorem length_canonicalizeLoop_le (fuel : Nat) (path : Path) (h : tmp.length ≤ 255) :
    (canonicalizeLoop fuel path tmp).length ≤ 255 := by
  induction fuel generalizing path tmp with
  | zero => exact h
  | succ fuel ih =>
    simp only [canonicalizeLoop]
    split
    · exact h
    split
    · exact h
    split
    · exact ih _ h
    split
    · exact ih _ ((length_dropName_le tmp).trans h)
    refine ih _ ?_
    have htmp : (if tmp.getLast? = some slash then tmp else tmp ++ [slash]).length ≤ tmp.length + 1 := by
      split <;> simp
    rw [length_append, length_take]
    omega

theorem length_canonicalize_le (path : Path) : (canonicalizePathInplace path).length ≤ 255 := by
  have hstart : (if path.head? = some slash then [] else [slash]).length ≤ 255 := by
    split <;> simp
  have hloop := length_canonicalizeLoop_le path.length path hstart
  simp only [canonicalizePathInplace]
  generalize canonicalizeLoop _ _ _ = tmp at hloop
  split
  · exact (by decide)
  · exact hloop

theorem length_resolveTaskPath_le (cwd path : Path) : (resolveTaskPath cwd path).length ≤ 255 := by
  unfold resolveTaskPath
  split
  · exact Nat.zero_le _
  split
  · exact length_canonicalize_le _
  · exact length_canonicalize_le _

theorem pieces_climb (hst : ∀ y ∈ st, Piece slash y) (hx : Piece slash x) : ∀ y ∈ climb dot dotdot st x, Piece slash y := by
  intro y hy
  rcases mem_climb hy with hy | ⟨rfl, -⟩
  · exact hst y hy
  · exact hx

theorem pieces_fold (p : Path) : ∀ x ∈ fold (elements p), Piece slash x :=
  fun _ hx => piece_of_mem_segments (mem_climbed hx).1

/-- What follows a name, without the `/` between. -/
theorem elements_drop_one {rest : Path} (h : rest = [] ∨ rest.head? = some slash) : elements (rest.drop 1) = elements rest := by
  rcases h with rfl | h
  · rfl
  · obtain ⟨l, rfl⟩ := head?_eq_some_iff.mp h
    exact (segments_sep_cons l).symm

/-- One element, for the names and for the `/` behind them. -/
def turn (s : List Path × Bool) (x : Path) : List Path × Bool :=
  (climb dot dotdot s.1 x, if x = dot then s.2 else if x = dotdot then s.2 || s.1 ≠ [] else false)

theorem foldl_turn_fst (es : List Path) (s : List Path × Bool) : (es.foldl turn s).1 = es.foldl (climb dot dotdot) s.1 := by
  induction es generalizing s with
  | nil => rfl
  | cons e es ih => exact ih (turn s e)

/-- The loop folds the elements, as long as they are sure to fit: a `/` has to be paid for by one of the path, or by room. -/
theorem canonicalizeLoop_eq (hfuel : path.length ≤ fuel)
    (hst : ∀ x ∈ st, Piece slash x) (hroom : (shown t st).length + path.length ≤ 255)
    (hcredit : path = [] ∨ path.head? = some slash ∨ (shown t st).length + path.length < 255) :
    canonicalizeLoop fuel path (shown t st) =
      shown ((elements path).foldl turn (st, t)).2 ((elements path).foldl turn (st, t)).1 := by
  induction fuel generalizing path t st with
  | zero =>
    obtain rfl := eq_nil_of_length_eq_zero (Nat.le_zero.mp hfuel)
    rfl
  | succ fuel ih =>
    rcases eq_or_ne path [] with rfl | hpath
    · rfl
    have hpos := length_pos_of_ne_nil hpath
    simp only [canonicalizeLoop]
    rw [if_neg (by rintro (h | h); exact hpath h; omega)]
    rcases eq_or_ne (path.dropWhile (· = slash)) [] with hnil | hne
    · rw [elements, ← segments_dropWhile, hnil]
      rfl
    rw [if_neg hne]
    obtain ⟨x, rest, hq, hx, hpiece, hrest, hel, hlen⟩ := segments_next hne
    have hqlen : (shown t st).length + 1 + (x.length + rest.length) ≤ 255 := by
      rcases hcredit with h | h | h
      · exact absurd h hpath
      · rw [← length_append, ← hq]
        obtain ⟨l, rfl⟩ := head?_eq_some_iff.mp h
        have hle := length_dropWhile_le (fun c => decide (c = slash)) l
        rw [dropWhile_cons_of_pos (by simp)]
        rw [length_cons] at hroom
        omega
      · omega
    have hxpos := length_pos_of_ne_nil hpiece.1
    rw [hx, hq, elements, hel, foldl_cons, turn, climb]
    -- behind `.` and `..` a `/` is skipped as well
    have hskip : ∀ {t' : Bool} {st' : List Path}, (shown t' st').length ≤ (shown t st).length →
        (∀ y ∈ st', Piece slash y) → canonicalizeLoop fuel (rest.drop 1) (shown t' st') =
          shown ((segments slash rest).foldl turn (st', t')).2 ((segments slash rest).foldl turn (st', t')).1 := by
      intro t' st' hle hst'
      have hdrop : (rest.drop 1).length ≤ rest.length := by simp
      rw [← elements, ← elements_drop_one hrest]
      exact ih (by omega) hst' (by omega) (.inr (.inr (by omega)))
    rcases eq_or_ne x dot with rfl | hdot
    · simp only [if_true]
      exact hskip le_rfl hst
    rcases eq_or_ne x dotdot with rfl | hdotdot
    · have hpop := shown_pop (t := t) hst
      have hle := hpop ▸ length_dropName_le (shown t st)
      rw [hpop]
      exact hskip hle fun y hy => hst y (dropLast_subset _ hy)
    simp only [if_neg hdot, if_neg hdotdot]
    have htmp : (if (shown t st).getLast? = some slash then shown t st else shown t st ++ [slash]).length ≤
        (shown t st).length + 1 := by
      split
      · omega
      · rw [length_append, length_singleton]
    have hlong : (shown false (st ++ [x])).length ≤ (shown t st).length + 1 + x.length := by
      rw [← shown_push (t := t) hst, length_append]
      omega
    rw [take_of_length_le (by omega), drop_left, shown_push hst]
    refine ih (by omega) ?_ (by omega) (hrest.imp_right .inl)
    intro y hy
    rcases mem_append.mp hy with hy | hy
    · exact hst y hy
    · exact mem_singleton.mp hy ▸ hpiece

/-- `s` is a path from the root that has these names. -/
structure Names (s : Path) (st : List Path) : Prop where
  rooted : s.head? = some slash
  shows : Shows s st
  pieces : ∀ x ∈ st, Piece slash x

theorem Names.named {s : Path} {st : List Path} (h : Names s st) : elements s = st := h.shows.named h.pieces

/-- The last element but for `.` is `..`, and it does not lead back to the root. -/
def ClimbsLast (p : Path) : Prop := ((elements p).filter (· ≠ dot)).getLast? = some dotdot ∧ fold (elements p) ≠ []

instance (p : Path) : Decidable (ClimbsLast p) := inferInstanceAs (Decidable (_ ∧ _))

/-- The buffer ends in `/` after a `..` until the next name. -/
theorem foldl_turn_snd (es : List Path) (hne : fold es ≠ []) :
    (es.foldl turn ([], false)).2 ↔ (es.filter (· ≠ dot)).getLast? = some dotdot := by
  induction es using reverseRecOn with
  | nil => exact absurd rfl hne
  | append_singleton es x ih =>
    have hst : (es.foldl turn ([], false)).1 = fold es := foldl_turn_fst es _
    rw [fold, climbed, foldl_append, foldl_cons, ← climbed, ← fold, climb] at hne
    rw [foldl_append, foldl_cons, turn, hst]
    rcases eq_or_ne x dot with rfl | hdot
    · rw [if_pos rfl] at hne
      simpa using ih hne
    rcases eq_or_ne x dotdot with rfl | hdotdot
    · have hlong : fold es ≠ [] := by
        rintro heq
        rw [heq] at hne
        exact hne rfl
      simp [hdot, hlong]
    · simp [hdot, hdotdot]

/-- The names, from the root. -/
def rendered (st : List Path) : Path := if st = [] then [slash] else spell slash st

theorem head?_rendered (st : List Path) : (rendered st).head? = some slash := by
  cases st <;> rfl

theorem rendered_ne_nil (st : List Path) : rendered st ≠ [] := by
  intro h
  have := head?_rendered st
  rw [h] at this
  cases this

section
variable (hroot : path.head? = some slash) (hlen : path.length ≤ 255)
include hroot hlen

/-- A path from the root that fits is folded, and keeps a `/` at its end if it ends in `..`. -/
theorem canonicalize_eq :
    canonicalizePathInplace path = rendered (fold (elements path)) ++ if ClimbsLast path then [slash] else [] := by
  have hloop : canonicalizeLoop path.length path (shown false []) = _ :=
    canonicalizeLoop_eq (le_refl _) nofun (by simpa [shown, spell] using hlen) (.inr (.inl hroot))
  rw [foldl_turn_fst, ← climbed, ← fold, show shown false [] = [] from rfl] at hloop
  simp only [canonicalizePathInplace, if_pos hroot, hloop]
  rcases eq_or_ne (fold (elements path)) [] with hnil | hne
  · rw [hnil, if_neg fun h : ClimbsLast path => h.2 hnil]
    cases ((elements path).foldl turn ([], false)).2 <;> rfl
  have hspell : spell slash (fold (elements path)) ≠ [] := by
    obtain ⟨x, st, hst⟩ := exists_cons_of_ne_nil hne
    rw [hst]
    exact cons_ne_nil _ _
  have htail : ((elements path).foldl turn ([], false)).2 ↔ ClimbsLast path :=
    (foldl_turn_snd _ hne).trans (and_iff_left hne).symm
  rw [shown, if_neg fun h => hspell (append_eq_nil_iff.mp h).1, rendered, if_neg hne]
  simp only [htail]

theorem canonicalize_names : Names (canonicalizePathInplace path) (fold (elements path)) := by
  have hhead := head?_rendered (fold (elements path))
  obtain ⟨l, hl⟩ := head?_eq_some_iff.mp hhead
  rw [canonicalize_eq hroot hlen]
  refine ⟨by rw [hl]; rfl, ?_, pieces_fold path⟩
  rcases eq_or_ne (fold (elements path)) [] with hnil | hne
  · rw [if_neg fun h : ClimbsLast path => h.2 hnil, hnil]
    exact .inr rfl
  rw [rendered, if_neg hne]
  split
  · exact .inr rfl
  · exact .inl (append_nil _)

end

/-! ### The directory and the path -/

/-- The string both are copied to, if there is room. -/
def joined (base path : Path) : Path := base ++ (if base.getLast? = some slash then [] else [slash]) ++ path

theorem elements_append (h : base.getLast? = some slash) (path : Path) :
    elements (base ++ path) = elements base ++ elements path := by
  obtain ⟨b, rfl⟩ := getLast?_eq_some_iff.mp h
  rw [append_assoc, elements, elements, singleton_append, segments_append_sep, segments_concat_sep]
  rfl

theorem elements_join (base path : Path) : elements (join base path) = elements base ++ elements path :=
  segments_append_sep base path

theorem elements_joined (base path : Path) : elements (joined base path) = elements (join base path) := by
  rw [elements_join, joined]
  split
  · rename_i h
    rw [append_nil, elements_append h]
  · rw [append_assoc]
    exact segments_append_sep base path

theorem copy_nil (src : Path) : copy [] src = src.take 255 := rfl

/-- Both are copied as far as the 255 bytes go. -/
theorem copy_separate (hne : base ≠ []) (hlen : base.length ≤ 255) (path : Path) :
    copy (separate (copy [] base)) path = (joined base path).take 255 := by
  rw [copy_nil, take_of_length_le hlen, separate, joined, copy]
  rcases eq_or_ne base.getLast? (some slash) with hlast | hlast
  · rw [if_neg (fun h => h.2.1 hlast), if_pos hlast, append_nil, take_append, take_of_length_le hlen]
  rw [if_neg hlast]
  rcases lt_or_ge (base.length + 1) 256 with hroom | hfull
  · have hle : (base ++ [slash]).length ≤ 255 := by
      rw [length_append, length_singleton]
      omega
    rw [if_pos ⟨hne, hlast, hroom⟩, take_append, take_of_length_le hle]
  have hbase : 255 - base.length = 0 := by omega
  rw [if_neg (fun h => not_lt.mpr hfull h.2.2), append_assoc, take_append, hbase, take_of_length_le hlen]
  rfl

/-- The directory of a task as it is stored: from the root, and at most 255 bytes. -/
structure Stored (cwd : Path) : Prop where
  rooted : cwd.head? = some slash
  short : cwd.length ≤ 255

theorem Stored.ne_nil (h : Stored cwd) : cwd ≠ [] := by
  rintro rfl
  cases h.rooted

theorem head?_take (h : s.head? = some slash) {n : Nat} (hn : 0 < n) : (s.take n).head? = some slash := by
  obtain ⟨l, rfl⟩ := head?_eq_some_iff.mp h
  obtain ⟨k, rfl⟩ := Nat.exists_eq_add_of_le' hn
  rfl

theorem head?_joined (h : base.head? = some slash) (path : Path) : (joined base path).head? = some slash := by
  obtain ⟨l, rfl⟩ := head?_eq_some_iff.mp h
  rfl

/-- What `kernel/fs.c` makes of a directory and a path: 255 bytes of both, folded. -/
theorem copied_names (h : Stored base) (path : Path) :
    Names (canonicalizePathInplace (copy (separate (copy [] base)) path)) (fold (elements ((joined base path).take 255))) := by
  rw [copy_separate h.ne_nil h.short]
  exact canonicalize_names (head?_take (head?_joined h.rooted path) (by decide)) (length_take_le _ _)

theorem resolveTaskPath_rooted (cwd : Path) (h : path.head? = some slash) :
    Names (resolveTaskPath cwd path) (fold (elements (path.take 255))) := by
  have hne : path ≠ [] := by
    rintro rfl
    cases h
  rw [resolveTaskPath, if_neg hne, if_pos (.inl h)]
  exact canonicalize_names (head?_take h (by decide)) (length_take_le _ _)

theorem resolveTaskPath_relative (hcwd : Stored cwd) (hne : path ≠ []) (h : path.head? ≠ some slash) :
    Names (resolveTaskPath cwd path) (fold (elements ((joined cwd path).take 255))) := by
  obtain ⟨l, hl⟩ := head?_eq_some_iff.mp hcwd.rooted
  have hcopy : copy [slash] cwd.tail = copy [] cwd := by
    rw [hl]
    rfl
  rw [resolveTaskPath, if_neg hne, if_neg (not_or.mpr ⟨h, hcwd.ne_nil⟩)]
  simp only [if_pos hcwd.rooted, hcopy]
  exact copied_names hcwd path

/-! ### riscv64 -/

theorem rendered_concat (st : List Path) (x : Path) : rendered (st ++ [x]) = spell slash st ++ slash :: x := by
  rw [rendered, if_neg (by simp), spell_concat]

theorem rendered_push (hst : ∀ x ∈ st, Piece slash x) (x : Path) :
    (if rendered st ≠ [] ∧ (rendered st).getLast? ≠ some slash then rendered st ++ [slash] else rendered st) ++ x =
      rendered (st ++ [x]) := by
  rw [rendered_concat]
  rcases st with - | ⟨y, st⟩
  · rw [if_neg (fun h => h.2 rfl)]
    rfl
  have hy : rendered (y :: st) = spell slash (y :: st) := if_neg (cons_ne_nil _ _)
  rw [hy, if_pos ⟨by simp [spell], getLast?_spell hst⟩, append_assoc]
  rfl

theorem rendered_pop (hst : ∀ x ∈ st, Piece slash x) : (let w := (rendered st).rdropWhile (· ≠ slash)
     if w.length > 1 then w.dropLast else w) = rendered st.dropLast := by
  rcases eq_nil_or_concat st with rfl | ⟨st, x, rfl⟩
  · rfl
  rw [concat_eq_append, rendered_concat, ← singleton_append, ← append_assoc,
    rdropWhile_name (hst x (by simp)).2 (.inr (getLast?_concat ..))]
  rcases st with - | ⟨y, st⟩
  · rfl
  have hy : rendered (y :: st) = spell slash (y :: st) := if_neg (cons_ne_nil _ _)
  simp only [dropLast_concat]
  rw [if_pos (by simp [spell]), hy]

theorem normalizeLoop_eq (hfuel : r.length ≤ fuel) (hst : ∀ x ∈ st, Piece slash x) :
    normalizeLoop fuel r (rendered st) = rendered ((elements r).foldl (climb dot dotdot) st) := by
  induction fuel generalizing r st with
  | zero =>
    obtain rfl := eq_nil_of_length_eq_zero (Nat.le_zero.mp hfuel)
    rfl
  | succ fuel ih =>
    simp only [normalizeLoop]
    rcases eq_or_ne (r.dropWhile (· = slash)) [] with hnil | hne
    · rw [elements, ← segments_dropWhile, hnil]
      rfl
    rw [if_neg hne]
    obtain ⟨x, rest, hq, hx, hpiece, -, hel, hlen⟩ := segments_next hne
    have hxpos := length_pos_of_ne_nil hpiece.1
    have hrest : rest.length ≤ fuel := by omega
    rw [hx, hq, drop_left, elements, hel, foldl_cons]
    rcases eq_or_ne x dot with rfl | hdot
    · rw [if_pos rfl]
      exact ih hrest hst
    rw [if_neg hdot]
    rcases eq_or_ne x dotdot with rfl | hdotdot
    · rw [rendered_pop hst]
      exact ih hrest fun y hy => hst y (dropLast_subset _ hy)
    have hclimb : climb dot dotdot st x = st ++ [x] := by rw [climb, if_neg hdot, if_neg hdotdot]
    rw [if_neg hdotdot, rendered_push hst, hclimb]
    exact ih hrest (hclimb ▸ pieces_climb hst hpiece)

/-- From the root, with a turn left for each byte. -/
theorem normalizeLoop_root (h : r.length ≤ fuel) : normalizeLoop fuel r [slash] = rendered (fold (elements (slash :: r))) := by
  exact (normalizeLoop_eq h nofun : normalizeLoop fuel r (rendered []) = _)

theorem normalize_eq (h : p.head? = some slash) : riscv64FsNormalizePath p = rendered (fold (elements p)) := by
  obtain ⟨l, rfl⟩ := head?_eq_some_iff.mp h
  have hloop := normalizeLoop_root (Nat.le_succ l.length)
  simp only [riscv64FsNormalizePath, length_cons, head?_cons, if_pos, tail_cons, hloop, if_neg (rendered_ne_nil _)]

theorem elements_rendered (hst : ∀ x ∈ st, Piece slash x) : elements (rendered st) = st := by
  rw [rendered]
  split
  · rename_i h
    rw [h]
    rfl
  · exact segments_spell hst

/-- A copy that has not stopped early lost nothing but perhaps a last `/`. -/
theorem elements_take_joined (hne : cwd ≠ []) (hlen : cwd.length ≤ 255)
    (hfit : (separate cwd).length + path.length ≤ ((joined cwd path).take 255).length) :
    elements ((joined cwd path).take 255) = elements (joined cwd path) := by
  rw [length_take] at hfit
  have hjoined : (joined cwd path).length = (separate cwd).length + path.length ∨ cwd.length = 255 := by
    rw [joined, separate]
    rcases eq_or_ne cwd.getLast? (some slash) with hlast | hlast
    · rw [if_pos hlast, if_neg fun h => h.2.1 hlast, append_nil, length_append]
      exact .inl rfl
    rcases lt_or_ge (cwd.length + 1) 256 with hroom | hfull
    · rw [if_neg hlast, if_pos ⟨hne, hlast, hroom⟩, length_append]
      exact .inl rfl
    · exact .inr (by omega)
  rcases hjoined with heq | hcwd
  · rw [take_of_length_le (by omega)]
  have hsep : cwd.length ≤ (separate cwd).length := by
    rw [separate]
    split <;> simp
  -- the directory fills the buffer, and there is no path
  obtain rfl : path = [] := eq_nil_of_length_eq_zero (by omega)
  have htake : (joined cwd []).take 255 = cwd := by
    rw [joined, append_nil, take_append, take_of_length_le hlen, hcwd]
    simp
  rw [htake, elements_joined, elements_join]
  exact (append_nil _).symm

/-- What riscv64 makes of a directory and a path, when it does not fail: both, folded. -/
theorem riscv64FsResolvePath_relative (hcwd : Stored cwd) (hpath : path.head? ≠ some slash)
    (h : riscv64FsResolvePath cwd path = some s) : s = rendered (fold (elements (join cwd path))) := by
  have hne := hcwd.ne_nil
  have hcopy : copy [] cwd = cwd := take_of_length_le hcwd.short
  rw [riscv64FsResolvePath, if_neg hpath, hcopy, if_neg (not_or.mpr ⟨hne, lt_irrefl _⟩)] at h
  obtain ⟨hfit, h⟩ := ite_none_left_eq_some.mp h
  obtain rfl := some.inj h
  have hout := copy_separate hne hcwd.short path
  rw [hcopy] at hout
  rw [hout] at hfit ⊢
  rw [normalize_eq (head?_take (head?_joined hcwd.rooted path) (by decide)), ← elements_joined,
    elements_take_joined hne hcwd.short (not_lt.mp hfit)]

theorem riscv64FsResolvePath_rooted (hpath : path.head? = some slash)
    (h : riscv64FsResolvePath cwd path = some s) : s = rendered (fold (elements path)) := by
  rw [riscv64FsResolvePath, if_pos hpath] at h
  obtain ⟨hfit, h⟩ := ite_none_left_eq_some.mp h
  obtain rfl := some.inj h
  have hcopy : copy [] path = path := by
    rw [copy_nil, length_take] at hfit
    exact (copy_nil path).trans (take_of_length_le (by omega))
  rw [hcopy, normalize_eq hpath]

/-! ### Lengths -/

theorem length_spell_climb_le (st : List Path) (x : Path) :
    (spell slash (climb dot dotdot st x)).length ≤ (spell slash st).length + (x.length + 1) := by
  unfold climb
  split
  · omega
  split
  · have hle : (spell slash st.dropLast).length ≤ (spell slash st).length := by
      rcases eq_nil_or_concat st with rfl | ⟨st, y, rfl⟩
      · exact le_refl _
      · rw [concat_eq_append, dropLast_concat, spell_concat, length_append]
        omega
    omega
  · rw [spell_concat, length_append, length_cons]

theorem length_spell_foldl_le (es st : List Path) :
    (spell slash (es.foldl (climb dot dotdot) st)).length ≤ (spell slash st).length + (spell slash es).length := by
  induction es generalizing st with
  | nil => exact le_refl _
  | cons e es ih =>
    have hstep := length_spell_climb_le st e
    have hrec := ih (climb dot dotdot st e)
    have hcons : (spell slash (e :: es)).length = e.length + 1 + (spell slash es).length := by
      simp [spell]
      omega
    rw [foldl_cons]
    omega

/-- The elements of a path from the root are no longer than the path. -/
theorem length_spell_elements_le (h : p = [] ∨ p.head? = some slash) : (spell slash (elements p)).length ≤ p.length := by
  induction hn : p.length using Nat.strong_induction_on generalizing p with
  | _ n ih =>
    rcases eq_or_ne (p.dropWhile (· = slash)) [] with hnil | hne
    · rw [elements, ← segments_dropWhile, hnil]
      exact Nat.zero_le _
    obtain ⟨x, rest, hq, -, -, hrest, hel, -⟩ := segments_next hne
    have hroot : p.head? = some slash := h.resolve_left (by rintro rfl; exact hne rfl)
    obtain ⟨l, rfl⟩ := head?_eq_some_iff.mp hroot
    have hle := length_dropWhile_le (fun c => decide (c = slash)) l
    rw [dropWhile_cons_of_pos (by simp)] at hq
    rw [hq, length_append] at hle
    rw [length_cons] at hn
    have hrec := ih rest.length (by omega) hrest rfl
    have hcons : (spell slash (x :: segments slash rest)).length = x.length + 1 + (spell slash (elements rest)).length := by
      simp [spell, elements]
      omega
    rw [elements, hel]
    omega

/-- Folding does not make a path longer. -/
theorem length_fold_le (h : p.head? = some slash) : (spell slash (fold (elements p))).length ≤ p.length := by
  have h₁ := length_spell_foldl_le (elements p) []
  have h₂ := length_spell_elements_le (.inr h)
  have h₃ : (spell slash ([])).length = 0 := rfl
  rw [fold, climbed]
  omega

end Orthox.Paths
