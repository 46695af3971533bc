import Orthox.Paths.Complete

/-! The two functions that fold `.` and `..` in a string, `canonicalize_path_inplace` and `riscv64_fs_normalize_path`.
    They agree on a path from the root unless its last element leads up: then the first leaves a `/` at the end. -/

namespace Orthox.Paths
open Schemes List
open Namespace (slash dot dotdot)
open Open (Path)

variable {p : Path}

/-- The two make one string of a path; it stays as it is when it is folded again, and its elements are names. -/
structure Agree (p : Path) : Prop where
  same : canonicalizePathInplace p = riscv64FsNormalizePath p
  again : canonicalizePathInplace (canonicalizePathInplace p) = canonicalizePathInplace p
  fixed : riscv64FsNormalizePath (riscv64FsNormalizePath p) = riscv64FsNormalizePath p
  clean : ∃ st, canonicalizePathInplace p = rendered st ∧ ∀ x ∈ st, Piece slash x ∧ x ≠ dot ∧ x ≠ dotdot

/-- What was folded has nothing left to fold. -/
theorem not_climbsLast_rendered (p : Path) : ¬ ClimbsLast (rendered (fold (elements p))) := by
  rintro ⟨hlast, -⟩
  rw [elements_rendered (pieces_fold p)] at hlast
  have hmem := (mem_filter.mp (mem_of_getLast? hlast)).1
  exact (mem_climbed hmem).2.2 rfl

/-- CORRECT unless the last element but for `.` is a `..` that does not lead back to the root. -/
theorem normalizers_agree_iff (hroot : p.head? = some slash) (hlen : p.length < 256) : Agree p ↔ ¬ ClimbsLast p := by
  constructor
  · intro h hlast
    have hsame := h.same
    rw [canonicalize_eq hroot (by omega), normalize_eq hroot, if_pos hlast] at hsame
    exact cons_ne_nil _ _ (append_right_eq_self.mp hsame)
  · intro hlast
    have hcanon : canonicalizePathInplace p = rendered (fold (elements p)) := by
      rw [canonicalize_eq hroot (by omega), if_neg hlast, append_nil]
    have hnamed : elements (rendered (fold (elements p))) = fold (elements p) := elements_rendered (pieces_fold p)
    have hshort : (rendered (fold (elements p))).length ≤ 255 := by
      have hle := length_fold_le hroot
      have hlong := length_rendered_le (fold (elements p))
      omega
    refine ⟨hcanon.trans (normalize_eq hroot).symm, ?_, ?_, fold (elements p), hcanon, fun x hx => ?_⟩
    · rw [hcanon, canonicalize_eq (head?_rendered _) hshort, hnamed, fold_fold, if_neg (not_climbsLast_rendered p), append_nil]
    · rw [normalize_eq hroot, normalize_eq (head?_rendered _), hnamed, fold_fold]
    · exact ⟨pieces_fold p x hx, (mem_climbed hx).2⟩

/-- `/a/./b` -/
theorem normalizers_agree_dot : Agree [47, 97, 47, 46, 47, 98] :=
  (normalizers_agree_iff rfl (by decide)).mpr (by decide)

/-- INCORRECT for `/a/b/..`: one makes `/a/` of it, the other `/a`. -/
theorem normalizers_disagree : canonicalizePathInplace [47, 97, 47, 98, 47, 46, 46] = [47, 97, 47] ∧
    riscv64FsNormalizePath [47, 97, 47, 98, 47, 46, 46] = [47, 97] := by decide

/-! ### In place

`riscv64_fs_normalize_path` on the bytes themselves. Each write is checked against the bytes that are still to be read;
they stand as what is written, what is free and what is unread. -/

/-- The bytes from `p` on, and whether every write so far was before the bytes that were still to be read. -/
structure Buf where
  mem : Path
  safe : Bool

namespace Buf

/-- The string at `r`. -/
def str (b : Buf) (r : Nat) : Path := (b.mem.drop r).takeWhile (· ≠ 0)

/-- `*w = c`, with the bytes from `unread` on still to be read. -/
def put (b : Buf) (w unread c : Nat) : Buf := ⟨b.mem.set w c, b.safe && decide (w < unread)⟩

/-- `for (k = 0; k < len; k++) *w++ = seg[k]` -/
def copySegment : Nat → Nat → Nat → Buf → Buf
  | 0, _, _, b => b
  | len + 1, w, seg, b => copySegment len (w + 1) (seg + 1) (b.put w (seg + 1) (b.mem.getD seg 0))

/-- The loop, with the positions `w` and `r` relative to `p`. -/
def inplaceLoop : Nat → Nat → Nat → Buf → Nat × Nat × Buf
  | 0, w, r, b => (w, r, b)
  | fuel + 1, w, r, b =>
    let seg := r + ((b.str r).takeWhile (· = slash)).length
    let name := (b.str seg).takeWhile (· ≠ slash)
    let r := seg + name.length
    if b.str seg = [] then (w, seg, b)
    else if name = dot then inplaceLoop fuel w r b
    else if name = dotdot then
      let w := ((b.mem.take w).rdropWhile (· ≠ slash)).length
      inplaceLoop fuel (if w > 1 then w - 1 else w) r b
    else
      let (w, b) := if w > 0 ∧ b.mem[w - 1]? ≠ some slash then (w + 1, b.put w seg slash) else (w, b)
      inplaceLoop fuel (w + name.length) r (b.copySegment name.length w seg)

/-- `riscv64_fs_normalize_path`; every turn of the loop takes a byte at least. -/
def normalizeInplace (mem : Path) : Buf :=
  let (w, r, b) := if mem.head? = some slash then inplaceLoop mem.length 1 1 (put ⟨mem, true⟩ 0 1 slash)
    else inplaceLoop mem.length 0 0 ⟨mem, true⟩
  let (w, b) := if w = 0 then (w + 1, b.put w (r + 1) slash) else (w, b)
  b.put w (r + 1) 0

/-- `W` is written, `gap` is free and `l` is still to be read. -/
def zip (W gap l tail : Path) : Buf := ⟨W ++ (gap ++ (l ++ 0 :: tail)), true⟩

variable {fuel n w r : Nat} {p W gap l x tail : Path}

theorem str_zip (h : 0 ∉ l) (hn : n = W.length + gap.length) : (zip W gap l tail).str n = l := by
  rw [str, zip, hn, ← length_append, ← append_assoc, drop_left,
    takeWhile_append_of_pos fun c hc => by simpa using ne_of_mem_of_not_mem hc h, takeWhile_cons_of_neg (by simp), append_nil]

theorem zip_read : zip W gap (x ++ l) tail = zip W (gap ++ x) l tail := by simp [zip]

theorem zip_back : zip (W ++ x) gap l tail = zip W (x ++ gap) l tail := by simp [zip]

theorem put_zip {g c : Nat} (h : W.length < n) : (zip W (g :: gap) l tail).put W.length n c = zip (W ++ [c]) gap l tail := by
  simp [zip, put, h]

/-- A copy to the left. -/
theorem copySegment_zip (l tail : Path) : ∀ x W gap : Path, ∃ gap' : Path, gap'.length = gap.length ∧
    (zip W gap (x ++ l) tail).copySegment x.length W.length (W.length + gap.length) = zip (W ++ x) gap' l tail
  | [], W, gap => ⟨gap, rfl, by rw [append_nil]; rfl⟩
  | c :: x, W, gap => by
    obtain ⟨g, gap', hg⟩ := exists_cons_of_ne_nil (concat_ne_nil c gap)
    have hlen : gap'.length = gap.length := by
      have := congrArg length hg
      simpa using this.symm
    have hread : (zip W gap (c :: x ++ l) tail).mem.getD (W.length + gap.length) 0 = c := by simp [zip]
    have hcons : zip W gap (c :: x ++ l) tail = zip W (g :: gap') (x ++ l) tail := by
      rw [← hg, ← zip_read]
      rfl
    obtain ⟨gap₁, hlen₁, hcopy⟩ := copySegment_zip l tail x (W ++ [c]) gap'
    refine ⟨gap₁, hlen₁.trans hlen, ?_⟩
    rw [length_cons, copySegment, hread, hcons, put_zip (by omega)]
    rw [length_append, hlen, add_right_comm, append_assoc] at hcopy
    exact hcopy

/-- The loop comes to its end with `W` written. -/
def Ends (fuel w r : Nat) (b : Buf) (W tail : Path) : Prop :=
  ∃ gap : Path, inplaceLoop fuel w r b = (W.length, W.length + gap.length, zip W gap [] tail)

/-- The loop on the bytes does what the loop on the strings does; a `/` has room unless none is needed. -/
theorem inplaceLoop_zip (hw : w = W.length) (hr : r = W.length + gap.length) (hnul : 0 ∉ l) (hfuel : l.length ≤ fuel)
    (hroom : gap ≠ [] ∨ l = [] ∨ l.head? = some slash ∨ W.getLast? = some slash) :
    Ends fuel w r (zip W gap l tail) (normalizeLoop fuel l W) tail := by
  induction fuel generalizing w r W gap l with
  | zero =>
    subst hw hr
    obtain rfl := eq_nil_of_length_eq_zero (Nat.le_zero.mp hfuel)
    exact ⟨gap, rfl⟩
  | succ fuel ih =>
    subst hw hr
    have hsplit := takeWhile_append_dropWhile (p := (· = slash)) (l := l)
    have hnulq : 0 ∉ l.dropWhile (· = slash) := fun h => hnul ((dropWhile_sublist _).subset h)
    rw [Ends, inplaceLoop, str_zip hnul rfl]
    simp only [normalizeLoop]
    generalize hskip : l.takeWhile (· = slash) = skip at hsplit ⊢
    generalize hseg : W.length + gap.length + skip.length = seg
    rw [add_assoc, ← length_append] at hseg
    have hread : zip W gap l tail = zip W (gap ++ skip) (l.dropWhile (· = slash)) tail := by rw [← zip_read, hsplit]
    rw [hread, str_zip hnulq hseg.symm]
    rcases eq_or_ne (l.dropWhile (· = slash)) [] with hq | hq
    · rw [hq, ← hseg]
      exact ⟨_, rfl⟩
    obtain ⟨x, rest, hqx, hx, hpiece, hcut, -, hlen⟩ := segments_next hq
    have hxpos := length_pos_of_ne_nil hpiece.1
    have hnul' : 0 ∉ rest := fun h => hnulq (hqx ▸ mem_append_right _ h)
    have hgap : gap ++ skip ++ x ≠ [] := append_ne_nil_of_right_ne_nil _ hpiece.1
    rw [if_neg hq, if_neg hq, hx, hqx, drop_left]
    split
    · rw [zip_read]
      exact ih rfl (by rw [length_append]; omega) hnul' (by omega) (.inl hgap)
    split
    · have htake : (zip W (gap ++ skip) (x ++ rest) tail).mem.take W.length = W := take_left
      have hpre : W.rdropWhile (· ≠ slash) <+: W := List.rdropWhile_prefix ..
      rw [htake, zip_read]
      generalize W.rdropWhile (· ≠ slash) = B at hpre ⊢
      have hw : (if B.length > 1 then B.length - 1 else B.length) = (if B.length > 1 then B.dropLast else B).length := by
        rw [apply_ite length, length_dropLast]
      have hpre : (if B.length > 1 then B.dropLast else B) <+: W := by
        split
        · exact (List.dropLast_prefix B).trans hpre
        · exact hpre
      rw [hw]
      obtain ⟨U, rfl⟩ := hpre
      rw [zip_back]
      exact ih rfl (by simp only [length_append] at hseg ⊢; omega) hnul' (by omega) (.inl (append_ne_nil_of_right_ne_nil _ hgap))
    · have hlast : (W.length > 0 ∧ (zip W (gap ++ skip) (x ++ rest) tail).mem[W.length - 1]? ≠ some slash) ↔
          W ≠ [] ∧ W.getLast? ≠ some slash := by
        rw [← length_pos_iff]
        refine and_congr_right fun hpos => ?_
        rw [zip, getElem?_append_left (by omega), getLast?_eq_getElem?]
      have hcopy : ∀ {V G : Path}, seg = V.length + G.length → Ends fuel (V.length + x.length) (seg + x.length)
          ((zip V G (x ++ rest) tail).copySegment x.length V.length seg) (normalizeLoop fuel rest (V ++ x)) tail := by
        rintro V G rfl
        obtain ⟨gap', hlen', hcopied⟩ := copySegment_zip rest tail x V G
        rw [hcopied]
        exact ih length_append.symm (by rw [length_append]; omega) hnul' (by omega) (.inr (hcut.imp_right .inl))
      simp only [hlast]
      split
      · rename_i hsep
        obtain ⟨g, G, hG⟩ : ∃ g G, gap ++ skip = g :: G := exists_cons_of_ne_nil fun hnil => by
          obtain ⟨rfl, rfl⟩ := append_eq_nil_iff.mp hnil
          rcases hroom with h | rfl | h | h
          · exact h rfl
          · exact hq rfl
          · obtain ⟨l, rfl⟩ := head?_eq_some_iff.mp h
            simp at hskip
          · exact hsep.2 h
        rw [hG, length_cons] at hseg
        rw [hG, put_zip (by omega)]
        have h := hcopy (V := W ++ [slash]) (G := G) (by rw [length_append, length_singleton]; omega)
        rwa [length_append] at h
      · exact hcopy hseg.symm

/-- CORRECT: a path from the root, of any length, becomes its elements without `.` and with each `..` taking back the
    one before it, and no byte is written over that is still to be read. -/
theorem normalizeInplace_eq (hroot : p.head? = some slash) (hnul : 0 ∉ p) : ∃ rest : Path,
    normalizeInplace (p ++ 0 :: tail) = ⟨rendered (fold (elements p)) ++ 0 :: rest, true⟩ := by
  obtain ⟨l, rfl⟩ := head?_eq_some_iff.mp hroot
  have hnul' : 0 ∉ l := fun h => hnul (mem_cons_of_mem _ h)
  have hfuel : l.length ≤ (slash :: l ++ 0 :: tail).length := by
    rw [length_append, length_cons]
    omega
  obtain ⟨gap, hloop⟩ : Ends _ 1 1 (zip [slash] [] l tail) _ tail := inplaceLoop_zip rfl rfl hnul' hfuel (.inr (.inr (.inr rfl)))
  have hpos : (rendered (fold (elements (slash :: l)))).length ≠ 0 := length_eq_zero_iff.not.mpr (rendered_ne_nil _)
  obtain ⟨g, rest, hrest⟩ : ∃ g rest, gap ++ ([] ++ 0 :: tail) = g :: rest := exists_cons_of_ne_nil (by simp)
  rw [normalizeLoop_root hfuel] at hloop
  have hloop : inplaceLoop _ 1 1 (put ⟨slash :: l ++ 0 :: tail, true⟩ 0 1 slash) = _ := hloop
  refine ⟨rest, ?_⟩
  simp only [normalizeInplace, show (slash :: l ++ 0 :: tail).head? = some slash from rfl, if_true, hloop, if_neg hpos]
  simp only [put, zip, hrest, set_append_right _ _ le_rfl, Nat.sub_self, set_cons_zero, Bool.true_and]
  rw [decide_eq_true (by omega)]

/-- `/a/..`, in six bytes. -/
theorem normalizeInplace_up : ∃ rest, normalizeInplace [47, 97, 47, 46, 46, 0] = ⟨[47, 0] ++ rest, true⟩ :=
  normalizeInplace_eq (p := [47, 97, 47, 46, 46]) rfl (by decide)

end Buf

end Orthox.Paths
