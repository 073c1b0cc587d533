import Declass.Proofs.FollowedPaths

/-!
# Making directories

**Input.** A well-formed file tree and a path at which a directory is wanted.

**Algorithm.** A directory is made in a directory that is there; where that is missing, the path
above is made first.  Every step puts one directory at a place where nothing was.

**Results.**
* `makeDirectories_built`: whatever the path, only directories are added, each where the path or one
  above it leads, and on success there is a directory at the path.
* `makeDirectories_below` and `makeDirectories_below_blocked`: below a directory that is there, all
  directories on the way are made, unless one of the places is taken by a file; then nothing is.
-/

namespace Declass

open Declass.Path (below isAbsolute trimSlashes)

/-- `a` is the path `p` or one above it. -/
inductive Path.Above (a : Text) : Text → Prop
  | self : Above a a
  | parent {p q : Text} (hp : parent? p = some q) (ha : Above a q) : Above a p

/-- `a` is a path above `p`, and not `p` itself. -/
def Path.ProperlyAbove (a p : Text) : Prop := ∃ q, parent? p = some q ∧ Above a q

namespace FileTree

section Steps

variable {t : FileTree} {p : Text}

theorem isDirectory_iff :
    t.isDirectory p = true ↔ ∃ l, t.locate p = .ok l ∧ t.entry? l = some .directory := by
  unfold isDirectory entryAt?
  cases t.locate p with
  | error e => simp
  | ok l => simp

theorem makeDirectory_eq : t.makeDirectory p = match t.locate (trimSlashes p) with
    | .error e => .error e
    | .ok l => if (t.entry? l).isSome then .error .alreadyExists else .ok (t.put l .directory) := by
  show t.locate (trimSlashes p) >>= _ = _
  cases t.locate (trimSlashes p) with
  | error e => rfl
  | ok l =>
    dsimp only
    cases hentry : t.entry? l with
    | none =>
      show (if (t.entry? l).isSome then _ else _) = _
      simp [hentry, pure, Except.pure]
    | some e =>
      show (if (t.entry? l).isSome then _ else _) = _
      rw [if_pos (by simp [hentry])]
      rfl

theorem makeDirectory_of_entry {l : Location} {e : Entry}
    (hlocate : t.locate (trimSlashes p) = .ok l) (he : t.entry? l = some e) :
    t.makeDirectory p = .error .alreadyExists := by
  rw [makeDirectory_eq, hlocate]
  simp [he]

theorem makeDirectory_of_none {l : Location} (hlocate : t.locate (trimSlashes p) = .ok l)
    (hnone : t.entry? l = none) : t.makeDirectory p = .ok (t.put l .directory) := by
  rw [makeDirectory_eq, hlocate]
  simp [hnone]

theorem makeDirectory_of_error {e : OsError} (hlocate : t.locate (trimSlashes p) = .error e) :
    t.makeDirectory p = .error e := by
  rw [makeDirectory_eq, hlocate]

theorem makeDirectory_ok {u : FileTree} (h : t.makeDirectory p = .ok u) :
    ∃ l, t.locate (trimSlashes p) = .ok l ∧ t.entry? l = none ∧ u = t.put l .directory := by
  rw [makeDirectory_eq] at h
  split at h
  · cases h
  · rename_i l hlocate
    split at h
    · cases h
    · rename_i hnone
      cases h
      exact ⟨l, hlocate, by simpa using hnone, rfl⟩

theorem put_directory (ht : t.WellFormed) {l : Location} (hlocate : t.locate p = .ok l)
    (hnone : t.entry? l = none) : (t.put l .directory).WellFormed ∧
      ∀ m, FileTree.entry? (t.put l .directory) m =
        if m = l then some .directory else t.entry? m := by
  have hl : l ≠ [] := by
    rintro rfl
    cases hnone
  obtain ⟨habove, hnames⟩ := locate_parent ht hlocate
  exact ⟨ht.put hl hnames habove (.inl rfl), entry?_put t hl .directory⟩

end Steps

/-- The tree `u` is `t` with new directories, each where the path `p` or one above it leads. -/
structure Built (t u : FileTree) (p : Text) : Prop where
  wellFormed : u.WellFormed
  entry : ∀ l, u.entry? l = t.entry? l ∨
    t.entry? l = none ∧ u.entry? l = some .directory ∧ ∃ a, Path.Above a p ∧ u.locate a = .ok l

namespace Built

variable {t u v : FileTree} {p q : Text}

theorem refl (ht : t.WellFormed) : Built t t p := ⟨ht, fun _ => .inl rfl⟩

theorem directoriesIn (h : Built t u p) : t.DirectoriesIn u := by
  intro l hl
  rcases h.entry l with hkept | ⟨hnone, -, -⟩
  · rw [hkept, hl]
  · rw [hl] at hnone
    cases hnone

theorem fileAt?_eq (h : Built t u p) (l : Location) : u.fileAt? l = t.fileAt? l := by
  rcases h.entry l with hkept | ⟨hnone, hmade, -⟩
  · exact fileAt?_congr hkept
  · simp [fileAt?, hnone, hmade]

theorem trans (hpq : Path.parent? p = some q) (htu : Built t u q) (huv : Built u v p) :
    Built t v p := by
  refine ⟨huv.wellFormed, fun l => ?_⟩
  rcases huv.entry l with hkept | ⟨hnone, hmade, ha⟩
  · rcases htu.entry l with hold | ⟨hnone, hmade, a, ha, hlocate⟩
    · exact .inl (hkept.trans hold)
    · exact .inr ⟨hnone, hkept.trans hmade, a, .parent hpq ha,
        locate_mono huv.directoriesIn hlocate⟩
  · rcases htu.entry l with hold | ⟨-, hmade', -⟩
    · exact .inr ⟨hold ▸ hnone, hmade, ha⟩
    · rw [hmade'] at hnone
      cases hnone

end Built

section General

variable {t : FileTree}

theorem ensureDirectory_built (ht : t.WellFormed) (p : Text) : Built t (t.ensureDirectory p).1 p ∧
      ((t.ensureDirectory p).2 = none → (t.ensureDirectory p).1.isDirectory p = true) := by
  unfold ensureDirectory
  cases hmake : t.makeDirectory p with
  | error e =>
    dsimp only
    refine ⟨.refl ht, fun hnone => ?_⟩
    split at hnone
    · assumption
    · cases hnone
  | ok u =>
    obtain ⟨l, hlocate, hnone, rfl⟩ := makeDirectory_ok hmake
    obtain ⟨hwf, hentry⟩ := put_directory ht hlocate hnone
    have hmono : t.DirectoriesIn (t.put l .directory) := by
      intro m hm
      rw [hentry m, hm, ite_self]
    have hthere : FileTree.entry? (t.put l .directory) l = some .directory := by simp [hentry l]
    have hleads : (t.put l .directory).locate p = .ok l :=
      locate_of_trimSlashes hthere (locate_mono hmono hlocate)
    refine ⟨⟨hwf, fun m => ?_⟩, fun _ => isDirectory_iff.mpr ⟨l, hleads, hthere⟩⟩
    by_cases hm : m = l
    · subst hm
      exact .inr ⟨hnone, hthere, p, .self, hleads⟩
    · exact .inl (by simp [hentry m, hm])

theorem makeDirectoriesTo_built (ht : t.WellFormed) (depth : Nat) (p : Text) :
    Built t (makeDirectoriesTo depth t p).1 p ∧ ((makeDirectoriesTo depth t p).2 = none →
      (makeDirectoriesTo depth t p).1.isDirectory p = true) := by
  induction depth generalizing p with
  | zero => exact ensureDirectory_built ht p
  | succ depth ih =>
    rw [makeDirectoriesTo]
    split
    · rename_i above _ habove
      obtain ⟨hbuilt, -⟩ := ih above
      split
      · rename_i u hmake
        rw [hmake] at hbuilt
        obtain ⟨hensured, hdone⟩ := ensureDirectory_built hbuilt.wellFormed p
        exact ⟨hbuilt.trans habove hensured, hdone⟩
      · rename_i u e hmake
        rw [hmake] at hbuilt
        exact ⟨hbuilt.trans habove (.refl hbuilt.wellFormed), fun h => nomatch h⟩
    · exact ensureDirectory_built ht p

/-- Making directories adds directories on the way to the path and changes nothing else.  On success
there is a directory at the path. -/
theorem makeDirectories_built (ht : t.WellFormed) {p : Text} {u : FileTree}
    {refused : Option OsError} (h : t.makeDirectories p = (u, refused)) :
    Built t u p ∧ (refused = none → u.isDirectory p = true) := by
  have hbuilt := makeDirectoriesTo_built ht (Path.parts p).length p
  rwa [← makeDirectories, h] at hbuilt

theorem makeDirectoriesTo_eq_ensureDirectory {p : Text} (depth : Nat)
    (h : t.makeDirectory p ≠ .error .notFound) :
    makeDirectoriesTo depth t p = t.ensureDirectory p := by
  cases depth with
  | zero => rfl
  | succ depth =>
    rw [makeDirectoriesTo]
    split
    · rename_i hnotFound _
      exact absurd hnotFound h
    · rfl

theorem ensureDirectory_of_entry {p : Text} {l : Location} {e : Entry}
    (hlocate : t.locate p = .ok l) (he : t.entry? l = some e) :
    t.makeDirectory p = .error .alreadyExists ∧
      t.ensureDirectory p = (t, if e = .directory then none else some .alreadyExists) := by
  have hmake := makeDirectory_of_entry (locate_trimSlashes hlocate) he
  refine ⟨hmake, ?_⟩
  rw [ensureDirectory, hmake]
  dsimp only
  cases e with
  | directory => rw [if_pos (isDirectory_iff.mpr ⟨l, hlocate, he⟩), if_pos rfl]
  | file content =>
    have hnot : t.isDirectory p = false := by
      simp [isDirectory, entryAt?, hlocate, he]
    rw [if_neg (by simp [hnot]), if_neg (by simp)]

theorem makeDirectories_of_isDirectory {p : Text} (h : t.isDirectory p = true) :
    t.makeDirectories p = (t, none) := by
  obtain ⟨l, hlocate, hl⟩ := isDirectory_iff.mp h
  obtain ⟨hmake, hensure⟩ := ensureDirectory_of_entry hlocate hl
  rw [makeDirectories, makeDirectoriesTo_eq_ensureDirectory _ (by simp [hmake]), hensure,
    if_pos rfl]

end General

/-- There are directories at all places from `l` down along `m`, and nothing else has changed. -/
structure ExtendsTo (t u : FileTree) (l m : Location) : Prop where
  wellFormed : u.WellFormed
  entry : ∀ a, u.entry? a = if l <+: a ∧ a <+: l ++ m then some .directory else t.entry? a

namespace ExtendsTo

variable {t u v : FileTree} {l m : Location} {n : Text}

theorem refl (ht : t.WellFormed) (h : t.entry? (l ++ m) = some .directory) : ExtendsTo t t l m := by
  refine ⟨ht, fun a => ?_⟩
  split
  · rename_i ha
    exact ht.directory_of_isPrefix h ha.2
  · rfl

theorem directory (h : ExtendsTo t u l m) : u.entry? (l ++ m) = some .directory := by
  rw [h.entry, if_pos ⟨List.prefix_append l m, List.prefix_rfl⟩]

theorem directoriesIn (h : ExtendsTo t u l m) : t.DirectoriesIn u := by
  intro a ha
  rw [h.entry a, ha, ite_self]

theorem isFileAt_concat (h : ExtendsTo t u l m) (hend : t.isFileAt (l ++ (m ++ [n])) = false) :
    u.isFileAt (l ++ (m ++ [n])) = false := by
  rw [isFileAt, fileAt?_congr (t := t), ← isFileAt, hend]
  rw [h.entry, if_neg]
  rintro ⟨-, hlong⟩
  have hlength := hlong.length_le
  simp at hlength

theorem concat (h : ExtendsTo t u l m) (hv : v.WellFormed)
    (hentry : ∀ a, v.entry? a = if a = l ++ (m ++ [n]) then some .directory else u.entry? a) :
    ExtendsTo t v l (m ++ [n]) := by
  refine ⟨hv, fun a => ?_⟩
  rw [hentry, h.entry, ← List.append_assoc]
  by_cases ha : a = l ++ m ++ [n]
  · have hla : l <+: a := ⟨m ++ [n], by simp [ha]⟩
    rw [if_pos ha, if_pos ⟨hla, ha ▸ List.prefix_rfl⟩]
  · simp only [List.prefix_concat_iff, ha, if_false, false_or]

end ExtendsTo

section Below

variable {t : FileTree} {base : Text} {l : Location} {m : Location} {n : Text}

theorem trimSlashes_below (habsolute : isAbsolute base = true)
    (hm : ∀ k ∈ m ++ [n], Path.IsName k) :
    trimSlashes (below base (m ++ [n])) = below base (m ++ [n]) := by
  refine Path.trimSlashes_of_splitOn ?_
  rw [Path.splitOn_below habsolute hm (by simp)]
  have hn : n ≠ [] := (hm n (by simp)).1
  simpa [List.getLast?_cons, Path.Part.text] using hn

/-- Below a directory, the place of a path is followed from there. -/
theorem locate_trimSlashes_below (habsolute : isAbsolute base = true)
    (hbase : t.locate base = .ok l) (hm : ∀ k ∈ m ++ [n], Path.IsName k) :
    t.locate (trimSlashes (below base (m ++ [n]))) = t.follow l (m ++ [n]) := by
  rw [trimSlashes_below habsolute hm, locate_below habsolute hbase hm]

variable (ht : t.WellFormed) (habsolute : isAbsolute base = true) (hbase : t.locate base = .ok l)
include ht habsolute hbase

/-- A file on the way, or at its end, keeps all directories from being made. -/
theorem makeDirectories_below_blocked (hl : t.entry? l = some .directory) {k : Location}
    (hm : ∀ n ∈ m, Path.IsName n) (hk : k <+: m) (hfile : t.isFileAt (l ++ k) = true) :
    t.makeDirectories (below base m) =
      (t, some (if t.isFileAt (l ++ m) then .alreadyExists else .notADirectory)) := by
  rcases List.eq_nil_or_concat m with rfl | ⟨m, n, rfl⟩
  · rw [List.prefix_nil.mp hk, List.append_nil, isFileAt_eq_false_of_directory hl] at hfile
    cases hfile
  rw [List.concat_eq_append] at hm hk ⊢
  have hm' : ∀ a ∈ m, Path.IsName a := fun a ha => hm a (List.mem_append_left _ ha)
  rw [makeDirectories]
  by_cases hend : t.isFileAt (l ++ (m ++ [n])) = true
  · obtain ⟨content, hcontent⟩ := isFileAt_iff.mp hend
    have habove : t.entry? (l ++ m) = some .directory := by
      rw [← List.append_assoc] at hcontent
      exact ht.directory_above hcontent (by simp)
    have hlocate : t.locate (below base (m ++ [n])) = .ok (l ++ (m ++ [n])) := by
      rw [locate_below habsolute hbase hm]
      exact follow_names ht hm (by rwa [List.dropLast_concat])
    obtain ⟨hmake, hensure⟩ := ensureDirectory_of_entry hlocate hcontent
    rw [makeDirectoriesTo_eq_ensureDirectory _ (by simp [hmake]), hensure, if_neg (by simp),
      if_pos hend]
  · have hkm : k <+: m := by
      rcases List.prefix_concat_iff.mp hk with rfl | hkm
      · exact absurd hfile hend
      · exact hkm
    have hfollow : t.follow l (m ++ [n]) = .error .notADirectory :=
      follow_blocked ht hl hm' hkm hfile
    have hmake : t.makeDirectory (below base (m ++ [n])) = .error .notADirectory :=
      makeDirectory_of_error ((locate_trimSlashes_below habsolute hbase hm).trans hfollow)
    have hnot : t.isDirectory (below base (m ++ [n])) = false := by
      simp [isDirectory, entryAt?, locate_below habsolute hbase hm, hfollow]
    rw [makeDirectoriesTo_eq_ensureDirectory _ (by simp [hmake]), ensureDirectory, hmake,
      if_neg hend]
    simp [hnot]

/-- With a directory in front of it, the last directory of a path is made where nothing is. -/
theorem ensureDirectory_below (hm : ∀ k ∈ m ++ [n], Path.IsName k)
    (habove : t.entry? (l ++ m) = some .directory) (hfree : t.isFileAt (l ++ (m ++ [n])) = false) :
    t.makeDirectory (below base (m ++ [n])) ≠ .error .notFound ∧
    ∃ u, t.ensureDirectory (below base (m ++ [n])) = (u, none) ∧ u.WellFormed ∧
      ∀ a, u.entry? a = if a = l ++ (m ++ [n]) then some .directory else t.entry? a := by
  have hfollow : t.follow l (m ++ [n]) = .ok (l ++ (m ++ [n])) :=
    follow_names ht hm (by rwa [List.dropLast_concat])
  have hlocate : t.locate (below base (m ++ [n])) = .ok (l ++ (m ++ [n])) := by
    rw [locate_below habsolute hbase hm, hfollow]
  rcases t.entry_cases (l ++ (m ++ [n])) with hdirectory | hfile | hnone
  · obtain ⟨hmake, hensure⟩ := ensureDirectory_of_entry hlocate hdirectory
    refine ⟨by simp [hmake], t, by rw [hensure, if_pos rfl], ht, fun a => ?_⟩
    split
    · rename_i ha
      rw [ha, hdirectory]
    · rfl
  · rw [hfile] at hfree
    cases hfree
  · have hmake := makeDirectory_of_none
      ((locate_trimSlashes_below habsolute hbase hm).trans hfollow) hnone
    refine ⟨by simp [hmake], _, by rw [ensureDirectory, hmake], put_directory ht hlocate hnone⟩

/-- With no file on the way, all directories from `base` down are there in the end. -/
theorem makeDirectoriesTo_below (hl : t.entry? l = some .directory) (hm : ∀ n ∈ m, Path.IsName n)
    (hfree : ∀ k, k <+: m → t.isFileAt (l ++ k) = false) {depth : Nat} (hdepth : m.length ≤ depth) :
    ∃ u, makeDirectoriesTo depth t (below base m) = (u, none) ∧ ExtendsTo t u l m := by
  induction m using List.reverseRecOn generalizing depth with
  | nil =>
    have hlocate : t.locate (below base []) = .ok l := by
      rw [locate_below habsolute hbase (by simp)]
      rfl
    obtain ⟨hmake, hensure⟩ := ensureDirectory_of_entry hlocate hl
    refine ⟨t, ?_, .refl ht (by rwa [List.append_nil])⟩
    rw [makeDirectoriesTo_eq_ensureDirectory _ (by simp [hmake]), hensure, if_pos rfl]
  | append_singleton m n ih =>
    have hm' : ∀ a ∈ m, Path.IsName a := fun a ha => hm a (List.mem_append_left _ ha)
    have hfree' : ∀ k, k <+: m → t.isFileAt (l ++ k) = false := fun k hk =>
      hfree k (hk.trans (List.prefix_append m [n]))
    have hend : t.isFileAt (l ++ (m ++ [n])) = false := hfree _ List.prefix_rfl
    by_cases habove : t.entry? (l ++ m) = some .directory
    · obtain ⟨hmake, u, hensure, hu, hentry⟩ :=
        ensureDirectory_below ht habsolute hbase hm habove hend
      refine ⟨u, ?_, (ExtendsTo.refl ht habove).concat hu hentry⟩
      rw [makeDirectoriesTo_eq_ensureDirectory _ hmake, hensure]
    · cases depth with
      | zero => simp at hdepth
      | succ depth =>
        obtain ⟨u, hmakeAbove, hu⟩ := ih hm' hfree' (by simpa using hdepth)
        obtain ⟨-, v, hensure, hv, hentry⟩ := ensureDirectory_below hu.wellFormed habsolute
          (locate_mono hu.directoriesIn hbase) hm hu.directory (hu.isFileAt_concat hend)
        have hmissing : t.makeDirectory (below base (m ++ [n])) = .error .notFound :=
          makeDirectory_of_error ((locate_trimSlashes_below habsolute hbase hm).trans
            (follow_missing hl hm' hfree' habove))
        refine ⟨v, ?_, hu.concat hv hentry⟩
        rw [makeDirectoriesTo, hmissing, Path.parent?_below habsolute hm]
        dsimp only
        rw [hmakeAbove]
        exact hensure

theorem makeDirectories_below (hl : t.entry? l = some .directory) (hm : ∀ n ∈ m, Path.IsName n)
    (hfree : ∀ k, k <+: m → t.isFileAt (l ++ k) = false) :
    ∃ u, t.makeDirectories (below base m) = (u, none) ∧ u.WellFormed ∧
      ∀ a, u.entry? a = if l <+: a ∧ a <+: l ++ m then some .directory else t.entry? a := by
  obtain ⟨u, hmake, hu⟩ := makeDirectoriesTo_below ht habsolute hbase hl hm hfree
    (show m.length ≤ (Path.parts (below base m)).length by simp [Path.parts_below habsolute hm])
  exact ⟨u, hmake, hu.wellFormed, hu.entry⟩

end Below

end FileTree

end Declass
