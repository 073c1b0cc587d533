import Declass.Proofs.RunFrames

/-!
# The targets of a run

**Input.** Settings with absolute paths, a tree in which the output directory is there, and files
below the input directory, in any order.

**Algorithm.** Each file is stored below the output directory at the place where it lies below the
input directory.  No file lies below another, so the ways to two targets share directories only, and
what keeps one file from being stored (`obstacle?`) is not changed by storing another.

**Results.**
* `store_below`: a text is stored with the directories on its way, or nothing is changed at all.
* `laid_convertAll`: after any list of files, the targets of those that were taken hold their new
  texts, the ways to them are directories, and every other entry is as before.
* `Around.obstacle?_eq`: what is in the way of a file is the same before and afterwards.
* `convertAll_outcomes`: if no file lies below the output directory, or if that is the input
  directory, the outcome of each file is what it would be if it came first.
-/

namespace Declass

/-- What keeps a text from being stored below a directory: a file in the place of the directory that
would hold it, a file further up, or a directory in its own place. -/
def FileTree.obstacle? (t : FileTree) (output r : Location) : Option OsError :=
  if t.isFileAt (output ++ r.dropLast) then some .alreadyExists
  else if r.dropLast.inits.any fun k => t.isFileAt (output ++ k) then some .notADirectory
  else if t.entry? (output ++ r) = some .directory then some .isADirectory
  else none

namespace Run

section Obstacles

variable {t u : FileTree} {output r : Location}

theorem obstacle?_eq_none_iff : t.obstacle? output r = none ↔
    (∀ k, k <+: r.dropLast → t.isFileAt (output ++ k) = false) ∧
      t.entry? (output ++ r) ≠ some .directory := by
  unfold FileTree.obstacle?
  constructor
  · intro h
    split at h
    · cases h
    · split at h
      · cases h
      · rename_i hfree
        split at h
        · cases h
        · rename_i hplace
          refine ⟨fun k hk => ?_, hplace⟩
          simp only [List.any_eq_true, List.mem_inits, not_exists, not_and,
            Bool.not_eq_true] at hfree
          exact hfree k hk
  · rintro ⟨hfree, hplace⟩
    have hany : ¬ (r.dropLast.inits.any fun k => t.isFileAt (output ++ k)) := by
      simpa [List.mem_inits] using hfree
    rw [if_neg (by simp [hfree _ List.prefix_rfl]), if_neg hany, if_neg hplace]

/-- What keeps a text from being stored depends on which places on its way are files, and on whether
its own place is a directory. -/
theorem obstacle?_congr
    (hway : ∀ k, k <+: r.dropLast → u.isFileAt (output ++ k) = t.isFileAt (output ++ k))
    (hplace : u.entry? (output ++ r) = some .directory ↔ t.entry? (output ++ r) = some .directory) :
    u.obstacle? output r = t.obstacle? output r := by
  unfold FileTree.obstacle?
  have hany : (r.dropLast.inits.any fun k => u.isFileAt (output ++ k)) =
      r.dropLast.inits.any fun k => t.isFileAt (output ++ k) := by
    rw [Bool.eq_iff_iff, List.any_eq_true, List.any_eq_true]
    refine exists_congr fun k => and_congr_right fun hk => ?_
    rw [hway k ((List.mem_inits k r.dropLast).mp hk)]
  rw [hway _ List.prefix_rfl, hany]
  simp only [hplace]

theorem obstacle?_of_blocked {k : Location} (hk : k <+: r.dropLast)
    (hfile : t.isFileAt (output ++ k)) : t.obstacle? output r =
      some (if t.isFileAt (output ++ r.dropLast) then .alreadyExists else .notADirectory) := by
  have hany : (r.dropLast.inits.any fun k => t.isFileAt (output ++ k)) :=
    List.any_eq_true.mpr ⟨k, (List.mem_inits k r.dropLast).mpr hk, hfile⟩
  rw [FileTree.obstacle?]
  split <;> rfl

theorem obstacle?_of_directory (hfree : ∀ k, k <+: r.dropLast → t.isFileAt (output ++ k) = false)
    (hplace : t.entry? (output ++ r) = some .directory) :
    t.obstacle? output r = some .isADirectory := by
  have hany : ¬ (r.dropLast.inits.any fun k => t.isFileAt (output ++ k)) := by
    simpa [List.mem_inits] using hfree
  rw [FileTree.obstacle?, if_neg (by simp [hfree _ List.prefix_rfl]), if_neg hany, if_pos hplace]

end Obstacles

/-- The tree is ready for files to be stored: the path of the output directory leads to a
directory. -/
structure Ready (s : Settings) (output : Location) (t : FileTree) : Prop where
  wellFormed : t.WellFormed
  leads : t.locate s.output = .ok output
  directory : t.entry? output = some .directory

section Storing

variable {s : Settings} {t : FileTree} {output r : Location}

theorem locate_targetPath (houtput : t.locate s.output = .ok output) (hne : r ≠ [])
    (hr : ∀ n ∈ r, Path.IsName n) : t.locate (targetPath s r) = t.follow output r :=
  FileTree.locate_join_ofNames houtput hne hr

theorem parent?_targetPath (habsolute : Path.isAbsolute s.output) (hne : r ≠ [])
    (hr : ∀ n ∈ r, Path.IsName n) :
    Path.parent? (targetPath s r) = some (Path.below s.output r.dropLast) := by
  rw [← List.dropLast_append_getLast hne] at hr
  have hparent := Path.parent?_join_ofNames habsolute hr
  rwa [List.dropLast_append_getLast hne] at hparent

/-- The places from the output directory to a target are those to the one above it, and the
target. -/
theorem onWay_iff (hne : r ≠ []) {l : Location} : (output <+: l ∧ l <+: output ++ r) ↔
    l = output ++ r ∨ (output <+: l ∧ l <+: output ++ r.dropLast) := by
  have hsplit : output ++ r = output ++ r.dropLast ++ [r.getLast hne] := by
    rw [List.append_assoc, List.dropLast_append_getLast hne]
  rw [hsplit, List.prefix_concat_iff, ← hsplit]
  constructor
  · rintro ⟨hl, heq | hlong⟩
    · exact .inl heq
    · exact .inr ⟨hl, hlong⟩
  · rintro (rfl | ⟨hl, hlong⟩)
    · exact ⟨List.prefix_append _ _, .inl rfl⟩
    · exact ⟨hl, .inr hlong⟩

variable (ht : Ready s output t) (habsolute : Path.isAbsolute s.output) (hne : r ≠ [])
  (hr : ∀ n ∈ r, Path.IsName n)
include ht habsolute hne hr

/-- With no file on the way, the directories above a target are made; the target stays as it is, and
its path leads to it. -/
theorem makeDirectories_way (hfree : ∀ k, k <+: r.dropLast → t.isFileAt (output ++ k) = false) :
    ∃ u, t.makeDirectories ((Path.parent? (targetPath s r)).getD []) = (u, none) ∧
      (∀ l, u.entry? l = if output <+: l ∧ l <+: output ++ r.dropLast then some .directory
        else t.entry? l) ∧ u.locate (targetPath s r) = .ok (output ++ r) ∧
      u.entry? (output ++ r) = t.entry? (output ++ r) := by
  have hm : ∀ n ∈ r.dropLast, Path.IsName n := fun n hn =>
    hr n ((List.dropLast_sublist r).subset hn)
  obtain ⟨u, hmake, hu, hentry⟩ :=
    FileTree.makeDirectories_below ht.wellFormed habsolute ht.leads ht.directory hm hfree
  have hmono : t.DirectoriesIn u := by
    intro a ha
    rw [hentry a, ha, ite_self]
  refine ⟨u, by rw [parent?_targetPath habsolute hne hr, Option.getD_some, hmake], hentry, ?_, ?_⟩
  · rw [locate_targetPath (FileTree.locate_mono hmono ht.leads) hne hr]
    refine FileTree.follow_names hu hr ?_
    rw [hentry, if_pos ⟨List.prefix_append _ _, List.prefix_rfl⟩]
  · rw [hentry, if_neg]
    rintro ⟨-, hlong⟩
    have hlength := (List.prefix_append_right_inj output |>.mp hlong).length_le
    have hpos := List.length_pos_iff.mpr hne
    rw [List.length_dropLast] at hlength
    omega

/-- A text is stored below the output directory with the directories on its way, or it is refused
and nothing has changed. -/
theorem store_below (content : Text) : (store t (targetPath s r) content).2 = t.obstacle? output r ∧
    ∀ l, FileTree.entry? (store t (targetPath s r) content).1 l =
      if t.obstacle? output r = none then
        if l = output ++ r then some (.file (.text content))
        else if output <+: l ∧ l <+: output ++ r then some .directory
        else t.entry? l
      else t.entry? l := by
  unfold store
  by_cases hfree : ∀ k, k <+: r.dropLast → t.isFileAt (output ++ k) = false
  · obtain ⟨u, hmake, hentry, hlocate, hplace⟩ := makeDirectories_way ht habsolute hne hr hfree
    rw [hmake]
    dsimp only
    by_cases hthere : t.entry? (output ++ r) = some .directory
    · -- The target is a directory, so the directories above it were there already.
      rw [write_of_directory hlocate (hplace.trans hthere), obstacle?_of_directory hfree hthere]
      refine ⟨rfl, fun l => ?_⟩
      rw [hentry l]
      split
      · rename_i hl
        exact (ht.wellFormed.directory_of_isPrefix hthere ((onWay_iff hne).mpr (.inr hl)).2).symm
      · rfl
    · rw [write_of_free hlocate (hplace ▸ hthere), obstacle?_eq_none_iff.mpr ⟨hfree, hthere⟩]
      refine ⟨rfl, fun l => ?_⟩
      rw [if_pos rfl, FileTree.entry?_put u (by simp [hne]), hentry l]
      split
      · rfl
      · rename_i hl
        simp only [onWay_iff hne, hl, false_or]
  · -- A file is in the way: no directory is made.
    obtain ⟨k, hk, hfile⟩ : ∃ k, k <+: r.dropLast ∧ t.isFileAt (output ++ k) := by
      simpa using hfree
    have hm : ∀ n ∈ r.dropLast, Path.IsName n := fun n hn =>
      hr n ((List.dropLast_sublist r).subset hn)
    rw [parent?_targetPath habsolute hne hr, Option.getD_some,
      FileTree.makeDirectories_below_blocked ht.wellFormed habsolute ht.leads ht.directory hm hk
        hfile, obstacle?_of_blocked hk hfile]
    exact ⟨rfl, fun l => by simp⟩

end Storing

section Files

variable {s : Settings} {t : FileTree} {output r : Location}

theorem Ready.convertFile (ht : Ready s output t) (hreal : s.dryRun = false) (r : Location) :
    Ready s output (convertFile s r t).2 := by
  have hwrote := wrote_convertFile hreal r ht.wellFormed
  exact ⟨hwrote.wellFormed, FileTree.locate_mono hwrote.directoriesIn ht.leads,
    hwrote.directoriesIn _ ht.directory⟩

/-- The outcome of a file, from what it reads as and what is in the way of its target. -/
theorem convertFile_outcome (ht : Ready s output t) (habsolute : Path.isAbsolute s.output)
    (hreal : s.dryRun = false) (hne : r ≠ []) (hr : ∀ n ∈ r, Path.IsName n) :
    (convertFile s r t).1 = outcomeOf s r (t.read (sourcePath s r)) (t.obstacle? output r) := by
  rw [convertFile_eq hreal]
  split
  · rw [(store_below ht habsolute hne hr _).1]
  · rename_i hhanded
    exact outcomeOf_of_not_handed (by simpa using hhanded) _ _

/-- What has become of the tree `t` below the output directory when the files with the given
outcomes have been converted. -/
structure Laid (s : Settings) (output : Location) (t u : FileTree) (outcomes : List FileOutcome) :
    Prop where
  text : ∀ o ∈ outcomes, o.report.status.isTaken = true →
    u.entry? (output ++ o.relative) = some (.file (.text (newText s o.relative o.source)))
  way : ∀ o ∈ outcomes, o.report.status.isTaken = true → ∀ l, output <+: l →
    l <+: output ++ o.relative → l ≠ output ++ o.relative → u.entry? l = some .directory
  rest : ∀ l, (∀ o ∈ outcomes, o.report.status.isTaken = true →
    ¬ (output <+: l ∧ l <+: output ++ o.relative)) → u.entry? l = t.entry? l

/-- One file: its target and the way there, or nothing. -/
theorem laid_convertFile (ht : Ready s output t) (habsolute : Path.isAbsolute s.output)
    (hreal : s.dryRun = false) (hne : r ≠ []) (hr : ∀ n ∈ r, Path.IsName n) :
    Laid s output t (convertFile s r t).2 [(convertFile s r t).1] := by
  rw [convertFile_eq hreal]
  split
  · rename_i hhanded
    obtain ⟨hrefused, hentry⟩ :=
      store_below ht habsolute hne hr (handedText s r (t.read (sourcePath s r)))
    have htaken :
        (outcomeOf s r (t.read (sourcePath s r)) (t.obstacle? output r)).report.status.isTaken =
          true → t.obstacle? output r = none := by
      rw [isTaken_outcomeOf]
      simp
    rw [hrefused]
    refine ⟨?_, ?_, ?_⟩
    · simp only [List.forall_mem_singleton, outcomeOf_relative, newText_outcomeOf hhanded]
      intro h
      rw [hentry, if_pos (htaken h), if_pos rfl]
    · simp only [List.forall_mem_singleton, outcomeOf_relative]
      intro h l hl hlong hplace
      rw [hentry, if_pos (htaken h), if_neg hplace, if_pos ⟨hl, hlong⟩]
    · simp only [List.forall_mem_singleton, outcomeOf_relative, isTaken_outcomeOf, hhanded,
        Bool.true_and, Option.isNone_iff_eq_none]
      intro l hfree
      rw [hentry]
      split
      · rename_i hnone
        have hoff := hfree hnone
        have hplace : l ≠ output ++ r := by
          rintro rfl
          exact hoff ⟨List.prefix_append _ _, List.prefix_rfl⟩
        rw [if_neg hplace, if_neg hoff]
      · rfl
  · rename_i hhanded
    have hnot : (outcomeOf s r (t.read (sourcePath s r)) none).report.status.isTaken = false := by
      rw [isTaken_outcomeOf]
      simp [hhanded]
    refine ⟨?_, ?_, fun _ _ => rfl⟩
    · simp [hnot]
    · simp [hnot]

/-- A file and then others, none of which lies above or below it. -/
theorem Laid.cons {u v : FileTree} {o : FileOutcome} {outcomes : List FileOutcome}
    (htu : Laid s output t u [o]) (huv : Laid s output u v outcomes)
    (hapart : ∀ o' ∈ outcomes, ¬ o.relative <+: o'.relative ∧ ¬ o'.relative <+: o.relative) :
    Laid s output t v (o :: outcomes) := by
  refine ⟨List.forall_mem_cons.mpr ⟨fun htaken => ?_, huv.text⟩,
    List.forall_mem_cons.mpr ⟨fun htaken l hl hlong hplace => ?_, huv.way⟩, fun l hfree => ?_⟩
  · rw [huv.rest _ fun o' ho' _ hway => (hapart o' ho').1 ?_, htu.text o (by simp) htaken]
    exact (List.prefix_append_right_inj output).mp hway.2
  · by_cases hshared : ∃ o' ∈ outcomes, o'.report.status.isTaken ∧
        output <+: l ∧ l <+: output ++ o'.relative
    · obtain ⟨o', ho', htaken', -, hlong'⟩ := hshared
      refine huv.way o' ho' htaken' l hl hlong' fun heq => (hapart o' ho').2 ?_
      exact (List.prefix_append_right_inj output).mp (heq ▸ hlong)
    · rw [huv.rest l fun o' ho' htaken' hway => hshared ⟨o', ho', htaken', hway⟩]
      exact htu.way o (by simp) htaken l hl hlong hplace
  · obtain ⟨hhead, hrest⟩ := List.forall_mem_cons.mp hfree
    rw [huv.rest l hrest, htu.rest l (by simpa using hhead)]

/-- All files, in any order. -/
theorem laid_convertAll (habsolute : Path.isAbsolute s.output) (hreal : s.dryRun = false)
    {tree : FileTree} {input : Location} (htree : tree.WellFormed) {files : List Location}
    (hfiles : Inputs tree input files) (ht : Ready s output t) :
    Laid s output t (convertAll s files t).2 (convertAll s files t).1 := by
  induction files generalizing t with
  | nil => exact ⟨by simp [convertAll], by simp [convertAll], fun _ _ => rfl⟩
  | cons r rest ih =>
    have hr := hfiles.isName htree (List.mem_cons_self)
    have hfirst := laid_convertFile ht habsolute hreal (hfiles.file r List.mem_cons_self).1 hr
    refine hfirst.cons (ih (hfiles.tail rfl) (ht.convertFile hreal r)) fun o' ho' => ?_
    have hmem : o'.relative ∈ rest := relative_mem_of_convertAll ho'
    have hne : r ≠ o'.relative := fun h => (List.nodup_cons.mp hfiles.nodup).1 (h ▸ hmem)
    rw [convertFile_relative]
    refine ⟨fun h => hne ?_, fun h => hne ?_⟩
    · exact hfiles.eq_of_isPrefix htree List.mem_cons_self (List.mem_cons_of_mem _ hmem) h
    · exact (hfiles.eq_of_isPrefix htree (List.mem_cons_of_mem _ hmem) List.mem_cons_self h).symm

end Files

section Surroundings

variable {s : Settings} {t u : FileTree} {output : Location} {outcomes : List FileOutcome}

/-- The ways to the targets of the files that were taken are directories, their own places are none,
and every other entry is as in `t`. -/
structure Around (output : Location) (t u : FileTree) (outcomes : List FileOutcome) : Prop where
  place : ∀ o ∈ outcomes, o.report.status.isTaken = true →
    u.entry? (output ++ o.relative) ≠ some .directory
  way : ∀ o ∈ outcomes, o.report.status.isTaken = true → ∀ l, output <+: l →
    l <+: output ++ o.relative → l ≠ output ++ o.relative → u.entry? l = some .directory
  rest : ∀ l, (∀ o ∈ outcomes, o.report.status.isTaken = true →
    ¬ (output <+: l ∧ l <+: output ++ o.relative)) → u.entry? l = t.entry? l

theorem Laid.around (h : Laid s output t u outcomes) : Around output t u outcomes :=
  ⟨fun o ho htaken => by simp [h.text o ho htaken], h.way, h.rest⟩

theorem prefix_dropLast {k r : Location} (hk : k <+: r) (hne : k ≠ r) : k <+: r.dropLast := by
  obtain ⟨m, rfl⟩ := hk
  have hm : m ≠ [] := fun hm => hne (by simp [hm])
  rw [List.dropLast_append_of_ne_nil hm]
  exact List.prefix_append _ _

/-- What is in the way of a file is the same before and after files have been taken. -/
theorem Around.obstacle?_eq {tree : FileTree} {input : Location} {files : List Location}
    (h : Around output t u outcomes) (htree : tree.WellFormed) (hfiles : Inputs tree input files)
    (hmem : ∀ o ∈ outcomes, o.relative ∈ files)
    (hfree : ∀ o ∈ outcomes, o.report.status.isTaken → t.obstacle? output o.relative = none)
    {r : Location} (hr : r ∈ files) : u.obstacle? output r = t.obstacle? output r := by
  have hcancel : ∀ {k m : Location}, output ++ k <+: output ++ m ↔ k <+: m :=
    List.prefix_append_right_inj output
  refine obstacle?_congr (fun k hk => ?_) ?_
  · by_cases hon : ∃ o ∈ outcomes, o.report.status.isTaken ∧ k <+: o.relative
    · -- A place on both ways: no file is there before, and a directory is there afterwards.
      obtain ⟨o, ho, htaken, hko⟩ := hon
      have hkne : k ≠ o.relative := by
        rintro rfl
        have hlong : o.relative <+: r := hk.trans (List.dropLast_prefix r)
        rw [hfiles.eq_of_isPrefix htree (hmem o ho) hr hlong] at hk
        have hlength := hk.length_le
        have hpos := List.length_pos_iff.mpr (hfiles.file r hr).1
        rw [List.length_dropLast] at hlength
        omega
      have hafter : u.entry? (output ++ k) = some .directory :=
        h.way o ho htaken _ (List.prefix_append _ _) (hcancel.mpr hko)
          fun heq => hkne (List.append_cancel_left heq)
      rw [FileTree.isFileAt_eq_false_of_directory hafter,
        (obstacle?_eq_none_iff.mp (hfree o ho htaken)).1 k (prefix_dropLast hko hkne)]
    · rw [FileTree.isFileAt, FileTree.isFileAt, FileTree.fileAt?_congr (h.rest _ ?_)]
      rintro o ho htaken ⟨-, hway⟩
      exact hon ⟨o, ho, htaken, hcancel.mp hway⟩
  · by_cases hon : ∃ o ∈ outcomes, o.report.status.isTaken ∧ r <+: o.relative
    · obtain ⟨o, ho, htaken, hro⟩ := hon
      obtain rfl := hfiles.eq_of_isPrefix htree hr (hmem o ho) hro
      exact iff_of_false (h.place o ho htaken) (obstacle?_eq_none_iff.mp (hfree o ho htaken)).2
    · rw [h.rest _ ?_]
      rintro o ho htaken ⟨-, hway⟩
      exact hon ⟨o, ho, htaken, hcancel.mp hway⟩

end Surroundings

section Independence

variable {s : Settings} {t : FileTree} {input output : Location} {files : List Location}

/-- No file lies below the output directory, or that is the input directory itself. -/
def Apart (input output : Location) (files : List Location) : Prop :=
  (∀ r ∈ files, ¬ output <+: input ++ r) ∨ output = input

theorem read_congr {u : FileTree} {p : Text} {l : Location} (ht : t.locate p = .ok l)
    (hu : u.locate p = .ok l) (hentry : u.entry? l = t.entry? l) : u.read p = t.read p := by
  unfold FileTree.read
  rw [ht, hu]
  simp only [bind, Except.bind, hentry]

/-- Storing one file changes neither what another reads as nor what is in its way. -/
theorem convertFile_apart {tree : FileTree} (htree : tree.WellFormed)
    (hfiles : Inputs tree input files) (hapart : Apart input output files)
    (habsolute : Path.isAbsolute s.output) (hreal : s.dryRun = false)
    (ht : Ready s output t) {r r' : Location} (hr : r ∈ files) (hr' : r' ∈ files) (hne : r ≠ r')
    (hsource : t.locate (sourcePath s r') = .ok (input ++ r')) :
    (convertFile s r t).2.read (sourcePath s r') = t.read (sourcePath s r') ∧
    (convertFile s r t).2.obstacle? output r' = t.obstacle? output r' := by
  have hnames := hfiles.isName htree hr
  have hlaid := laid_convertFile ht habsolute hreal (hfiles.file r hr).1 hnames
  have hwrote := wrote_convertFile hreal r ht.wellFormed
  constructor
  · refine read_congr hsource (FileTree.locate_mono hwrote.directoriesIn hsource) (hlaid.rest _ ?_)
    simp only [List.forall_mem_singleton, convertFile_relative]
    rintro - ⟨hbelow, hway⟩
    rcases hapart with hapart | rfl
    · exact hapart r' hr' hbelow
    · exact hne (hfiles.eq_of_isPrefix htree hr' hr
        ((List.prefix_append_right_inj output).mp hway)).symm
  · refine hlaid.around.obstacle?_eq htree hfiles ?_ ?_ hr'
    · simpa only [List.forall_mem_singleton, convertFile_relative] using hr
    · simp only [List.forall_mem_singleton, convertFile_relative]
      intro htaken
      rw [convertFile_outcome ht habsolute hreal (hfiles.file r hr).1 hnames,
        isTaken_outcomeOf] at htaken
      simpa using (Bool.and_eq_true_iff.mp htaken).2

/-- If no file lies below the output directory, or if that is the input directory, every file has
the outcome that it would have if it came first. -/
theorem convertAll_outcomes {tree : FileTree} (htree : tree.WellFormed)
    (hfiles : Inputs tree input files) (hapart : Apart input output files)
    (habsolute : Path.isAbsolute s.output) (hreal : s.dryRun = false) (ht : Ready s output t)
    (hsource : ∀ r ∈ files, t.locate (sourcePath s r) = .ok (input ++ r)) :
    (convertAll s files t).1 = files.map fun r =>
      outcomeOf s r (t.read (sourcePath s r)) (t.obstacle? output r) := by
  induction files generalizing t with
  | nil => rfl
  | cons r rest ih =>
    have hrest : Inputs tree input rest := hfiles.tail rfl
    have hapart' : Apart input output rest :=
      hapart.imp_left fun h r' hr' => h r' (List.mem_cons_of_mem _ hr')
    have hwrote := wrote_convertFile hreal r ht.wellFormed
    rw [convertAll_cons, convertFile_outcome ht habsolute hreal
      (hfiles.file r List.mem_cons_self).1 (hfiles.isName htree List.mem_cons_self),
      ih hrest hapart' (ht.convertFile hreal r) fun r' hr' =>
        FileTree.locate_mono hwrote.directoriesIn (hsource r' (List.mem_cons_of_mem _ hr'))]
    refine congrArg _ (List.map_congr_left fun r' hr' => ?_)
    have hne : r ≠ r' := fun h => (List.nodup_cons.mp hfiles.nodup).1 (h ▸ hr')
    obtain ⟨hread, hobstacle⟩ := convertFile_apart htree hfiles hapart habsolute hreal ht
      List.mem_cons_self (List.mem_cons_of_mem _ hr') hne (hsource r' (List.mem_cons_of_mem _ hr'))
    rw [hread, hobstacle]

end Independence

end Run

end Declass
