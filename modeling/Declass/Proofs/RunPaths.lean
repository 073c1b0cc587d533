import Declass.Proofs.RunTargets

/-!
# The directories of a run

**Input.** Arguments and a directory in which the program was started, and a well-formed file tree.

**Algorithm.** The paths of the input and the output directory are compared as they are written: a
file is left out if its path is under that of the output directory.  What counts for the files is
where the paths lead.

**Results.**
* `isAbsolute_of_settings`: started in an absolute directory, a run has absolute paths only.
* `Found.eq_of_below`: without two dots in the paths, no file that was found lies below the output
  directory, unless that is the input directory.
* `Found.not_cleaned`: in that case the run does not clean.
* `Found.convertAll_outcomes`: what becomes of every file, by its text before the run.
-/

namespace Declass

namespace Path

variable {base base' : Text} {r r' : List Text}

theorem fileName?_join_ofNames (hbase : isAbsolute base) (hne : r ≠ [])
    (hr : ∀ n ∈ r, IsName n) : fileName? (join base (ofNames r)) = some (r.getLast hne) := by
  have hlast : (parts (join base (ofNames r))).getLast? = some (.name (r.getLast hne)) := by
    rw [parts_join_ofNames hbase hr, List.getLast?_append, List.getLast?_map,
      List.getLast?_eq_getLast_of_ne_nil hne]
    rfl
  unfold fileName?
  rw [hlast]

/-- The extension of a file below a directory is that of its last name. -/
theorem extension?_congr (hbase : isAbsolute base) (hbase' : isAbsolute base')
    (hne : r ≠ []) (hne' : r' ≠ []) (hr : ∀ n ∈ r, IsName n) (hr' : ∀ n ∈ r', IsName n)
    (hlast : r.getLast hne = r'.getLast hne') :
    extension? (join base (ofNames r)) = extension? (join base' (ofNames r')) := by
  unfold extension?
  rw [fileName?_join_ofNames hbase hne hr, fileName?_join_ofNames hbase' hne' hr', hlast]

end Path

namespace Run

section Settings

variable {started : Text} {args : Arguments} {tree : FileTree} {s : Settings}

theorem isAbsolute_of_settings (hstarted : Path.isAbsolute started)
    (h : settingsOf started args tree = .ok s) :
    Path.isAbsolute s.input ∧ Path.isAbsolute s.output := by
  obtain ⟨config, -, h⟩ := bind_eq_ok h
  have hworkspace : Path.isAbsolute (workspaceOf started args) := Path.isAbsolute_join hstarted
  split at h
  · cases h
  · rename_i settings hresolve
    cases h
    obtain ⟨receivers, -, hresolve⟩ := bind_eq_ok hresolve
    cases hresolve
    exact ⟨Path.isAbsolute_join hworkspace, Path.isAbsolute_join hworkspace⟩

end Settings

/-- Files that a run has found below its input directory, in any order. -/
structure Found (s : Settings) (ignored : List Glob) (tree : FileTree) (input : Location)
    (files : List Location) : Prop where
  leads : tree.locate s.input = .ok input
  inputs : Inputs tree input files
  chosen : ∀ r ∈ files, isChosen s ignored r = true

section Sources

variable {s : Settings} {ignored : List Glob} {tree t : FileTree} {input output : Location}
  {files : List Location}

theorem found_filter (htree : tree.WellFormed) (hleads : tree.locate s.input = .ok input) :
    Found s ignored tree input ((tree.filesBelow input).filter (isChosen s ignored)) :=
  ⟨hleads, .of_filter htree input _, fun _ hr => (List.mem_filter.mp hr).2⟩

theorem Found.subperm (h : Found s ignored tree input files) {done : List Location}
    (hdone : done.Subperm files) : Found s ignored tree input done :=
  ⟨h.leads, h.inputs.subperm hdone, fun r hr => h.chosen r (hdone.subset hr)⟩

theorem Found.locate_sourcePath (h : Found s ignored tree input files) (htree : tree.WellFormed)
    {r : Location} (hr : r ∈ files) : tree.locate (sourcePath s r) = .ok (input ++ r) := by
  have hnames := h.inputs.isName htree hr
  obtain ⟨hne, hfile⟩ := h.inputs.file r hr
  obtain ⟨content, hcontent⟩ := FileTree.isFileAt_iff.mp hfile
  rw [sourcePath, FileTree.locate_join_ofNames h.leads hne hnames]
  refine FileTree.follow_names htree hnames ?_
  have habove := htree.dropLast_directory hcontent
  rwa [List.dropLast_append_of_ne_nil hne] at habove

theorem isChosen_spelling {r : Location} (h : isChosen s ignored r) :
    s.hasExtension (sourcePath s r) ∧ (Path.isSame s.output s.input ∨
        Path.isUnder (sourcePath s r) s.output = false) := by
  unfold isChosen at h
  simp only [Bool.and_eq_true, Bool.or_eq_true, Bool.not_eq_true'] at h
  exact ⟨h.1.1.2, h.1.2⟩

variable (h : Found s ignored tree input files) (htree : tree.WellFormed)
  (hplain : Path.IsPlain s.input) (hplain' : Path.IsPlain s.output)
  (houtput : t.locate s.output = .ok output)
include h htree hplain hplain' houtput

/-- A file that is chosen does not lie below the output directory, unless that is the input
directory: without two dots, the parts of the paths say where they lead. -/
theorem Found.eq_of_below {r : Location} (hr : r ∈ files) (hbelow : output <+: input ++ r) :
    Path.isSame s.output s.input ∧ output = input := by
  have hinputParts := FileTree.parts_of_locate hplain h.leads
  have houtputParts := FileTree.parts_of_locate hplain' houtput
  have hsourceParts : Path.parts (sourcePath s r) = .root :: (input ++ r).map .name := by
    rw [sourcePath, Path.parts_join_ofNames hplain.1 (h.inputs.isName htree hr), hinputParts,
      List.map_append, List.cons_append]
  rcases (isChosen_spelling (h.chosen r hr)).2 with hsame | hunder
  · exact ⟨hsame, (FileTree.isSame_iff houtputParts hinputParts).mp hsame⟩
  · rw [(FileTree.isUnder_iff hsourceParts houtputParts).mpr hbelow] at hunder
    cases hunder

/-- Without two dots in the paths, the files that are chosen are apart from the output. -/
theorem Found.apart : Apart input output files := by
  by_cases hsame : output = input
  · exact .inr hsame
  · exact .inl fun r hr hbelow =>
      hsame (h.eq_of_below htree hplain hplain' houtput hr hbelow).2

end Sources

section Preparation

variable {s : Settings} {ignored : List Glob} {tree t : FileTree} {input output : Location}
  {files : List Location}

theorem ready_of_prepare (htree : tree.WellFormed) (h : prepare s tree = (t, none)) :
    ∃ output, Ready s output t := by
  obtain ⟨hwf, -, output, hleads, hthere⟩ := prepare_output htree h
  exact ⟨output, hwf, hleads, hthere⟩

/-- Preparing leaves files alone that do not lie below the output directory, and all files if it
does not clean. -/
theorem fileAt?_of_prepare (htree : tree.WellFormed) (h : prepare s tree = (t, none))
    (houtput : t.locate s.output = .ok output) {l : Location}
    (hl : isCleaned s tree = false ∨ ¬ (output <+: l ∧ output ≠ l)) :
    t.fileAt? l = tree.fileAt? l := by
  rcases prepare_ok h with ⟨hclean, -, rfl⟩ | ⟨-, hmake⟩
  · rcases clean_cases s tree l with ⟨⟨-, output', r, houtput', rfl, hne, -⟩, -⟩ | ⟨-, hkept⟩
    · rw [FileTree.locate_mono clean_directoriesIn houtput'] at houtput
      cases houtput
      rcases hl with hl | hl
      · rw [hclean] at hl
        cases hl
      · exact absurd ⟨List.prefix_append _ _, by simpa using hne⟩ hl
    · exact FileTree.fileAt?_congr hkept
  · exact (FileTree.makeDirectories_built htree hmake).1.fileAt?_eq l

/-- A run that gets to its files does not clean if one of them lies below the output directory: that
is the input directory, and a run that would clean it is refused. -/
theorem Found.not_cleaned (h : Found s ignored tree input files) (htree : tree.WellFormed)
    (hplain : Path.IsPlain s.input) (hplain' : Path.IsPlain s.output)
    (hprepare : prepare s tree = (t, none)) (houtput : t.locate s.output = .ok output)
    {r : Location} (hr : r ∈ files) (hbelow : output <+: input ++ r) :
    isCleaned s tree = false ∧ s.clean = false ∧ output = input := by
  obtain ⟨hsame, rfl⟩ := h.eq_of_below htree hplain hplain' houtput hr hbelow
  obtain ⟨hne, hfile⟩ := h.inputs.file r hr
  obtain ⟨content, hcontent⟩ := FileTree.isFileAt_iff.mp hfile
  have hdirectory := htree.directory_above hcontent hne
  have hthere : tree.isDirectory s.output := FileTree.isDirectory_iff.mpr ⟨output,
    FileTree.locate_of_isSame hplain'.1 hplain.1 hsame h.leads hdirectory, hdirectory⟩
  have hunder : Path.isUnder s.input s.output := by
    rw [Path.isUnder, ← beq_iff_eq.mp hsame]
    exact List.isPrefixOf_iff_prefix.mpr List.prefix_rfl
  rcases prepare_ok hprepare with ⟨-, hnot, -⟩ | ⟨hnot, -⟩
  · rw [hunder] at hnot
    cases hnot
  · exact ⟨hnot, by simpa [isCleaned, hthere] using hnot, rfl⟩

theorem read_of_file {p : Text} {l : Location} (ht : tree.locate p = .ok l)
    (hu : t.locate p = .ok l) (hfile : tree.isFileAt l)
    (hkept : t.fileAt? l = tree.fileAt? l) : t.read p = tree.read p := by
  obtain ⟨content, hcontent⟩ := FileTree.isFileAt_iff.mp hfile
  rw [FileTree.fileAt?_eq_some_iff.mpr hcontent] at hkept
  refine read_congr ht hu ?_
  rw [FileTree.fileAt?_eq_some_iff.mp hkept, hcontent]

variable (h : Found s ignored tree input files) (htree : tree.WellFormed)
  (hplain : Path.IsPlain s.input) (hplain' : Path.IsPlain s.output)
include h htree hplain hplain'

/-- Without two dots in the paths, every file that was found reads after preparing as before. -/
theorem Found.read_of_prepare (hprepare : prepare s tree = (t, none))
    (houtput : t.locate s.output = .ok output) {r : Location} (hr : r ∈ files) :
    t.locate (sourcePath s r) = .ok (input ++ r) ∧
      t.read (sourcePath s r) = tree.read (sourcePath s r) := by
  obtain ⟨-, hdirectories, -⟩ := prepare_output htree hprepare
  have hsource := h.locate_sourcePath htree hr
  have hsource' := FileTree.locate_mono hdirectories hsource
  have hkept : t.fileAt? (input ++ r) = tree.fileAt? (input ++ r) := by
    refine fileAt?_of_prepare htree hprepare houtput ?_
    by_cases hbelow : output <+: input ++ r
    · exact .inl (h.not_cleaned htree hplain hplain' hprepare houtput hr hbelow).1
    · exact .inr fun hstrict => hbelow hstrict.1
  exact ⟨hsource', read_of_file hsource hsource' (h.inputs.file r hr).2 hkept⟩

/-- Without two dots in the paths, the outcome of every file depends on its text before the run and
on what is in the way of its target. -/
theorem Found.convertAll_outcomes (hreal : s.dryRun = false) (hprepare : prepare s tree = (t, none))
    (ht : Ready s output t) : (convertAll s files t).1 = files.map fun r =>
      outcomeOf s r (tree.read (sourcePath s r)) (t.obstacle? output r) := by
  have hread := fun r hr => h.read_of_prepare htree hplain hplain' hprepare ht.leads (r := r) hr
  rw [Run.convertAll_outcomes htree h.inputs (h.apart htree hplain hplain' ht.leads) hplain'.1 hreal
    ht fun r hr => (hread r hr).1]
  exact List.map_congr_left fun r hr => by rw [(hread r hr).2]

end Preparation

end Run

end Declass
