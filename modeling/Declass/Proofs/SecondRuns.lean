import Declass.Proofs.RunOrders

/-!
# A run after the same run

**Input.** A run that has come to its end, with absolute paths without two dots and with different
input and output directories, and the tree that it has left.

**Algorithm.** The run has changed nothing that it reads: what it finds lies outside the output
directory.  If it cleans, the files that it finds in the output directory are those that it has
written, and it writes them again; what was in the way of the others is in their way again.

**Results.**
* `RealRun.execute_again`: with the same files, the run has the same outcomes and leaves the tree as
  it is.
* `RealRun.files_again`: it finds the same files.
* `RealRun.read_again`: the config file reads the same if it is not below the output directory, and
  its path has no two dots or leads somewhere before the first run.
* `RealRun.run_again`: in that case the whole run ends as before and leaves the tree as it is.
-/

namespace Declass
namespace Run

/-- A run that writes, with absolute paths without two dots: what it has found in `tree`, the tree `t`
in which the output directory is prepared, the outcomes, and the tree that it has left. -/
structure RealRun (s : Settings) (ignored : List Glob) (tree : FileTree) (input : Location)
    (files : List Location) (t : FileTree) (output : Location) (outcomes : List FileOutcome)
    (after : FileTree) : Prop where
  wellFormed : tree.WellFormed
  real : s.dryRun = false
  plainInput : Path.IsPlain s.input
  plainOutput : Path.IsPlain s.output
  found : Found s ignored tree input files
  directory : tree.entry? input = some .directory
  prepared : prepare s tree = (t, none)
  ready : Ready s output t
  done : convertAll s files t = (outcomes, after)

namespace RealRun

variable {s : Settings} {ignored : List Glob} {tree t after : FileTree} {input output : Location}
  {files : List Location} {outcomes : List FileOutcome}

section First

variable (h : RealRun s ignored tree input files t output outcomes after)
include h

theorem wrote : Wrote s t after outcomes := by
  have hwrote := wrote_convertAll h.real files h.ready.wellFormed
  rwa [h.done] at hwrote

theorem laid : Laid s output t after outcomes := by
  have hlaid := laid_convertAll h.plainOutput.1 h.real h.wellFormed h.found.inputs h.ready
  rwa [h.done] at hlaid

theorem outcomes_eq : outcomes = files.map fun r =>
    outcomeOf s r (tree.read (sourcePath s r)) (t.obstacle? output r) := by
  have houtcomes := h.found.convertAll_outcomes h.wellFormed h.plainInput h.plainOutput h.real
    h.prepared h.ready
  rwa [h.done] at houtcomes

theorem relative_mem {o : FileOutcome} (ho : o ∈ outcomes) : o.relative ∈ files :=
  relative_mem_of_convertAll (s := s) (t := t) (by rwa [h.done])

theorem execute_eq : execute s files tree = (.ok (finish s outcomes), after) := by
  rw [execute_of_prepare h.real files h.prepared, h.done]

theorem free_of_taken {o : FileOutcome} (ho : o ∈ outcomes)
    (htaken : o.report.status.isTaken) : t.obstacle? output o.relative = none := by
  rw [h.outcomes_eq] at ho
  obtain ⟨r, -, rfl⟩ := List.mem_map.mp ho
  rw [isTaken_outcomeOf] at htaken
  rw [outcomeOf_relative]
  simpa using (Bool.and_eq_true_iff.mp htaken).2

/-- The tree that is left has a directory where the output path leads. -/
theorem ready_after : Ready s output after :=
  ⟨h.wrote.wellFormed, FileTree.locate_mono h.wrote.directoriesIn h.ready.leads,
    h.wrote.directoriesIn _ h.ready.directory⟩

theorem directoriesIn : tree.DirectoriesIn after :=
  (prepare_output h.wellFormed h.prepared).2.1.trans h.wrote.directoriesIn

/-- Files that do not lie below the output directory are as before. -/
theorem fileAt?_outside {l : Location} (hl : ¬ (output <+: l ∧ output ≠ l)) :
    after.fileAt? l = tree.fileAt? l := by
  rw [← fileAt?_of_prepare h.wellFormed h.prepared h.ready.leads (.inr hl)]
  by_cases hsame : output = l
  · rw [← hsame, FileTree.fileAt?_congr]
    rw [h.ready_after.directory, h.ready.directory]
  · exact FileTree.fileAt?_congr (h.laid.rest l fun o _ _ hway => hl ⟨hway.1, hsame⟩)

/-- If there is a directory where the output path leads afterwards, then it led there before. -/
theorem locate_output (hdirectory : tree.entry? output = some .directory) :
    tree.locate s.output = .ok output :=
  FileTree.locate_of_directories h.plainOutput h.ready.leads fun _ hk _ =>
    h.wellFormed.directory_of_isPrefix hdirectory hk

theorem isCleaned_of_directory (hclean : s.clean)
    (hdirectory : tree.entry? output = some .directory) : isCleaned s tree :=
  isCleaned_iff.mpr ⟨hclean, output, h.locate_output hdirectory, hdirectory⟩

/-- A run that cleans does not have its input directory in the output directory. -/
theorem not_isUnder (hclean : s.clean) : Path.isUnder s.input s.output = false := by
  rw [Bool.eq_false_iff]
  intro hunder
  have hbelow : output <+: input := (FileTree.isUnder_iff
    (FileTree.parts_of_locate h.plainInput h.found.leads)
    (FileTree.parts_of_locate h.plainOutput h.ready.leads)).mp hunder
  have hcleaned := h.isCleaned_of_directory hclean
    (h.wellFormed.directory_of_isPrefix h.directory hbelow)
  rcases prepare_ok h.prepared with ⟨-, hnot, -⟩ | ⟨hnot, -⟩
  · rw [hunder] at hnot
    cases hnot
  · rw [hcleaned] at hnot
    cases hnot

/-- If a run cleans, no file of an earlier run is left when it begins to write. -/
theorem not_isStale (hclean : s.clean) (l : Location) : ¬ IsStale s t l := by
  rintro ⟨hfile, output', r, hleads, rfl, hne, hextension⟩
  rw [h.ready.leads] at hleads
  cases hleads
  rcases prepare_ok h.prepared with ⟨hcleaned, -, rfl⟩ | ⟨hnot, hmake⟩
  · rcases clean_cases s tree (output ++ r) with ⟨-, hgone⟩ | ⟨hfresh, hkept⟩
    · rw [FileTree.isFileAt_eq_false_of_none hgone] at hfile
      cases hfile
    · obtain ⟨-, output', hleads, -⟩ := isCleaned_iff.mp hcleaned
      have hsame := FileTree.locate_mono (clean_directoriesIn (s := s)) hleads
      rw [h.ready.leads] at hsame
      cases hsame
      refine hfresh ⟨?_, output, r, hleads, rfl, hne, hextension⟩
      rwa [FileTree.isFileAt, ← FileTree.fileAt?_congr hkept]
  · -- The file was there before, and so was the output directory, which would have been cleaned.
    obtain ⟨hbuilt, -⟩ := FileTree.makeDirectories_built h.wellFormed hmake
    rw [FileTree.isFileAt, hbuilt.fileAt?_eq] at hfile
    obtain ⟨content, hcontent⟩ := FileTree.isFileAt_iff.mp hfile
    rw [h.isCleaned_of_directory hclean (h.wellFormed.directory_above hcontent hne)] at hnot
    cases hnot

/-- The files of an earlier run that a second run finds are the targets of the first. -/
theorem target_of_isStale (hclean : s.clean) {l : Location} (hstale : IsStale s after l) :
    ∃ o ∈ outcomes, o.report.status.isTaken ∧ l = output ++ o.relative := by
  obtain ⟨hfile, output', r, hleads, rfl, hne, hextension⟩ := hstale
  rw [h.ready_after.leads] at hleads
  cases hleads
  by_contra hnone
  refine h.not_isStale hclean (output ++ r) ⟨?_, output, r, h.ready.leads, rfl, hne, hextension⟩
  rw [FileTree.isFileAt, ← FileTree.fileAt?_congr (h.laid.rest (output ++ r) ?_)]
  · exact hfile
  · rintro o ho htaken ⟨hl, hway⟩
    have hplace : output ++ r ≠ output ++ o.relative := fun heq => hnone ⟨o, ho, htaken, heq⟩
    rw [FileTree.isFileAt_eq_false_of_directory (h.laid.way o ho htaken _ hl hway hplace)] at hfile
    cases hfile

end First

section Second

/-- The tree in which a second run prepares the output directory. -/
def prepareAgain (s : Settings) (after : FileTree) : FileTree :=
  if s.clean then clean s after else after

variable (h : RealRun s ignored tree input files t output outcomes after)
include h

theorem prepare_again : prepare s after = (prepareAgain s after, none) := by
  have hthere : after.isDirectory s.output :=
    FileTree.isDirectory_iff.mpr ⟨output, h.ready_after.leads, h.ready_after.directory⟩
  unfold prepare prepareAgain isCleaned
  cases hclean : s.clean with
  | false =>
    simp [FileTree.makeDirectories_of_isDirectory hthere]
  | true =>
    have hcleaned : (clean s after).isDirectory s.output := FileTree.isDirectory_iff.mpr ⟨output,
        FileTree.locate_mono clean_directoriesIn h.ready_after.leads,
        clean_directoriesIn _ h.ready_after.directory⟩
    simp [hthere, h.not_isUnder hclean, FileTree.makeDirectories_of_isDirectory hcleaned]

/-- Preparing again removes targets at most. -/
theorem entry_again (l : Location) :
    FileTree.entry? (prepareAgain s after) l = FileTree.entry? after l ∨
    FileTree.entry? (prepareAgain s after) l = none ∧ ∃ o ∈ outcomes, o.report.status.isTaken ∧
        l = output ++ o.relative := by
  unfold prepareAgain
  cases hclean : s.clean with
  | false => exact .inl rfl
  | true =>
    rcases clean_cases s after l with ⟨hstale, hgone⟩ | ⟨-, hkept⟩
    · exact .inr ⟨hgone, h.target_of_isStale hclean hstale⟩
    · exact .inl hkept

theorem entry_again_of_off_way {l : Location} (hl : ∀ o ∈ outcomes, o.report.status.isTaken →
      ¬ (output <+: l ∧ l <+: output ++ o.relative)) :
    FileTree.entry? (prepareAgain s after) l = FileTree.entry? after l := by
  rcases h.entry_again l with hkept | ⟨-, o, ho, htaken, rfl⟩
  · exact hkept
  · exact absurd ⟨List.prefix_append _ _, List.prefix_rfl⟩ (hl o ho htaken)

/-- Around the targets, the second run begins as the first. -/
theorem around_again : Around output t (prepareAgain s after) outcomes := by
  refine ⟨fun o ho htaken => ?_, fun o ho htaken l hl hway hplace => ?_, fun l hl => ?_⟩
  · rcases h.entry_again (output ++ o.relative) with hkept | ⟨hgone, -⟩
    · rw [hkept, h.laid.text o ho htaken]
      simp
    · simp [hgone]
  · have hdirectory := h.laid.way o ho htaken l hl hway hplace
    rcases h.entry_again l with hkept | ⟨-, o', ho', htaken', rfl⟩
    · rw [hkept, hdirectory]
    · rw [h.laid.text o' ho' htaken'] at hdirectory
      cases hdirectory
  · rw [h.entry_again_of_off_way hl, h.laid.rest l hl]

/-- What the second run finds is what it would leave. -/
theorem laid_again : Laid s output (prepareAgain s after) after outcomes :=
  ⟨h.laid.text, h.laid.way, fun _ hl => (h.entry_again_of_off_way hl).symm⟩

variable (hne : output ≠ input)
include hne

/-- The files that were found are not below the output directory, and so they are still there. -/
theorem fileAt?_source {r : Location} (hr : r ∈ files) :
    after.fileAt? (input ++ r) = tree.fileAt? (input ++ r) :=
  h.fileAt?_outside fun hl => hne (h.found.eq_of_below h.wellFormed h.plainInput h.plainOutput
    h.ready.leads hr hl.1).2

theorem found_again : Found s ignored after input files := by
  refine ⟨FileTree.locate_mono h.directoriesIn h.found.leads, ⟨h.found.inputs.nodup, ?_⟩,
    h.found.chosen⟩
  intro r hr
  obtain ⟨hrne, hfile⟩ := h.found.inputs.file r hr
  exact ⟨hrne, by rwa [FileTree.isFileAt, h.fileAt?_source hne hr]⟩

/-- The tree that is left is one in which the same run can be made. -/
theorem again : RealRun s ignored after input files (prepareAgain s after) output
      (convertAll s files (prepareAgain s after)).1
      (convertAll s files (prepareAgain s after)).2 := by
  obtain ⟨output', hready⟩ := ready_of_prepare h.wrote.wellFormed h.prepare_again
  have hmono := (prepare_output h.wrote.wellFormed h.prepare_again).2.1
  have hsame := FileTree.locate_mono hmono h.ready_after.leads
  rw [hready.leads] at hsame
  cases hsame
  exact ⟨h.wrote.wellFormed, h.real, h.plainInput, h.plainOutput, h.found_again hne,
    h.directoriesIn _ h.directory, h.prepare_again, hready, rfl⟩

/-- Every file has the same outcome again. -/
theorem outcomes_again : (convertAll s files (prepareAgain s after)).1 = outcomes := by
  rw [(h.again hne).outcomes_eq, h.outcomes_eq]
  refine List.map_congr_left fun r hr => ?_
  have hsource := h.found.locate_sourcePath h.wellFormed hr
  rw [read_of_file hsource (FileTree.locate_mono h.directoriesIn hsource)
      (h.found.inputs.file r hr).2 (h.fileAt?_source hne hr),
    h.around_again.obstacle?_eq h.wellFormed h.found.inputs
      (fun _ => h.relative_mem) (fun _ => h.free_of_taken) hr]

/-- With the same files, the run ends as before and leaves the tree as it is. -/
theorem execute_again : (execute s files after).1 = .ok (finish s outcomes) ∧
    (execute s files after).2.entries.Perm after.entries := by
  have hagain := h.again hne
  rw [hagain.execute_eq, h.outcomes_again hne]
  refine ⟨rfl, FileTree.entries_perm hagain.wrote.wellFormed h.wrote.wellFormed ?_⟩
  refine h.laid_again.entry_eq hagain.laid ?_
  rw [h.outcomes_again hne]

/-- A second run finds the same files. -/
theorem files_again (hfiles : files = (tree.filesBelow input).filter (isChosen s ignored)) :
    (after.filesBelow input).filter (isChosen s ignored) = files := by
  have hfound : Found s ignored after input _ :=
    found_filter h.wrote.wellFormed (h.found_again hne).leads
  refine List.Perm.eq_of_pairwise (fun _ _ _ _ => Location.notAfter_antisymm)
    ((FileTree.pairwise_filesBelow _).filter _) (hfiles ▸ (FileTree.pairwise_filesBelow _).filter _)
    ((List.perm_ext_iff_of_nodup hfound.inputs.nodup h.found.inputs.nodup).mpr fun r => ?_)
  constructor
  · intro hr
    obtain ⟨hrne, hfile⟩ := hfound.inputs.file r hr
    have hoff : ¬ (output <+: input ++ r ∧ output ≠ input ++ r) := fun hl =>
      hne (hfound.eq_of_below h.wrote.wellFormed h.plainInput h.plainOutput h.ready.leads hr hl.1).2
    rw [FileTree.isFileAt, h.fileAt?_outside hoff] at hfile
    rw [hfiles]
    exact List.mem_filter.mpr ⟨(FileTree.mem_filesBelow h.wellFormed).mpr ⟨hrne, hfile⟩,
      hfound.chosen r hr⟩
  · intro hr
    exact List.mem_filter.mpr ⟨(FileTree.mem_filesBelow h.wrote.wellFormed).mpr
      ((h.found_again hne).inputs.file r hr), h.found.chosen r hr⟩

end Second

end RealRun

section Settings

variable {started : Text} {args : Arguments} {tree u : FileTree}

theorem read_ok_iff {p content : Text} : tree.read p = .ok content ↔
    ∃ l, tree.locate p = .ok l ∧ tree.fileAt? l = some (.text content) := by
  simp only [FileTree.fileAt?_eq_some_iff]
  constructor
  · intro h
    obtain ⟨l, hlocate, h⟩ := bind_eq_ok h
    split at h
    · cases h
    · cases h
    · cases h
    · rename_i text hentry
      cases h
      exact ⟨l, hlocate, hentry⟩
  · rintro ⟨l, hlocate, hentry⟩
    unfold FileTree.read
    rw [hlocate]
    simp only [bind, Except.bind, hentry]
    rfl

/-- A config file is taken if its path reads as before; any error is as good as any other. -/
theorem configOf_congr {workspace : Text} {config : ConfigFile}
    (hread : ∀ content, u.read (configPath workspace args) = .ok content ↔
      tree.read (configPath workspace args) = .ok content)
    (h : configOf workspace args tree = .ok config) : configOf workspace args u = .ok config := by
  unfold configOf readConfig at h ⊢
  cases hbefore : tree.read (configPath workspace args) with
  | ok content =>
    rw [hbefore] at h
    rw [(hread content).mpr hbefore]
    exact h
  | error cause =>
    rw [hbefore] at h
    cases hafter : u.read (configPath workspace args) with
    | ok content =>
      rw [(hread content).mp hafter] at hbefore
      cases hbefore
    | error cause' =>
      cases hconfig : args.config with
      | none =>
        rw [hconfig] at h
        exact h
      | some name =>
        rw [hconfig] at h
        cases h

theorem settingsOf_congr {s : Settings}
    (hread : ∀ content, u.read (configPath (workspaceOf started args) args) = .ok content ↔
      tree.read (configPath (workspaceOf started args) args) = .ok content)
    (h : settingsOf started args tree = .ok s) : settingsOf started args u = .ok s := by
  obtain ⟨config, hconfig, h⟩ := bind_eq_ok h
  unfold settingsOf
  dsimp only
  rw [configOf_congr hread hconfig]
  exact h

theorem plan_of {s : Settings} {ignored : List Glob} {input : Location}
    (hsettings : settingsOf started args tree = .ok s) (hlocate : tree.locate s.input = .ok input)
    (hdirectory : tree.entry? input = some .directory)
    (hignored : ignoreGlobs s.ignore = .ok ignored) : plan started args tree =
      .ok (s, (tree.filesBelow input).filter (isChosen s ignored)) := by
  have hthere : tree.isDirectory s.input :=
    FileTree.isDirectory_iff.mpr ⟨input, hlocate, hdirectory⟩
  unfold plan
  rw [hsettings]
  simp [bind, Except.bind, pure, Except.pure, hthere, hignored, discover, hlocate]

end Settings

namespace RealRun

variable {started : Text} {args : Arguments} {s : Settings} {ignored : List Glob}
  {tree t after : FileTree} {input output : Location} {files : List Location}
  {outcomes : List FileOutcome}

variable (h : RealRun s ignored tree input files t output outcomes after)
include h

/-- A path that does not lead below the output directory reads as before, if it has no two dots or
led somewhere before. -/
theorem read_again {p : Text} (habsolute : Path.isAbsolute p)
    (hp : Path.Part.up ∉ Path.parts p ∨ ∃ l, tree.locate p = .ok l)
    (hoff : ∀ l, after.locate p = .ok l → ¬ (output <+: l ∧ output ≠ l)) (content : Text) :
    after.read p = .ok content ↔ tree.read p = .ok content := by
  rw [read_ok_iff, read_ok_iff]
  constructor
  · rintro ⟨l, hlocate, hfile⟩
    have hbefore := h.fileAt?_outside (hoff l hlocate)
    rw [hfile] at hbefore
    refine ⟨l, ?_, hbefore.symm⟩
    rcases hp with hup | ⟨l', hl'⟩
    · refine FileTree.locate_of_directories ⟨habsolute, hup⟩ hlocate fun k hk hdirectory => ?_
      obtain ⟨m, rfl⟩ := hk
      have hm : m ≠ [] := by
        rintro rfl
        rw [List.append_nil, FileTree.fileAt?_eq_some_iff, hdirectory] at hfile
        cases hfile
      exact h.wellFormed.directory_above (FileTree.fileAt?_eq_some_iff.mp hbefore.symm) hm
    · rw [FileTree.locate_mono h.directoriesIn hl'] at hlocate
      cases hlocate
      exact hl'
  · rintro ⟨l, hlocate, hfile⟩
    have hlocate' := FileTree.locate_mono h.directoriesIn hlocate
    exact ⟨l, hlocate', (h.fileAt?_outside (hoff l hlocate')).trans hfile⟩

/-- The whole run again: it ends as before, and leaves the tree as it is. -/
theorem run_again (hsettings : settingsOf started args tree = .ok s)
    (hignored : ignoreGlobs s.ignore = .ok ignored)
    (hfiles : files = (tree.filesBelow input).filter (isChosen s ignored)) (hne : output ≠ input)
    (hread : ∀ content, after.read (configPath (workspaceOf started args) args) = .ok content ↔
      tree.read (configPath (workspaceOf started args) args) = .ok content) :
    (run started args after).1 = .ok (finish s outcomes) ∧
    (run started args after).2.entries.Perm after.entries := by
  have hplan := plan_of (settingsOf_congr hread hsettings) (h.found_again hne).leads
    (h.directoriesIn _ h.directory) hignored
  rw [h.files_again hne hfiles] at hplan
  rw [run_of_plan hplan]
  exact h.execute_again hne

end RealRun

end Run
end Declass
