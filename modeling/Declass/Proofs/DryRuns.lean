import Declass.Proofs.SecondRuns

/-!
# Dry runs

**Input.** Arguments with which a run comes to its end, with no two dots in the paths of its input
and output directories.

**Algorithm.** A dry run reads the files as they are before the run, and a real run reads the same
texts, whatever it has written before.  Both hand on the same new text; only the real run can fail
to store it.

**Results.** `dry_run_predicts`: the dry run reports the same files with the same warnings, the same
statuses but for files that could not be written, and the texts that are found at the targets
afterwards.  The same run once more leaves the tree as it is, if the output directory is not the
input directory, the config file is not below it, and its path has no two dots or leads somewhere
before the first run.  `config_behind_new_directory` is a run without this last condition.
-/

namespace Declass

/-- Whether the new text of a file could not be written. -/
def Status.isRefused : Status → Bool
  | .errored (.notTaken _) => true
  | .errored (.unreadable _) | .errored (.fault _) | .written _ | .skipped => false

/-- The same settings for a dry run. -/
def Settings.asDry (s : Settings) : Settings := { s with dryRun := true }

/-- The same arguments for a dry run. -/
def Arguments.asDry (args : Arguments) : Arguments := { args with dryRun := true }

namespace Run

/-- What a dry run says about a file, against what a real run has done and the tree that it has
left. -/
structure Predicts (s : Settings) (after : FileTree) (dry real : FileOutcome) : Prop where
  relative : dry.relative = real.relative
  source : dry.source = real.source
  identifier : dry.report.identifier = real.report.identifier
  warnings : dry.report.warnings = real.report.warnings
  status : real.report.status.isRefused = false → dry.report.status = real.report.status
  text : real.report.status.isTaken = true →
    ∃ code, dry.generated = some code ∧ after.read (targetPath s real.relative) = .ok code
  noText : real.report.status.isRefused = false → real.report.status.isTaken = false →
    dry.generated = none

section Outcomes

variable {s : Settings} {r : Location} {after : FileTree}

/-- A file that reads the same has the same outcome in a dry run, but for a text that could not be
written. -/
theorem predicts_outcomeOf {reading : Except OsError Text} {refused : Option OsError}
    (htarget : (outcomeOf s r reading refused).report.status.isTaken →
      after.read (targetPath s r) = .ok (newText s r (outcomeOf s r reading refused).source)) :
    Predicts s after (outcomeOf s.asDry r reading none) (outcomeOf s r reading refused) := by
  cases reading with
  | error cause => exact ⟨rfl, rfl, rfl, rfl, fun _ => rfl, fun h => (by cases h), fun _ _ => rfl⟩
  | ok content =>
    cases hskip : Batch.isSkipped s.options (sourceOf s r content) with
    | true =>
      have hskip' : Batch.isSkipped s.asDry.options (sourceOf s.asDry r content) := hskip
      rw [outcomeOf_of_skipped hskip, outcomeOf_of_skipped hskip']
      exact ⟨rfl, rfl, rfl, rfl, fun _ => rfl, fun h => (by cases h), fun _ _ => rfl⟩
    | false =>
      have hskip' : Batch.isSkipped s.asDry.options (sourceOf s.asDry r content) = false := hskip
      rw [outcomeOf_of_not_skipped hskip] at htarget
      rw [outcomeOf_of_not_skipped hskip, outcomeOf_of_not_skipped hskip']
      refine ⟨rfl, rfl, rfl, rfl, fun hwritten => ?_,
        fun htaken => ⟨_, rfl, htarget htaken⟩, fun hwritten hnot => ?_⟩
      · cases refused with
        | some cause => cases hwritten
        | none => rfl
      · cases refused with
        | some cause => cases hwritten
        | none =>
          unfold statusOf at hnot
          cases hfault : (Batch.result s.options (sourceOf s r content)).2 with
          | none => simp [hfault, Status.isTaken] at hnot
          | some fault => simp [hfault, Status.isTaken] at hnot

end Outcomes

section Plans

variable {started : Text} {args : Arguments} {tree : FileTree} {s : Settings}
  {files : List Location}

theorem settingsOf_asDry (h : settingsOf started args tree = .ok s) :
    settingsOf started args.asDry tree = .ok s.asDry := by
  obtain ⟨config, hconfig, h⟩ := bind_eq_ok h
  have hconfig' : configOf (workspaceOf started args.asDry) args.asDry tree = .ok config := hconfig
  unfold settingsOf
  dsimp only
  rw [hconfig']
  split at h
  · cases h
  · rename_i settings hresolve
    cases h
    obtain ⟨receivers, hreceivers, hresolve⟩ := bind_eq_ok hresolve
    have hreceivers' : Settings.receiversOf args.asDry config = .ok receivers := hreceivers
    cases hresolve
    simp only [Settings.resolve, hreceivers', bind, Except.bind]
    rfl

/-- A dry run plans the same files. -/
theorem plan_asDry (h : plan started args tree = .ok (s, files)) :
    plan started args.asDry tree = .ok (s.asDry, files) := by
  obtain ⟨hsettings, input, ignored, hleads, hdirectory, hignored, rfl⟩ := plan_ok h
  exact plan_of (settingsOf_asDry hsettings) hleads hdirectory hignored

theorem finish_outcomes_of_sorted {outcomes : List FileOutcome}
    (h : (outcomes.map FileOutcome.relative).Pairwise fun l m => Location.notAfter l m) :
    (finish s outcomes).outcomes = outcomes := List.mergeSort_of_pairwise (List.pairwise_map.mp h)

end Plans

section Predictions

variable {s : Settings} {ignored : List Glob} {tree t after : FileTree} {input output : Location}
  {files : List Location} {outcomes : List FileOutcome}

variable (h : RealRun s ignored tree input files t output outcomes after)
include h

theorem RealRun.read_target {o : FileOutcome} (ho : o ∈ outcomes) (htaken : o.report.status.isTaken) :
    after.read (targetPath s o.relative) = .ok (newText s o.relative o.source) := by
  have hne := (h.found.inputs.file _ (h.relative_mem ho)).1
  have hnames := h.found.inputs.isName h.wellFormed (h.relative_mem ho)
  have htext := h.laid.text o ho htaken
  have habove := h.wrote.wellFormed.dropLast_directory htext
  rw [List.dropLast_append_of_ne_nil hne] at habove
  refine read_ok_iff.mpr ⟨output ++ o.relative, ?_, FileTree.fileAt?_eq_some_iff.mpr htext⟩
  rw [locate_targetPath h.ready_after.leads hne hnames]
  exact FileTree.follow_names h.wrote.wellFormed hnames habove

/-- A dry run predicts the outcome of every file. -/
theorem RealRun.predicts : List.Forall₂ (Predicts s after)
      (files.map fun r => outcomeOf s.asDry r (tree.read (sourcePath s r)) none) outcomes := by
  have htarget : ∀ o ∈ outcomes, o.report.status.isTaken →
      after.read (targetPath s o.relative) = .ok (newText s o.relative o.source) :=
    fun o => h.read_target
  rw [h.outcomes_eq] at htarget ⊢
  rw [List.forall₂_map_left_iff, List.forall₂_map_right_iff, List.forall₂_same]
  intro r hr
  have htarget' := htarget _ (List.mem_map_of_mem hr)
  rw [outcomeOf_relative] at htarget'
  exact predicts_outcomeOf htarget'

end Predictions

section Runs

variable {started : Text} {args : Arguments} {tree after : FileTree} {s : Settings}
  {files : List Location} {finished : Finished}

/-- A run that writes and comes to its end, taken apart. -/
theorem realRun_of_run (hstarted : Path.isAbsolute started) (htree : tree.WellFormed)
    (hreal : args.dryRun = false) (hplan : plan started args tree = .ok (s, files))
    (hinput : Path.Part.up ∉ Path.parts s.input) (houtput : Path.Part.up ∉ Path.parts s.output)
    (hrun : run started args tree = (.ok finished, after)) : ∃ input ignored t output outcomes,
      RealRun s ignored tree input files t output outcomes after ∧
      ignoreGlobs s.ignore = .ok ignored ∧
      files = (tree.filesBelow input).filter (isChosen s ignored) ∧
      finished = finish s outcomes := by
  obtain ⟨hsettings, input, ignored, hleads, hdirectory, hignored, hfiles⟩ := plan_ok hplan
  obtain ⟨habsolute, habsolute'⟩ := isAbsolute_of_settings hstarted hsettings
  have hwrites : s.dryRun = false := (settingsOf_dryRun hsettings).trans hreal
  have hfound : Found s ignored tree input files := hfiles ▸ found_filter htree hleads
  rw [run_of_plan hplan] at hrun
  rcases hprepare : prepare s tree with ⟨t, _ | e⟩
  · obtain ⟨output, hready⟩ := ready_of_prepare htree hprepare
    rw [execute_of_prepare hwrites files hprepare] at hrun
    cases hrun
    exact ⟨input, ignored, t, output, _, ⟨htree, hwrites, ⟨habsolute, hinput⟩,
      ⟨habsolute', houtput⟩, hfound, hdirectory, hprepare, hready, rfl⟩, hignored, hfiles, rfl⟩
  · rw [execute_of_prepare_error hwrites files hprepare] at hrun
    cases hrun

/-- A run that writes and comes to its end, started in an absolute directory and with no two dots in
the paths of its input and output directories.  The dry run leaves the tree alone, and what it says
about each file fits what the run does.  The same run once more ends as before and leaves the tree
as it is, if the two directories are different, the config file is not below the output directory,
and the path of the config file has no two dots or leads somewhere before the first run. -/
theorem dry_run_predicts (hstarted : Path.isAbsolute started = true) (htree : tree.WellFormed)
    (hreal : args.dryRun = false) (hplan : plan started args tree = .ok (s, files))
    (hinput : Path.Part.up ∉ Path.parts s.input) (houtput : Path.Part.up ∉ Path.parts s.output)
    (hrun : run started args tree = (.ok finished, after)) :
    (∃ predicted, run started args.asDry tree = (.ok predicted, tree) ∧
      List.Forall₂ (Predicts s after) predicted.outcomes finished.outcomes) ∧
    (after.locate s.output ≠ after.locate s.input →
      (Path.Part.up ∉ Path.parts (configPath (workspaceOf started args) args) ∨
        ∃ l, tree.locate (configPath (workspaceOf started args) args) = .ok l) →
      (∀ output l, after.locate s.output = .ok output →
        after.locate (configPath (workspaceOf started args) args) = .ok l →
        ¬ (output <+: l ∧ output ≠ l)) →
      (run started args after).1 = .ok finished ∧
      (run started args after).2.entries.Perm after.entries) := by
  obtain ⟨input, ignored, t, output, outcomes, h, hignored, hfiles, rfl⟩ :=
    realRun_of_run hstarted htree hreal hplan hinput houtput hrun
  have hsorted : files.Pairwise fun l m => Location.notAfter l m = true :=
    hfiles ▸ (FileTree.pairwise_filesBelow _).filter _
  have hrelative : outcomes.map FileOutcome.relative = files := by
    rw [h.outcomes_eq, map_outcomeOf_relative]
  constructor
  · have hdry := execute_dry (s := s.asDry) rfl files tree
    refine ⟨_, (run_of_plan (plan_asDry hplan)).trans hdry, ?_⟩
    rw [finish_outcomes_of_sorted (by rwa [map_outcomeOf_relative]),
      finish_outcomes_of_sorted (by rwa [hrelative])]
    exact h.predicts
  · intro hne hconfig hoff
    have hne' : output ≠ input := by
      rintro rfl
      exact hne (h.ready_after.leads.trans
        (FileTree.locate_mono h.directoriesIn h.found.leads).symm)
    have habsolute : Path.isAbsolute (configPath (workspaceOf started args) args) = true :=
      Path.isAbsolute_join (Path.isAbsolute_join hstarted)
    exact h.run_again (plan_ok hplan).1 hignored hfiles hne'
      (h.read_again habsolute hconfig fun l => hoff output l h.ready_after.leads)

end Runs

/-- The old files are replaced, as the dry run says, and the second run finds nothing to do. -/
theorem dry_run_predicts_replacing : convertedBefore.WellFormed ∧
    ∃ s finished after,
      plan "/" (between "in" "out") convertedBefore = .ok (s, [["A.js"]]) ∧
      run "/" (between "in" "out") convertedBefore = (.ok finished, after) ∧
      (∃ predicted, run "/" (between "in" "out").asDry convertedBefore =
        (.ok predicted, convertedBefore) ∧
        List.Forall₂ (Predicts s after) predicted.outcomes finished.outcomes) ∧
      (run "/" (between "in" "out") after).1 = .ok finished ∧
      (run "/" (between "in" "out") after).2.entries.Perm after.entries := by
  have htree : convertedBefore.WellFormed := by decide +kernel
  have hplan : plan "/" (between "in" "out") convertedBefore =
      .ok (⟨"/./in", "/./out", ["js", "jsx"], [], false, true, false, .human, false,
        Options.default⟩, [["A.js"]]) := by decide +kernel
  obtain ⟨hends, houtput, hinput, hconfig⟩ :
      (run "/" (between "in" "out") convertedBefore).1.isOk = true ∧
      (run "/" (between "in" "out") convertedBefore).2.locate "/./out" = .ok ["out"] ∧
      (run "/" (between "in" "out") convertedBefore).2.locate "/./in" = .ok ["in"] ∧
      (run "/" (between "in" "out") convertedBefore).2.locate
        (configPath (workspaceOf "/" (between "in" "out")) (between "in" "out")) =
        .ok ["hookify.json"] := by decide +kernel
  rcases hrun : run "/" (between "in" "out") convertedBefore with ⟨_ | finished, after⟩
  · rw [hrun] at hends
    cases hends
  · rw [hrun] at houtput hinput hconfig
    obtain ⟨hpredicted, hagain⟩ := dry_run_predicts (by decide) htree rfl hplan
      (by decide +kernel) (by decide +kernel) hrun
    obtain ⟨hsame, htrees⟩ := hagain (by rw [houtput, hinput]; decide)
      (.inl (by decide +kernel)) (by rw [houtput, hconfig]; rintro _ _ ⟨⟩ ⟨⟩; decide)
    exact ⟨htree, _, finished, after, hplan, rfl, hpredicted, hsame, htrees⟩

/-- A config file that ignores the only component. -/
def ignoringConfig : FileTree :=
  ⟨[(["hookify.json"], .file (.text "\x7b\"ignore\":[\"A.js\"]\x7d")), (["in"], .directory),
    (["in", "A.js"], .file (.text "class A extends Component\x7brender()\x7breturn 0\x7d\x7d"))]⟩

/-- The config file is looked for by way of a directory that is not there before the first run. -/
def behindNewDirectory : Arguments :=
  { between "/in" "/new/out" with workspace := "new/.." }

/-- The first run does not find the config file, and makes the directory by way of which the second
one finds it.  Then the component is ignored, and its target is removed. -/
theorem config_behind_new_directory : ignoringConfig.WellFormed ∧
    ∃ s finished after,
      plan "/" behindNewDirectory ignoringConfig = .ok (s, [["A.js"]]) ∧
      Path.Part.up ∉ Path.parts s.input ∧ Path.Part.up ∉ Path.parts s.output ∧
      run "/" behindNewDirectory ignoringConfig = (.ok finished, after) ∧
      after.locate s.output = .ok ["new", "out"] ∧ after.locate s.input = .ok ["in"] ∧
      after.locate (configPath (workspaceOf "/" behindNewDirectory) behindNewDirectory) =
        .ok ["hookify.json"] ∧
      ¬ (run "/" behindNewDirectory after).2.entries.Perm after.entries := by
  have hplan : plan "/" behindNewDirectory ignoringConfig =
      .ok (⟨"/in", "/new/out", ["js", "jsx"], [], false, true, false, .human, false,
        Options.default⟩, [["A.js"]]) := by decide +kernel
  obtain ⟨hends, houtput, hinput, hconfig, hfewer⟩ :
      (run "/" behindNewDirectory ignoringConfig).1.isOk = true ∧
      (run "/" behindNewDirectory ignoringConfig).2.locate "/new/out" = .ok ["new", "out"] ∧
      (run "/" behindNewDirectory ignoringConfig).2.locate "/in" = .ok ["in"] ∧
      (run "/" behindNewDirectory ignoringConfig).2.locate
        (configPath (workspaceOf "/" behindNewDirectory) behindNewDirectory) =
        .ok ["hookify.json"] ∧
      (run "/" behindNewDirectory (run "/" behindNewDirectory ignoringConfig).2).2.entries.length ≠
        (run "/" behindNewDirectory ignoringConfig).2.entries.length := by decide +kernel
  rcases hrun : run "/" behindNewDirectory ignoringConfig with ⟨_ | finished, after⟩
  · rw [hrun] at hends
    cases hends
  · rw [hrun] at houtput hinput hconfig hfewer
    exact ⟨by decide +kernel, _, finished, after, hplan, by decide +kernel, by decide +kernel, rfl,
      houtput, hinput, hconfig, fun hperm => hfewer hperm.length_eq⟩

end Run
end Declass
