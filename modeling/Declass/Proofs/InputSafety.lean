import Declass.Proofs.RunPaths

/-!
# The safety of the inputs

**Input.** A run with arguments as they may be given, and a well-formed file tree.

**Algorithm.** A file can be lost in two ways: the output directory is cleaned, or another file is
stored in its place.  Both happen only below the directory to which the output path leads.  The
checks of a run compare the paths as they are written, and two dots can make one directory look like
another.

**Results.** `inputs_kept_iff`: without two dots, no input is removed, and none is overwritten
unless the output directory is the input directory and cleaning is off.  In general this holds
exactly if every input that lies below the output directory is safe there: nothing is cleaned, and
either the two directories are the same and cleaning is off, or no other text is stored in its place.
`respelled_output_removes_input` is a run in which it fails.
-/

namespace Declass
namespace Run

/-- Whatever files have been converted so far, in whichever order: each input is still a file, and
it is as before unless the output directory is the input directory and cleaning is off. -/
def InputsKept (s : Settings) (files : List Location) (input : Location) (tree : FileTree) : Prop :=
  ∀ done, done.Subperm files → ∀ r ∈ files,
    (execute s done tree).2.isFileAt (input ++ r) = true ∧
    ((execute s done tree).2.fileAt? (input ++ r) ≠ tree.fileAt? (input ++ r) →
      s.clean = false ∧ (execute s done tree).2.locate s.output = .ok input)

section Preparation

variable {s : Settings} {tree t : FileTree} {input output : Location}

/-- A run that does not get to its files, or does not write, leaves all files alone. -/
theorem execute_fileAt? (htree : tree.WellFormed)
    (h : s.dryRun ∨ ∃ t e, prepare s tree = (t, some e)) (done : List Location)
    (l : Location) : (execute s done tree).2.fileAt? l = tree.fileAt? l := by
  cases hdry : s.dryRun with
  | true => rw [execute_dry hdry]
  | false =>
    obtain ⟨t, e, hprepare⟩ := h.resolve_left (by simp [hdry])
    rw [execute_of_prepare_error hdry done hprepare]
    rcases prepare_error hprepare with ⟨-, rfl⟩ | ⟨-, cause, -, hmake⟩
    · rfl
    · exact (FileTree.makeDirectories_built htree hmake).1.fileAt?_eq l

/-- An input below an output directory that is cleaned is taken for a file of an earlier run. -/
theorem Found.isStale {files : List Location} {ignored : List Glob}
    (h : Found s ignored tree input files) (htree : tree.WellFormed)
    (hinput : Path.isAbsolute s.input) (houtput : Path.isAbsolute s.output)
    (hleads : tree.locate s.output = .ok output)
    (hdirectory : tree.entry? output = some .directory) {r : Location} (hr : r ∈ files)
    (hbelow : output <+: input ++ r) : IsStale s tree (input ++ r) := by
  obtain ⟨hne, hfile⟩ := h.inputs.file r hr
  obtain ⟨content, hcontent⟩ := FileTree.isFileAt_iff.mp hfile
  obtain ⟨k, hk⟩ := hbelow
  have hkne : k ≠ [] := by
    rintro rfl
    rw [List.append_nil] at hk
    rw [← hk, hdirectory] at hcontent
    cases hcontent
  have hnames : ∀ n ∈ k, Path.IsName n := fun n hn =>
    htree.isName_of_entry hcontent (by rw [← hk]; exact List.mem_append_right _ hn)
  have hlast : k.getLast hkne = r.getLast hne := by
    rw [← List.getLast_append_of_ne_nil (by simp [hkne]) hkne,
      ← List.getLast_append_of_ne_nil (by simp [hne]) hne]
    exact List.getLast_congr _ _ hk
  refine ⟨hfile, output, k, hleads, hk.symm, hkne, ?_⟩
  have hextension := (isChosen_spelling (h.chosen r hr)).1
  unfold Settings.hasExtension at hextension ⊢
  rwa [targetPath, Path.extension?_congr houtput hinput hkne hne hnames
    (h.inputs.isName htree hr) hlast]

end Preparation

section Writing

variable {s : Settings} {tree t : FileTree} {input output : Location} {files : List Location}

/-- While files are converted, a file stays a file.  It changes only if it is the target of a file
that is taken, and then it holds that file's new text. -/
theorem convertAll_fileAt? (hreal : s.dryRun = false) (ht : Ready s output t)
    (htree : tree.WellFormed) {done : List Location} (hdone : Inputs tree input done)
    {l : Location} (hl : t.isFileAt l) : (convertAll s done t).2.isFileAt l ∧
    ((convertAll s done t).2.fileAt? l = t.fileAt? l ∨
      ∃ o ∈ (convertAll s done t).1, o.report.status.isTaken ∧ output ++ o.relative = l ∧
        (convertAll s done t).2.fileAt? l = some (.text (newText s o.relative o.source))) := by
  have hwrote := wrote_convertAll hreal done ht.wellFormed
  obtain ⟨content, hcontent⟩ := FileTree.isFileAt_iff.mp hl
  rcases hwrote.entry l with hkept | ⟨hnone, -, -⟩ | ⟨-, o, ho, htaken, hleads, hwritten⟩
  · exact ⟨FileTree.isFileAt_iff.mpr ⟨content, hkept.trans hcontent⟩,
      .inl (FileTree.fileAt?_congr hkept)⟩
  · rw [hcontent] at hnone
    cases hnone
  · refine ⟨FileTree.isFileAt_iff.mpr ⟨_, hwritten⟩, .inr ⟨o, ho, htaken, ?_,
      FileTree.fileAt?_eq_some_iff.mpr hwritten⟩⟩
    have hmem : o.relative ∈ done := relative_mem_of_convertAll ho
    have hnames := hdone.isName htree hmem
    rw [locate_targetPath (FileTree.locate_mono hwrote.directoriesIn ht.leads)
      (hdone.file _ hmem).1 hnames] at hleads
    exact (FileTree.eq_of_follow_names hnames hleads).symm

end Writing

section Safety

variable {started : Text} {args : Arguments} {tree : FileTree} {s : Settings}
  {files : List Location} {input : Location}

/-- An input is safe from the output directory in which it lies: that is not cleaned, and it is the
input directory with cleaning off, or what is stored in the place of the input is what is there. -/
def SafeBelow (s : Settings) (files : List Location) (input : Location) (tree t : FileTree)
    (output r : Location) : Prop :=
  isCleaned s tree = false ∧ (s.clean = false ∧ output = input ∨
    ∀ done, done.Subperm files → ∀ o ∈ (convertAll s done t).1, o.report.status.isTaken = true →
      output ++ o.relative = input ++ r →
      tree.fileAt? (input ++ r) = some (.text (newText s o.relative o.source)))

/-- The inputs are kept exactly if those below the output directory are safe there. -/
theorem inputsKept_iff_safeBelow (htree : tree.WellFormed) {ignored : List Glob}
    (habsolute : Path.isAbsolute s.input ∧ Path.isAbsolute s.output)
    (hfound : Found s ignored tree input files) (hreal : s.dryRun = false) {t : FileTree}
    (hprepare : prepare s tree = (t, none)) {output : Location} (ht : Ready s output t) :
    InputsKept s files input tree ↔
      ∀ r ∈ files, output <+: input ++ r → SafeBelow s files input tree t output r := by
  have hmoment : ∀ done, (execute s done tree).2 = (convertAll s done t).2 := fun done => by
    rw [execute_of_prepare hreal done hprepare]
  have hleads : ∀ done, (convertAll s done t).2.locate s.output = .ok output := fun done =>
    FileTree.locate_mono (wrote_convertAll hreal done ht.wellFormed).directoriesIn ht.leads
  constructor
  · intro hkept r hr hbelow
    constructor
    · -- If the output directory were cleaned, the input would be gone at once.
      cases hclean : isCleaned s tree with
      | false => rfl
      | true =>
        obtain ⟨-, output', hleads', hdirectory⟩ := isCleaned_iff.mp hclean
        rcases prepare_ok hprepare with ⟨-, -, rfl⟩ | ⟨hnot, -⟩
        · have hsame := FileTree.locate_mono (clean_directoriesIn (s := s)) hleads'
          rw [ht.leads] at hsame
          cases hsame
          have hstale := hfound.isStale htree habsolute.1 habsolute.2 hleads' hdirectory hr hbelow
          have hgone : FileTree.entry? (clean s tree) (input ++ r) = none :=
            (clean_cases s tree _).elim (·.2) fun h => absurd hstale h.1
          have hthere := (hkept [] (List.nil_subperm) r hr).1
          rw [hmoment, convertAll, FileTree.isFileAt_eq_false_of_none hgone] at hthere
          cases hthere
        · rw [hclean] at hnot
          cases hnot
    · refine or_iff_not_imp_left.mpr fun hother done hdone o ho htaken hplace => ?_
      have hlaid := laid_convertAll habsolute.2 hreal htree (hfound.inputs.subperm hdone) ht
      have htext := hlaid.text o ho htaken
      rw [hplace, ← FileTree.fileAt?_eq_some_iff, ← hmoment] at htext
      by_contra hchanged
      obtain ⟨hclean, hsame⟩ := (hkept done hdone r hr).2 fun heq => hchanged (heq ▸ htext)
      rw [hmoment, hleads] at hsame
      exact hother ⟨hclean, Except.ok.inj hsame⟩
  · intro hsafe done hdone r hr
    rw [hmoment]
    have hbefore : t.fileAt? (input ++ r) = tree.fileAt? (input ++ r) := by
      refine fileAt?_of_prepare htree hprepare ht.leads ?_
      by_cases hbelow : output <+: input ++ r
      · exact .inl (hsafe r hr hbelow).1
      · exact .inr fun hstrict => hbelow hstrict.1
    have hfile : t.isFileAt (input ++ r) := by
      rw [FileTree.isFileAt, hbefore]
      exact (hfound.inputs.file r hr).2
    obtain ⟨hthere, hunchanged | ⟨o, ho, htaken, hplace, hnew⟩⟩ :=
      convertAll_fileAt? hreal ht htree (hfound.inputs.subperm hdone) hfile
    · exact ⟨hthere, fun hne => absurd (hunchanged.trans hbefore) hne⟩
    · refine ⟨hthere, fun hne => ?_⟩
      have hbelow : output <+: input ++ r := hplace ▸ List.prefix_append _ _
      rcases (hsafe r hr hbelow).2 with ⟨hclean, rfl⟩ | hsame
      · exact ⟨hclean, hleads done⟩
      · exact absurd (hnew.trans (hsame done hdone o ho htaken hplace).symm) hne

/-- A run started in an absolute directory executes its plan.  If there are no two dots in the paths
of its input and output directories, it removes no file that it has found, and overwrites one only
if the output directory is the input directory and cleaning is off.  Whatever the paths, this is so
exactly if the run does not get to write, or if every input that lies below the output directory is
safe there. -/
theorem inputs_kept_iff (hstarted : Path.isAbsolute started = true) (htree : tree.WellFormed)
    (hplan : plan started args tree = .ok (s, files)) (hinput : tree.locate s.input = .ok input) :
    run started args tree = execute s files tree ∧
    (Path.Part.up ∉ Path.parts s.input → Path.Part.up ∉ Path.parts s.output →
      InputsKept s files input tree) ∧
    (InputsKept s files input tree ↔
      ∀ t output, s.dryRun = false → prepare s tree = (t, none) → t.locate s.output = .ok output →
        ∀ r ∈ files, output <+: input ++ r → SafeBelow s files input tree t output r) := by
  obtain ⟨hsettings, input', ignored, hinput', -, -, hfilter⟩ := plan_ok hplan
  rw [hinput] at hinput'
  cases hinput'
  have habsolute := isAbsolute_of_settings hstarted hsettings
  have hfound : Found s ignored tree input files := hfilter ▸ found_filter htree hinput
  have hiff : InputsKept s files input tree ↔
      ∀ t output, s.dryRun = false → prepare s tree = (t, none) → t.locate s.output = .ok output →
        ∀ r ∈ files, output <+: input ++ r → SafeBelow s files input tree t output r := by
    by_cases hwrites : s.dryRun = false ∧ ∃ t, prepare s tree = (t, none)
    · obtain ⟨hreal, t, hprepare⟩ := hwrites
      obtain ⟨output, ht⟩ := ready_of_prepare htree hprepare
      rw [inputsKept_iff_safeBelow htree habsolute hfound hreal hprepare ht]
      constructor
      · intro h t' output' _ hprepare' hleads'
        rw [hprepare] at hprepare'
        cases hprepare'
        rw [ht.leads] at hleads'
        cases hleads'
        exact h
      · exact fun h => h t output hreal hprepare ht.leads
    · refine ⟨fun _ t output hreal hprepare => absurd ⟨hreal, t, hprepare⟩ hwrites, fun _ => ?_⟩
      have hidle : s.dryRun = true ∨ ∃ t e, prepare s tree = (t, some e) := by
        cases hdry : s.dryRun with
        | true => exact .inl rfl
        | false =>
          rcases hprepare : prepare s tree with ⟨t, _ | e⟩
          · exact absurd ⟨hdry, t, hprepare⟩ hwrites
          · exact .inr ⟨t, e, rfl⟩
      intro done _ r hr
      have hsame := execute_fileAt? htree hidle done (input ++ r)
      refine ⟨?_, fun hne => absurd hsame hne⟩
      rw [FileTree.isFileAt, hsame]
      exact (hfound.inputs.file r hr).2
  refine ⟨run_of_plan hplan, fun hdots hdots' => hiff.mpr ?_, hiff⟩
  intro t output _ hprepare hleads r hr hbelow
  obtain ⟨hnot, hclean, hsame⟩ := hfound.not_cleaned htree ⟨habsolute.1, hdots⟩
    ⟨habsolute.2, hdots'⟩ hprepare hleads hr hbelow
  exact ⟨hnot, .inl ⟨hclean, hsame⟩⟩

end Safety

/-- With the output directory inside the input directory, the inputs are kept. -/
theorem inputs_kept_iff_nested : convertedBefore.WellFormed ∧
    ∃ s, plan "/" (between "in" "in/out") convertedBefore = .ok (s, [["A.js"]]) ∧
      convertedBefore.locate s.input = .ok ["in"] ∧
      InputsKept s [["A.js"]] ["in"] convertedBefore := by
  have htree : convertedBefore.WellFormed := by decide +kernel
  have hplan : plan "/" (between "in" "in/out") convertedBefore =
      .ok (⟨"/./in", "/./in/out", ["js", "jsx"], [], false, true, false, .human, false,
        Options.default⟩, [["A.js"]]) := by decide +kernel
  have hinput : convertedBefore.locate "/./in" = .ok ["in"] := by decide +kernel
  obtain ⟨-, hplain, -⟩ := inputs_kept_iff (by decide) htree hplan hinput
  exact ⟨htree, _, hplan, hinput, hplain (by decide +kernel) (by decide +kernel)⟩

/-- The input directory under another spelling is taken for another directory and cleaned: the file
that was found is removed before it is read. -/
theorem respelled_output_removes_input : convertedBefore.WellFormed ∧
    ∃ s, plan "/" (between "in" "in/../in") convertedBefore = .ok (s, [["A.js"]]) ∧
      convertedBefore.locate s.input = .ok ["in"] ∧
      (run "/" (between "in" "in/../in") convertedBefore).2.isFileAt ["in", "A.js"] = false ∧
      ¬ InputsKept s [["A.js"]] ["in"] convertedBefore := by
  have hplan : plan "/" (between "in" "in/../in") convertedBefore =
      .ok (⟨"/./in", "/./in/../in", ["js", "jsx"], [], false, true, false, .human, false,
        Options.default⟩, [["A.js"]]) := by decide +kernel
  have hgone : (run "/" (between "in" "in/../in") convertedBefore).2.isFileAt ["in", "A.js"] =
      false := by decide +kernel
  refine ⟨by decide +kernel, _, hplan, by decide +kernel, hgone, fun hkept => ?_⟩
  have hthere := (hkept [["A.js"]] (List.Subperm.refl _) ["A.js"] (by simp)).1
  rw [run_of_plan hplan] at hgone
  exact Bool.false_ne_true (hgone.symm.trans hthere)

end Run
end Declass
