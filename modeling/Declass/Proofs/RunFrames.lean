import Declass.Proofs.RunSteps

/-!
# What a run changes

**Input.** The words of a command line, or arguments, and a well-formed file tree.

**Algorithm.** Every step of a run says of every location what has become of it.  Converting one
file after the other adds up to such a statement about all of them (`Wrote`), and preparing the
output directory goes in front of it.

**Results.** `changes_confined`: without arguments that can be used, in a dry run and after every
error but that of an output directory that cannot be made, the tree is what it was.  After a run
that came to its end, every location is as before, or it is one of the changes that a run makes
(`Change`).
-/

namespace Declass
namespace Run

section Writing

variable {s : Settings}

/-- What has become of the tree `t` when the files with the given outcomes have been converted: new
directories on the way to targets, and the new texts at targets. -/
structure Wrote (s : Settings) (t u : FileTree) (outcomes : List FileOutcome) : Prop where
  wellFormed : u.WellFormed
  directoriesIn : t.DirectoriesIn u
  entry : ∀ l, u.entry? l = t.entry? l ∨
    (t.entry? l = none ∧ u.entry? l = some .directory ∧
      ∃ o ∈ outcomes, o.report.status ≠ .skipped ∧
        ∃ a, Path.ProperlyAbove a (targetPath s o.relative) ∧ u.locate a = .ok l) ∨
    (t.entry? l ≠ some .directory ∧ ∃ o ∈ outcomes, o.report.status.isTaken = true ∧
      u.locate (targetPath s o.relative) = .ok l ∧
      u.entry? l = some (.file (.text (newText s o.relative o.source))))

theorem Wrote.refl {t : FileTree} (ht : t.WellFormed) (outcomes : List FileOutcome) :
    Wrote s t t outcomes := ⟨ht, fun _ h => h, fun _ => .inl rfl⟩

theorem wrote_convertFile (hreal : s.dryRun = false) (r : Location) {t : FileTree}
    (ht : t.WellFormed) : Wrote s t (convertFile s r t).2 [(convertFile s r t).1] := by
  rw [convertFile_eq hreal]
  split
  · rename_i hhanded
    have hstored := store_stored ht (targetPath s r) (handedText s r (t.read (sourcePath s r)))
    refine ⟨hstored.wellFormed, hstored.directoriesIn, fun l => ?_⟩
    simp only [List.mem_singleton, exists_eq_left, outcomeOf_relative, isTaken_outcomeOf,
      newText_outcomeOf hhanded, hhanded, Bool.true_and]
    rcases hstored.entry l with hkept | hmade | ⟨htaken, hl, hlocate, hwritten⟩
    · exact .inl hkept
    · exact .inr (.inl ⟨hmade.1, hmade.2.1, outcomeOf_ne_skipped hhanded _, hmade.2.2⟩)
    · exact .inr (.inr ⟨hl, by rw [htaken]; rfl, hlocate, hwritten⟩)
  · exact .refl ht _

theorem Wrote.cons {t u v : FileTree} {o : FileOutcome} {outcomes : List FileOutcome}
    (htu : Wrote s t u [o]) (huv : Wrote s u v outcomes) : Wrote s t v (o :: outcomes) := by
  refine ⟨huv.wellFormed, htu.directoriesIn.trans huv.directoriesIn, fun l => ?_⟩
  rcases huv.entry l with hkept | ⟨hnone, hmade, o', ho', h⟩ | ⟨hl, o', ho', h⟩
  · rw [hkept]
    rcases htu.entry l with hold | ⟨hnone, hmade, o', ho', hstatus, a, ha, hleads⟩ |
      ⟨hl, o', ho', htaken, hleads, hwritten⟩
    · exact .inl hold
    · rw [List.mem_singleton.mp ho'] at hstatus ha
      exact .inr (.inl ⟨hnone, hmade, o, by simp, hstatus, a, ha,
        FileTree.locate_mono huv.directoriesIn hleads⟩)
    · rw [List.mem_singleton.mp ho'] at htaken hleads hwritten
      exact .inr (.inr ⟨hl, o, by simp, htaken, FileTree.locate_mono huv.directoriesIn hleads,
        hwritten⟩)
  · -- Nothing was here before `v`: the first file cannot have put anything here either.
    rcases htu.entry l with hold | ⟨-, hmade', -⟩ | ⟨-, _, -, -, -, hwritten⟩
    · exact .inr (.inl ⟨hold ▸ hnone, hmade, o', List.mem_cons_of_mem _ ho', h⟩)
    · rw [hmade'] at hnone
      cases hnone
    · rw [hwritten] at hnone
      cases hnone
  · exact .inr (.inr ⟨fun h => hl (htu.directoriesIn l h), o', List.mem_cons_of_mem _ ho', h⟩)

/-- What all files do, one after the other. -/
theorem wrote_convertAll (hreal : s.dryRun = false) (files : List Location) {t : FileTree}
    (ht : t.WellFormed) : Wrote s t (convertAll s files t).2 (convertAll s files t).1 := by
  induction files generalizing t with
  | nil => exact .refl ht []
  | cons r rest ih =>
    have hfirst := wrote_convertFile hreal r ht
    exact hfirst.cons (ih hfirst.wellFormed)

end Writing

/-- What can have become of a location in a run with the given outcomes: the entry is as before; it
was a file of an earlier run and is gone; there is a directory in a place that was free, on the way
to the output directory or to the target of a file that was not skipped; or there is the new text of
a file whose target it is, and it was no directory. -/
inductive Change (s : Settings) (tree : FileTree) (outcomes : List FileOutcome) (after : FileTree)
    (l : Location) : Prop
  | kept (h : after.entry? l = tree.entry? l)
  | removed (hclean : s.clean = true) (hstale : IsStale s tree l) (h : after.entry? l = none)
  | made (hfree : tree.entry? l = none ∨ s.clean = true ∧ IsStale s tree l) {path : Text}
      (hpath : Path.Above path s.output ∨ ∃ o ∈ outcomes, o.report.status ≠ .skipped ∧
        Path.ProperlyAbove path (targetPath s o.relative))
      (hleads : after.locate path = .ok l) (h : after.entry? l = some .directory)
  | written (hplace : tree.entry? l ≠ some .directory) {o : FileOutcome} (ho : o ∈ outcomes)
      (htaken : o.report.status.isTaken = true)
      (hleads : after.locate (targetPath s o.relative) = .ok l)
      (h : after.entry? l = some (.file (.text (newText s o.relative o.source))))

section Frames

variable {s : Settings} {tree : FileTree}

/-- What has become of a location when the output directory is prepared. -/
theorem change_of_prepare (htree : tree.WellFormed) {t : FileTree}
    (h : prepare s tree = (t, none)) (l : Location) : t.entry? l = tree.entry? l ∨
      (s.clean ∧ IsStale s tree l ∧ t.entry? l = none) ∨
      (tree.entry? l = none ∧ t.entry? l = some .directory ∧
        ∃ path, Path.Above path s.output ∧ t.locate path = .ok l) := by
  rcases prepare_ok h with ⟨hclean, -, rfl⟩ | ⟨-, hmake⟩
  · rcases clean_cases s tree l with ⟨hstale, hnone⟩ | ⟨-, hkept⟩
    · exact .inr (.inl ⟨(isCleaned_iff.mp hclean).1, hstale, hnone⟩)
    · exact .inl hkept
  · exact ((FileTree.makeDirectories_built htree hmake).1.entry l).imp_right .inr

theorem change_of_wrote (htree : tree.WellFormed) {t u : FileTree} {outcomes : List FileOutcome}
    (h : prepare s tree = (t, none)) (hwrote : Wrote s t u outcomes) (l : Location) :
    Change s tree outcomes u l := by
  obtain ⟨-, hdirectories, -⟩ := prepare_output htree h
  have hprepared := change_of_prepare htree h l
  rcases hwrote.entry l with hkept | ⟨hnone, hmade, o, ho, hstatus, a, ha, hleads⟩ |
    ⟨hl, o, ho, htaken, hleads, hwritten⟩
  · rcases hprepared with hold | ⟨hclean, hstale, hnone⟩ | ⟨hnone, hmade, a, ha, hleads⟩
    · exact .kept (hkept.trans hold)
    · exact .removed hclean hstale (hkept.trans hnone)
    · exact .made (.inl hnone) (.inl ha) (FileTree.locate_mono hwrote.directoriesIn hleads)
        (hkept.trans hmade)
  · refine .made ?_ (.inr ⟨o, ho, hstatus, ha⟩) hleads hmade
    rcases hprepared with hold | ⟨hclean, hstale, -⟩ | ⟨hnone, -, -⟩
    · exact .inl (hold ▸ hnone)
    · exact .inr ⟨hclean, hstale⟩
    · exact .inl hnone
  · exact .written (fun hdirectory => hl (hdirectories l hdirectory)) ho htaken hleads hwritten

theorem finish_outcomes_perm {outcomes : List FileOutcome} :
    (finish s outcomes).outcomes.Perm outcomes := List.mergeSort_perm _ _

theorem Change.perm {outcomes outcomes' : List FileOutcome} {after : FileTree} {l : Location}
    (hperm : outcomes'.Perm outcomes) (h : Change s tree outcomes after l) :
    Change s tree outcomes' after l := by
  cases h with
  | kept h => exact .kept h
  | removed hclean hstale h => exact .removed hclean hstale h
  | made hfree hpath hleads h =>
    refine .made hfree (hpath.imp_right ?_) hleads h
    rintro ⟨o, ho, hstatus⟩
    exact ⟨o, hperm.mem_iff.mpr ho, hstatus⟩
  | written hplace ho htaken hleads h =>
    exact .written hplace (hperm.mem_iff.mpr ho) htaken hleads h

/-- What a run with checked settings can do. -/
theorem execute_cases (htree : tree.WellFormed) (files : List Location) :
    (s.dryRun → (execute s files tree).2 = tree) ∧ (∀ e, (execute s files tree).1 = .error e →
      (∃ cause, e = .outputUnprepared s.output cause) ∨ (execute s files tree).2 = tree) ∧
    ∀ finished, (execute s files tree).1 = .ok finished →
      (finished.outcomes.map FileOutcome.relative).Perm files ∧
      ∀ l, Change s tree finished.outcomes (execute s files tree).2 l := by
  cases hdry : s.dryRun with
  | true =>
    rw [execute_dry hdry]
    refine ⟨fun _ => rfl, fun e h => (by cases h), fun finished h => ?_⟩
    cases h
    refine ⟨(finish_outcomes_perm.map _).trans ?_, fun l => .kept rfl⟩
    rw [map_outcomeOf_relative]
  | false =>
    refine ⟨fun h => (by cases h), ?_⟩
    cases hprepare : prepare s tree with
    | mk t failed =>
      cases failed with
      | some e =>
        rw [execute_of_prepare_error hdry files hprepare]
        refine ⟨fun e' h => ?_, fun finished h => (by cases h)⟩
        cases h
        rcases prepare_error hprepare with ⟨-, rfl⟩ | ⟨-, cause, he, -⟩
        · exact .inr rfl
        · exact .inl ⟨cause, he⟩
      | none =>
        rw [execute_of_prepare hdry files hprepare]
        refine ⟨fun e h => (by cases h), fun finished h => ?_⟩
        cases h
        obtain ⟨ht, -, -⟩ := prepare_output htree hprepare
        refine ⟨(finish_outcomes_perm.map _).trans (by rw [convertAll_relative]), fun l => ?_⟩
        exact (change_of_wrote htree hprepare (wrote_convertAll hdry files ht) l).perm
          finish_outcomes_perm

end Frames

/-- Words that give no arguments leave the tree as it was.  So does a dry run, and so does every run
that ends with an error other than an output directory that could not be prepared.  A run that comes
to its end reports the files that it found, and leaves at every location one of the changes that a
run makes. -/
theorem changes_confined (started : Text) {tree : FileTree} (htree : tree.WellFormed) :
    (∀ words e, Arguments.parse words = .error e → (command started words tree).2 = tree) ∧
    (∀ words args, Arguments.parse words = .ok args →
      (command started words tree).2 = (run started args tree).2) ∧
    ∀ args,
      (args.dryRun = true → (run started args tree).2 = tree) ∧
      (∀ e, (run started args tree).1 = .error e →
        (∀ output cause, e ≠ .outputUnprepared output cause) → (run started args tree).2 = tree) ∧
      ∀ finished, (run started args tree).1 = .ok finished →
        ∃ s files, plan started args tree = .ok (s, files) ∧
          (finished.outcomes.map FileOutcome.relative).Perm files ∧
          ∀ l, Change s tree finished.outcomes (run started args tree).2 l := by
  refine ⟨fun words e h => ?_, fun words args h => ?_, fun args => ?_⟩
  · unfold command
    rw [h]
  · unfold command
    rw [h]
  · cases hplan : plan started args tree with
    | error e =>
      rw [run_of_plan_error hplan]
      exact ⟨fun _ => rfl, fun _ _ _ => rfl, fun finished h => (by cases h)⟩
    | ok planned =>
      obtain ⟨s, files⟩ := planned
      obtain ⟨hdry, herror, hdone⟩ := execute_cases (s := s) htree files
      rw [run_of_plan hplan]
      refine ⟨fun h => hdry ?_, fun e he hcause => ?_, fun finished h =>
        ⟨s, files, rfl, hdone finished h⟩⟩
      · rw [settingsOf_dryRun (plan_ok hplan).1, h]
      · rcases herror e he with ⟨cause, rfl⟩ | hkept
        · exact absurd rfl (hcause _ _)
        · exact hkept

/-- A class component, and an output directory with files of an earlier run. -/
def convertedBefore : FileTree :=
  ⟨[(["in"], .directory),
    (["in", "A.js"], .file (.text "class A extends Component\x7brender()\x7breturn 0\x7d\x7d")),
    (["out"], .directory), (["out", "Old.js"], .file (.text [])),
    (["out", "Old.md"], .file (.text []))]⟩

/-- The arguments that name the two directories and nothing else. -/
def between (input output : Text) : Arguments :=
  { Arguments.default with input := some input, output := some output }

/-- A run on that tree comes to its end, and one of the two old files is gone. -/
theorem changes_confined_cleaning : convertedBefore.WellFormed ∧
    ∃ finished, (run "/" (between "in" "out") convertedBefore).1 = .ok finished ∧
      FileTree.entry? (run "/" (between "in" "out") convertedBefore).2 ["out", "Old.js"] = none ∧
      ∃ s files, plan "/" (between "in" "out") convertedBefore = .ok (s, files) ∧
        (finished.outcomes.map FileOutcome.relative).Perm files ∧
        ∀ l, Change s convertedBefore finished.outcomes
          (run "/" (between "in" "out") convertedBefore).2 l := by
  have htree : convertedBefore.WellFormed := by decide +kernel
  obtain ⟨hends, hgone⟩ : (run "/" (between "in" "out") convertedBefore).1.isOk = true ∧
      FileTree.entry? (run "/" (between "in" "out") convertedBefore).2 ["out", "Old.js"] =
        none := by decide +kernel
  obtain ⟨-, -, hruns⟩ := changes_confined "/" htree
  obtain ⟨-, -, hdone⟩ := hruns (between "in" "out")
  cases hrun : (run "/" (between "in" "out") convertedBefore).1 with
  | error e =>
    rw [hrun] at hends
    cases hends
  | ok finished => exact ⟨htree, finished, rfl, hgone, hdone finished hrun⟩

end Run
end Declass
