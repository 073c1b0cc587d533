import Mathlib
import Declass.Proofs.RunPaths

/-!
# The order of the files

**Input.** Settings with absolute paths without two dots, a well-formed file tree, and the files
found in it, in any order.

**Algorithm.** The files do not get in each other's way, so each has the outcome that it would have
if it came first, and the tree that is left is told by the outcomes alone.  The end of a run sorts
the outcomes by where the files lie, and no two files lie at one place.

**Results.** `execute_order_irrelevant`: the report, the counts and the tree that is left are the
same for every order, and the report goes through the files as they were found, in increasing order.
-/

namespace Declass
namespace Run

section Reports

variable {s : Settings} {outcomes : List FileOutcome}

theorem pairwise_finish : (finish s outcomes).outcomes.Pairwise fun a b =>
      Location.notAfter a.relative b.relative :=
  @List.pairwise_mergeSort _ (fun a b : FileOutcome => Location.notAfter a.relative b.relative)
    (fun _ _ _ => Location.notAfter_trans) (fun _ _ => Location.notAfter_total _ _) outcomes

/-- The end of a run does not depend on the order in which the files were converted. -/
theorem finish_perm {outcomes' : List FileOutcome} (hperm : outcomes'.Perm outcomes)
    (hnodup : (outcomes.map FileOutcome.relative).Nodup) :
    finish s outcomes' = finish s outcomes := by
  have hsorted : (finish s outcomes').outcomes = (finish s outcomes).outcomes := by
    refine List.Perm.eq_of_pairwise ?_ pairwise_finish pairwise_finish
      (finish_outcomes_perm.trans (hperm.trans finish_outcomes_perm.symm))
    intro a b ha hb hab hba
    refine List.inj_on_of_nodup_map hnodup ?_ ?_ (Location.notAfter_antisymm hab hba)
    · exact hperm.mem_iff.mp (finish_outcomes_perm.mem_iff.mp ha)
    · exact finish_outcomes_perm.mem_iff.mp hb
  unfold finish at hsorted ⊢
  dsimp only at hsorted ⊢
  rw [hsorted]

/-- The report goes through the files in the order of their names. -/
theorem finish_relative {files : List Location}
    (hperm : (outcomes.map FileOutcome.relative).Perm files)
    (hfiles : files.Pairwise fun l m => Location.notAfter l m) :
    (finish s outcomes).outcomes.map FileOutcome.relative = files := by
  refine List.Perm.eq_of_pairwise (fun _ _ _ _ => Location.notAfter_antisymm) ?_ hfiles
    ((finish_outcomes_perm.map _).trans hperm)
  exact List.pairwise_map.mpr pairwise_finish

end Reports

section Trees

variable {s : Settings} {output : Location} {t u v : FileTree}

/-- The outcomes tell what is left of a tree. -/
theorem Laid.entry_eq {outcomes outcomes' : List FileOutcome} (hu : Laid s output t u outcomes)
    (hv : Laid s output t v outcomes') (hperm : outcomes'.Perm outcomes) (l : Location) :
    v.entry? l = u.entry? l := by
  by_cases hon : ∃ o ∈ outcomes, o.report.status.isTaken ∧ output <+: l ∧ l <+: output ++ o.relative
  · obtain ⟨o, ho, htaken, hl, hlong⟩ := hon
    have ho' := hperm.mem_iff.mpr ho
    by_cases hplace : l = output ++ o.relative
    · rw [hplace, hu.text o ho htaken, hv.text o ho' htaken]
    · rw [hu.way o ho htaken l hl hlong hplace, hv.way o ho' htaken l hl hlong hplace]
  · rw [hu.rest l fun o ho htaken hway => hon ⟨o, ho, htaken, hway⟩,
      hv.rest l fun o ho htaken hway => hon ⟨o, hperm.mem_iff.mp ho, htaken, hway⟩]

end Trees

section Orders

variable {s : Settings} {ignored : List Glob} {tree : FileTree} {input : Location}
  {files order : List Location}

theorem pairwise_discover :
    (discover s ignored tree).Pairwise fun l m => Location.notAfter l m := by
  unfold discover
  split
  · exact (FileTree.pairwise_filesBelow _).filter _
  · exact .nil

theorem found_discover (s : Settings) (ignored : List Glob) (htree : tree.WellFormed) :
    discover s ignored tree = [] ∨
      ∃ input, Found s ignored tree input (discover s ignored tree) := by
  unfold discover
  split
  · rename_i input hleads
    exact .inr ⟨input, found_filter htree hleads⟩
  · exact .inl rfl

/-- Files that were found can be converted in any order. -/
theorem Found.execute_perm (h : Found s ignored tree input files) (htree : tree.WellFormed)
    (hplain : Path.IsPlain s.input) (hplain' : Path.IsPlain s.output) (horder : order.Perm files) :
    (execute s order tree).1 = (execute s files tree).1 ∧
    (execute s order tree).2.entries.Perm (execute s files tree).2.entries := by
  cases hdry : s.dryRun with
  | true =>
    rw [execute_dry hdry, execute_dry hdry, finish_perm (horder.map _)
      (by rw [map_outcomeOf_relative]; exact h.inputs.nodup)]
    exact ⟨rfl, .refl _⟩
  | false =>
    rcases hprepare : prepare s tree with ⟨t, _ | e⟩
    · obtain ⟨output, ht⟩ := ready_of_prepare htree hprepare
      have hfound := h.subperm horder.subperm
      have hperm : (convertAll s order t).1.Perm (convertAll s files t).1 := by
        rw [hfound.convertAll_outcomes htree hplain hplain' hdry hprepare ht,
          h.convertAll_outcomes htree hplain hplain' hdry hprepare ht]
        exact horder.map _
      rw [execute_of_prepare hdry _ hprepare, execute_of_prepare hdry _ hprepare,
        finish_perm hperm (by rw [convertAll_relative]; exact h.inputs.nodup)]
      refine ⟨rfl, FileTree.entries_perm (wrote_convertAll hdry order ht.wellFormed).wellFormed
        (wrote_convertAll hdry files ht.wellFormed).wellFormed ?_⟩
      exact (laid_convertAll hplain'.1 hdry htree h.inputs ht).entry_eq
        (laid_convertAll hplain'.1 hdry htree hfound.inputs ht) hperm
    · rw [execute_of_prepare_error hdry _ hprepare, execute_of_prepare_error hdry _ hprepare]
      exact ⟨rfl, .refl _⟩

/-- The outcomes that a run reports are those of the files that it was given. -/
theorem execute_relative {finished : Finished} (h : (execute s order tree).1 = .ok finished)
    (horder : order.Perm files) (hfiles : files.Pairwise fun l m => Location.notAfter l m) :
    finished.outcomes.map FileOutcome.relative = files := by
  unfold execute at h
  split at h
  · cases h
  · cases h
    refine finish_relative ?_ hfiles
    rw [convertAll_relative]
    exact horder

/-- With absolute paths without two dots, the files that were found can be converted in any order:
what is reported and what is left of the tree are the same.  Every file is reported once, and the
report goes through them in increasing order. -/
theorem execute_order_irrelevant (htree : tree.WellFormed) (hinput : Path.IsPlain s.input)
    (houtput : Path.IsPlain s.output) (horder : order.Perm (discover s ignored tree)) :
    (execute s order tree).1 = (execute s (discover s ignored tree) tree).1 ∧
    (execute s order tree).2.entries.Perm (execute s (discover s ignored tree) tree).2.entries ∧
    (discover s ignored tree).Pairwise (fun l m => Location.notAfter l m = true ∧ l ≠ m) ∧
    ∀ finished, (execute s order tree).1 = .ok finished →
      finished.outcomes.map FileOutcome.relative = discover s ignored tree := by
  have hreported : ∀ finished, (execute s order tree).1 = .ok finished →
      finished.outcomes.map FileOutcome.relative = discover s ignored tree :=
    fun finished hdone => execute_relative hdone horder pairwise_discover
  rcases found_discover s ignored htree with hnone | ⟨input, hfound⟩
  · rw [hnone] at horder hreported ⊢
    rw [horder.eq_nil] at hreported ⊢
    exact ⟨rfl, .refl _, .nil, hreported⟩
  · obtain ⟨hsame, htrees⟩ := hfound.execute_perm htree hinput houtput horder
    exact ⟨hsame, htrees, pairwise_discover.and hfound.inputs.nodup, hreported⟩

end Orders

/-- Two class components in one directory. -/
def twoComponents : FileTree :=
  ⟨[(["in"], .directory), (["in", "sub"], .directory),
    (["in", "sub", "B.js"],
      .file (.text "class B extends Component\x7brender()\x7breturn 1\x7d\x7d")),
    (["in", "sub", "A.js"],
      .file (.text "class A extends Component\x7brender()\x7breturn 0\x7d\x7d"))]⟩

/-- Where the two lie below the input directory. -/
def twoPlaces : List Location := [["sub", "A.js"], ["sub", "B.js"]]

/-- Settings that take all files below the input directory. -/
def everythingIn (input output : Text) : Settings :=
  ⟨input, output, ["js"], [], true, true, false, .human, false, Options.default⟩

/-- The two are converted from the end, and the report begins with the first. -/
theorem execute_order_irrelevant_reversed : twoComponents.WellFormed ∧
    Path.IsPlain "/in" ∧ Path.IsPlain "/out" ∧
    discover (everythingIn "/in" "/out") [] twoComponents = twoPlaces ∧
    ∃ finished,
      (execute (everythingIn "/in" "/out") twoPlaces.reverse twoComponents).1 = .ok finished ∧
      (execute (everythingIn "/in" "/out") twoPlaces twoComponents).1 = .ok finished ∧
      finished.outcomes.map FileOutcome.relative = twoPlaces := by
  have htree : twoComponents.WellFormed := by decide +kernel
  have hinput : Path.IsPlain "/in" := by decide +kernel
  have houtput : Path.IsPlain "/out" := by decide +kernel
  have hfiles : discover (everythingIn "/in" "/out") [] twoComponents = twoPlaces := by cbv
  have horder : twoPlaces.reverse.Perm
      (discover (everythingIn "/in" "/out") [] twoComponents) := hfiles ▸ List.reverse_perm _
  have hends : (execute (everythingIn "/in" "/out") twoPlaces.reverse twoComponents).1.isOk =
      true := by decide +kernel
  obtain ⟨hsame, -, -, hreported⟩ := execute_order_irrelevant htree hinput houtput horder
  rw [hfiles] at hsame hreported
  cases hrun : (execute (everythingIn "/in" "/out") twoPlaces.reverse twoComponents).1 with
  | error e =>
    rw [hrun] at hends
    cases hends
  | ok finished =>
    exact ⟨htree, hinput, houtput, hfiles, finished, rfl, hsame ▸ hrun, hreported finished hrun⟩

end Run
end Declass
