import Declass.Proofs.Checked
import Declass.Proofs.MadeDirectories
import Declass.Run

/-!
# The steps of a run

**Input.** Settings, a well-formed file tree, and the files that a run converts.

**Algorithm.** A run plans, prepares the output directory, and converts file after file.  Each of
these steps is taken apart once: which answers it can give, and what it does to the entries of the
tree.

**Results.**
* `convertFile_eq`: the outcome of a file depends on the tree only through what the file reads as
  and whether its new text can be stored.
* `store_stored` and `clean_cases`: what storing a text and cleaning the output directory change.
* `prepare_ok`, `prepare_error` and `plan_ok`: the ways in which preparing and planning end.
-/

namespace Declass

open FileTree (below? entry? isDirectory_iff isFileAt_iff locate_mono write)

/-- Whether the new text of a file has been taken, with or without a fault in its conversion. -/
def Status.isTaken : Status → Bool
  | .written _ | .errored (.fault _) => true
  | .skipped | .errored (.unreadable _) | .errored (.notTaken _) => false

namespace Run

section Outcomes

variable (s : Settings) (r : Location)

/-- A file below the input directory as a source with the given text. -/
def sourceOf (content : Text) : Source := ⟨Path.stem (sourcePath s r), content⟩

/-- What is handed on for a file with the given text. -/
def newText (content : Text) : Text := (Batch.result s.options (sourceOf s r content)).1.code

/-- The status of a file whose new text is handed on, given why it could not be written. -/
def statusOf (content : Text) (refused : Option OsError) : Status :=
  match refused, (Batch.result s.options (sourceOf s r content)).2 with
  | some cause, _ => .errored (.notTaken (.unwritten (targetPath s r) cause))
  | none, some fault => .errored (.fault fault)
  | none, none => .written (Batch.result s.options (sourceOf s r content)).1.outcome

/-- The outcome of a file, given what it reads as and why its new text could not be written. -/
def outcomeOf (reading : Except OsError Text) (refused : Option OsError) : FileOutcome :=
  match reading with
  | .error cause =>
    ⟨r, ⟨Path.stem (sourcePath s r), .errored (.unreadable cause), []⟩, [], none⟩
  | .ok content =>
    if Batch.isSkipped s.options (sourceOf s r content) then
      ⟨r, ⟨Path.stem (sourcePath s r), .skipped, []⟩, content, none⟩
    else
      ⟨r, ⟨Path.stem (sourcePath s r), statusOf s r content refused,
        (Batch.result s.options (sourceOf s r content)).1.warnings⟩, content,
        if s.dryRun then some (newText s r content) else none⟩

/-- Whether a file that reads as given has a new text to be stored. -/
def isHanded (reading : Except OsError Text) : Bool :=
  match reading with
  | .error _ => false
  | .ok content => !Batch.isSkipped s.options (sourceOf s r content)

/-- The text that is stored for a file that reads as given. -/
def handedText (reading : Except OsError Text) : Text :=
  match reading with
  | .error _ => []
  | .ok content => newText s r content

variable {s r} {reading : Except OsError Text}

/-- A dry run looks at a file and leaves the tree alone. -/
theorem convertFile_dry (hdry : s.dryRun) (t : FileTree) :
    convertFile s r t = (outcomeOf s r (t.read (sourcePath s r)) none, t) := by
  unfold convertFile outcomeOf
  dsimp only
  cases t.read (sourcePath s r) with
  | error cause => rfl
  | ok content =>
    dsimp only
    rw [if_pos hdry, if_pos hdry, Batch.process]
    cases hskip : Batch.isSkipped s.options (sourceOf s r content) with
    | true =>
      rw [sourceOf] at hskip
      simp [hskip]
    | false =>
      rw [sourceOf] at hskip
      simp only [hskip, newText, statusOf, sourceOf]
      cases Batch.result s.options ⟨Path.stem (sourcePath s r), content⟩ with
      | mk result fault =>
        cases fault with
        | none => rfl
        | some fault => rfl

/-- A file is read, and if it has a new text this is stored. -/
theorem convertFile_eq (hreal : s.dryRun = false) (t : FileTree) : convertFile s r t =
      if isHanded s r (t.read (sourcePath s r)) then
        (outcomeOf s r (t.read (sourcePath s r))
            (store t (targetPath s r) (handedText s r (t.read (sourcePath s r)))).2,
          (store t (targetPath s r) (handedText s r (t.read (sourcePath s r)))).1)
      else (outcomeOf s r (t.read (sourcePath s r)) none, t) := by
  unfold convertFile outcomeOf isHanded handedText
  dsimp only
  cases t.read (sourcePath s r) with
  | error cause => rfl
  | ok content =>
    simp only [hreal, Bool.false_eq_true, if_false]
    rw [Batch.process]
    cases hskip : Batch.isSkipped s.options (sourceOf s r content) with
    | true =>
      rw [sourceOf] at hskip
      simp [hskip]
    | false =>
      rw [sourceOf] at hskip
      simp only [hskip, writing, newText, statusOf, sourceOf]
      cases Batch.result s.options ⟨Path.stem (sourcePath s r), content⟩ with
      | mk result fault =>
        cases store t (targetPath s r) result.code with
        | mk u refused =>
          cases refused with
          | some cause => simp
          | none =>
            cases fault with
            | none => simp
            | some fault => simp

theorem outcomeOf_of_skipped {content : Text}
    (h : Batch.isSkipped s.options (sourceOf s r content)) (refused : Option OsError) :
    outcomeOf s r (.ok content) refused =
      ⟨r, ⟨Path.stem (sourcePath s r), .skipped, []⟩, content, none⟩ := if_pos h

theorem outcomeOf_of_not_skipped {content : Text}
    (h : Batch.isSkipped s.options (sourceOf s r content) = false) (refused : Option OsError) :
    outcomeOf s r (.ok content) refused =
      ⟨r, ⟨Path.stem (sourcePath s r), statusOf s r content refused,
        (Batch.result s.options (sourceOf s r content)).1.warnings⟩, content,
        if s.dryRun then some (newText s r content) else none⟩ := if_neg (by simp [h])

theorem outcomeOf_relative (reading : Except OsError Text) (refused : Option OsError) :
    (outcomeOf s r reading refused).relative = r := by
  unfold outcomeOf
  split
  · rfl
  · split <;> rfl

theorem map_outcomeOf_relative (files : List Location) (reading : Location → Except OsError Text)
    (refused : Location → Option OsError) :
    (files.map fun r => outcomeOf s r (reading r) (refused r)).map FileOutcome.relative =
      files := by
  simp [List.map_map, Function.comp_def, outcomeOf_relative]

/-- A file without a new text has the same outcome whatever is in the way of its target. -/
theorem outcomeOf_of_not_handed (h : isHanded s r reading = false)
    (refused refused' : Option OsError) :
    outcomeOf s r reading refused = outcomeOf s r reading refused' := by
  unfold outcomeOf
  unfold isHanded at h
  cases reading with
  | error cause => rfl
  | ok content =>
    dsimp only at h ⊢
    rw [if_pos (by simpa using h), if_pos (by simpa using h)]

/-- A text is taken exactly if there is one and nothing keeps it from being stored. -/
theorem isTaken_outcomeOf (reading : Except OsError Text) (refused : Option OsError) :
    (outcomeOf s r reading refused).report.status.isTaken =
      (isHanded s r reading && refused.isNone) := by
  unfold outcomeOf isHanded
  cases reading with
  | error cause => rfl
  | ok content =>
    dsimp only
    cases Batch.isSkipped s.options (sourceOf s r content) with
    | true => rfl
    | false =>
      unfold statusOf
      cases refused with
      | some cause => rfl
      | none =>
        cases (Batch.result s.options (sourceOf s r content)).2 with
        | none => rfl
        | some fault => rfl

theorem outcomeOf_ne_skipped (h : isHanded s r reading) (refused : Option OsError) :
    (outcomeOf s r reading refused).report.status ≠ .skipped := by
  unfold outcomeOf
  unfold isHanded at h
  cases reading with
  | error cause => cases h
  | ok content =>
    dsimp only at h ⊢
    rw [if_neg (by simpa using h)]
    unfold statusOf
    cases refused with
    | some cause => simp
    | none =>
      cases (Batch.result s.options (sourceOf s r content)).2 with
      | none => simp
      | some fault => simp

/-- The text that is stored is made from the text that the outcome holds. -/
theorem newText_outcomeOf (h : isHanded s r reading) (refused : Option OsError) :
    newText s r (outcomeOf s r reading refused).source = handedText s r reading := by
  unfold outcomeOf handedText
  unfold isHanded at h
  cases reading with
  | error cause => cases h
  | ok content =>
    dsimp only at h ⊢
    rw [if_neg (by simpa using h)]

end Outcomes

section Storing

variable {t : FileTree} {p content : Text} {l : Location}

theorem write_ok {u : FileTree} (h : t.write p content = .ok u) :
    ∃ l, t.locate p = .ok l ∧ t.entry? l ≠ some .directory ∧
      u = t.put l (.file (.text content)) := by
  obtain ⟨l, hlocate, h⟩ := bind_eq_ok h
  split at h
  · cases h
  · rename_i hl
    cases h
    exact ⟨l, hlocate, by simpa using hl, rfl⟩

theorem write_of_directory (hlocate : t.locate p = .ok l) (hl : t.entry? l = some .directory) :
    t.write p content = .error .isADirectory := by
  unfold write
  rw [hlocate]
  simp [hl, bind, Except.bind, throw, throwThe, MonadExceptOf.throw]

theorem write_of_free (hlocate : t.locate p = .ok l) (hl : t.entry? l ≠ some .directory) :
    t.write p content = .ok (t.put l (.file (.text content))) := by
  unfold write
  rw [hlocate]
  simp [hl, bind, Except.bind, pure, Except.pure]

theorem put_file (ht : t.WellFormed) (hlocate : t.locate p = .ok l)
    (hl : t.entry? l ≠ some .directory) (content : Content) :
    (t.put l (.file content)).WellFormed ∧ ∀ m, entry? (t.put l (.file content)) m =
      if m = l then some (.file content) else t.entry? m := by
  have hne : l ≠ [] := by
    rintro rfl
    exact hl rfl
  obtain ⟨habove, hnames⟩ := FileTree.locate_parent ht hlocate
  exact ⟨ht.put hne hnames habove (.inr hl), FileTree.entry?_put t hne _⟩

/-- What storing a text leaves: new directories on the way to the target, and the text itself. -/
structure Stored (t u : FileTree) (target content : Text) (refused : Option OsError) : Prop where
  wellFormed : u.WellFormed
  directoriesIn : t.DirectoriesIn u
  entry : ∀ l, u.entry? l = t.entry? l ∨
    (t.entry? l = none ∧ u.entry? l = some .directory ∧
      ∃ a, Path.ProperlyAbove a target ∧ u.locate a = .ok l) ∨
    (refused = none ∧ t.entry? l ≠ some .directory ∧ u.locate target = .ok l ∧
      u.entry? l = some (.file (.text content)))

/-- The directories above a target are made as far as they are missing. -/
theorem makeDirectories_parent (ht : t.WellFormed) (target : Text) {u : FileTree}
    {refused : Option OsError}
    (hmake : t.makeDirectories ((Path.parent? target).getD []) = (u, refused)) :
    u.WellFormed ∧ t.DirectoriesIn u ∧ ∀ l, u.entry? l = t.entry? l ∨
      (t.entry? l = none ∧ u.entry? l = some .directory ∧
        ∃ a, Path.ProperlyAbove a target ∧ u.locate a = .ok l) := by
  cases hparent : Path.parent? target with
  | none =>
    have hroot : t.isDirectory [] := rfl
    rw [hparent] at hmake
    cases hmake
    exact ⟨ht, fun _ h => h, fun _ => .inl rfl⟩
  | some above =>
    rw [hparent] at hmake
    obtain ⟨hbuilt, -⟩ := FileTree.makeDirectories_built ht hmake
    refine ⟨hbuilt.wellFormed, hbuilt.directoriesIn, fun l => (hbuilt.entry l).imp_right ?_⟩
    rintro ⟨hnone, hmade, a, ha, hleads⟩
    exact ⟨hnone, hmade, a, ⟨above, hparent, ha⟩, hleads⟩

/-- Storing a text changes the tree on the way to the target only. -/
theorem store_stored (ht : t.WellFormed) (target content : Text) :
    Stored t (store t target content).1 target content (store t target content).2 := by
  unfold store
  cases hmake : t.makeDirectories ((Path.parent? target).getD []) with
  | mk u refused =>
    obtain ⟨hu, htu, hmade⟩ := makeDirectories_parent ht target hmake
    cases refused with
    | some cause => exact ⟨hu, htu, fun l => (hmade l).imp_right .inl⟩
    | none =>
      dsimp only
      cases hwrite : u.write target content with
      | error cause => exact ⟨hu, htu, fun l => (hmade l).imp_right .inl⟩
      | ok v =>
        obtain ⟨l, hlocate, hl, rfl⟩ := write_ok hwrite
        obtain ⟨hwf, hentry⟩ := put_file hu hlocate hl (.text content)
        have hmono : u.DirectoriesIn (u.put l (.file (.text content))) := by
          intro m hm
          have hne : m ≠ l := fun h => hl (h ▸ hm)
          rw [hentry, if_neg hne, hm]
        refine ⟨hwf, htu.trans hmono, fun m => ?_⟩
        by_cases hm : m = l
        · subst hm
          exact .inr (.inr ⟨rfl, fun h => hl (htu m h), locate_mono hmono hlocate,
            by simp [hentry]⟩)
        · rw [hentry, if_neg hm]
          rcases hmade m with hkept | ⟨hnone, hdirectory, a, ha, hleads⟩
          · exact .inl hkept
          · exact .inr (.inl ⟨hnone, hdirectory, a, ha, locate_mono hmono hleads⟩)

end Storing

section Preparing

variable {s : Settings} {tree : FileTree}

/-- A file that cleaning removes: it lies below the output directory and has one of the
extensions. -/
def IsStale (s : Settings) (tree : FileTree) (l : Location) : Prop :=
  tree.isFileAt l = true ∧ ∃ output r, tree.locate s.output = .ok output ∧ l = output ++ r ∧
    r ≠ [] ∧ s.hasExtension (targetPath s r) = true

/-- Cleaning removes the stale files and nothing else. -/
theorem clean_cases (s : Settings) (tree : FileTree) (l : Location) :
    IsStale s tree l ∧ entry? (clean s tree) l = none ∨
      ¬ IsStale s tree l ∧ entry? (clean s tree) l = tree.entry? l := by
  unfold clean
  cases hlocate : tree.locate s.output with
  | error e =>
    refine .inr ⟨?_, rfl⟩
    rintro ⟨-, output, r, houtput, -⟩
    rw [hlocate] at houtput
    cases houtput
  | ok output =>
    rw [FileTree.entry?_eraseAll _ rfl]
    cases hbelow : below? output l with
    | none =>
      refine .inr ⟨?_, by simp⟩
      rintro ⟨-, output', r, houtput, rfl, hne, -⟩
      rw [hlocate] at houtput
      cases houtput
      rw [FileTree.below?_eq_some_iff.mpr ⟨rfl, hne⟩] at hbelow
      cases hbelow
    | some r =>
      obtain ⟨rfl, hne⟩ := FileTree.below?_eq_some_iff.mp hbelow
      by_cases hstale : tree.isFileAt (output ++ r) ∧ s.hasExtension (targetPath s r) = true
      · refine .inl ⟨⟨hstale.1, output, r, hlocate, rfl, hne, hstale.2⟩, if_pos ?_⟩
        exact Bool.and_eq_true_iff.mpr hstale
      · refine .inr ⟨?_, if_neg fun h => hstale (Bool.and_eq_true_iff.mp h)⟩
        rintro ⟨hfile, output', r', houtput, heq, -, hextension⟩
        rw [hlocate] at houtput
        cases houtput
        obtain rfl := List.append_cancel_left heq
        exact hstale ⟨hfile, hextension⟩

theorem clean_directoriesIn : tree.DirectoriesIn (clean s tree) := by
  intro l hl
  rcases clean_cases s tree l with ⟨⟨hfile, -⟩, -⟩ | ⟨-, hkept⟩
  · rw [FileTree.isFileAt_eq_false_of_directory hl] at hfile
    cases hfile
  · rw [hkept, hl]

theorem clean_wellFormed (htree : tree.WellFormed) : (clean s tree).WellFormed := by
  unfold clean
  cases tree.locate s.output with
  | error e => exact htree
  | ok output => exact htree.eraseAll fun l hl => (Bool.and_eq_true_iff.mp hl).1

theorem isCleaned_iff : isCleaned s tree ↔ s.clean ∧ ∃ output, tree.locate s.output = .ok output ∧
      tree.entry? output = some .directory := by
  rw [isCleaned, Bool.and_eq_true, isDirectory_iff]

theorem clean_isDirectory (h : isCleaned s tree) : (clean s tree).isDirectory s.output := by
  obtain ⟨-, output, hlocate, houtput⟩ := isCleaned_iff.mp h
  exact isDirectory_iff.mpr ⟨output, locate_mono clean_directoriesIn hlocate,
    clean_directoriesIn _ houtput⟩

/-- Preparing succeeds in two ways: the output directory is there and is cleaned, or it is made. -/
theorem prepare_ok {t : FileTree} (h : prepare s tree = (t, none)) :
    isCleaned s tree ∧ Path.isUnder s.input s.output = false ∧ t = clean s tree ∨
      isCleaned s tree = false ∧ tree.makeDirectories s.output = (t, none) := by
  unfold prepare at h
  cases hclean : isCleaned s tree with
  | true =>
    cases hunder : Path.isUnder s.input s.output with
    | true => simp [hclean, hunder] at h
    | false =>
      have hthere := clean_isDirectory hclean
      simp only [hclean, hunder, Bool.and_false, Bool.false_eq_true, if_false, if_true,
        FileTree.makeDirectories_of_isDirectory hthere] at h
      exact .inl ⟨rfl, rfl, (Prod.mk.inj h).1.symm⟩
  | false =>
    simp only [hclean, Bool.false_and, Bool.false_eq_true, if_false] at h
    refine .inr ⟨rfl, ?_⟩
    split at h
    · rename_i u hmake
      rw [hmake, (Prod.mk.inj h).1]
    · cases h

/-- Preparing fails in two ways: the input lies in the output directory that would be cleaned, or
the output directory cannot be made.  Nothing has been removed in either case. -/
theorem prepare_error {t : FileTree} {e : RunError} (h : prepare s tree = (t, some e)) :
    e = .outputOverlapsInput s.input s.output ∧ t = tree ∨
      isCleaned s tree = false ∧ ∃ cause, e = .outputUnprepared s.output cause ∧
        tree.makeDirectories s.output = (t, some cause) := by
  unfold prepare at h
  cases hclean : isCleaned s tree with
  | true =>
    cases hunder : Path.isUnder s.input s.output with
    | true =>
      simp only [hclean, hunder, Bool.and_self, if_true, Prod.mk.injEq, Option.some.injEq] at h
      exact .inl ⟨h.2.symm, h.1.symm⟩
    | false =>
      have hthere := clean_isDirectory hclean
      simp [hclean, hunder, FileTree.makeDirectories_of_isDirectory hthere] at h
  | false =>
    simp only [hclean, Bool.false_and, Bool.false_eq_true, if_false] at h
    split at h
    · cases h
    · rename_i u cause hmake
      obtain ⟨rfl, he⟩ := Prod.mk.inj h
      exact .inr ⟨rfl, cause, (Option.some.inj he).symm, hmake⟩

/-- After preparing there is an output directory, and the directories of before are there. -/
theorem prepare_output (htree : tree.WellFormed) {t : FileTree} (h : prepare s tree = (t, none)) :
    t.WellFormed ∧ tree.DirectoriesIn t ∧
      ∃ output, t.locate s.output = .ok output ∧ t.entry? output = some .directory := by
  rcases prepare_ok h with ⟨hclean, -, rfl⟩ | ⟨-, hmake⟩
  · exact ⟨clean_wellFormed htree, clean_directoriesIn,
      isDirectory_iff.mp (clean_isDirectory hclean)⟩
  · obtain ⟨hbuilt, hdone⟩ := FileTree.makeDirectories_built htree hmake
    exact ⟨hbuilt.wellFormed, hbuilt.directoriesIn, isDirectory_iff.mp (hdone rfl)⟩

end Preparing

section Planning

variable {started : Text} {args : Arguments} {tree : FileTree}

/-- The files that are converted: those below the input directory that are chosen. -/
theorem plan_ok {s : Settings} {files : List Location}
    (h : plan started args tree = .ok (s, files)) :
    settingsOf started args tree = .ok s ∧ ∃ input ignored, tree.locate s.input = .ok input ∧
      tree.entry? input = some .directory ∧ ignoreGlobs s.ignore = .ok ignored ∧
      files = (tree.filesBelow input).filter (isChosen s ignored) := by
  obtain ⟨s', hsettings, h⟩ := bind_eq_ok h
  split at h
  · cases h
  · rename_i hdirectory
    obtain ⟨ignored, hignored, h⟩ := bind_eq_ok h
    cases h
    obtain ⟨input, hlocate, hinput⟩ := isDirectory_iff.mp (by simpa using hdirectory)
    refine ⟨hsettings, input, ignored, hlocate, hinput, hignored, ?_⟩
    rw [discover, hlocate]

theorem settingsOf_dryRun {s : Settings} (h : settingsOf started args tree = .ok s) :
    s.dryRun = args.dryRun := by
  obtain ⟨config, -, h⟩ := bind_eq_ok h
  split at h
  · cases h
  · rename_i settings hresolve
    cases h
    obtain ⟨receivers, -, hresolve⟩ := bind_eq_ok hresolve
    cases hresolve
    rfl

end Planning

/-- Files below a directory, each of them listed once. -/
structure Inputs (tree : FileTree) (input : Location) (files : List Location) : Prop where
  nodup : files.Nodup
  file : ∀ r ∈ files, r ≠ [] ∧ tree.isFileAt (input ++ r) = true

namespace Inputs

variable {tree : FileTree} {input : Location} {files : List Location}

theorem of_filter (htree : tree.WellFormed) (input : Location) (p : Location → Bool) :
    Inputs tree input ((tree.filesBelow input).filter p) :=
  ⟨(FileTree.nodup_filesBelow htree input).filter p, fun _ hr =>
    (FileTree.mem_filesBelow htree).mp (List.mem_of_mem_filter hr)⟩

variable (h : Inputs tree input files)
include h

theorem subperm {done : List Location} (hdone : done.Subperm files) : Inputs tree input done := by
  obtain ⟨chosen, hperm, hsub⟩ := hdone
  exact ⟨hperm.nodup_iff.mp (h.nodup.sublist hsub),
    fun r hr => h.file r (hsub.subset (hperm.mem_iff.mpr hr))⟩

theorem tail {r : Location} {rest : List Location} (hfiles : files = r :: rest) :
    Inputs tree input rest := by
  subst hfiles
  exact ⟨h.nodup.of_cons, fun r' hr' => h.file r' (List.mem_cons_of_mem _ hr')⟩

theorem isName (htree : tree.WellFormed) {r : Location} (hr : r ∈ files) : ∀ n ∈ r, Path.IsName n := by
  intro n hn
  obtain ⟨content, hcontent⟩ := isFileAt_iff.mp (h.file r hr).2
  exact htree.isName_of_entry hcontent (List.mem_append_right input hn)

theorem eq_of_isPrefix (htree : tree.WellFormed) {r r' : Location} (hr : r ∈ files)
    (hr' : r' ∈ files) (hbelow : r <+: r') : r = r' := by
  obtain ⟨content, hcontent⟩ := isFileAt_iff.mp (h.file r' hr').2
  exact List.append_cancel_left (htree.not_isPrefix_of_file (h.file r hr).2 hcontent
    (List.prefix_append_right_inj input |>.mpr hbelow))

end Inputs

section Conversions

variable {s : Settings}

theorem convertAll_cons (r : Location) (rest : List Location) (t : FileTree) :
    convertAll s (r :: rest) t =
      ((convertFile s r t).1 :: (convertAll s rest (convertFile s r t).2).1,
        (convertAll s rest (convertFile s r t).2).2) := rfl

theorem convertFile_relative (r : Location) (t : FileTree) :
    (convertFile s r t).1.relative = r := by
  unfold convertFile
  dsimp only
  split
  · rfl
  · split <;> rfl

/-- There is one outcome for each file, in the order in which they are converted. -/
theorem convertAll_relative (files : List Location) (t : FileTree) :
    (convertAll s files t).1.map FileOutcome.relative = files := by
  induction files generalizing t with
  | nil => rfl
  | cons r rest ih => rw [convertAll_cons, List.map_cons, convertFile_relative, ih]

theorem relative_mem_of_convertAll {files : List Location} {t : FileTree} {o : FileOutcome}
    (ho : o ∈ (convertAll s files t).1) : o.relative ∈ files := by
  rw [← convertAll_relative (s := s) files t]
  exact List.mem_map_of_mem ho

theorem convertAll_dry (hdry : s.dryRun) (files : List Location) (t : FileTree) :
    convertAll s files t =
      (files.map fun r => outcomeOf s r (t.read (sourcePath s r)) none, t) := by
  induction files with
  | nil => rfl
  | cons r rest ih => rw [convertAll_cons, convertFile_dry hdry, ih, List.map_cons]

theorem execute_dry (hdry : s.dryRun) (files : List Location) (tree : FileTree) :
    execute s files tree = (.ok (finish s
      (files.map fun r => outcomeOf s r (tree.read (sourcePath s r)) none)), tree) := by
  unfold execute
  rw [if_pos hdry]
  dsimp only
  rw [convertAll_dry hdry]

theorem execute_of_prepare (hreal : s.dryRun = false) (files : List Location)
    {tree t : FileTree} (h : prepare s tree = (t, none)) : execute s files tree =
      (.ok (finish s (convertAll s files t).1), (convertAll s files t).2) := by
  unfold execute
  rw [if_neg (by simp [hreal]), h]

theorem execute_of_prepare_error (hreal : s.dryRun = false) (files : List Location)
    {tree t : FileTree} {e : RunError} (h : prepare s tree = (t, some e)) :
    execute s files tree = (.error e, t) := by
  unfold execute
  rw [if_neg (by simp [hreal]), h]

end Conversions

section Runs

variable {started : Text} {args : Arguments} {tree : FileTree}

theorem run_of_plan {s : Settings} {files : List Location}
    (h : plan started args tree = .ok (s, files)) :
    run started args tree = execute s files tree := by
  unfold run
  rw [h]

theorem run_of_plan_error {e : RunError} (h : plan started args tree = .error e) :
    run started args tree = (.error e, tree) := by
  unfold run
  rw [h]

end Runs

end Run

end Declass
