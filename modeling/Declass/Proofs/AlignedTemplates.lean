import Declass.Proofs.Indentation

/-!
# Aligned templates

**Input.** The text of a template.

**Algorithm.** The lines that are not blank are trimmed and put under each other, all but the first
behind the indentation of templates.

**Results.** `alignTemplate_settles`: an aligned template has these lines and no other characters that
are no White_Space, and aligning it again changes nothing.
-/

namespace Declass

namespace Layout

variable {l row : Text} {ls : List Text}

/-- Lines under each other, all but the first behind the indentation of templates. -/
def hang : List Text → List Text
  | [] => []
  | l :: ls => l :: ls.map (templateIndent ++ ·)

/-- The lines of a template that are not blank, trimmed. -/
def templateLines (t : Text) : List Text := (t.lines.filter (!·.isBlank)).map Text.trim

/-- A line that can stand in an aligned template: it has neither White_Space at its ends nor a line
feed in it. -/
structure Settled (l : Text) : Prop where
  trimmed : l.IsTrimmed
  ne_nil : l ≠ []
  feed : '\n' ∉ l

theorem settled_of_mem {t : Text} (h : l ∈ templateLines t) : Settled l := by
  obtain ⟨k, hk, rfl⟩ := List.mem_map.mp h
  obtain ⟨hline, hblank⟩ := List.mem_filter.mp hk
  obtain ⟨-, -, -, -, -, htrimmed⟩ := Text.exists_trimmed k
  exact ⟨htrimmed, Text.trim_ne_nil (by simpa using hblank), fun hfeed =>
    Text.not_mem_lines hline (k.trim_infix.subset hfeed)⟩

theorem isBlank_templateIndent : templateIndent.isBlank := by decide

theorem Settled.trim_indented (h : Settled l) : Text.trim (templateIndent ++ l) = l := by
  have hnil : Text.isBlank [] := rfl
  simpa using h.trimmed.trim_append h.ne_nil isBlank_templateIndent hnil

theorem mem_hang (h : row ∈ hang ls) : ∃ l ∈ ls, row = l ∨ row = templateIndent ++ l := by
  cases ls with
  | nil => cases h
  | cons l ls =>
    rcases List.mem_cons.mp h with rfl | h
    · exact ⟨row, List.mem_cons_self, .inl rfl⟩
    · obtain ⟨k, hk, rfl⟩ := List.mem_map.mp h
      exact ⟨k, List.mem_cons_of_mem _ hk, .inr rfl⟩

section Settled

variable (hls : ∀ l ∈ ls, Settled l)
include hls

theorem trim_of_mem_hang (h : row ∈ hang ls) : ∃ l ∈ ls, row.trim = l := by
  obtain ⟨l, hl, rfl | rfl⟩ := mem_hang h
  · exact ⟨row, hl, (hls row hl).trimmed.trim (hls row hl).ne_nil⟩
  · exact ⟨l, hl, (hls l hl).trim_indented⟩

theorem isBlank_of_mem_hang (h : row ∈ hang ls) : row.isBlank = false := by
  obtain ⟨l, hl, htrim⟩ := trim_of_mem_hang hls h
  by_contra hblank
  rw [Text.trim_of_isBlank (by simpa using hblank)] at htrim
  exact (hls l hl).ne_nil htrim.symm

theorem map_trim_hang : (hang ls).map Text.trim = ls := by
  cases ls with
  | nil => rfl
  | cons l ls =>
    obtain ⟨hl, hls⟩ := List.forall_mem_cons.mp hls
    rw [hang, List.map_cons, List.map_map, hl.trimmed.trim hl.ne_nil, List.cons_inj_right]
    exact (List.map_congr_left fun k hk => (hls k hk).trim_indented).trans (List.map_id ls)

/-- Lines that are put under each other are the lines of the text they make up. -/
theorem lines_join_hang : (Text.join ['\n'] (hang ls)).lines = hang ls := by
  refine Text.lines_join (fun row hrow => ?_) (fun row hrow => ?_) (fun row hrow hnil => ?_)
  · obtain ⟨l, hl, rfl | rfl⟩ := mem_hang hrow
    · exact (hls row hl).feed
    · rw [List.mem_append, not_or]
      exact ⟨by decide, (hls l hl).feed⟩
  · obtain ⟨l, hl, rfl | rfl⟩ := mem_hang hrow
    · exact (hls row hl).trimmed.last
    · rw [List.getLast?_append_of_ne_nil _ (hls l hl).ne_nil]
      exact (hls l hl).trimmed.last
  · have hblank := isBlank_of_mem_hang hls (List.mem_of_getLast? hrow)
    rw [hnil] at hblank
    cases hblank

end Settled

theorem join_hang (ls : List Text) :
    Text.join ['\n'] (hang ls) = Text.join ('\n' :: templateIndent) ls := by
  cases ls with
  | nil => rfl
  | cons l ls =>
    have hjoin := join_indented templateIndent l ls
    cases ls with
    | nil => rfl
    | cons k ls => simpa [hang, Text.join] using hjoin

theorem alignTemplate_eq (t : Text) : alignTemplate t = Text.join ['\n'] (hang (templateLines t)) := by
  have hlines : (t.lines.map Text.trim).filter (!·.isEmpty) = templateLines t := by
    rw [List.filter_map]
    refine congrArg _ (List.filter_congr fun l _ => ?_)
    cases hblank : l.isBlank with
    | true => simp [Text.trim_of_isBlank hblank]
    | false => simp [Text.trim_ne_nil hblank]
  rw [alignTemplate, hlines, join_hang]
  rfl

theorem lines_alignTemplate (t : Text) : (alignTemplate t).lines = hang (templateLines t) := by
  rw [alignTemplate_eq]
  exact lines_join_hang fun _ => settled_of_mem

/-- Aligning a template twice is aligning it once; the aligned template has the content of the first
one, and its lines are those that are not blank, trimmed and put under each other. -/
theorem alignTemplate_settles (t : Text) :
    alignTemplate (alignTemplate t) = alignTemplate t ∧
    (alignTemplate t).solid = t.solid ∧
    (alignTemplate t).lines = hang ((t.lines.filter (!·.isBlank)).map Text.trim) := by
  refine ⟨?_, (alignTemplate_laid t).solid, lines_alignTemplate t⟩
  have hsettled : ∀ l ∈ templateLines t, Settled l := fun _ => settled_of_mem
  have hagain : templateLines (alignTemplate t) = templateLines t := by
    rw [templateLines, lines_alignTemplate, List.filter_eq_self.mpr, map_trim_hang hsettled]
    intro row hrow
    simp [isBlank_of_mem_hang hsettled hrow]
  rw [alignTemplate_eq (alignTemplate t), hagain, ← alignTemplate_eq]

end Layout

end Declass
