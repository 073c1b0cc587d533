import Declass.Proofs.Relayout

/-!
# Bodies with a new indentation

**Input.** A body, and an indentation of spaces and tabs.

**Algorithm.** The lines between the blank ones at both ends are placed one by one: each loses the
indentation that all of them share, gets the new one in front and is trimmed at its end.

**Results.** `reindent_keeps_lines`: what is no White_Space stays as it is, the new lines start with
the indentation, and the lines keep their places relative to each other.
-/

namespace Declass

open Character (isSpace)

namespace Text

/-- The characters that are no White_Space. -/
def solid (t : Text) : Text := t.filter (!isSpace ·)

@[simp] theorem solid_append (t u : Text) : solid (t ++ u) = t.solid ++ u.solid :=
  List.filter_append t u

theorem solid_of_isBlank {t : Text} (h : t.isBlank) : t.solid = [] :=
  List.filter_eq_nil_iff.mpr fun c hc => by simp [List.all_eq_true.mp h c hc]

theorem linesOfPieces_of_last {rows : List Text}
    (hends : ∀ row ∈ rows, ∀ c ∈ row.getLast?, isSpace c = false)
    (hlast : ∀ row ∈ rows.getLast?, row ≠ []) : linesOfPieces rows = rows := by
  induction rows with
  | nil => rfl
  | cons row rows ih =>
    cases rows with
    | nil => simpa [linesOfPieces] using hlast row rfl
    | cons next rows =>
      obtain ⟨hrow, hrows⟩ := List.forall_mem_cons.mp hends
      have hreturn : row.dropReturn = row := by
        rw [dropReturn, if_neg]
        intro hr
        cases hrow '\r' (by simpa using hr)
      rw [linesOfPieces, hreturn, ih hrows (by simpa using hlast)]
      simp

/-- Lines without White_Space at their ends, the last of which is not empty, are the lines of the
text that they make up. -/
theorem lines_join {rows : List Text} (hfeed : ∀ row ∈ rows, '\n' ∉ row)
    (hends : ∀ row ∈ rows, ∀ c ∈ row.getLast?, isSpace c = false)
    (hlast : ∀ row ∈ rows.getLast?, row ≠ []) : (join ['\n'] rows).lines = rows := by
  by_cases hnil : rows = []
  · rw [hnil]
    rfl
  · rw [lines, splitOn_join hnil hfeed, linesOfPieces_of_last hends hlast]

theorem not_mem_lines {t l : Text} (h : l ∈ t.lines) : '\n' ∉ l := by
  have hlined := t.lined_lines
  generalize t.lines = ls at h hlined
  induction hlined with
  | nil => cases h
  | last hl => rwa [List.mem_singleton.mp h]
  | cons hl _ _ _ ih =>
    rcases List.mem_cons.mp h with rfl | h
    · exact hl
    · exact ih h

end Text

namespace Layout

section Solid

variable {P : Text → Prop} {t t' : Text}

theorem Relaid.solid (h : Relaid P t t') : t'.solid = t.solid := by
  induction h with
  | stop hw => exact (Text.solid_of_isBlank hw).symm
  | char _ _ _ ih => simp_all [Text.solid, List.filter_cons]
  | @gap u v v' t t' c hgap _ _ ih =>
    have hgaps : Text.solid u = [] ∧ Text.solid v = [] ∧ Text.solid v' = [] :=
      ⟨Text.solid_of_isBlank hgap.trail, Text.solid_of_isBlank hgap.blank,
        Text.solid_of_isBlank (isBlank_of_layout hgap.blank hgap.layout)⟩
    have hfeed : ∀ w : Text, Text.solid ('\n' :: w) = w.solid := fun _ => rfl
    simp [hgaps, hfeed, ih]

theorem Laid.solid (h : Laid P t t') : t'.solid = t.solid := by
  cases h with
  | blank hb => exact (Text.solid_of_isBlank hb).symm
  | @text v v' t t' c hv hv' _ h =>
    rw [Text.solid_append, Text.solid_append, Text.solid_of_isBlank hv,
      Text.solid_of_isBlank (isBlank_of_layout hv hv'), h.solid]

end Solid

section Rows

variable {indent : Text} {common : Nat} {l : Line}

/-- A line of the new body: behind the indentation stands the trimmed text of the old line. -/
structure Placed (indent : Text) (l : Line) (row : Text) : Prop where
  starts : indent <+: row
  trim : row.trim = l.text.trim
  last : ∀ c ∈ row.getLast?, isSpace c = false
  feed : '\n' ∉ row

theorem place_placed (hindent : ∀ c ∈ indent, isIndent c) (hl : l.isBlank = false)
    (hfeed : '\n' ∉ l.text) (hcommon : l.inline = false → common ≤ indentation l.text) :
    Placed indent l (l.place indent common) := by
  obtain ⟨lead, trail, lead', htext, hlead, -, hsuffix, -, hplace⟩ := place_eq indent hl hcommon
  obtain ⟨-, -, -, -, -, htrimmed⟩ := Text.exists_trimmed l.text
  have hne := Text.trim_ne_nil hl
  have hblank : Text.isBlank (indent ++ lead') := by
    rw [Text.isBlank_append, Bool.and_eq_true]
    exact ⟨List.all_eq_true.mpr fun c hc => isSpace_of_isIndent (hindent c hc),
      List.all_eq_true.mpr fun c hc => List.all_eq_true.mp hlead c (hsuffix.subset hc)⟩
  rw [hplace]
  constructor
  · rw [List.append_assoc]
    exact List.prefix_append _ _
  · have hnil : Text.isBlank [] := rfl
    simpa using htrimmed.trim_append hne hblank hnil
  · rw [List.getLast?_append_of_ne_nil _ hne]
    exact fun c hc => htrimmed.last c hc
  · rw [htext] at hfeed
    simp only [List.mem_append, not_or] at hfeed ⊢
    refine ⟨⟨fun hc => ?_, fun hc => hfeed.1.1 (hsuffix.subset hc)⟩, hfeed.1.2⟩
    cases hindent '\n' hc

/-- A line that is not inline moves by as much as the new indentation is wider than the shared
one. -/
theorem indentation_place (hindent : ∀ c ∈ indent, isIndent c) (hl : l.isBlank = false)
    (hinline : l.inline = false) (hcommon : common ≤ indentation l.text) :
    indentation (l.place indent common) + common = indent.length + indentation l.text := by
  obtain ⟨lead, trail, lead', htext, -, -, -, hlead', hplace⟩ := place_eq indent hl fun _ => hcommon
  obtain ⟨-, -, -, -, -, htrimmed⟩ := Text.exists_trimmed l.text
  have hne := Text.trim_ne_nil hl
  have hwidth : indentation l.text = indentation lead := by
    rw [htext]
    exact indentation_eq _ _ htrimmed hne
  have hrow : indentation (l.place indent common) = indentation (indent ++ lead') := by
    rw [hplace]
    simpa using indentation_eq (indent ++ lead') [] htrimmed hne
  -- What the line loses is part of its indentation.
  have hall : ∀ c ∈ lead.take common, isIndent c := by
    intro c hc
    have hprefix := List.takeWhile_prefix isIndent (l := lead)
    rw [hwidth] at hcommon
    have := List.prefix_of_prefix_length_le (List.take_prefix common lead) hprefix
      ((List.length_take_le _ _).trans hcommon)
    exact List.mem_takeWhile_imp (this.subset hc)
  have hsplit : indentation lead = (lead.take common).length + indentation lead' := by
    rw [hlead' hinline]
    conv_lhs => rw [← List.take_append_drop common lead]
    rw [indentation, List.takeWhile_append_of_pos hall, List.length_append, indentation]
  have htake : (lead.take common).length = common :=
    List.length_take_of_le ((hwidth ▸ hcommon).trans (List.takeWhile_sublist _).length_le)
  rw [hrow, indentation, List.takeWhile_append_of_pos hindent, List.length_append, hwidth, hsplit,
    indentation]
  omega

theorem getElem?_bodyLines (b : Text) (i : Nat) :
    (bodyLines b)[i]? = b.lines[i]?.map fun l => ⟨startsInline b && i == 0, l⟩ := by
  rw [bodyLines]
  cases b.lines with
  | nil => rfl
  | cons l ls => cases i <;> simp

theorem head_dropBlankEnds {ls : List Line} (h : l ∈ (dropBlankEnds ls).head?) :
    l.isBlank = false := by
  obtain ⟨back, heq, -, -⟩ := dropBlankEnds_eq ls
  have hdrop : ls.dropWhile Line.isBlank = dropBlankEnds ls ++ back := by
    have h := List.takeWhile_append_dropWhile (p := Line.isBlank) (l := ls)
    nth_rewrite 3 [heq] at h
    rwa [List.append_assoc, List.append_cancel_left_eq] at h
  have hnot := List.head?_dropWhile_not Line.isBlank ls
  rw [hdrop, List.head?_append, Option.mem_def.mp h] at hnot
  simpa using hnot

/-- A line that is not blank is still there without the blank ones at the ends. -/
theorem getElem?_dropBlankEnds {ls : List Line} {i : Nat} (h : ls[i]? = some l)
    (hl : l.isBlank = false) :
    (dropBlankEnds ls)[i - (ls.takeWhile Line.isBlank).length]? = some l := by
  obtain ⟨back, heq, hback, -⟩ := dropBlankEnds_eq ls
  generalize hfront : ls.takeWhile Line.isBlank = front at heq
  rw [heq, List.append_assoc, List.getElem?_append] at h
  split at h
  · have hmem := List.mem_of_getElem? h
    rw [← hfront] at hmem
    rw [List.mem_takeWhile_imp hmem] at hl
    cases hl
  · rw [List.getElem?_append] at h
    split at h
    · exact h
    · rw [hback l (List.mem_of_getElem? h)] at hl
      cases hl

/-- The lines of a body with its shared indentation replaced. -/
def placedLines (body indent : Text) : List Text :=
  let ls := dropBlankEnds (bodyLines body)
  ls.map (Line.place indent (commonIndent ls))

variable {body row : Text} (hindent : ∀ c ∈ indent, isIndent c)
include hindent

theorem placed_of_mem (hl : l ∈ dropBlankEnds (bodyLines body)) (hblank : l.isBlank = false) :
    Placed indent l (l.place indent (commonIndent (dropBlankEnds (bodyLines body)))) := by
  obtain ⟨back, heq, -, -⟩ := dropBlankEnds_eq (bodyLines body)
  have hmem : l.text ∈ body.lines := by
    rw [← map_text_bodyLines, heq]
    exact List.mem_map_of_mem (by simp [hl])
  exact place_placed hindent hblank (Text.not_mem_lines hmem) (commonIndent_le hl hblank)

/-- A new line is empty, or it is an old one with the indentation in front. -/
theorem placedLines_cases (hrow : row ∈ placedLines body indent) :
    row = [] ∨ ∃ l, Placed indent l row := by
  obtain ⟨l, hl, rfl⟩ := List.mem_map.mp hrow
  cases hblank : l.isBlank with
  | true => exact .inl (if_pos hblank)
  | false => exact .inr ⟨l, placed_of_mem hindent hl hblank⟩

theorem placedLines_ends
    (hrow : row ∈ (placedLines body indent).head? ∨ row ∈ (placedLines body indent).getLast?) :
    row.isBlank = false := by
  obtain ⟨-, -, -, hlast⟩ := dropBlankEnds_eq (bodyLines body)
  obtain ⟨l, hl, hblank, rfl⟩ : ∃ l ∈ dropBlankEnds (bodyLines body), l.isBlank = false ∧
      l.place indent (commonIndent (dropBlankEnds (bodyLines body))) = row := by
    simp only [placedLines, List.head?_map, List.getLast?_map, Option.mem_map] at hrow
    rcases hrow with ⟨l, hl, hrow⟩ | ⟨l, hl, hrow⟩
    · exact ⟨l, List.mem_of_head? hl, head_dropBlankEnds hl, hrow⟩
    · exact ⟨l, List.mem_of_getLast? hl, hlast l hl, hrow⟩
  by_contra hrow
  refine Text.trim_ne_nil hblank ?_
  rw [← (placed_of_mem hindent hl hblank).trim]
  exact Text.trim_of_isBlank (by simpa using hrow)

theorem lines_reindent : (reindent body indent).lines = placedLines body indent := by
  refine Text.lines_join (fun row hrow => ?_) (fun row hrow => ?_) (fun row hrow hnil => ?_)
  · rcases placedLines_cases hindent hrow with rfl | ⟨l, h⟩
    · exact List.not_mem_nil
    · exact h.feed
  · rcases placedLines_cases hindent hrow with rfl | ⟨l, h⟩
    · exact nofun
    · exact h.last
  · have hblank := placedLines_ends hindent (.inr hrow)
    rw [hnil] at hblank
    cases hblank

/-- A line that is not blank and does not stand behind the opening brace. -/
structure Indents (body : Text) (i : Nat) (l : Text) : Prop where
  line : body.lines[i]? = some l
  solid : l.isBlank = false
  outer : startsInline body = true → i ≠ 0

theorem Indents.exists_row {i : Nat} {l : Text} (h : Indents body i l) :
    ∃ row, (reindent body indent).lines[i - (body.lines.takeWhile Text.isBlank).length]? =
      some row ∧ row.trim = l.trim ∧
      indentation row + commonIndent (dropBlankEnds (bodyLines body)) =
        indent.length + indentation l := by
  have hinline : (startsInline body && i == 0) = false := by simpa using h.outer
  have hline : (bodyLines body)[i]? = some ⟨false, l⟩ := by
    rw [getElem?_bodyLines, h.line, hinline]
    rfl
  have hfront : (body.lines.takeWhile Text.isBlank).length =
      ((bodyLines body).takeWhile Line.isBlank).length := by
    rw [← map_text_bodyLines, List.takeWhile_map, List.length_map]
    rfl
  have hmiddle := getElem?_dropBlankEnds hline h.solid
  have hmem := List.mem_of_getElem? hmiddle
  refine ⟨_, ?_, (placed_of_mem hindent hmem h.solid).trim,
    indentation_place hindent h.solid rfl (commonIndent_le hmem h.solid rfl)⟩
  rw [lines_reindent hindent, placedLines, hfront, List.getElem?_map, hmiddle]
  rfl

end Rows

/-- The second text is the body with another indentation: its content is that of the body, it neither
starts nor ends with a blank line, its lines start with the indentation and end with no White_Space,
and two lines of the body are as far apart in their indentation as before. -/
structure Reindented (indent body new : Text) : Prop where
  solid : new.solid = body.solid
  joined : Text.join "\n" new.lines = new
  ends : ∀ row, row ∈ new.lines.head? ∨ row ∈ new.lines.getLast? → row.isBlank = false
  rows : ∀ row ∈ new.lines, row.isBlank = false →
    indent <+: row ∧ ∀ c ∈ row.getLast?, isSpace c = false
  apart : ∀ i j l m, Indents body i l → Indents body j m →
    ∃ row row', new.lines[i - (body.lines.takeWhile Text.isBlank).length]? = some row ∧
      new.lines[j - (body.lines.takeWhile Text.isBlank).length]? = some row' ∧
      row.trim = l.trim ∧ row'.trim = m.trim ∧
      (indentation row : Int) - indentation row' = indentation l - indentation m

/-- Indenting a body keeps its content and its relative layout. -/
theorem reindent_keeps_lines (body indent : Text) (hindent : ∀ c ∈ indent, isIndent c = true) :
    Reindented indent body (reindent body indent) where
  solid := by
    refine (reindent_laid body fun c hc => ?_).solid
    have h := hindent c hc
    simp only [isIndent, Bool.or_eq_true, beq_iff_eq] at h
    rcases h with rfl | rfl <;> decide
  joined := by rw [lines_reindent hindent]; rfl
  ends := by
    rw [lines_reindent hindent]
    exact fun row => placedLines_ends hindent
  rows := by
    rw [lines_reindent hindent]
    intro row hrow hblank
    rcases placedLines_cases hindent hrow with rfl | ⟨l, h⟩
    · cases hblank
    · exact ⟨h.starts, h.last⟩
  apart := by
    intro i j l m hl hm
    obtain ⟨row, hrow, htrim, hwidth⟩ := hl.exists_row hindent
    obtain ⟨row', hrow', htrim', hwidth'⟩ := hm.exists_row hindent
    exact ⟨row, row', hrow, hrow', htrim, htrim', by omega⟩

/-- Two lines with four and six blanks in front get two and four. -/
theorem reindent_keeps_lines_two :
    reindent "\n    a \n\n      b\r\n".toList "  ".toList = "  a\n\n    b".toList ∧
      Reindented "  ".toList "\n    a \n\n      b\r\n".toList
        (reindent "\n    a \n\n      b\r\n".toList "  ".toList) :=
  ⟨by decide, reindent_keeps_lines _ _ (by decide)⟩

end Layout

end Declass
