import Declass.Proofs.Extraction
import Declass.Proofs.Trimming
import Declass.StateModel

/-!
# Reading state entries

**Input.** A state initializer that was cut out of a source.

**Results.** `build_yields_of_not_blank`: reading the entries of text that is not blank never fails.
`build_yields`: so it does not for an initializer, which starts and ends with a bracket.
-/

namespace Declass

open CodeMap

namespace StateModel

section Entries

variable {m : CodeMap} {ps : Painted} (hm : m.Shows ps)
include hm

/-- The trimmed range of text that is not blank is one of whole characters. -/
theorem trimmedSpan_whole {u : Text} {i : Nat} (h : Text.LiesAt (ps.map Prod.fst) i u)
    (hb : u.isBlank = false) : m.Whole (u.trimmedSpan i).start (u.trimmedSpan i).stop := by
  obtain ⟨hlies, hstop, -⟩ := Text.trimmedSpan_lies h hb
  rw [hstop]
  exact (slice_of_liesAt hm hlies).1

omit hm in
theorem isIdentifier_of_keyName? {key name : Text} (h : keyName? key = some name) :
    name.isIdentifier := by
  unfold keyName? at h
  dsimp only at h
  split at h
  · rename_i hname
    cases h
    exact hname
  · cases h

/-- The names of the entries are identifiers. -/
def Named (model : StateModel) : Prop := ∀ e ∈ model.entries, e.name.isIdentifier = true

omit hm in
theorem Named.insert {model : StateModel} {entry : StateEntry} (h : model.Named)
    (hentry : entry.name.isIdentifier) (range : Span) : (model.insert entry range).Named := by
  intro e he
  unfold StateModel.insert at he
  split at he
  · obtain ⟨e', he', rfl⟩ := List.mem_map.mp he
    split
    · exact hentry
    · exact h e' he'
  · rcases List.mem_append.mp he with he | he
    · exact h e he
    · obtain rfl := List.mem_singleton.mp he
      exact hentry

theorem entryAt?_yields {start stop : Nat} (hw : m.Whole start stop) :
    Yields (entryAt? m start stop) fun found => ∀ name value, found = some (name, value) →
      name.isIdentifier ∧ m.Whole value.start value.stop := by
  unfold entryAt?
  split
  · rename_i colon hcolon
    obtain ⟨hle, hlt, hchar⟩ := findTop_spec hcolon
    obtain ⟨hb, hb'⟩ := codeChar_boundary hm hchar rfl
    refine (slice_yields hm ⟨hle, hw.left, hb⟩).bind fun key _ => ?_
    split
    · exact .ok (by simp)
    · rename_i key' hkey
      refine (slice_yields hm ⟨hlt, hb', hw.right⟩).bind fun text htext => ?_
      refine .ok fun name value hfound => ?_
      split at hfound
      · cases hfound
        refine ⟨isIdentifier_of_keyName? hkey, trimmedSpan_whole hm htext.1 ?_⟩
        by_contra hblank
        have hb : text.isBlank := by simpa using hblank
        have := Text.trimmedSpan_of_isBlank (colon + 1) hb
        omega
      · cases hfound
  · refine (slice_yields hm hw).bind fun text _ => ?_
    refine .ok fun name value hfound => ?_
    split at hfound
    · rename_i hname
      cases hfound
      exact ⟨hname, hw⟩
    · cases hfound

theorem addPart_yields {base : Nat} {model : StateModel} {part : Span}
    (hw : m.Whole part.start part.stop) (hmodel : model.Named) :
    Yields (addPart m base model part) Named := by
  refine (slice_yields hm hw).bind fun text htext => ?_
  split
  · exact .ok hmodel
  rename_i hblank
  have htrimmed := trimmedSpan_whole hm htext.1 (by simpa using hblank)
  have hle := htrimmed.le
  refine (Span.reported_yields (by omega)).bind fun range _ => ?_
  refine (entryAt?_yields hm htrimmed).bind fun found hfound => ?_
  cases found with
  | none => exact (slice_yields hm htrimmed).bind fun _ _ => .ok hmodel
  | some entry =>
    obtain ⟨name, value⟩ := entry
    obtain ⟨hname, hvalue⟩ := hfound name value rfl
    refine (slice_yields hm hvalue).bind fun _ _ => ?_
    exact (Span.reported_yields (by omega)).bind fun _ _ => .ok (hmodel.insert hname _)

/-- The range inside the braces of text that is not blank is one of whole characters. -/
theorem literalRange_whole (hb : Text.isBlank (ps.map Prod.fst) = false) :
    m.Whole (literalRange m (ps.map Prod.fst)).start (literalRange m (ps.map Prod.fst)).stop := by
  have hwhole := trimmedSpan_whole hm ⟨[], [], by simp, rfl⟩ hb
  unfold literalRange
  dsimp only
  split
  · rename_i close hclose
    split
    · exact matching_whole hm hclose
    · exact hwhole
  · exact hwhole

end Entries

theorem isBlank_of_bracketed {m : CodeMap} {ps : Painted} (hm : m.Shows ps) {s : Snippet}
    (h : s.Bracketed m) : s.text.isBlank = false := by
  obtain ⟨o, c, hmatch, hs⟩ := h
  have hspec := matching_spec hmatch
  have hcut := (Snippet.cut_yields hm (matching_whole_outside hm hmatch)).of_eq hs
  obtain ⟨hlies, hsize, -⟩ := hcut
  have hfirst : ∃ b, m.charAt? o = some b ∧ Character.isSpace b = false := by
    rcases opens_iff.mp hspec.1 with h | h | h
    · exact ⟨_, isCodeChar_charAt? h, by decide⟩
    · exact ⟨_, isCodeChar_charAt? h, by decide⟩
    · exact ⟨_, isCodeChar_charAt? h, by decide⟩
  obtain ⟨b, hb, hspace⟩ := hfirst
  cases htext : s.text with
  | nil =>
    rw [htext, Text.size_nil] at hsize
    omega
  | cons d rest =>
    have hspells : m.spells s.text o := (spells_iff hm (charAt?_boundary hm hb).1).mpr hlies
    rw [htext, spells, Bool.and_eq_true, beq_iff_eq, hb] at hspells
    cases hspells.1
    simp [Text.isBlank, hspace]

/-- Reading the entries of text that is not blank never fails, and their names are identifiers. -/
theorem build_yields_of_not_blank {t : Text} (hb : t.isBlank = false) (range : Span) :
    Yields (build (some ⟨t, range⟩)) Named := by
  have hshows := Scan.ofText_shows t
  have hwhole := literalRange_whole hshows (by rwa [Scan.kinds_chars])
  rw [Scan.kinds_chars] at hwhole
  refine Yields.foldlM (by simp [Named, empty]) fun model part hpart hmodel => ?_
  exact addPart_yields hshows (splitTop_whole hshows hwhole rfl hpart).1 hmodel

/-- Reading the entries of an initializer never fails, and their names are identifiers. -/
theorem build_yields {m : CodeMap} {ps : Painted} (hm : m.Shows ps)
    {state : Option Snippet} (h : ∀ s, state = some s → s.Bracketed m) :
    Yields (build state) Named := by
  cases state with
  | none => exact .ok (by simp [Named, empty])
  | some s => exact build_yields_of_not_blank (isBlank_of_bracketed hm (h s rfl)) s.range

end StateModel

end Declass
