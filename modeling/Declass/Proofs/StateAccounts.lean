import Declass.Proofs.StateBindings
import Mathlib.Data.Sum.Basic

/-!
# What becomes of the parts of a state initializer

**Input.** The text of a state initializer, split at its commas outside brackets.

**Algorithm.** The parts are gone through in order.  One that is blank counts for nothing.  Any
other either declares a key for the first time, declares one again, or has no key that can be read;
the first of these adds an entry, the other two a warning.

**Results.** `build_accounts`: reading an initializer that is empty or not blank gives one entry or
one warning for each part that is not blank, in the order of the parts.  The names of the entries
are identifiers, each of them once, in the order in which they first occur.
-/

namespace Declass

open CodeMap

namespace StateModel

/-- The text of a part. -/
def partText (m : CodeMap) (part : Span) : Text :=
  (m.slice part.start part.stop).toOption.getD []

/-- The parts of a literal that are not blank. -/
def filledParts (t : Text) : List Span :=
  (literalParts t).filter fun part => !(partText (ofText t) part).isBlank

/-- The range that is reported for a part of a literal that starts at `base`. -/
def partRange (m : CodeMap) (base : Nat) (part : Span) : Span :=
  Span.clamp (((partText m part).trimmedSpan part.start).shift base)

/-- What becomes of a part behind parts with the keys `seen`: the key of a new entry, or a warning
that the key was declared before or that there is none. -/
def fate (m : CodeMap) (base : Nat) (seen : List Text) (part : Span) : Text ⊕ Warning :=
  match partKey? m part with
  | some key =>
    if key ∈ seen then .inr ⟨.duplicateStateEntry key, partRange m base part⟩ else .inl key
  | none => .inr ⟨.stateEntrySkipped (partText m part).trim, partRange m base part⟩

/-- What becomes of each of the parts. -/
def fates (m : CodeMap) (base : Nat) : List Text → List Span → List (Text ⊕ Warning)
  | _, [] => []
  | seen, part :: parts =>
    fate m base seen part :: fates m base (seen ++ (partKey? m part).toList) parts

section Parts

variable {m : CodeMap} {ps : Painted} {base : Nat} {part : Span}
  {seen : List Text} {past : List (Text ⊕ Warning)} {model next : StateModel}

theorem length_fates (parts : List Span) : (fates m base seen parts).length = parts.length := by
  induction parts generalizing seen with
  | nil => rfl
  | cons part parts ih => rw [fates, List.length_cons, List.length_cons, ih]

theorem length_getLeft?_add_getRight? (fs : List (Text ⊕ Warning)) :
    (fs.filterMap Sum.getLeft?).length + (fs.filterMap Sum.getRight?).length = fs.length := by
  induction fs with
  | nil => rfl
  | cons f fs ih =>
    cases f with
    | inl key =>
      simp only [List.filterMap_cons, Sum.getLeft?_inl, Sum.getRight?_inl, List.length_cons]
      omega
    | inr w =>
      simp only [List.filterMap_cons, Sum.getLeft?_inr, Sum.getRight?_inr, List.length_cons]
      omega

theorem partText_eq {text : Text} (h : m.slice part.start part.stop = .ok text) :
    partText m part = text := by
  rw [partText, h]
  rfl

section Adding

variable (hm : m.Shows ps) (hw : m.Whole part.start part.stop)
include hm hw

theorem addPart_of_blank (hblank : (partText m part).isBlank) :
    addPart m base model part = .ok model := by
  obtain ⟨text, htext, -⟩ := slice_yields hm hw
  rw [partText_eq htext] at hblank
  rw [addPart, bind_of_eq_ok htext, hblank]
  rfl

variable (hfilled : (partText m part).isBlank = false)
include hfilled

/-- The key of a part that is not blank is read from its trimmed range. -/
theorem entryAt?_of_filled : ∃ found, entryAt? m ((partText m part).trimmedSpan part.start).start
      ((partText m part).trimmedSpan part.start).stop = .ok found ∧
      partKey? m part = found.map Prod.fst := by
  obtain ⟨text, htext, hlies⟩ := slice_yields hm hw
  rw [partText_eq htext] at hfilled ⊢
  obtain ⟨found, hfound, -⟩ := entryAt?_yields hm (trimmedSpan_whole hm hlies.1 hfilled)
  refine ⟨found, hfound, ?_⟩
  rw [partKey?, readPart, bind_of_eq_ok htext, hfilled]
  simp only [Bool.false_eq_true, if_false, hfound]
  rfl

theorem addPart_of_keyless (hkey : partKey? m part = none) :
    addPart m base model part = .ok ⟨model.entries, model.warnings ++
      [⟨.stateEntrySkipped (partText m part).trim, partRange m base part⟩]⟩ := by
  obtain ⟨found, hfound, hfst⟩ := entryAt?_of_filled hm hw hfilled
  obtain rfl : found = none := by
    rw [hkey] at hfst
    exact Option.map_eq_none_iff.mp hfst.symm
  obtain ⟨text, htext, hlies⟩ := slice_yields hm hw
  rw [partText_eq htext] at hfilled hfound
  rw [partRange, partText_eq htext]
  obtain ⟨htrim, hstop, -⟩ := Text.trimmedSpan_lies hlies.1 hfilled
  have hslice : m.slice (text.trimmedSpan part.start).start (text.trimmedSpan part.start).stop =
      .ok text.trim := by
    rw [hstop]
    exact (slice_of_liesAt hm htrim).2
  have htwice : text.trim.trim = text.trim := by
    obtain ⟨lead, trail, -, -, -, htrimmed⟩ := Text.exists_trimmed text
    exact htrimmed.trim (Text.trim_ne_nil hfilled)
  rw [addPart, bind_of_eq_ok htext, hfilled]
  rw [bind_of_eq_ok (reported_eq (by omega)), bind_of_eq_ok hfound]
  rw [bind_of_eq_ok hslice, htwice]
  rfl

theorem addPart_of_key {key : Text} (hkey : partKey? m part = some key) :
    ∃ entry : StateEntry, entry.name = key ∧
      addPart m base model part = .ok (model.insert entry (partRange m base part)) := by
  obtain ⟨found, hfound, hfst⟩ := entryAt?_of_filled hm hw hfilled
  obtain ⟨text, htext, hlies⟩ := slice_yields hm hw
  rw [partText_eq htext] at hfilled hfound
  rw [partRange, partText_eq htext]
  rw [hkey] at hfst
  obtain ⟨⟨name, value⟩, rfl, rfl⟩ := Option.map_eq_some_iff.mp hfst.symm
  have htrimmed := trimmedSpan_whole hm hlies.1 hfilled
  have hle := htrimmed.le
  have hvalue := ((entryAt?_yields hm htrimmed).of_eq hfound name value rfl).2
  have hvalueLe := hvalue.le
  obtain ⟨valueText, hvalueText, -⟩ := slice_yields hm hvalue
  refine ⟨⟨name, valueText, Span.clamp ⟨base + value.start, base + value.stop⟩⟩, rfl, ?_⟩
  rw [addPart, bind_of_eq_ok htext, hfilled]
  rw [bind_of_eq_ok (reported_eq (by omega)), bind_of_eq_ok hfound]
  dsimp only
  rw [bind_of_eq_ok hvalueText, bind_of_eq_ok (reported_eq (by omega))]
  rfl

end Adding

/-- The entries and the warnings of the model are what became of the parts up to now, which have the
keys `seen`. -/
structure Accounted (seen : List Text) (past : List (Text ⊕ Warning)) (model : StateModel) :
    Prop where
  names : model.entries.map (·.name) = past.filterMap Sum.getLeft?
  warnings : model.warnings = past.filterMap Sum.getRight?
  seen : ∀ key, key ∈ seen ↔ key ∈ model.entries.map (·.name)

variable (h : Accounted seen past model)
include h

theorem Accounted.skip (w : Warning) :
    Accounted seen (past ++ [.inr w]) ⟨model.entries, model.warnings ++ [w]⟩ where
  names := by
    rw [h.names]
    simp
  warnings := by
    rw [h.warnings]
    simp
  seen := h.seen

theorem Accounted.insert (entry : StateEntry) (range : Span) : Accounted (seen ++ [entry.name])
      (past ++ [if entry.name ∈ seen then .inr ⟨.duplicateStateEntry entry.name, range⟩
        else .inl entry.name]) (model.insert entry range) := by
  have hany : model.entries.any (·.name == entry.name) ↔ entry.name ∈ seen := by
    rw [h.seen, List.any_eq_true, List.mem_map]
    simp only [beq_iff_eq]
  have hnames := insert_names model entry range
  simp only [← h.seen] at hnames
  by_cases hseen : entry.name ∈ seen
  · rw [if_pos hseen] at hnames ⊢
    refine ⟨?_, ?_, ?_⟩
    · rw [hnames, h.names]
      simp
    · rw [StateModel.insert, if_pos (hany.mpr hseen), h.warnings]
      simp
    · intro key
      rw [hnames, ← h.seen, List.mem_append, List.mem_singleton]
      exact or_iff_left_of_imp fun heq => heq ▸ hseen
  · rw [if_neg hseen] at hnames ⊢
    refine ⟨?_, ?_, ?_⟩
    · rw [hnames, h.names]
      simp
    · rw [StateModel.insert, if_neg (by rwa [hany]), h.warnings]
      simp
    · intro key
      rw [hnames, List.mem_append, List.mem_append, h.seen]

theorem Accounted.addPart (hm : m.Shows ps) (hw : m.Whole part.start part.stop)
    (hfilled : (partText m part).isBlank = false)
    (hnext : StateModel.addPart m base model part = .ok next) :
    Accounted (seen ++ (partKey? m part).toList) (past ++ [fate m base seen part]) next := by
  unfold fate
  cases hkey : partKey? m part with
  | none =>
    rw [addPart_of_keyless hm hw hfilled hkey] at hnext
    cases hnext
    rw [Option.toList_none, List.append_nil]
    exact h.skip _
  | some key =>
    obtain ⟨entry, rfl, hadd⟩ := addPart_of_key hm hw hfilled hkey
    rw [hadd] at hnext
    cases hnext
    exact h.insert entry _

theorem Accounted.foldlM (hm : m.Shows ps) {parts : List Span}
    (hw : ∀ part ∈ parts, m.Whole part.start part.stop)
    (hlast : parts.foldlM (StateModel.addPart m base) model = .ok next) : ∃ seen', Accounted seen'
      (past ++ fates m base seen (parts.filter fun part => !(partText m part).isBlank)) next := by
  induction parts generalizing seen past model with
  | nil =>
    cases hlast
    exact ⟨seen, by simpa [fates] using h⟩
  | cons part parts ih =>
    obtain ⟨hpart, hparts⟩ := List.forall_mem_cons.mp hw
    obtain ⟨model', hmodel', hlast⟩ := bind_eq_ok hlast
    cases hblank : (partText m part).isBlank with
    | true =>
      rw [addPart_of_blank hm hpart hblank] at hmodel'
      cases hmodel'
      rw [List.filter_cons_of_neg (by simp [hblank])]
      exact ih h hparts hlast
    | false =>
      rw [List.filter_cons_of_pos (by simp [hblank]), fates, List.append_cons]
      exact ih (h.addPart hm hpart hblank hmodel') hparts hlast

end Parts

/-- Reading an initializer that is empty or not blank gives one entry or one warning for each part
that is not blank. -/
theorem build_accounts {s : Snippet} (h : s.text = [] ∨ s.text.isBlank = false) :
    ∃ model, build (some s) = .ok model ∧ model.Named ∧ (model.entries.map (·.name)).Nodup ∧
      model.entries.map (·.name) = (declaredKeys (some s)).eraseDups ∧
      model.entries.map (·.name) =
        (fates (ofText s.text) s.range.start [] (filledParts s.text)).filterMap Sum.getLeft? ∧
      model.warnings =
        (fates (ofText s.text) s.range.start [] (filledParts s.text)).filterMap Sum.getRight? ∧
      model.entries.length + model.warnings.length = (filledParts s.text).length := by
  obtain ⟨t, range⟩ := s
  have hm := Scan.ofText_shows t
  have hyields : Yields (build (some ⟨t, range⟩)) Named := by
    rcases h with h | h
    · obtain rfl : t = [] := h
      exact .ok (by simp [Named, empty])
    · exact build_yields_of_not_blank h range
  obtain ⟨model, hmodel, hnamed⟩ := hyields
  have hkeyed := build_keyed hmodel
  have hrange : (ofText t).Whole (literalRange (ofText t) t).start
      (literalRange (ofText t) t).stop := by
    rcases h with h | h
    · obtain rfl : t = [] := h
      exact ⟨le_refl _, rfl, rfl⟩
    · have hwhole := literalRange_whole hm (by rwa [Scan.kinds_chars])
      rwa [Scan.kinds_chars] at hwhole
  have hwhole : ∀ part ∈ literalParts t, (ofText t).Whole part.start part.stop :=
    fun part hpart => (splitTop_whole hm hrange rfl hpart).1
  have hempty : Accounted [] [] empty := ⟨rfl, rfl, by simp [empty]⟩
  obtain ⟨seen, hnames, hwarnings, -⟩ := hempty.foldlM hm hwhole hmodel
  rw [List.nil_append] at hnames hwarnings
  refine ⟨model, hmodel, hnamed, ?_, hkeyed.names, hnames, hwarnings, ?_⟩
  · rw [hkeyed.names]
    exact nodup_eraseDups _
  · rw [← List.length_map (·.name), hnames, hwarnings, length_getLeft?_add_getRight?, length_fates]
    rfl

/-- An initializer with a comma in a string and one in brackets, a spread, a key declared twice and
a part that is blank. -/
theorem build_accounts_malformed :
    ∃ model,
      build (some ⟨"\x7ba: 'x, y', ...rest, 'b': [2, 3], , a: 1, [k]: 2\x7d".toList, ⟨40, 90⟩⟩) =
        .ok model ∧
      model.entries.map (·.name) = ["a".toList, "b".toList] ∧
      model.warnings.map (·.notice) = [.stateEntrySkipped "...rest".toList,
        .duplicateStateEntry "a".toList, .stateEntrySkipped "[k]: 2".toList] := by
  obtain ⟨model, hmodel, -, -, -, hnames, hwarnings, -⟩ := build_accounts
    (s := ⟨"\x7ba: 'x, y', ...rest, 'b': [2, 3], , a: 1, [k]: 2\x7d".toList, ⟨40, 90⟩⟩) (.inr rfl)
  refine ⟨model, hmodel, ?_, ?_⟩
  · rw [hnames]
    decide +kernel
  · rw [hwarnings]
    decide +kernel

end StateModel

end Declass
