import Declass.Layout
import Declass.Proofs.Trimming

/-!
# Texts with a new layout

**Input.** A text and the same text laid out anew.

**Algorithm.** A text is its lines without the White_Space at their ends, and the gaps between them.
Laying it out keeps the lines and fills each gap anew: with a line feed, further line feeds where
blank lines are kept, and the White_Space before the next line.

**Results.**
* `Relaid` relates what follows the first White_Space of a text to the same lines with other gaps;
  every new gap satisfies the predicate `P`.
* `reindent_laid` and `alignTemplate_laid`: bodies and templates are laid out in this way.
-/

namespace Declass

namespace Text

/-- A text and its lines.  At most White_Space is lost before each line feed. -/
inductive Lined : List Text → Text → Prop
  | nil : Lined [] []
  | last {l : Text} (hl : '\n' ∉ l) : Lined [l] l
  | cons {l w t : Text} {ls : List Text} (hl : '\n' ∉ l) (hw : w.isBlank = true) (hfeed : '\n' ∉ w)
      (h : Lined ls t) : Lined (l :: ls) (l ++ w ++ '\n' :: t)

theorem splitOn_ne_nil (sep : Char) : ∀ t : Text, splitOn sep t ≠ []
  | [] => by simp [splitOn]
  | c :: t => by
      rw [splitOn]
      split
      · exact List.cons_ne_nil _ _
      · split <;> exact List.cons_ne_nil _ _

theorem join_cons (sep l : Text) {ls : List Text} (h : ls ≠ []) :
    join sep (l :: ls) = l ++ sep ++ join sep ls := by
  cases ls with
  | nil => exact absurd rfl h
  | cons m ls => rfl

theorem join_splitOn (sep : Char) (t : Text) : join [sep] (splitOn sep t) = t := by
  induction t with
  | nil => rfl
  | cons c t ih =>
    rw [splitOn]
    split
    · rename_i hc
      rw [join_cons _ _ (splitOn_ne_nil sep t), ih, beq_iff_eq.mp hc]
      rfl
    · cases hpieces : splitOn sep t with
      | nil => exact absurd hpieces (splitOn_ne_nil sep t)
      | cons piece pieces =>
        rw [hpieces] at ih
        rw [← ih]
        cases pieces with
        | nil => rfl
        | cons next pieces => rfl

theorem not_mem_splitOn (sep : Char) (t : Text) : ∀ piece ∈ splitOn sep t, sep ∉ piece := by
  induction t with
  | nil => simp [splitOn]
  | cons c t ih =>
    rw [splitOn]
    split
    · exact List.forall_mem_cons.mpr ⟨List.not_mem_nil, ih⟩
    · rename_i hc
      cases hpieces : splitOn sep t with
      | nil => exact absurd hpieces (splitOn_ne_nil sep t)
      | cons piece pieces =>
        rw [hpieces] at ih
        obtain ⟨hpiece, hrest⟩ := List.forall_mem_cons.mp ih
        have hne : sep ≠ c := fun h => hc (by simp [h])
        exact List.forall_mem_cons.mpr ⟨List.not_mem_cons_of_ne_of_not_mem hne hpiece, hrest⟩

theorem splitOn_append (sep : Char) (t u : Text) :
    splitOn sep (t ++ sep :: u) = splitOn sep t ++ splitOn sep u := by
  induction t with
  | nil => simp [splitOn]
  | cons c t ih =>
    rw [List.cons_append, splitOn, splitOn, ih]
    split
    · rfl
    · cases hpieces : splitOn sep t with
      | nil => exact absurd hpieces (splitOn_ne_nil sep t)
      | cons piece pieces => rfl

theorem splitOn_of_not_mem {sep : Char} {t : Text} (h : sep ∉ t) : splitOn sep t = [t] := by
  induction t with
  | nil => rfl
  | cons c t ih =>
    rw [List.mem_cons, not_or] at h
    have hne : (c == sep) = false := by simpa using Ne.symm h.1
    simp [splitOn, hne, ih h.2]

theorem splitOn_join {sep : Char} {ns : List Text} (hns : ns ≠ []) (h : ∀ n ∈ ns, sep ∉ n) :
    splitOn sep (join [sep] ns) = ns := by
  induction ns with
  | nil => exact absurd rfl hns
  | cons n ns ih =>
    obtain ⟨hn, hrest⟩ := List.forall_mem_cons.mp h
    by_cases hnil : ns = []
    · subst hnil
      exact splitOn_of_not_mem hn
    · rw [join_cons _ _ hnil, List.append_assoc, List.singleton_append, splitOn_append,
        splitOn_of_not_mem hn, ih hnil hrest, List.singleton_append]

theorem dropReturn_eq (t : Text) : ∃ w : Text, t = t.dropReturn ++ w ∧ w.isBlank := by
  rw [dropReturn]
  split
  · rename_i h
    exact ⟨['\r'], (List.dropLast_append_getLast? _ (by simpa using h)).symm, by decide⟩
  · exact ⟨[], (List.append_nil t).symm, rfl⟩

theorem lined_linesOfPieces : ∀ {pieces : List Text}, (∀ piece ∈ pieces, '\n' ∉ piece) →
    Lined (linesOfPieces pieces) (join ['\n'] pieces)
  | [], _ => .nil
  | [last], h => by
      rw [linesOfPieces]
      split
      · rename_i hnil
        rw [List.isEmpty_iff.mp hnil]
        exact .nil
      · exact .last (h last (by simp))
  | piece :: next :: pieces, h => by
      obtain ⟨hpiece, hrest⟩ := List.forall_mem_cons.mp h
      obtain ⟨w, hw, hblank⟩ := dropReturn_eq piece
      have hlined := lined_linesOfPieces hrest
      rw [linesOfPieces, join_cons _ _ (List.cons_ne_nil _ _), List.append_assoc]
      · nth_rewrite 2 [hw]
        rw [hw, List.mem_append, not_or] at hpiece
        exact .cons hpiece.1 hblank hpiece.2 hlined
      · exact fun h => nomatch h

/-- A text is made up of its lines. -/
theorem lined_lines (t : Text) : Lined t.lines t := by
  have h := lined_linesOfPieces (not_mem_splitOn '\n' t)
  rwa [join_splitOn] at h

end Text

namespace Layout

open Character (isSpace isLayout)

section Relations

/-- A gap of the old text, `u`, a line feed and `v`, and its new filling, a line feed and `v'`. -/
structure Gap (P : Text → Prop) (u v v' : Text) : Prop where
  trail : u.isBlank = true
  feed : '\n' ∉ u
  blank : v.isBlank = true
  layout : ∀ c ∈ v', isLayout c = true ∨ c ∈ v
  feeds : '\n' ∈ v' → '\n' ∈ v
  fill : P v'

/-- The second text has the lines of the first, with other gaps between them and nothing behind
them.  Both start within a line or behind it. -/
inductive Relaid (P : Text → Prop) : Text → Text → Prop
  | stop {w : Text} (hw : w.isBlank = true) : Relaid P w []
  | char {c : Char} {t t' : Text} (hc : c ≠ '\n')
      (hinner : isSpace c = true → ∃ d r, t' = d :: r ∧ d ≠ '\n') (h : Relaid P t t') :
      Relaid P (c :: t) (c :: t')
  | gap {u v v' t t' : Text} {c : Char} (hgap : Gap P u v v') (hc : isSpace c = false)
      (h : Relaid P (c :: t) (c :: t')) :
      Relaid P (u ++ '\n' :: (v ++ c :: t)) ('\n' :: (v' ++ c :: t'))

/-- The second text is the first with another layout. -/
inductive Laid (P : Text → Prop) : Text → Text → Prop
  | blank {b : Text} (hb : b.isBlank = true) : Laid P b []
  | text {v v' t t' : Text} {c : Char} (hv : v.isBlank = true)
      (hv' : ∀ d ∈ v', isLayout d = true ∨ d ∈ v) (hc : isSpace c = false)
      (h : Relaid P (c :: t) (c :: t')) : Laid P (v ++ c :: t) (v' ++ c :: t')

theorem isSpace_of_isLayout {c : Char} (h : isLayout c) : isSpace c :=
  CodeMap.of_isLayout h (by decide)

variable {P : Text → Prop} {u v v' t t' : Text} {c : Char}

theorem isBlank_of_layout (hv : v.isBlank) (h : ∀ d ∈ v', isLayout d ∨ d ∈ v) : v'.isBlank := by
  refine List.all_eq_true.mpr fun d hd => ?_
  rcases h d hd with hd | hd
  · exact isSpace_of_isLayout hd
  · exact List.all_eq_true.mp hv d hd

theorem Relaid.append {core : Text} (hfeed : '\n' ∉ core)
    (hlast : ∀ c, core.getLast? = some c → isSpace c = false) (h : Relaid P t t') :
    Relaid P (core ++ t) (core ++ t') := by
  induction core with
  | nil => exact h
  | cons c core ih =>
    rw [List.mem_cons, not_or] at hfeed
    cases core with
    | nil =>
      refine .char (Ne.symm hfeed.1) (fun hspace => ?_) h
      rw [hlast c rfl] at hspace
      cases hspace
    | cons d core =>
      refine .char (Ne.symm hfeed.1) (fun _ => ⟨d, core ++ t', rfl, ?_⟩) (ih hfeed.2 ?_)
      · exact fun hd => hfeed.2 (hd ▸ List.mem_cons_self)
      · exact fun x hx => hlast x (by rwa [List.getLast?_cons_cons])

end Relations

section Lines

variable {P : Text → Prop} {ls ms : List Text} {b : Text}

/-- The lines of a text and those it is laid out in.  A line that is not blank keeps its trimmed
text and gets new White_Space in front; a blank one is dropped, or kept as an empty one. -/
inductive Relines (P : Text → Prop) : List Text → List Text → Prop
  | nil : Relines P [] []
  | drop {l : Text} {ls ms : List Text} (hl : l.isBlank = true) (h : Relines P ls ms) :
      Relines P (l :: ls) ms
  | keep {l : Text} {ls ms : List Text} (hl : l.isBlank = true) (hne : ms ≠ [])
      (hfill : ∀ v, P v → P ('\n' :: v)) (h : Relines P ls ms) : Relines P (l :: ls) ([] :: ms)
  | line {lead core trail lead' : Text} {ls ms : List Text} (hcore : core.IsTrimmed)
      (hne : core ≠ []) (hlead : lead.isBlank = true) (htrail : trail.isBlank = true)
      (hlayout : ∀ c ∈ lead', isLayout c = true ∨ c ∈ lead) (hfeed : '\n' ∈ lead' → '\n' ∈ lead)
      (hfill : P lead') (h : Relines P ls ms) :
      Relines P ((lead ++ core ++ trail) :: ls) ((lead' ++ core) :: ms)

/-- A text and the lines it is laid out in, from the gap before its first line on. -/
inductive Opens (P : Text → Prop) : Text → List Text → Prop
  | blank {b : Text} (hb : b.isBlank = true) : Opens P b []
  | text {v v' t t' : Text} {c : Char} {ms : List Text} (hnew : Text.join ['\n'] ms = v' ++ c :: t')
      (hgap : Gap P [] v v') (hc : isSpace c = false) (h : Relaid P (c :: t) (c :: t')) :
      Opens P (v ++ c :: t) ms

/-- What stands behind a line: White_Space to the end of the text, or a gap and more lines. -/
inductive Behind (P : Text → Prop) : Text → List Text → Prop
  | stop {r : Text} (hr : r.isBlank = true) : Behind P r []
  | gap {w v v' t t' : Text} {c : Char} {ms : List Text} (hne : ms ≠ [])
      (hnew : Text.join ['\n'] ms = v' ++ c :: t') (hgap : Gap P w v v') (hc : isSpace c = false)
      (h : Relaid P (c :: t) (c :: t')) : Behind P (w ++ '\n' :: (v ++ c :: t)) ms

theorem Opens.behind {l : Text} (hb : Text.Lined (l :: ls) b) (h : Relines P ls ms)
    (ih : ∀ {b}, Text.Lined ls b → Opens P b ms) :
    '\n' ∉ l ∧ ∃ r : Text, b = l ++ r ∧ Behind P r ms := by
  cases hb with
  | last hl =>
    cases h
    exact ⟨hl, [], (List.append_nil _).symm, .stop rfl⟩
  | @cons _ w t _ hl hw hfeed hrest =>
    refine ⟨hl, w ++ '\n' :: t, List.append_assoc _ _ _, ?_⟩
    have hopens := ih hrest
    cases hopens with
    | blank ht =>
      refine .stop ?_
      rw [Text.isBlank_append, hw]
      exact ht
    | text hnew hgap hc h =>
      refine .gap ?_ hnew ⟨hw, hfeed, hgap.blank, hgap.layout, hgap.feeds, hgap.fill⟩ hc h
      rintro rfl
      simp [Text.join] at hnew

/-- A blank line in front makes a gap wider, whether it is dropped or kept. -/
theorem Gap.widen {l w v v' v'' : Text} (hl : l.isBlank) (h : Gap P w v v')
    (hnew : ∀ c ∈ v'', c = '\n' ∨ c ∈ v') (hfill : P v'') : Gap P [] (l ++ w ++ '\n' :: v) v'' := by
  refine ⟨rfl, List.not_mem_nil, ?_, fun c hc => ?_, by simp, hfill⟩
  · rw [Text.isBlank_append, Text.isBlank_append, hl, h.trail]
    exact h.blank
  · rcases hnew c hc with rfl | hc
    · exact .inl rfl
    · exact (h.layout c hc).imp_right (by simp +contextual)

theorem Relines.opens (h : Relines P ls ms) (hb : Text.Lined ls b) : Opens P b ms := by
  -- One case for each line; `Opens.behind` says what the lines behind it give.
  induction h generalizing b with
  | nil =>
    cases hb
    exact .blank rfl
  | @drop l _ ms hl h ih =>
    obtain ⟨-, r, rfl, hbehind⟩ := Opens.behind hb h ih
    cases hbehind with
    | stop hr => exact .blank (by rw [Text.isBlank_append, hl, hr, Bool.and_self])
    | @gap w v v' t _ c _ _ hnew hgap hc h =>
      have hopens : Opens P (l ++ w ++ '\n' :: v ++ c :: t) ms :=
        .text hnew (hgap.widen hl (fun _ => .inr) hgap.fill) hc h
      simpa using hopens
  | @keep l _ ms hl hne hfill h ih =>
    obtain ⟨-, r, rfl, hbehind⟩ := Opens.behind hb h ih
    cases hbehind with
    | stop hr => exact absurd rfl hne
    | @gap w v v' t t' c _ _ hnew hgap hc h =>
      have hjoin : Text.join ['\n'] ([] :: ms) = '\n' :: v' ++ c :: t' := by
        rw [Text.join_cons _ _ hne, hnew]
        rfl
      have hopens : Opens P (l ++ w ++ '\n' :: v ++ c :: t) ([] :: ms) :=
        .text hjoin (hgap.widen hl (by simp) (hfill v' hgap.fill)) hc h
      simpa using hopens
  | @line lead core trail lead' _ ms hcore hne hlead htrail hlayout hfeed hfill h ih =>
    obtain ⟨hline, r, rfl, hbehind⟩ := Opens.behind hb h ih
    simp only [List.mem_append, not_or] at hline
    obtain ⟨⟨-, hfree⟩, hfreeTrail⟩ := hline
    obtain ⟨c, rest, rfl⟩ := List.exists_cons_of_ne_nil hne
    have hgap : Gap P [] lead lead' := ⟨rfl, List.not_mem_nil, hlead, hlayout, hfeed, hfill⟩
    have hc := hcore.head c rfl
    cases hbehind with
    | stop hr =>
      have htail : Text.isBlank (trail ++ r) := by
        rw [Text.isBlank_append, htrail, hr, Bool.and_self]
      have hrelaid := (Relaid.stop (P := P) htail).append hfree hcore.last
      rw [List.append_nil] at hrelaid
      have hopens : Opens P (lead ++ c :: (rest ++ (trail ++ r))) [lead' ++ c :: rest] :=
        .text rfl hgap hc hrelaid
      simpa using hopens
    | @gap w v v' t t' d _ hms hnew hwide hd h =>
      have hwider : Gap P (trail ++ w) v v' := by
        refine ⟨?_, ?_, hwide.blank, hwide.layout, hwide.feeds, hwide.fill⟩
        · rw [Text.isBlank_append, htrail, hwide.trail, Bool.and_self]
        · simp [hfreeTrail, hwide.feed]
      have hrelaid := (Relaid.gap hwider hd h).append hfree hcore.last
      have hjoin : Text.join ['\n'] ((lead' ++ c :: rest) :: ms) =
          lead' ++ c :: (rest ++ '\n' :: (v' ++ d :: t')) := by
        rw [Text.join_cons _ _ hms, hnew]
        simp
      have hopens : Opens P (lead ++ c :: (rest ++ (trail ++ w ++ '\n' :: (v ++ d :: t))))
          ((lead' ++ c :: rest) :: ms) := .text hjoin hgap hc hrelaid
      simpa using hopens

theorem Relines.laid (h : Relines P b.lines ms) : Laid P b (Text.join ['\n'] ms) := by
  have hopens := h.opens (Text.lined_lines b)
  cases hopens with
  | blank hb => exact .blank hb
  | text hnew hgap hc hrelaid =>
    rw [hnew]
    exact .text hgap.blank hgap.layout hc hrelaid

end Lines

section Bodies

variable {indent : Text} {common : Nat}

theorem isSpace_of_isIndent {c : Char} (h : isIndent c) : isSpace c := by
  simp only [isIndent, Bool.or_eq_true, beq_iff_eq] at h
  rcases h with rfl | rfl <;> decide

/-- Indentation ends before the first character that is no White_Space. -/
theorem indentation_eq (lead trail : Text) {core : Text} (hcore : core.IsTrimmed) (hne : core ≠ []) :
    indentation (lead ++ core ++ trail) = indentation lead := by
  obtain ⟨c, rest, rfl⟩ := List.exists_cons_of_ne_nil hne
  have hc : ¬ isIndent c := by
    intro h
    cases (isSpace_of_isIndent h).symm.trans (hcore.head c rfl)
  rw [indentation, List.append_assoc, List.takeWhile_append, List.cons_append,
    List.takeWhile_cons_of_neg hc]
  split
  · rename_i hall
    rw [List.append_nil, indentation, hall]
  · rfl

/-- A line that is not blank keeps its trimmed text, behind the new indentation and what is left of
the old one. -/
theorem place_eq (indent : Text) {l : Line} (hl : l.isBlank = false)
    (hcommon : l.inline = false → common ≤ indentation l.text) :
    ∃ lead trail lead', l.text = lead ++ l.text.trim ++ trail ∧ lead.isBlank ∧
      trail.isBlank ∧ lead' <:+ lead ∧ (l.inline = false → lead' = lead.drop common) ∧
      l.place indent common = indent ++ lead' ++ l.text.trim := by
  obtain ⟨lead, trail, htext, hlead, htrail, htrimmed⟩ := Text.exists_trimmed l.text
  have hne := Text.trim_ne_nil hl
  rw [Line.place, if_neg (by simp [hl])]
  split
  · rename_i hinline
    exact ⟨lead, trail, [], htext, hlead, htrail, List.nil_suffix, by simp [hinline], by simp⟩
  · rename_i hinline
    refine ⟨lead, trail, lead.drop common, htext, hlead, htrail, List.drop_suffix _ _,
      fun _ => rfl, ?_⟩
    have hle : common ≤ lead.length := by
      have hindent := hcommon (by simpa using hinline)
      rw [htext, indentation_eq _ _ htrimmed hne] at hindent
      exact hindent.trans (List.takeWhile_sublist _).length_le
    have hdrop : l.text.drop common = lead.drop common ++ l.text.trim ++ trail := by
      conv_lhs => rw [htext]
      rw [List.append_assoc, List.drop_append_of_le_length hle, List.append_assoc]
    rw [hdrop, htrimmed.trimEnd_append hne htrail, List.append_assoc]

theorem commonIndent_le {ls : List Line} {l : Line} (hl : l ∈ ls) (hblank : l.isBlank = false)
    (hinline : l.inline = false) : commonIndent ls ≤ indentation l.text := by
  have hmem : indentation l.text ∈
      (ls.filter fun l => !l.inline && !l.isBlank).map fun l => indentation l.text :=
    List.mem_map.mpr ⟨l, List.mem_filter.mpr ⟨hl, by simp [hblank, hinline]⟩, rfl⟩
  rw [commonIndent]
  generalize (ls.filter fun l => !l.inline && !l.isBlank).map (fun l => indentation l.text) = ns
    at hmem
  cases hmin : ns.min? with
  | none => simp [List.min?_eq_none_iff.mp hmin] at hmem
  | some n => exact (List.min?_eq_some_iff.mp hmin).2 _ hmem

theorem map_text_bodyLines (b : Text) : (bodyLines b).map Line.text = b.lines := by
  rw [bodyLines]
  cases b.lines with
  | nil => rfl
  | cons l ls => simp [Function.comp_def]

/-- The lines between the blank ones at both ends; the last of them is not blank. -/
theorem dropBlankEnds_eq (ls : List Line) :
    ∃ back, ls = ls.takeWhile Line.isBlank ++ dropBlankEnds ls ++ back ∧
      (∀ l ∈ back, l.isBlank) ∧ ∀ l ∈ (dropBlankEnds ls).getLast?, l.isBlank = false := by
  have hfront := List.takeWhile_append_dropWhile (p := Line.isBlank) (l := ls)
  generalize hmiddle : ls.dropWhile Line.isBlank = middle at hfront
  have hback := List.takeWhile_append_dropWhile (p := Line.isBlank) (l := middle.reverse)
  refine ⟨(middle.reverse.takeWhile Line.isBlank).reverse, ?_, fun l hl => ?_, fun l hl => ?_⟩
  · rw [dropBlankEnds, hmiddle, List.append_assoc, ← List.reverse_append, hback,
      List.reverse_reverse, hfront]
  · exact List.mem_takeWhile_imp (List.mem_reverse.mp hl)
  · have hnot := List.head?_dropWhile_not Line.isBlank middle.reverse
    rw [dropBlankEnds, hmiddle, List.getLast?_reverse] at hl
    rw [hl] at hnot
    simpa using hnot

theorem Relines.drop_append {P : Text → Prop} {front ls ms : List Text}
    (hfront : ∀ l ∈ front, l.isBlank) (h : Relines P ls ms) : Relines P (front ++ ls) ms := by
  induction front with
  | nil => exact h
  | cons l front ih =>
    obtain ⟨hl, hfront⟩ := List.forall_mem_cons.mp hfront
    exact .drop hl (ih hfront)

/-- The lines of a body, once the last of them is not blank, with blank ones behind them. -/
theorem relines_place (hindent : ∀ c ∈ indent, isLayout c ∧ c ≠ '\n') {ls : List Line}
    {back : List Text} (hback : ∀ l ∈ back, l.isBlank)
    (hlast : ∀ l ∈ ls.getLast?, l.isBlank = false)
    (hcommon : ∀ l ∈ ls, l.isBlank = false → l.inline = false → common ≤ indentation l.text) :
    Relines (fun v => indent.length ≤ v.length) (ls.map Line.text ++ back)
      (ls.map (Line.place indent common)) := by
  induction ls with
  | nil => simpa using Relines.nil.drop_append hback
  | cons l ls ih =>
    obtain ⟨hl, hls⟩ := List.forall_mem_cons.mp hcommon
    have hlast' : ∀ l ∈ ls.getLast?, l.isBlank = false := by
      cases ls with
      | nil => simp
      | cons m ls => simpa only [List.getLast?_cons_cons] using hlast
    specialize ih hlast' hls
    rw [List.map_cons, List.map_cons]
    cases hblank : l.isBlank with
    | true =>
      rw [Line.place, if_pos hblank]
      refine .keep hblank ?_ (fun v hv => hv.trans (by simp)) ih
      cases ls with
      | nil =>
        rw [hlast l rfl] at hblank
        cases hblank
      | cons m ls => exact List.cons_ne_nil _ _
    | false =>
      obtain ⟨lead, trail, lead', htext, hlead, htrail, hsuffix, -, hplace⟩ :=
        place_eq indent hblank (hl hblank)
      have hmem : ∀ c ∈ indent ++ lead', isLayout c ∧ c ≠ '\n' ∨ c ∈ lead := by
        intro c hc
        rcases List.mem_append.mp hc with hc | hc
        · exact .inl (hindent c hc)
        · exact .inr (hsuffix.subset hc)
      obtain ⟨-, -, -, -, -, htrimmed⟩ := Text.exists_trimmed l.text
      rw [hplace]
      nth_rewrite 1 [htext]
      refine .line htrimmed (Text.trim_ne_nil hblank) hlead htrail (fun c hc => ?_) (fun hc => ?_)
        ?_ ih
      · exact (hmem c hc).imp_left And.left
      · exact (hmem _ hc).resolve_left fun h => h.2 rfl
      · exact (List.prefix_append indent lead').length_le

/-- A body is laid out by indenting it. -/
theorem reindent_laid (b : Text) (hindent : ∀ c ∈ indent, isLayout c ∧ c ≠ '\n') :
    Laid (fun v => indent.length ≤ v.length) b (reindent b indent) := by
  obtain ⟨back, heq, hback, hlast⟩ := dropBlankEnds_eq (bodyLines b)
  generalize hfront : (bodyLines b).takeWhile Line.isBlank = front at heq
  have hfront' : ∀ l ∈ front.map Line.text, l.isBlank := by
    rw [← hfront]
    simpa [Line.isBlank] using fun l => List.mem_takeWhile_imp (p := Line.isBlank)
  have hback' : ∀ l ∈ back.map Line.text, l.isBlank := by simpa [Line.isBlank] using hback
  have hlines : b.lines = front.map Line.text ++
      ((dropBlankEnds (bodyLines b)).map Line.text ++ back.map Line.text) := by
    rw [← map_text_bodyLines, ← List.map_append, ← List.map_append, ← List.append_assoc, ← heq]
  refine Relines.laid ?_
  rw [hlines]
  exact (relines_place hindent hback' hlast fun _ hl => commonIndent_le hl).drop_append hfront'

end Bodies

/-- The lines of a template, each behind the indentation of templates. -/
theorem relines_trim (ls : List Text) : Relines (· = templateIndent) ls
    (((ls.map Text.trim).filter (!·.isEmpty)).map (templateIndent ++ ·)) := by
  induction ls with
  | nil => exact .nil
  | cons l ls ih =>
    cases hblank : l.isBlank with
    | true =>
      rw [List.map_cons, Text.trim_of_isBlank hblank]
      exact .drop hblank ih
    | false =>
      obtain ⟨lead, trail, htext, hlead, htrail, htrimmed⟩ := Text.exists_trimmed l
      have hne := Text.trim_ne_nil hblank
      rw [List.map_cons, List.filter_cons_of_pos (by simp [hne])]
      nth_rewrite 1 [htext]
      have hlayout : ∀ c ∈ templateIndent, isLayout c := by
        intro c hc
        rw [List.eq_of_mem_replicate (show c ∈ List.replicate 4 ' ' from hc)]
        rfl
      have hfeed : '\n' ∉ templateIndent := by decide
      exact .line htrimmed hne hlead htrail (fun c hc => .inl (hlayout c hc))
        (fun h => absurd h hfeed) rfl ih

theorem join_indented (sep l : Text) (ls : List Text) :
    Text.join ['\n'] ((l :: ls).map (sep ++ ·)) = sep ++ Text.join ('\n' :: sep) (l :: ls) := by
  induction ls generalizing l with
  | nil => rfl
  | cons m ls ih =>
    have hjoin : Text.join ['\n'] ((l :: m :: ls).map (sep ++ ·)) =
        sep ++ l ++ ['\n'] ++ Text.join ['\n'] ((m :: ls).map (sep ++ ·)) := rfl
    rw [hjoin, ih, Text.join_cons _ _ (List.cons_ne_nil m ls)]
    simp

/-- A template is laid out by aligning it. -/
theorem alignTemplate_laid (b : Text) : Laid (· = templateIndent) b (alignTemplate b) := by
  have hopens := (relines_trim b.lines).opens (Text.lined_lines b)
  rw [alignTemplate]
  generalize (b.lines.map Text.trim).filter (!·.isEmpty) = ms at hopens
  cases ms with
  | nil =>
    cases hopens with
    | blank hb => exact .blank hb
    | text hnew => simp [Text.join] at hnew
  | cons m ms =>
    cases hopens with
    | text hnew hgap hc h =>
      -- The first line has no indentation in front.
      rw [join_indented, hgap.fill, List.append_cancel_left_eq] at hnew
      have hsep : "\n" ++ templateIndent = '\n' :: templateIndent := rfl
      rw [hsep, hnew]
      exact Laid.text hgap.blank (fun d (hd : d ∈ ([] : Text)) => nomatch hd) hc h

end Layout

end Declass
