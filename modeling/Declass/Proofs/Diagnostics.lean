import Declass.Proofs.MemberUse
import Declass.Proofs.Patches
import Declass.Proofs.Rebasing

/-!
# What reports point at

**Input.** A source with fewer than 2³² bytes and receivers that are identifiers.

A piece of the source is moved several times before something is reported about it: it is cut out,
trimmed, cut out again as the argument of a setter call, and in the statements of render some
declarations are blanked out first.  `ShownIn` is what all of this keeps: a character that is no
White_Space stands as many bytes behind the start of the piece as it does in the source.

**Results.** `reports_point_at_source`: the range of each warning holds the text that its notice
describes, and the ranges of snippets and of state entries hold what is stored with them.
-/

namespace Declass

open CodeMap

/-- The text `u` fills the range of the text `t`. -/
def Span.Holds (range : Span) (t u : Text) : Prop :=
  Text.LiesAt t range.start u ∧ range.start + u.size = range.stop

namespace Notice

/-- The text that the message quotes first. -/
def quoted (n : Notice) : Text :=
  ((n.message.dropWhile (· != '\x60')).drop 1).takeWhile (· != '\x60')

/-- What the notice says of the text that it is about. -/
def Describes (u : Text) : Notice → Prop
  | memberFlattened receiver member =>
    u = receiver ++ "." ++ member ∧ u = (memberFlattened receiver member).quoted
  | setStateKept receiver => (receiver ++ ".setState" : Text) <+: u
  | _ => True

/-- How the text that the notice is about stands in the map. -/
def MarksOut (m : CodeMap) (start stop : Nat) : Notice → Prop
  | memberFlattened receiver member =>
    (∀ c ∈ receiver ++ member, Character.isIdentPart c = true) ∧
      m.spells (receiver ++ "." ++ member) start = true ∧
      start + (receiver ++ "." ++ member).size = stop
  | setStateKept receiver =>
    m.spells (receiver ++ ".setState") start = true ∧
      start + (receiver ++ ".setState").size ≤ stop ∧ m.isBoundary stop = true
  | _ => m.Whole start stop

theorem message_memberFlattened (receiver member : Text) :
    ∃ rest : Text, (memberFlattened receiver member).message =
      '\x60' :: (receiver ++ "." ++ member ++ '\x60' :: rest) := by
  have htick : String.toList "`" = ['\x60'] := by decide
  have hwords : String.toList "` has no local binding and was reduced to `" =
      '\x60' :: String.toList " has no local binding and was reduced to `" := by decide +kernel
  refine ⟨String.toList " has no local binding and was reduced to `" ++ (member ++ ['\x60']), ?_⟩
  unfold message
  rw [hwords, htick]
  simp only [List.append_assoc, List.cons_append, List.nil_append]

theorem quoted_memberFlattened {receiver member : Text}
    (h : ∀ c ∈ receiver ++ member, Character.isIdentPart c) :
    (memberFlattened receiver member).quoted = receiver ++ "." ++ member := by
  have hplain : ∀ c ∈ receiver ++ "." ++ member, (c != '\x60') := by
    intro c hc
    have hcases : c = '.' ∨ c ∈ receiver ++ member := by
      simp only [List.mem_append] at hc ⊢
      rcases hc with (hc | hc) | hc
      · exact .inr (.inl hc)
      · exact .inl (by simpa using hc)
      · exact .inr (.inr hc)
    rcases hcases with rfl | hc
    · rfl
    · by_contra heq
      obtain rfl : c = '\x60' := by simpa using heq
      exact absurd (h _ hc) (by decide +kernel)
  obtain ⟨rest, hrest⟩ := message_memberFlattened receiver member
  rw [quoted, hrest, List.dropWhile_cons_of_neg (by decide), List.drop_succ_cons, List.drop_zero,
    List.takeWhile_append_of_pos hplain, List.takeWhile_cons_of_neg (by decide), List.append_nil]

variable {m : CodeMap} {ps : Painted} {n : Notice} {start stop : Nat}

theorem MarksOut.describes (hm : m.Shows ps) (h : n.MarksOut m start stop) :
    ∃ u, m.slice start stop = .ok u ∧ n.Describes u := by
  cases n with
  | memberFlattened receiver member =>
    obtain ⟨hchars, hspells, rfl⟩ := h
    exact ⟨_, slice_of_spells hm (by simp) hspells, rfl, (quoted_memberFlattened hchars).symm⟩
  | setStateKept receiver =>
    obtain ⟨hspells, hle, hstop⟩ := h
    have hword := slice_of_spells hm (by simp) hspells
    obtain ⟨rest, hrest, -⟩ := slice_yields hm ⟨hle, (whole_of_slice hm hword).1.right, hstop⟩
    exact ⟨_, slice_append hm hword hrest, List.prefix_append _ _⟩
  | _ =>
    obtain ⟨u, hu, -⟩ := slice_yields hm h
    exact ⟨u, hu, trivial⟩

theorem MarksOut.whole (hm : m.Shows ps) (h : n.MarksOut m start stop) : m.Whole start stop := by
  obtain ⟨u, hu, -⟩ := h.describes hm
  exact (whole_of_slice hm hu).1

end Notice

/-- The range of the warning is what its notice marks out. -/
def Warning.Points (m : CodeMap) (w : Warning) : Prop :=
  w.notice.MarksOut m w.range.start w.range.stop

section Limits

variable {m : CodeMap} {ps : Painted} (hm : m.Shows ps) (hlimit : m.size ≤ Span.limit)
include hm hlimit

theorem CodeMap.Whole.clamp {start stop : Nat} (h : m.Whole start stop) :
    Span.clamp ⟨start, stop⟩ = ⟨start, stop⟩ :=
  Span.clamp_of_le h.le ((isBoundary_le hm h.right).trans hlimit)

theorem Notice.MarksOut.points {n : Notice} {start stop : Nat} (h : n.MarksOut m start stop) :
    Warning.Points m ⟨n, Span.clamp ⟨start, stop⟩⟩ := by
  rw [(h.whole hm).clamp hm hlimit]
  exact h

theorem Warning.points_of_about {n : Notice} {start stop : Nat} {w : Warning}
    (h : Warning.about n start stop = .ok w) (hmarks : n.MarksOut m start stop) : w.Points m := by
  obtain rfl := (Warning.about_yields n (hmarks.whole hm).le).of_eq h
  exact hmarks.points hm hlimit

theorem Snippet.Is.slice {start stop : Nat} {s : Snippet} (h : s.Is m start stop) :
    m.slice start stop = .ok s.text ∧ s.range = ⟨start, stop⟩ := by
  obtain ⟨text, htext, h⟩ := bind_eq_ok h
  obtain ⟨range, hrange, h⟩ := bind_eq_ok h
  cases h
  have hwhole := (whole_of_slice hm htext).1
  refine ⟨htext, ?_⟩
  rw [(Span.reported_yields hwhole.le).of_eq hrange, hwhole.clamp hm hlimit]

end Limits

section Shown

/-- Every character of the first map that is no White_Space stands in the second one, `base` bytes
further on. -/
def CodeMap.ShownIn (m m' : CodeMap) (base : Nat) : Prop :=
  ∀ i c, m.charAt? i = some c → Character.isSpace c = false → m'.charAt? (base + i) = some c

variable {m m' m'' : CodeMap} {ps : Painted} {a b i j : Nat} {u : Text}

theorem CodeMap.ShownIn.trans (h : m.ShownIn m' a) (h' : m'.ShownIn m'' b) :
    m.ShownIn m'' (b + a) := by
  intro i c hc hspace
  rw [Nat.add_assoc]
  exact h' _ c (h i c hc hspace) hspace

theorem CodeMap.ShownIn.spells (h : m.ShownIn m' a) (hu : ∀ c ∈ u, Character.isSpace c = false)
    (hspells : m.spells u i) : m'.spells u (a + i) := by
  induction u generalizing i with
  | nil => rfl
  | cons c u ih =>
    rw [CodeMap.spells, Bool.and_eq_true, beq_iff_eq] at hspells ⊢
    refine ⟨h i c hspells.1 (hu c (by simp)), ?_⟩
    rw [Nat.add_assoc]
    exact ih (fun d hd => hu d (List.mem_cons_of_mem c hd)) hspells.2

theorem CodeMap.charAt?_iff_liesAt {c : Char} (hm : m.Shows ps) :
    m.charAt? i = some c ↔ Text.LiesAt (ps.map Prod.fst) i [c] := by
  constructor
  · intro h
    refine (spells_iff hm (charAt?_boundary hm h).1).mp ?_
    simp [CodeMap.spells, h]
  · intro h
    have hspells := (spells_iff hm (slice_of_liesAt hm h).1.left).mpr h
    simpa [CodeMap.spells] using hspells

theorem CodeMap.charAt?_ofText_iff {c : Char} :
    (ofText u).charAt? i = some c ↔ Text.LiesAt u i [c] := by
  rw [charAt?_iff_liesAt (Scan.ofText_shows u), Scan.kinds_chars]

theorem CodeMap.charBefore?_ofText (pre rest : Text) :
    (ofText (pre ++ rest)).charBefore? pre.size = pre.getLast? := by
  rcases List.eq_nil_or_concat pre with rfl | ⟨pre, c, rfl⟩
  · rfl
  · have hat : (ofText (pre.concat c ++ rest)).charAt? (Text.size pre) = some c :=
      charAt?_ofText_iff.mpr ⟨pre, rest, by simp, rfl⟩
    have hsize : Text.size (pre.concat c) = Text.size pre + c.utf8Size := by simp
    rw [hsize, charBefore?_of_charAt? (Scan.ofText_shows _) hat]
    simp

theorem Text.LiesAt.trans {t v : Text} (h : LiesAt t i u) (h' : LiesAt u j v) :
    LiesAt t (i + j) v := by
  obtain ⟨pre, post, rfl, rfl⟩ := h
  obtain ⟨pre', post', rfl, rfl⟩ := h'
  exact ⟨pre ++ pre', post' ++ post, by simp, Text.size_append _ _⟩

theorem Text.LiesAt.append_cases {v : Text} {c : Char} (h : LiesAt (u ++ v) i [c]) :
    LiesAt u i [c] ∨ ∃ j, i = u.size + j ∧ LiesAt v j [c] := by
  obtain ⟨pre, post, h, rfl⟩ := h
  rw [List.append_assoc] at h
  rcases List.append_eq_append_iff.mp h with ⟨x, rfl, hx⟩ | ⟨x, rfl, hx⟩
  · exact .inr ⟨size x, size_append _ _, x, post, by rw [hx]; simp, rfl⟩
  · cases x with
    | nil => exact .inr ⟨0, by simp, [], post, by simpa using hx.symm, rfl⟩
    | cons d x =>
      obtain ⟨rfl, -⟩ := List.cons.inj hx
      exact .inl ⟨pre, x, by simp, rfl⟩

theorem shownIn_of_liesAt (hm : m.Shows ps) (h : Text.LiesAt (ps.map Prod.fst) i u) :
    (ofText u).ShownIn m i := fun _ _ hc _ =>
  (charAt?_iff_liesAt hm).mpr (h.trans (charAt?_ofText_iff.mp hc))

theorem shownIn_of_slice (hm : m.Shows ps) (h : m.slice i j = .ok u) : (ofText u).ShownIn m i :=
  shownIn_of_liesAt hm ((slice_yields hm (whole_of_slice hm h).1).of_eq h).1

/-- Text that was cut out is shown, once it is trimmed, where its trimmed range starts. -/
theorem shownIn_of_trim (hm : m.Shows ps) (h : m.slice i j = .ok u) :
    (ofText u.trim).ShownIn m (u.trimmedSpan i).start := by
  cases hblank : u.isBlank with
  | false =>
    have hlies := ((slice_yields hm (whole_of_slice hm h).1).of_eq h).1
    exact shownIn_of_liesAt hm (Text.trimmedSpan_lies hlies hblank).1
  | true =>
    have hnil : u.trim = [] := by
      have hstart : u.trimStart = [] := by
        simpa [Text.trimStart, List.dropWhile_eq_nil_iff, Text.isBlank] using hblank
      rw [Text.trim, hstart]
      rfl
    intro k c hc
    rw [hnil, charAt?_ofText_iff] at hc
    obtain ⟨pre, post, hpre, -⟩ := hc
    simp at hpre

theorem Edit.splice_shown (hm : m.Shows ps) {edits : List Edit} {pos : Nat} {out : Text}
    (hedits : ∀ e ∈ edits, ∃ text, m.slice e.range.start e.range.stop = .ok text ∧
      e.text = Resolver.blankOut text)
    (h : splice m pos edits = .ok out) {c : Char} (hc : Text.LiesAt out i [c])
    (hspace : Character.isSpace c = false) : m.charAt? (pos + i) = some c := by
  induction edits generalizing pos out i with
  | nil => exact shownIn_of_slice hm h i c (charAt?_ofText_iff.mpr hc) hspace
  | cons e edits ih =>
    obtain ⟨kept, hkept, h⟩ := bind_eq_ok h
    obtain ⟨rest, hrest, h⟩ := bind_eq_ok h
    cases h
    obtain ⟨text, htext, hblank⟩ := hedits e (by simp)
    have hstart := (whole_of_slice hm hkept).2
    have hstop := (whole_of_slice hm htext).2
    rcases hc.append_cases with hleft | ⟨k, rfl, hright⟩
    · rcases hleft.append_cases with hkeeps | ⟨k, rfl, hnew⟩
      · exact shownIn_of_slice hm hkept i c (charAt?_ofText_iff.mpr hkeeps) hspace
      · -- Nothing but White_Space was put in.
        obtain ⟨pre, post, hpre, -⟩ := hnew
        have hmem : c ∈ Resolver.blankOut text := by rw [← hblank, hpre]; simp
        rw [Resolver.blankOut, List.mem_flatMap] at hmem
        obtain ⟨d, -, hd⟩ := hmem
        split at hd
        · obtain rfl := List.mem_singleton.mp hd
          exact absurd hspace (by decide)
        · obtain rfl := List.eq_of_mem_replicate hd
          exact absurd hspace (by decide)
    · have hsize : (kept ++ e.text).size = kept.size + text.size := by
        rw [Text.size_append, hblank, Resolver.size_blankOut]
      have hpos : pos + ((kept ++ e.text).size + k) = e.range.stop + k := by omega
      rw [hpos]
      exact ih (fun e' he' => hedits e' (List.mem_cons_of_mem e he')) hrest hright

end Shown

namespace Resolver

/-- Every warning of the log points into the map. -/
def Log.Points (m : CodeMap) (log : Log) : Prop := ∀ w ∈ log.warnings, w.Points m

section Pointing

variable {r : Resolver} {nested : Nested} {m : CodeMap} {ps : Painted} (hm : m.Shows ps)
  (hlimit : m.size ≤ Span.limit) {log log' : Log} {n : Notice} {start stop : Nat}
include hm hlimit

theorem Log.Points.warn (hlog : log.Points m) (h : log.warn n start stop = .ok log')
    (hmarks : n.MarksOut m start stop) : log'.Points m := by
  intro w hw
  rw [Log.warn_warnings h] at hw
  rcases List.mem_append.mp hw with hw | hw
  · exact hlog w hw
  · obtain rfl := List.mem_singleton.mp hw
    exact hmarks.points hm hlimit

theorem Log.Points.flatten {receiver member : Text} (hlog : log.Points m)
    (h : log.flatten receiver member start stop = .ok log')
    (hmarks : (Notice.memberFlattened receiver member).MarksOut m start stop) : log'.Points m := by
  unfold Log.flatten at h
  split at h
  · cases h
    exact hlog
  · obtain ⟨warned, hwarned, h⟩ := bind_eq_ok h
    cases h
    have hpoints : warned.Points m := hlog.warn hm hlimit hwarned hmarks
    exact hpoints

/-- Resolving a text that is shown in the map keeps the log pointing into the map. -/
def Nested.Points (m : CodeMap) (nested : Nested) : Prop :=
  ∀ u base log p, (ofText u).ShownIn m base → log.Points m → nested u base log = .ok p →
    p.2.Points m

variable {t w : Text} {base i : Nat} {e : Edit}

omit hlimit in
/-- A call that is kept ends in the map where its closing bracket is shown. -/
theorem callEnd_boundary (hshown : (ofText t).ShownIn m base) {memberEnd : Nat}
    (hend : m.isBoundary (base + memberEnd)) :
    m.isBoundary (base + callEnd (ofText t) memberEnd) := by
  unfold callEnd
  split
  · rename_i close hclose
    obtain ⟨c, hcode, hspace, hsize⟩ : ∃ c, (ofText t).isCodeChar close c ∧
        Character.isSpace c = false ∧ c.utf8Size = 1 := by
      rcases closes_iff.mp (matching_spec hclose).2.1 with h | h | h
      · exact ⟨_, h, by decide, rfl⟩
      · exact ⟨_, h, by decide, rfl⟩
      · exact ⟨_, h, by decide, rfl⟩
    have hchar := hshown close c (isCodeChar_charAt? hcode) hspace
    have hstop := (charAt?_boundary hm hchar).2
    rwa [hsize, Nat.add_assoc] at hstop
  · exact hend

variable (hr : ∀ w ∈ r.receivers, w.isIdentifier)
include hr

/-- What is reported about one reference points into the map. -/
theorem ResolvesTo.points (hnested : nested.Points m) (hshown : (ofText t).ShownIn m base)
    (hw : r.referent? (ofText t) i = some w)
    (h : r.ResolvesTo nested (ofText t) base w i log e log') (hlog : log.Points m) :
    log'.Points m := by
  have ht := Scan.ofText_shows t
  have hat := referent?_refersAt hw
  have hdot := hat.slice_dot ht hr
  have hident := Text.isIdentPart_of_isIdentifier (hr w hat.mem)
  cases h with
  | read _ => exact hlog
  | bare _ _ _ _ _ => exact hlog
  | set hset htext harg => exact hnested _ _ _ _ ((shownIn_of_trim ht htext).trans hshown) hlog harg
  | kept hend hmember _ hwarn =>
    have hword : w ++ "." ++ "setState" = w ++ ".setState" := by simp
    have hslice := slice_append ht hdot hmember
    rw [hword] at hslice
    have hsize := (whole_of_slice ht hslice).2
    have hspells : m.spells (w ++ ".setState") (base + i) := by
      refine hshown.spells (fun c hc => ?_) (spells_of_slice ht hslice)
      rcases List.mem_append.mp hc with hc | hc
      · exact Text.isSpace_of_isIdentPart (hident c hc)
      · have hcall : ∀ c ∈ String.toList ".setState", Character.isSpace c = false :=
          List.all_iff_forall_prop.mp (by decide)
        exact hcall c hc
    have hboundary := (spells_whole hm (by simp) hspells).right
    rw [Nat.add_assoc, hsize] at hboundary
    have hle := le_callEnd (ofText t) (i + w.size + 9)
    exact hlog.warn hm hlimit hwarn ⟨hspells, by omega, callEnd_boundary hm hshown hboundary⟩
  | @flattened member memberEnd _ hend hmember _ _ _ hflatten =>
    have hslice := slice_append ht hdot hmember
    have hsize := (whole_of_slice ht hslice).2
    obtain ⟨-, pre, rest, -, -, -, hhead⟩ := (identEnd_yields ht
      (codeChar_boundary ht hat.dot rfl).2).of_eq hend
    obtain rfl := Except.ok.inj (hmember.symm.trans hhead)
    have hchars : ∀ c ∈ w ++ rest.identHead, Character.isIdentPart c := by
      intro c hc
      rcases List.mem_append.mp hc with hc | hc
      · exact hident c hc
      · exact Text.isIdentPart_of_identHead hc
    have hspells : m.spells (w ++ "." ++ rest.identHead) (base + i) := by
      refine hshown.spells (fun c hc => ?_) (spells_of_slice ht hslice)
      simp only [List.mem_append] at hc hchars
      rcases hc with (hc | hc) | hc
      · exact Text.isSpace_of_isIdentPart (hchars c (.inl hc))
      · obtain rfl : c = '.' := by simpa using hc
        decide
      · exact Text.isSpace_of_isIdentPart (hchars c (.inr hc))
    exact hlog.flatten hm hlimit hflatten ⟨hchars, hspells, by omega⟩

/-- What is reported about the references of a text points into the map. -/
theorem Resolves.points (hnested : nested.Points m) (hshown : (ofText t).ShownIn m base)
    {edits : List Edit} (h : r.Resolves nested (ofText t) base log edits log') (hlog : log.Points m) :
    log'.Points m := by
  have ht := Scan.ofText_shows t
  have hnil := nil_not_mem_receivers hr
  induction h with
  | nil => exact hlog
  | cons hw hhere _ ih =>
    rw [receiverAt?_eq ht hnil] at hw
    exact ih ((reference_cases ht hhere).points hm hlimit hr hnested hshown (Except.ok.inj hw) hlog)

theorem resolveNested_points (depth : Nat) : Nested.Points m (r.resolveNested depth) := by
  induction depth with
  | zero =>
    intro u base log p _ hlog h
    cases h
    exact hlog
  | succ depth ih =>
    intro u base log p hshown hlog h
    obtain ⟨⟨edits, log'⟩, hedits, h⟩ := bind_eq_ok h
    obtain ⟨out, -, h⟩ := bind_eq_ok h
    cases h
    exact (resolves_of_editsFrom hedits).points hm hlimit hr ih hshown hlog

theorem resolve_points {resolved : Resolved} (hshown : (ofText t).ShownIn m base)
    (h : r.resolve t base = .ok resolved) : ∀ w ∈ resolved.warnings, w.Points m := by
  obtain ⟨⟨text, log⟩, hnested, h⟩ := bind_eq_ok h
  cases h
  exact resolveNested_points hm hlimit hr _ t base Log.empty _ hshown
    (fun _ hw => absurd hw List.not_mem_nil) hnested

end Pointing

end Resolver

namespace StateModel

/-- The entries hold what stands in their ranges, and the warnings point into the map. -/
structure Points (m : CodeMap) (model : StateModel) : Prop where
  entries : ∀ e ∈ model.entries, m.slice e.range.start e.range.stop = .ok e.value
  warnings : ∀ w ∈ model.warnings, w.Points m

theorem Points.insert {m : CodeMap} {model : StateModel} {entry : StateEntry} {range : Span}
    (h : model.Points m) (hentry : m.slice entry.range.start entry.range.stop = .ok entry.value)
    (hrange : m.Whole range.start range.stop) : (model.insert entry range).Points m := by
  refine ⟨fun e he => ?_, fun w hw => ?_⟩
  · rcases mem_insert he with he | rfl
    · exact h.entries e he
    · exact hentry
  · unfold StateModel.insert at hw
    split at hw
    · rcases List.mem_append.mp hw with hw | hw
      · exact h.warnings w hw
      · obtain rfl := List.mem_singleton.mp hw
        exact hrange
    · exact h.warnings w hw

section Entries

variable {m : CodeMap} {ps : Painted} (hm : m.Shows ps) (hlimit : m.size ≤ Span.limit)
  {u : Text} {base stop : Nat} (hu : m.slice base stop = .ok u)
include hm hu

theorem slice_inside {v : Text} {i j : Nat} (h : (ofText u).slice i j = .ok v) :
    m.slice (base + i) (base + j) = .ok v := by
  have ht := Scan.ofText_shows u
  obtain ⟨hwhole, hj⟩ := whole_of_slice ht h
  have houter := ((slice_yields hm (whole_of_slice hm hu).1).of_eq hu).1
  have hinner := ((slice_yields ht hwhole).of_eq h).1
  rw [Scan.kinds_chars] at hinner
  have hslice := (slice_of_liesAt hm (houter.trans hinner)).2
  rwa [Nat.add_assoc, hj] at hslice

theorem whole_inside {i j : Nat} (h : (ofText u).Whole i j) : m.Whole (base + i) (base + j) := by
  obtain ⟨v, hv, -⟩ := slice_yields (Scan.ofText_shows u) h
  exact (whole_of_slice hm (slice_inside hm hu hv)).1

include hlimit

theorem reported_inside {i j : Nat} {range : Span} (hw : (ofText u).Whole i j)
    (h : Span.reported (base + i) (base + j) = .ok range) : range = ⟨base + i, base + j⟩ := by
  have hwhole := whole_inside hm hu hw
  rw [(Span.reported_yields hwhole.le).of_eq h, hwhole.clamp hm hlimit]

theorem addPart_points {model model' : StateModel} {part : Span} (hmodel : model.Points m)
    (h : addPart (ofText u) base model part = .ok model') : model'.Points m := by
  have ht := Scan.ofText_shows u
  obtain ⟨text, htext, h⟩ := bind_eq_ok h
  split at h
  · cases h
    exact hmodel
  rename_i hblank
  have hlies := ((slice_yields ht (whole_of_slice ht htext).1).of_eq htext).1
  have htrimmed := trimmedSpan_whole ht hlies (by simpa using hblank)
  obtain ⟨range, hrange, h⟩ := bind_eq_ok h
  obtain rfl := reported_inside hm hlimit hu htrimmed hrange
  have hwhole := whole_inside hm hu htrimmed
  obtain ⟨found, -, h⟩ := bind_eq_ok h
  cases found with
  | none =>
    obtain ⟨skipped, -, h⟩ := bind_eq_ok h
    cases h
    refine ⟨hmodel.entries, fun w hw => ?_⟩
    rcases List.mem_append.mp hw with hw | hw
    · exact hmodel.warnings w hw
    · obtain rfl := List.mem_singleton.mp hw
      exact hwhole
  | some entry =>
    obtain ⟨valueText, hvalue, h⟩ := bind_eq_ok h
    obtain ⟨valueRange, hvalueRange, h⟩ := bind_eq_ok h
    cases h
    obtain rfl := reported_inside hm hlimit hu (whole_of_slice ht hvalue).1 hvalueRange
    exact hmodel.insert (slice_inside hm hu hvalue) hwhole

end Entries

/-- The entries of an initializer hold what stands in their ranges. -/
theorem build_points {m : CodeMap} {ps : Painted} (hm : m.Shows ps)
    (hlimit : m.size ≤ Span.limit) {state : Option Snippet} {model : StateModel}
    (hstate : ∀ s ∈ state, m.slice s.range.start s.range.stop = .ok s.text)
    (h : build state = .ok model) : model.Points m := by
  have hempty : empty.Points m :=
    ⟨fun _ he => absurd he List.not_mem_nil, fun _ hw => absurd hw List.not_mem_nil⟩
  cases state with
  | none =>
    cases h
    exact hempty
  | some s =>
    exact foldlM_eq_ok h hempty fun _ _ _ _ hb hstep =>
      addPart_points hm hlimit (hstate s rfl) hb hstep

end StateModel

namespace Component

section Findings

variable {m : CodeMap} {ps : Painted} (hm : m.Shows ps) (hlimit : m.size ≤ Span.limit)
  {receivers : List Text}

theorem Findings.Drops.marksOut {member : Member} {n : Notice} (h : Findings.Drops m member n)
    (hw : m.Whole member.range.start member.range.stop) :
    n.MarksOut m member.range.start member.range.stop := by
  cases h <;> exact hw

include hm hlimit

theorem droppedStatement_points {part : Span} {ws : List Warning}
    (h : droppedStatement m receivers part = .ok ws) : ∀ w ∈ ws, w.Points m := by
  unfold droppedStatement at h
  dsimp only at h
  split at h
  · cases h
    simp
  obtain ⟨statement, hstatement, h⟩ := bind_eq_ok h
  obtain ⟨counterpart, -, h⟩ := bind_eq_ok h
  split at h
  · cases h
    simp
  obtain ⟨w, hw, h⟩ := bind_eq_ok h
  cases h
  intro w' hw'
  obtain rfl := List.mem_singleton.mp hw'
  exact Warning.points_of_about hm hlimit hw (whole_of_slice hm hstatement).1

theorem droppedStatements_points {parts : FunctionParts} {ws : List Warning}
    (h : droppedStatements m receivers parts = .ok ws) : ∀ w ∈ ws, w.Points m := by
  unfold droppedStatements at h
  split at h
  · cases h
    simp
  obtain ⟨dropped, hdropped, h⟩ := bind_eq_ok h
  cases h
  intro w hw
  obtain ⟨ws, hws, hw⟩ := List.mem_flatten.mp hw
  obtain ⟨part, -, hpart⟩ := exists_of_mapM hdropped hws
  exact droppedStatement_points hm hlimit hpart w hw

end Findings

/-- What is reported about the members of a class points into the source. -/
theorem extract_points {t : Text} {receivers : List Text} {c : Component}
    (hlimit : (ofText t).size ≤ Span.limit) (h : extract t receivers = .ok c) :
    ∀ w ∈ c.warnings, w.Points (ofText t) := by
  have hm := Scan.ofText_shows t
  obtain ⟨header, body, found, render, pieces, hx, rfl⟩ := extract_iff.mp h
  intro w hw
  cases hx.reported w hw with
  | lost hwhole h => exact Warning.points_of_about hm hlimit h hwhole
  | member hwhole h => exact (h.marksOut hwhole).points hm hlimit
  | statement h hw => exact droppedStatements_points hm hlimit h w hw

theorem Lies.slice {t : Text} {c : Component} (h : c.Lies (ofText t))
    (hlimit : (ofText t).size ≤ Span.limit) :
    ∀ s ∈ c.snippets, (ofText t).slice s.range.start s.range.stop = .ok s.text := by
  intro s hs
  obtain ⟨start, stop, -, hs⟩ := h.snippets s hs
  obtain ⟨hslice, hrange⟩ := hs.slice (Scan.ofText_shows t) hlimit
  rw [hrange]
  exact hslice

end Component

namespace Conversion

theorem mem_of_reportOnce {w : Warning} {seen : List Notice} {ws : List Warning}
    (h : w ∈ reportOnce seen ws) : w ∈ ws := by
  induction ws generalizing seen with
  | nil => exact h
  | cons v ws ih =>
    rw [reportOnce] at h
    split at h
    · split at h
      · exact List.mem_cons_of_mem v (ih h)
      · rcases List.mem_cons.mp h with rfl | h
        · exact List.mem_cons_self
        · exact List.mem_cons_of_mem v (ih h)
    · rcases List.mem_cons.mp h with rfl | h
      · exact List.mem_cons_self
      · exact List.mem_cons_of_mem v (ih h)

section Assembly

variable {m : CodeMap} {ps : Painted} (hm : m.Shows ps) (hlimit : m.size ≤ Span.limit)
  {r : Resolver} (hr : ∀ w ∈ r.receivers, w.isIdentifier)
include hm hlimit hr

theorem resolveSnippet_points {s : Snippet} {resolved : Resolved}
    (hs : m.slice s.range.start s.range.stop = .ok s.text)
    (h : resolveSnippet r s = .ok resolved) : ∀ w ∈ resolved.warnings, w.Points m :=
  Resolver.resolve_points hm hlimit hr (shownIn_of_slice hm hs) h

theorem resolveOption_points {s : Option Snippet} {p : Option Text × List Warning}
    (hs : ∀ s' ∈ s, m.slice s'.range.start s'.range.stop = .ok s'.text)
    (h : resolveOption r s = .ok p) : ∀ w ∈ p.2, w.Points m := by
  cases s with
  | none =>
    cases h
    simp
  | some s =>
    obtain ⟨resolved, hresolved, h⟩ := bind_eq_ok h
    cases h
    exact resolveSnippet_points hm hlimit hr (hs s rfl) hresolved

/-- Blanking out declarations moves nothing else. -/
theorem resolve_stripped_points {s : Snippet} {stripped : Text} {resolved : Resolved}
    (hs : m.slice s.range.start s.range.stop = .ok s.text)
    (hstripped : r.stripDestructuring s.text = .ok stripped)
    (h : r.resolve stripped s.range.start = .ok resolved) :
    ∀ w ∈ resolved.warnings, w.Points m := by
  have hshown : (ofText stripped).ShownIn (ofText s.text) 0 := by
    intro i c hc hspace
    obtain ⟨edits, hout, hedits⟩ := r.stripDestructuring_edits hstripped
    exact Edit.splice_shown (Scan.ofText_shows _) hedits hout (charAt?_ofText_iff.mp hc) hspace
  exact Resolver.resolve_points hm hlimit hr (hshown.trans (shownIn_of_slice hm hs)) h

end Assembly

/-- What is reported while the pieces of a component are put together points into the source. -/
theorem Parts.From.points {m : CodeMap} {ps : Painted} (hm : m.Shows ps)
    (hlimit : m.size ≤ Span.limit) {p : Parts} {c : Component} {receivers : List Text}
    (hr : ∀ w ∈ receivers, w.isIdentifier) (h : p.From c receivers)
    (hsnippets : ∀ s ∈ c.snippets, m.slice s.range.start s.range.stop = .ok s.text)
    (hc : ∀ w ∈ c.warnings, w.Points m) : p.model.Points m ∧ ∀ w ∈ p.warnings c, w.Points m := by
  have hmodel : p.model.Points m :=
    StateModel.build_points hm hlimit (fun s hs => hsnippets s (by simp_all [Component.snippets]))
      h.model
  refine ⟨hmodel, fun w hw => ?_⟩
  simp only [Parts.warnings, List.mem_append, List.mem_flatMap] at hw
  rcases hw with ((((((hw | hw) | ⟨value, hvalue, hw⟩) | hw) | hw) | ⟨body, hbody, hw⟩) | hw) | hw
  · exact hc w hw
  · exact hmodel.warnings w hw
  · obtain ⟨entry, hentry, hvalue⟩ := exists_of_mapM h.values hvalue
    exact Resolver.resolve_points hm hlimit hr
      (shownIn_of_slice hm (hmodel.entries entry hentry)) hvalue w hw
  · refine resolveOption_points hm hlimit hr (fun s hs => hsnippets s ?_) h.setup w hw
    simp_all [Component.snippets]
  · refine resolveOption_points hm hlimit hr (fun s hs => hsnippets s ?_) h.cleanup w hw
    simp_all [Component.snippets]
  · obtain ⟨method, hmethod, hbody⟩ := exists_of_mapM h.bodies hbody
    refine resolveSnippet_points hm hlimit hr (hsnippets _ ?_) hbody w hw
    simp only [Component.snippets, List.mem_append, List.mem_map]
    exact .inl (.inr ⟨method, hmethod, rfl⟩)
  · exact resolve_stripped_points hm hlimit hr (hsnippets _ (by simp [Component.snippets]))
      h.stripped h.prelude w hw
  · exact resolveSnippet_points hm hlimit hr (hsnippets _ (by simp [Component.snippets]))
      h.template w hw

end Conversion

theorem Span.holds_of_slice {t u : Text} {range : Span}
    (h : (ofText t).slice range.start range.stop = .ok u) : range.Holds t u := by
  have hm := Scan.ofText_shows t
  have hlies := (slice_yields hm (whole_of_slice hm h).1).of_eq h
  rwa [Scan.kinds_chars] at hlies

/-- The range of each warning holds the text that the warning describes, and the ranges of snippets
and of state entries hold what is stored with them. -/
theorem reports_point_at_source {t : Text} {receivers : List Text} {conv : Conversion}
    (hsize : t.size < 2 ^ 32) (hr : ∀ w ∈ receivers, w.isIdentifier = true)
    (h : convert t receivers = .ok conv) :
    (∀ w ∈ conv.warnings, ∃ u, w.range.Holds t u ∧ w.notice.Describes u) ∧
      ∃ c model, Component.extract t receivers = .ok c ∧ StateModel.build c.state = .ok model ∧
        (∀ s ∈ c.snippets, s.range.Holds t s.text) ∧
        ∀ e ∈ model.entries, e.range.Holds t e.value := by
  have hm := Scan.ofText_shows t
  have hlimit : (ofText t).size ≤ Span.limit := by
    rw [size_ofText, Span.limit]
    omega
  obtain ⟨c, hc, h⟩ := bind_eq_ok h
  obtain ⟨p, hp, rfl⟩ := Conversion.assemble_iff.mp (check_eq_ok h)
  have hsnippets := ((Component.extract_faultless t receivers).of_eq hc).slice hlimit
  obtain ⟨hmodel, hwarnings⟩ := hp.points hm hlimit hr hsnippets
    (Component.extract_points hlimit hc)
  refine ⟨fun w hw => ?_, c, p.model, hc, hp.model,
    fun s hs => Span.holds_of_slice (hsnippets s hs),
    fun e he => Span.holds_of_slice (hmodel.entries e he)⟩
  obtain ⟨u, hu, hdescribes⟩ := (hwarnings w (Conversion.mem_of_reportOnce hw)).describes hm
  exact ⟨u, Span.holds_of_slice hu, hdescribes⟩

/-- The argument of the first call is resolved on its own; the second call is kept. -/
def nestedSource : Text :=
  "class A extends Component\x7bstate=\x7ba:0\x7d;f()\x7bthis.setState(\x7ba: -this.b\x7d);"
    ++ "this.setState(g)\x7drender()\x7breturn 0\x7d\x7d"

def nestedWarnings : List Warning :=
  [⟨.memberFlattened "this" "b", ⟨61, 67⟩⟩, ⟨.setStateKept "this", ⟨70, 86⟩⟩]

theorem reports_point_at_nested :
    Text.size nestedSource < 2 ^ 32 ∧ (∀ w ∈ (["this"] : List Text), w.isIdentifier = true) ∧
      ∃ conv, convert nestedSource ["this"] = .ok conv ∧ conv.warnings = nestedWarnings ∧
        (Span.mk 61 67).Holds nestedSource "this.b" ∧
        ∃ u, (Span.mk 70 86).Holds nestedSource u ∧ ("this.setState" : Text) <+: u := by
  have hsize : Text.size nestedSource < 2 ^ 32 := by decide +kernel
  have hr : ∀ w ∈ (["this"] : List Text), w.isIdentifier = true := by decide
  have hwarnings : (convert nestedSource ["this"]).map (·.warnings) = .ok nestedWarnings := by
    decide +kernel
  cases hconv : convert nestedSource ["this"] with
  | error failure =>
    rw [hconv] at hwarnings
    cases hwarnings
  | ok conv =>
    rw [hconv] at hwarnings
    obtain hwarnings : conv.warnings = nestedWarnings := Except.ok.inj hwarnings
    obtain ⟨hpoints, -⟩ := reports_point_at_source hsize hr hconv
    rw [hwarnings] at hpoints
    refine ⟨hsize, hr, conv, rfl, hwarnings, ?_, ?_⟩
    · obtain ⟨u, hu, hb, -⟩ := hpoints ⟨.memberFlattened "this" "b", ⟨61, 67⟩⟩ (by decide)
      rw [hb] at hu
      exact hu
    · exact hpoints ⟨.setStateKept "this", ⟨70, 86⟩⟩ (by decide)

end Declass
