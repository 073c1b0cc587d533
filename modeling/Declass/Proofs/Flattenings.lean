import Declass.Proofs.BindingClashes
import Declass.Proofs.Nesting
import Declass.Proofs.Rebasing

/-!
# What is said about members that are reduced to a name

**Input.** A class component that is converted, and receivers that are identifiers.

**Algorithm.** A text is resolved from left to right, and the value of a call that sets a state
entry is a text of its own.  `ReducesAt` says where a member is reduced to its name, without
following the walk: a reference counts unless it stands in such a call, and what is reduced in the
value of the call counts at its place in the call.  `Gains` compares the log before and after a
stretch of text with the places in it.  It is kept when one stretch follows another.

**Results.** `reports_iff_reducesFirst`: resolving a text reports a member once, under the receiver
that stands at the first place where the member is reduced.  `flattenings_reported`: a conversion
reports it once for each receiver that is the first one in some piece.  So a member is reported more
than once if different pieces start with different receivers.
-/

namespace Declass

open CodeMap
open Character (isIdentPart isLayout)

namespace Resolver

/-- Behind the receiver `w` at position `i` stands a call that sets a state entry to what stands in
the range `value`, and ends at `stop`. -/
structure CallsAt (r : Resolver) (m : CodeMap) (w : Text) (i : Nat) (value : Span) (stop : Nat) :
    Prop where
  paren : m.isCodeChar (m.skipTrivia (i + w.size + 9) m.size) '(' = true
  sets : ∃ key, r.SetsAt m w i key value stop

/-- Behind the receiver `w` at position `i` stands the member `x`, which is nothing else than a name
without the receiver. -/
structure FlattensAt (r : Resolver) (m : CodeMap) (w : Text) (i : Nat) (x : Text) : Prop where
  memberEnd : m.identEnd (i + w.size + 1) = .ok (i + w.size + 1 + x.size)
  member : m.slice (i + w.size + 1) (i + w.size + 1 + x.size) = .ok x
  other : x ≠ "setState"
  unread : ∀ n, ¬r.ReadsAt m w i n
  unbound : x = "state" ∨ r.isLocal m x (i + w.size + 1 + x.size) = false

/-- The code at the position refers to `w`, and the position lies in no call that sets a state
entry. -/
structure VisitsAt (r : Resolver) (m : CodeMap) (i : Nat) (w : Text) : Prop where
  referent : r.referent? m i = some w
  outside : ∀ {j w' value stop}, r.referent? m j = some w' → r.CallsAt m w' j value stop → j < i →
    stop ≤ i

/-- At the position the member `x` of the receiver `w` is reduced to its name.  What is reduced in
the value of a call that sets a state entry is reduced as in a text of its own. -/
inductive ReducesAt (r : Resolver) (x : Text) : Text → Nat → Text → Prop
  | here {t w : Text} {i : Nat} (hv : r.VisitsAt (ofText t) i w)
      (h : r.FlattensAt (ofText t) w i x) : ReducesAt r x t i w
  | inside {t w w' text : Text} {i j stop : Nat} {value : Span} (hv : r.VisitsAt (ofText t) i w')
      (hcall : r.CallsAt (ofText t) w' i value stop)
      (htext : (ofText t).slice value.start value.stop = .ok text)
      (h : ReducesAt r x text.trim j w) :
      ReducesAt r x t ((text.trimmedSpan value.start).start + j) w

/-- The receiver stands at the first of the places. -/
def First (places : Nat → Text → Prop) (w : Text) : Prop :=
  ∃ i, places i w ∧ ∀ j w', places j w' → i ≤ j

/-- The first place of the text at which the member `x` is reduced is one with the receiver `w`. -/
def ReducesFirst (r : Resolver) (t w x : Text) : Prop := First (r.ReducesAt x t) w

section Bounds

variable {r : Resolver} {m : CodeMap} {ps : Painted} (hm : m.Shows ps) {w w' : Text}
  {i j stop : Nat} {value : Span}

theorem CallsAt.unique {value' : Span} {stop' : Nat} (h : r.CallsAt m w i value stop)
    (h' : r.CallsAt m w i value' stop') : value' = value ∧ stop' = stop := by
  obtain ⟨key, hsets⟩ := h.sets
  obtain ⟨key', hsets'⟩ := h'.sets
  cases hsets.field.symm.trans hsets'.field
  exact ⟨rfl, rfl⟩

include hm

theorem CallsAt.bounds (h : r.CallsAt m w i value stop) : ∃ close,
    m.matching (m.skipTrivia (i + w.size + 9) m.size) = some close ∧ stop = close + 1 ∧
      i + w.size + 9 < value.start ∧ value.stop ≤ close ∧ m.Whole value.start value.stop := by
  obtain ⟨key, hsets⟩ := h.sets
  obtain ⟨hwhole, hlt, -, close, hclose, hle, rfl⟩ :=
    (setterField?_yields hm _).of_eq hsets.field key value stop rfl
  have := le_skipTrivia m (i + w.size + 9) m.size
  exact ⟨close, hclose, rfl, by omega, hle, hwhole⟩

/-- What is reduced in the value of a call lies in the call. -/
theorem CallsAt.inside {text : Text} (h : r.CallsAt m w i value stop)
    (htext : m.slice value.start value.stop = .ok text) (hj : j < text.trim.size) :
    i < (text.trimmedSpan value.start).start + j ∧
      (text.trimmedSpan value.start).start + j < stop := by
  obtain ⟨close, -, rfl, hstart, hstop, hwhole⟩ := h.bounds hm
  have hsize := (whole_of_slice hm htext).2
  have hblank : text.isBlank = false := by
    by_contra hblank
    rw [Text.trim_of_isBlank (by simpa using hblank)] at hj
    exact absurd hj (Nat.not_lt_zero _)
  have hend := (Text.trimmedSpan_lies ((slice_yields hm hwhole).of_eq htext).1 hblank).2.1
  have hle := (Text.trimmedSpan_le text value.start).2
  have hge : value.start ≤ (text.trimmedSpan value.start).start := Nat.le_add_right _ _
  omega

omit hm in
theorem ReducesAt.lt_size {x t : Text} (h : r.ReducesAt x t i w) : i < t.size := by
  induction h with
  | here hv h =>
    obtain ⟨-, hcode, -⟩ := referent?_spec hv.referent
    rw [← size_ofText]
    exact lt_size_of_has hcode
  | @inside t w w' text i j stop value hv hcall htext _ ih =>
    have hm := Scan.ofText_shows t
    obtain ⟨close, hclose, rfl, -⟩ := hcall.bounds hm
    have hlt := (hcall.inside hm htext ih).2
    have := (matching_spec hclose).2.2.2
    rw [size_ofText] at this
    omega

/-- Inside a word of identifier characters and dots there is no reference. -/
theorem referent?_of_spells (hnil : [] ∉ r.receivers) {u : Text}
    (hu : ∀ c ∈ u, isIdentPart c ∨ c = '.') (h : m.spells u i)
    (hlt : i < j) (hle : j ≤ i + u.size) : r.referent? m j = none := by
  cases hw : r.referent? m j with
  | none => rfl
  | some w =>
    obtain ⟨hmem, -, hstands, -⟩ := referent?_spec hw
    simp only [stands, Bool.and_eq_true] at hstands
    have hb := spells_boundary hm (fun hnil' => hnil (hnil' ▸ hmem)) hstands.1.1
    obtain ⟨c, hc, hbefore⟩ := charBefore?_of_spells hm hb h hlt hle
    have hother := hstands.1.2
    rw [hbefore] at hother
    rcases hu c hc with hpart | rfl
    · simp [hpart] at hother
    · simp at hother

omit hm in
/-- What closes a bracket is one character of code, no layout, and none that identifiers or dots
could be. -/
theorem exists_closer (h : m.has Slot.closes i) : ∃ d, m.isCodeChar i d ∧
    d.utf8Size = 1 ∧ isLayout d = false ∧ isIdentPart d = false ∧ d ≠ '.' := by
  rcases closes_iff.mp h with h | h | h
  · exact ⟨_, h, by decide⟩
  · exact ⟨_, h, by decide⟩
  · exact ⟨_, h, by decide⟩

/-- No bracket is closed inside a word of identifier characters and dots. -/
theorem closes_of_spells {u : Text} (hu : ∀ c ∈ u, isIdentPart c ∨ c = '.')
    (h : m.spells u i) (hle : i ≤ j) (hlt : j < i + u.size) : m.has Slot.closes j = false := by
  by_contra hcloses
  rw [Bool.not_eq_false] at hcloses
  obtain ⟨c, hc, hbefore⟩ := charBefore?_of_spells hm (closes_boundary hm hcloses).2 h
    (Nat.lt_succ_of_le hle) hlt
  obtain ⟨d, hcode, hsize, -, hpart, hdot⟩ := exists_closer hcloses
  have hsame := charBefore?_of_charAt? hm (isCodeChar_charAt? hcode)
  rw [hsize, hbefore] at hsame
  cases hsame
  rcases hu c hc with hident | rfl
  · rw [hpart] at hident
    cases hident
  · exact hdot rfl

omit hm in
theorem isTrivia_of_closes (h : m.has Slot.closes i) : m.has Slot.isTrivia i = false := by
  obtain ⟨d, hcode, -, hlayout, -⟩ := exists_closer h
  rw [has, isCodeChar_iff.mp hcode]
  exact hlayout

section Receivers

variable (hr : ∀ w ∈ r.receivers, w.isIdentifier)
include hr

omit hm in
/-- A receiver with its dot is a word of identifier characters and dots. -/
theorem isIdentPart_or_dot (hw : r.referent? m i = some w) {x : Text}
    (hx : ∀ c ∈ x, isIdentPart c ∨ c = '.') :
    ∀ c ∈ w ++ '.' :: x, isIdentPart c ∨ c = '.' := by
  intro c hc
  rcases List.mem_append.mp hc with hc | hc
  · exact .inl (Text.isIdentPart_of_isIdentifier (hr w (referent?_spec hw).1) c hc)
  · rcases List.mem_cons.mp hc with rfl | hc
    · exact .inr rfl
    · exact hx c hc

omit hm hr in
/-- The receiver, its dot and the member are spelled one behind the other. -/
theorem spells_member (hw : r.referent? m i = some w) {x : Text}
    (hx : m.spells x (i + w.size + 1)) : m.spells (w ++ '.' :: x) i := by
  obtain ⟨-, -, hstands, hdot, -⟩ := referent?_spec hw
  simp only [stands, Bool.and_eq_true] at hstands
  have hsize : Char.utf8Size '.' = 1 := rfl
  rw [spells_append, hstands.1.1, spells, isCodeChar_charAt? hdot, hsize, hx]
  rfl

/-- A call of `setState` starts with a word of identifier characters and dots. -/
theorem CallsAt.spells (hw : r.referent? m i = some w) (h : r.CallsAt m w i value stop) :
    m.spells (w ++ '.' :: "setState") i ∧
      ∀ c ∈ w ++ '.' :: "setState", isIdentPart c ∨ c = '.' := by
  obtain ⟨key, hsets⟩ := h.sets
  have hident : List.all "setState" isIdentPart := by decide
  exact ⟨spells_member hw (spells_of_slice hm hsets.member),
    isIdentPart_or_dot hr hw fun c hc => .inl (List.all_eq_true.mp hident c hc)⟩

/-- A call in another call ends in it. -/
theorem CallsAt.nested {value' : Span} {stop' : Nat} (hj : r.referent? m j = some w')
    (h : r.CallsAt m w' j value stop) (hi : r.referent? m i = some w)
    (h' : r.CallsAt m w i value' stop') (hlt : j < i) (hin : i < stop) : stop' ≤ stop := by
  obtain ⟨close, hclose, rfl, -⟩ := h.bounds hm
  obtain ⟨close', hclose', rfl, -⟩ := h'.bounds hm
  obtain ⟨hspells, hfree⟩ := h.spells hm hr hj
  obtain ⟨hspells', hfree'⟩ := h'.spells hm hr hi
  obtain ⟨hmem, hcode, hstands, -⟩ := referent?_spec hi
  obtain ⟨htrivia, hother⟩ := slot_of_stands (hr w hmem) hcode hstands
  obtain ⟨-, hcloses, -⟩ := matching_spec hclose
  have hsize : ∀ u : Text, Text.size (u ++ '.' :: "setState") = u.size + 9 := fun u => by
    rw [Text.size_append]
    rfl
  -- The reference inside starts behind the bracket of the call around it, and before its end.
  have hbehind : j + w'.size + 9 < i := by
    by_contra hle
    have := referent?_of_spells hm (nil_not_mem_receivers hr) hfree hspells hlt (by rw [hsize]; omega)
    rw [hi] at this
    cases this
  have hopening : m.skipTrivia (j + w'.size + 9) m.size < i := by
    by_contra hle
    rcases Nat.lt_or_eq_of_le (not_lt.mp hle) with hbefore | heq
    · rw [has_of_skipWhile m _ _ _ i (le_of_lt hbehind) hbefore] at htrivia
      cases htrivia
    · have hparen := h.paren
      rw [← heq, hother '(' (by decide)] at hparen
      cases hparen
  have hbefore : i < close := by
    refine lt_of_le_of_ne (Nat.le_of_lt_succ hin) ?_
    rintro rfl
    obtain ⟨d, hcode, -, -, hpart, -⟩ := exists_closer hcloses
    rw [hother d hpart] at hcode
    cases hcode
  -- Up to its own bracket no bracket is closed.
  have hinside : m.skipTrivia (i + w.size + 9) m.size < close := by
    by_contra hle
    rcases Nat.lt_or_ge close (i + w.size + 9) with hword | hgap
    · have := closes_of_spells hm hfree' hspells' (le_of_lt hbefore) (by rw [hsize]; omega)
      rw [hcloses] at this
      cases this
    · rcases Nat.lt_or_eq_of_le (not_lt.mp hle) with hlater | heq
      · have := has_of_skipWhile m _ _ _ close hgap hlater
        rw [isTrivia_of_closes hcloses] at this
        cases this
      · have := (matching_spec hclose').1
        rw [← heq, not_opens_of_closes hcloses] at this
        cases this
  have hle := le_skipTrivia m (i + w.size + 9) m.size
  obtain ⟨c, hc, hlt⟩ := matching_inside (walks_of_matching hclose) (by omega) hinside
    (matching_spec hclose').1
  obtain rfl := Option.some.inj (hclose'.symm.trans hc)
  omega

end Receivers

end Bounds

section Logs

variable {places places' : Nat → Text → Prop} {x w : Text} {log log' log'' : Log}

/-- The member was reported as reduced, under the receiver `w`. -/
def Log.Reports (log : Log) (w x : Text) : Prop :=
  .memberFlattened w x ∈ log.warnings.map (·.notice)

/-- How the log changes over text in which the member `x` is reduced at the places: the member is on
record if there is such a place, and if it was not on record before, it is reported under the
receiver at the first of them. -/
structure Gains (places : Nat → Text → Prop) (x : Text) (log log' : Log) : Prop where
  flattened : x ∈ log'.flattened ↔ x ∈ log.flattened ∨ ∃ i w, places i w
  reports : ∀ w, log'.Reports w x ↔ log.Reports w x ∨ x ∉ log.flattened ∧ First places w

theorem Gains.congr (h : Gains places x log log') (hsame : ∀ i w, places' i w ↔ places i w) :
    Gains places' x log log' := by
  obtain rfl : places' = places := funext fun i => funext fun w => propext (hsame i w)
  exact h

theorem Gains.of_empty (hempty : ∀ i w, ¬places i w)
    (hflattened : x ∈ log'.flattened ↔ x ∈ log.flattened)
    (hreports : ∀ w, log'.Reports w x ↔ log.Reports w x) : Gains places x log log' := by
  refine ⟨?_, fun w => ?_⟩
  · rw [hflattened]
    exact ⟨.inl, fun h => h.resolve_right fun ⟨i, w, hplace⟩ => hempty i w hplace⟩
  · rw [hreports]
    exact ⟨.inl, fun h => h.resolve_right fun ⟨_, i, hplace, _⟩ => hempty i w hplace⟩

/-- The first of all places is the first of the earlier ones, if there are any. -/
theorem first_or_iff (hbefore : ∀ i w j w', places i w → places' j w' → i < j) :
    First (fun i w => places i w ∨ places' i w) w ↔
      First places w ∨ (¬∃ i w, places i w) ∧ First places' w := by
  constructor
  · rintro ⟨i, hi | hi, hmin⟩
    · exact .inl ⟨i, hi, fun j w' hj => hmin j w' (.inl hj)⟩
    · refine .inr ⟨?_, i, hi, fun j w' hj => hmin j w' (.inr hj)⟩
      rintro ⟨j, w', hj⟩
      have := hmin j w' (.inl hj)
      have := hbefore j w' i w hj hi
      omega
  · rintro (⟨i, hi, hmin⟩ | ⟨hnone, i, hi, hmin⟩)
    · refine ⟨i, .inl hi, ?_⟩
      rintro j w' (hj | hj)
      · exact hmin j w' hj
      · exact le_of_lt (hbefore i w j w' hi hj)
    · refine ⟨i, .inr hi, ?_⟩
      rintro j w' (hj | hj)
      · exact absurd ⟨j, w', hj⟩ hnone
      · exact hmin j w' hj

theorem Gains.trans (h : Gains places x log log') (h' : Gains places' x log' log'')
    (hbefore : ∀ i w j w', places i w → places' j w' → i < j) :
    Gains (fun i w => places i w ∨ places' i w) x log log'' := by
  refine ⟨?_, fun w => ?_⟩
  · rw [h'.flattened, h.flattened, or_assoc]
    simp only [exists_or]
  · rw [h'.reports, h.reports, h.flattened, first_or_iff hbefore, not_or, and_or_left, ← or_assoc,
      and_assoc]

theorem Gains.shift (h : Gains places x log log') (offset : Nat)
    (hplaces : ∀ i w, places' i w ↔ ∃ j, i = offset + j ∧ places j w) :
    Gains places' x log log' := by
  have hexists : (∃ i w, places' i w) ↔ ∃ i w, places i w := by
    constructor
    · rintro ⟨i, w, hi⟩
      obtain ⟨j, -, hj⟩ := (hplaces i w).mp hi
      exact ⟨j, w, hj⟩
    · rintro ⟨j, w, hj⟩
      exact ⟨_, w, (hplaces _ w).mpr ⟨j, rfl, hj⟩⟩
  have hfirst : ∀ w, First places' w ↔ First places w := by
    intro w
    constructor
    · rintro ⟨i, hi, hmin⟩
      obtain ⟨j, rfl, hj⟩ := (hplaces i w).mp hi
      refine ⟨j, hj, fun k w' hk => ?_⟩
      have := hmin _ w' ((hplaces _ w').mpr ⟨k, rfl, hk⟩)
      omega
    · rintro ⟨j, hj, hmin⟩
      refine ⟨_, (hplaces _ w).mpr ⟨j, rfl, hj⟩, fun i w' hi => ?_⟩
      obtain ⟨k, rfl, hk⟩ := (hplaces i w').mp hi
      have := hmin k w' hk
      omega
  exact ⟨by rw [hexists, h.flattened], fun w => by rw [hfirst, h.reports]⟩

theorem Log.reports_warn {notice : Notice} {start stop : Nat}
    (h : log.warn notice start stop = .ok log') :
    log'.Reports w x ↔ log.Reports w x ∨ .memberFlattened w x = notice := by
  unfold Log.Reports
  rw [Log.warn_warnings h, List.map_append, List.mem_append, List.map_singleton, List.mem_singleton]

theorem Log.flattened_warn {notice : Notice} {start stop : Nat}
    (h : log.warn notice start stop = .ok log') : log'.flattened = log.flattened := by
  obtain ⟨w, -, h⟩ := bind_eq_ok h
  cases h
  rfl

theorem Gains.flatten {member : Text} {i start stop : Nat}
    (h : log.flatten w member start stop = .ok log') :
    Gains (fun j w' => j = i ∧ w' = w ∧ member = x) x log log' := by
  unfold Log.flatten at h
  split at h
  · rename_i hold
    cases h
    rw [List.contains_iff_mem] at hold
    refine ⟨⟨.inl, ?_⟩, fun w' => ⟨.inl, ?_⟩⟩
    · rintro (hold' | ⟨-, -, -, -, rfl⟩)
      · exact hold'
      · exact hold
    · rintro (hreports | ⟨hnew, i, ⟨-, -, rfl⟩, -⟩)
      · exact hreports
      · exact absurd hold hnew
  · rename_i hnew
    rw [List.contains_iff_mem] at hnew
    obtain ⟨warned, hwarned, h⟩ := bind_eq_ok h
    cases h
    refine ⟨?_, fun w' => ?_⟩
    · rw [List.mem_cons, Log.flattened_warn hwarned]
      constructor
      · rintro (rfl | hold)
        · exact .inr ⟨i, w, rfl, rfl, rfl⟩
        · exact .inl hold
      · rintro (hold | ⟨-, -, -, -, rfl⟩)
        · exact .inr hold
        · exact .inl rfl
    · refine (Log.reports_warn hwarned).trans (or_congr_right ?_)
      constructor
      · intro heq
        cases heq
        exact ⟨hnew, i, ⟨rfl, rfl, rfl⟩, fun j _ hj => le_of_eq hj.1.symm⟩
      · rintro ⟨-, j, ⟨-, rfl, rfl⟩, -⟩
        rfl

end Logs

section Walk

variable {r : Resolver} {x t w : Text} {nested : Nested} {base i resume : Nat} {log log' : Log}
  {e : Edit}

/-- The member `x` is reduced at position `p` as part of the reference to `w` at position `i`. -/
def ReducesFrom (r : Resolver) (x t : Text) (i : Nat) (w : Text) (p : Nat) (w' : Text) : Prop :=
  (p = i ∧ w' = w ∧ r.FlattensAt (ofText t) w i x) ∨
    ∃ value stop text j, r.CallsAt (ofText t) w i value stop ∧
      (ofText t).slice value.start value.stop = .ok text ∧ r.ReducesAt x text.trim j w' ∧
      p = (text.trimmedSpan value.start).start + j

theorem reducesAt_iff {p : Nat} {w' : Text} : r.ReducesAt x t p w' ↔
    ∃ i w, r.VisitsAt (ofText t) i w ∧ r.ReducesFrom x t i w p w' := by
  constructor
  · intro h
    cases h with
    | here hv h => exact ⟨p, w', hv, .inl ⟨rfl, rfl, h⟩⟩
    | inside hv hcall htext h => exact ⟨_, _, hv, .inr ⟨_, _, _, _, hcall, htext, h, rfl⟩⟩
  · rintro ⟨i, w, hv, ⟨rfl, rfl, h⟩ | ⟨value, stop, text, j, hcall, htext, h, rfl⟩⟩
    · exact .here hv h
    · exact .inside hv hcall htext h

/-- What is reduced as part of a reference lies at it, or in its call. -/
theorem ReducesFrom.bounds {p : Nat} {w' : Text} (h : r.ReducesFrom x t i w p w') :
    p = i ∨ ∃ value stop, r.CallsAt (ofText t) w i value stop ∧ i < p ∧ p < stop := by
  rcases h with ⟨rfl, -⟩ | ⟨value, stop, text, j, hcall, htext, h, rfl⟩
  · exact .inl rfl
  · exact .inr ⟨value, stop, hcall, hcall.inside (Scan.ofText_shows t) htext h.lt_size⟩

/-- What replaces a reference ends behind it, with the call if there is one, and without one no
other reference comes before that end. -/
structure Spans (r : Resolver) (m : CodeMap) (w : Text) (i stop : Nat) : Prop where
  lt : i < stop
  calls : ∀ value stop', r.CallsAt m w i value stop' → stop' = stop
  alone : (∃ value, r.CallsAt m w i value stop) ∨ ∀ p, i < p → p < stop → r.referent? m p = none

theorem ReducesFrom.within {p stop : Nat} {w' : Text} (h : r.ReducesFrom x t i w p w')
    (hspans : r.Spans (ofText t) w i stop) : i ≤ p ∧ p < stop := by
  rcases h.bounds with rfl | ⟨value, stop', hcall, hlt, hin⟩
  · exact ⟨le_refl _, hspans.lt⟩
  · exact ⟨le_of_lt hlt, hspans.calls value stop' hcall ▸ hin⟩

theorem member_unique {m : CodeMap} {a stop stop' : Nat} {member member' : Text}
    (hend : m.identEnd a = .ok stop) (hmember : m.slice a stop = .ok member)
    (hend' : m.identEnd a = .ok stop') (hmember' : m.slice a stop' = .ok member') :
    member = member' := by
  cases hend.symm.trans hend'
  exact Except.ok.inj (hmember.symm.trans hmember')

theorem CallsAt.member {m : CodeMap} {value : Span} {stop memberEnd : Nat} {member : Text}
    (h : r.CallsAt m w i value stop) (hend : m.identEnd (i + w.size + 1) = .ok memberEnd)
    (hmember : m.slice (i + w.size + 1) memberEnd = .ok member) : member = "setState" := by
  obtain ⟨key, hsets⟩ := h.sets
  exact member_unique hend hmember hsets.memberEnd hsets.member

theorem ReadsAt.spells {m : CodeMap} {ps : Painted} (hm : m.Shows ps) {n : Text}
    (h : r.ReadsAt m w i n) : m.spells ("state" ++ '.' :: n) (i + w.size + 1) ∧
      ∀ c ∈ ("state" : Text) ++ '.' :: n, isIdentPart c ∨ c = '.' := by
  constructor
  · rw [spells_append, spells_of_slice hm h.member, CodeMap.spells]
    have hdot : m.charAt? (i + w.size + 1 + Text.size "state") = some '.' :=
      isCodeChar_charAt? h.dot
    have hname : m.spells n (i + w.size + 1 + Text.size "state" + Char.utf8Size '.') :=
      spells_of_slice hm h.name
    rw [hdot, hname]
    rfl
  · obtain ⟨-, pre, rest, -, -, -, hhead⟩ := (identEnd_yields hm
      (codeChar_boundary hm h.dot rfl).2).of_eq h.nameEnd
    obtain rfl := Except.ok.inj (h.name.symm.trans hhead)
    intro c hc
    rcases List.mem_append.mp hc with hc | hc
    · exact .inl (List.all_eq_true.mp (by decide : List.all "state" isIdentPart)
        c hc)
    · rcases List.mem_cons.mp hc with rfl | hc
      · exact .inr rfl
      · exact .inl (Text.isIdentPart_of_identHead hc)

section Reference

variable (hcalls : e.text ≠ [] → ∀ {key value stop}, r.SetsAt (ofText t) w i key value stop →
    r.CallsAt (ofText t) w i value stop) (h : r.ResolvesTo nested (ofText t) base w i log e log')
include h hcalls

theorem ResolvesTo.spans (hr : ∀ w ∈ r.receivers, w.isIdentifier)
    (hw : r.referent? (ofText t) i = some w) : r.Spans (ofText t) w i e.range.stop := by
  have hm := Scan.ofText_shows t
  have hbare : (∀ value stop, ¬r.CallsAt (ofText t) w i value stop) →
      r.Spans (ofText t) w i (i + w.size + 1) := by
    intro hno
    refine ⟨by omega, fun value stop hcall => absurd hcall (hno value stop),
      .inr fun p hlt hle => ?_⟩
    refine referent?_of_spells hm (nil_not_mem_receivers hr) (isIdentPart_or_dot hr hw (x := []) nofun)
      (spells_member hw rfl) hlt ?_
    rw [Text.size_append]
    exact le_of_lt hle
  cases h with
  | @read n hread =>
    refine ⟨by dsimp only; omega, fun value stop hcall => ?_, .inr fun p hlt hle => ?_⟩
    · cases hcall.member hread.memberEnd hread.member
    · obtain ⟨hspells, hfree⟩ := hread.spells hm
      refine referent?_of_spells hm (nil_not_mem_receivers hr) (isIdentPart_or_dot hr hw hfree)
        (spells_member hw hspells) hlt ?_
      have hsize : Text.size (w ++ '.' :: ("state" ++ '.' :: n)) = w.size + 7 + n.size := by
        rw [Text.size_append, Text.size_cons, Text.size_append]
        change w.size + (1 + (5 + (1 + n.size))) = _
        omega
      dsimp only at hle
      omega
  | @set key text arg value stop log' hsets htext harg =>
    have hcall := hcalls (by simp) hsets
    obtain ⟨close, hclose, rfl, -⟩ := hcall.bounds hm
    have := le_skipTrivia (ofText t) (i + w.size + 9) (ofText t).size
    have := (matching_spec hclose).2.2.1
    exact ⟨by dsimp only; omega, fun value' stop' hcall' => (hcall.unique hcall').2,
      .inl ⟨value, hcall⟩⟩
  | kept _ _ hfield _ =>
    refine hbare fun value stop hcall => ?_
    obtain ⟨key, hsets⟩ := hcall.sets
    cases (hfield hcall.paren).symm.trans hsets.field
  | flattened hend hmember hset _ _ _ =>
    exact hbare fun value stop hcall => hset (hcall.member hend hmember)
  | bare hend hmember hset _ _ =>
    exact hbare fun value stop hcall => hset (hcall.member hend hmember)

/-- Resolving one reference records what is reduced as part of it. -/
theorem ResolvesTo.gains
    (hnested : ∀ u base log out log', u.length < t.length → nested u base log = .ok (out, log') →
      Gains (r.ReducesAt x u) x log log') : Gains (r.ReducesFrom x t i w) x log log' := by
  have hm := Scan.ofText_shows t
  have hempty : ¬r.FlattensAt (ofText t) w i x →
      (∀ value stop, ¬r.CallsAt (ofText t) w i value stop) →
      ∀ p w', ¬r.ReducesFrom x t i w p w' := by
    rintro hflattens hno p w' (⟨-, -, h⟩ | ⟨value, stop, -, -, hcall, -⟩)
    · exact hflattens h
    · exact hno value stop hcall
  cases h with
  | @read n hread =>
    refine .of_empty (hempty (fun h => h.unread n hread) fun value stop hcall => ?_) Iff.rfl
      fun _ => Iff.rfl
    cases hcall.member hread.memberEnd hread.member
  | @set key text arg value stop log' hsets htext harg =>
    have hcall := hcalls (by simp) hsets
    refine (hnested _ _ _ _ _ (setterField?_shorter hsets.field htext) harg).shift
      (text.trimmedSpan value.start).start fun p w' => ⟨?_, ?_⟩
    · rintro (⟨-, -, h⟩ | ⟨value', stop', text', j, hcall', htext', h, rfl⟩)
      · exact absurd (hcall.member h.memberEnd h.member) h.other
      · obtain ⟨rfl, rfl⟩ := hcall.unique hcall'
        cases htext.symm.trans htext'
        exact ⟨j, rfl, h⟩
    · rintro ⟨j, rfl, h⟩
      exact .inr ⟨value, stop, text, j, hcall, htext, h, rfl⟩
  | kept hend hmember hfield hlog =>
    refine .of_empty (hempty (fun h => h.other ?_) fun value stop hcall => ?_) ?_ fun w' => ?_
    · exact member_unique h.memberEnd h.member hend hmember
    · obtain ⟨key, hsets⟩ := hcall.sets
      cases (hfield hcall.paren).symm.trans hsets.field
    · rw [Log.flattened_warn hlog]
    · rw [Log.reports_warn hlog]
      simp
  | @flattened member memberEnd log' hend hmember hset hread hlocal hlog =>
    refine (Gains.flatten (i := i) hlog).congr fun p w' => ⟨?_, ?_⟩
    · rintro (⟨rfl, rfl, h⟩ | ⟨value, stop, -, -, hcall, -⟩)
      · exact ⟨rfl, rfl, member_unique hend hmember h.memberEnd h.member⟩
      · exact absurd (hcall.member hend hmember) hset
    · rintro ⟨rfl, rfl, rfl⟩
      obtain rfl := (whole_of_slice hm hmember).2
      exact .inl ⟨rfl, rfl, hend, hmember, hset, hread, hlocal⟩
  | @bare member memberEnd hend hmember hset hstate hlocal =>
    refine .of_empty (hempty (fun h => ?_) fun value stop hcall =>
      hset (hcall.member hend hmember)) Iff.rfl fun _ => Iff.rfl
    obtain rfl := member_unique hend hmember h.memberEnd h.member
    obtain rfl := (whole_of_slice hm hmember).2
    rcases h.unbound with heq | hfree
    · exact hstate heq
    · rw [hlocal] at hfree
      cases hfree

end Reference

/-- How far the walk over a text has come: all calls before position `i` end before it or before
`resume`, and `resume` is the end of such a call, or no reference comes before it. -/
structure Progress (r : Resolver) (m : CodeMap) (i resume : Nat) : Prop where
  calls : ∀ {j w value stop}, j < i → r.referent? m j = some w → r.CallsAt m w j value stop →
    stop ≤ max i resume
  resume : i < resume → (∃ j w value, j < i ∧ r.referent? m j = some w ∧
    r.CallsAt m w j value resume) ∨ ∀ p, i ≤ p → p < resume → r.referent? m p = none

namespace Progress

variable {m : CodeMap} (h : r.Progress m i resume)
include h

theorem skip {ps : Painted} (hm : m.Shows ps)
    (hr : ∀ w ∈ r.receivers, w.isIdentifier) (hlt : i < resume) : r.Progress m (i + 1) resume := by
  refine ⟨fun {j w value stop} hj hw hcall => ?_, fun _ => ?_⟩
  · rcases Nat.lt_or_eq_of_le (Nat.le_of_lt_succ hj) with hj | rfl
    · have := h.calls hj hw hcall
      omega
    · rcases h.resume hlt with ⟨j', w', value', hj', hw', hcall'⟩ | hnone
      · have := hcall'.nested hm hr hw' hw hcall hj' hlt
        omega
      · rw [hnone j (le_refl _) hlt] at hw
        cases hw
  · rcases h.resume hlt with ⟨j, w, value, hj, hcall⟩ | hnone
    · exact .inl ⟨j, w, value, by omega, hcall⟩
    · exact .inr fun p hp => hnone p (by omega)

theorem pass (hle : resume ≤ i) (hnone : r.referent? m i = none) : r.Progress m (i + 1) resume := by
  refine ⟨fun {j w value stop} hj hw hcall => ?_, fun hlt => by omega⟩
  rcases Nat.lt_or_eq_of_le (Nat.le_of_lt_succ hj) with hj | rfl
  · have := h.calls hj hw hcall
    omega
  · rw [hnone] at hw
    cases hw

theorem edit (hle : resume ≤ i) {stop : Nat} (hw : r.referent? m i = some w)
    (hspans : r.Spans m w i stop) : r.Progress m (i + 1) stop := by
  refine ⟨fun {j w' value stop'} hj hw' hcall => ?_, fun hlt => ?_⟩
  · rcases Nat.lt_or_eq_of_le (Nat.le_of_lt_succ hj) with hj | rfl
    · have := h.calls hj hw' hcall
      omega
    · cases hw.symm.trans hw'
      rw [hspans.calls value stop' hcall]
      exact le_max_right _ _
  · rcases hspans.alone with ⟨value, hcall⟩ | hnone
    · exact .inl ⟨i, w, value, by omega, hw, hcall⟩
    · exact .inr fun p hp => hnone p (by omega)

theorem visitsAt (hle : resume ≤ i) (hw : r.referent? m i = some w) : r.VisitsAt m i w := by
  refine ⟨hw, fun hw' hcall hj => ?_⟩
  have := h.calls hj hw' hcall
  omega

end Progress

section

variable (h : r.Progress (ofText t) i resume) (hle : resume ≤ i)
include h hle

/-- Without a reference nothing is reduced: calls from before end before. -/
theorem Progress.not_reducesAt (hnone : r.referent? (ofText t) i = none) : ¬r.ReducesAt x t i w := by
  intro hreduces
  obtain ⟨j, w', hv, hfrom⟩ := reducesAt_iff.mp hreduces
  rcases hfrom.bounds with rfl | ⟨value, stop, hcall, hlt, hin⟩
  · rw [hv.referent] at hnone
    cases hnone
  · have := h.calls hlt hv.referent hcall
    omega

/-- What is reduced from a reference on belongs to it or to one behind its end. -/
theorem Progress.reducesAt_cases {p stop : Nat} {w' : Text} (hw : r.referent? (ofText t) i = some w)
    (hspans : r.Spans (ofText t) w i stop) : (r.ReducesAt x t p w' ∧ i ≤ p) ↔
      r.ReducesFrom x t i w p w' ∨ r.ReducesAt x t p w' ∧ stop ≤ p := by
  constructor
  · rintro ⟨hreduces, hp⟩
    obtain ⟨j, wj, hv, hfrom⟩ := reducesAt_iff.mp hreduces
    have hjp : j ≤ p := by
      rcases hfrom.bounds with rfl | ⟨_, _, _, hlt, _⟩ <;> omega
    rcases lt_trichotomy j i with hj | rfl | hj
    · rcases hfrom.bounds with rfl | ⟨value, stop, hcall, -, hin⟩
      · omega
      · have := h.calls hj hv.referent hcall
        omega
    · cases hw.symm.trans hv.referent
      exact .inl hfrom
    · have hstop : stop ≤ j := by
        rcases hspans.alone with ⟨value, hcall⟩ | hnone
        · exact hv.outside hw hcall hj
        · by_contra hin
          have := hv.referent
          rw [hnone j hj (by omega)] at this
          cases this
      exact .inr ⟨hreduces, by omega⟩
  · rintro (hfrom | ⟨hreduces, hp⟩)
    · exact ⟨reducesAt_iff.mpr ⟨i, w, h.visitsAt hle hw, hfrom⟩, (hfrom.within hspans).1⟩
    · exact ⟨hreduces, le_of_lt (lt_of_lt_of_le hspans.lt hp)⟩

end

variable (hr : ∀ w ∈ r.receivers, w.isIdentifier)
include hr

/-- Walking over a text records what is reduced in the rest of it. -/
theorem editsFrom_gains
    (hnested : ∀ u base log out log', u.length < t.length → nested u base log = .ok (out, log') →
      Gains (r.ReducesAt x u) x log log') {count : Nat} {edits : List Edit}
    (hprogress : r.Progress (ofText t) i resume) (hend : i + count = t.size)
    (h : r.editsFrom nested (ofText t) base count resume i log = .ok (edits, log')) :
    Gains (fun p w => r.ReducesAt x t p w ∧ max i resume ≤ p) x log log' := by
  have hm := Scan.ofText_shows t
  induction count generalizing resume i log edits with
  | zero =>
    cases h
    refine .of_empty (fun p w ⟨hreduces, hle⟩ => ?_) Iff.rfl fun _ => Iff.rfl
    have := hreduces.lt_size
    omega
  | succ count ih =>
    rw [editsFrom] at h
    split at h
    · rename_i hlt
      refine (ih (hprogress.skip hm hr hlt) (by omega) h).congr fun p w =>
        and_congr_right fun _ => ?_
      omega
    rename_i hle
    rw [not_lt] at hle
    rw [receiverAt?_eq hm (nil_not_mem_receivers hr)] at h
    cases hw : r.referent? (ofText t) i with
    | none =>
      rw [hw] at h
      refine (ih (hprogress.pass hle hw) (by omega) h).congr fun p w =>
        and_congr_right fun hreduces => ⟨fun hp => ?_, fun hp => by omega⟩
      have hne : p ≠ i := fun heq => hprogress.not_reducesAt hle hw (heq ▸ hreduces)
      omega
    | some w =>
      rw [hw] at h
      obtain ⟨⟨e, logHere⟩, hhere, h⟩ := bind_eq_ok h
      obtain ⟨⟨rest, logRest⟩, hrest, h⟩ := bind_eq_ok h
      cases h
      have hcalls : e.text ≠ [] → ∀ {key value stop}, r.SetsAt (ofText t) w i key value stop →
          r.CallsAt (ofText t) w i value stop := fun htext _ _ _ hsets =>
        ⟨reference_paren hhere hsets.memberEnd hsets.member htext, _, hsets⟩
      have hcases := reference_cases hm hhere
      have hspans := hcases.spans hcalls hr hw
      refine ((hcases.gains hcalls hnested).trans (ih (hprogress.edit hle hw hspans) (by omega)
        hrest) fun p _ p' _ hfrom hlater => ?_).congr fun p w' => ?_
      · have := (hfrom.within hspans).2
        omega
      · rw [max_eq_left hle, max_eq_right (Nat.succ_le_of_lt hspans.lt)]
        exact hprogress.reducesAt_cases hle hw hspans

/-- Resolving a text records what is reduced in it. -/
theorem resolveNested_gains {depth : Nat} {out : Text} (hdepth : t.length < depth)
    (h : r.resolveNested depth t base log = .ok (out, log')) :
    Gains (r.ReducesAt x t) x log log' := by
  induction depth generalizing t base log out log' with
  | zero => exact absurd hdepth (Nat.not_lt_zero _)
  | succ depth ih =>
    obtain ⟨⟨edits, log''⟩, hedits, h⟩ := bind_eq_ok h
    obtain ⟨text, -, h⟩ := bind_eq_ok h
    cases h
    have hstart : r.Progress (ofText t) 0 0 := ⟨fun hj => by omega, fun hlt => by omega⟩
    refine (editsFrom_gains hr (fun u base log out log' hu hrun => ih (by omega) hrun) hstart ?_
      hedits).congr fun p w => ?_
    · rw [Nat.zero_add, size_ofText]
    · simp

/-- Resolving a text reports a member as reduced under the receiver at the first place where it is,
and under no other. -/
theorem reports_iff_reducesFirst {resolved : Resolved} (h : r.resolve t base = .ok resolved) :
    .memberFlattened w x ∈ resolved.warnings.map (·.notice) ↔ r.ReducesFirst t w x := by
  obtain ⟨⟨text, log⟩, hrun, h⟩ := bind_eq_ok h
  cases h
  refine ((resolveNested_gains hr (Nat.lt_succ_self _) hrun).reports w).trans ?_
  simp [Log.Reports, Log.empty, ReducesFirst]

end Walk

end Resolver

/-- Whether the notice says of this member that it was reduced to its name. -/
def Notice.flattens (x : Text) : Notice → Bool
  | memberFlattened _ y => y == x
  | _ => false

theorem Notice.flattens_iff {x : Text} {n : Notice} :
    n.flattens x ↔ ∃ w, n = .memberFlattened w x := by
  cases n <;> simp [flattens]

theorem StateModel.build_unflattened {state : Option Snippet} {model : StateModel}
    (h : build state = .ok model) : ∀ v ∈ model.warnings, v.notice.isFlattening = false := by
  cases state with
  | none =>
    cases h
    exact fun v hv => absurd hv List.not_mem_nil
  | some s =>
    refine foldlM_eq_ok (P := fun model => ∀ v ∈ model.warnings, v.notice.isFlattening = false) h
      (fun v hv => absurd hv List.not_mem_nil) fun model part _ next hmodel hnext v hv => ?_
    rcases addPart_cases hnext with ⟨-, -, ws, hwarnings, hws⟩ | ⟨entry, range, -, rfl⟩
    · rw [hwarnings] at hv
      rcases List.mem_append.mp hv with hv | hv
      · exact hmodel v hv
      · obtain ⟨skipped, hskipped⟩ := hws v hv
        rw [hskipped]
        rfl
    · unfold StateModel.insert at hv
      split at hv
      · rcases List.mem_append.mp hv with hv | hv
        · exact hmodel v hv
        · obtain rfl := List.mem_singleton.mp hv
          rfl
      · exact hmodel v hv

namespace Component

theorem extract_unflattened {t : Text} {receivers : List Text} {c : Component}
    (h : extract t receivers = .ok c) : ∀ v ∈ c.warnings, v.notice.isFlattening = false := by
  obtain ⟨header, body, found, render, pieces, hx, rfl⟩ := extract_iff.mp h
  intro v hv
  cases hx.reported v hv with
  | lost hwhole h =>
    rw [(Warning.about_yields _ hwhole.le).of_eq h]
    rfl
  | member _ hdrops => cases hdrops <;> rfl
  | statement hdropped hw =>
    obtain ⟨line, hline⟩ := droppedStatements_notice hdropped v hw
    rw [hline]
    rfl

end Component

namespace Conversion

section Pieces

variable {r : Resolver} (hr : ∀ w ∈ r.receivers, w.isIdentifier) {w x : Text}
include hr

/-- What is said about the members of a list of texts that are resolved one by one. -/
theorem flattens_of_mapM {α : Type} {text : α → Text} {base : α → Nat} {l : List α}
    {outs : List Resolved} (h : (l.mapM fun a => r.resolve (text a) (base a)) = .ok outs) :
    .memberFlattened w x ∈ (outs.flatMap (·.warnings)).map (·.notice) ↔
      ∃ q ∈ l.zip outs, r.ReducesFirst (text q.1) w x := by
  have hpaired := mapM_eq_ok h
  clear h
  induction hpaired with
  | nil => simp
  | cons hout _ ih =>
    rw [List.flatMap_cons, List.map_append, List.mem_append,
      Resolver.reports_iff_reducesFirst hr hout, List.zip_cons_cons, List.exists_mem_cons_iff]
    exact or_congr_right ih

theorem flattens_of_resolveOption {s : Option Snippet} {out : Option Text × List Warning}
    (h : resolveOption r s = .ok out) : .memberFlattened w x ∈ out.2.map (·.notice) ↔
      ∃ q ∈ s.toList.zip out.1.toList, r.ReducesFirst q.1.text w x := by
  cases s with
  | none =>
    cases h
    simp
  | some s =>
    obtain ⟨resolved, hresolved, h⟩ := bind_eq_ok h
    cases h
    rw [Resolver.reports_iff_reducesFirst hr hresolved]
    simp

end Pieces

section Reports

variable {c : Component} {receivers : List Text} {p : Parts} {w x : Text}

/-- The member is reported under the receivers that are the first ones in some piece. -/
theorem Parts.From.flattens_iff (hp : p.From c receivers) (hr : ∀ w ∈ receivers, w.isIdentifier)
    (hc : ∀ v ∈ c.warnings, v.notice.isFlattening = false) :
    .memberFlattened w x ∈ (p.warnings c).map (·.notice) ↔
      ∃ q ∈ p.pieces c, (p.resolver c receivers).ReducesFirst q.1 w x := by
  have hnone : ∀ {ws : List Warning}, (∀ v ∈ ws, v.notice.isFlattening = false) →
      ¬.memberFlattened w x ∈ ws.map (·.notice) := by
    intro ws hws hmem
    obtain ⟨v, hv, hnotice⟩ := List.mem_map.mp hmem
    have := hws v hv
    rw [hnotice] at this
    cases this
  have hr' : ∀ w ∈ (p.resolver c receivers).receivers, w.isIdentifier := hr
  simp only [warnings, pieces, List.map_append, List.mem_append, hnone hc,
    hnone (StateModel.build_unflattened hp.model), false_or, or_and_right, exists_or,
    List.exists_mem_cons_iff]
  rw [flattens_of_mapM hr' hp.values, flattens_of_resolveOption hr' hp.setup,
    flattens_of_resolveOption hr' hp.cleanup, flattens_of_mapM hr' hp.bodies,
    Resolver.reports_iff_reducesFirst hr' hp.prelude,
    Resolver.reports_iff_reducesFirst hr' hp.template]
  simp only [List.mem_map, exists_exists_and_eq_and, List.not_mem_nil, false_and, exists_false,
    or_false, or_assoc]

/-- A notice about a reduced member is kept unless it was seen before. -/
theorem mem_notices_reportOnce {n : Notice} (hn : n.isFlattening) {seen : List Notice}
    {ws : List Warning} :
    n ∈ (reportOnce seen ws).map (·.notice) ↔ n ∈ ws.map (·.notice) ∧ n ∉ seen := by
  induction ws generalizing seen with
  | nil => simp [reportOnce]
  | cons v ws ih =>
    rw [reportOnce, List.map_cons, List.mem_cons]
    split
    · split
      · rename_i hseen
        rw [List.contains_iff_mem] at hseen
        rw [ih]
        constructor
        · exact fun h => ⟨.inr h.1, h.2⟩
        · rintro ⟨rfl | h, hnew⟩
          · exact absurd hseen hnew
          · exact ⟨h, hnew⟩
      · rename_i hnew
        rw [List.contains_iff_mem] at hnew
        rw [List.map_cons, List.mem_cons, ih]
        by_cases heq : n = v.notice
        · simp [heq, hnew]
        · simp [heq]
    · rename_i hother
      have hne : n ≠ v.notice := fun heq => hother (heq ▸ hn)
      rw [List.map_cons, List.mem_cons, ih]
      simp [hne]

/-- No notice about a reduced member is kept twice. -/
theorem nodup_notices_reportOnce (seen : List Notice) (ws : List Warning) :
    (((reportOnce seen ws).map (·.notice)).filter (·.isFlattening)).Nodup := by
  induction ws generalizing seen with
  | nil => exact .nil
  | cons v ws ih =>
    rw [reportOnce]
    split
    · rename_i hv
      split
      · exact ih seen
      · rw [List.map_cons, List.filter_cons_of_pos hv]
        refine List.nodup_cons.mpr ⟨fun hmem => ?_, ih _⟩
        have := (mem_notices_reportOnce hv).mp (List.mem_filter.mp hmem).1
        exact this.2 List.mem_cons_self
    · rename_i hv
      rw [List.map_cons, List.filter_cons_of_neg hv]
      exact ih seen

end Reports

/-- A conversion reports a member as reduced once under each receiver that stands at the first place
of some piece where the member is reduced, and under no other receiver.  So it reports the member
once at most if and only if all the pieces that reduce it start with the same receiver. -/
theorem flattenings_reported {t : Text} {receivers : List Text} {conv : Conversion}
    (hr : ∀ w ∈ receivers, w.isIdentifier = true) (h : convert t receivers = .ok conv) :
    ∃ c p, Component.extract t receivers = .ok c ∧ Parts.From p c receivers ∧
      conv = p.conversion c ∧
      (∀ w x, (∃ q ∈ p.pieces c, (p.resolver c receivers).ReducesFirst q.1 w x) →
        (conv.warnings.map (·.notice)).count (.memberFlattened w x) = 1) ∧
      (∀ w x, (¬∃ q ∈ p.pieces c, (p.resolver c receivers).ReducesFirst q.1 w x) →
        (conv.warnings.map (·.notice)).count (.memberFlattened w x) = 0) ∧
      ∀ x, (conv.warnings.map (·.notice)).countP (·.flattens x) ≤ 1 ↔
        ∀ q ∈ p.pieces c, ∀ q' ∈ p.pieces c, ∀ w w', (p.resolver c receivers).ReducesFirst q.1 w x →
          (p.resolver c receivers).ReducesFirst q'.1 w' x → w = w' := by
  obtain ⟨c, hextract, h⟩ := bind_eq_ok h
  obtain ⟨p, hp, rfl⟩ := assemble_iff.mp (check_eq_ok h)
  have hmem : ∀ {w x}, .memberFlattened w x ∈ (p.conversion c).warnings.map (·.notice) ↔
      ∃ q ∈ p.pieces c, (p.resolver c receivers).ReducesFirst q.1 w x := by
    intro w x
    rw [← hp.flattens_iff hr (Component.extract_unflattened hextract)]
    exact (mem_notices_reportOnce rfl).trans (and_iff_left List.not_mem_nil)
  have hnodup : (((p.conversion c).warnings.map (·.notice)).filter (·.isFlattening)).Nodup :=
    nodup_notices_reportOnce [] (p.warnings c)
  refine ⟨c, p, hextract, hp, rfl, fun w x hpiece => ?_, fun w x hnone => ?_, fun x => ?_⟩
  · rw [← List.count_filter (p := (·.isFlattening)) rfl]
    exact List.count_eq_one_of_mem hnodup (List.mem_filter.mpr ⟨hmem.mpr hpiece, rfl⟩)
  · exact List.count_eq_zero.mpr fun hin => hnone (hmem.mp hin)
  · have hnodup' : (((p.conversion c).warnings.map (·.notice)).filter (·.flattens x)).Nodup := by
      refine hnodup.sublist (List.monotone_filter_right _ fun n hn => ?_)
      obtain ⟨w, rfl⟩ := Notice.flattens_iff.mp hn
      rfl
    rw [List.countP_eq_length_filter, ← List.toFinset_card_of_nodup hnodup', Finset.card_le_one]
    simp only [List.mem_toFinset, List.mem_filter, Notice.flattens_iff]
    constructor
    · intro hsame q hq q' hq' w w' hfirst hfirst'
      cases hsame _ ⟨hmem.mpr ⟨q, hq, hfirst⟩, w, rfl⟩ _ ⟨hmem.mpr ⟨q', hq', hfirst'⟩, w', rfl⟩
      rfl
    · rintro hsame _ ⟨hin, w, rfl⟩ _ ⟨hin', w', rfl⟩
      obtain ⟨q, hq, hfirst⟩ := hmem.mp hin
      obtain ⟨q', hq', hfirst'⟩ := hmem.mp hin'
      rw [hsame q hq q' hq' w w' hfirst hfirst']

/-- A class that reduces a member under two names of the instance, the first time in the value of a
call. -/
def aliasedSource : Text :=
  "class A extends Component\x7bstate=\x7ba:0\x7d;f()\x7bself.setState(\x7ba:this.x+self.x\x7d)\x7d"
    ++ "render()\x7breturn this.x\x7d\x7d"

/-- What it is converted to. -/
def aliasedConversion : Conversion where
  code := "import React, \x7b useState \x7d from 'react';\n\nfunction A(props) \x7b
  const [a, setA] = useState(0);\n\n  const f = () => \x7b\n    setA(x+x)\n  \x7d;\n
  return (\n    x\n  );\n\x7d\n\nexport default A;\n"
  warnings := [⟨.memberFlattened "this" "x", ⟨59, 65⟩⟩]

theorem convert_aliased : convert aliasedSource ["this", "self"] = .ok aliasedConversion := by
  decide +kernel

/-- Every piece that reduces the member does so under `this` first. -/
theorem flattenings_reported_aliased :
    (∀ w ∈ (["this", "self"] : List Text), w.isIdentifier = true) ∧
      convert aliasedSource ["this", "self"] = .ok aliasedConversion ∧
      ∃ c p, Component.extract aliasedSource ["this", "self"] = .ok c ∧
        Parts.From p c ["this", "self"] ∧
        (∃ q ∈ p.pieces c, (p.resolver c ["this", "self"]).ReducesFirst q.1 "this" "x") ∧
        (¬∃ q ∈ p.pieces c, (p.resolver c ["this", "self"]).ReducesFirst q.1 "self" "x") ∧
        ∀ q ∈ p.pieces c, ∀ q' ∈ p.pieces c, ∀ w w',
          (p.resolver c ["this", "self"]).ReducesFirst q.1 w "x" →
          (p.resolver c ["this", "self"]).ReducesFirst q'.1 w' "x" → w = w' := by
  have hr : ∀ w ∈ (["this", "self"] : List Text), w.isIdentifier = true := by decide
  obtain ⟨c, p, hextract, hp, -, hone, hnone, hiff⟩ := flattenings_reported hr convert_aliased
  refine ⟨hr, convert_aliased, c, p, hextract, hp, ?_, fun hself => ?_, (hiff "x").mp (by decide)⟩
  · by_contra hthis
    exact absurd (hnone "this" "x" hthis) (by decide)
  · exact absurd (hone "self" "x" hself) (by decide)

/-- A class that reduces a member under one name of the instance in the body of the effect and under
the other in the template. -/
def renamedSource : Text :=
  "class A extends Component\x7bcomponentDidMount()\x7bf(this.x)\x7d"
    ++ "render()\x7breturn self.x\x7d\x7d"

/-- The component. -/
def renamedComponent : Component where
  name := "A"
  state := none
  mount := some ⟨"f(this.x)", ⟨46, 55⟩⟩
  unmount := none
  methods := []
  prelude := ⟨"", ⟨65, 65⟩⟩
  template := ⟨"self.x", ⟨72, 78⟩⟩
  warnings := []

/-- What it is converted to. -/
def renamedConversion : Conversion where
  code := "import React, \x7b useEffect \x7d from 'react';\n\nfunction A(props) \x7b
  useEffect(() => \x7b\n    f(x)\n  \x7d, []);\n\n  return (\n    x\n  );\n\x7d\n
export default A;\n"
  warnings := [⟨.memberFlattened "this" "x", ⟨48, 54⟩⟩, ⟨.memberFlattened "self" "x", ⟨72, 78⟩⟩]

/-- The member is reported under both names. -/
theorem member_reported_twice :
    (∀ w ∈ (["this", "self"] : List Text), w.isIdentifier = true) ∧
      convert renamedSource ["this", "self"] = .ok renamedConversion ∧
      (renamedConversion.warnings.map (·.notice)).countP (·.flattens "x") = 2 := by
  have hextract : Component.extract renamedSource ["this", "self"] = .ok renamedComponent := by
    decide +kernel
  unfold convert
  rw [hextract]
  decide +kernel

end Conversion

end Declass
