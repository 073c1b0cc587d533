import Declass.Proofs.Capture

/-!
# What resolving leaves alone

**Input.** A resolver whose receivers are identifiers, and a text.

**Results.** `only_references_replaced`: resolving makes patches, and each of them replaces a
reference in one of three forms (`Substitutes`).  Only a call of `setState` that becomes a setter
call can take in text that is no code.  Such a call goes up to the bracket that matches the one
behind `setState`.  Brackets are matched whatever their kind, so this is a parenthesis if brackets
are matched by their own kind only (`PairsKinds`).  A text without references stays as it is, and
nothing is reported about it.
-/

namespace Declass

open CodeMap

theorem Text.exists_char {u : Text} {n : Nat} (h : n < u.size) :
    ∃ pre c post, u = pre ++ c :: post ∧ Text.size pre ≤ n ∧ n < Text.size pre + c.utf8Size := by
  induction u generalizing n with
  | nil => simp at h
  | cons d u ih =>
    by_cases hhere : n < d.utf8Size
    · exact ⟨[], d, u, rfl, by simp, by simpa using hhere⟩
    · rw [Text.size_cons] at h
      obtain ⟨pre, c, post, rfl, hle, hlt⟩ := ih (n := n - d.utf8Size) (by omega)
      exact ⟨d :: pre, c, post, rfl, by simp; omega, by simp; omega⟩

theorem CodeMap.isCode_of_spells {t u : Text} {i : Nat} (hu : u.all Scan.isPlainChar)
    (hcode : (ofText t).isCode i) (hspells : (ofText t).spells u i) {n : Nat}
    (hn : n < u.size) : (ofText t).isCode (i + n) := by
  have hm := Scan.ofText_shows t
  obtain ⟨pre, c, post, rfl, hle, hlt⟩ := Text.exists_char hn
  have hchar := isCodeChar_of_spells hu hcode hspells
  obtain ⟨left, right, hkinds, hwidth⟩ := (slot_iff hm).mp (isCodeChar_iff.mp hchar)
  have hslot := slots_inside hm hkinds (j := n - Text.size pre) (by omega)
  rw [hwidth, Nat.add_assoc, Nat.add_sub_cancel' hle] at hslot
  rw [isCode, has, hslot]
  rfl

namespace Text

theorem append_split_of_size {a b c d : Text} (h : a ++ b = c ++ d) (hs : a.size ≤ c.size) :
    ∃ x, c = a ++ x ∧ b = x ++ d := by
  rcases List.append_eq_append_iff.mp h with ⟨x, hc, hb⟩ | ⟨x, ha, hd⟩
  · exact ⟨x, hc, hb⟩
  · have hx : x = [] := by
      cases x with
      | nil => rfl
      | cons e x =>
        have := e.utf8Size_pos
        rw [ha, size_append, size_cons] at hs
        omega
    subst hx
    exact ⟨[], by simpa using ha.symm, by simpa using hd.symm⟩

/-- Of two parts of a text, one that lies within the other is a part of it. -/
theorem infix_of_liesAt {t u v : Text} {i j : Nat} (hu : LiesAt t i u) (hv : LiesAt t j v)
    (hij : i ≤ j) (hstop : j + v.size ≤ i + u.size) : v <:+: u := by
  obtain ⟨a, b, rfl, rfl⟩ := hu
  obtain ⟨c, d, h, rfl⟩ := hv
  rw [List.append_assoc, List.append_assoc] at h
  obtain ⟨x, rfl, hx⟩ := append_split_of_size h hij
  rw [← List.append_assoc] at hx
  rw [size_append] at hstop
  obtain ⟨y, rfl, -⟩ := append_split_of_size hx.symm (by rw [size_append]; omega)
  exact ⟨x, y, rfl⟩

theorem isIdentPart_of_identHead {u : Text} {c : Char} (h : c ∈ u.identHead) :
    Character.isIdentPart c := by
  cases u with
  | nil => cases h
  | cons d u =>
    rw [identHead] at h
    split at h
    · rename_i hd
      rcases List.mem_cons.mp h with rfl | h
      · exact isIdentPart_of_isIdentStart hd
      · exact List.mem_takeWhile_imp h
    · cases h

end Text

section Slices

variable {m : CodeMap} {ps : Painted} (hm : m.Shows ps)
include hm

theorem CodeMap.slice_append {u v : Text} {i j k : Nat} (hu : m.slice i j = .ok u)
    (hv : m.slice j k = .ok v) : m.slice i k = .ok (u ++ v) := by
  obtain ⟨hw, hj⟩ := whole_of_slice hm hu
  obtain ⟨hw', hk⟩ := whole_of_slice hm hv
  obtain ⟨⟨pre, post, hchars, rfl⟩, -⟩ := (slice_yields hm hw).of_eq hu
  obtain ⟨⟨pre', post', hchars', hpre⟩, -⟩ := (slice_yields hm hw').of_eq hv
  have hsize : (pre ++ u).size = pre'.size := by rw [Text.size_append, hpre, hj]
  rw [hchars, List.append_assoc pre'] at hchars'
  obtain ⟨rfl, rfl⟩ := Text.append_inj_of_size hchars' hsize
  have hlies : Text.LiesAt (ps.map Prod.fst) pre.size (u ++ v) :=
    ⟨pre, post', by rw [hchars]; simp, rfl⟩
  have hslice := (slice_of_liesAt hm hlies).2
  rwa [Text.size_append, ← Nat.add_assoc, hj, hk] at hslice

theorem CodeMap.slice_of_spells {w : Text} {i : Nat} (hw : w ≠ []) (h : m.spells w i) :
    m.slice i (i + w.size) = .ok w :=
  (slice_of_liesAt hm ((spells_iff hm (spells_boundary hm hw h)).mp h)).2

theorem CodeMap.slice_codeChar {c : Char} {i : Nat} (h : m.isCodeChar i c)
    (hc : c.utf8Size = 1) : m.slice i (i + 1) = .ok [c] := by
  have hspells : m.spells [c] i := by simp [spells, isCodeChar_charAt? h]
  have hslice := slice_of_spells hm (List.cons_ne_nil c []) hspells
  rwa [Text.size_cons, hc] at hslice

end Slices

/-- The brackets that open and close, by their kinds. -/
def bracketPairs : List (Char × Char) := [('(', ')'), ('[', ']'), ('\x7b', '\x7d')]

/-- A bracket in code that has a partner has one of its own kind. -/
def CodeMap.PairsKinds (m : CodeMap) : Prop :=
  ∀ o < m.size, ∀ b ∈ bracketPairs, m.isCodeChar o b.1 = true →
    ∀ c ∈ m.matching o, m.isCodeChar c b.2 = true

instance (m : CodeMap) : Decidable m.PairsKinds :=
  inferInstanceAs (Decidable (∀ o < m.size, ∀ b ∈ bracketPairs, m.isCodeChar o b.1 = true →
    ∀ c ∈ m.matching o, m.isCodeChar c b.2 = true))

namespace Resolver

/-- In code at the position, the receiver `w` stands as a whole word before a dot. -/
structure RefersAt (r : Resolver) (m : CodeMap) (w : Text) (i : Nat) : Prop where
  mem : w ∈ r.receivers
  code : m.isCode i = true
  stands : m.stands i w = true
  dot : m.isCodeChar (i + w.size) '.' = true

/-- The first text is a call of `setState` at position `i`, up to the bracket that closes it.  The
second one calls the setter of a state entry, with a part of the arguments resolved. -/
inductive CallsSetter (r : Resolver) (t : Text) (i : Nat) : Text → Text → Prop
  | mk {w gap args key value arg : Text} {close : Char} (h : r.RefersAt (ofText t) w i)
      (hgap : ∀ j, i + (w ++ ".setState").size ≤ j → j < i + (w ++ ".setState" ++ gap).size →
        (ofText t).has Slot.isTrivia j = true)
      (hopen : (ofText t).isCodeChar (i + (w ++ ".setState" ++ gap).size) '(' = true)
      (hclose : (ofText t).isCodeChar (i + (w ++ ".setState" ++ gap ++ "(" ++ args).size) close =
        true)
      (hmatch : (ofText t).matching (i + (w ++ ".setState" ++ gap).size) =
        some (i + (w ++ ".setState" ++ gap ++ "(" ++ args).size))
      (hkey : key ∈ r.states) (hvalue : value <:+: args) (harg : r.Rewrites value arg) :
      CallsSetter r t i (w ++ ".setState" ++ gap ++ "(" ++ args ++ [close])
        (setterName key ++ "(" ++ arg ++ ")")

/-- What can take the place of the first text at position `i`: a receiver and its dot go, a state
entry that is read is named, and a call of `setState` becomes the call of a setter. -/
inductive Substitutes (r : Resolver) (t : Text) (i : Nat) : Text → Text → Prop
  | bare {w : Text} (h : r.RefersAt (ofText t) w i) : Substitutes r t i (w ++ ".") []
  | read {w n : Text} (h : r.RefersAt (ofText t) w i) (hn : n ∈ r.states)
      (hname : ∀ c ∈ n, Character.isIdentPart c = true) :
      Substitutes r t i (w ++ ".state." ++ n) n
  | call {old new : Text} (h : r.CallsSetter t i old new) : Substitutes r t i old new

section Origins

variable {r : Resolver} {nested : Nested} {m : CodeMap} {ps : Painted} {base : Nat}
  {log log' : Log} {e : Edit}

theorem referent?_refersAt {w : Text} {i : Nat} (h : r.referent? m i = some w) :
    r.RefersAt m w i := by
  obtain ⟨hmem, hcode, hstands, hdot, -⟩ := referent?_spec h
  exact ⟨hmem, hcode, hstands, hdot⟩

theorem RefersAt.slice_dot {w : Text} {i : Nat} (h : r.RefersAt m w i) (hm : m.Shows ps)
    (hr : ∀ w ∈ r.receivers, w.isIdentifier) :
    m.slice i (i + w.size + 1) = .ok (w ++ ".") := by
  have hne : w ≠ [] := fun hnil => nil_not_mem_receivers hr (hnil ▸ h.mem)
  have hstands := h.stands
  simp only [CodeMap.stands, Bool.and_eq_true] at hstands
  exact slice_append hm (slice_of_spells hm hne hstands.1.1) (slice_codeChar hm h.dot rfl)

theorem Resolves.origin {edits : List Edit} (h : r.Resolves nested m base log edits log')
    (he : e ∈ edits) : ∃ w j before behind, r.receiverAt? m j = .ok (some w) ∧
      r.reference nested m base w j before = .ok (e, behind) := by
  induction h with
  | nil => exact absurd he List.not_mem_nil
  | cons hw hhere _ ih =>
    rcases List.mem_cons.mp he with rfl | he
    · exact ⟨_, _, _, _, hw, hhere⟩
    · exact ih he

/-- Every edit resolves the reference at which it starts. -/
theorem mem_editsFrom (hm : m.Shows ps) (hr : [] ∉ r.receivers) {count resume i : Nat}
    {edits : List Edit} (h : r.editsFrom nested m base count resume i log = .ok (edits, log'))
    (he : e ∈ edits) : ∃ w j before behind, r.referent? m j = some w ∧
      r.reference nested m base w j before = .ok (e, behind) := by
  obtain ⟨w, j, before, behind, hw, hreference⟩ := (resolves_of_editsFrom h).origin he
  rw [receiverAt?_eq hm hr] at hw
  exact ⟨w, j, before, behind, Except.ok.inj hw, hreference⟩

/-- Where nothing is referred to there is nothing to edit or to report. -/
theorem editsFrom_of_none (hm : m.Shows ps) (hr : [] ∉ r.receivers)
    (h : ∀ i, r.referent? m i = none) (count resume i : Nat) :
    r.editsFrom nested m base count resume i log = .ok ([], log) := by
  induction count generalizing resume i with
  | zero => rfl
  | succ count ih =>
    rw [editsFrom, receiverAt?_eq hm hr, h i]
    split
    · exact ih resume (i + 1)
    · exact ih resume (i + 1)

theorem reference_paren {w : Text} {i : Nat}
    (h : r.reference nested m base w i log = .ok (e, log'))
    (hend : m.identEnd (i + w.size + 1) = .ok (i + w.size + 9))
    (hmember : m.slice (i + w.size + 1) (i + w.size + 9) = .ok "setState") (htext : e.text ≠ []) :
    m.isCodeChar (m.skipTrivia (i + w.size + 9) m.size) '(' := by
  by_contra hparen
  rw [reference] at h
  rw [bind_of_eq_ok hend, bind_of_eq_ok hmember, if_neg (by decide), if_neg hparen] at h
  obtain ⟨log'', -, h⟩ := bind_eq_ok h
  cases h
  exact htext rfl

end Origins

section Forms

variable {r : Resolver} {nested : Nested} {t w : Text} {i base : Nat} {log log' : Log} {e : Edit}

/-- The text of a state read whose receiver and dot stand at position `i`. -/
theorem ReadsAt.old_eq {n old : Text} (h : r.ReadsAt (ofText t) w i n)
    (hdot : (ofText t).slice i (i + w.size + 1) = .ok (w ++ "."))
    (hold : (ofText t).slice i (i + w.size + 7 + n.size) = .ok old) : old = w ++ ".state." ++ n := by
  have hm := Scan.ofText_shows t
  have hchain : (ofText t).slice i (i + w.size + 7 + n.size) =
      .ok (w ++ "." ++ "state" ++ "." ++ n) :=
    slice_append hm (slice_append hm (slice_append hm hdot h.member)
      (slice_codeChar hm h.dot rfl)) h.name
  have hform : w ++ "." ++ "state" ++ "." ++ n = w ++ ".state." ++ n := by simp
  rw [← hform]
  exact Except.ok.inj (hold.symm.trans hchain)

theorem SetsAt.old_eq {key text old : Text} {value : Span} {stop : Nat}
    (h : r.SetsAt (ofText t) w i key value stop)
    (hparen : (ofText t).isCodeChar
      ((ofText t).skipTrivia (i + w.size + 9) (ofText t).size) '(')
    (hdot : (ofText t).slice i (i + w.size + 1) = .ok (w ++ "."))
    (htext : (ofText t).slice value.start value.stop = .ok text)
    (hold : (ofText t).slice i stop = .ok old) :
    ∃ (gap args : Text) (close : Char), old = w ++ ".setState" ++ gap ++ "(" ++ args ++ [close] ∧
      (∀ j, i + (w ++ ".setState").size ≤ j → j < i + (w ++ ".setState" ++ gap).size →
        (ofText t).has Slot.isTrivia j) ∧
      (ofText t).isCodeChar (i + (w ++ ".setState" ++ gap).size) '(' ∧
      (ofText t).isCodeChar (i + (w ++ ".setState" ++ gap ++ "(" ++ args).size) close ∧
      (ofText t).matching (i + (w ++ ".setState" ++ gap).size) =
        some (i + (w ++ ".setState" ++ gap ++ "(" ++ args).size) ∧
      key ∈ r.states ∧ text.trim <:+: args := by
  have hm := Scan.ofText_shows t
  obtain ⟨hvalue, hlt, hkey, close, hclose, hle, rfl⟩ :=
    (setterField?_yields hm _).of_eq h.field key value stop rfl
  have hmember := slice_append hm hdot h.member
  obtain ⟨gap, hgap, -⟩ := slice_yields hm (i := i + w.size + 9)
    (j := (ofText t).skipTrivia (i + w.size + 9) (ofText t).size) ⟨le_skipTrivia _ _ _,
      (whole_of_slice hm h.member).1.right, (codeChar_boundary hm hparen rfl).1⟩
  obtain ⟨args, hargs, hargsLies, hargsStop⟩ := slice_yields hm (matching_whole hm hclose)
  obtain ⟨c, hchar, hc⟩ : ∃ c, (ofText t).isCodeChar close c ∧
      (ofText t).slice close (close + 1) = .ok [c] := by
    rcases closes_iff.mp (matching_spec hclose).2.1 with hcloses | hcloses | hcloses <;>
      exact ⟨_, hcloses, slice_codeChar hm hcloses rfl⟩
  -- The parts of the call lie one behind the other.
  have hhead := slice_append hm hmember hgap
  have hopen := slice_append hm (slice_append hm hhead (slice_codeChar hm hparen rfl)) hargs
  obtain rfl := Except.ok.inj ((slice_append hm hopen hc).symm.trans hold)
  have hform : w ++ "." ++ "setState" = w ++ ".setState" := by simp
  rw [hform] at hmember hhead hopen ⊢
  have hopening := (whole_of_slice hm hhead).2
  have hclosing : i + (w ++ ".setState" ++ gap ++ "(" ++ args).size = close :=
    (whole_of_slice hm hopen).2
  refine ⟨gap, args, c, rfl, fun j hj hj' => ?_, hopening ▸ hparen, hclosing ▸ hchar, ?_,
    by simpa [isState] using hkey, ?_⟩
  · rw [hopening] at hj'
    rw [(whole_of_slice hm hmember).2] at hj
    exact has_of_skipWhile _ _ _ _ _ hj hj'
  · rw [hopening, hclosing, hclose]
  · obtain ⟨hlies, hstop⟩ := (slice_yields hm hvalue).of_eq htext
    have hinfix := Text.infix_of_liesAt hargsLies hlies hlt (by omega)
    exact (Text.trim_infix text).trans hinfix

/-- What takes the place of a reference. -/
theorem substitutes_of_reference (hr : ∀ w ∈ r.receivers, w.isIdentifier)
    (hnested : r.Handles t nested) (hw : r.referent? (ofText t) i = some w)
    (h : r.reference nested (ofText t) base w i log = .ok (e, log')) {old : Text}
    (hold : (ofText t).slice e.range.start e.range.stop = .ok old) :
    e.range.start = i ∧ r.Substitutes t i old e.text := by
  have hm := Scan.ofText_shows t
  have hat := referent?_refersAt hw
  have hdot := hat.slice_dot hm hr
  have hbare : e = ⟨⟨i, i + w.size + 1⟩, []⟩ → e.range.start = i ∧ r.Substitutes t i old e.text := by
    rintro rfl
    obtain rfl := Except.ok.inj (hdot.symm.trans hold)
    exact ⟨rfl, .bare hat⟩
  cases reference_cases hm h with
  | @read n hread =>
    rw [hread.old_eq hdot hold]
    refine ⟨rfl, .read hat (by simpa [isState] using hread.isState) ?_⟩
    obtain ⟨-, pre, rest, -, -, -, hhead⟩ := (identEnd_yields hm
      (codeChar_boundary hm hread.dot rfl).2).of_eq hread.nameEnd
    obtain rfl := Except.ok.inj (hread.name.symm.trans hhead)
    exact fun c hc => Text.isIdentPart_of_identHead hc
  | @set key text arg value stop log' hset htext harg =>
    have hparen := reference_paren h hset.memberEnd hset.member (by simp)
    obtain ⟨gap, args, close, rfl, hgap, hopen, hclose, hmatch, hkey, hvalue⟩ :=
      hset.old_eq hparen hdot htext hold
    exact ⟨rfl, .call (.mk hat hgap hopen hclose hmatch hkey hvalue
      ((hnested _ _ _ (setterField?_shorter hset.field htext)).of_eq harg))⟩
  | kept _ _ _ _ => exact hbare rfl
  | flattened _ _ _ _ _ _ => exact hbare rfl
  | bare _ _ _ _ _ => exact hbare rfl

/-- A receiver with its dot and a state read are code throughout. -/
theorem Substitutes.code (hr : ∀ w ∈ r.receivers, w.isIdentifier) {old new : Text}
    (h : r.Substitutes t i old new) (hlies : Text.LiesAt t i old) :
    (∀ n < old.size, (ofText t).isCode (i + n)) ∨ r.CallsSetter t i old new := by
  have hm := Scan.ofText_shows t
  have hspells : (ofText t).spells old i := by
    rw [← Scan.kinds_chars t] at hlies
    exact (spells_iff hm (slice_of_liesAt hm hlies).1.left).mpr hlies
  cases h with
  | @bare w h =>
    have hplain : (w ++ ".").all Scan.isPlainChar := by
      rw [List.all_append, all_isPlainChar_of_isIdentifier (hr w h.mem)]
      rfl
    exact .inl fun n hn => isCode_of_spells hplain h.code hspells hn
  | @read w _ h hn hname =>
    have hplain : (w ++ ".state." ++ new).all Scan.isPlainChar := by
      rw [List.all_append, List.all_append, all_isPlainChar_of_isIdentifier (hr w h.mem),
        List.all_eq_true.mpr fun c hc => Scan.isPlainChar_of_isIdentPart (hname c hc)]
      rfl
    exact .inl fun j hj => isCode_of_spells hplain h.code hspells hj
  | call h => exact .inr h

/-- Where brackets are matched by their own kind, a call ends with a parenthesis. -/
theorem CallsSetter.ends {old new : Text} (h : r.CallsSetter t i old new)
    (hkinds : (ofText t).PairsKinds) : old.getLast? = some ')' := by
  cases h with
  | mk h hgap hopen hclose hmatch hkey hvalue harg =>
    obtain ⟨-, -, hlt, hsize⟩ := matching_spec hmatch
    have hparen := hkinds _ (hlt.trans hsize) ('(', ')') (by decide) hopen _
      (Option.mem_def.mpr hmatch)
    obtain rfl := Option.some.inj ((isCodeChar_charAt? hclose).symm.trans (isCodeChar_charAt? hparen))
    exact List.getLast?_concat

end Forms

/-- A text without references is resolved to itself, and nothing is reported. -/
theorem resolve_of_none {r : Resolver} (hr : [] ∉ r.receivers) {t : Text}
    (h : ∀ w i, ¬ r.RefersAt (ofText t) w i) (base : Nat) : r.resolve t base = .ok ⟨t, []⟩ := by
  have hm := Scan.ofText_shows t
  have hnone : ∀ i, r.referent? (ofText t) i = none := by
    intro i
    cases hw : r.referent? (ofText t) i with
    | none => rfl
    | some w => exact absurd (referent?_refersAt hw) (h w i)
  have hsize : (ofText t).size = 0 + t.size := by
    rw [size_eq_width hm, Slot.width, Scan.kinds_chars, Nat.zero_add]
  have hslice : (ofText t).slice 0 (ofText t).size = .ok t := by
    rw [hsize]
    exact (slice_of_liesAt hm ⟨[], [], by simp, rfl⟩).2
  have hnested : r.resolveNested (t.length + 1) t base Log.empty = .ok (t, Log.empty) := by
    rw [resolveNested]
    rw [bind_of_eq_ok (editsFrom_of_none hm hr hnone _ _ _)]
    exact bind_of_eq_ok hslice
  exact bind_of_eq_ok hnested

/-- A resolved text is the text with patches at its references. -/
theorem resolve_patches {r : Resolver} (hr : ∀ w ∈ r.receivers, w.isIdentifier)
    {t : Text} {base : Nat} {resolved : Resolved} (h : r.resolve t base = .ok resolved) :
    ∃ patches tail, t = Patch.before tail patches ∧ resolved.text = Patch.after tail patches ∧
      ∀ i p, Patch.At patches i p → r.Substitutes t i p.old p.new := by
  have hm := Scan.ofText_shows t
  have hnil := nil_not_mem_receivers hr
  have hnested : r.Handles t (r.resolveNested t.length) := fun u base log hu =>
    resolveNested_yields hnil hu base log
  obtain ⟨⟨text, log⟩, htext, h⟩ := bind_eq_ok h
  cases h
  obtain ⟨⟨edits, log'⟩, hedits, htext⟩ := bind_eq_ok htext
  obtain ⟨out, hout, htext⟩ := bind_eq_ok htext
  cases htext
  obtain ⟨hfit, -, -⟩ := (edits_yields hnil hnested base Log.empty).of_eq hedits
  obtain ⟨patches, tail, hbefore, hafter, hmem⟩ := Edit.splice_patches hm [] t (by simp) hfit hout
  refine ⟨patches, tail, hbefore, hafter, fun i p hat => ?_⟩
  obtain ⟨w, j, log₁, log₂, hw, hreference⟩ :=
    mem_editsFrom hm hnil hedits ((hmem _).mpr ⟨i, p, hat, rfl⟩)
  have hslice : (ofText t).slice (Text.size [] + i) (Text.size [] + i + p.old.size) =
      .ok p.old := by
    rw [Text.size_nil, Nat.zero_add]
    exact (slice_of_liesAt hm (by rw [Scan.kinds_chars]; exact hbefore ▸ hat.liesAt tail)).2
  obtain ⟨hstart, hsubstitutes⟩ := substitutes_of_reference hr hnested hw hreference hslice
  obtain rfl : i = j := by simpa using hstart
  exact hsubstitutes

/-- Resolving copies a text but for patches, each of which replaces a reference: a receiver with its
dot, a state read, or a call of `setState`.  Outside such calls only code is replaced.  A call goes
up to the bracket that matches its first one, and where brackets are matched by their own kind this
is a parenthesis.  A text without references stays as it is, and nothing is reported. -/
theorem only_references_replaced (r : Resolver) (hr : ∀ w ∈ r.receivers, w.isIdentifier = true)
    (t : Text) (base : Nat) :
    ∃ out warnings patches tail, r.resolve t base = .ok ⟨out, warnings⟩ ∧
      t = Patch.before tail patches ∧ out = Patch.after tail patches ∧
      (∀ i p, Patch.At patches i p → r.Substitutes t i p.old p.new) ∧
      (∀ i p, Patch.At patches i p → ∀ n < p.old.size, (ofText t).isCode (i + n) = false →
        r.CallsSetter t i p.old p.new) ∧
      ((ofText t).PairsKinds → ∀ i p, Patch.At patches i p → r.CallsSetter t i p.old p.new →
        p.old.getLast? = some ')') ∧
      ((∀ w i, ¬ r.RefersAt (ofText t) w i) → out = t ∧ warnings = []) := by
  have hnil := nil_not_mem_receivers hr
  obtain ⟨⟨out, warnings⟩, hresolve, -⟩ := resolve_yields hnil t base
  obtain ⟨patches, tail, hbefore, hafter, hsubstitutes⟩ := resolve_patches hr hresolve
  refine ⟨out, warnings, patches, tail, hresolve, hbefore, hafter, hsubstitutes,
    fun i p hat n hn hcode => ?_, fun hkinds i p _ hcall => hcall.ends hkinds, fun hnone => ?_⟩
  · rcases (hsubstitutes i p hat).code hr (hbefore ▸ hat.liesAt tail) with hall | hcall
    · rw [hall n hn] at hcode
      cases hcode
    · exact hcall
  · cases hresolve.symm.trans (resolve_of_none hnil hnone base)
    exact ⟨rfl, rfl⟩

/-- A call of `setState` in front of a comment. -/
def commentedCall : Text := "this.setState(\x7ba: -this.state.a\x7d) // this.a"

/-- The reference in the comment is not one, and the call goes up to its parenthesis. -/
theorem only_references_replaced_commented :
    (∀ w ∈ (["this"] : List Text), w.isIdentifier = true) ∧ (ofText commentedCall).PairsKinds ∧
      resolve ⟨["a"], [], ["this"]⟩ commentedCall 0 = .ok ⟨"setA(-a) // this.a", []⟩ ∧
      ∃ patches tail, Patch.before tail patches = commentedCall ∧
        Patch.after tail patches = "setA(-a) // this.a" ∧
        ∀ i p, Patch.At patches i p →
          Substitutes ⟨["a"], [], ["this"]⟩ commentedCall i p.old p.new ∧
          (CallsSetter ⟨["a"], [], ["this"]⟩ commentedCall i p.old p.new →
            p.old.getLast? = some ')') := by
  have hr : ∀ w ∈ (["this"] : List Text), w.isIdentifier = true := by decide
  have hkinds : (ofText commentedCall).PairsKinds := by decide +kernel
  have hresolve : resolve ⟨["a"], [], ["this"]⟩ commentedCall 0 =
      .ok ⟨"setA(-a) // this.a", []⟩ := by
    decide +kernel
  obtain ⟨out, warnings, patches, tail, hout, hbefore, hafter, hsubstitutes, -, hends, -⟩ :=
    only_references_replaced ⟨["a"], [], ["this"]⟩ hr commentedCall 0
  cases hout.symm.trans hresolve
  exact ⟨hr, hkinds, hresolve, patches, tail, hbefore.symm, hafter.symm, fun i p hat =>
    ⟨hsubstitutes i p hat, hends hkinds i p hat⟩⟩

/-- A bracket of another kind can close a call.  Whatever patches turn the one text into the other,
one of them replaces a text that ends with this bracket, or nothing at all; so it is neither a
receiver with its dot, nor a state read, nor a call up to a parenthesis. -/
theorem foreign_bracket_ends_call :
    resolve ⟨["a"], [], ["this"]⟩ "this.setState(\x7ba: 1\x7d]" 0 = .ok ⟨"setA(1)", []⟩ ∧
    ∀ patches tail, Patch.before tail patches = "this.setState(\x7ba: 1\x7d]" →
      Patch.after tail patches = "setA(1)" →
      ∃ p ∈ patches, p.old = [] ∨ p.old.getLast? = some ']' := by
  refine ⟨by decide +kernel, fun patches tail hbefore hafter => ?_⟩
  have hold := congrArg List.getLast? hbefore
  have hnew := congrArg List.getLast? hafter
  rcases List.eq_nil_or_concat' tail with rfl | ⟨front, c, rfl⟩
  · rcases List.eq_nil_or_concat' patches with rfl | ⟨front, p, rfl⟩
    · cases hbefore
    · refine ⟨p, by simp, ?_⟩
      rcases List.eq_nil_or_concat' p.old with hnil | ⟨front', c, hlast⟩
      · exact .inl hnil
      · rw [Patch.before, List.append_nil, List.flatMap_append, List.flatMap_singleton, hlast,
          ← List.append_assoc, ← List.append_assoc, List.getLast?_concat] at hold
        rw [hlast, List.getLast?_concat, hold]
        exact .inr rfl
  · -- What lies behind the patches would have to end in both ways.
    rw [Patch.before, ← List.append_assoc, List.getLast?_concat] at hold
    rw [Patch.after, ← List.append_assoc, List.getLast?_concat, hold] at hnew
    cases hnew

end Resolver

end Declass
