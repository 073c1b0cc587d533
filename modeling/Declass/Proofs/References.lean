import Declass.Proofs.Matches
import Declass.Proofs.StateEntries
import Declass.Reference

/-!
# What resolving references does

**Input.** A resolver, none of whose receivers is empty, and a text.

**Results.** `resolve_yields`: resolving never fails, and the new text `Rewrites` the old one.  That
is, it is the old text with a list of disjoint ranges replaced.  Each of the ranges starts at a
reference, every reference lies in one of them, and what replaces the range is the name of a state
entry, a call of a setter whose argument rewrites a part of the range, or nothing.

A `Patch` is a piece of text that is kept, followed by a piece that is replaced.  A text is taken
apart into patches and a tail, so that the pieces that are replaced come one behind the other and
everything between them is copied.  `references_replaced` says that resolving makes patches, and
which references lie in them.

`stripDestructuring_yields` is the same for blanking out declarations, which never fails either.
-/

namespace Declass

open CodeMap

namespace Edit

/-- The edits lie behind `pos`, one behind the other, each in a range of whole characters. -/
def Fit (m : CodeMap) : Nat → List Edit → Prop
  | pos, [] => m.isBoundary pos = true
  | pos, e :: edits =>
    m.Whole pos e.range.start ∧ m.Whole e.range.start e.range.stop ∧ Fit m e.range.stop edits

/-- Edits that fit can be made. -/
theorem splice_yields {m : CodeMap} {ps : Painted} (hm : m.Shows ps) {edits : List Edit}
    {pos : Nat} (h : Fit m pos edits) : Yields (splice m pos edits) fun _ => True := by
  induction edits generalizing pos with
  | nil =>
    have hw : m.Whole pos m.size := ⟨isBoundary_le hm h, h, isBoundary_size hm⟩
    exact (slice_yields hm hw).mono fun _ _ => trivial
  | cons e edits ih =>
    obtain ⟨hkept, -, hrest⟩ := h
    refine (slice_yields hm hkept).bind fun kept _ => ?_
    exact (ih hrest).bind fun rest _ => .ok trivial

end Edit

/-- Text that is kept, and behind it text that is replaced by other text. -/
structure Patch where
  kept : Text
  old : Text
  new : Text
  deriving DecidableEq, Repr

namespace Patch

/-- The text before the patches are made, with `tail` behind the last of them. -/
def before (tail : Text) (patches : List Patch) : Text :=
  patches.flatMap (fun p => p.kept ++ p.old) ++ tail

/-- The text after the patches are made. -/
def after (tail : Text) (patches : List Patch) : Text :=
  patches.flatMap (fun p => p.kept ++ p.new) ++ tail

/-- The text that the patch replaces starts at byte `i`. -/
def At (patches : List Patch) (i : Nat) (p : Patch) : Prop :=
  ∃ pre post, patches = pre ++ p :: post ∧ (before p.kept pre).size = i

theorem before_cons (tail : Text) (p : Patch) (patches : List Patch) :
    before tail (p :: patches) = p.kept ++ p.old ++ before tail patches := by
  simp [before]

theorem after_cons (tail : Text) (p : Patch) (patches : List Patch) :
    after tail (p :: patches) = p.kept ++ p.new ++ after tail patches := by
  simp [after]

theorem at_cons {p q : Patch} {patches : List Patch} {i : Nat} : At (q :: patches) i p ↔
    (p = q ∧ i = q.kept.size) ∨ ∃ j, At patches j p ∧ i = (q.kept ++ q.old).size + j := by
  constructor
  · rintro ⟨pre, post, hpatches, rfl⟩
    cases pre with
    | nil =>
      obtain ⟨rfl, rfl⟩ := List.cons.inj hpatches
      exact .inl ⟨rfl, rfl⟩
    | cons q' pre =>
      obtain ⟨rfl, rfl⟩ := List.cons.inj hpatches
      refine .inr ⟨_, ⟨pre, post, rfl, rfl⟩, ?_⟩
      rw [before_cons, Text.size_append]
  · rintro (⟨rfl, rfl⟩ | ⟨j, ⟨pre, post, rfl, rfl⟩, rfl⟩)
    · exact ⟨[], patches, rfl, rfl⟩
    · exact ⟨q :: pre, post, rfl, by rw [before_cons, Text.size_append]⟩

theorem At.liesAt {p : Patch} {patches : List Patch} {i : Nat} (h : At patches i p) (tail : Text) :
    Text.LiesAt (before tail patches) i p.old := by
  obtain ⟨pre, post, rfl, rfl⟩ := h
  exact ⟨before p.kept pre, before tail post, by simp [before], rfl⟩

end Patch

/-- Edits that fit are the patches of the text. -/
theorem Edit.splice_patches {m : CodeMap} {ps : Painted} (hm : m.Shows ps)
    {edits : List Edit} (lead rest : Text) {out : Text} (hchars : ps.map Prod.fst = lead ++ rest)
    (hfit : Fit m lead.size edits) (h : splice m lead.size edits = .ok out) :
    ∃ patches tail, rest = Patch.before tail patches ∧ out = Patch.after tail patches ∧
      ∀ e, e ∈ edits ↔ ∃ i p, Patch.At patches i p ∧
        e = ⟨⟨lead.size + i, lead.size + i + p.old.size⟩, p.new⟩ := by
  induction edits generalizing lead rest out with
  | nil =>
    have hlies : Text.LiesAt (ps.map Prod.fst) lead.size rest := ⟨lead, [], by simp [hchars], rfl⟩
    have hsize : m.size = lead.size + rest.size := by
      rw [size_eq_width hm, Slot.width, hchars, Text.size_append]
    rw [splice, hsize, (slice_of_liesAt hm hlies).2] at h
    obtain rfl := Except.ok.inj h
    exact ⟨[], rest, rfl, rfl, by simp [Patch.At]⟩
  | cons e edits ih =>
    obtain ⟨hkept, hold, hrest⟩ := hfit
    obtain ⟨kept, hslice, h⟩ := bind_eq_ok h
    obtain ⟨out', hout, h⟩ := bind_eq_ok h
    obtain rfl := Except.ok.inj h
    -- The kept text and the range of the edit lie next to each other behind `lead`.
    obtain ⟨⟨pre, post, hpre, hpos⟩, hstart⟩ := (slice_yields hm hkept).of_eq hslice
    rw [hchars, List.append_assoc] at hpre
    obtain ⟨rfl, rfl⟩ := Text.append_inj_of_size hpre hpos.symm
    obtain ⟨old, -, ⟨pre', post', hpre', hpos'⟩, hstop⟩ := slice_yields hm hold
    rw [hchars, ← List.append_assoc, List.append_assoc pre'] at hpre'
    have hlead : (lead ++ kept).size = pre'.size := by
      rw [Text.size_append, hstart, hpos']
    obtain ⟨rfl, rfl⟩ := Text.append_inj_of_size hpre' hlead
    have hnext : (lead ++ kept ++ old).size = e.range.stop := by
      rw [Text.size_append, hpos', hstop]
    obtain ⟨patches, tail, rfl, rfl, hedits⟩ := ih (lead ++ kept ++ old) post'
      (by rw [hchars]; simp) (hnext ▸ hrest) (hnext ▸ hout)
    have hhere : e = ⟨⟨lead.size + kept.size, lead.size + kept.size + old.size⟩, e.text⟩ := by
      rw [hstart, hstop]
    have hmoved : ∀ i, (lead ++ kept ++ old).size + i = lead.size + ((kept ++ old).size + i) := by
      intro i
      rw [List.append_assoc, Text.size_append, Nat.add_assoc]
    refine ⟨⟨kept, old, e.text⟩ :: patches, tail, ?_, ?_, fun e' => ?_⟩
    · rw [Patch.before_cons, List.append_assoc]
    · rw [Patch.after_cons]
    · rw [List.mem_cons, hedits]
      constructor
      · rintro (rfl | ⟨i, p, hat, rfl⟩)
        · exact ⟨_, _, Patch.at_cons.mpr (.inl ⟨rfl, rfl⟩), hhere⟩
        · exact ⟨_, p, Patch.at_cons.mpr (.inr ⟨i, hat, rfl⟩), by rw [hmoved]⟩
      · rintro ⟨i, p, hat, rfl⟩
        rcases Patch.at_cons.mp hat with ⟨rfl, rfl⟩ | ⟨j, hbehind, rfl⟩
        · exact .inl hhere.symm
        · exact .inr ⟨j, p, hbehind, by rw [hmoved]⟩

/-- Whether the word stands at the position as a whole word before a single dot. -/
def CodeMap.refers (m : CodeMap) (i : Nat) (w : Text) : Bool :=
  m.stands i w && m.isCodeChar (i + w.size) '.' && !m.isCodeChar (i + w.size + 1) '.'

/-- The word stands at the position in code, no identifier character comes before it, and a single
dot follows it.  There may be dots before it. -/
structure CodeMap.BeforeDot (m : CodeMap) (w : Text) (i : Nat) : Prop where
  code : m.isCode i = true
  spells : m.spells (w ++ ['.']) i = true
  single : m.charAt? (i + w.size + 1) ≠ some '.'
  fresh : ∀ c, m.charBefore? i = some c → Character.isIdentPart c = false

section BeforeDot

variable {t w : Text} {i : Nat}

/-- An identifier before a single dot is referred to if there is no dot before it. -/
theorem CodeMap.BeforeDot.refers (h : (ofText t).BeforeDot w i)
    (hw : w.isIdentifier) (hdot : (ofText t).charBefore? i ≠ some '.') :
    (ofText t).refers i w := by
  have hall := all_isPlainChar_of_isIdentifier hw
  have hspells := h.spells
  rw [spells_append, Bool.and_eq_true] at hspells
  have hcode : (ofText t).isCodeChar (i + w.size) '.' :=
    isCodeChar_of_spells (by rw [List.all_append, hall]; rfl) h.code h.spells
  have hbefore : ((ofText t).charBefore? i).all
      (fun c => !Character.isIdentPart c && c != '.') := by
    cases hc : (ofText t).charBefore? i with
    | none => rfl
    | some c =>
      have hne : c ≠ '.' := fun heq => hdot (heq ▸ hc)
      simp [h.fresh c hc, hne]
  have hafter : (ofText t).isCodeChar (i + w.size + 1) '.' = false := by
    by_contra hsecond
    exact h.single (isCodeChar_charAt? (by simpa using hsecond))
  have hnoIdent : Character.isIdentPart '.' = false := rfl
  simp [CodeMap.refers, stands, hspells.1, hbefore, isCodeChar_charAt? hcode, hcode, hafter,
    hnoIdent]

end BeforeDot

namespace Resolver

/-- The receiver that the code at the position refers to. -/
def referent? (r : Resolver) (m : CodeMap) (i : Nat) : Option Text :=
  if m.isCode i then r.receivers.find? (m.refers i) else none

/-- Behind the receiver `w` at position `i`, the state entry `n` is read. -/
structure ReadsAt (r : Resolver) (m : CodeMap) (w : Text) (i : Nat) (n : Text) : Prop where
  memberEnd : m.identEnd (i + w.size + 1) = .ok (i + w.size + 6)
  member : m.slice (i + w.size + 1) (i + w.size + 6) = .ok "state"
  dot : m.isCodeChar (i + w.size + 6) '.' = true
  nameEnd : m.identEnd (i + w.size + 7) = .ok (i + w.size + 7 + n.size)
  name : m.slice (i + w.size + 7) (i + w.size + 7 + n.size) = .ok n
  isState : r.isState n = true

/-- Behind the receiver `w` at position `i`, the state entry `key` is set to what stands in the
range `value`, with a call that ends at `stop`. -/
structure SetsAt (r : Resolver) (m : CodeMap) (w : Text) (i : Nat) (key : Text) (value : Span)
    (stop : Nat) : Prop where
  memberEnd : m.identEnd (i + w.size + 1) = .ok (i + w.size + 9)
  member : m.slice (i + w.size + 1) (i + w.size + 9) = .ok "setState"
  field : r.setterField? m (m.skipTrivia (i + w.size + 9) m.size) = .ok (some (key, value, stop))

/-- Of the places where a receiver stands before a single dot, the edits take in those that come
behind no dot, and those that lie inside an edit that starts earlier. -/
def Covers (r : Resolver) (m : CodeMap) (edits : List Edit) : Prop :=
  ∀ w ∈ r.receivers, w.isIdentifier = true → ∀ i, m.BeforeDot w i →
    ((∃ e ∈ edits, e.range.start ≤ i ∧ i < e.range.stop) ↔
      m.charBefore? i ≠ some '.' ∨ ∃ e ∈ edits, e.range.start < i ∧ i < e.range.stop)

mutual

/-- The second text is the first one with its references resolved. -/
inductive Rewrites (r : Resolver) : Text → Text → Prop
  | edits {t out : Text} {edits : List Edit} (fit : Edit.Fit (ofText t) 0 edits)
      (covers : r.Covers (ofText t) edits) (replaces : ∀ e ∈ edits, Replaces r t e)
      (result : Edit.splice (ofText t) 0 edits = .ok out) : Rewrites r t out

/-- The edit resolves the reference at which its range starts. -/
inductive Replaces (r : Resolver) : Text → Edit → Prop
  | read {t w n : Text} {i : Nat} (hw : r.referent? (ofText t) i = some w)
      (h : r.ReadsAt (ofText t) w i n) : Replaces r t ⟨⟨i, i + w.size + 7 + n.size⟩, n⟩
  | set {t w key text arg : Text} {i stop : Nat} {value : Span}
      (hw : r.referent? (ofText t) i = some w)
      (h : r.SetsAt (ofText t) w i key value stop)
      (htext : (ofText t).slice value.start value.stop = .ok text)
      (harg : Rewrites r text.trim arg) :
      Replaces r t ⟨⟨i, stop⟩, setterName key ++ "(" ++ arg ++ ")"⟩
  | drop {t w : Text} {i : Nat} (hw : r.referent? (ofText t) i = some w)
      (h : ∀ n, ¬ r.ReadsAt (ofText t) w i n) : Replaces r t ⟨⟨i, i + w.size + 1⟩, []⟩

end

section Receivers

variable {r : Resolver} {m : CodeMap} {ps : Painted} (hm : m.Shows ps)
include hm

theorem firstReceiver?_eq {i : Nat} {ws : List Text} (h : [] ∉ ws) :
    firstReceiver? m i ws = .ok (ws.find? (m.refers i)) := by
  induction ws with
  | nil => rfl
  | cons w ws ih =>
    have hw : w ≠ [] := fun hnil => h (by simp [hnil])
    rw [firstReceiver?, wordAt_eq hm hw, List.find?_cons]
    change (if m.refers i w then _ else _) = _
    cases hrefers : m.refers i w with
    | true => rfl
    | false => exact ih fun hnil => h (by simp [hnil])

theorem receiverAt?_eq (hr : [] ∉ r.receivers) (i : Nat) :
    r.receiverAt? m i = .ok (r.referent? m i) := by
  unfold receiverAt? referent?
  split
  · exact firstReceiver?_eq hm hr
  · rfl

end Receivers

variable {r : Resolver}

theorem referent?_spec {m : CodeMap} {i : Nat} {w : Text} (h : r.referent? m i = some w) :
    w ∈ r.receivers ∧ m.isCode i ∧ m.stands i w ∧
      m.isCodeChar (i + w.size) '.' ∧ m.isCodeChar (i + w.size + 1) '.' = false := by
  unfold referent? at h
  split at h
  · rename_i hcode
    have hrefers := List.find?_some h
    simp only [refers, Bool.and_eq_true, Bool.not_eq_true'] at hrefers
    exact ⟨List.mem_of_find?_eq_some h, hcode, hrefers.1.1, hrefers.1.2, hrefers.2⟩
  · cases h

theorem Replaces.referent {t : Text} {e : Edit} (h : r.Replaces t e) :
    ∃ w, r.referent? (ofText t) e.range.start = some w := by
  cases h with
  | read hw _ => exact ⟨_, hw⟩
  | set hw _ _ _ => exact ⟨_, hw⟩
  | drop hw _ => exact ⟨_, hw⟩

theorem referent?_of_dot {m : CodeMap} {i : Nat} (h : m.charBefore? i = some '.') :
    r.referent? m i = none := by
  cases hw : r.referent? m i with
  | none => rfl
  | some w =>
    obtain ⟨-, -, hstands, -, -⟩ := referent?_spec hw
    simp [stands, h] at hstands

/-- Edits that start at references and leave none out cover what they should. -/
theorem covers_of_edits {t : Text} {edits : List Edit} (hedits : ∀ e ∈ edits, r.Replaces t e)
    (hall : ∀ i w, r.referent? (ofText t) i = some w →
      ∃ e ∈ edits, e.range.start ≤ i ∧ i < e.range.stop) : r.Covers (ofText t) edits := by
  intro w hmem hw i hi
  constructor
  · rintro ⟨e, he, hle, hlt⟩
    by_cases hdot : (ofText t).charBefore? i = some '.'
    · obtain ⟨w', hw'⟩ := (hedits e he).referent
      have hne : e.range.start ≠ i := fun heq => by
        rw [heq, referent?_of_dot hdot] at hw'
        cases hw'
      exact .inr ⟨e, he, by omega, hlt⟩
    · exact .inl hdot
  · rintro (hdot | ⟨e, he, hlt, hlt'⟩)
    · have hsome : (r.receivers.find? ((ofText t).refers i)).isSome := by
        rw [List.find?_isSome]
        exact ⟨w, hmem, hi.refers hw hdot⟩
      obtain ⟨w', hw'⟩ := Option.isSome_iff_exists.mp hsome
      refine hall i w' ?_
      rw [referent?, if_pos hi.code, hw']
    · exact ⟨e, he, le_of_lt hlt, hlt'⟩

section Setters

variable {r : Resolver} {m : CodeMap} {ps : Painted} (hm : m.Shows ps)
include hm

theorem singleField?_yields {start stop : Nat} (hw : m.Whole start stop) :
    Yields (singleField? m start stop) fun found => ∀ key value, found = some (key, value) →
      m.Whole value.start value.stop ∧ start ≤ value.start ∧ value.stop ≤ stop := by
  have hparts : ∀ part ∈ m.splitTop start stop ',',
      m.Whole part.start part.stop ∧ start ≤ part.start ∧ part.stop ≤ stop := fun part hpart =>
    splitTop_whole hm hw rfl hpart
  have hslices : ∀ part ∈ m.splitTop start stop ',', Yields (do
      return !(← m.slice part.start part.stop).isBlank : Except Fault Bool) fun _ => True :=
    fun part hpart => (slice_yields hm (hparts part hpart).1).bind fun _ _ => .ok trivial
  refine (Yields.filterM hslices).bind fun fields hfields => ?_
  split
  · rename_i field
    obtain ⟨hfield, hle, hle'⟩ := hparts field (hfields field (by simp)).1
    split
    · rename_i colon hcolon
      obtain ⟨h1, h2, h3⟩ := findTop_spec hcolon
      obtain ⟨hb, hb'⟩ := codeChar_boundary hm h3 rfl
      refine (slice_yields hm ⟨h1, hfield.left, hb⟩).bind fun _ _ => ?_
      refine .ok fun key value h => ?_
      cases h
      exact ⟨⟨h2, hb', hfield.right⟩, by dsimp only; omega, hle'⟩
    · refine (slice_yields hm hfield).bind fun _ _ => ?_
      refine .ok fun key value h => ?_
      cases h
      exact ⟨hfield, hle, hle'⟩
  · exact .ok (by simp)

/-- Reading the arguments of a setter call never fails.  The field is a state entry, and its value
lies between the brackets of the call. -/
theorem setterField?_yields (opening : Nat) :
    Yields (r.setterField? m opening) fun found => ∀ key value stop,
      found = some (key, value, stop) → m.Whole value.start value.stop ∧ opening < value.start ∧
        r.isState key ∧
        ∃ close, m.matching opening = some close ∧ value.stop ≤ close ∧ stop = close + 1 := by
  unfold setterField?
  cases hclose : m.matching opening with
  | none => exact .ok (by simp)
  | some close =>
    refine (slice_yields hm (matching_whole hm hclose)).bind fun args hargs => ?_
    dsimp only
    split
    · exact .ok (by simp)
    cases hliteral : m.matching (Text.trimmedSpan (opening + 1) args).start with
    | none => exact .ok (by simp)
    | some literalEnd =>
      dsimp only
      split
      · exact .ok (by simp)
      rename_i hend
      have hend : literalEnd = (Text.trimmedSpan (opening + 1) args).stop - 1 := by
        simp only [bne_iff_ne, ne_eq, Decidable.not_not] at hend
        omega
      rw [← hend]
      refine (singleField?_yields hm (matching_whole hm hliteral)).bind fun found hfound => ?_
      cases found with
      | none => exact .ok (by simp)
      | some field =>
        obtain ⟨key, value⟩ := field
        obtain ⟨hvalue, hle, hle'⟩ := hfound key value rfl
        have hargsStart : opening + 1 ≤ (Text.trimmedSpan (opening + 1) args).start :=
          Nat.le_add_right _ _
        have hargsStop : (Text.trimmedSpan (opening + 1) args).stop ≤ close := by
          have := (Text.trimmedSpan_le args (opening + 1)).2
          omega
        dsimp only
        split
        · exact .ok (by simp)
        · rename_i hkey
          refine .ok fun key' value' stop h => ?_
          cases h
          simp only [Bool.not_eq_true', Bool.not_eq_false, Bool.and_eq_true] at hkey
          exact ⟨hvalue, by omega, hkey.2, close, rfl, by omega, rfl⟩

end Setters

theorem Log.warn_yields (log : Log) (notice : Notice) {start stop : Nat} (h : start ≤ stop) :
    Yields (log.warn notice start stop) fun _ => True := by
  exact (Warning.about_yields notice h).bind fun _ _ => .ok trivial

theorem Log.flatten_yields (log : Log) (receiver member : Text) {start stop : Nat}
    (h : start ≤ stop) : Yields (log.flatten receiver member start stop) fun _ => True := by
  unfold Log.flatten
  split
  · exact .ok trivial
  · exact (log.warn_yields _ h).bind fun _ _ => .ok trivial

section References

variable {r : Resolver} {t : Text} {nested : Nested} {m : CodeMap} {log : Log} {w : Text} {i : Nat}

/-- Whether the member is there without the instance: the properties, a method, or something that is
called. -/
def isLocal (r : Resolver) (m : CodeMap) (member : Text) (memberEnd : Nat) : Bool :=
  member == "props" || member.isEmpty || m.isCodeChar (m.skipTrivia memberEnd m.size) '('
    || r.methods.contains member

/-- Where the report about a call of `setState` ends whose member ends at `memberEnd`. -/
def callEnd (m : CodeMap) (memberEnd : Nat) : Nat :=
  match m.matching (m.skipTrivia memberEnd m.size) with
  | some close => close + 1
  | none => memberEnd

/-- What resolving the reference to `w` at position `i` can come to: the edit, and the log after
it. -/
inductive ResolvesTo (r : Resolver) (nested : Nested) (m : CodeMap) (base : Nat) (w : Text) (i : Nat)
    (log : Log) : Edit → Log → Prop
  | read {n : Text} (h : r.ReadsAt m w i n) :
      ResolvesTo r nested m base w i log ⟨⟨i, i + w.size + 7 + n.size⟩, n⟩ log
  | set {key text arg : Text} {value : Span} {stop : Nat} {log' : Log}
      (h : r.SetsAt m w i key value stop) (htext : m.slice value.start value.stop = .ok text)
      (harg : nested text.trim (base + (text.trimmedSpan value.start).start) log = .ok (arg, log')) :
      ResolvesTo r nested m base w i log ⟨⟨i, stop⟩, setterName key ++ "(" ++ arg ++ ")"⟩ log'
  | kept {log' : Log} (hend : m.identEnd (i + w.size + 1) = .ok (i + w.size + 9))
      (hmember : m.slice (i + w.size + 1) (i + w.size + 9) = .ok "setState")
      (hfield : m.isCodeChar (m.skipTrivia (i + w.size + 9) m.size) '(' = true →
        r.setterField? m (m.skipTrivia (i + w.size + 9) m.size) = .ok none)
      (hlog : log.warn (.setStateKept w) (base + i) (base + callEnd m (i + w.size + 9)) = .ok log') :
      ResolvesTo r nested m base w i log ⟨⟨i, i + w.size + 1⟩, []⟩ log'
  | flattened {member : Text} {memberEnd : Nat} {log' : Log}
      (hend : m.identEnd (i + w.size + 1) = .ok memberEnd)
      (hmember : m.slice (i + w.size + 1) memberEnd = .ok member) (hset : member ≠ "setState")
      (hread : ∀ n, ¬ r.ReadsAt m w i n)
      (hlocal : member = "state" ∨ r.isLocal m member memberEnd = false)
      (hlog : log.flatten w member (base + i) (base + memberEnd) = .ok log') :
      ResolvesTo r nested m base w i log ⟨⟨i, i + w.size + 1⟩, []⟩ log'
  | bare {member : Text} {memberEnd : Nat} (hend : m.identEnd (i + w.size + 1) = .ok memberEnd)
      (hmember : m.slice (i + w.size + 1) memberEnd = .ok member) (hset : member ≠ "setState")
      (hstate : member ≠ "state") (hlocal : r.isLocal m member memberEnd = true) :
      ResolvesTo r nested m base w i log ⟨⟨i, i + w.size + 1⟩, []⟩ log

theorem setterCall?_cases {opening base : Nat} {found : Option (Text × Nat × Log)}
    (h : r.setterCall? nested m opening base log = .ok found) :
    (found = none ∧ r.setterField? m opening = .ok none) ∨
      ∃ key value stop text arg log', r.setterField? m opening = .ok (some (key, value, stop)) ∧
        m.slice value.start value.stop = .ok text ∧
        nested text.trim (base + (text.trimmedSpan value.start).start) log = .ok (arg, log') ∧
        found = some (setterName key ++ "(" ++ arg ++ ")", stop, log') := by
  obtain ⟨field, hfield, h⟩ := bind_eq_ok h
  cases field with
  | none =>
    cases h
    exact .inl ⟨rfl, hfield⟩
  | some field =>
    obtain ⟨key, value, stop⟩ := field
    obtain ⟨text, htext, h⟩ := bind_eq_ok h
    obtain ⟨⟨arg, log'⟩, harg, h⟩ := bind_eq_ok h
    cases h
    exact .inr ⟨key, value, stop, text, arg, log', hfield, htext, harg, rfl⟩

theorem not_readsAt {member : Text} {memberEnd : Nat}
    (hend : m.identEnd (i + w.size + 1) = .ok memberEnd)
    (hmember : m.slice (i + w.size + 1) memberEnd = .ok member) (hne : member ≠ "state") (n : Text) :
    ¬ r.ReadsAt m w i n := by
  intro h
  have hends := Except.ok.inj (hend.symm.trans h.memberEnd)
  rw [hends] at hmember
  exact hne (Except.ok.inj (hmember.symm.trans h.member))

/-- The cases of resolving a reference, by the member behind the receiver. -/
theorem reference_cases {ps : Painted} (hm : m.Shows ps) {base : Nat} {log' : Log}
    {e : Edit} (h : r.reference nested m base w i log = .ok (e, log')) :
    r.ResolvesTo nested m base w i log e log' := by
  obtain ⟨memberEnd, hend, h⟩ := bind_eq_ok h
  obtain ⟨member, hmember, h⟩ := bind_eq_ok h
  have hsize := (whole_of_slice hm hmember).2
  dsimp only at h
  split at h
  · rename_i hstate
    obtain rfl : member = "state" := by simpa using hstate
    obtain rfl : i + w.size + 6 = memberEnd := hsize
    have hflatten : (∀ n, ¬ r.ReadsAt m w i n) → (do
        return (⟨⟨i, i + w.size + 1⟩, []⟩,
          ← log.flatten w "state" (base + i) (base + (i + w.size + 6))) :
          Except Fault (Edit × Log)) = .ok (e, log') →
        r.ResolvesTo nested m base w i log e log' := by
      intro hread h
      obtain ⟨log'', hlog, h⟩ := bind_eq_ok h
      cases h
      exact .flattened hend hmember (by decide) hread (.inl rfl) hlog
    split at h
    · rename_i hdot
      obtain ⟨nameEnd, hnameEnd, h⟩ := bind_eq_ok h
      obtain ⟨name, hname, h⟩ := bind_eq_ok h
      obtain rfl : i + w.size + 7 + name.size = nameEnd := (whole_of_slice hm hname).2
      split at h
      · rename_i hisState
        cases h
        exact .read ⟨hend, hmember, hdot, hnameEnd, hname, hisState⟩
      · rename_i hnotState
        refine hflatten (fun n hread => hnotState ?_) h
        have hends := Except.ok.inj (hnameEnd.symm.trans hread.nameEnd)
        rw [hends] at hname
        rw [Except.ok.inj (hname.symm.trans hread.name)]
        exact hread.isState
    · rename_i hnoDot
      exact hflatten (fun n hread => hnoDot hread.dot) h
  rename_i hstate
  have hstate : member ≠ "state" := by simpa using hstate
  split at h
  · rename_i hset
    obtain rfl : member = "setState" := by simpa using hset
    obtain rfl : i + w.size + 9 = memberEnd := hsize
    have hkept : (m.isCodeChar (m.skipTrivia (i + w.size + 9) m.size) '(' →
        r.setterField? m (m.skipTrivia (i + w.size + 9) m.size) = .ok none) → (do
        return (⟨⟨i, i + w.size + 1⟩, []⟩,
          ← log.warn (.setStateKept w) (base + i) (base + callEnd m (i + w.size + 9))) :
          Except Fault (Edit × Log)) = .ok (e, log') →
        r.ResolvesTo nested m base w i log e log' := by
      intro hfield h
      obtain ⟨log'', hlog, h⟩ := bind_eq_ok h
      cases h
      exact .kept hend hmember hfield hlog
    split at h
    · obtain ⟨found, hfound, h⟩ := bind_eq_ok h
      rcases setterCall?_cases hfound with ⟨rfl, hfield⟩ | ⟨key, value, stop, text, arg, log'',
        hfield, htext, harg, rfl⟩
      · exact hkept (fun _ => hfield) h
      · cases h
        exact .set ⟨hend, hmember, hfield⟩ htext harg
    · rename_i hopening
      exact hkept (fun hparen => absurd hparen hopening) h
  rename_i hset
  have hset : member ≠ "setState" := by simpa using hset
  split at h
  · rename_i hprops
    cases h
    refine .bare hend hmember hset hstate ?_
    rw [isLocal, Bool.or_assoc, hprops, Bool.true_or]
  rename_i hprops
  split at h
  · rename_i hcall
    cases h
    refine .bare hend hmember hset hstate ?_
    rw [isLocal, Bool.or_assoc, hcall, Bool.or_true]
  · rename_i hcall
    obtain ⟨log'', hlog, h⟩ := bind_eq_ok h
    cases h
    refine .flattened hend hmember hset (not_readsAt hend hmember hstate) (.inr ?_) hlog
    rw [isLocal, Bool.or_assoc]
    simp only [hprops, hcall, Bool.or_self]

/-- The nested resolver handles the texts that are shorter than `t`. -/
def Handles (r : Resolver) (t : Text) (nested : Nested) : Prop :=
  ∀ u base log, u.length < t.length → Yields (nested u base log) fun p => r.Rewrites u p.1

/-- What replaces the reference at `i`. -/
structure ReplacesAt (r : Resolver) (t : Text) (i : Nat) (e : Edit) : Prop where
  start : e.range.start = i
  lt : i < e.range.stop
  boundary : (ofText t).isBoundary e.range.stop = true
  replaces : r.Replaces t e

theorem length_lt_of_liesAt {u : Text} (h : Text.LiesAt t i u) (hi : 0 < i) :
    u.length < t.length := by
  obtain ⟨pre, post, rfl, rfl⟩ := h
  cases pre with
  | nil => simp at hi
  | cons c pre =>
    simp only [List.cons_append, List.length_cons, List.length_append]
    omega

/-- The value of a setter call is shorter than the text it stands in. -/
theorem setterField?_shorter {opening stop : Nat} {key : Text} {value : Span} {text : Text}
    (hfield : r.setterField? (ofText t) opening = .ok (some (key, value, stop)))
    (htext : (ofText t).slice value.start value.stop = .ok text) :
    text.trim.length < t.length := by
  have hm := Scan.ofText_shows t
  obtain ⟨hvalue, hlt, -⟩ := (setterField?_yields hm opening).of_eq hfield key value stop rfl
  obtain ⟨hlies, -⟩ := (slice_yields hm hvalue).of_eq htext
  rw [Scan.kinds_chars] at hlies
  exact lt_of_le_of_lt (Text.trim_infix text).length_le (length_lt_of_liesAt hlies (by omega))

theorem setterCall?_total (hnested : r.Handles t nested) (opening base : Nat) (log : Log) :
    Yields (r.setterCall? nested (ofText t) opening base log) fun _ => True := by
  have hm := Scan.ofText_shows t
  obtain ⟨found, hfield, hfound⟩ := setterField?_yields (r := r) hm opening
  unfold setterCall?
  rw [hfield]
  cases found with
  | none => exact .ok trivial
  | some field =>
    obtain ⟨key, value, stop⟩ := field
    obtain ⟨text, htext, -⟩ := slice_yields hm (hfound key value stop rfl).1
    change Yields ((ofText t).slice value.start value.stop >>= _) _
    rw [htext]
    exact (hnested _ _ _ (setterField?_shorter hfield htext)).bind fun _ _ => .ok trivial

theorem le_callEnd (m : CodeMap) (memberEnd : Nat) : memberEnd ≤ callEnd m memberEnd := by
  unfold callEnd
  split
  · rename_i close hclose
    have := (matching_spec hclose).2.2.1
    have := le_skipTrivia m memberEnd m.size
    omega
  · exact le_refl _

theorem reference_total (hnested : r.Handles t nested)
    (hw : r.referent? (ofText t) i = some w) (base : Nat) (log : Log) :
    Yields (r.reference nested (ofText t) base w i log) fun _ => True := by
  have hm := Scan.ofText_shows t
  obtain ⟨-, -, -, hdot, -⟩ := referent?_spec hw
  refine (identEnd_yields hm (codeChar_boundary hm hdot rfl).2).bind fun memberEnd hwhole => ?_
  refine (slice_yields hm hwhole.1).bind fun member _ => ?_
  have hflatten : Yields (do
      return (⟨⟨i, i + w.size + 1⟩, []⟩, ← log.flatten w member (base + i) (base + memberEnd)) :
        Except Fault (Edit × Log)) fun _ => True :=
    (log.flatten_yields _ _ (by omega)).bind fun _ _ => .ok trivial
  have hkept : Yields (do
      return (⟨⟨i, i + w.size + 1⟩, []⟩,
        ← log.warn (.setStateKept w) (base + i) (base + callEnd (ofText t) memberEnd)) :
        Except Fault (Edit × Log)) fun _ => True := by
    have := le_callEnd (ofText t) memberEnd
    exact (log.warn_yields _ (by omega)).bind fun _ _ => .ok trivial
  dsimp only
  split
  · split
    · rename_i hname
      refine (identEnd_yields hm (codeChar_boundary hm hname rfl).2).bind fun nameEnd hwhole => ?_
      refine (slice_yields hm hwhole.1).bind fun name _ => ?_
      split
      · exact .ok trivial
      · exact hflatten
    · exact hflatten
  split
  · split
    · refine (setterCall?_total hnested _ base log).bind fun found _ => ?_
      cases found with
      | none => exact hkept
      | some call => exact .ok trivial
    · exact hkept
  split
  · exact .ok trivial
  split
  · exact .ok trivial
  · exact hflatten

/-- Resolving one reference never fails, and gives an edit that replaces it. -/
theorem reference_yields (hnested : r.Handles t nested)
    (hw : r.referent? (ofText t) i = some w) (base : Nat) (log : Log) :
    Yields (r.reference nested (ofText t) base w i log) fun p =>
      r.ReplacesAt t i p.1 := by
  have hm := Scan.ofText_shows t
  obtain ⟨-, -, -, hdot, -⟩ := referent?_spec hw
  have hb := (codeChar_boundary hm hdot rfl).2
  have hbare : (∀ n, ¬ r.ReadsAt (ofText t) w i n) →
      r.ReplacesAt t i ⟨⟨i, i + w.size + 1⟩, []⟩ := fun h =>
    ⟨rfl, by dsimp only; omega, hb, .drop hw h⟩
  obtain ⟨⟨e, log'⟩, hreference, -⟩ := reference_total hnested hw base log
  refine ⟨_, hreference, ?_⟩
  cases reference_cases hm hreference with
  | @read n h =>
    exact ⟨rfl, by dsimp only; omega, (whole_of_slice hm h.name).1.right, .read hw h⟩
  | @set key text arg value stop log' h htext harg =>
    obtain ⟨-, -, -, close, hclose, -, rfl⟩ :=
      (setterField?_yields hm _).of_eq h.field key value stop rfl
    obtain ⟨-, hcloses, hlt, -⟩ := matching_spec hclose
    have hrewrites := (hnested _ _ _ (setterField?_shorter h.field htext)).of_eq harg
    refine ⟨rfl, ?_, (closes_boundary hm hcloses).2, .set hw h htext hrewrites⟩
    have := le_skipTrivia (ofText t) (i + w.size + 9) (ofText t).size
    dsimp only
    omega
  | kept hend hmember _ _ => exact hbare (not_readsAt hend hmember (by decide))
  | flattened _ _ _ hread _ _ => exact hbare hread
  | bare hend hmember _ hstate _ => exact hbare (not_readsAt hend hmember hstate)

/-- The edits for the references from `i` on never fail to be found.  They fit, each resolves the
reference at its start, and no reference behind `resume` is left out. -/
theorem editsFrom_yields (hr : [] ∉ r.receivers) (hnested : r.Handles t nested) (base : Nat)
    {count resume : Nat} (hb : (ofText t).isBoundary resume) :
    Yields (r.editsFrom nested (ofText t) base count resume i log) fun p =>
      Edit.Fit (ofText t) resume p.1 ∧ (∀ e ∈ p.1, r.Replaces t e) ∧
        ∀ j w, resume ≤ j → i ≤ j → j < i + count → r.referent? (ofText t) j = some w →
          ∃ e ∈ p.1, e.range.start ≤ j ∧ j < e.range.stop := by
  induction count generalizing resume i log with
  | zero => exact .ok ⟨hb, by simp, fun j w _ _ _ => by omega⟩
  | succ count ih =>
    have hm := Scan.ofText_shows t
    have hskip : (resume ≤ i → r.referent? (ofText t) i = none) →
        Yields (r.editsFrom nested (ofText t) base count resume (i + 1) log) fun p =>
          Edit.Fit (ofText t) resume p.1 ∧ (∀ e ∈ p.1, r.Replaces t e) ∧
            ∀ j w, resume ≤ j → i ≤ j → j < i + (count + 1) →
              r.referent? (ofText t) j = some w →
              ∃ e ∈ p.1, e.range.start ≤ j ∧ j < e.range.stop := by
      intro hnone
      refine (ih hb).mono fun p hp => ?_
      obtain ⟨hfit, hedits, hcovers⟩ := hp
      refine ⟨hfit, hedits, fun j w hresume hij hj hw => ?_⟩
      rcases Nat.eq_or_lt_of_le hij with rfl | hlt
      · rw [hnone hresume] at hw
        cases hw
      · exact hcovers j w hresume hlt (by omega) hw
    rw [editsFrom]
    split
    · exact hskip fun h => by omega
    rw [receiverAt?_eq hm hr]
    cases hw : r.referent? (ofText t) i with
    | none => exact hskip fun _ => hw
    | some w =>
      obtain ⟨hmem, -, hstands, -, -⟩ := referent?_spec hw
      have hbi : (ofText t).isBoundary i := by
        simp only [stands, Bool.and_eq_true] at hstands
        exact spells_boundary hm (fun hnil => hr (hnil ▸ hmem)) hstands.1.1
      refine (reference_yields hnested hw base log).bind fun found hfound => ?_
      obtain ⟨e, log'⟩ := found
      obtain ⟨hstart, hlt, hbstop, hreplaces⟩ := hfound
      dsimp only at hstart hlt hbstop hreplaces ⊢
      refine (ih hbstop).bind fun p hp => ?_
      obtain ⟨hfit, hedits, hcovers⟩ := hp
      refine .ok ⟨⟨?_, ?_, hfit⟩, ?_, fun j w' hresume hij hj hw' => ?_⟩
      · rw [hstart]
        exact ⟨by omega, hb, hbi⟩
      · rw [hstart]
        exact ⟨le_of_lt hlt, hbi, hbstop⟩
      · intro e' he'
        rcases List.mem_cons.mp he' with rfl | he'
        · exact hreplaces
        · exact hedits e' he'
      · by_cases hinside : j < e.range.stop
        · exact ⟨e, by simp, by omega, hinside⟩
        · obtain ⟨e', he', hin⟩ := hcovers j w' (by omega) (by omega) (by omega) hw'
          exact ⟨e', List.mem_cons_of_mem _ he', hin⟩

/-- The edits for all references of a text. -/
theorem edits_yields (hr : [] ∉ r.receivers) (hnested : r.Handles t nested) (base : Nat)
    (log : Log) :
    Yields (r.editsFrom nested (ofText t) base (ofText t).size 0 0 log) fun p =>
      Edit.Fit (ofText t) 0 p.1 ∧ r.Covers (ofText t) p.1 ∧
        ∀ e ∈ p.1, r.Replaces t e := by
  have hm := Scan.ofText_shows t
  refine (editsFrom_yields hr hnested base (isBoundary_zero hm)).mono
    fun p ⟨hfit, hedits, hall⟩ => ⟨hfit, covers_of_edits hedits fun i w hw => ?_, hedits⟩
  obtain ⟨-, hcode, -⟩ := referent?_spec hw
  obtain ⟨s, hs, -⟩ := has_eq_true.mp hcode
  obtain ⟨hlt, -⟩ := Array.getElem?_eq_some_iff.mp hs
  exact hall i w (Nat.zero_le _) (Nat.zero_le _) (by rw [Nat.zero_add]; exact hlt) hw

end References

/-- With depth enough for its length, resolving a text never fails. -/
theorem resolveNested_yields {r : Resolver} (hr : [] ∉ r.receivers) {depth : Nat} {t : Text}
    (h : t.length < depth) (base : Nat) (log : Log) :
    Yields (r.resolveNested depth t base log) fun p => r.Rewrites t p.1 := by
  induction depth generalizing t base log with
  | zero => exact absurd h (Nat.not_lt_zero _)
  | succ depth ih =>
    have hnested : r.Handles t (r.resolveNested depth) := fun u base log hu =>
      ih (by omega) base log
    refine (edits_yields hr hnested base log).bind fun p ⟨hfit, hcovers, hedits⟩ => ?_
    obtain ⟨out, hout, -⟩ := Edit.splice_yields (Scan.ofText_shows t) hfit
    exact ⟨(out, p.2), by simp only [hout]; rfl, .edits hfit hcovers hedits hout⟩

/-- Resolving a text never fails. -/
theorem resolve_yields {r : Resolver} (hr : [] ∉ r.receivers) (t : Text) (base : Nat) :
    Yields (r.resolve t base) fun resolved => r.Rewrites t resolved.text := by
  exact (resolveNested_yields hr (Nat.lt_succ_self _) base Log.empty).bind fun p hp => .ok hp

theorem nil_not_mem_receivers {r : Resolver} (hr : ∀ w ∈ r.receivers, w.isIdentifier) :
    [] ∉ r.receivers := fun h => by cases hr _ h

/-- Resolving replaces a list of disjoint ranges, and the new text is the old one with patches in
these ranges.  Where a receiver stands in code as a whole word before a single dot, it lies in one
of the ranges exactly if no dot comes before it, or if it lies inside a range that starts earlier.
What replaces a range is resolved in the same way. -/
theorem references_replaced (r : Resolver) (hr : ∀ w ∈ r.receivers, w.isIdentifier = true)
    (t : Text) (base : Nat) :
    ∃ out warnings edits, r.resolve t base = .ok ⟨out, warnings⟩ ∧
      Edit.Fit (ofText t) 0 edits ∧ Edit.splice (ofText t) 0 edits = .ok out ∧
      (∃ patches tail, t = Patch.before tail patches ∧ out = Patch.after tail patches ∧
        ∀ e, e ∈ edits ↔ ∃ i p, Patch.At patches i p ∧ e = ⟨⟨i, i + p.old.size⟩, p.new⟩) ∧
      (∀ w ∈ r.receivers, ∀ i, (ofText t).BeforeDot w i →
        ((∃ e ∈ edits, e.range.start ≤ i ∧ i < e.range.stop) ↔
          (ofText t).charBefore? i ≠ some '.' ∨
            ∃ e ∈ edits, e.range.start < i ∧ i < e.range.stop)) ∧
      ∀ e ∈ edits, r.Replaces t e := by
  obtain ⟨⟨out, warnings⟩, hresolve, hrewrites⟩ :=
    resolve_yields (nil_not_mem_receivers hr) t base
  cases hrewrites with
  | @edits _ _ edits fit covers replaces result =>
    have hpatches := Edit.splice_patches (Scan.ofText_shows t) [] t (by simp) fit result
    simp only [Text.size_nil, Nat.zero_add] at hpatches
    exact ⟨out, warnings, edits, hresolve, fit, result, hpatches,
      fun w hw i hi => covers w hw (hr w hw) i hi, replaces⟩

/-- A reference in front of which there is no dot lies in a patch. -/
theorem references_replaced_state_read :
    (∀ w ∈ (["this"] : List Text), w.isIdentifier = true) ∧
    (ofText "f(this.state.items)").BeforeDot "this" 2 ∧
    resolve ⟨["items"], [], ["this"]⟩ "f(this.state.items)" 0 = .ok ⟨"f(items)", []⟩ ∧
    ∃ patches tail, Patch.before tail patches = "f(this.state.items)" ∧
      Patch.after tail patches = "f(items)" ∧
      ∃ i p, Patch.At patches i p ∧ i ≤ 2 ∧ 2 < i + p.old.size := by
  have hr : ∀ w ∈ (["this"] : List Text), w.isIdentifier = true := by decide
  have hat : (ofText "f(this.state.items)").BeforeDot "this" 2 := by
    refine ⟨by decide, by decide, by decide, fun c hc => ?_⟩
    cases (show some '(' = some c from hc)
    rfl
  have hitems : resolve ⟨["items"], [], ["this"]⟩ "f(this.state.items)" 0 =
      .ok ⟨"f(items)", []⟩ := by decide
  obtain ⟨out, warnings, edits, hresolve, -, -, ⟨patches, tail, hbefore, hafter, hedits⟩,
    hcovers, -⟩ := references_replaced ⟨["items"], [], ["this"]⟩ hr "f(this.state.items)" 0
  cases hresolve.symm.trans hitems
  obtain ⟨e, he, hstart, hstop⟩ := (hcovers "this" (by decide) 2 hat).mpr (.inl (by decide))
  obtain ⟨i, p, hpatch, rfl⟩ := (hedits e).mp he
  exact ⟨hr, hat, hitems, patches, tail, hbefore.symm, hafter.symm, i, p, hpatch, hstart, hstop⟩

/-- Behind a spread, a reference stays as it is. -/
theorem spread_reference_kept :
    (ofText "f(...this.state.items)").BeforeDot "this" 5 ∧
      resolve ⟨["items"], [], ["this"]⟩ "f(...this.state.items)" 0 =
        .ok ⟨"f(...this.state.items)", []⟩ := by
  refine ⟨⟨by decide, by decide, by decide, fun c hc => ?_⟩, by decide⟩
  cases (show some '.' = some c from hc)
  rfl

section Destructuring

variable (r : Resolver)

theorem destructuring_forward : r.destructuring.Forward where
  before := by
    apply Matcher.seq_forward
    simp
  group := Matcher.many_forward _
  after := by
    apply Matcher.seq_forward
    simp

theorem fit_of_matches {m : CodeMap} {found : List Match} {edits : List Edit} {pos : Nat}
    (hb : m.isBoundary pos)
    (hranges : List.Forall₂ (fun f e => e.range = ⟨f.start, f.stop⟩) found edits)
    (hin : ∀ f ∈ found, pos ≤ f.start ∧ m.Whole f.start f.stop)
    (hordered : found.Pairwise fun a b => a.stop ≤ b.start) : Edit.Fit m pos edits := by
  induction hranges generalizing pos with
  | nil => exact hb
  | @cons f e found edits hrange hrest ih =>
    obtain ⟨hle, hw⟩ := hin f (by simp)
    obtain ⟨hfirst, hordered⟩ := List.pairwise_cons.mp hordered
    rw [Edit.Fit, hrange]
    refine ⟨⟨hle, hb, hw.left⟩, hw, ih hw.right (fun g hg => ?_) hordered⟩
    exact ⟨hfirst g hg, (hin g (List.mem_cons_of_mem _ hg)).2⟩

theorem stripDestructuring_paired (t : Text) : ∃ edits out, List.Forall₂ (fun found e => ∃ text,
        (ofText t).slice found.start found.stop = .ok text ∧
          e = ⟨⟨found.start, found.stop⟩, blankOut text⟩)
        ((r.destructuring.occurrences t).filter fun found =>
          (ofText t).isCode found.start && r.isRedundant (listedNames found.group)) edits ∧
      Edit.Fit (ofText t) 0 edits ∧ Edit.splice (ofText t) 0 edits = .ok out ∧
      r.stripDestructuring t = .ok out := by
  have hm := Scan.ofText_shows t
  unfold stripDestructuring
  dsimp only
  generalize hfound : ((r.destructuring.occurrences t).filter fun found =>
    (ofText t).isCode found.start && r.isRedundant (listedNames found.group)) = found
  have hmem : ∀ f ∈ found, (ofText t).Whole f.start f.stop := by
    intro f hf
    rw [← hfound] at hf
    obtain ⟨mid, hlies, hstop⟩ :=
      Pattern.mem_occurrences r.destructuring_forward (List.mem_of_mem_filter hf)
    rw [hstop]
    exact (slice_of_liesAt hm (by rwa [Scan.kinds_chars])).1
  have hordered : found.Pairwise fun a b => a.stop ≤ b.start := by
    rw [← hfound]
    exact (Pattern.occurrences_ordered r.destructuring_forward t).filter _
  have hblanks : ∀ f ∈ found, Yields (do
      return (⟨⟨f.start, f.stop⟩, blankOut (← (ofText t).slice f.start f.stop)⟩ : Edit))
      fun e => ∃ text, (ofText t).slice f.start f.stop = .ok text ∧
        e = ⟨⟨f.start, f.stop⟩, blankOut text⟩ := by
    intro f hf
    obtain ⟨text, htext, -⟩ := slice_yields hm (hmem f hf)
    exact ⟨_, bind_of_eq_ok htext, text, htext, rfl⟩
  obtain ⟨edits, hedits, hpaired⟩ := Yields.mapM hblanks
  have hfit : Edit.Fit (ofText t) 0 edits := by
    refine fit_of_matches (isBoundary_zero hm) (hpaired.imp ?_)
      (fun f hf => ⟨Nat.zero_le _, hmem f hf⟩) hordered
    rintro f _ ⟨text, -, rfl⟩
    rfl
  obtain ⟨out, hout, -⟩ := Edit.splice_yields hm hfit
  exact ⟨edits, out, hpaired, hfit, hout, (bind_of_eq_ok hedits).trans hout⟩

/-- Blanking out redundant declarations never fails. -/
theorem stripDestructuring_yields (t : Text) : Yields (r.stripDestructuring t) fun _ => True := by
  obtain ⟨-, out, -, -, -, h⟩ := r.stripDestructuring_paired t
  exact ⟨out, h, trivial⟩

end Destructuring

end Resolver

end Declass
