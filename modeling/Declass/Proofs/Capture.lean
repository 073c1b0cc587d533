import Declass.Proofs.Assembly

/-!
# State reads and parameters

**Input.** A source that is converted.

**Results.** A method becomes a function with the same parameters, and a read of a state entry in
its body becomes the bare name of the entry.  `reads_ignore_params`: nothing in between looks at the
parameters, so a parameter with the name of a state entry captures the reads of the entry.  Warnings
do not depend on parameters either.  A read that lies in a call of `setState` that is kept is
covered by the warning about that call.
-/

namespace Declass

open CodeMap
open CodeMap (ofText)

/-- The word reads the state entry `n` in code at the position: `w.state.n` stands there, nothing
before it makes it part of a longer word or chain, and the name ends behind it. -/
structure CodeMap.StateRead (m : CodeMap) (w n : Text) (i : Nat) : Prop where
  code : m.isCode i = true
  spells : m.spells (w ++ (".state." ++ n)) i = true
  fresh : ∀ c, m.charBefore? i = some c → Character.isIdentPart c = false ∧ c ≠ '.'
  ends : ∀ c, m.charAt? (i + w.size + 7 + n.size) = some c → Character.isIdentPart c = false

section Reads

variable {t w n : Text} {i : Nat}

theorem CodeMap.stands_unique {m : CodeMap} {ps : Painted} (hm : m.Shows ps) {w' : Text}
    (hw : w.isIdentifier) (hw' : w'.isIdentifier) (h : m.stands i w)
    (h' : m.stands i w') : w = w' := by
  have hread : ∀ {u : Text}, u.isIdentifier → m.stands i u →
      m.identEnd i = .ok (i + u.size) ∧ m.slice i (i + u.size) = .ok u := by
    intro u hu hstands
    simp only [stands, Bool.and_eq_true, Option.all_eq_true, Bool.not_eq_true'] at hstands
    exact identEnd_of_spells hm hu hstands.1.1 hstands.2
  obtain ⟨hend, hslice⟩ := hread hw h
  obtain ⟨hend', hslice'⟩ := hread hw' h'
  have hstop := Except.ok.inj (hend.symm.trans hend')
  rw [hstop] at hslice
  exact Except.ok.inj (hslice.symm.trans hslice')

/-- Of receivers that are identifiers, the one that is referred to is the only one. -/
theorem Resolver.referent?_of_refers {r : Resolver} {m : CodeMap} {ps : Painted}
    (hm : m.Shows ps) (hr : ∀ w ∈ r.receivers, w.isIdentifier) (hw : w ∈ r.receivers)
    (hcode : m.isCode i) (hrefers : m.refers i w) : r.referent? m i = some w := by
  obtain ⟨w', hfind⟩ : ∃ w', r.receivers.find? (m.refers i) = some w' := by
    rw [← Option.isSome_iff_exists, List.find?_isSome]
    exact ⟨w, hw, hrefers⟩
  have hw' : r.referent? m i = some w' := by
    rw [Resolver.referent?, if_pos hcode, hfind]
  obtain ⟨hmem, -, hstands, -, -⟩ := Resolver.referent?_spec hw'
  simp only [refers, Bool.and_eq_true] at hrefers
  rw [stands_unique hm (hr w hw) (hr w' hmem) hrefers.1.1 hstands, hw']

theorem CodeMap.spells_stateRead {m : CodeMap} :
    m.spells (w ++ ((".state." : Text) ++ n)) i ↔
      m.spells w i ∧ m.charAt? (i + w.size) = some '.' ∧
        m.spells "state" (i + w.size + 1) ∧ m.charAt? (i + w.size + 6) = some '.' ∧
        m.spells n (i + w.size + 7) := by
  have hsplit : (".state." : Text) ++ n = ['.'] ++ ("state" ++ (['.'] ++ n)) := rfl
  have hdot : ∀ j, m.spells ['.'] j ↔ m.charAt? j = some '.' := by simp [spells]
  rw [hsplit, spells_append, spells_append, spells_append, spells_append]
  simp only [Bool.and_eq_true, hdot]
  rfl

namespace CodeMap.StateRead

theorem beforeDot {m : CodeMap} (h : m.StateRead w n i) : m.BeforeDot w i where
  code := h.code
  spells := by
    obtain ⟨hword, hdot, -⟩ := spells_stateRead.mp h.spells
    rw [spells_append, hword]
    simp [CodeMap.spells, hdot]
  single := by
    obtain ⟨-, -, hstate, -⟩ := spells_stateRead.mp h.spells
    have hfirst : m.charAt? (i + w.size + 1) = some 's' := by
      rw [show ("state" : Text) = 's' :: "tate" from rfl, CodeMap.spells,
        Bool.and_eq_true] at hstate
      simpa using hstate.1
    rw [hfirst]
    decide
  fresh c hc := (h.fresh c hc).1

theorem readsAt (h : (ofText t).StateRead w n i) (hw : w.isIdentifier)
    (hn : n.isIdentifier) {r : Resolver} (hmem : n ∈ r.states) :
    r.ReadsAt (ofText t) w i n := by
  have hm := Scan.ofText_shows t
  obtain ⟨-, -, hstate, hdot, hname⟩ := spells_stateRead.mp h.spells
  have hstateRead := identEnd_of_spells hm (by decide) hstate fun c hc => by
    obtain rfl : '.' = c := Option.some.inj (hdot.symm.trans hc)
    rfl
  have hnameRead := identEnd_of_spells hm hn hname h.ends
  refine ⟨hstateRead.1, hstateRead.2, ?_, hnameRead.1, hnameRead.2, by simpa [Resolver.isState]⟩
  have hplain : ((w ++ ".state") ++ '.' :: n).all Scan.isPlainChar := by
    rw [List.all_append, List.all_append, List.all_cons, all_isPlainChar_of_isIdentifier hw,
      all_isPlainChar_of_isIdentifier hn]
    rfl
  have hspells : (ofText t).spells ((w ++ ".state") ++ '.' :: n) i := by
    rw [List.append_assoc]
    exact h.spells
  have hcode := isCodeChar_of_spells hplain h.code hspells
  rwa [Text.size_append] at hcode

theorem referent? (h : (ofText t).StateRead w n i) {r : Resolver}
    (hr : ∀ w ∈ r.receivers, w.isIdentifier) (hw : w ∈ r.receivers) :
    r.referent? (ofText t) i = some w := by
  have hdot : (ofText t).charBefore? i ≠ some '.' := fun hc => (h.fresh _ hc).2 rfl
  have hrefers := h.beforeDot.refers (hr w hw) hdot
  exact Resolver.referent?_of_refers (Scan.ofText_shows t) hr hw h.code hrefers

end CodeMap.StateRead

end Reads

namespace Resolver

/-- The edit replaces a call that sets a state entry by a call of its setter, with a resolved
argument. -/
def Sets (r : Resolver) (t : Text) (e : Edit) : Prop :=
  ∃ w key value text arg, r.referent? (ofText t) e.range.start = some w ∧
    r.SetsAt (ofText t) w e.range.start key value e.range.stop ∧
    (ofText t).slice value.start value.stop = .ok text ∧ r.Rewrites text.trim arg ∧
    e.text = setterName key ++ "(" ++ arg ++ ")"

section Edits

variable {r : Resolver} (hr : ∀ w ∈ r.receivers, w.isIdentifier)
  (hs : ∀ n ∈ r.states, n.isIdentifier) {t w n : Text} {i : Nat} {e : Edit}
include hr hs

/-- An edit that starts at a state read puts the bare name in its place. -/
theorem Replaces.eq_read (h : r.Replaces t e)
    (hread : (ofText t).StateRead w n e.range.start) (hw : w ∈ r.receivers)
    (hn : n ∈ r.states) : e = ⟨⟨e.range.start, e.range.start + w.size + 7 + n.size⟩, n⟩ := by
  have hat := hread.readsAt (hr w hw) (hs n hn) hn
  have hreferent := hread.referent? hr hw
  cases h with
  | @read _ w' n' i hw' h' =>
    obtain rfl : w = w' := Option.some.inj (hreferent.symm.trans hw')
    have hend := Except.ok.inj (hat.nameEnd.symm.trans h'.nameEnd)
    have hname := hat.name
    rw [hend] at hname
    rw [Except.ok.inj (hname.symm.trans h'.name)]
  | @set _ w' key text arg i stop value hw' h' htext harg =>
    obtain rfl : w = w' := Option.some.inj (hreferent.symm.trans hw')
    have hend := Except.ok.inj (hat.memberEnd.symm.trans h'.memberEnd)
    dsimp only at hend
    omega
  | @drop _ w' i hw' h' =>
    obtain rfl : w = w' := Option.some.inj (hreferent.symm.trans hw')
    exact absurd hat (h' n)

/-- An edit that starts earlier and takes in a state read replaces a call that sets an entry. -/
theorem Replaces.sets (h : r.Replaces t e) (hread : (ofText t).StateRead w n i)
    (hlt : e.range.start < i) (hlt' : i < e.range.stop) : r.Sets t e := by
  have hm := Scan.ofText_shows t
  have hb : (ofText t).isBoundary i := spells_boundary hm (by simp) hread.spells
  -- Inside a word or chain, the character before is part of an identifier or a dot.
  have hoff : ∀ u : Text, (ofText t).spells u e.range.start →
      (∀ c ∈ u, Character.isIdentPart c ∨ c = '.') → ¬ i ≤ e.range.start + u.size := by
    intro u hu hall hle
    obtain ⟨c, hc, hbefore⟩ := charBefore?_of_spells hm hb hu hlt hle
    obtain ⟨hpart, hdot⟩ := hread.fresh c hbefore
    rcases hall c hc with h | h
    · rw [hpart] at h
      cases h
    · exact hdot h
  have hword : ∀ {u : Text}, u.isIdentifier →
      ∀ c ∈ u, Character.isIdentPart c ∨ c = '.' := fun hu c hc =>
    .inl (Text.isIdentPart_of_isIdentifier hu c hc)
  cases h with
  | @read _ w' n' j hw' h' =>
    exfalso
    obtain ⟨hmem, -, hstands, hdot, -⟩ := referent?_spec hw'
    simp only [stands, Bool.and_eq_true] at hstands
    have hn' : n' ∈ r.states := by simpa [isState] using h'.isState
    have hchain : (ofText t).spells (w' ++ ((".state." : Text) ++ n')) j :=
      spells_stateRead.mpr ⟨hstands.1.1, isCodeChar_charAt? hdot, spells_of_slice hm h'.member,
        isCodeChar_charAt? h'.dot, spells_of_slice hm h'.name⟩
    refine hoff _ hchain (fun c hc => ?_) ?_
    · rcases List.mem_append.mp hc with hc | hc
      · exact hword (hr w' hmem) c hc
      rcases List.mem_append.mp hc with hc | hc
      · have hall : (".state." : Text).all
            (fun c => Character.isIdentPart c || c == '.') := rfl
        simpa using List.all_eq_true.mp hall c hc
      · exact hword (hs n' hn') c hc
    · have hsize : Text.size ".state." = 7 := rfl
      rw [Text.size_append, Text.size_append]
      change i < j + w'.size + 7 + n'.size at hlt'
      change i ≤ j + (w'.size + (7 + n'.size))
      omega
  | @set _ w' key text arg j stop value hw' h' htext harg =>
    exact ⟨w', key, value, text, arg, hw', h', htext, harg, rfl⟩
  | @drop _ w' j hw' h' =>
    exfalso
    obtain ⟨hmem, -, hstands, -, -⟩ := referent?_spec hw'
    simp only [stands, Bool.and_eq_true] at hstands
    exact hoff w' hstands.1.1 (hword (hr w' hmem)) (Nat.le_of_lt_succ hlt')

end Edits

/-- The call of `setState` behind the receiver `w` at position `i` does not set a single state
entry. -/
structure KeepsAt (r : Resolver) (m : CodeMap) (w : Text) (i : Nat) : Prop where
  referent : r.referent? m i = some w
  memberEnd : m.identEnd (i + w.size + 1) = .ok (i + w.size + 9)
  member : m.slice (i + w.size + 1) (i + w.size + 9) = .ok "setState"
  field : r.setterField? m (m.skipTrivia (i + w.size + 9) m.size) = .ok none

/-- What is reported about the call: all of it, up to where its arguments are closed. -/
def keptWarning (m : CodeMap) (base : Nat) (w : Text) (i : Nat) : Warning :=
  ⟨.setStateKept w, Span.clamp ⟨base + i, base + callEnd m (i + w.size + 9)⟩⟩

section Reports

theorem Log.warn_warnings {log log' : Log} {notice : Notice} {start stop : Nat}
    (h : log.warn notice start stop = .ok log') :
    log'.warnings = log.warnings ++ [⟨notice, Span.clamp ⟨start, stop⟩⟩] := by
  obtain ⟨warning, hwarning, h⟩ := bind_eq_ok h
  obtain ⟨range, hrange, hwarning⟩ := bind_eq_ok hwarning
  unfold Span.reported at hrange
  dsimp only at hrange
  split at hrange
  · cases hrange
    cases hwarning
    cases h
    rfl
  · cases hrange

theorem Log.flatten_extends {log log' : Log} {receiver member : Text} {start stop : Nat}
    (h : log.flatten receiver member start stop = .ok log') : log.warnings <+: log'.warnings := by
  unfold Log.flatten at h
  split at h
  · cases h
    exact List.prefix_refl _
  · obtain ⟨warned, hwarned, h⟩ := bind_eq_ok h
    cases h
    exact ⟨_, (Log.warn_warnings hwarned).symm⟩

/-- Nested texts only add warnings. -/
def Extends (nested : Nested) : Prop :=
  ∀ u base log p, nested u base log = .ok p → log.warnings <+: p.2.warnings

variable {r : Resolver} {nested : Nested} {m : CodeMap} {base i : Nat} {w : Text} {log log' : Log}
  {e : Edit}

/-- The edit for a reference starts at it, and warnings are only added. -/
theorem ResolvesTo.extends (hnested : Extends nested)
    (h : r.ResolvesTo nested m base w i log e log') :
    e.range.start = i ∧ log.warnings <+: log'.warnings := by
  cases h with
  | read _ => exact ⟨rfl, List.prefix_refl _⟩
  | set _ _ harg => exact ⟨rfl, hnested _ _ _ _ harg⟩
  | kept _ _ _ hlog => exact ⟨rfl, _, (Log.warn_warnings hlog).symm⟩
  | flattened _ _ _ _ _ hlog => exact ⟨rfl, Log.flatten_extends hlog⟩
  | bare _ _ _ _ _ => exact ⟨rfl, List.prefix_refl _⟩

/-- A call that is kept is reported. -/
theorem ResolvesTo.reports_kept (hk : r.KeepsAt m w i)
    (h : r.ResolvesTo nested m base w i log e log') : keptWarning m base w i ∈ log'.warnings := by
  have hmember : ∀ {member : Text} {memberEnd : Nat},
      m.identEnd (i + w.size + 1) = .ok memberEnd →
      m.slice (i + w.size + 1) memberEnd = .ok member → member = "setState" := by
    intro member memberEnd hend hslice
    obtain rfl := Except.ok.inj (hk.memberEnd.symm.trans hend)
    exact Except.ok.inj (hslice.symm.trans hk.member)
  cases h with
  | read h => cases hmember h.memberEnd h.member
  | set h _ _ => cases hk.field.symm.trans h.field
  | kept _ _ _ hlog =>
    rw [Log.warn_warnings hlog]
    simp [keptWarning]
  | flattened hend hslice hset _ _ _ => exact absurd (hmember hend hslice) hset
  | bare hend hslice hset _ _ => exact absurd (hmember hend hslice) hset

/-- Each call that is kept at the start of an edit is reported. -/
def Reports (r : Resolver) (m : CodeMap) (base : Nat) (edits : List Edit)
    (warnings : List Warning) : Prop :=
  ∀ e ∈ edits, ∀ w, r.KeepsAt m w e.range.start → keptWarning m base w e.range.start ∈ warnings

/-- References that are resolved one behind the other, each by an edit, from one log to another. -/
inductive Resolves (r : Resolver) (nested : Nested) (m : CodeMap) (base : Nat) :
    Log → List Edit → Log → Prop
  | nil {log : Log} : Resolves r nested m base log [] log
  | cons {w : Text} {i : Nat} {e : Edit} {edits : List Edit} {log log' log'' : Log}
      (hw : r.receiverAt? m i = .ok (some w))
      (hhere : r.reference nested m base w i log = .ok (e, log'))
      (hrest : Resolves r nested m base log' edits log'') :
      Resolves r nested m base log (e :: edits) log''

theorem resolves_of_editsFrom {count resume : Nat} {edits : List Edit}
    (h : r.editsFrom nested m base count resume i log = .ok (edits, log')) :
    r.Resolves nested m base log edits log' := by
  induction count generalizing resume i log edits with
  | zero =>
    cases h
    exact .nil
  | succ count ih =>
    rw [editsFrom] at h
    split at h
    · exact ih h
    split at h
    · cases h
    · exact ih h
    · rename_i w hw
      obtain ⟨⟨first, logHere⟩, hhere, h⟩ := bind_eq_ok h
      obtain ⟨⟨rest, logRest⟩, hrest, h⟩ := bind_eq_ok h
      cases h
      exact .cons hw hhere (ih hrest)

theorem Resolves.reports {ps : Painted} (hm : m.Shows ps) (hr : [] ∉ r.receivers)
    (hnested : Extends nested) {edits : List Edit} (h : r.Resolves nested m base log edits log') :
    log.warnings <+: log'.warnings ∧ r.Reports m base edits log'.warnings := by
  induction h with
  | nil => exact ⟨List.prefix_refl _, fun e he => absurd he List.not_mem_nil⟩
  | @cons w i e edits log logHere log' hw hhere _ ih =>
    have hcases := reference_cases hm hhere
    obtain ⟨hstart, hextends⟩ := hcases.extends hnested
    obtain ⟨hextends', hreports⟩ := ih
    refine ⟨hextends.trans hextends', fun e' he' w' hk => ?_⟩
    rcases List.mem_cons.mp he' with rfl | he'
    · rw [hstart] at hk ⊢
      rw [receiverAt?_eq hm hr, hk.referent] at hw
      cases hw
      exact hextends'.subset (hcases.reports_kept hk)
    · exact hreports e' he' w' hk

theorem resolveNested_extends (hr : [] ∉ r.receivers) (depth : Nat) :
    Extends (r.resolveNested depth) := by
  induction depth with
  | zero =>
    intro u base log p h
    cases h
    exact List.prefix_refl _
  | succ depth ih =>
    intro u base log p h
    obtain ⟨⟨edits, log'⟩, hedits, h⟩ := bind_eq_ok h
    obtain ⟨out, -, h⟩ := bind_eq_ok h
    cases h
    exact ((resolves_of_editsFrom hedits).reports (Scan.ofText_shows u) hr ih).1

/-- What resolving a text does and what it reports, in terms of one list of edits. -/
theorem resolve_edits (hr : [] ∉ r.receivers) {t : Text} {resolved : Resolved}
    (h : r.resolve t base = .ok resolved) :
    ∃ edits, Edit.Fit (ofText t) 0 edits ∧ r.Covers (ofText t) edits ∧
      (∀ e ∈ edits, r.Replaces t e) ∧ Edit.splice (ofText t) 0 edits = .ok resolved.text ∧
      r.Reports (ofText t) base edits resolved.warnings := by
  obtain ⟨⟨text, log⟩, htext, h⟩ := bind_eq_ok h
  cases h
  obtain ⟨⟨edits, log'⟩, hedits, htext⟩ := bind_eq_ok htext
  obtain ⟨out, hout, htext⟩ := bind_eq_ok htext
  cases htext
  have hnested : r.Handles t (r.resolveNested t.length) := fun u base log hu =>
    resolveNested_yields hr hu base log
  obtain ⟨hfit, hcovers, hreplaces⟩ := (edits_yields hr hnested base Log.empty).of_eq hedits
  have hreports := (resolves_of_editsFrom hedits).reports (Scan.ofText_shows t) hr
    (resolveNested_extends hr _)
  exact ⟨edits, hfit, hcovers, hreplaces, hout, hreports.2⟩

end Reports

/-- The second text is the first one with the edits made, and a read of a state entry is one of the
edits, which puts the bare name in its place, or lies in the edit of a call that sets an entry. -/
structure Bares (r : Resolver) (t out : Text) (edits : List Edit) : Prop where
  fit : Edit.Fit (ofText t) 0 edits
  result : Edit.splice (ofText t) 0 edits = .ok out
  reads : ∀ w ∈ r.receivers, ∀ n ∈ r.states, ∀ i, (ofText t).StateRead w n i →
    ⟨⟨i, i + w.size + 7 + n.size⟩, n⟩ ∈ edits ∨
      ∃ e ∈ edits, e.range.start < i ∧ i < e.range.stop ∧ r.Sets t e

/-- Edits that resolve references leave no state read as it is. -/
theorem bares_of_edits {r : Resolver} (hr : ∀ w ∈ r.receivers, w.isIdentifier)
    (hs : ∀ n ∈ r.states, n.isIdentifier) {t out : Text} {edits : List Edit}
    (hfit : Edit.Fit (ofText t) 0 edits) (hcovers : r.Covers (ofText t) edits)
    (hreplaces : ∀ e ∈ edits, r.Replaces t e)
    (hout : Edit.splice (ofText t) 0 edits = .ok out) : r.Bares t out edits := by
  refine ⟨hfit, hout, fun w hw n hn i hread => ?_⟩
  have hdot : (ofText t).charBefore? i ≠ some '.' := fun hc => (hread.fresh _ hc).2 rfl
  obtain ⟨e, he, hle, hlt⟩ := (hcovers w hw (hr w hw) i hread.beforeDot).mpr (.inl hdot)
  rcases Nat.eq_or_lt_of_le hle with rfl | hlater
  · left
    rwa [← (hreplaces e he).eq_read hr hs hread hw hn]
  · exact .inr ⟨e, he, hlater, hlt, (hreplaces e he).sets hr hs hread hlater hlt⟩

end Resolver

namespace Component

/-- The component with other parameters for its methods. -/
def withParams (c : Component) (params : Method → Text) : Component :=
  { c with methods := c.methods.map fun method => { method with params := params method } }

variable (c : Component) (params : Method → Text)

theorem names_withParams : (c.withParams params).methods.map (·.name) = c.methods.map (·.name) := by
  simp [withParams]

theorem bodies_withParams {α : Type} (f : Snippet → Except Fault α) :
    ((c.withParams params).methods.mapM fun method => f method.body) =
      c.methods.mapM fun method => f method.body := by
  rw [withParams, List.mapM_map]
  rfl

theorem mem_zip_withParams {α : Type} {l : List α} {p : Method × α} (h : p ∈ c.methods.zip l) :
    ({ p.1 with params := params p.1 }, p.2) ∈ (c.withParams params).methods.zip l := by
  rw [withParams, List.zip_map_left]
  exact List.mem_map.mpr ⟨p, h, rfl⟩

end Component

namespace Conversion

/-- Some warning is about a range that takes in the given one. -/
def Warns (conv : Conversion) (s : Span) : Prop :=
  ∃ w ∈ conv.warnings, w.range.start ≤ s.start ∧ s.stop ≤ w.range.stop

variable {p : Parts} {c : Component} {receivers : List Text}

/-- No part of a conversion depends on parameters. -/
theorem Parts.From.withParams (h : p.From c receivers) (params : Method → Text) :
    p.From (c.withParams params) receivers := by
  have hresolver : p.resolver (c.withParams params) receivers = p.resolver c receivers := by
    unfold Parts.resolver
    rw [c.names_withParams]
  constructor
  · exact h.model
  · rw [hresolver]
    exact h.values
  · rw [hresolver]
    exact h.setup
  · rw [hresolver]
    exact h.cleanup
  · rw [hresolver, c.bodies_withParams]
    exact h.bodies
  · exact h.stripped
  · rw [hresolver]
    exact h.prelude
  · rw [hresolver]
    exact h.template

theorem Parts.warnings_withParams (params : Method → Text) :
    (p.conversion (c.withParams params)).warnings = (p.conversion c).warnings := rfl

theorem Parts.method_infix {method : Method} {body : Resolved}
    (h : (method, body) ∈ c.methods.zip p.bodies) :
    methodSection method body.text <:+: (p.conversion c).code := by
  refine Parts.infix_code ?_
  simp only [Parts.sections, List.mem_append, List.mem_map]
  exact .inl (.inl (.inr ⟨_, h, rfl⟩))

/-- What is said about a body is said about the conversion, but for reduced members. -/
theorem Parts.mem_warnings {body : Resolved} (hbody : body ∈ p.bodies) {w : Warning}
    (hw : w ∈ body.warnings) (hflat : w.notice.isFlattening = false) :
    w ∈ (p.conversion c).warnings := by
  refine mem_reportOnce hflat ?_
  simp only [Parts.warnings, List.mem_append, List.mem_flatMap]
  exact .inl (.inl (.inr ⟨body, hbody, hw⟩))

theorem Parts.states_isIdentifier (h : p.model.Named) :
    ∀ n ∈ (p.resolver c receivers).states, n.isIdentifier := by
  intro n hn
  obtain ⟨entry, hentry, rfl⟩ := List.mem_map.mp hn
  exact h entry hentry

/-- The bodies of methods, with one list of edits for each: reads become bare names, and calls that
are kept are reported. -/
theorem Parts.From.bodies_bare (h : p.From c receivers)
    (hr : ∀ w ∈ receivers, w.isIdentifier) (hnamed : p.model.Named) :
    ∀ q ∈ c.methods.zip p.bodies, ∃ edits,
      (p.resolver c receivers).Bares q.1.body.text q.2.text edits ∧
        (p.resolver c receivers).Reports (ofText q.1.body.text) q.1.body.range.start edits
          (p.conversion c).warnings := by
  rintro ⟨method, body⟩ hq
  have hbody := (List.forall₂_iff_zip.mp (mapM_eq_ok h.bodies)).2 hq
  obtain ⟨edits, hfit, hcovers, hreplaces, hout, hreports⟩ :=
    Resolver.resolve_edits (Resolver.nil_not_mem_receivers hr) hbody
  have hbares := Resolver.bares_of_edits hr (Parts.states_isIdentifier hnamed) hfit hcovers
    hreplaces hout
  refine ⟨edits, hbares, ?_⟩
  exact fun e he w hk => Parts.mem_warnings (List.of_mem_zip hq).2 (hreports e he w hk) rfl

end Conversion

/-- **Parameters capture reads.**  In a source that is converted, a read of a state entry in a
method becomes the bare name of the entry, unless it lies in a call that becomes a setter call.  The
argument of such a call is resolved in the same way, as a text of its own.  The method keeps its
parameters, and no other choice of parameters would change a body or a warning: a parameter with the
name of the entry captures the read.  What lies in a call of `setState` that is kept is covered by a
warning, whatever the parameters are. -/
theorem reads_ignore_params {t : Text} {receivers : List Text} {conv : Conversion}
    (hr : ∀ w ∈ receivers, w.isIdentifier = true) (h : convert t receivers = .ok conv) :
    ∃ c p r, Component.extract t receivers = .ok c ∧ Conversion.Parts.From p c receivers ∧
      r = p.resolver c receivers ∧ conv = p.conversion c ∧ c.methods.length = p.bodies.length ∧
      (∀ q ∈ c.methods.zip p.bodies, Conversion.methodSection q.1 q.2.text <:+: conv.code ∧
        ∃ edits, r.Bares q.1.body.text q.2.text edits ∧
          ∀ e ∈ edits, ∀ w, r.KeepsAt (CodeMap.ofText q.1.body.text) w e.range.start →
            ∀ s : Span, e.range.start ≤ s.start →
              s.stop ≤ Resolver.callEnd (CodeMap.ofText q.1.body.text)
                (e.range.start + w.size + 9) →
              conv.Warns (s.shift q.1.body.range.start).clamp) ∧
      (∀ u v, r.Rewrites u v → ∃ edits, r.Bares u v edits) ∧
      ∀ params, ∃ code,
        Conversion.assemble (c.withParams params) receivers = .ok ⟨code, conv.warnings⟩ ∧
        ∀ q ∈ c.methods.zip p.bodies,
          Conversion.methodSection { q.1 with params := params q.1 } q.2.text <:+: code := by
  obtain ⟨c, hc, h⟩ := bind_eq_ok h
  obtain ⟨p, hp, rfl⟩ := Conversion.assemble_iff.mp (check_eq_ok h)
  have hlies := (Component.extract_faultless t receivers).of_eq hc
  have hnamed := (StateModel.build_yields (Scan.ofText_shows t) hlies.state).of_eq hp.model
  refine ⟨c, p, _, hc, hp, rfl, rfl, (mapM_eq_ok hp.bodies).length_eq, fun q hq => ?_,
    fun u v huv => ?_, fun params => ?_⟩
  · obtain ⟨edits, hbares, hreports⟩ := hp.bodies_bare hr hnamed q hq
    refine ⟨Conversion.Parts.method_infix hq, edits, hbares, ?_⟩
    intro e he w hk s hstart hstop
    refine ⟨_, hreports e he w hk, ?_⟩
    simp only [Resolver.keptWarning, Span.clamp, Span.shift]
    omega
  · cases huv with
    | edits hfit hcovers hreplaces hout =>
      exact ⟨_, Resolver.bares_of_edits hr (Conversion.Parts.states_isIdentifier hnamed) hfit
        hcovers hreplaces hout⟩
  · refine ⟨(p.conversion (c.withParams params)).code, ?_, fun q hq => ?_⟩
    · rw [← Conversion.Parts.warnings_withParams params]
      exact Conversion.assemble_iff.mpr ⟨p, hp.withParams params, rfl⟩
    · exact Conversion.Parts.method_infix (c.mem_zip_withParams params hq)

/-- A component with a method whose parameter has the name of a state entry that it reads. -/
def capturingSource : Text :=
  "class A extends Component\x7bstate=\x7bv:1\x7d;f(v)\x7breturn v+this.state.v\x7d"
    ++ "render()\x7breturn 0\x7d\x7d"

/-- The method. -/
def capturingMethod : Method := ⟨"f", "v", false, .block, ⟨"return v+this.state.v", ⟨43, 64⟩⟩⟩

/-- The component. -/
def capturingComponent : Component where
  name := "A"
  state := some ⟨"\x7bv:1\x7d", ⟨32, 37⟩⟩
  mount := none
  unmount := none
  methods := [capturingMethod]
  prelude := ⟨"", ⟨74, 74⟩⟩
  template := ⟨"0", ⟨81, 82⟩⟩
  warnings := []

/-- The module that it is converted to. -/
def capturedModule : Text :=
  "import React, \x7b useState \x7d from 'react';\n\nfunction A(props) \x7b
  const [v, setV] = useState(1);\n\n  const f = (v) => \x7b\n    return v+v\n  \x7d;\n
  return (\n    0\n  );\n\x7d\n\nexport default A;\n"

theorem extract_capturing :
    Component.extract capturingSource ["this"] = .ok capturingComponent := by
  decide +kernel

theorem convert_capturing : convert capturingSource ["this"] = .ok ⟨capturedModule, []⟩ := by
  unfold convert
  rw [extract_capturing]
  decide +kernel

theorem capturing_read : (ofText capturingMethod.body.text).StateRead "this" "v" 9 where
  code := by decide
  spells := by decide
  fresh c hc := by
    cases (show some '+' = some c from hc)
    exact ⟨rfl, by decide⟩
  ends c hc := by
    cases (show none = some c from hc)

/-- The read is replaced by the bare name. -/
theorem reads_ignore_params_same_name :
    (∀ w ∈ (["this"] : List Text), w.isIdentifier = true) ∧
    ∃ conv body edits, convert capturingSource ["this"] = .ok conv ∧
      Conversion.methodSection capturingMethod body <:+: conv.code ∧
      Edit.splice (CodeMap.ofText capturingMethod.body.text) 0 edits = .ok body ∧
      ⟨⟨9, 21⟩, "v"⟩ ∈ edits := by
  have hr : ∀ w ∈ (["this"] : List Text), w.isIdentifier = true := by decide
  obtain ⟨c, p, r, hc, hp, hresolver, -, hlength, hbodies, -, -⟩ :=
    reads_ignore_params hr convert_capturing
  obtain rfl : capturingComponent = c := Except.ok.inj (extract_capturing.symm.trans hc)
  obtain ⟨body, hbody⟩ := List.length_eq_one_iff.mp hlength.symm
  obtain ⟨hsection, edits, hbares, -⟩ := hbodies (capturingMethod, body) (by
    rw [hbody]
    exact List.mem_singleton.mpr rfl)
  refine ⟨hr, _, body.text, edits, convert_capturing, hsection, hbares.result, ?_⟩
  have hnames : (StateModel.build capturingComponent.state).map (·.entries.map (·.name)) =
      .ok ["v"] := by decide
  rw [hp.model] at hnames
  replace hnames : p.model.entries.map (·.name) = ["v"] := Except.ok.inj hnames
  obtain rfl : r = ⟨["v"], ["f"], ["this"]⟩ := by
    rw [hresolver, Conversion.Parts.resolver, hnames]
    rfl
  rcases hbares.reads "this" (by decide) "v" (by decide) 9 capturing_read with hmem | hinside
  · exact hmem
  · obtain ⟨e, -, hlt, -, w, key, value, text, arg, hreferent, -⟩ := hinside
    have hnone : ∀ j < 9, Resolver.referent? ⟨["v"], ["f"], ["this"]⟩
        (CodeMap.ofText capturingMethod.body.text) j = none := by decide
    rw [hnone _ hlt] at hreferent
    cases hreferent

/-- The parameter captures the read, and nothing is said about it. -/
theorem parameter_captures_read :
    Component.extract capturingSource ["this"] = .ok capturingComponent ∧
      capturingMethod ∈ capturingComponent.methods ∧ capturingMethod.params = "v" ∧
      (CodeMap.ofText capturingMethod.body.text).StateRead "this" "v" 9 ∧
      convert capturingSource ["this"] = .ok ⟨capturedModule, []⟩ :=
  ⟨extract_capturing, List.mem_singleton.mpr rfl, rfl, capturing_read, convert_capturing⟩

end Declass
