import Declass.Proofs.StateSightings

/-!
# What is said about the statements of a constructor

**Input.** A class component with a constructor.

**Algorithm.** The body of the constructor is cut at the semicolons outside all brackets.  A part is
left out without a word if it is excused as a whole: it starts with a call of the super class, or a
binding or an assignment to the state occurs somewhere in it.  About each other part there is one
warning, whose range is the part without the trivia around it.

**Results.** `constructor_assignments_reported`: an assignment to a member of a receiver is reported
if and only if the part it stands in is not excused.  Statements that only a line feed divides are
one part, so that one of them can excuse another.
-/

namespace Declass

open CodeMap

theorem Text.contains_iff {needle t : Text} : contains needle t ↔ needle <:+: t := by
  induction t with
  | nil => simp [contains]
  | cons c t ih =>
    rw [contains, Bool.or_eq_true, ih, List.isPrefixOf_iff_prefix, List.infix_cons_iff]

namespace CodeMap

section Parts

variable {start stop p : Nat} {cuts : List Nat}

theorem exists_mem_cut (hstart : start ≤ p) (hstop : p < stop) (hp : p ∉ cuts) :
    ∃ part ∈ cut start stop cuts, part.start ≤ p ∧ p < part.stop := by
  induction cuts generalizing start with
  | nil => exact ⟨⟨start, stop⟩, List.mem_singleton.mpr rfl, hstart, hstop⟩
  | cons i cuts ih =>
    rw [List.mem_cons, not_or] at hp
    by_cases hlt : p < i
    · exact ⟨⟨start, i⟩, List.mem_cons_self, hstart, hlt⟩
    · have hnext : i + 1 ≤ p := by omega
      obtain ⟨part, hpart, hin⟩ := ih hnext hp.2
      exact ⟨part, List.mem_cons_of_mem _ hpart, hin⟩

theorem cut_ordered (hsorted : cuts.Pairwise (· < ·)) (hin : ∀ j ∈ cuts, start ≤ j ∧ j < stop)
    (hle : start ≤ stop) : (cut start stop cuts).Pairwise fun a b => a.stop ≤ b.start := by
  induction cuts generalizing start with
  | nil => exact List.pairwise_singleton _ _
  | cons i cuts ih =>
    obtain ⟨hfirst, hsorted⟩ := List.pairwise_cons.mp hsorted
    have hi := hin i List.mem_cons_self
    have hcuts : ∀ j ∈ cuts, i + 1 ≤ j ∧ j < stop := fun j hj =>
      ⟨hfirst j hj, (hin j (List.mem_cons_of_mem _ hj)).2⟩
    refine .cons (fun part hpart => ?_) (ih hsorted hcuts (by omega))
    have := (mem_cut hsorted hcuts (by omega) hpart).1
    dsimp only
    omega

end Parts

theorem splitTop_unique {m : CodeMap} {start stop p : Nat} {sep : Char} {a b : Span}
    (hle : start ≤ stop) (ha : a ∈ m.splitTop start stop sep) (hb : b ∈ m.splitTop start stop sep)
    (hpa : a.start ≤ p ∧ p < a.stop) (hpb : b.start ≤ p ∧ p < b.stop) : a = b := by
  have hcuts : ∀ j ∈ m.outer (m.isCodeChar · sep) start stop, start ≤ j ∧ j < stop := by
    intro j hj
    have := mem_outerFrom hj
    exact ⟨this.1, by omega⟩
  have hsymm : Std.Symm fun a b : Span => a.Apart b := ⟨fun _ _ => Or.symm⟩
  have hapart : (m.splitTop start stop sep).Pairwise fun a b => a.Apart b :=
    (cut_ordered outerFrom_pairwise hcuts hle).imp .inl
  by_contra hne
  have := hapart.forall ha hb hne
  unfold Span.Apart at this
  omega

/-- The part without the trivia around it. -/
def statementSpan (m : CodeMap) (part : Span) : Span :=
  let start := m.skipTrivia part.start part.stop
  ⟨start, m.trimTrivia start part.stop⟩

theorem mem_statementSpan {m : CodeMap} {part : Span} {p : Nat} (hstart : part.start ≤ p)
    (hstop : p < part.stop) (hp : m.has Slot.isTrivia p = false) :
    (m.statementSpan part).start ≤ p ∧ p < (m.statementSpan part).stop := by
  constructor
  · by_contra hlt
    rw [has_of_skipWhile m _ _ _ p hstart (not_le.mp hlt)] at hp
    cases hp
  · by_contra hle
    rw [has_of_skipBackWhile m _ _ _ p (not_lt.mp hle) hstop] at hp
    cases hp

end CodeMap

namespace Component

/-- Somewhere in the text a literal is assigned to the state of a receiver. -/
def AssignsState (receivers : List Text) (t : Text) : Prop :=
  ∃ a pre post, Assignment.Fits receivers a ∧ t = pre ++ (a.text ++ post) ∧
    Text.EdgeBetween pre (a.text ++ post)

theorem stateAssignments_ne_nil_iff {receivers : List Text} {t : Text} :
    stateAssignments receivers t ≠ [] ↔ AssignsState receivers t := by
  unfold stateAssignments
  constructor
  · intro h
    split at h
    · exact absurd rfl h
    rename_i hne
    obtain ⟨found, hfound⟩ := List.exists_mem_of_ne_nil _ h
    obtain ⟨pre, rest, rfl, hmatch⟩ := Pattern.exists_of_mem_occurrences hfound
    obtain ⟨hedge, -, a, post, ha, rfl, -⟩ :=
      Assignment.exists_of_matchAt (by simpa using hne) hmatch
    exact ⟨a, pre, post, ha, rfl, hedge⟩
  · rintro ⟨a, pre, post, ha, rfl, hedge⟩
    have hne : receivers ≠ [] := List.ne_nil_of_mem ha.receiver
    rw [if_neg (by simpa using hne)]
    obtain ⟨found, hmatch⟩ := Assignment.exists_matchAt ha hedge
    rcases Pattern.mem_occurrences_or_inside (by simp [a.text_ne_nil]) hmatch with
      hmem | ⟨g, hmem, -⟩
    · exact List.ne_nil_of_mem hmem
    · exact List.ne_nil_of_mem hmem

/-- Why a part of a constructor is left out without a word: it calls the super class first, or it
has a binding or an assignment to the state in it. -/
inductive Excuses (m : CodeMap) (receivers : List Text) (part : Span) : Prop
  | super (h : m.stands (m.statementSpan part).start "super" = true)
  | bind {statement : Text}
      (hs : m.slice (m.statementSpan part).start (m.statementSpan part).stop = .ok statement)
      (h : ".bind(" <:+: statement)
  | state {statement : Text}
      (hs : m.slice (m.statementSpan part).start (m.statementSpan part).stop = .ok statement)
      (h : AssignsState receivers statement)

section Statement

variable {m : CodeMap} {ps : Painted} (hm : m.Shows ps) {receivers : List Text} {part : Span}
include hm

theorem hasCounterpart_yields {statement : Text}
    (hs : m.slice (m.statementSpan part).start (m.statementSpan part).stop = .ok statement) :
    Yields (hasCounterpart m receivers (m.statementSpan part).start statement) fun kept =>
      kept ↔ Excuses m receivers part := by
  unfold hasCounterpart
  rw [wordAt_eq hm (by decide)]
  refine .ok ?_
  have hstate : (stateAssignments receivers statement).isEmpty = false ↔
      AssignsState receivers statement := by
    rw [← stateAssignments_ne_nil_iff]
    simp
  rw [Bool.or_eq_true, Bool.or_eq_true, Text.contains_iff, Bool.not_eq_true', hstate, or_assoc]
  constructor
  · rintro (h | h | h)
    · exact .super h
    · exact .bind hs h
    · exact .state hs h
  · rintro (h | ⟨hs', h⟩ | ⟨hs', h⟩)
    · exact .inl h
    · cases hs.symm.trans hs'
      exact .inr (.inl h)
    · cases hs.symm.trans hs'
      exact .inr (.inr h)

/-- About a part of a constructor in which there is more than trivia there is one warning, unless
the part is excused. -/
theorem droppedStatement_eq {p : Nat} (hw : m.Whole part.start part.stop)
    (hstart : part.start ≤ p) (hstop : p < part.stop) (hp : m.has Slot.isTrivia p = false) :
    Yields (droppedStatement m receivers part) fun ws =>
      (Excuses m receivers part ∧ ws = []) ∨ ¬Excuses m receivers part ∧
        ∃ line, ws = [⟨.constructorStatementDropped line, (m.statementSpan part).clamp⟩] := by
  obtain ⟨hle, hlt⟩ := mem_statementSpan hstart hstop hp
  have hbefore : m.skipTrivia part.start part.stop < part.stop := lt_of_le_of_lt hle hstop
  have hboundary := skipTrivia_boundary hm hw.left hw.right
  have hwhole : m.Whole (m.statementSpan part).start (m.statementSpan part).stop :=
    ⟨le_of_lt (lt_of_le_of_lt hle hlt), hboundary, trimTrivia_boundary hm hboundary hw.right⟩
  unfold droppedStatement
  dsimp only
  rw [if_neg (by omega)]
  obtain ⟨statement, hs, -⟩ := slice_yields hm hwhole
  rw [show m.slice (m.skipTrivia part.start part.stop)
    (m.trimTrivia (m.skipTrivia part.start part.stop) part.stop) = .ok statement from hs]
  refine (hasCounterpart_yields hm hs).bind fun kept hkept => ?_
  split
  · rename_i h
    exact .ok (.inl ⟨hkept.mp h, rfl⟩)
  · rename_i h
    refine (Warning.about_yields _ hwhole.le).bind fun w hw => .ok ?_
    exact .inr ⟨fun hexcuses => h (hkept.mpr hexcuses), _, by rw [hw]⟩

end Statement

end Component

/-- The range takes in the position. -/
def Span.Covers (s : Span) (i : Nat) : Prop := s.start ≤ i ∧ i < s.stop

theorem Warning.Within.covers {w : Warning} {range : Span} {i : Nat} (h : w.Within range)
    (hlimit : range.stop ≤ Span.limit) (hw : w.range.Covers i) : range.Covers i := by
  obtain ⟨start, stop, heq, hstart, hlt, hstop⟩ := h
  rw [heq, Span.clamp_of_le (le_of_lt hlt) (le_trans hstop hlimit)] at hw
  exact ⟨le_trans hstart hw.1, lt_of_lt_of_le hw.2 hstop⟩

namespace Component

/-- The warning is about a statement of a constructor. -/
def ReportsStatement (w : Warning) : Prop := ∃ line, w.notice = .constructorStatementDropped line

/-- A place in the body of a constructor that is no trivia is reported if and only if the part it
lies in is not excused. -/
theorem droppedStatements_covers {m : CodeMap} {ps : Painted} (hm : m.Shows ps)
    {receivers : List Text} {parts : FunctionParts} {range part : Span} {dropped : List Warning}
    {i : Nat} (hbody : parts.body = .block range) (hrange : m.Whole range.start range.stop)
    (hlimit : range.stop ≤ Span.limit) (h : droppedStatements m receivers parts = .ok dropped)
    (hpart : part ∈ m.splitTop range.start range.stop ';') (hi : part.Covers i)
    (hcode : m.has Slot.isTrivia i = false) :
    (∃ w ∈ dropped, ReportsStatement w ∧ w.range.Covers i) ↔ ¬Excuses m receivers part := by
  unfold droppedStatements at h
  rw [hbody] at h
  obtain ⟨wss, hwss, h⟩ := bind_eq_ok h
  cases h
  have hpartners := partners_of_forall₂ (mapM_eq_ok hwss)
  have hwhole : ∀ a ∈ m.splitTop range.start range.stop ';',
      m.Whole a.start a.stop ∧ a.stop ≤ Span.limit := fun a ha => by
    obtain ⟨hwhole, -, hstop⟩ := splitTop_whole hm hrange rfl ha
    exact ⟨hwhole, le_trans hstop hlimit⟩
  obtain ⟨ws, hws, hdrop⟩ := hpartners.2 part hpart
  have hspec := (droppedStatement_eq hm (hwhole part hpart).1 hi.1 hi.2 hcode).of_eq hdrop
  constructor
  · rintro ⟨w, hw, -, hcovers⟩
    obtain ⟨ws', hws', hw⟩ := List.mem_flatten.mp hw
    obtain ⟨part', hpart', hdrop'⟩ := hpartners.1 ws' hws'
    -- A warning lies in its own part, and the place in one part only.
    have hwithin := (droppedStatement_yields hm receivers (hwhole part' hpart').1).of_eq hdrop' w hw
    obtain rfl := splitTop_unique hrange.le hpart hpart' hi
      (hwithin.covers (hwhole part' hpart').2 hcovers)
    obtain rfl := Except.ok.inj (hdrop.symm.trans hdrop')
    rcases hspec with ⟨-, rfl⟩ | ⟨hno, -⟩
    · cases hw
    · exact hno
  · intro hno
    obtain ⟨line, rfl⟩ := (hspec.resolve_left fun h => hno h.1).2
    obtain ⟨hle, hlt⟩ := mem_statementSpan hi.1 hi.2 hcode
    refine ⟨_, List.mem_flatten.mpr ⟨_, hws, List.mem_singleton.mpr rfl⟩, ⟨line, rfl⟩, ?_⟩
    have hstop : (m.statementSpan part).stop ≤ Span.limit :=
      le_trans (trimTrivia_le m _ _) (hwhole part hpart).2
    rw [Span.clamp_of_le (le_of_lt (lt_of_le_of_lt hle hlt)) hstop]
    exact ⟨hle, hlt⟩

end Component

/-- The member is the constructor. -/
structure Member.Constructs (member : Member) (parts : FunctionParts) : Prop where
  kind : member.kind = .function parts
  isStatic : member.isStatic = false
  name : member.name = "constructor"

namespace Component

/-- A constructor adds nothing but the warnings about its statements. -/
theorem Findings.add_of_constructs {m : CodeMap} {receivers : List Text} {f f' : Findings}
    {member : Member} {parts : FunctionParts} (hconstructs : member.Constructs parts)
    (h : add m receivers f member = .ok f') : ∃ dropped,
      droppedStatements m receivers parts = .ok dropped ∧ f'.warnings = f.warnings ++ dropped := by
  obtain ⟨hkind, hstatic, hname⟩ := hconstructs
  obtain ⟨range, -, h⟩ := bind_eq_ok h
  rw [hname, if_neg (by decide), hstatic, if_neg (by decide), hkind] at h
  dsimp only at h
  unfold addFunction at h
  rw [hname] at h
  obtain ⟨dropped, hdropped, h⟩ := bind_eq_ok h
  cases h
  exact ⟨dropped, hdropped, rfl⟩

/-- The warning is about a range that has no position in common with this one. -/
def Avoids (w : Warning) (range : Span) : Prop :=
  ∃ other : Span, w.Within other ∧ other.stop ≤ Span.limit ∧ other.Apart range

theorem Avoids.not_covers {w : Warning} {range : Span} {i : Nat} (h : Avoids w range)
    (hi : range.Covers i) : ¬w.range.Covers i := by
  obtain ⟨other, hin, hlimit, hapart⟩ := h
  intro hcovers
  have hother := hin.covers hlimit hcovers
  unfold Span.Covers at hi hother
  unfold Span.Apart at hapart
  omega

theorem exists_add {t : Text} {receivers : List Text} {header : Match} {body : Span}
    {found : Findings} {render : FunctionParts} {pieces : Snippet × Snippet}
    (hx : Extracts t receivers header body found render pieces)
    (hsize : (ofText t).size ≤ Span.limit) {listing : Member.Listing}
    (hlist : Member.list (ofText t) body.start body.stop = .ok listing) {member : Member}
    (hmem : member ∈ listing.members) : ∃ f₁ f₂,
      Findings.add (ofText t) receivers f₁ member = .ok f₂ ∧
        (∀ w ∈ f₁.warnings, Avoids w member.range) ∧ (∀ w ∈ f₂.warnings, w ∈ found.warnings) ∧
        ∀ w ∈ found.warnings, w ∈ f₂.warnings ∨ Avoids w member.range := by
  have hm := Scan.ofText_shows t
  obtain ⟨hwhole, hend⟩ := classBody?_spec hm hx.hbody
  obtain ⟨listing', hlist', hfold⟩ := bind_eq_ok hx.hfound
  obtain rfl := Except.ok.inj (hlist.symm.trans hlist')
  obtain ⟨assigned, -, hfold⟩ := bind_eq_ok hfold
  have hlies := (Member.list_yields rfl hwhole hend).of_eq hlist
  obtain ⟨hinside, hordered, hapart⟩ := Member.list_disjoint rfl hwhole hend hlist
  have hstop : body.stop ≤ Span.limit := le_trans (isBoundary_le hm hwhole.right) hsize
  obtain ⟨before, after, hsplit⟩ := List.append_of_mem hmem
  have hlimit : ∀ a ∈ listing.members, a.range.stop ≤ Span.limit := fun a ha =>
    le_trans (hinside a ha).2.2 hstop
  have hgrows : ∀ {members : List Member} {f f' : Findings}, members ⊆ listing.members →
      members.foldlM (Findings.add (ofText t) receivers) f = .ok f' →
      Findings.Grows members f f' := fun hsub hfold =>
    Findings.foldlM_grows hm (fun a ha => ⟨hlies a (hsub ha), (hinside a (hsub ha)).2.1⟩) hfold
  rw [hsplit, List.foldlM_append] at hfold
  obtain ⟨f₁, hf₁, hfold⟩ := bind_eq_ok hfold
  obtain ⟨f₂, hf₂, hf₃⟩ := bind_eq_ok hfold
  rw [hsplit, List.pairwise_append, List.pairwise_cons] at hordered
  obtain ⟨-, ⟨hbehind, -⟩, hahead⟩ := hordered
  obtain ⟨ws, hws, hin⟩ := (hgrows (by simp [hsplit]) hf₁).warnings
  obtain ⟨ws', hws', hin'⟩ := (hgrows (by simp [hsplit]) hf₃).warnings
  refine ⟨f₁, f₂, hf₂, fun w hw => ?_, fun w hw => ?_, fun w hw => ?_⟩
  · rw [hws] at hw
    rcases List.mem_append.mp hw with hw | hw
    · obtain ⟨range, hin, hle, hfar⟩ := hapart w hw
      exact ⟨range, hin, le_trans hle hstop, hfar member hmem⟩
    · obtain ⟨a, ha, hw⟩ := hin w hw
      exact ⟨a.range, hw, hlimit a (by simp [hsplit, ha]), .inl (hahead a ha member (by simp))⟩
  · rw [hws']
    exact List.mem_append_left _ hw
  · rw [hws'] at hw
    rcases List.mem_append.mp hw with hw | hw
    · exact .inl hw
    · obtain ⟨a, ha, hw⟩ := hin' w hw
      exact .inr ⟨a.range, hw, hlimit a (by simp [hsplit, ha]), .inr (hbehind a ha)⟩

end Component

namespace CodeMap

/-- At the position a value is assigned to a member of a receiver that is not the state. -/
@[mk_iff] structure AssignsMember (m : CodeMap) (receivers : List Text) (i : Nat) (w key : Text) :
    Prop where
  mem : w ∈ receivers
  receiver : w.isIdentifier = true
  code : m.isCode i = true
  stands : m.stands i w = true
  dot : m.isCodeChar (i + w.size) '.' = true
  name : key.isIdentifier = true
  other : key ≠ "state"
  spells : m.spells key (i + w.size + 1) = true
  whole : ((m.charAt? (i + w.size + 1 + key.size)).all fun c => !Character.isIdentPart c) = true
  equals : m.isCodeChar (m.skipTrivia (i + w.size + 1 + key.size) m.size) '=' = true
  single : m.charAt? (m.skipTrivia (i + w.size + 1 + key.size) m.size + 1) ≠ some '='

instance (m : CodeMap) (receivers : List Text) (i : Nat) (w key : Text) :
    Decidable (m.AssignsMember receivers i w key) :=
  decidable_of_iff' _ (assignsMember_iff m receivers i w key)

end CodeMap

namespace Component

/-- An assignment to a member of a receiver in the body of a constructor is reported if and only if
the part it stands in, from one semicolon outside all brackets to the next, is not excused. -/
theorem constructor_assignments_reported {t : Text} {receivers : List Text} {c : Component}
    (hsize : t.size ≤ Span.limit) (h : extract t receivers = .ok c) :
    ∃ header body listing, findDeclaration? (ofText t) t = some header ∧
      classBody? (ofText t) header = some body ∧
      Member.list (ofText t) body.start body.stop = .ok listing ∧
      ∀ member ∈ listing.members, ∀ parts range, member.Constructs parts →
        parts.body = .block range → ∀ i w key, (ofText t).AssignsMember receivers i w key →
        range.Covers i → ∃ part ∈ (ofText t).splitTop range.start range.stop ';', part.Covers i ∧
          ((∃ warning ∈ c.warnings, ReportsStatement warning ∧ warning.range.Covers i) ↔
            ¬Excuses (ofText t) receivers part) := by
  obtain ⟨header, body, found, render, pieces, hx, rfl⟩ := extract_iff.mp h
  have hm := Scan.ofText_shows t
  have hlimit : (ofText t).size ≤ Span.limit := by
    rwa [size_eq_width hm, Slot.width, Scan.kinds_chars]
  obtain ⟨hwhole, hend⟩ := classBody?_spec hm hx.hbody
  obtain ⟨listing, hlist, -⟩ := bind_eq_ok hx.hfound
  refine ⟨header, body, listing, hx.hheader, hx.hbody, hlist, ?_⟩
  intro member hmem parts range hconstructs hblock i w key hassigns hi
  obtain ⟨htrivia, hother⟩ := slot_of_stands hassigns.receiver hassigns.code hassigns.stands
  have hlies := (Member.list_yields rfl hwhole hend).of_eq hlist member hmem
  have hrange : (ofText t).Whole range.start range.stop := by
    simpa [hblock, Body.range] using (hlies.parts _ hconstructs.kind).body.whole
  have hinside : i ∉ (ofText t).outer ((ofText t).isCodeChar · ';') range.start range.stop := by
    intro hmem
    have hsep := hother ';' (by decide)
    rw [(mem_outerFrom hmem).2.2] at hsep
    cases hsep
  obtain ⟨part, hpart, hpartCovers⟩ := exists_mem_cut hi.1 hi.2 hinside
  refine ⟨part, hpart, hpartCovers, ?_⟩
  obtain ⟨f₁, f₂, hadd, hfirst, hkept, hlast⟩ := exists_add hx hlimit hlist hmem
  obtain ⟨dropped, hdropped, hwarnings⟩ := Findings.add_of_constructs hconstructs hadd
  rw [← droppedStatements_covers hm hblock hrange
    (le_trans (isBoundary_le hm hrange.right) hlimit) hdropped hpart hpartCovers htrivia]
  -- The place lies in the range of the member, which no other warning touches.
  have hmember : member.range.Covers i := by
    obtain ⟨hstart, hstop⟩ := hlies.inside _ hconstructs.kind
    rw [hblock] at hstart hstop
    exact ⟨le_trans (le_of_lt hstart) hi.1, lt_of_lt_of_le hi.2 hstop⟩
  rw [hwarnings] at hkept hlast
  constructor
  · rintro ⟨warning, hwarning, hreports, hcovers⟩
    refine ⟨warning, ?_, hreports, hcovers⟩
    rcases hlast warning hwarning with hold | havoids
    · refine (List.mem_append.mp hold).resolve_left fun hold => ?_
      exact (hfirst warning hold).not_covers hmember hcovers
    · exact absurd hcovers (havoids.not_covers hmember)
  · rintro ⟨warning, hwarning, hreports, hcovers⟩
    exact ⟨warning, hkept warning (List.mem_append_right _ hwarning), hreports, hcovers⟩

/-- A constructor with an assignment in a block and one on the line behind it. -/
def nestedAssignmentSource : Text :=
  "class A extends Component\x7bconstructor(p)\x7bsuper(p);if(p)\x7bthis.x=1\x7d\nthis.y=2\x7d" ++
    "render()\x7breturn 0\x7d\x7d"

/-- What is found in it. -/
def nestedAssignment : Component where
  name := "A"
  state := none
  mount := none
  unmount := none
  methods := []
  prelude := ⟨"", ⟨84, 84⟩⟩
  template := ⟨"0", ⟨91, 92⟩⟩
  warnings := [⟨.constructorStatementDropped "if(p)\x7bthis.x=1\x7d", ⟨50, 74⟩⟩]

theorem extract_nestedAssignment :
    extract nestedAssignmentSource ["this"] = .ok nestedAssignment := by
  decide +kernel

theorem nestedAssignment_assignsMember :
    (ofText nestedAssignmentSource).AssignsMember ["this"] 56 "this" "x" := by
  decide +kernel

theorem constructor_assignments_reported_nested :
    Text.size nestedAssignmentSource ≤ Span.limit ∧
      extract nestedAssignmentSource ["this"] = .ok nestedAssignment ∧
      (ofText nestedAssignmentSource).AssignsMember ["this"] 56 "this" "x" ∧
      ∃ part ∈ (ofText nestedAssignmentSource).splitTop 41 74 ';', part.Covers 56 ∧
        ((∃ warning ∈ nestedAssignment.warnings,
            ReportsStatement warning ∧ warning.range.Covers 56) ↔
          ¬Excuses (ofText nestedAssignmentSource) ["this"] part) := by
  have hsize : Text.size nestedAssignmentSource ≤ Span.limit := by decide +kernel
  refine ⟨hsize, extract_nestedAssignment, nestedAssignment_assignsMember, ?_⟩
  obtain ⟨header, body, listing, hheader, hbody, hlist, hall⟩ :=
    constructor_assignments_reported hsize extract_nestedAssignment
  cases hheader.symm.trans (show _ = some (⟨0, 25, "A"⟩ : Match) by decide +kernel)
  cases hbody.symm.trans (show _ = some (⟨26, 93⟩ : Span) by decide +kernel)
  let parts : FunctionParts := ⟨false, ⟨38, 39⟩, .block ⟨41, 74⟩⟩
  cases hlist.symm.trans (show _ = Except.ok (⟨[⟨"constructor", false, ⟨26, 75⟩, .function parts⟩,
    ⟨"render", false, ⟨75, 93⟩, .function ⟨false, ⟨82, 82⟩, .block ⟨84, 92⟩⟩⟩], []⟩ :
      Member.Listing) by decide +kernel)
  exact hall _ List.mem_cons_self parts ⟨41, 74⟩ ⟨rfl, rfl, rfl⟩ rfl 56 "this" "x"
    nestedAssignment_assignsMember ⟨by decide, by decide⟩

/-- A constructor in which an assignment stands on the line behind the call of the super class. -/
def linedAssignmentSource : Text :=
  "class A extends Component\x7bconstructor()\x7bsuper()\nthis.x=1\x7drender()\x7breturn 0\x7d\x7d"

/-- What is found in it. -/
def linedAssignment : Component where
  name := "A"
  state := none
  mount := none
  unmount := none
  methods := []
  prelude := ⟨"", ⟨66, 66⟩⟩
  template := ⟨"0", ⟨73, 74⟩⟩
  warnings := []

/-- The assignment stands outside all brackets, and no binding comes behind it, but nothing is said
about it: no semicolon divides it from the call of the super class. -/
theorem assignment_hidden_by_super :
    extract linedAssignmentSource ["this"] = .ok linedAssignment ∧
      (∃ listing, Member.list (ofText linedAssignmentSource) 26 75 = .ok listing ∧
        ∃ member ∈ listing.members, ∃ parts, member.Constructs parts ∧
          parts.body = .block ⟨40, 56⟩) ∧
      48 ∈ (ofText linedAssignmentSource).outer (fun _ => true) 40 56 ∧
      (ofText linedAssignmentSource).AssignsMember ["this"] 48 "this" "x" ∧
      Text.contains ".bind(" (linedAssignmentSource.drop 48) = false ∧
      ¬∃ warning ∈ linedAssignment.warnings,
        ReportsStatement warning ∧ warning.range.Covers 48 := by
  refine ⟨by decide +kernel, ⟨⟨[⟨"constructor", false, ⟨26, 57⟩,
    .function ⟨false, ⟨38, 38⟩, .block ⟨40, 56⟩⟩⟩,
    ⟨"render", false, ⟨57, 75⟩, .function ⟨false, ⟨64, 64⟩, .block ⟨66, 74⟩⟩⟩], []⟩,
    by decide +kernel, _, List.mem_cons_self, _, ⟨rfl, rfl, rfl⟩, rfl⟩, by decide +kernel,
    by decide +kernel, by decide +kernel, ?_⟩
  rintro ⟨warning, hwarning, -⟩
  cases hwarning

end Component

end Declass
