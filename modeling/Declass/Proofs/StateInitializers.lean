import Declass.Proofs.StateSightings

/-!
# Where the state initializer comes from

**Input.** A class component, and a resolver whose receivers are identifiers.

**Algorithm.** The initializer is the literal with the least key among those of the state fields and
that of the first assignment that is seen.  No brace stands inside an assignment, so the literal
with the least key is the one that starts first.

**Results.** `initializer_placed`: which assignments through a reference have the initializer at or
before their brace, and which initializers come from such an assignment.  Extraction and resolving
disagree where an edge is not the border of a reference.
-/

namespace Declass

open CodeMap

section Literals

/-- A closed literal of a state field starts at the position. -/
def FieldLiteral (m : CodeMap) (members : List Member) (start : Nat) : Prop :=
  ∃ member ∈ members, ∃ value, member.HoldsState m value ∧ value.start = start ∧
    (m.matching start).isSome = true

/-- The literals are those of the state fields, each with the position where it starts. -/
structure Collects (m : CodeMap) (members : List Member) (literals : List (Nat × Snippet)) :
    Prop where
  field : ∀ p ∈ literals, FieldLiteral m members p.1
  literal : ∀ p ∈ literals, ∃ close, m.matching p.1 = some close ∧ p.2.Is m p.1 (close + 1)
  complete : ∀ start, FieldLiteral m members start → ∃ s, (start, s) ∈ literals

variable {m : CodeMap} {receivers : List Text} {f f' : Component.Findings} {member : Member}
  {members : List Member}

theorem FieldLiteral.cons_iff {start : Nat} : FieldLiteral m (member :: members) start ↔
    FieldLiteral m [member] start ∨ FieldLiteral m members start := by
  simp [FieldLiteral]

theorem Collects.append {ls ls' : List (Nat × Snippet)} (h : Collects m [member] ls)
    (h' : Collects m members ls') : Collects m (member :: members) (ls ++ ls') := by
  refine ⟨fun p hp => ?_, fun p hp => ?_, fun start hstart => ?_⟩
  · rw [FieldLiteral.cons_iff]
    exact (List.mem_append.mp hp).imp (h.field p) (h'.field p)
  · exact (List.mem_append.mp hp).elim (h.literal p) (h'.literal p)
  · rcases FieldLiteral.cons_iff.mp hstart with hstart | hstart
    · obtain ⟨s, hs⟩ := h.complete start hstart
      exact ⟨s, List.mem_append_left _ hs⟩
    · obtain ⟨s, hs⟩ := h'.complete start hstart
      exact ⟨s, List.mem_append_right _ hs⟩

theorem Collects.of_other (h : ∀ value, ¬member.HoldsState m value) : Collects m [member] [] := by
  refine ⟨by simp, by simp, ?_⟩
  rintro start ⟨a, ha, value, hvalue, -⟩
  obtain rfl := List.mem_singleton.mp ha
  exact absurd hvalue (h value)

theorem Collects.of_holdsState {value : Span} {ls : List (Nat × Snippet)}
    (h : member.HoldsState m value)
    (hread : Component.Findings.ReadsLiteral m value.start value.start ls) :
    Collects m [member] ls := by
  have hstart : ∀ start, FieldLiteral m [member] start →
      start = value.start ∧ (m.matching value.start).isSome := by
    rintro start ⟨a, ha, value', hvalue, rfl, hmatch⟩
    obtain rfl := List.mem_singleton.mp ha
    obtain rfl := Option.some.inj (MemberKind.field.inj (hvalue.kind.symm.trans h.kind))
    exact ⟨rfl, hmatch⟩
  cases hread with
  | closed hmatch hs =>
    refine ⟨fun p hp => ?_, fun p hp => ?_, fun start hfield => ?_⟩
    · obtain rfl := List.mem_singleton.mp hp
      exact ⟨member, by simp, value, h, rfl, by rw [hmatch]; rfl⟩
    · obtain rfl := List.mem_singleton.mp hp
      exact ⟨_, hmatch, hs⟩
    · obtain ⟨rfl, -⟩ := hstart start hfield
      exact ⟨_, List.mem_singleton.mpr rfl⟩
  | unclosed hmatch =>
    refine ⟨by simp, by simp, fun start hfield => ?_⟩
    have hsome := (hstart start hfield).2
    rw [hmatch] at hsome
    cases hsome

theorem exists_literals_of_adds (h : Component.Findings.Adds m receivers f member f') :
    ∃ ls, f'.literals = f.literals ++ ls ∧ Collects m [member] ls := by
  have hother : ∀ {parts : FunctionParts}, member.kind = .function parts →
      ∀ value, ¬member.HoldsState m value := by
    intro parts hkind value hholds
    cases hkind.symm.trans hholds.kind
  cases h with
  | drop h =>
    exact ⟨[], (List.append_nil _).symm,
      .of_other fun value hholds => Component.Findings.not_drops_of_holdsState hholds h⟩
  | constructor hkind => exact ⟨[], (List.append_nil _).symm, .of_other (hother hkind)⟩
  | render hrenders => exact ⟨[], (List.append_nil _).symm, .of_other (hother hrenders.kind)⟩
  | @callback _ callback _ hkind =>
    refine ⟨[], ?_, .of_other (hother hkind)⟩
    cases callback <;> exact (List.append_nil _).symm
  | method hkind => exact ⟨[], (List.append_nil _).symm, .of_other (hother hkind)⟩
  | literal hholds hread => exact ⟨_, rfl, .of_holdsState hholds hread⟩

theorem exists_literals (h : members.foldlM (Component.Findings.add m receivers) f = .ok f') :
    ∃ ls, f'.literals = f.literals ++ ls ∧ Collects m members ls := by
  induction members generalizing f with
  | nil =>
    cases h
    exact ⟨[], (List.append_nil _).symm, by simp, by simp, by simp [FieldLiteral]⟩
  | cons member members ih =>
    obtain ⟨g, hg, h⟩ := bind_eq_ok h
    obtain ⟨ls, hls, hfirst⟩ := exists_literals_of_adds (Component.Findings.add_adds hg)
    obtain ⟨ls', hls', hrest⟩ := ih h
    exact ⟨ls ++ ls', by rw [hls', hls, List.append_assoc], hfirst.append hrest⟩

end Literals

section Earliest

open Component

theorem earliest_eq_none {ls : List (Nat × Snippet)} (h : earliest ls = none) : ls = [] := by
  cases ls with
  | nil => rfl
  | cons l ls =>
    rw [earliest] at h
    split at h
    · split at h <;> cases h
    · cases h

theorem earliest_le {ls : List (Nat × Snippet)} {l : Nat × Snippet} (h : earliest ls = some l) :
    ∀ p ∈ ls, l.1 ≤ p.1 := by
  induction ls generalizing l with
  | nil => cases h
  | cons first ls ih =>
    intro p hp
    rw [earliest] at h
    split at h
    · rename_i best hbest
      have hrest := ih hbest
      split at h
      · rename_i hle
        obtain rfl := Option.some.inj h
        rcases List.mem_cons.mp hp with rfl | hp
        · exact le_refl _
        · exact le_trans hle (hrest p hp)
      · rename_i hle
        obtain rfl := Option.some.inj h
        rcases List.mem_cons.mp hp with rfl | hp
        · exact le_of_lt (Nat.not_le.mp hle)
        · exact hrest p hp
    · rename_i hnone
      obtain rfl := Option.some.inj h
      rw [earliest_eq_none hnone, List.mem_singleton] at hp
      rw [hp]

end Earliest

section Placing

/-- The initializer is the closed literal that starts at the place, if there is one. -/
def InitializerAt (m : CodeMap) (state : Option Snippet) : Option Nat → Prop
  | none => state = none
  | some start => ∃ close s, m.matching start = some close ∧ s.Is m start (close + 1) ∧
      state = some s

/-- The place is the first one of those where a state field or the first assignment that is seen has
a closed literal. -/
structure Leftmost (t : Text) (body : Span) (receivers : List Text) (members : List Member)
    (place : Option Nat) : Prop where
  source : ∀ start ∈ place, FieldLiteral (ofText t) members start ∨
    ∃ a i, FirstSeen t body receivers a i ∧ a.brace i = start
  field : ∀ start, FieldLiteral (ofText t) members start → ∃ first ∈ place, first ≤ start
  assigned : ∀ a i, FirstSeen t body receivers a i →
    ((ofText t).matching (a.brace i)).isSome = true → ∃ first ∈ place, first ≤ a.brace i

variable {t : Text} {body : Span} {receivers : List Text} (hr : ∀ w ∈ receivers, w.isIdentifier)
include hr

/-- The brace of the first assignment comes before the braces of all that are seen. -/
theorem FirstSeen.brace_le {a b : Assignment} {i j : Nat} (ha : FirstSeen t body receivers a i)
    (hb : SeenAt t body receivers b j) : a.brace i ≤ b.brace j :=
  ha.seen.brace_le hr hb.charAt?_brace (le_trans (ha.first b j hb) (Nat.le_add_right _ _))

theorem FirstSeen.brace_unique {a b : Assignment} {i j : Nat}
    (ha : FirstSeen t body receivers a i) (hb : FirstSeen t body receivers b j) :
    a.brace i = b.brace j := le_antisymm (ha.brace_le hr hb.seen) (hb.brace_le hr ha.seen)

variable {header : Match} {found : Component.Findings} {render : FunctionParts}
  {pieces : Snippet × Snippet} (hx : Component.Extracts t receivers header body found render pieces)
include hx

/-- The initializer of a component is the literal that starts first. -/
theorem exists_leftmost : ∃ listing place,
    Member.list (ofText t) body.start body.stop = .ok listing ∧
    InitializerAt (ofText t) ((Component.earliest found.literals).map Prod.snd) place ∧
    Leftmost t body receivers listing.members place ∧
    ((∃ a i, SeenAt t body receivers a i) → ∃ a i, FirstSeen t body receivers a i) := by
  obtain ⟨listing, hlisting, h⟩ := bind_eq_ok hx.hfound
  obtain ⟨assigned, hassigned, h⟩ := bind_eq_ok h
  obtain ⟨ls, hls, hcollects⟩ := exists_literals h
  have hreads := assignedState_reads hr hx.hbody hassigned
  have hfirst : (∃ a i, SeenAt t body receivers a i) → ∃ a i, FirstSeen t body receivers a i := by
    rintro ⟨a, i, hseen⟩
    rcases hreads with ⟨-, hnone⟩ | ⟨b, j, hfirst, -⟩
    · exact absurd hseen (hnone a i)
    · exact ⟨b, j, hfirst⟩
  -- The first assignment, if it is closed, is in the list with the position where it starts.
  have hmem : ∀ a i, FirstSeen t body receivers a i →
      ((ofText t).matching (a.brace i)).isSome → ∃ s, (i, s) ∈ assigned := by
    intro a i ha hmatch
    rcases hreads with ⟨-, hnone⟩ | ⟨b, j, hb, hread⟩
    · exact absurd ha.seen (hnone a i)
    · rw [ha.brace_unique hr hb] at hmatch
      obtain rfl : i = j := le_antisymm (ha.first b j hb.seen) (hb.first a i ha.seen)
      cases hread with
      | closed _ hs => exact ⟨_, List.mem_singleton.mpr rfl⟩
      | unclosed hnone => rw [hnone] at hmatch; cases hmatch
  have hliterals : found.literals = assigned ++ ls := hls
  cases hearliest : Component.earliest found.literals with
  | none =>
    refine ⟨listing, none, hlisting, rfl, ⟨by simp, fun start hstart => ?_, fun a i ha hm => ?_⟩,
      hfirst⟩
    all_goals
      obtain ⟨hnil, hnil'⟩ := List.append_eq_nil_iff.mp
        (hliterals.symm.trans (earliest_eq_none hearliest))
    · obtain ⟨s, hs⟩ := hcollects.complete start hstart
      rw [hnil'] at hs
      cases hs
    · obtain ⟨s, hs⟩ := hmem a i ha hm
      rw [hnil] at hs
      cases hs
  | some l =>
    have hleast := earliest_le hearliest
    rw [hliterals] at hleast
    have hin := Component.mem_of_earliest hearliest
    rw [hliterals] at hin
    have hleastField : ∀ start, FieldLiteral (ofText t) listing.members start → l.1 ≤ start := by
      intro start hstart
      obtain ⟨s, hs⟩ := hcollects.complete start hstart
      exact hleast _ (List.mem_append_right _ hs)
    rcases List.mem_append.mp hin with hl | hl
    · rcases hreads with ⟨rfl, -⟩ | ⟨b, j, hb, hread⟩
      · cases hl
      cases hread with
      | unclosed => cases hl
      | @closed close s hmatch hs =>
        obtain rfl := List.mem_singleton.mp hl
        refine ⟨listing, some (b.brace j), hlisting, ⟨close, s, hmatch, hs, rfl⟩, ⟨?_, ?_, ?_⟩,
          hfirst⟩
        · rintro start ⟨⟩
          exact .inr ⟨b, j, hb, rfl⟩
        · intro start hstart
          -- The key is where the assignment starts, and no brace comes before its own.
          obtain ⟨member, -, value, hholds, rfl, -⟩ := id hstart
          exact ⟨_, rfl, hb.seen.brace_le hr (isCodeChar_charAt? hholds.literal)
            (hleastField _ hstart)⟩
        · intro a i ha _
          exact ⟨_, rfl, le_of_eq (hb.brace_unique hr ha)⟩
    · obtain ⟨close, hmatch, hs⟩ := hcollects.literal l hl
      refine ⟨listing, some l.1, hlisting, ⟨close, l.2, hmatch, hs, rfl⟩, ⟨?_, ?_, ?_⟩, hfirst⟩
      · rintro start ⟨⟩
        exact .inl (hcollects.field l hl)
      · exact fun start hstart => ⟨_, rfl, hleastField start hstart⟩
      · intro a i ha hmatch
        obtain ⟨s, hs⟩ := hmem a i ha hmatch
        exact ⟨_, rfl, le_trans (hleast _ (List.mem_append_left _ hs)) (Nat.le_add_right _ _)⟩

end Placing

section References

/-- At position `i` of the class body a reference, in the sense in which references are resolved,
goes on as the assignment. -/
structure Resolver.AssignsAt (r : Resolver) (t : Text) (body : Span) (a : Assignment) (i : Nat) :
    Prop where
  fits : a.Fits r.receivers
  place : Text.LiesAt t i a.text
  inside : body.start ≤ i ∧ a.brace i < body.stop
  receiver : r.receiverAt? (ofText t) i = .ok (some a.receiver)

/-- No character before the position makes what stands there part of a longer word or chain. -/
def CodeMap.isFresh (m : CodeMap) (i : Nat) : Bool :=
  (m.charBefore? i).all fun c => !Character.isIdentPart c && c != '.'

/-- The position is an edge in front of a word: a word character on one side only. -/
def CodeMap.isEdgeBefore (m : CodeMap) (i : Nat) (w : Text) : Bool :=
  (m.charBefore? i).any Character.isWord != w.head?.any Character.isWord

variable {r : Resolver} (hr : ∀ w ∈ r.receivers, w.isIdentifier) {t : Text} {body : Span}
  {a : Assignment} {i : Nat}
include hr

theorem Assignment.Fits.receiver_ne_nil (ha : a.Fits r.receivers) : a.receiver ≠ [] :=
  fun hnil => Resolver.nil_not_mem_receivers hr (hnil ▸ ha.receiver)

/-- An assignment in code goes on from a reference if and only if the receiver stands in front of
its dot, and is not part of a longer word or chain. -/
theorem receiverAt?_iff (ha : a.Fits r.receivers) (hplace : Text.LiesAt t i a.text)
    (hcode : (ofText t).isCode i) : r.receiverAt? (ofText t) i = .ok (some a.receiver) ↔
      a.beforeDot = [] ∧ (ofText t).isFresh i := by
  have hm := Scan.ofText_shows t
  rw [Resolver.receiverAt?_eq hm (Resolver.nil_not_mem_receivers hr), Except.ok.injEq]
  obtain ⟨pre, post, ht, hpre⟩ := hplace
  have hwhole : t = pre ++ (a.receiver ++ a.beforeDot ++ '.' :: (a.tail ++ '\x7b' :: post)) := by
    rw [ht, Assignment.text, Assignment.stem]
    simp
  constructor
  · intro hreferent
    obtain ⟨-, -, hstands, hdot, -⟩ := Resolver.referent?_spec hreferent
    simp only [stands, Bool.and_eq_true] at hstands
    refine ⟨?_, hstands.1.2⟩
    cases hspaces : a.beforeDot with
    | nil => rfl
    | cons c u =>
      have hc : (ofText t).charAt? (i + a.receiver.size) = some c := by
        refine charAt?_ofText_iff.mpr ⟨pre ++ a.receiver, ?_, ?_, ?_⟩
        · exact u ++ '.' :: (a.tail ++ '\x7b' :: post)
        · rw [hwhole, hspaces]
          simp
        · rw [Text.size_append, hpre]
      obtain rfl := Option.some.inj (hc.symm.trans (isCodeChar_charAt? hdot))
      have hspace := ha.beforeDot '.' (by simp [hspaces])
      cases hspace
  · rintro ⟨hspaces, hfresh⟩
    rw [hspaces] at hwhole
    have hfresh' : ∀ c, (ofText t).charBefore? i = some c →
        Character.isIdentPart c = false ∧ c ≠ '.' := by
      intro c hc
      simpa [isFresh, hc] using hfresh
    have hbefore : (ofText t).BeforeDot a.receiver i := by
      refine ⟨hcode, ?_, ?_, fun c hc => (hfresh' c hc).1⟩
      · have hlies : Text.LiesAt t i (a.receiver ++ ".") := by
          refine ⟨pre, a.tail ++ '\x7b' :: post, ?_, hpre⟩
          rw [hwhole]
          simp
        rw [← Scan.kinds_chars t] at hlies
        exact (spells_iff hm (slice_of_liesAt hm hlies).1.left).mpr hlies
      · -- The dot is followed by white space or by the name.
        intro hdot
        obtain ⟨pre', post', ht', hpre'⟩ := charAt?_ofText_iff.mp hdot
        have hsplit : (pre ++ a.receiver ++ ['.']) ++ (a.tail ++ '\x7b' :: post) =
            pre' ++ (['.'] ++ post') := by
          rw [← List.append_assoc pre', ← ht', hwhole]
          simp
        obtain ⟨-, htail⟩ := Text.append_inj_of_size hsplit (by
          rw [hpre', Text.size_append, Text.size_append, hpre]
          rfl)
        cases hnext : a.tail with
        | nil => simp [Assignment.tail] at hnext
        | cons d rest =>
          rw [hnext] at htail
          obtain rfl := (List.cons.inj htail).1
          have hmem : '.' ∈ a.tail := by rw [hnext]; exact List.mem_cons_self
          exact ha.not_mem_tail rfl rfl (by decide) hmem
    have hdot : (ofText t).charBefore? i ≠ some '.' := fun hc => (hfresh' _ hc).2 rfl
    exact Resolver.referent?_of_refers hm hr ha.receiver hcode
      (hbefore.refers (hr _ ha.receiver) hdot)

theorem Resolver.AssignsAt.isCode (h : r.AssignsAt t body a i) : (ofText t).isCode i := by
  have hreferent := h.receiver
  rw [receiverAt?_eq (Scan.ofText_shows t) (nil_not_mem_receivers hr), Except.ok.injEq] at hreferent
  exact (referent?_spec hreferent).2.1

/-- An assignment through a reference is seen if and only if it stands behind an edge. -/
theorem Resolver.AssignsAt.seenAt_iff (h : r.AssignsAt t body a i) :
    SeenAt t body r.receivers a i ↔ (ofText t).isEdgeBefore i a.receiver := by
  have hedge : ∀ {pre post}, t = pre ++ (a.text ++ post) → pre.size = i →
      (Text.EdgeBetween pre (a.text ++ post) ↔ (ofText t).isEdgeBefore i a.receiver) := by
    rintro pre post rfl rfl
    have hhead : (a.text ++ post).head? = a.receiver.head? := by
      rw [Assignment.text, Assignment.stem]
      simp only [List.append_assoc]
      exact List.head?_append_of_ne_nil _ (h.fits.receiver_ne_nil hr)
    rw [Text.EdgeBetween, isEdgeBefore, charBefore?_ofText, hhead, bne_iff_ne]
  constructor
  · intro hseen
    obtain ⟨pre, post, ht, hpre, hbetween⟩ := hseen.place
    exact (hedge ht hpre).mp hbetween
  · intro hbefore
    obtain ⟨pre, post, ht, hpre⟩ := h.place
    rw [List.append_assoc] at ht
    exact ⟨h.fits, ⟨pre, post, ht, hpre, (hedge ht hpre).mpr hbefore⟩, h.inside, h.isCode hr⟩

theorem SeenAt.assignsAt_iff (h : SeenAt t body r.receivers a i) :
    r.AssignsAt t body a i ↔ a.beforeDot = [] ∧ (ofText t).isFresh i := by
  obtain ⟨pre, post, ht, hpre, -⟩ := h.place
  have hplace : Text.LiesAt t i a.text := ⟨pre, post, by rw [ht, List.append_assoc], hpre⟩
  have hreceiver := receiverAt?_iff hr h.fits hplace h.code
  exact ⟨fun hassigns => hreceiver.mp hassigns.receiver,
    fun hfresh => ⟨h.fits, hplace, h.inside, hreceiver.mpr hfresh⟩⟩

end References

/-- How the place of the initializer and the assignments through references hang together. -/
structure InitializerPlaced (r : Resolver) (t : Text) (body : Span) (members : List Member)
    (place : Option Nat) : Prop where
  /-- The initializer starts no later than the literal of an assignment through a reference if and
  only if a state field has a closed literal before it, or the first assignment that is seen has. -/
  before_iff : ∀ a i, r.AssignsAt t body a i →
    ((∃ start ∈ place, start ≤ a.brace i) ↔
      (∃ start, FieldLiteral (ofText t) members start ∧ start ≤ a.brace i) ∨
      ∃ b j, FirstSeen t body r.receivers b j ∧
        ((ofText t).matching (b.brace j)).isSome = true ∧ b.brace j ≤ a.brace i)
  /-- Of the assignments through references, those behind an edge are seen. -/
  seen_iff : ∀ a i, r.AssignsAt t body a i →
    (SeenAt t body r.receivers a i ↔ (ofText t).isEdgeBefore i a.receiver = true)
  /-- Of those that are seen there is a first one. -/
  first : ∀ a i, SeenAt t body r.receivers a i →
    ∃ b j, FirstSeen t body r.receivers b j ∧ b.brace j ≤ a.brace i
  /-- An initializer that is not the literal of a state field is that of the first assignment that
  is seen, which goes through a reference if and only if its receiver stands in front of its dot and
  is not part of a longer word or chain. -/
  source : ∀ start ∈ place, FieldLiteral (ofText t) members start ∨
    ∃ a i, FirstSeen t body r.receivers a i ∧ a.brace i = start ∧
      (r.AssignsAt t body a i ↔ a.beforeDot = [] ∧ (ofText t).isFresh i = true)

open Component in
/-- Where the initializer of a component stands, among the state fields of its class and the
assignments to its state that are seen. -/
theorem initializer_placed {r : Resolver} (hr : ∀ w ∈ r.receivers, w.isIdentifier = true)
    {t : Text} {c : Component} (h : extract t r.receivers = .ok c) :
    ∃ header body listing place,
      findDeclaration? (ofText t) t = some header ∧ classBody? (ofText t) header = some body ∧
      Member.list (ofText t) body.start body.stop = .ok listing ∧
      InitializerAt (ofText t) c.state place ∧
      InitializerPlaced r t body listing.members place := by
  obtain ⟨header, body, found, render, pieces, hx, rfl⟩ := extract_iff.mp h
  obtain ⟨listing, place, hlisting, hplace, hleftmost, hfirst⟩ := exists_leftmost hr hx
  refine ⟨header, body, listing, place, hx.hheader, hx.hbody, hlisting, hplace, ?_, ?_, ?_, ?_⟩
  · intro a i _
    constructor
    · rintro ⟨start, hstart, hle⟩
      rcases hleftmost.source start hstart with hfield | ⟨b, j, hb, rfl⟩
      · exact .inl ⟨start, hfield, hle⟩
      · obtain rfl := Option.mem_def.mp hstart
        obtain ⟨close, s, hmatch, -⟩ := hplace
        exact .inr ⟨b, j, hb, by rw [hmatch]; rfl, hle⟩
    · rintro (⟨start, hfield, hle⟩ | ⟨b, j, hb, hmatch, hle⟩)
      · obtain ⟨first, hmem, hfirst⟩ := hleftmost.field start hfield
        exact ⟨first, hmem, le_trans hfirst hle⟩
      · obtain ⟨first, hmem, hfirst⟩ := hleftmost.assigned b j hb hmatch
        exact ⟨first, hmem, le_trans hfirst hle⟩
  · exact fun a i hassigns => hassigns.seenAt_iff hr
  · intro a i hseen
    obtain ⟨b, j, hb⟩ := hfirst ⟨a, i, hseen⟩
    exact ⟨b, j, hb, hb.brace_le hr hseen⟩
  · intro start hstart
    refine (hleftmost.source start hstart).imp id ?_
    rintro ⟨a, i, ha, hbrace⟩
    exact ⟨a, i, ha, hbrace, ha.seen.assignsAt_iff hr⟩

/-- A class that assigns the state of `$this`, of which a receiver is a part. -/
def longerSource : Text :=
  "class A extends Component\x7bconstructor()\x7b" ++
    "$this.state=\x7ba:1\x7d\x7drender()\x7breturn 0\x7d\x7d"

/-- What is extracted from it: the literal is taken for the initializer. -/
def longerComponent : Component where
  name := "A"
  state := some ⟨"\x7ba:1\x7d", ⟨52, 57⟩⟩
  mount := none
  unmount := none
  methods := []
  prelude := ⟨"", ⟨67, 67⟩⟩
  template := ⟨"0", ⟨74, 75⟩⟩
  warnings := []

theorem extract_longer : Component.extract longerSource ["this"] = .ok longerComponent := by
  decide +kernel

open Component in
/-- The initializer is the literal of the first assignment that is seen, which does not go through a
reference: its receiver is part of a longer word. -/
theorem initializer_placed_longer :
    extract longerSource ["this"] = .ok longerComponent ∧
    ∃ a i, FirstSeen longerSource ⟨26, 76⟩ ["this"] a i ∧
      InitializerAt (ofText longerSource) longerComponent.state (some (a.brace i)) ∧
      ¬Resolver.AssignsAt ⟨[], [], ["this"]⟩ longerSource ⟨26, 76⟩ a i ∧
      ¬(a.beforeDot = [] ∧ (ofText longerSource).isFresh i = true) := by
  obtain ⟨header, body, listing, place, hheader, hbody, hlist, hplace, hplaced⟩ :=
    @initializer_placed ⟨[], [], ["this"]⟩ (by decide) _ _ extract_longer
  obtain rfl : body = ⟨26, 76⟩ := body_eq_of_bind hheader hbody (by decide +kernel)
  have hmembers : Member.list (ofText longerSource) 26 76 = .ok ⟨[
      ⟨"constructor", false, ⟨26, 58⟩, .function ⟨false, ⟨38, 38⟩, .block ⟨40, 57⟩⟩⟩,
      ⟨"render", false, ⟨58, 76⟩, .function ⟨false, ⟨65, 65⟩, .block ⟨67, 75⟩⟩⟩], []⟩ := by
    decide +kernel
  obtain rfl := Except.ok.inj (hmembers.symm.trans hlist)
  cases place with
  | none => cases hplace
  | some start =>
    rcases hplaced.source start rfl with ⟨member, hmem, value, hstate, -⟩ | ⟨a, i, hfirst, rfl, hiff⟩
    · have hkind := hstate.kind
      simp only [List.mem_cons, List.not_mem_nil, or_false] at hmem
      rcases hmem with rfl | rfl <;> cases hkind
    · have hnone : ¬Resolver.AssignsAt ⟨[], [], ["this"]⟩ longerSource ⟨26, 76⟩ a i := by
        intro hassigns
        have hat : ∀ j < 76, Resolver.receiverAt? ⟨[], [], ["this"]⟩ (ofText longerSource) j =
            .ok none := by decide +kernel
        have hlt : i < 76 := lt_of_le_of_lt (Nat.le_add_right _ _) hassigns.inside.2
        cases (hat i hlt).symm.trans hassigns.receiver
      exact ⟨extract_longer, a, i, hfirst, hplace, hnone, fun hfresh => hnone (hiff.mpr hfresh)⟩

/-- A class that assigns the state of the receiver `$self`. -/
def dollarSource : Text :=
  "class A extends Component\x7bconstructor()\x7b" ++
    "$self.state=\x7ba:1\x7d\x7drender()\x7breturn 0\x7d\x7d"

/-- What is extracted from it: there is no state, and the assignment is dropped. -/
def dollarComponent : Component where
  name := "A"
  state := none
  mount := none
  unmount := none
  methods := []
  prelude := ⟨"", ⟨67, 67⟩⟩
  template := ⟨"0", ⟨74, 75⟩⟩
  warnings := [⟨.constructorStatementDropped "$self.state=\x7ba:1\x7d", ⟨40, 57⟩⟩]

/-- The assignment goes through a reference and has a closed literal, but it is not seen, since
there is no edge in front of `$`. -/
theorem dollar_receiver_unseen :
    Component.extract dollarSource ["$self"] = .ok dollarComponent ∧ dollarComponent.state = none ∧
      Resolver.AssignsAt ⟨[], [], ["$self"]⟩ dollarSource ⟨26, 76⟩ ⟨"$self", [], [], [], []⟩ 40 ∧
      (ofText dollarSource).matching 52 = some 56 ∧
      (ofText dollarSource).isEdgeBefore 40 "$self" = false := by
  refine ⟨by decide +kernel, rfl, ⟨?_, ?_, by decide, by decide +kernel⟩, by decide +kernel,
    by decide +kernel⟩
  · exact ⟨List.mem_singleton.mpr rfl, by simp, by simp, by simp, by simp⟩
  · exact ⟨"class A extends Component\x7bconstructor()\x7b",
      "a:1\x7d\x7drender()\x7breturn 0\x7d\x7d", rfl, by decide⟩

end Declass
