import Declass.Proofs.ScanTrace
import Declass.Proofs.Words

/-!
# Ranges of members

**Input.** The map of a text and a class body in it.

**Algorithm.** `Reading` lists what reading at one place can come to, with everything that decides
it.

**Results.** Reading the members of a class body never fails.  The parameters of every function are
a range of whole characters, and its body is a `Piece`: it starts where an expression or a block can
start and ends where nothing that is read together goes on.

The end of an identifier is not bounded by the range that is being read.  What keeps an identifier
inside is that every range ends at a `Fence`, where no identifier goes on: behind a class body, a
value or a body there is a bracket, a semicolon, layout, a comment or nothing.
-/

namespace Declass

open CodeMap (ofText spells)

theorem all_isPlainChar_of_isIdentifier {w : Text} (h : w.isIdentifier) :
    w.all Scan.isPlainChar := by
  rw [List.all_eq_true]
  intro c hc
  exact Scan.isPlainChar_of_isIdentPart (Text.isIdentPart_of_isIdentifier h c hc)

namespace CodeMap

/-- No identifier goes on across the position. -/
def Fence (m : CodeMap) (i : Nat) : Prop :=
  m.isBoundary i = true ∧ ∀ c, m.charAt? i = some c → Character.isIdentPart c = false

/-- Nothing that is read together goes on across the position. -/
inductive Closing (m : CodeMap) : Nat → Prop
  | size : Closing m m.size
  | code {i : Nat} (h : m.isCode i = true) : Closing m i
  | comment {i : Nat} {s : Slot} (hs : m.slots[i]? = some s) (hk : s.kind = .comment)
      (hbefore : ∀ j s', i = j + 1 → m.slots[j]? = some s' → s'.kind ≠ .comment) : Closing m i

/-- The end of a range. -/
structure Limit (m : CodeMap) (i : Nat) : Prop where
  fence : m.Fence i
  closing : m.Closing i

/-- A class body ends at a closing bracket, or with the text if it is never closed. -/
def BodyEnd (m : CodeMap) (stop : Nat) : Prop := stop = m.size ∨ m.has Slot.closes stop = true

/-- There is nothing but trivia from `i` up to `start`, where there is something else. -/
structure Behind (m : CodeMap) (i start : Nat) : Prop where
  le : i ≤ start
  trivia : ∀ j, i ≤ j → j < start → m.has Slot.isTrivia j = true
  stop : m.has Slot.isTrivia start = false

/-- The position is one where a block or an expression starts. -/
inductive Opening (m : CodeMap) : Nat → Prop
  | bracket {o : Nat} (h : m.has Slot.opens o = true) : Opening m (o + 1)
  | arrow {o start : Nat} (hcode : m.isCode o = true) (hword : m.spells "=>" o = true)
      (h : m.Behind (o + 2) start) : Opening m start
  | returned {o start : Nat} (hcode : m.isCode o = true) (hword : m.stands o "return" = true)
      (h : m.Behind (o + Text.size "return") start) : Opening m start

/-- A range of whole characters that can stand on its own. -/
structure Piece (m : CodeMap) (start stop : Nat) : Prop where
  whole : m.Whole start stop
  opening : m.Opening start
  closing : m.Closing stop

section Limits

variable {m : CodeMap} {ps : Painted} {i stop : Nat} {c : Char}

theorem isBoundary_charAt? (h : m.isBoundary i) {s : Slot} (hs : m.slots[i]? = some s) :
    ∃ c, s.char? = some c ∧ m.charAt? i = some c := by
  unfold isBoundary at h
  rw [hs] at h
  obtain ⟨c, hc⟩ := Option.isSome_iff_exists.mp h
  exact ⟨c, hc, by simp [charAt?, hs, hc]⟩

theorem fence_size (hm : m.Shows ps) : m.Fence m.size := by
  refine ⟨isBoundary_size hm, fun c hc => ?_⟩
  have hnone : m.slots[m.size]? = none := Array.getElem?_eq_none (le_refl _)
  simp [charAt?, hnone] at hc

theorem limit_of_codeChar (hm : m.Shows ps) (h : m.isCodeChar i c)
    (hc : Character.isIdentPart c = false) : m.Limit i := by
  have hchar := isCodeChar_charAt? h
  refine ⟨⟨(charAt?_boundary hm hchar).1, fun d hd => ?_⟩, .code (isCodeChar_isCode h)⟩
  rw [hchar] at hd
  cases hd
  exact hc

theorem limit_of_closes (hm : m.Shows ps) (h : m.has Slot.closes i) : m.Limit i := by
  rcases closes_iff.mp h with h | h | h
  · exact limit_of_codeChar hm h rfl
  · exact limit_of_codeChar hm h rfl
  · exact limit_of_codeChar hm h rfl

theorem BodyEnd.limit (hm : m.Shows ps) (h : m.BodyEnd stop) : m.Limit stop := by
  rcases h with rfl | h
  · exact ⟨fence_size hm, .size⟩
  · exact limit_of_closes hm h

/-- A character that is no closing bracket stands before the end of the class body. -/
theorem BodyEnd.lt (h : m.BodyEnd stop) (hle : i ≤ stop) (hi : m.isCodeChar i c)
    (hc : Slot.closes ⟨some c, .code⟩ = false) : i < stop := by
  rcases Nat.eq_or_lt_of_le hle with rfl | hlt
  · rcases h with rfl | h
    · exact absurd (codeChar_lt_size hi) (lt_irrefl _)
    · simp [has, isCodeChar_iff.mp hi, hc] at h
  · exact hlt

theorem BodyEnd.isCodeChar_eq_false (h : m.BodyEnd stop) (hc : Slot.closes ⟨some c, .code⟩ = false) :
    m.isCodeChar stop c = false := by
  cases hi : m.isCodeChar stop c with
  | false => rfl
  | true => exact absurd (h.lt (le_refl stop) hi hc) (lt_irrefl stop)

/-- An identifier that starts before a fence ends before it. -/
theorem identEnd_within (hm : m.Shows ps) (hi : m.isBoundary i) (hle : i ≤ stop)
    (hf : m.Fence stop) : Yields (m.identEnd i) fun e => m.Whole i e ∧ e ≤ stop := by
  obtain ⟨e, he, hwhole, -⟩ := identEnd_yields hm hi
  refine ⟨e, he, hwhole, ?_⟩
  by_contra hlt
  unfold identEnd at he
  rw [if_pos hi] at he
  split at he
  · rename_i hstart
    have he := Except.ok.inj he
    rcases Nat.eq_or_lt_of_le hle with rfl | hlt'
    · obtain ⟨c, hc, hident⟩ := (Option.any_eq_true _ _).mp hstart
      have := hf.2 c hc
      rw [Text.isIdentPart_of_isIdentStart hident] at this
      cases this
    · -- The walk passed the fence, so the character there is part of an identifier.
      have hpassed := has_of_skipWhile m (fun s => s.char?.all Character.isIdentPart)
        (m.size - (i + 1)) (i + 1) stop hlt' (by omega)
      obtain ⟨s, hs, hp⟩ := has_eq_true.mp hpassed
      obtain ⟨c, hsc, hc⟩ := isBoundary_charAt? hf.1 hs
      have := hf.2 c hc
      simp [hsc, this] at hp
  · have he := Except.ok.inj he
    omega

/-- A word of identifier characters that starts before a fence ends before it. -/
theorem spells_within (hm : m.Shows ps) (hf : m.Fence stop) {w : Text}
    (hw : w.all Character.isIdentPart) (h : m.spells w i) (hi : i < stop) : i + w.size ≤ stop := by
  induction w generalizing i with
  | nil =>
    simp only [Text.size_nil]
    omega
  | cons c w ih =>
    rw [spells, Bool.and_eq_true, beq_iff_eq] at h
    rw [List.all_cons, Bool.and_eq_true] at hw
    have hle := charAt?_le_boundary hm h.1 hf.1 hi
    rw [Text.size_cons]
    rcases Nat.eq_or_lt_of_le hle with heq | hlt
    · cases w with
      | nil => exact hle
      | cons d w =>
        -- The next character of the word would stand on the fence.
        have hd : m.charAt? stop = some d := by
          have := h.2
          rw [heq, spells, Bool.and_eq_true, beq_iff_eq] at this
          exact this.1
        have hident : Character.isIdentPart d := (by simpa using hw.2 : _ ∧ _).1
        rw [hf.2 d hd] at hident
        cases hident
    · have := ih hw.2 h.2 hlt
      omega

theorem skipTrivia_behind (h : m.skipTrivia i stop < stop) : m.Behind i (m.skipTrivia i stop) :=
  ⟨le_skipTrivia m i stop, fun _ hij hj => has_of_skipWhile m _ _ _ _ hij hj, skipTrivia_stop h⟩

theorem lt_trimTrivia {start : Nat} (h : start < stop) (hstart : m.has Slot.isTrivia start = false) :
    start < m.trimTrivia start stop := by
  have hle : start ≤ m.trimTrivia start stop := le_trimTrivia (le_of_lt h)
  rcases Nat.eq_or_lt_of_le hle with heq | hlt
  · have hnext : m.has Slot.isTrivia (m.trimTrivia start stop) := trimTrivia_next (by omega)
    rw [← heq, hstart] at hnext
    cases hnext
  · exact hlt

end Limits

section Trimming

variable {m : CodeMap} {t : Text} (hm : m = ofText t)
include hm

theorem shows : m.Shows (Scan.kinds t) := hm ▸ Scan.ofText_shows t

/-- The end of a trimmed range: behind it, a comment starts with its slash. -/
theorem limit_trimTrivia {start stop : Nat} (hb : m.isBoundary start) (h : start ≤ stop)
    (hl : m.Limit stop) (hstart : start < stop → m.has Slot.isTrivia start = false) :
    m.Limit (m.trimTrivia start stop) := by
  have hle := trimTrivia_le m start stop
  rcases Nat.eq_or_lt_of_le hle with heq | hlt
  · rw [heq]
    exact hl
  · have hlt' : start < stop := by
      have := le_trimTrivia (m := m) h
      omega
    have hpos := lt_trimTrivia hlt' (hstart hlt')
    have hlast := trimTrivia_last hpos
    have hbound := trimTrivia_boundary (shows hm) hb hl.fence.1
    obtain ⟨s, hs, htrivia⟩ := has_eq_true.mp (trimTrivia_next hlt)
    obtain ⟨c, hsc, hc⟩ := isBoundary_charAt? hbound hs
    simp only [Slot.isTrivia, Bool.or_eq_true, Bool.and_eq_true, beq_iff_eq] at htrivia
    rcases htrivia with hk | ⟨hcode, hlayout⟩
    · have hbefore : ∀ j s', m.trimTrivia start stop = j + 1 → m.slots[j]? = some s' →
          s'.kind ≠ .comment := by
        intro j s' hj hs' hkind
        rw [hj] at hlast
        simp [has, hs', Slot.isTrivia, hkind] at hlast
      refine ⟨⟨hbound, fun d hd => ?_⟩, .comment hs hk hbefore⟩
      have hslash : s.char? = some '/' := by
        subst hm
        exact Scan.ofText_comment_starts hs hk hbefore
      obtain rfl : d = '/' := by
        rw [hc] at hd
        rw [hsc] at hslash
        cases hd
        exact Option.some.inj hslash
      rfl
    · refine ⟨⟨hbound, fun d hd => ?_⟩, .code (has_eq_true.mpr ⟨s, hs, hcode⟩)⟩
      obtain rfl : d = c := Option.some.inj (hd.symm.trans hc)
      have hd : Character.isLayout d := by simpa [Slot.isLayout, hsc] using hlayout
      exact of_isLayout hd (by decide)

end Trimming

theorem isCodeChar_of_spells {t : Text} : ∀ {pre post : Text} {c : Char} {i : Nat},
    (pre ++ c :: post).all Scan.isPlainChar → (ofText t).isCode i →
    (ofText t).spells (pre ++ c :: post) i →
    (ofText t).isCodeChar (i + Text.size pre) c = true
  | pre, post, c, i, hw, hcode, hspells => by
      have hfirst : ∀ {d rest}, (ofText t).spells (d :: rest) i →
          (ofText t).isCodeChar i d := by
        intro d rest h
        simp only [spells, Bool.and_eq_true, beq_iff_eq] at h
        obtain ⟨s, hs, hsc⟩ := has_eq_true.mp hcode
        obtain ⟨char, kind⟩ := s
        obtain rfl : kind = .code := by simpa [Slot.isCode] using hsc
        obtain rfl : char = some d := by simpa [charAt?, hs] using h.1
        exact isCodeChar_iff.mpr hs
      cases pre with
      | nil => simpa using hfirst hspells
      | cons d pre =>
        have hd := hfirst hspells
        rw [List.cons_append, spells, Bool.and_eq_true] at hspells
        rw [List.cons_append, List.all_cons, Bool.and_eq_true] at hw
        -- The character behind `d` is the first one of what is left of the word.
        obtain ⟨e, rest, he⟩ : ∃ e rest, pre ++ c :: post = e :: rest := by
          cases pre with
          | nil => exact ⟨c, post, rfl⟩
          | cons e pre => exact ⟨e, pre ++ c :: post, rfl⟩
        have hnext : (ofText t).isCode (i + d.utf8Size) := by
          have hspells := hspells.2
          have hw' := hw.2
          rw [he, spells, Bool.and_eq_true, beq_iff_eq] at hspells
          rw [he, List.all_cons, Bool.and_eq_true] at hw'
          exact isCodeChar_isCode (isCodeChar_iff.mpr
            (Scan.ofText_code_next (isCodeChar_iff.mp hd) hw.1 hspells.1 hw'.1))
        have := isCodeChar_of_spells hw.2 hnext hspells.2
        rwa [Text.size_cons, ← Nat.add_assoc]
termination_by pre => pre.length

end CodeMap

open CodeMap

/-- The ranges of a function can be cut out, and its body can stand on its own. -/
structure FunctionParts.Lies (m : CodeMap) (f : FunctionParts) : Prop where
  params : m.Whole f.params.start f.params.stop
  body : m.Piece f.body.range.start f.body.range.stop
  fence : m.Limit f.body.range.stop

/-- The body of a function lies between `start`, where it does not begin, and `stop`. -/
def FunctionParts.Inside (start stop : Nat) (f : FunctionParts) : Prop :=
  start < f.body.range.start ∧ f.body.range.stop ≤ stop

namespace Member

/-- The range of a member is in order, and so are those of its function, which is inside, and of its
value. -/
structure Lies (m : CodeMap) (member : Member) : Prop where
  le : member.range.start ≤ member.range.stop
  parts : ∀ parts, member.kind = .function parts → parts.Lies m
  inside : ∀ parts, member.kind = .function parts →
    parts.Inside member.range.start member.range.stop
  value : ∀ value, member.kind = .field (some value) → m.Whole value.start value.stop

/-- What was read at `start` lies in order, and reading goes on at a boundary. -/
def Delimited.Lies (m : CodeMap) (start : Nat) : Delimited → Prop
  | .member found next => Member.Lies m found ∧ m.isBoundary next = true
  | .lost resume => m.Whole start resume

section Boundaries

variable {m : CodeMap} {ps : Painted} (hm : m.Shows ps)

theorem closing?_spec {i stop c : Nat} (h : closing? m i stop = some c) :
    m.matching i = some c ∧ c < stop := by
  simpa [closing?, Option.filter_eq_some_iff] using h

include hm

variable {i stop start : Nat}

theorem skipSeparators_boundary (hi : m.isBoundary i) (hle : i ≤ stop)
    (hstop : m.isBoundary stop) : m.isBoundary (skipSeparators m i stop) := by
  refine (skipWhile_ends hm (fun s hs => ?_) _ hi).elim id fun h => ?_
  · rcases Bool.or_eq_true _ _ ▸ hs with h | h
    · rcases isTrivia_carries s h with h | h
      · exact .inl h
      · exact .inr (by simp [h])
    · simp only [Slot.isCodeChar, Bool.and_eq_true, beq_iff_eq] at h
      exact .inl ⟨';', h.2, rfl⟩
  · rwa [skipSeparators, h, Nat.add_sub_cancel' hle]

omit hm in
/-- A value ends with the range, at a closing bracket, or at a semicolon or a line feed, behind which
reading goes on. -/
theorem valueEndFrom_cases {count depth e next : Nat} (hcount : i + count = stop)
    (h : valueEndFrom m start stop count depth i = (e, next)) :
    i ≤ e ∧ (e = stop ∧ next = stop ∨ e < stop ∧ (next = e ∧ m.has Slot.closes e ∨
      next = e + 1 ∧ (m.isCodeChar e ';' ∨ m.isCodeChar e '\n'))) := by
  induction count generalizing depth i with
  | zero =>
    cases h
    exact ⟨by omega, .inl ⟨rfl, rfl⟩⟩
  | succ count ih =>
    have hnext : ∀ {depth' : Nat}, valueEndFrom m start stop count depth' (i + 1) = (e, next) → _ :=
      fun h => (ih (by omega) h).imp_left Nat.le_of_succ_le
    rw [valueEndFrom] at h
    split_ifs at h with hopens hcloses hdepth hsep
    · exact hnext h
    · cases h
      exact ⟨le_refl _, .inr ⟨by omega, .inl ⟨rfl, hcloses⟩⟩⟩
    · exact hnext h
    · cases h
      simp only [Bool.and_eq_true, Bool.or_eq_true] at hsep
      exact ⟨le_refl _, .inr ⟨by omega, .inr ⟨rfl, hsep.2.imp_right And.left⟩⟩⟩
    · exact hnext h

/-- A value ends at a limit, and what ends it is a whole character. -/
theorem valueEndFrom_spec (hl : m.Limit stop) {count depth e next : Nat} (hcount : i + count = stop)
    (h : valueEndFrom m start stop count depth i = (e, next)) :
    i ≤ e ∧ e ≤ stop ∧ m.Limit e ∧ m.isBoundary next := by
  obtain ⟨hle, ⟨rfl, rfl⟩ | ⟨hlt, ⟨rfl, hcloses⟩ | ⟨rfl, hsep⟩⟩⟩ := valueEndFrom_cases hcount h
  · exact ⟨hle, le_refl _, hl, hl.fence.1⟩
  · exact ⟨hle, le_of_lt hlt, limit_of_closes hm hcloses, (closes_boundary hm hcloses).1⟩
  · rcases hsep with hsep | hsep <;>
      exact ⟨hle, le_of_lt hlt, limit_of_codeChar hm hsep rfl, (codeChar_boundary hm hsep rfl).2⟩

theorem recover_whole (hw : m.Whole start stop) : m.Whole start (recover m start stop) := by
  unfold recover
  split
  · rename_i i hi
    obtain ⟨h1, h2, h3⟩ := firstOuter?_spec hi
    simp only [Bool.and_eq_true, decide_eq_true_eq] at h3
    exact ⟨by omega, hw.left, (codeChar_boundary hm h3.1 rfl).2⟩
  · exact hw

end Boundaries

section Functions

variable {m : CodeMap} {ps : Painted} (hm : m.Shows ps)
include hm

theorem piece_of_matching {o c : Nat} (h : m.matching o = some c) :
    m.Piece (o + 1) c ∧ m.Limit c := by
  obtain ⟨hopen, hclose, -, -⟩ := matching_spec h
  have hl := limit_of_closes hm hclose
  exact ⟨⟨matching_whole hm h, .bracket hopen, hl.closing⟩, hl⟩

theorem paramsAndBlock?_spec {opening stop : Nat} {params block : Span}
    (h : paramsAndBlock? m opening stop = some (params, block)) (isAsync : Bool) :
    FunctionParts.Lies m ⟨isAsync, params, .block block⟩ ∧ opening < block.start ∧
      block.start ≤ block.stop ∧ block.stop < stop ∧ m.isBoundary (block.stop + 1) := by
  obtain ⟨close, hclose, h⟩ := Option.bind_eq_some_iff.mp h
  obtain ⟨-, -, h⟩ := Option.bind_eq_some_iff.mp h
  obtain ⟨blockClose, hblock, h⟩ := Option.bind_eq_some_iff.mp h
  cases h
  obtain ⟨hclose, -⟩ := closing?_spec hclose
  obtain ⟨hblock, hlt⟩ := closing?_spec hblock
  obtain ⟨hpiece, hlimit⟩ := piece_of_matching hm hblock
  have hopening := (matching_spec hclose).2.2.1
  have hinside := (matching_spec hblock).2.2.1
  have hskip := le_skipTrivia m (close + 1) stop
  refine ⟨⟨matching_whole hm hclose, hpiece, hlimit⟩, ?_, hinside, hlt, ?_⟩
  · simp only
    omega
  · exact (closes_boundary hm (matching_spec hblock).2.1).2

theorem functionWord?_yields (isAsync : Bool) {wordEnd stop : Nat}
    (hw : m.isBoundary wordEnd) (hs : m.isBoundary stop) :
    Yields (functionWord? m isAsync wordEnd stop) fun f => ∀ parts, f = some parts →
      parts.Lies m ∧ parts.Inside wordEnd stop := by
  unfold functionWord?
  dsimp only
  generalize hstar : (if m.isCodeChar (m.skipTrivia wordEnd stop) '*' then
      m.skipTrivia (m.skipTrivia wordEnd stop + 1) stop else m.skipTrivia wordEnd stop) = nameStart
  have hname : wordEnd ≤ nameStart ∧ m.isBoundary nameStart := by
    have hge := le_skipTrivia m wordEnd stop
    rw [← hstar]
    split
    · rename_i hc
      have hge' := le_skipTrivia m (m.skipTrivia wordEnd stop + 1) stop
      exact ⟨by omega, skipTrivia_boundary hm (codeChar_boundary hm hc rfl).2 hs⟩
    · exact ⟨hge, skipTrivia_boundary hm hw hs⟩
  refine (identEnd_yields hm hname.2).bind fun e he => ?_
  have hge := le_skipTrivia m e stop
  split
  · exact .ok (by simp)
  · cases hblock : paramsAndBlock? m (m.skipTrivia e stop) stop with
    | none => exact .ok (by simp)
    | some found =>
      obtain ⟨hlies, hopen, -, hstop, -⟩ := paramsAndBlock?_spec hm hblock isAsync
      dsimp only
      split
      · exact .ok (by simp)
      · refine .ok fun parts h => ?_
        cases h
        exact ⟨hlies, lt_of_le_of_lt (by omega) hopen, le_of_lt hstop⟩

omit hm in
theorem arrowParams?_spec (hm : m.Shows ps) {pos wordEnd stop next : Nat} {params : Span}
    (hw : m.Whole pos wordEnd) (hstop : wordEnd ≤ stop)
    (h : arrowParams? m pos wordEnd stop = some (params, next)) :
    m.Whole params.start params.stop ∧ m.isBoundary next ∧ pos ≤ next ∧ next ≤ stop := by
  unfold arrowParams? at h
  split at h
  · obtain ⟨close, hclose, h⟩ := Option.map_eq_some_iff.mp h
    cases h
    obtain ⟨hmatch, hlt⟩ := closing?_spec hclose
    have hinside := (matching_spec hmatch).2.2.1
    exact ⟨matching_whole hm hmatch, (closes_boundary hm (matching_spec hmatch).2.1).2, by omega,
      hlt⟩
  · split at h
    · cases h
      exact ⟨hw, hw.right, hw.le, hstop⟩
    · cases h

theorem arrowBody?_spec {t : Text} (ht : m = ofText t) {arrow stop : Nat} {body : Body}
    (hcode : m.isCode arrow) (hword : m.spells "=>" arrow) (hle : arrow + 2 ≤ stop)
    (hl : m.Limit stop) (h : arrowBody? m (m.skipTrivia (arrow + 2) stop) stop = some body) :
    m.Piece body.range.start body.range.stop ∧ m.Limit body.range.stop ∧
      arrow < body.range.start ∧ body.range.stop ≤ stop := by
  have hge := le_skipTrivia m (arrow + 2) stop
  have hb : m.isBoundary (arrow + 2) := (spells_whole hm (by decide) hword).right
  have hstart := skipTrivia_boundary hm hb hl.fence.1
  have hbound := skipTrivia_le (m := m) hle
  unfold arrowBody? at h
  dsimp only at h
  generalize hblock : (if m.isCodeChar (m.skipTrivia (arrow + 2) stop) '\x7b' then
    closing? m (m.skipTrivia (arrow + 2) stop) stop else none) = block at h
  split at h
  · rename_i close hclose
    cases h
    rw [(Option.filter_eq_some_iff.mp hclose).1] at hblock
    split at hblock
    · obtain ⟨hmatch, hlt⟩ := closing?_spec hblock
      obtain ⟨hpiece, hlimit⟩ := piece_of_matching hm hmatch
      exact ⟨hpiece, hlimit, by simp only [Body.range]; omega, le_of_lt hlt⟩
    · cases hblock
  · split at h
    · cases h
    · cases h
      have hlt : m.skipTrivia (arrow + 2) stop < stop := by
        have := trimTrivia_le m (m.skipTrivia (arrow + 2) stop) stop
        omega
      have hlimit := limit_trimTrivia ht hstart hbound hl fun _ => skipTrivia_stop hlt
      refine ⟨⟨⟨?_, hstart, hlimit.fence.1⟩, ?_, hlimit.closing⟩, hlimit, ?_, ?_⟩
      · exact le_trimTrivia hbound
      · exact .arrow hcode hword (skipTrivia_behind hlt)
      · simp only [Body.range]
        omega
      · exact trimTrivia_le m _ stop

end Functions

section Reading

variable {m : CodeMap} {t : Text} (ht : m = ofText t)
include ht

variable {start stop count pos : Nat}

/-- Reading a value as a function never fails: the words in front of the arrow end inside it. -/
theorem functionValue?_yields (hw : m.Whole start stop) (hl : m.Limit stop) :
    Yields (functionValue? m start stop) fun f => ∀ parts, f = some parts →
      parts.Lies m ∧ parts.Inside start stop := by
  have hm := shows ht
  refine (identEnd_within hm hw.left hw.le hl.fence).bind fun firstEnd hfirst => ?_
  refine (slice_yields hm hfirst.1).bind fun first _ => ?_
  dsimp only
  generalize hpos : (if (first == _ && (decide (firstEnd < m.skipTrivia firstEnd stop) ||
    m.isCodeChar (m.skipTrivia firstEnd stop) '(') &&
    !m.isCodeChar (m.skipTrivia firstEnd stop) '=') = true then m.skipTrivia firstEnd stop
    else start) = pos
  have hin : start ≤ pos ∧ m.isBoundary pos ∧ pos ≤ stop := by
    rw [← hpos]
    split
    · exact ⟨le_trans hfirst.1.le (le_skipTrivia m firstEnd stop),
        skipTrivia_boundary hm hfirst.1.right hw.right, skipTrivia_le hfirst.2⟩
    · exact ⟨le_refl _, hw.left, hw.le⟩
  refine (identEnd_within hm hin.2.1 hin.2.2 hl.fence).bind fun wordEnd hword => ?_
  refine (slice_yields hm hword.1).bind fun word _ => ?_
  split
  · refine (functionWord?_yields hm _ hword.1.right hw.right).mono fun f hf parts h => ?_
    obtain ⟨hlies, hbody⟩ := hf parts h
    exact ⟨hlies, lt_of_le_of_lt (le_trans hin.1 hword.1.le) hbody.1, hbody.2⟩
  · cases hparams : arrowParams? m pos wordEnd stop with
    | none => exact .ok (by simp)
    | some found =>
      obtain ⟨params, next⟩ := found
      obtain ⟨hwhole, hnext, hge, hle⟩ := arrowParams?_spec hm hword.1 hword.2 hparams
      have harrow := skipTrivia_le (m := m) hle
      have hgap := le_skipTrivia m next stop
      dsimp only
      split
      · exact .ok (by simp)
      rename_i hcode
      rw [if_neg (by omega)]
      split
      · exact .ok (by simp)
      rename_i hspells
      simp only [Bool.or_eq_true, decide_eq_true_eq, Bool.not_eq_true', not_or, not_lt,
        Bool.not_eq_false] at hspells hcode
      refine .ok fun parts h => ?_
      obtain ⟨body, hbody, rfl⟩ := Option.map_eq_some_iff.mp h
      obtain ⟨hpiece, hlimit, hbodyIn⟩ := arrowBody?_spec hm ht hcode hspells.2 hspells.1 hl hbody
      exact ⟨⟨hwhole, hpiece, hlimit⟩, lt_of_le_of_lt (by omega) hbodyIn.1, hbodyIn.2⟩

/-- The modifiers of a member end inside the class body. -/
theorem modifiersFrom_yields (hl : m.Limit stop) {mods : Modifiers} (hw : m.Whole pos stop) :
    Yields (modifiersFrom m stop count mods pos) fun r => pos ≤ r.2 ∧ m.Whole r.2 stop := by
  induction count generalizing mods pos with
  | zero => exact .ok ⟨le_refl _, hw⟩
  | succ count ih =>
    have hm := shows ht
    refine (identEnd_within hm hw.left hw.le hl.fence).bind fun wordEnd hword => ?_
    refine (slice_yields hm hword.1).bind fun word _ => ?_
    have hafter := skipTrivia_boundary hm hword.1.right hw.right
    have hle := skipTrivia_le (m := m) hword.2
    cases mods.add? word with
    | none => exact .ok ⟨le_refl _, hw⟩
    | some more =>
      dsimp only
      split
      · have hrest : m.Whole (m.skipTrivia wordEnd stop) m.size :=
          ⟨isBoundary_le hm hafter, hafter, isBoundary_size hm⟩
        refine (slice_yields hm hrest).bind fun rest _ => ?_
        split
        · refine (ih ⟨hle, hafter, hw.right⟩).mono fun r hr => ?_
          exact ⟨by omega, hr.2⟩
        · exact .ok ⟨le_refl _, hw⟩
      · exact .ok ⟨le_refl _, hw⟩

/-- Where the value of a field starts whose `=` stands at `equals`. -/
def valueStart (m : CodeMap) (equals stop : Nat) : Nat := m.skipTrivia (equals + 1) stop

/-- Where that value stops. -/
def valueStop (m : CodeMap) (equals stop : Nat) : Nat :=
  m.trimTrivia (valueStart m equals stop) (valueEnd m (valueStart m equals stop) stop).1

/-- Where reading goes on behind that value. -/
def valueNext (m : CodeMap) (equals stop : Nat) : Nat :=
  max (max (valueEnd m (valueStart m equals stop) stop).2 (valueStop m equals stop)) (equals + 1)

/-- What a member with a value is. -/
def valueKind (value : Span) : Option FunctionParts → MemberKind
  | some parts => .function parts
  | none => .field (some value)

/-- The value of a field can be cut out, and reading goes on at a boundary. -/
theorem value_whole {equals : Nat} (hl : m.Limit stop) (hlt : equals < stop)
    (heq : m.isCodeChar equals '=') : m.Whole (valueStart m equals stop) (valueStop m equals stop) ∧
      m.Limit (valueStop m equals stop) ∧ m.isBoundary (valueNext m equals stop) := by
  have hm := shows ht
  have hb := (codeChar_boundary hm heq rfl).2
  have hvalue : m.isBoundary (valueStart m equals stop) := skipTrivia_boundary hm hb hl.fence.1
  have hle : valueStart m equals stop ≤ stop := skipTrivia_le hlt
  obtain ⟨h1, h2, h3, h4⟩ := valueEndFrom_spec hm hl
    (show valueStart m equals stop + (stop - valueStart m equals stop) = stop by omega)
    (Prod.mk.eta (p := valueEnd m (valueStart m equals stop) stop)).symm
  have hlimit : m.Limit (valueStop m equals stop) :=
    limit_trimTrivia ht hvalue h1 h3 fun h => skipTrivia_stop (lt_of_lt_of_le h h2)
  refine ⟨⟨le_trimTrivia h1, hvalue, hlimit.fence.1⟩, hlimit, ?_⟩
  have hmax : ∀ {a b : Nat}, m.isBoundary a → m.isBoundary b →
      m.isBoundary (max a b) := fun {a b} ha hb => by
    rcases max_choice a b with h | h
    · rwa [h]
    · rwa [h]
  exact hmax (hmax h4 hlimit.fence.1) hb

omit ht in
theorem fieldWithValue_eq {name : Text} {isStatic : Bool} {equals : Nat} {f : Option FunctionParts}
    (hf : functionValue? m (valueStart m equals stop) (valueStop m equals stop) = .ok f) :
    fieldWithValue m name isStatic start equals stop = .ok (.member
      ⟨name, isStatic, ⟨start, valueStop m equals stop⟩,
        valueKind ⟨valueStart m equals stop, valueStop m equals stop⟩ f⟩
      (valueNext m equals stop)) := by
  unfold fieldWithValue
  dsimp only
  unfold valueStop valueStart at hf
  rw [bind_of_eq_ok hf]
  cases f <;> rfl

/-- The name that was read behind the modifiers of a member. -/
structure Headed (m : CodeMap) (start stop : Nat) (name : Text) (nameEnd : Nat) : Prop where
  lt : start < nameEnd
  le : nameEnd ≤ stop
  slice : ∃ nameStart, start ≤ nameStart ∧ m.slice nameStart nameEnd = .ok name

/-- What reading at `start` can come to. -/
inductive Reading (m : CodeMap) (start stop : Nat) : Delimited → Prop
  | lost : Reading m start stop (.lost (recover m start stop))
  | method {mods : Modifiers} {name : Text} {nameEnd : Nat} {params block : Span}
      (hname : Headed m start stop name nameEnd)
      (hparts : paramsAndBlock? m (m.skipTrivia nameEnd stop) stop = some (params, block)) :
      Reading m start stop (.member
        ⟨name, mods.isStatic, ⟨start, block.stop + 1⟩, if mods.isAccessor then .accessor
          else .function ⟨mods.isAsync, params, .block block⟩⟩ (block.stop + 1))
  | value {isStatic : Bool} {name : Text} {nameEnd equals : Nat} {f : Option FunctionParts}
      (hname : Headed m start stop name nameEnd) (hequals : m.skipTrivia nameEnd stop = equals)
      (hlt : equals < stop) (heq : m.isCodeChar equals '=' = true)
      (hf : functionValue? m (valueStart m equals stop) (valueStop m equals stop) = .ok f) :
      Reading m start stop (.member
        ⟨name, isStatic, ⟨start, valueStop m equals stop⟩,
          valueKind ⟨valueStart m equals stop, valueStop m equals stop⟩ f⟩
        (valueNext m equals stop))
  | bare {isStatic : Bool} {name : Text} {nameEnd next : Nat}
      (hname : Headed m start stop name nameEnd)
      (hnext : next = m.skipTrivia nameEnd stop ∨ next = m.skipTrivia nameEnd stop + 1 ∧
        next ≤ stop ∧ m.isCodeChar (m.skipTrivia nameEnd stop) ';' = true) :
      Reading m start stop (.member ⟨name, isStatic, ⟨start, nameEnd⟩, .field none⟩ next)

/-- Reading a member never fails. -/
theorem read_reading (hw : m.Whole start stop) (hend : m.BodyEnd stop) :
    Yields (read m start stop) (Reading m start stop) := by
  have hm := shows ht
  have hl := hend.limit hm
  have hlost : Yields (pure (.lost (recover m start stop)) : Except Fault Delimited)
      (Reading m start stop) := .ok .lost
  unfold read
  dsimp only
  refine (modifiersFrom_yields ht hl hw).bind fun found hfound => ?_
  obtain ⟨mods, modsEnd⟩ := found
  obtain ⟨hge, hmods⟩ := hfound
  -- The star of a generator and the hash of a private name stand before the end of the body.
  generalize hpos : (if m.isCodeChar modsEnd '*' = true then m.skipTrivia (modsEnd + 1) stop
    else modsEnd) = pos
  have hin : modsEnd ≤ pos ∧ m.Whole pos stop := by
    rw [← hpos]
    split
    · rename_i hstar
      have hlt := hend.lt hmods.le hstar rfl
      have := le_skipTrivia m (modsEnd + 1) stop
      exact ⟨by omega, skipTrivia_le hlt,
        skipTrivia_boundary hm (codeChar_boundary hm hstar rfl).2 hw.right, hw.right⟩
    · exact ⟨le_refl _, hmods⟩
  generalize hname : (if m.isCodeChar pos '#' = true then pos + 1 else pos) = nameStart
  have hin' : pos ≤ nameStart ∧ m.Whole nameStart stop := by
    rw [← hname]
    split
    · rename_i hhash
      have hlt := hend.lt hin.2.le hhash rfl
      exact ⟨by omega, hlt, (codeChar_boundary hm hhash rfl).2, hw.right⟩
    · exact ⟨le_refl _, hin.2⟩
  refine (identEnd_within hm hin'.2.left hin'.2.le hl.fence).bind fun nameEnd hnameEnd => ?_
  have hnameLe := hnameEnd.1.le
  split
  · exact hlost
  rename_i hnonempty
  simp only [beq_iff_eq] at hnonempty
  obtain ⟨name, hslice, -⟩ := slice_yields hm hnameEnd.1
  rw [bind_of_eq_ok hslice]
  have hheaded : Headed m start stop name nameEnd :=
    ⟨by omega, hnameEnd.2, nameStart, by omega, hslice⟩
  have hgap : m.skipTrivia nameEnd stop ≤ stop := skipTrivia_le hnameEnd.2
  split
  · cases hblock : paramsAndBlock? m (m.skipTrivia nameEnd stop) stop with
    | none => exact hlost
    | some found => exact .ok (.method hheaded hblock)
  split
  · rename_i heq
    simp only [Bool.and_eq_true] at heq
    have hlt := hend.lt hgap heq.1 rfl
    obtain ⟨hvalue, hlimit, -⟩ := value_whole ht hl hlt heq.1
    obtain ⟨f, hf, -⟩ := functionValue?_yields ht hvalue hlimit
    exact ⟨_, fieldWithValue_eq hf, .value hheaded rfl hlt heq.1 hf⟩
  split
  · rename_i hsemi
    exact .ok (.bare hheaded (.inr ⟨rfl, hend.lt hgap hsemi rfl, hsemi⟩))
  split
  · exact .ok (.bare hheaded (.inl rfl))
  have hwhole : m.Whole nameEnd (m.skipTrivia nameEnd stop) :=
    ⟨le_skipTrivia m nameEnd stop, hnameEnd.1.right,
      skipTrivia_boundary hm hnameEnd.1.right hw.right⟩
  refine (slice_yields hm hwhole).bind fun gap _ => ?_
  split
  · exact .ok (.bare hheaded (.inl rfl))
  · exact hlost

/-- What was read lies in order. -/
theorem Reading.lies {d : Delimited} (hw : m.Whole start stop) (hend : m.BodyEnd stop)
    (h : Reading m start stop d) : d.Lies m start := by
  have hm := shows ht
  have hl := hend.limit hm
  cases h with
  | lost => exact recover_whole hm hw
  | @method mods name nameEnd params block hname hparts =>
    obtain ⟨hlies, hopen, hblock, -, hnext⟩ := paramsAndBlock?_spec hm hparts mods.isAsync
    have hge := le_skipTrivia m nameEnd stop
    have hlt := hname.lt
    have hfunction : ∀ parts, (if mods.isAccessor then MemberKind.accessor
        else .function ⟨mods.isAsync, params, .block block⟩) = .function parts →
        parts = ⟨mods.isAsync, params, .block block⟩ := by
      intro parts h
      split at h
      · cases h
      · cases h
        rfl
    refine ⟨⟨by dsimp only; omega, fun parts h => ?_, fun parts h => ?_, fun value h => ?_⟩, hnext⟩
    · exact hfunction parts h ▸ hlies
    · rw [hfunction parts h]
      exact ⟨lt_of_le_of_lt (by dsimp only; omega) hopen, Nat.le_succ _⟩
    · split at h <;> cases h
  | @value isStatic name nameEnd equals f hname hequals hlt heq hf =>
    obtain ⟨hvalue, hlimit, hnext⟩ := value_whole ht hl hlt heq
    have hge := le_skipTrivia m nameEnd stop
    have hge' : equals + 1 ≤ valueStart m equals stop := le_skipTrivia m (equals + 1) stop
    have hin := hvalue.le
    have hstart := hname.lt
    have hfunction := (functionValue?_yields ht hvalue hlimit).of_eq hf
    cases f with
    | none =>
      refine ⟨⟨by dsimp only; omega, nofun, nofun, fun value h => ?_⟩, hnext⟩
      cases h
      exact hvalue
    | some parts' =>
      obtain ⟨hlies, hbody⟩ := hfunction parts' rfl
      refine ⟨⟨by dsimp only; omega, fun parts h => ?_, fun parts h => ?_, nofun⟩, hnext⟩
      · cases h
        exact hlies
      · cases h
        exact ⟨lt_of_le_of_lt (by dsimp only; omega) hbody.1, hbody.2⟩
  | @bare isStatic name nameEnd next hname hnext =>
    obtain ⟨nameStart, -, hslice⟩ := hname.slice
    have hright := (whole_of_slice hm hslice).1.right
    refine ⟨⟨le_of_lt hname.lt, nofun, nofun, nofun⟩, ?_⟩
    rcases hnext with rfl | ⟨rfl, -, hsemi⟩
    · exact skipTrivia_boundary hm hright hl.fence.1
    · exact (codeChar_boundary hm hsemi rfl).2

theorem Reading.range_whole {next : Nat} {member : Member}
    (h : Reading m start stop (.member member next)) (hw : m.Whole start stop)
    (hend : m.BodyEnd stop) : m.Whole member.range.start member.range.stop := by
  have hm := shows ht
  have hle := (h.lies ht hw hend).1.le
  cases h with
  | method hname hparts =>
    exact ⟨hle, hw.left, (paramsAndBlock?_spec hm hparts false).2.2.2.2⟩
  | value hname hequals hlt heq hf =>
    exact ⟨hle, hw.left, (value_whole ht (hend.limit hm) hlt heq).1.right⟩
  | bare hname hnext =>
    obtain ⟨nameStart, -, hslice⟩ := hname.slice
    exact ⟨hle, hw.left, (whole_of_slice hm hslice).1.right⟩

theorem read_yields (hw : m.Whole start stop) (hend : m.BodyEnd stop) :
    Yields (read m start stop) (Delimited.Lies m start) :=
  (read_reading ht hw hend).mono fun _ h => h.lies ht hw hend

/-- Where the members of a listing were read, and what its warnings are about. -/
structure Listing.Reads (m : CodeMap) (stop : Nat) (listing : Listing) : Prop where
  members : ∀ member ∈ listing.members, ∃ start next, m.Whole start stop ∧
    read m start stop = .ok (.member member next)
  warnings : ∀ w ∈ listing.warnings, ∃ line start resume, m.Whole start resume ∧
    Warning.about (.undelimitedMember line) start resume = .ok w

/-- Listing the members of a class body never fails. -/
theorem listFrom_reads (hend : m.BodyEnd stop) (hpos : m.isBoundary pos) :
    Yields (listFrom m stop count pos) (·.Reads m stop) := by
  induction count generalizing pos with
  | zero => exact .ok ⟨nofun, nofun⟩
  | succ count ih =>
    have hm := shows ht
    have hstop := (hend.limit hm).fence.1
    rw [listFrom]
    split
    · exact .ok ⟨nofun, nofun⟩
    rename_i hlt
    have hle : pos ≤ stop := by
      have := le_skipWhile m (fun s => s.isTrivia || s.isCodeChar ';') (stop - pos) pos
      unfold skipSeparators at hlt
      omega
    have hwhole : m.Whole (skipSeparators m pos stop) stop :=
      ⟨by omega, skipSeparators_boundary hm hpos hle hstop, hstop⟩
    obtain ⟨d, hread, hd⟩ := read_yields ht hwhole hend
    rw [bind_of_eq_ok hread]
    cases d with
    | member found next =>
      refine (ih hd.2).bind fun rest hrest => .ok ⟨?_, hrest.warnings⟩
      exact List.forall_mem_cons.mpr ⟨⟨_, next, hwhole, hread⟩, hrest.members⟩
    | lost resume =>
      refine (slice_yields hm hd).bind fun text _ => ?_
      obtain ⟨warning, hwarning, -⟩ :=
        Warning.about_yields (.undelimitedMember text.trim.firstLine) hd.le
      rw [bind_of_eq_ok hwarning]
      refine (ih hd.right).bind fun rest hrest => .ok ⟨hrest.members, ?_⟩
      exact List.forall_mem_cons.mpr ⟨⟨_, _, resume, hd, hwarning⟩, hrest.warnings⟩

theorem listFrom_yields (hend : m.BodyEnd stop) (hpos : m.isBoundary pos) :
    Yields (listFrom m stop count pos) fun listing =>
      ∀ member ∈ listing.members, member.Lies m :=
  (listFrom_reads ht hend hpos).mono fun _ h member hmember => by
    obtain ⟨start, next, hwhole, hread⟩ := h.members member hmember
    exact ((read_yields ht hwhole hend).of_eq hread).1

theorem list_yields (hw : m.Whole start stop) (hend : m.BodyEnd stop) :
    Yields (list m start stop) fun listing => ∀ member ∈ listing.members, member.Lies m :=
  listFrom_yields ht hend hw.left

end Reading

end Member

end Declass
