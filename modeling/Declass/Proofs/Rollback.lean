import Declass.Proofs.ScanInvariants
import Mathlib.Logic.Function.Iterate

/-!
# Scanning with a rollback

**Input.** Source text, and whether markup is recognised.

**Algorithm.** A second machine has one slot per byte from the start, all of them code, and gives
them their kinds in place.  It reads byte by byte and never looks further than one byte: it takes
every quote in plain code for the start of a string, and if the line ends first it makes what it has
marked code again and goes back to the byte behind the quote.

**Results.** `rollback_is_lookahead`: on every text this machine halts with the slots of the machine
that looks ahead and never goes back, and that machine decides at each quote what becomes of the
whole string.
-/

namespace Declass

namespace Slot

/-- The byte with another kind. -/
def withKind (k : Kind) (s : Slot) : Slot := ⟨s.char?, k⟩

/-- What the byte is compared with: the character that starts at it, or, for a byte inside a
character, one that is not ASCII. -/
def byte (s : Slot) : Char := s.char?.getD '\uFFFD'

/-- The slots, of which the `n` from position `i` on get the kind `k`. -/
def mark (k : Kind) (i n : Nat) (slots : List Slot) : List Slot :=
  slots.take i ++ ((slots.drop i).take n).map (withKind k) ++ slots.drop (i + n)

theorem mark_append {before : List Slot} {i : Nat} (h : before.length = i) (k : Kind) (n : Nat)
    (behind : List Slot) : mark k i n (before ++ behind) =
      before ++ ((behind.take n).map (withKind k) ++ behind.drop n) := by
  subst h
  simp [mark, List.drop_append]

theorem withKind_ofChar (k l : Kind) (c : Char) : (ofChar k c).map (withKind l) = ofChar l c := by
  simp [ofChar, withKind]

end Slot

namespace Scan

section Moves

variable {jsx : Bool} {s : State} {c d q : Char} {rest : Text}

/-- The kind of a character that means nothing to the machine. -/
def State.ownKind (s : State) : Kind :=
  match s.modes with
  | [] => .code
  | .template :: _ => .literal
  | .children _ :: _ => .markup
  | .tag _ _ quote :: _ => if quote.isSome then .literal else .markup
  | .code _ _ :: _ =>
    match s.context with
    | .plain => .code
    | .quoted _ => .literal
    | .lineComment => .comment
    | .blockComment => .comment

theorem ne_of_wide (hc : c.utf8Size ≠ 1) (hd : d.utf8Size = 1) : c ≠ d := by
  rintro rfl
  exact hc hd

theorem utf8Size_of_isQuote (h : isQuote c) : c.utf8Size = 1 := by
  simp only [isQuote, Bool.or_eq_true, beq_iff_eq] at h
  rcases h with rfl | rfl <;> rfl

theorem isQuote_of_wide (hc : c.utf8Size ≠ 1) : isQuote c = false := by
  cases hq : isQuote c with
  | false => rfl
  | true => exact absurd (utf8Size_of_isQuote hq) hc

theorem move_of_wide (hs : s.Regular) (hc : c.utf8Size ≠ 1) (jsx : Bool) (rest : Text) :
    s.move jsx c rest = ⟨s.ownKind, false, s.modes, s.context⟩ := by
  have hne : ∀ d, d.utf8Size = 1 → c ≠ d := fun _ => ne_of_wide hc
  obtain ⟨done, modes, context⟩ := s
  cases modes with
  | nil => rfl
  | cons mode below =>
    cases mode with
    | code braces hole =>
      cases context with
      | plain =>
        simp [State.move, State.ownKind, plainMove, isQuote_of_wide hc, hne '\x60' rfl, hne '/' rfl,
          hne '\x7b' rfl, hne '\x7d' rfl, hne '<' rfl]
      | quoted quote =>
        have hq := utf8Size_of_isQuote (hs.string quote rfl)
        simp [State.move, State.ownKind, quotedMove, hne '\\' rfl, hne quote hq]
      | lineComment => simp [State.move, State.ownKind, lineCommentMove, hne '\n' rfl]
      | blockComment => simp [State.move, State.ownKind, blockCommentMove, hne '*' rfl]
    | template =>
      obtain rfl : context = .plain := by simpa using hs.context
      simp [State.move, State.ownKind, templateMove, hne '\\' rfl, hne '$' rfl, hne '\x60' rfl]
    | tag depth closing quote =>
      obtain rfl : context = .plain := by simpa using hs.context
      cases quote with
      | some q =>
        have hq := utf8Size_of_isQuote (hs.tags (.tag depth closing (some q)) (by simp))
        simp [State.move, State.ownKind, tagMove, hne q hq]
      | none =>
        simp [State.move, State.ownKind, tagMove, isQuote_of_wide hc, hne '\x7b' rfl, hne '/' rfl,
          hne '>' rfl]
    | children depth =>
      obtain rfl : context = .plain := by simpa using hs.context
      simp [State.move, State.ownKind, childrenMove, hne '\x7b' rfl, hne '<' rfl]

/-- A character of several bytes is read together with the one before it only as an escape. -/
theorem kind_of_wide_pair (hs : s.Regular) (hpair : (s.move jsx c (d :: rest)).pair)
    (hd : d.utf8Size ≠ 1) :
    (s.move jsx c (d :: rest)).kind = (s.next jsx c (d :: rest)).ownKind := by
  have hne : ∀ {e}, (d :: rest).head? = some e → e.utf8Size ≠ 1 := fun he => by
    cases he
    exact hd
  have hroot := hs.rooted
  obtain ⟨done, modes, context⟩ := s
  simp only [State.next, State.after, State.ownKind]
  have hspec := move_spec jsx done modes context c (d :: rest)
  generalize State.move jsx ⟨done, modes, context⟩ c (d :: rest) = m at hspec hpair ⊢
  cases hspec with
  | ended => cases hroot
  | plain hplain =>
    cases hplain with
    | lineComment _ h => exact absurd rfl (hne h)
    | blockComment _ h => exact absurd rfl (hne h)
    | _ => cases hpair
  | commentCloses _ h => exact absurd rfl (hne h)
  | templateHole _ h => exact absurd rfl (hne h)
  | elementCloses _ h => exact absurd rfl (hne h)
  | stringEscape _ => rfl
  | templateEscape _ => rfl
  | _ => cases hpair

/-- Apart from quotes in plain code, the machine looks no further than the next character. -/
theorem move_of_head {rest' : Text} (hq : s.Plain → isQuote c = false)
    (h : rest.head? = rest'.head?) : s.move jsx c rest = s.move jsx c rest' := by
  refine move_congr (fun hplain => ⟨fun hquote => ?_, fun _ => ?_⟩) fun _ _ => by rw [h]
  · rw [hq hplain] at hquote
    cases hquote
  · rw [opensElement_eq, opensElement_eq, h]

theorem kind_of_pair (h : (s.move jsx c rest).pair) : (s.move jsx c rest).kind ≠ .code := by
  intro hcode
  rw [move_pair_of_code hcode] at h
  cases h

theorem move_of_goesOn (h : s.InString q) (hne : c ≠ q) (jsx : Bool) (rest : Text) :
    ∃ pair, s.move jsx c rest = ⟨.literal, pair, s.modes, .quoted q⟩ := by
  rw [move_of_inString h, quotedMove]
  split
  · exact ⟨true, rfl⟩
  · exact ⟨false, by simp [hne]⟩

theorem move_of_quote (hplain : s.Plain) (hq : isQuote c) (jsx : Bool) (rest : Text) :
    s.move jsx c rest = if stringCloses c rest then ⟨.literal, false, s.modes, .quoted c⟩
      else ⟨.code, false, s.modes, .plain⟩ := by
  obtain ⟨hcontext, braces, hole, below, hmodes⟩ := hplain
  simp only [State.move, hmodes, hcontext, plainMove, hq, if_true]

end Moves

/-- A machine that goes back: the slots of the whole text, the position it has come to, the position
of the last quote taken for the start of a string, and the modes and context of the other machine. -/
structure Retry where
  slots : List Slot
  pos : Nat
  opened : Nat
  modes : List Mode
  context : Context

/-- The bytes of text that is not read yet. -/
def unread (t : Text) : List Slot := t.flatMap (Slot.ofChar .code)

namespace Retry

/-- The machine before the first byte. -/
def start (t : Text) : Retry := ⟨unread t, 0, 0, [.code 0 .root], .plain⟩

/-- Taking the quote for the start of a string. -/
def openString (r : Retry) (quote : Char) : Retry :=
  { r with
    slots := Slot.mark .literal r.pos 1 r.slots
    pos := r.pos + 1
    opened := r.pos
    context := .quoted quote }

/-- Going back to the byte behind the quote, with the string made code again. -/
def rollBack (r : Retry) : Retry :=
  { r with
    slots := Slot.mark .code r.opened (r.pos - r.opened) r.slots
    pos := r.opened + 1
    context := .plain }

/-- Making a move.  The slots are code already, so that is not written. -/
def follow (r : Retry) (m : Move) : Retry :=
  let n := if m.pair then 2 else 1
  { r with
    slots := if m.kind = .code then r.slots else Slot.mark m.kind r.pos n r.slots
    pos := r.pos + n
    modes := m.modes
    context := m.context }

/-- The other machine at this position. -/
def state (r : Retry) : State := ⟨(r.slots.take r.pos).reverse, r.modes, r.context⟩

/-- Reading the byte `c` with no more than the next byte in sight. -/
def read (jsx : Bool) (r : Retry) (c : Char) : Retry :=
  let next := (r.slots[r.pos + 1]?.map Slot.byte).toList
  match r.modes, r.context with
  | .code _ _ :: _, .plain =>
    if isQuote c then r.openString c else r.follow (r.state.move jsx c next)
  | .code _ _ :: _, .quoted _ =>
    if c == '\n' then r.rollBack else r.follow (r.state.move jsx c next)
  | _, _ => r.follow (r.state.move jsx c next)

/-- Reading the byte at the position, if the text has not come to its end. -/
def step (jsx : Bool) (r : Retry) : Retry :=
  match r.slots[r.pos]? with
  | none => r
  | some s => r.read jsx s.byte

/-- The machine has come to the end of the text. -/
def Halted (r : Retry) : Prop := r.slots.length ≤ r.pos

/-- The slots, or nothing if an element is left open. -/
def result (r : Retry) : Option (List Slot) :=
  if r.modes.any Mode.isMarkup then none else some r.slots

theorem step_of_halted {jsx : Bool} {r : Retry} (h : r.Halted) : r.step jsx = r := by
  rw [step, List.getElem?_eq_none h]

/-- The machine behind what the other machine has read, with the bytes `behind` in front of it. -/
def facing (s : State) (behind : List Slot) (opened : Nat) : Retry :=
  ⟨s.done.reverse ++ behind, s.done.length, opened, s.modes, s.context⟩

section Facing

variable {jsx : Bool} {s : State} {b b' : Slot} {c : Char} {m : Move} {behind : List Slot}
  {opened : Nat}

/-- What is not an exception for this machine: neither a quote in plain code nor a line feed in a
string. -/
structure Ordinary (s : State) (c : Char) : Prop where
  quote : s.Plain → isQuote c = false
  line : ∀ q, s.InString q → c ≠ '\n'

theorem state_facing (s : State) (behind : List Slot) (opened : Nat) :
    (facing s behind opened).state = s := by
  have htake : (s.done.reverse ++ behind).take s.done.length = s.done.reverse :=
    List.take_left' (by simp)
  simp only [facing, state, htake, List.reverse_reverse]

theorem step_facing (jsx : Bool) (s : State) (b : Slot) (behind : List Slot) (opened : Nat) :
    (facing s (b :: behind) opened).step jsx = (facing s (b :: behind) opened).read jsx b.byte := by
  have hhere : (facing s (b :: behind) opened).slots[(facing s (b :: behind) opened).pos]? =
      some b := by
    simp [facing]
  rw [step, hhere]

theorem step_of_ordinary (jsx : Bool) (b : Slot) (behind : List Slot) (opened : Nat)
    (h : Ordinary s b.byte) :
    (facing s (b :: behind) opened).step jsx = (facing s (b :: behind) opened).follow
      (s.move jsx b.byte (behind.head?.map Slot.byte).toList) := by
  have hnext : (facing s (b :: behind) opened).slots[(facing s (b :: behind) opened).pos + 1]? =
      behind.head? := by
    simp only [facing]
    rw [List.getElem?_append_right (by simp)]
    simp [List.head?_eq_getElem?]
  rw [step_facing, read, hnext, state_facing]
  split
  · rename_i hmodes hcontext
    rw [if_neg (by simp [h.quote ⟨hcontext, _, _, _, hmodes⟩])]
  · rename_i quote hmodes hcontext
    rw [if_neg (by simpa using h.line quote ⟨hcontext, _, _, _, hmodes⟩)]
  · rfl

theorem follow_single (hb : b.kind = .code) (hm : m.pair = false) :
    (facing s (b :: behind) opened).follow m =
      facing ⟨b.withKind m.kind :: s.done, m.modes, m.context⟩ behind opened := by
  have hslots : (if m.kind = .code then s.done.reverse ++ b :: behind
      else Slot.mark m.kind s.done.length 1 (s.done.reverse ++ b :: behind)) =
      (b.withKind m.kind :: s.done).reverse ++ behind := by
    split
    · rename_i hcode
      rw [hcode, ← hb]
      simp [Slot.withKind]
    · rw [Slot.mark_append List.length_reverse]
      simp
  simp only [facing, follow, hm, Bool.false_eq_true, if_false, hslots]
  rfl

theorem follow_pair (hm : m.pair) (hk : m.kind ≠ .code) :
    (facing s (b :: b' :: behind) opened).follow m =
      facing ⟨b'.withKind m.kind :: b.withKind m.kind :: s.done, m.modes, m.context⟩ behind
        opened := by
  have hslots : Slot.mark m.kind s.done.length 2 (s.done.reverse ++ b :: b' :: behind) =
      (b'.withKind m.kind :: b.withKind m.kind :: s.done).reverse ++ behind := by
    rw [Slot.mark_append List.length_reverse]
    simp
  simp only [facing, follow, hm, if_neg hk, if_true, hslots]
  rfl

end Facing

section Runs

variable {jsx : Bool} {s : State} {c d q : Char} {rest u : Text} {r r' r'' : Retry} {opened : Nat}

/-- The machine gets from `r` to `r'`. -/
def Leads (jsx : Bool) (r r' : Retry) : Prop := ∃ n, (step jsx)^[n] r = r'

theorem Leads.refl (r : Retry) : Leads jsx r r := ⟨0, rfl⟩

theorem Leads.step (h : r.step jsx = r') : Leads jsx r r' := ⟨1, h⟩

theorem Leads.trans (h : Leads jsx r r') (h' : Leads jsx r' r'') : Leads jsx r r'' := by
  obtain ⟨n, rfl⟩ := h
  obtain ⟨k, rfl⟩ := h'
  exact ⟨k + n, Function.iterate_add_apply _ _ _ _⟩

@[simp] theorem unread_nil : unread [] = [] := rfl

theorem unread_cons (c : Char) (rest : Text) : unread (c :: rest) =
    ⟨some c, .code⟩ :: (List.replicate (c.utf8Size - 1) ⟨none, .code⟩ ++ unread rest) := rfl

theorem ordinary_of_wide (hc : c.utf8Size ≠ 1) : Ordinary s c :=
  ⟨fun _ => isQuote_of_wide hc, fun _ _ => ne_of_wide hc rfl⟩

/-- The bytes inside a character get the kind that it has. -/
theorem leads_inside (n : Nat) (behind : List Slot) (hs : s.Regular) :
    Leads jsx (facing s (List.replicate n ⟨none, .code⟩ ++ behind) opened)
      (facing ⟨List.replicate n ⟨none, s.ownKind⟩ ++ s.done, s.modes, s.context⟩ behind opened) := by
  induction n generalizing s with
  | zero => exact .refl _
  | succ n ih =>
    have hwide : (Slot.byte ⟨none, .code⟩).utf8Size ≠ 1 := by decide
    have hstep := step_of_ordinary jsx ⟨none, .code⟩ (List.replicate n ⟨none, .code⟩ ++ behind)
      opened (ordinary_of_wide (s := s) hwide)
    rw [move_of_wide hs hwide, follow_single rfl rfl] at hstep
    have hrest := ih (s := ⟨⟨none, s.ownKind⟩ :: s.done, s.modes, s.context⟩)
      ⟨hs.rooted, hs.tags, hs.string, hs.context⟩
    refine (Leads.step hstep).trans ?_
    rw [List.replicate_succ', List.append_assoc]
    exact hrest

/-- Behind its first byte, the rest of a character is read as that byte was. -/
theorem leads_char {k : Kind} (jsx : Bool) (behind : List Slot) (opened : Nat) (hs : s.Regular)
    (hk : c.utf8Size ≠ 1 → k = s.ownKind) : Leads jsx
      (facing ⟨⟨some c, k⟩ :: s.done, s.modes, s.context⟩
        (List.replicate (c.utf8Size - 1) ⟨none, .code⟩ ++ behind) opened)
      (facing ⟨(Slot.ofChar k c).reverse ++ s.done, s.modes, s.context⟩ behind opened) := by
  rw [Slot.ofChar, List.reverse_cons, List.reverse_replicate, List.append_assoc]
  by_cases hc : c.utf8Size = 1
  · rw [hc]
    exact .refl _
  · rw [hk hc]
    exact leads_inside _ _ (s := ⟨⟨some c, s.ownKind⟩ :: s.done, s.modes, s.context⟩)
      ⟨hs.rooted, hs.tags, hs.string, hs.context⟩

/-- What the other machine reads in one move, this one reads in some steps. -/
theorem leads_move (opened : Nat) (hs : s.Regular) (hc : Ordinary s c)
    (hend : rest = [] → (s.move jsx c rest).pair = false) :
    Leads jsx (facing s (unread (c :: rest)) opened)
      (facing (s.next jsx c rest) (unread (s.reads jsx c rest).2) opened) := by
  have hstep := step_of_ordinary jsx ⟨some c, .code⟩
    (List.replicate (c.utf8Size - 1) ⟨none, .code⟩ ++ unread rest) opened hc
  rw [show Slot.byte ⟨some c, .code⟩ = c from rfl] at hstep
  by_cases hsize : c.utf8Size = 1
  · have hmove : s.move jsx c ((unread rest).head?.map Slot.byte).toList = s.move jsx c rest := by
      refine move_of_head hc.quote ?_
      cases rest <;> rfl
    have hone : ∀ k, Slot.ofChar k c = [⟨some c, k⟩] := fun k => by
      rw [Slot.ofChar, hsize, List.replicate_zero]
    rw [unread_cons]
    rw [hsize, List.replicate_zero, List.nil_append] at hstep ⊢
    rw [hmove] at hstep
    cases hpair : (s.move jsx c rest).pair with
    | false =>
      rw [follow_single rfl hpair] at hstep
      rw [State.next, reads_single hpair, State.after, List.flatMap_singleton, hone]
      exact .step hstep
    | true =>
      cases rest with
      | nil => exact absurd hpair (by simp [hend rfl])
      | cons d tail =>
        rw [unread_cons, follow_pair hpair (kind_of_pair hpair)] at hstep
        have hs' := hs.next jsx c (d :: tail)
        have hrest := leads_char jsx (unread tail) opened
          (s := ⟨⟨some c, (s.move jsx c (d :: tail)).kind⟩ :: s.done,
            (s.move jsx c (d :: tail)).modes, (s.move jsx c (d :: tail)).context⟩)
          ⟨hs'.rooted, hs'.tags, hs'.string, hs'.context⟩ (kind_of_wide_pair hs hpair)
        rw [State.next, reads_of_pair hpair, State.after, List.flatMap_cons, hone,
          List.flatMap_singleton, List.reverse_append, List.append_assoc]
        exact (Leads.step hstep).trans hrest
  · have hpair : (s.move jsx c rest).pair = false := by rw [move_of_wide hs hsize]
    rw [move_of_wide hs hsize, follow_single rfl rfl] at hstep
    rw [State.next, reads_single hpair, move_of_wide hs hsize, State.after, List.flatMap_singleton]
    exact (Leads.step hstep).trans (leads_char jsx (unread rest) opened hs fun _ => rfl)

/-- A quote in plain code is first taken for the start of a string. -/
theorem leads_open (jsx : Bool) (rest : Text) (opened : Nat) (hplain : s.Plain) (hq : isQuote c) :
    Leads jsx (facing s (unread (c :: rest)) opened)
      (facing ⟨⟨some c, .literal⟩ :: s.done, s.modes, .quoted c⟩ (unread rest) s.done.length) := by
  obtain ⟨done, modes, context⟩ := s
  obtain ⟨rfl, braces, hole, below, rfl⟩ := hplain
  rw [unread_cons, utf8Size_of_isQuote hq]
  refine .step ((step_facing _ _ _ _ _).trans ?_)
  have hslots : Slot.mark .literal done.length 1 (done.reverse ++ ⟨some c, .code⟩ :: unread rest) =
      (⟨some c, .literal⟩ :: done : List Slot).reverse ++ unread rest := by
    rw [Slot.mark_append List.length_reverse]
    simp [Slot.withKind]
  simp only [facing, read, Slot.byte, Option.getD_some, hq, if_true, openString, Nat.sub_self,
    List.replicate_zero, List.nil_append, hslots]
  rfl

/-- At a line feed the string is given up. -/
theorem leads_line {base lit : List Slot} (hs : s.InString q) (hdone : s.done = lit ++ base)
    (rest : Text) : Leads jsx (facing s (unread ('\n' :: rest)) base.length)
      ⟨base.reverse ++ (lit.reverse.map (Slot.withKind .code) ++ unread ('\n' :: rest)),
        base.length + 1, base.length, s.modes, .plain⟩ := by
  obtain ⟨done, modes, context⟩ := s
  obtain ⟨rfl, braces, hole, below, rfl⟩ := hs
  dsimp only at hdone
  have hslots : Slot.mark .code base.length (done.length - base.length)
      (done.reverse ++ unread ('\n' :: rest)) =
      base.reverse ++ (lit.reverse.map (Slot.withKind .code) ++ unread ('\n' :: rest)) := by
    rw [hdone, List.reverse_append, List.append_assoc, Slot.mark_append List.length_reverse]
    simp
  refine .step ((step_facing _ _ _ _ _).trans ?_)
  exact congrArg (fun slots => Retry.mk slots _ _ _ _) hslots

theorem unread_reads (s : State) (c : Char) (rest : Text) :
    unread (s.reads jsx c rest).1 ++ unread (s.reads jsx c rest).2 = unread (c :: rest) := by
  rw [← reads_append jsx s c rest, unread, unread, unread, List.flatMap_append]

theorem map_withKind_flatMap (k l : Kind) (u : Text) :
    (u.flatMap (Slot.ofChar k)).map (Slot.withKind l) = u.flatMap (Slot.ofChar l) := by
  simp [List.map_flatMap, Slot.withKind_ofChar]

/-- A string that does not end on its line is given up: all of it becomes code again. -/
theorem leads_back {base lit : List Slot} (jsx : Bool) (hstring : s.InString q) (hs : s.Regular)
    (hdone : s.done = lit ++ base) (h : stringCloses q u = false) :
    Leads jsx (facing s (unread u) base.length)
      ⟨base.reverse ++ (lit.reverse.map (Slot.withKind .code) ++ unread u), base.length + 1,
        base.length, s.modes, .plain⟩ := by
  induction s, u using scan_induction jsx generalizing lit with
  | nil s => cases h
  | move s c rest ih =>
    by_cases hline : c = '\n'
    · subst hline
      exact leads_line hstring hdone rest
    have hne : c ≠ q := by
      rintro rfl
      rw [stringCloses_cons (isQuote_ne (hs.string c hstring.1) rfl).symm] at h
      simp [hline] at h
    rw [stringCloses_reads jsx hstring hline hne] at h
    have hend : rest = [] → (s.move jsx c rest).pair = false := by
      rintro rfl
      cases h
    have hplain : s.Plain → isQuote c = false := fun hplain => by
      cases hplain.1.symm.trans hstring.1
    have hmove := leads_move base.length hs ⟨hplain, fun _ _ => hline⟩ hend
    obtain ⟨pair, hkind⟩ := move_of_goesOn hstring hne jsx rest
    have hread : (s.next jsx c rest).done =
        (((s.reads jsx c rest).1.flatMap (Slot.ofChar .literal)).reverse ++ lit) ++ base := by
      rw [State.next, hkind, State.after, hdone, List.append_assoc]
    have hback := ih (by rw [State.next, hkind]; exact ⟨rfl, hstring.2⟩) (hs.next jsx c rest)
      hread h
    rw [List.reverse_append, List.reverse_reverse, List.map_append, map_withKind_flatMap,
      List.append_assoc, ← unread, unread_reads, State.next, hkind] at hback
    rw [State.next, hkind] at hmove
    exact hmove.trans hback

/-- A quote in plain code is read as the other machine reads it, which has looked ahead. -/
theorem leads_quote (jsx : Bool) (rest : Text) (opened : Nat) (hs : s.Regular) (hplain : s.Plain)
    (hq : isQuote c) : Leads jsx (facing s (unread (c :: rest)) opened)
      (facing (s.next jsx c rest) (unread rest) s.done.length) := by
  have hopen := leads_open jsx rest opened hplain hq
  have hpair : (s.move jsx c rest).pair = false := pair_of_quote hplain hq
  have hone : ∀ k, Slot.ofChar k c = [⟨some c, k⟩] := fun k => by
    rw [Slot.ofChar, utf8Size_of_isQuote hq, List.replicate_zero]
  have hnext : s.next jsx c rest =
      ⟨⟨some c, (s.move jsx c rest).kind⟩ :: s.done, (s.move jsx c rest).modes,
        (s.move jsx c rest).context⟩ := by
    rw [State.next, reads_single hpair, State.after, List.flatMap_singleton, hone]
    rfl
  rw [hnext, move_of_quote hplain hq]
  cases hcloses : stringCloses c rest with
  | true => exact hopen
  | false =>
    have hstring : State.InString c ⟨⟨some c, .literal⟩ :: s.done, s.modes, .quoted c⟩ :=
      ⟨rfl, hplain.2⟩
    have hread : ⟨some c, .literal⟩ :: s.done = [⟨some c, .literal⟩] ++ s.done := rfl
    have hback := leads_back jsx hstring
      ⟨hs.rooted, hs.tags, fun q h => by cases h; exact hq, .inr hplain.2⟩ hread hcloses
    refine hopen.trans ?_
    simpa [facing, Slot.withKind] using hback

/-- A move that wants one more character than there is ends the text. -/
theorem leads_end (hs : s.Regular) (hc : Ordinary s c) (hpair : (s.move jsx c []).pair) :
    ∃ r, Leads jsx (facing s (unread [c]) opened) r ∧ r.Halted ∧
      r.slots = (s.next jsx c []).done.reverse ∧ r.modes = (s.next jsx c []).modes := by
  have hsize : c.utf8Size = 1 := by
    by_contra hwide
    rw [move_of_wide hs hwide] at hpair
    cases hpair
  have hkind := kind_of_pair hpair
  have hstep := step_of_ordinary jsx ⟨some c, .code⟩ [] opened hc
  rw [show Slot.byte ⟨some c, .code⟩ = c from rfl] at hstep
  have hslots : Slot.mark (s.move jsx c []).kind s.done.length 2
      (s.done.reverse ++ [⟨some c, .code⟩]) = (s.next jsx c []).done.reverse := by
    rw [Slot.mark_append List.length_reverse, State.next, State.reads, State.after,
      List.flatMap_singleton, Slot.ofChar, hsize]
    simp [Slot.withKind]
  rw [unread_cons, hsize]
  refine ⟨_, .step hstep, ?_, ?_, rfl⟩
  · simp [Halted, facing, follow, hpair, hkind, Slot.mark]
  · simp only [facing, follow, Option.map_none, List.head?_nil, Option.toList_none, hpair, if_true,
      if_neg hkind]
    exact hslots

/-- The machine halts with what the other machine has read at the end of the text. -/
theorem leads_run (jsx : Bool) (opened : Nat) (hs : s.Fits u) :
    ∃ r, Leads jsx (facing s (unread u) opened) r ∧ r.Halted ∧
      r.slots = (run jsx s u).done.reverse ∧ r.modes = (run jsx s u).modes := by
  induction s, u using scan_induction jsx generalizing opened with
  | nil s =>
    refine ⟨_, .refl _, ?_, ?_, ?_⟩
    · simp [Halted, facing]
    · simp [facing, run]
    · simp [facing, run]
  | move s c rest ih =>
    have hnext := hs.next jsx
    rw [run_cons]
    by_cases hquote : s.Plain ∧ isQuote c = true
    · have hleads := leads_quote jsx rest opened hs.toRegular hquote.1 hquote.2
      obtain ⟨r, hr, hrun⟩ := ih s.done.length hnext
      rw [reads_single (pair_of_quote hquote.1 hquote.2)] at hr
      exact ⟨r, hleads.trans hr, hrun⟩
    have hord : Ordinary s c := ⟨fun hplain => by simpa [hplain] using hquote, fun q => hs.line⟩
    by_cases hend : rest = [] → (s.move jsx c rest).pair = false
    · obtain ⟨r, hr, hrun⟩ := ih opened hnext
      exact ⟨r, (leads_move opened hs.toRegular hord hend).trans hr, hrun⟩
    · rw [Classical.not_imp, Bool.not_eq_false] at hend
      obtain ⟨rfl, hpair⟩ := hend
      exact leads_end hs.toRegular hord hpair

end Runs

end Retry

section LookAhead

variable {jsx : Bool} {s : State} {q c : Char} {rest u : Text}

/-- The text of a string up to the quote that closes it, and the text behind that quote, if there
is one. -/
def stringSplit (quote : Char) : Text → Text × Option Text
  | [] => ([], none)
  | ['\\'] => (['\\'], none)
  | '\\' :: c :: rest => ('\\' :: c :: (stringSplit quote rest).1, (stringSplit quote rest).2)
  | c :: rest =>
    if c == quote then ([c], some rest)
    else (c :: (stringSplit quote rest).1, (stringSplit quote rest).2)

/-- The state after a text that starts with a quote in plain code: all of the string is literal, or
the quote is code and counts for nothing. -/
def State.afterQuote (jsx : Bool) (s : State) (quote : Char) (rest : Text) : State :=
  if stringCloses quote rest then
    match stringSplit quote rest with
    | (body, some tail) => run jsx (s.after ⟨.literal, false, s.modes, .plain⟩ (quote :: body)) tail
    | (body, none) => s.after ⟨.literal, false, s.modes, .quoted quote⟩ (quote :: body)
  else run jsx (s.after ⟨.code, false, s.modes, .plain⟩ [quote]) rest

theorem stringSplit_cons (hc : c ≠ '\\') : stringSplit q (c :: rest) =
    if c == q then ([c], some rest) else (c :: (stringSplit q rest).1, (stringSplit q rest).2) := by
  rw [stringSplit]
  · intro h
    exact absurd h hc
  · intro _ _ h
    exact absurd h hc

theorem stringSplit_reads (h : s.InString q) (hne : c ≠ q) :
    stringSplit q (c :: rest) = ((s.reads jsx c rest).1 ++ (stringSplit q (s.reads jsx c rest).2).1,
      (stringSplit q (s.reads jsx c rest).2).2) := by
  by_cases hc : c = '\\'
  · subst hc
    cases rest with
    | nil => rfl
    | cons d rest =>
      rw [reads_of_pair (by rw [move_of_inString h]; rfl)]
      rfl
  · have hpair : (s.move jsx c rest).pair = false := by
      rw [move_of_inString h]
      simp [quotedMove, hc]
    rw [stringSplit_cons hc, reads_single hpair, if_neg (by simpa using hne)]
    rfl

theorem after_after (m m' : Move) (u v : Text) (h : m.kind = m'.kind) :
    (s.after m u).after m' v = s.after m' (u ++ v) := by
  simp [State.after, h]

/-- A string is read up to the quote that closes it, or to the end of the text. -/
theorem run_string (hs : s.InString q) (hq : isQuote q) : run jsx s u = match stringSplit q u with
      | (body, some tail) => run jsx (s.after ⟨.literal, false, s.modes, .plain⟩ body) tail
      | (body, none) => s.after ⟨.literal, false, s.modes, .quoted q⟩ body := by
  induction s, u using scan_induction jsx with
  | nil s =>
    obtain ⟨done, modes, context⟩ := s
    obtain ⟨rfl, -⟩ := hs
    rfl
  | move s c rest ih =>
    rw [run_cons]
    by_cases hc : c = q
    · subst hc
      have hslash : c ≠ '\\' := (isQuote_ne hq rfl).symm
      have hmove : s.move jsx c rest = ⟨.literal, false, s.modes, .plain⟩ := by
        rw [move_of_inString hs]
        simp [quotedMove, hslash]
      rw [State.next, reads_single (by rw [hmove]), hmove, stringSplit_cons hslash,
        if_pos (beq_self_eq_true c)]
    · obtain ⟨pair, hmove⟩ := move_of_goesOn hs hc jsx rest
      have hnext : s.next jsx c rest =
          s.after ⟨.literal, pair, s.modes, .quoted q⟩ (s.reads jsx c rest).1 := by
        rw [State.next, hmove]
      rw [ih (by rw [hnext]; exact ⟨rfl, hs.2⟩), stringSplit_reads hs hc, hnext]
      obtain ⟨body, tail⟩ := stringSplit q (s.reads jsx c rest).2
      cases tail with
      | none => exact after_after _ _ _ _ rfl
      | some tail => exact congrArg (run jsx · tail) (after_after _ _ _ _ rfl)

/-- What becomes of a string is decided at its first quote. -/
theorem run_quote (hplain : s.Plain) (hq : isQuote c) :
    run jsx s (c :: rest) = s.afterQuote jsx c rest := by
  rw [run_cons, State.next, reads_single (pair_of_quote hplain hq),
    move_of_quote hplain hq, State.afterQuote]
  cases hcloses : stringCloses c rest with
  | false => rfl
  | true =>
    have hstring : State.InString c (s.after ⟨.literal, false, s.modes, .quoted c⟩ [c]) :=
      ⟨rfl, hplain.2⟩
    simp only [if_true]
    rw [run_string hstring hq]
    obtain ⟨body, tail⟩ := stringSplit c rest
    cases tail with
    | none => exact after_after _ _ _ _ rfl
    | some tail => exact congrArg (run jsx · tail) (after_after _ _ _ _ rfl)

end LookAhead

/-- Taking every quote in plain code for the start of a string, and going back if its line ends
first, comes to the same as looking ahead. -/
theorem rollback_is_lookahead (jsx : Bool) (t : Text) :
    (∃ n, ∀ k ≥ n, ((Retry.step jsx)^[k] (Retry.start t)).Halted ∧
      ((Retry.step jsx)^[k] (Retry.start t)).result = slots? jsx t) ∧
    ∀ s quote rest, State.Plain s → isQuote quote = true →
      run jsx s (quote :: rest) = s.afterQuote jsx quote rest := by
  refine ⟨?_, fun s quote rest => run_quote⟩
  obtain ⟨r, ⟨n, hn⟩, hhalted, hslots, hmodes⟩ :=
    Retry.leads_run jsx 0 (start_fits t)
  refine ⟨n, fun k hk => ?_⟩
  have hstays : (Retry.step jsx)^[k] (Retry.start t) = r := by
    obtain ⟨j, rfl⟩ := Nat.exists_eq_add_of_le' hk
    rw [Function.iterate_add_apply]
    refine (congrArg _ hn).trans ?_
    exact Function.iterate_fixed (Retry.step_of_halted hhalted) j
  rw [hstays]
  refine ⟨hhalted, ?_⟩
  rw [Retry.result, slots?, hslots, hmodes]

end Scan

end Declass
