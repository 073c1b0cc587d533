import Declass.Proofs.ScanTrace

/-!
# States on the way through a text

**Input.** A state of the scanning machine with a text in front of it.

**Results.**
* `reaches_of_trace`: a move starts at every character of code, and wherever the kind changes.
* `Reaches.rooted`: the code of the module always lies at the bottom of the modes.
* `plain_of_reaches`: behind code and comments the machine is in plain code.
-/

namespace Declass

namespace Scan

section Reaching

variable {jsx : Bool} {s s' : State} {t t' : Text}

/-- The machine gets from one state and the text in front of it to another by its moves. -/
inductive Reaches (jsx : Bool) : State → Text → State → Text → Prop
  | refl (s : State) (t : Text) : Reaches jsx s t s t
  | move {s s' : State} {c : Char} {rest t' : Text}
      (h : Reaches jsx (s.next jsx c rest) (s.reads jsx c rest).2 s' t') :
      Reaches jsx s (c :: rest) s' t'

theorem Reaches.trans {s'' : State} {t'' : Text} (h : Reaches jsx s t s' t')
    (h' : Reaches jsx s' t' s'' t'') : Reaches jsx s t s'' t'' := by
  induction h with
  | refl s t => exact h'
  | move _ ih => exact .move (ih h')

theorem Reaches.of_reads {c : Char} {rest cs tail : Text} (hreads : s.reads jsx c rest = (cs, tail))
    (h : Reaches jsx (s.next jsx c rest) tail s' t') :
    Reaches jsx s (c :: rest) s' t' := .move (by rwa [hreads])

theorem Reaches.length_le (h : Reaches jsx s t s' t') : t'.length ≤ t.length := by
  induction h with
  | refl s t => exact le_refl _
  | @move s s' c rest t' _ ih => exact (ih.trans (reads_length jsx s c rest)).trans (Nat.le_succ _)

/-- At each place of the text the machine is in one state. -/
theorem Reaches.unique {s₁ s₂ : State} (h₁ : Reaches jsx s t s₁ t') (h₂ : Reaches jsx s t s₂ t') :
    s₁ = s₂ := by
  have hless : ∀ {s s' c rest}, Reaches jsx (State.next jsx s c rest) (s.reads jsx c rest).2 s'
      (c :: rest) → False := by
    intro s s' c rest h
    have := h.length_le.trans (reads_length jsx s c rest)
    simp at this
  induction h₁ with
  | refl s t =>
    cases h₂ with
    | refl => rfl
    | move h => exact (hless h).elim
  | @move s s' c rest t' h ih =>
    cases h₂ with
    | refl => exact (hless h).elim
    | move h' => exact ih h'

/-- The state and the text after some moves. -/
def advance (jsx : Bool) : Nat → State → Text → State × Text
  | 0, s, t => (s, t)
  | _ + 1, s, [] => (s, [])
  | n + 1, s, c :: rest => advance jsx n (s.next jsx c rest) (s.reads jsx c rest).2

theorem reaches_advance (jsx : Bool) (n : Nat) (s : State) (t : Text) :
    Reaches jsx s t (advance jsx n s t).1 (advance jsx n s t).2 := by
  induction n generalizing s t with
  | zero => exact .refl s t
  | succ n ih =>
    cases t with
    | nil => exact .refl s []
    | cons c rest => exact .move (ih _ _)

theorem Reaches.last (h : Reaches jsx s t s' t') :
    (s = s' ∧ t = t') ∨ ∃ s'' c rest, Reaches jsx s t s'' (c :: rest) ∧
      s' = s''.next jsx c rest ∧ t' = (s''.reads jsx c rest).2 := by
  induction h with
  | refl s t => exact .inl ⟨rfl, rfl⟩
  | @move s s' c rest t' h ih =>
    refine .inr ?_
    rcases ih with ⟨rfl, rfl⟩ | ⟨s'', d, tail, hreach, hs, ht⟩
    · exact ⟨s, c, rest, .refl _ _, rfl, rfl⟩
    · exact ⟨s'', d, tail, .move hreach, hs, ht⟩

theorem mem_getLast?_of_tail {p r : Char × Kind} {ps : Painted}
    (h : r ∈ ps.getLast?) : r ∈ (p :: ps).getLast? := by
  cases ps with
  | nil => simp at h
  | cons q ps => simpa [List.getLast?_cons_cons] using h

/-- A move starts at every character of code, and wherever the kind changes. -/
theorem reaches_of_trace : ∀ {ps qs : Painted} {c : Char}
    {k : Kind}, Scan.trace jsx s t = ps ++ (c, k) :: qs →
    (k = .code ∨ ∀ p ∈ ps.getLast?, p.2 = .code ∨ p.2 ≠ k) →
    ∃ s', Reaches jsx s t s' (c :: qs.map Prod.fst) ∧ Scan.trace jsx s' (c :: qs.map Prod.fst) =
      (c, k) :: qs ∧ s'.done = (Slot.paint ps).reverse ++ s.done := by
  induction s, t using scan_induction jsx with
  | nil s =>
    intro ps qs c k h _
    simp at h
  | move s d rest ih =>
    intro ps qs c k h hstart
    have hchars := congrArg (List.map Prod.fst) h
    rw [trace_chars] at hchars
    cases ps with
    | nil =>
      obtain ⟨rfl, rfl⟩ : d = c ∧ rest = qs.map Prod.fst := by simpa using hchars
      exact ⟨s, .refl _ _, h, rfl⟩
    | cons p ps =>
      rw [trace_cons] at h
      rcases reads_cases jsx s d rest with hreads | ⟨e, tail, -, hpair, hreads⟩
      · rw [hreads] at ih h
        simp only [List.map_cons, List.map_nil, List.cons_append, List.nil_append,
          List.cons.injEq] at h
        obtain ⟨rfl, h⟩ := h
        obtain ⟨s', hreach, htrace, hdone⟩ :=
          ih h (hstart.imp_right fun hall q hq => hall q (mem_getLast?_of_tail hq))
        refine ⟨s', .of_reads hreads hreach, htrace, ?_⟩
        rw [hdone, State.next, State.after, hreads]
        simp
      · -- Both characters of a pair have one kind, which is not code.
        have hk : (s.move jsx d rest).kind ≠ .code := fun hcode => by
          rw [move_pair_of_code hcode] at hpair
          cases hpair
        rw [hreads] at ih h
        simp only [List.map_cons, List.map_nil, List.cons_append, List.nil_append,
          List.cons.injEq] at h
        obtain ⟨rfl, h⟩ := h
        cases ps with
        | nil =>
          obtain ⟨rfl, rfl⟩ : e = c ∧ (s.move jsx d rest).kind = k := by
            simpa using (List.cons.inj h).1
          rcases hstart with hcode | hall
          · exact absurd hcode hk
          · rcases hall (d, (s.move jsx d rest).kind) (by simp) with hcode | hne
            · exact absurd hcode hk
            · exact absurd rfl hne
        | cons q ps =>
          simp only [List.cons_append, List.cons.injEq] at h
          obtain ⟨rfl, h⟩ := h
          obtain ⟨s', hreach, htrace, hdone⟩ := ih h (hstart.imp_right fun hall q hq =>
            hall q (mem_getLast?_of_tail (mem_getLast?_of_tail hq)))
          refine ⟨s', .of_reads hreads hreach, htrace, ?_⟩
          rw [hdone, State.next, State.after, hreads]
          simp

end Reaching

/-- At the bottom of the modes lies the code of the module, which no brace closes. -/
inductive Rooted : List Mode → Prop
  | root (braces : Nat) : Rooted [.code braces .root]
  | push (mode : Mode) {modes : List Mode} (h : Rooted modes) : Rooted (mode :: modes)

theorem Rooted.length_pos {modes : List Mode} (h : Rooted modes) : 0 < modes.length := by
  cases h <;> simp

theorem Rooted.code {braces : Nat} {hole : Hole} {below : List Mode}
    (h : Rooted (.code braces hole :: below)) (braces' : Nat) :
    Rooted (.code braces' hole :: below) := by
  cases h with
  | root => exact .root _
  | push _ h => exact .push _ h

theorem Rooted.pop {mode : Mode} {below : List Mode} (h : Rooted (mode :: below))
    (hmode : ∀ braces, mode ≠ .code braces .root) : Rooted below := by
  cases h with
  | root braces => exact absurd rfl (hmode braces)
  | push _ h => exact h

theorem Rooted.endTag {below : List Mode} (h : Rooted below) (depth : Nat) :
    Rooted (endTag depth below) := by
  unfold Scan.endTag
  split
  · exact h
  · exact .push _ h

theorem rooted_move {jsx : Bool} {s : State} (h : Rooted s.modes) (c : Char) (rest : Text) :
    Rooted (s.move jsx c rest).modes := by
  obtain ⟨done, modes, context⟩ := s
  have hspec := move_spec jsx done modes context c rest
  generalize State.move jsx ⟨done, modes, context⟩ c rest = m at hspec ⊢
  cases hspec with
  | ended => cases h
  | plain hplain =>
    cases hplain with
    | templateOpens _ => exact .push _ h
    | braceOpens _ => exact h.code _
    | braceCloses _ _ => exact h.code _
    | templateHoleCloses _ _ hh => exact h.pop (by simp [hh])
    | containerCloses _ _ hh => exact h.pop (by simp [hh])
    | elementOpens _ _ _ => exact .push _ h
    | _ => exact h
  | templateHole _ _ => exact .push _ h
  | templateCloses _ => exact h.pop (by simp)
  | value => exact .push _ (h.pop (by simp))
  | valueOpens _ => exact .push _ (h.pop (by simp))
  | tagHole _ => exact .push _ h
  | elementCloses _ _ => exact (h.pop (by simp)).endTag _
  | tagCloses _ => exact (h.pop (by simp)).endTag _
  | childrenHole _ => exact .push _ h
  | tagOpens _ => exact .push _ (h.pop (by simp))
  | _ => exact h

theorem Reaches.rooted {jsx : Bool} {s s' : State} {t t' : Text} (h : Reaches jsx s t s' t')
    (hs : Rooted s.modes) : Rooted s'.modes := by
  induction h with
  | refl s t => exact hs
  | @move s s' c rest t' _ ih => exact ih (rooted_move hs c rest)

theorem start_rooted : Rooted State.start.modes := .root 0

/-- Only the code of the module is open. -/
def State.AtRoot (s : State) : Prop := ∃ braces, s.modes = [.code braces .root]

/-- Behind a comment that is over, the last character read is a slash. -/
theorem next_of_comment {jsx : Bool} {s : State} {c : Char} {rest : Text}
    (h : (s.move jsx c rest).kind = .comment) :
    (∃ braces hole below, (s.next jsx c rest).modes = .code braces hole :: below) ∧
      ((s.next jsx c rest).context = .lineComment ∨ (s.next jsx c rest).context = .blockComment ∨
        (s.next jsx c rest).context = .plain ∧
          (s.next jsx c rest).done.head? = some ⟨some '/', .comment⟩) := by
  obtain ⟨done, modes, context⟩ := s
  have hspec := move_spec jsx done modes context c rest
  generalize hm : State.move jsx ⟨done, modes, context⟩ c rest = m at hspec h
  simp only [State.next, State.after, hm]
  cases hspec with
  | plain hplain =>
    cases hplain with
    | lineComment _ _ => exact ⟨⟨_, _, _, rfl⟩, .inl rfl⟩
    | blockComment _ _ => exact ⟨⟨_, _, _, rfl⟩, .inr (.inl rfl)⟩
    | _ => cases h
  | lineGoesOn _ => exact ⟨⟨_, _, _, rfl⟩, .inl rfl⟩
  | commentCloses hc hnext =>
    subst hc
    obtain ⟨tail, rfl⟩ := List.head?_eq_some_iff.mp hnext
    exact ⟨⟨_, _, _, rfl⟩, .inr (.inr ⟨rfl, rfl⟩)⟩
  | commentGoesOn _ => exact ⟨⟨_, _, _, rfl⟩, .inr (.inl rfl)⟩
  | _ => cases h

/-- Behind code that closes no hole, and behind a comment that is over, the machine is in plain
code. -/
theorem plain_of_reaches {jsx : Bool} {t : Text} {s : State} {c : Char} {rest : Text} {last : Slot}
    (h : Reaches jsx .start t s (c :: rest)) (hlast : s.done.head? = some last)
    (hbehind : last.kind = .code ∧ last.char? ≠ some '\x7d' ∨
      last.kind = .comment ∧ (s.move jsx c rest).kind ≠ .comment ∧
        ((s.move jsx c rest).kind = .code → Character.isLayout c = false)) :
    s.Plain ∧ (last.kind = .comment → last = ⟨some '/', .comment⟩) := by
  have hroot := h.rooted start_rooted
  rcases h.last with ⟨rfl, -⟩ | ⟨s, d, tail, -, rfl, -⟩
  · cases hlast
  have hkind : last.kind = (s.move jsx d tail).kind := by
    have := lastKind_next jsx s d tail
    rw [State.lastKind, hlast] at this
    simpa using this
  rcases hbehind with ⟨hcode, hbrace⟩ | ⟨hcomment, hnext, hlayout⟩
  · refine ⟨?_, fun hcomment => by cases hcode.symm.trans hcomment⟩
    have hd : d ≠ '\x7d' := by
      rintro rfl
      have hmove := hkind.symm.trans hcode
      rcases reads_cases jsx s '\x7d' tail with hreads | ⟨e, tail', -, hpair, -⟩
      · rw [State.next, hreads] at hlast
        obtain rfl : _ = last := Option.some.inj hlast
        exact hbrace rfl
      · rw [move_pair_of_code hmove] at hpair
        cases hpair
    rcases inPlain_next hd (hkind.symm.trans hcode) with hnil | hplain
    · rw [hnil] at hroot
      cases hroot
    · exact hplain
  · obtain ⟨⟨braces, hole, below, hmodes⟩, hcontext⟩ := next_of_comment (hkind.symm.trans hcomment)
    rcases hcontext with hline | hblock | ⟨hplain, hslash⟩
    · -- In a line comment the next character is comment, or the line feed.
      exfalso
      simp only [State.move, hmodes, hline, lineCommentMove] at hnext hlayout
      split_ifs at hnext hlayout with hfeed
      · have := hlayout rfl
        rw [beq_iff_eq.mp hfeed] at this
        cases this
      · exact hnext rfl
    · exfalso
      simp only [State.move, hmodes, hblock, blockCommentMove] at hnext
      split_ifs at hnext <;> exact hnext rfl
    · refine ⟨⟨hplain, braces, hole, below, hmodes⟩, fun _ => ?_⟩
      exact Option.some.inj (hlast.symm.trans hslash)

end Scan

end Declass
