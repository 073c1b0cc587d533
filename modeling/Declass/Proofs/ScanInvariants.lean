import Declass.Proofs.BlankedComments

/-!
# What holds of every state of a scan

**Input.** A state of the machine and the text in front of it.

**Results.** `State.Regular.next`: strings and attribute values stand between quotes, and only code has
a context of its own.  `State.Fits.next`: a string that the machine is in is closed in the text in
front of it.
-/

namespace Declass

namespace Scan

/-- The value of an attribute is read up to a quote. -/
def Mode.Quoted : Mode → Prop
  | .tag _ _ (some q) => isQuote q = true
  | _ => True

/-- What holds of every state on the way: strings and attribute values stand between quotes, and
only code has a context of its own. -/
structure State.Regular (s : State) : Prop where
  rooted : Rooted s.modes
  tags : ∀ mode ∈ s.modes, mode.Quoted
  string : ∀ q, s.context = .quoted q → isQuote q = true
  context : s.context = .plain ∨ ∃ braces hole below, s.modes = .code braces hole :: below

/-- A string that the machine is in is closed in the text in front. -/
structure State.Fits (s : State) (t : Text) : Prop extends s.Regular where
  closes : ∀ q, s.context = .quoted q → stringCloses q t = true

variable {jsx : Bool} {s : State} {c q : Char} {rest t : Text}

theorem start_regular : State.start.Regular :=
  ⟨start_rooted, by simp [State.start, Mode.Quoted], nofun, .inl rfl⟩

theorem start_fits (t : Text) : State.start.Fits t := ⟨start_regular, nofun⟩

theorem State.Fits.congr {done : List Slot} {modes : List Mode} {context : Context}
    (h : State.Fits ⟨done, modes, context⟩ t) (done' : List Slot) :
    State.Fits ⟨done', modes, context⟩ t := ⟨⟨h.rooted, h.tags, h.string, h.context⟩, h.closes⟩

theorem quoted_endTag {below : List Mode} (h : ∀ mode ∈ below, mode.Quoted) (depth : Nat) :
    ∀ mode ∈ endTag depth below, mode.Quoted := by
  unfold endTag
  split
  · exact h
  · exact List.forall_mem_cons.mpr ⟨trivial, h⟩

/-- Attribute values stand between quotes after a move if they did so before it. -/
theorem quoted_of_move (hs : ∀ mode ∈ s.modes, mode.Quoted) (c : Char) (rest : Text) :
    ∀ mode ∈ (s.move jsx c rest).modes, mode.Quoted := by
  obtain ⟨done, modes, context⟩ := s
  have hspec := move_spec jsx done modes context c rest
  generalize State.move jsx ⟨done, modes, context⟩ c rest = m at hspec ⊢
  cases hspec with
  | plain hplain => cases hplain <;> simp_all [Mode.Quoted]
  | value =>
    refine List.forall_mem_cons.mpr ⟨?_, fun mode hmode => hs mode (by simp [hmode])⟩
    split
    · trivial
    · exact hs _ List.mem_cons_self
  | elementCloses _ _ => exact quoted_endTag (fun mode hmode => hs mode (by simp [hmode])) _
  | tagCloses _ => exact quoted_endTag (fun mode hmode => hs mode (by simp [hmode])) _
  | _ => simp_all [Mode.Quoted]

/-- How a move comes to be in a string: a quote opens it, or it goes on. -/
theorem context_of_move (hs : s.Regular) (c : Char) (rest : Text) :
    ((s.move jsx c rest).context = .plain ∨
      ∃ braces hole below, (s.move jsx c rest).modes = .code braces hole :: below) ∧
    ∀ q, (s.move jsx c rest).context = .quoted q →
      s.Plain ∧ isQuote c ∧ q = c ∧ stringCloses c rest ∨ s.InString q ∧ c ≠ q := by
  have hroot := hs.rooted
  have hstring := hs.string
  obtain ⟨done, modes, context⟩ := s
  have hspec := move_spec jsx done modes context c rest
  generalize State.move jsx ⟨done, modes, context⟩ c rest = m at hspec ⊢
  cases hspec with
  | ended => cases hroot
  | plain hplain => cases hplain <;> simp_all [State.Plain]
  | stringEscape hc =>
    refine ⟨.inr ⟨_, _, _, rfl⟩, fun q hq => .inr ⟨⟨hq, _, _, _, rfl⟩, ?_⟩⟩
    rintro rfl
    have hquote := hstring c hq
    rw [hc] at hquote
    cases hquote
  | stringGoesOn _ hne =>
    refine ⟨.inr ⟨_, _, _, rfl⟩, fun q hq => .inr ⟨⟨hq, _, _, _, rfl⟩, ?_⟩⟩
    cases hq
    exact hne
  | _ => simp

theorem State.Regular.next (hs : s.Regular) (jsx : Bool) (c : Char) (rest : Text) :
    (s.next jsx c rest).Regular where
  rooted := rooted_move hs.rooted c rest
  tags := quoted_of_move hs.tags c rest
  string := by
    intro q hcontext
    rcases (context_of_move hs c rest).2 q hcontext with ⟨-, hq, rfl, -⟩ | ⟨hstring, -⟩
    · exact hq
    · exact hs.string q hstring.1
  context := (context_of_move hs c rest).1

/-- Whether a string is closed is decided behind what it goes on with. -/
theorem stringCloses_reads (jsx : Bool) (h : s.InString q) (hline : c ≠ '\n') (hne : c ≠ q) :
    stringCloses q (c :: rest) = stringCloses q (s.reads jsx c rest).2 := by
  by_cases hc : c = '\\'
  · subst hc
    cases rest with
    | nil => rfl
    | cons d rest =>
      rw [reads_of_pair (by rw [move_of_inString h]; rfl)]
      rfl
  · have hpair : (s.move jsx c rest).pair = false := by
      rw [move_of_inString h]
      simp [quotedMove, hc]
    rw [stringCloses_cons hc, reads_single hpair]
    simp [hline, hne]

theorem State.Fits.line (h : s.Fits (c :: rest)) (hq : s.InString q) : c ≠ '\n' := by
  rintro rfl
  have hcloses := h.closes q hq.1
  cases hcloses

/-- A string is entered from plain code if it is closed, and left at its end. -/
theorem State.Fits.next (h : s.Fits (c :: rest)) (jsx : Bool) :
    (s.next jsx c rest).Fits (s.reads jsx c rest).2 := by
  refine ⟨h.toRegular.next jsx c rest, fun q hq => ?_⟩
  rcases (context_of_move h.toRegular c rest).2 q hq with ⟨hplain, hc, rfl, hcloses⟩ | ⟨hstring, hne⟩
  · rwa [reads_single (pair_of_quote hplain hc)]
  · rw [← stringCloses_reads jsx hstring (h.line hstring) hne]
    exact h.closes q hstring.1

end Scan

end Declass
