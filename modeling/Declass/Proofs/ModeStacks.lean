import Declass.Proofs.Rollback

/-!
# The stack of modes

**Input.** Source text, and whether markup is recognised.

**Algorithm.** Which mode may lie directly on which is a relation on two modes, and the stack is a
chain of it.  Every move of the machine replaces the innermost mode, pushes one or drops it.

**Results.** `modes_disciplined`: in every state that a scan comes to, the modes are a chain with the
code of the module at its end, and no element is closed that was not opened; so scanning reads the
whole text.
-/

namespace Declass

namespace Scan

/-- Whether the mode is code. -/
def Mode.isCode : Mode → Bool
  | .code _ _ => true
  | _ => false

/-- What a mode lies on: the code of a hole on what the hole is in, and all else on code.  The code
of the module lies on nothing. -/
def Mode.LiesOn : Mode → Mode → Prop
  | .code _ .root, _ => False
  | .code _ .template, under => under = .template
  | .code _ .container, under => under.isMarkup = true
  | _, under => under.isCode = true

/-- Between tags and in a closing tag some element is open. -/
def Mode.Deep : Mode → Prop
  | .children depth => 1 ≤ depth
  | .tag depth true _ => 1 ≤ depth
  | _ => True

/-- Each mode lies on one that it may lie on, with as many elements open as it needs. -/
structure Nested (modes : List Mode) : Prop where
  chain : modes.IsChain Mode.LiesOn
  deep : ∀ mode ∈ modes, mode.Deep

/-- What holds of the modes and the context in every state. -/
structure State.Disciplined (s : State) : Prop extends s.Regular where
  nested : Nested s.modes

section Steps

variable {jsx : Bool} {s : State} {t : Text} {c : Char} {rest : Text} {mode : Mode}
  {below : List Mode} {r : Retry}

theorem nested_cons : Nested (mode :: below) ↔
    (∀ under ∈ below.head?, mode.LiesOn under) ∧ mode.Deep ∧ Nested below := by
  constructor
  · rintro ⟨hchain, hdeep⟩
    obtain ⟨hon, hbelow⟩ := List.isChain_cons.mp hchain
    obtain ⟨hmode, hmodes⟩ := List.forall_mem_cons.mp hdeep
    exact ⟨hon, hmode, hbelow, hmodes⟩
  · rintro ⟨hon, hmode, hbelow, hmodes⟩
    exact ⟨List.isChain_cons.mpr ⟨hon, hbelow⟩, List.forall_mem_cons.mpr ⟨hmode, hmodes⟩⟩

theorem Nested.replace {mode' : Mode} (h : Nested (mode :: below)) (hon : mode'.LiesOn = mode.LiesOn)
    (hdeep : mode.Deep → mode'.Deep) : Nested (mode' :: below) := by
  obtain ⟨hunder, hmode, hbelow⟩ := nested_cons.mp h
  exact nested_cons.mpr ⟨hon ▸ hunder, hdeep hmode, hbelow⟩

/-- Behind a tag come the children of an element that is open, or what the outermost lies on. -/
theorem Nested.endTag {depth : Nat} {closing : Bool} {quote : Option Char}
    (h : Nested (.tag depth closing quote :: below)) (depth' : Nat) :
    Nested (endTag depth' below) := by
  unfold Scan.endTag
  split
  · exact (nested_cons.mp h).2.2
  · rename_i hdepth
    exact h.replace rfl fun _ => Nat.pos_of_ne_zero hdepth

theorem Nested.move (h : Nested s.modes) (c : Char) (rest : Text) :
    Nested (s.move jsx c rest).modes := by
  obtain ⟨done, modes, context⟩ := s
  have hspec := move_spec jsx done modes context c rest
  generalize State.move jsx ⟨done, modes, context⟩ c rest = m at hspec ⊢
  cases hspec with
  | plain hplain =>
    cases hplain with
    | templateOpens _ => exact nested_cons.mpr ⟨by simp [Mode.LiesOn, Mode.isCode], trivial, h⟩
    | elementOpens _ _ _ => exact nested_cons.mpr ⟨by simp [Mode.LiesOn, Mode.isCode], trivial, h⟩
    | templateHoleCloses _ _ _ => exact (nested_cons.mp h).2.2
    | containerCloses _ _ _ => exact (nested_cons.mp h).2.2
    | braceOpens _ => cases ‹Hole› <;> exact h.replace rfl id
    | braceCloses _ _ => cases ‹Hole› <;> exact h.replace rfl id
    | _ => exact h
  | templateHole _ _ => exact nested_cons.mpr ⟨by simp [Mode.LiesOn], trivial, h⟩
  | tagHole _ => exact nested_cons.mpr ⟨by simp [Mode.LiesOn, Mode.isMarkup], trivial, h⟩
  | childrenHole _ => exact nested_cons.mpr ⟨by simp [Mode.LiesOn, Mode.isMarkup], trivial, h⟩
  | templateCloses _ => exact (nested_cons.mp h).2.2
  | @value _ closing => cases closing <;> exact h.replace rfl id
  | @valueOpens _ closing => cases closing <;> exact h.replace rfl id
  | elementCloses _ _ => exact h.endTag _
  | tagCloses _ => exact h.endTag _
  | tagOpens _ =>
    cases rest.head? == some '/' with
    | true => exact h.replace rfl id
    | false => exact h.replace rfl fun _ => trivial
  | _ => exact h

theorem start_disciplined : State.start.Disciplined :=
  ⟨start_regular, nested_cons.mpr ⟨nofun, trivial, .nil, nofun⟩⟩

theorem State.Disciplined.next (h : s.Disciplined) (jsx : Bool) (c : Char) (rest : Text) :
    (s.next jsx c rest).Disciplined := ⟨h.toRegular.next jsx c rest, h.nested.move c rest⟩

theorem Reaches.disciplined {s' : State} {t' : Text} (h : Reaches jsx s t s' t')
    (hs : s.Disciplined) : s'.Disciplined := by
  induction h with
  | refl s t => exact hs
  | @move s s' c rest t' _ ih => exact ih (hs.next jsx c rest)

/-- The machine that goes back keeps the modes when it takes a quote for the start of a string and
when it goes back. -/
theorem Retry.disciplined_step (h : r.state.Disciplined) (jsx : Bool) :
    (r.step jsx).state.Disciplined := by
  unfold Retry.step
  split
  · exact h
  · rename_i b _
    have hfollow : ∀ next, (r.follow (r.state.move jsx b.byte next)).state.Disciplined := by
      intro next
      have hnext := h.next jsx b.byte next
      exact ⟨⟨hnext.rooted, hnext.tags, hnext.string, hnext.context⟩, hnext.nested⟩
    unfold Retry.read
    split
    · rename_i braces hole below hmodes hcontext
      split
      · rename_i hquote
        exact ⟨⟨h.rooted, h.tags, fun q hq => by cases hq; exact hquote, .inr ⟨_, _, _, hmodes⟩⟩,
          h.nested⟩
      · exact hfollow _
    · split
      · exact ⟨⟨h.rooted, h.tags, nofun, .inl rfl⟩, h.nested⟩
      · exact hfollow _
    · exact hfollow _

theorem Retry.disciplined_iterate (jsx : Bool) (t : Text) (n : Nat) :
    ((Retry.step jsx)^[n] (Retry.start t)).state.Disciplined := by
  induction n with
  | zero => exact start_disciplined
  | succ n ih =>
    rw [Function.iterate_succ_apply']
    exact Retry.disciplined_step ih jsx

end Steps

/-- A state that one of the two machines comes to in the text. -/
def Visits (jsx : Bool) (t : Text) (s : State) : Prop :=
  (∃ u, Reaches jsx .start t s u) ∨ ∃ n, s = ((Retry.step jsx)^[n] (Retry.start t)).state

/-- In every state of a scan the modes are a chain from the innermost one to the code of the module;
so the modes never run out, a closing tag always closes an element that is open, without markup
scanning gives a result, and every byte of the text gets one kind. -/
theorem modes_disciplined (jsx : Bool) (t : Text) :
    (∀ s, Visits jsx t s → s.Disciplined ∧ s.modes ≠ [] ∧
      ∀ depth quote below, s.modes = .tag depth true quote :: below → depth - 1 + 1 = depth) ∧
    (slots? false t).isSome = true ∧
    (CodeMap.ofText t).size = t.size ∧ (CodeMap.ofText t).text = t := by
  refine ⟨fun s hs => ?_, ?_, CodeMap.size_ofText t, ?_⟩
  · have h : s.Disciplined := by
      rcases hs with ⟨u, hreach⟩ | ⟨n, rfl⟩
      · exact hreach.disciplined start_disciplined
      · exact Retry.disciplined_iterate jsx t n
    refine ⟨h, List.ne_nil_of_length_pos h.rooted.length_pos, fun depth quote below hmodes => ?_⟩
    exact Nat.sub_add_cancel (h.nested.deep (.tag depth true quote) (by simp [hmodes]))
  · rw [slots?_eq_some (run_markupFree start_markupFree (trace_kind_of_not_jsx start_markupFree))]
    rfl
  · rw [CodeMap.text, ofText_shows t, Slot.filterMap_paint, kinds_chars]

/-- In the hole of a template literal among the children of an element, five modes are open. -/
theorem modes_disciplined_template :
    (advance true 8 .start "a=<b>\x7b`$\x7b1\x7d`\x7d</b>".toList).1.modes =
      [.code 0 .template, .template, .code 0 .container, .children 1, .code 0 .root] ∧
    (advance true 8 .start "a=<b>\x7b`$\x7b1\x7d`\x7d</b>".toList).1.Disciplined :=
  ⟨by decide, ((modes_disciplined true _).1 _ (.inl ⟨_, reaches_advance true 8 _ _⟩)).1⟩

end Scan

end Declass
