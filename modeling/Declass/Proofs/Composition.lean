import Declass.Proofs.BlankedComments

/-!
# Scanning a text in two parts

**Input.** Two texts, the first of which ends in the code of the module.

**Algorithm.** The machine reads the first text in front of the second one as it does on its own:
a string that it closes there is closed, and no comment and no tag begins with its last byte.  Then
it goes on as a machine that starts afresh, since an expression can begin at the seam and no word
goes on across it.

**Results.** `slots?_append`: the slots of the two texts together are those of the first, followed
by those of the second.
-/

namespace Declass

namespace Scan

section Seams

variable {jsx : Bool} {s : State} {t a b : Text}

/-- Outside comments, the last byte of a comment is a slash. -/
def State.CommentLeft (s : State) : Prop :=
  s.context = .plain → s.lastKind = some .comment → s.done.head? = some ⟨some '/', .comment⟩

theorem commentLeft_next (s : State) (c : Char) (rest : Text) :
    (s.next jsx c rest).CommentLeft := by
  intro hplain hlast
  rw [lastKind_next, Option.some.injEq] at hlast
  obtain ⟨-, -, -, hafter⟩ := comments_of_move hlast
  have hcontext : (s.move jsx c rest).context = .plain := hplain
  rw [hcontext] at hafter
  rcases hafter with h | h | ⟨-, hpair, hhead⟩
  · cases h
  · cases h
  · obtain ⟨tail, rfl⟩ := List.head?_eq_some_iff.mp hhead
    rw [State.next, State.after, reads_of_pair hpair, hlast]
    simp [Slot.ofChar, show '/'.utf8Size = 1 from rfl]

theorem run_commentLeft (h : s.CommentLeft) : (run jsx s t).CommentLeft := by
  induction s, t using scan_induction jsx with
  | nil s => rwa [run]
  | move s c rest ih =>
    rw [run_cons]
    exact ih (commentLeft_next s c rest)

/-- Whether an expression is expected next: the last byte that is neither part of a comment nor
layout, if there is one, is a character of code after which an expression begins. -/
def State.ExpectsExpression (s : State) : Prop :=
  ∀ x ∈ s.done.find? (fun x => !(x.kind == .comment || x.isLayout)),
    x.kind = .code ∧ x.char?.any beginsExpression = true

theorem begins_of_expects (h : s.ExpectsExpression) : begins s.done := by
  unfold State.ExpectsExpression at h
  rw [List.find?_not_eq_head?_dropWhile] at h
  unfold begins
  cases hdrop : s.done.dropWhile (fun x => x.kind == .comment || x.isLayout) with
  | nil => rfl
  | cons x before =>
    rw [hdrop] at h
    obtain ⟨hkind, hchar⟩ := h x rfl
    obtain ⟨c, hc, hbegins⟩ := (Option.any_eq_true _ _).mp hchar
    simp [hkind, hc, hbegins]

theorem isAsciiIdent_of_beginsExpression {c : Char} (h : beginsExpression c) :
    Character.isAsciiIdent c = false := by
  simp only [beginsExpression, List.contains_iff_mem] at h
  fin_cases h <;> rfl

theorem isAsciiIdent_of_isLayout {c : Char} (h : Character.isLayout c) :
    Character.isAsciiIdent c = false := CodeMap.of_isLayout h (by decide)

theorem not_isAsciiIdent_of_expects (hleft : s.CommentLeft) (hplain : s.context = .plain)
    (h : s.ExpectsExpression) : ∀ x ∈ s.done.head?, x.isAsciiIdent = false := by
  intro x hx
  by_cases hcomment : x.kind = .comment
  · have hlast := hleft hplain (by rw [State.lastKind, hx, Option.map_some, hcomment])
    rw [hx] at hlast
    cases hlast
    rfl
  obtain ⟨before, hdone⟩ := List.head?_eq_some_iff.mp hx
  cases hchar : x.char? with
  | none => simp [Slot.isAsciiIdent, hchar]
  | some c =>
    have hident : x.isAsciiIdent = Character.isAsciiIdent c := by
      rw [Slot.isAsciiIdent, hchar, Option.any_some]
    rw [hident]
    cases hlayout : Character.isLayout c with
    | true => exact isAsciiIdent_of_isLayout hlayout
    | false =>
      have hfind : s.done.find? (fun x => !(x.kind == .comment || x.isLayout)) = some x := by
        rw [hdone]
        simp [hcomment, Slot.isLayout, hchar, hlayout]
      have hbegins := (h x hfind).2
      rw [hchar] at hbegins
      exact isAsciiIdent_of_beginsExpression hbegins

/-- A text behind one that expects an expression is read as if it stood alone. -/
theorem joins_of_expects (hidle : (run jsx .start a).Idle)
    (h : (run jsx .start a).ExpectsExpression) : Joins (run jsx .start a).done b := by
  have hleft : (run jsx .start a).CommentLeft := run_commentLeft fun _ hlast => by cases hlast
  refine ⟨begins_of_expects h, fun _ _ _ => ?_⟩
  exact not_isAsciiIdent_of_expects hleft hidle.context h

theorem parted_of_expects (h : jsx → s.ExpectsExpression)
    (hslash : s.done.head? = some ⟨some '/', .code⟩ → b.head? ≠ some '/' ∧ b.head? ≠ some '*') :
    s.Parted jsx b := by
  refine ⟨hslash, fun hj hlt => ?_⟩
  obtain ⟨before, hdone⟩ := List.head?_eq_some_iff.mp hlt
  have hfind := h hj ⟨some '<', .code⟩ (by rw [hdone]; rfl)
  cases hfind.2

end Seams

section Parts

variable {jsx : Bool} {a b : Text}

/-- A self-contained text is read in front of any other as it is on its own. -/
theorem reaches_of_idle (hidle : (run jsx .start a).Idle)
    (hparted : (run jsx .start a).Parted jsx b) :
    ∃ o, Reaches jsx .start (a ++ b) o b ∧ o.Idle ∧ o.done = (run jsx .start a).done := by
  obtain ⟨o, hreach, ha, hroot⟩ :=
    (start_idle.aligned a).reaches start_idle.rooted (fun _ _ _ _ => rfl) hidle hparted
  obtain ⟨ps, ho, hi, -⟩ := ha.done
  exact ⟨o, hreach, ha.idle hroot hidle, ho.trans hi.symm⟩

theorem State.AtRoot.markupFree {s : State} (h : s.AtRoot) : MarkupFree s.modes := by
  obtain ⟨n, hn⟩ := h
  rw [hn]
  rfl

/-- If a text ends in the code of the module, where an expression is expected, and no comment begins
with its last byte, then the slots of that text with another one behind it are the slots of the two,
one after the other. -/
theorem slots?_append (hidle : (run jsx .start a).Idle)
    (hslash : (run jsx .start a).done.head? = some ⟨some '/', .code⟩ →
      b.head? ≠ some '/' ∧ b.head? ≠ some '*')
    (hexpects : jsx = true → (run jsx .start a).ExpectsExpression) :
    ∃ slots, slots? jsx a = some slots ∧
      slots? jsx (a ++ b) = (slots? jsx b).map fun behind => slots ++ behind := by
  obtain ⟨o, hreach, hoidle, hdone⟩ := reaches_of_idle hidle (parted_of_expects hexpects hslash)
  have hrun := (hoidle.aligned b).run hoidle.rooted fun hj => by
    rw [hdone]
    exact (joins_of_expects hidle (hexpects hj)).beginsAlike (.nil b)
  obtain ⟨ps, ho, hi, -⟩ := hrun.done
  refine ⟨(run jsx .start a).done.reverse, ?_, ?_⟩
  · rw [slots?, if_neg (by simpa [MarkupFree] using hidle.root.markupFree)]
  · have hbehind : (run jsx .start (a ++ b)).done.reverse =
        (run jsx .start a).done.reverse ++ (run jsx .start b).done.reverse := by
      rw [hreach.run_eq, ho, hi, hdone]
      simp
    have hopen : (run jsx .start (a ++ b)).modes.any Mode.isMarkup =
        (run jsx .start b).modes.any Mode.isMarkup := by
      rw [hreach.run_eq, Bool.eq_iff_iff, ← not_iff_not, Bool.not_eq_true, Bool.not_eq_true]
      exact hrun.modes.markupFree_iff
    rw [slots?, slots?, hopen, hbehind]
    split <;> rfl

/-- A template literal with a hole and two comments, one with an apostrophe, before an element whose
text has another one. -/
theorem slots?_append_element :
    (slots? true "<p>can't</p> / 2".toList).isSome = true ∧
    ∃ slots, slots? true "a = `${b}` || // don't\n /**/".toList = some slots ∧
      slots? true ("a = `${b}` || // don't\n /**/".toList ++ "<p>can't</p> / 2".toList) =
        (slots? true "<p>can't</p> / 2".toList).map fun behind => slots ++ behind :=
  ⟨rfl, slots?_append ⟨rfl, 0, rfl⟩ (by decide) fun _ => by
    intro x hx
    obtain rfl : ⟨some '|', .code⟩ = x := Option.some.inj hx
    exact ⟨rfl, rfl⟩⟩

end Parts

end Scan

end Declass
