import Declass.Proofs.ObjectLiterals
import Declass.Proofs.PrintedMembers

/-!
# Class fields on lines of their own

**Input.** Class fields with a value each, in a class body, and the text before the body and behind
the fields.  A value may hold brackets, strings, comments and markup of its own, but outside its
brackets no line feed and no semicolon of code.

**Algorithm.** `ClassField.classText` writes each field on a line of its own, with a semicolon behind
the value or without one.

**Results.** `ClassField.kinds_classText`: with semicolons and without them, the scan reads each value
as it does on its own, and what follows the fields is read alike.
-/

namespace Declass

open Scan CodeMap
open Slot (width)
open Character (isIdentStart isLayout)
open Slot (paint paint_append)

/-- A class field: a name and a value, with the layout before the name and around the `=`. -/
structure ClassField where
  indent : Text
  name : Text
  before : Text
  after : Text
  value : Text

namespace ClassField

/-- What stands before the value. -/
def head (f : ClassField) : Text := f.indent ++ f.name ++ f.before ++ "=" ++ f.after

/-- What ends a line. -/
def lineEnd (semicolon : Bool) : Text := if semicolon then ";\n" else "\n"

/-- The fields, one on a line. -/
def lines (semicolon : Bool) (fs : List ClassField) : Text :=
  fs.flatMap fun f => f.head ++ f.value ++ lineEnd semicolon

/-- A class body that begins with the fields, with other text before and behind it. -/
def classText (start : Text) (semicolon : Bool) (fs : List ClassField) (rest : Text) : Text :=
  start ++ '\x7b' :: lines semicolon fs ++ rest

/-- The value stands for itself: it is read on its own to its end in code, its brackets are balanced,
it neither starts nor ends with layout or a comment, no line feed and no semicolon of code stands
outside its brackets, and it does not end with code behind which an expression goes on.  Where no
layout stands behind the `=`, the value does not continue that sign. -/
structure Stands (jsx : Bool) (f : ClassField) : Prop where
  layout : (f.indent ++ f.before ++ f.after).all isLayout = true
  isIdentifier : f.name.isIdentifier = true
  idle : (run jsx .start f.value).Idle
  balanced : Balanced (trace jsx .start f.value)
  nonempty : f.value ≠ []
  first : ∀ p ∈ (trace jsx .start f.value).head?, Slot.isTrivia ⟨some p.1, p.2⟩ = false
  last : ∀ p ∈ (trace jsx .start f.value).getLast?, Slot.isTrivia ⟨some p.1, p.2⟩ = false
  noNewline : Quiet '\n' 0 (trace jsx .start f.value)
  noSemicolon : Quiet ';' 0 (trace jsx .start f.value)
  complete : ∀ p ∈ (trace jsx .start f.value).getLast?, p.2 = .code →
    Member.wantsMore p.1 = false ∧ (p.1 = '>' → f.value.dropLast.getLast? ≠ some '=')
  apart : f.after = [] → ∀ x ∈ f.value.head?, x ≠ '=' ∧ x ≠ '>'

instance (jsx : Bool) (f : ClassField) : Decidable (f.Stands jsx) :=
  decidable_of_iff
    ((f.indent ++ f.before ++ f.after).all isLayout = true ∧ f.name.isIdentifier = true ∧
      (run jsx .start f.value).Idle ∧ depthAfter? (trace jsx .start f.value) 0 = some 0 ∧
      f.value ≠ [] ∧
      (∀ p ∈ (trace jsx .start f.value).head?, Slot.isTrivia ⟨some p.1, p.2⟩ = false) ∧
      (∀ p ∈ (trace jsx .start f.value).getLast?, Slot.isTrivia ⟨some p.1, p.2⟩ = false) ∧
      Quiet '\n' 0 (trace jsx .start f.value) ∧ Quiet ';' 0 (trace jsx .start f.value) ∧
      (∀ p ∈ (trace jsx .start f.value).getLast?, p.2 = .code →
        Member.wantsMore p.1 = false ∧ (p.1 = '>' → f.value.dropLast.getLast? ≠ some '=')) ∧
      (f.after = [] → ∀ x ∈ f.value.head?, x ≠ '=' ∧ x ≠ '>'))
    ⟨fun ⟨h₁, h₂, h₃, h₄, h₅, h₆, h₇, h₈, h₉, h₁₀, h₁₁⟩ =>
      ⟨h₁, h₂, h₃, h₄, h₅, h₆, h₇, h₈, h₉, h₁₀, h₁₁⟩,
    fun ⟨h₁, h₂, h₃, h₄, h₅, h₆, h₇, h₈, h₉, h₁₀, h₁₁⟩ =>
      ⟨h₁, h₂, h₃, h₄, h₅, h₆, h₇, h₈, h₉, h₁₀, h₁₁⟩⟩

/-- What comes next is a member that starts with an identifier, or the end of the class. -/
def Continues (rest : Text) : Prop :=
  ∃ gap tail, rest = gap ++ tail ∧ gap.all isLayout = true ∧
    ∀ x ∈ tail.head?, isIdentStart x = true ∨ x = '\x7d'

/-- The characters of a field with their kinds. -/
def painted (jsx : Bool) (f : ClassField) : List (Char × Kind) :=
  f.head.asCode ++ trace jsx .start f.value

/-- The characters of the fields, one on a line, with their kinds. -/
def paintedLines (jsx semicolon : Bool) (fs : List ClassField) : List (Char × Kind) :=
  fs.flatMap fun f => f.painted jsx ++ (lineEnd semicolon).asCode

/-- Layout, and then the start of an identifier, a brace or nothing, all of it code. -/
def Follows (rs : List (Char × Kind)) : Prop :=
  ∃ gap tail, rs = Text.asCode gap ++ tail ∧ gap.all isLayout = true ∧
    ∀ p ∈ tail.head?, p.2 = .code ∧ (isIdentStart p.1 = true ∨ p.1 = '\x7d')

section Characters

theorem isIdleChar_of_isLayout {c : Char} (h : isLayout c) : isIdleChar c :=
  of_isLayout h (by decide)

theorem all_isIdleChar_of_layout {g : Text} (h : g.all isLayout) : g.all isIdleChar :=
  List.all_eq_true.mpr fun c hc => isIdleChar_of_isLayout (List.all_eq_true.mp h c hc)

theorem isIdleChar_of_isIdentPart {c : Char} (h : Character.isIdentPart c) : isIdleChar c := by
  rw [isIdleChar, isPlainChar_of_isIdentPart h]
  rfl

theorem isIdleChar_of_next {x : Char} (h : isIdentStart x ∨ x = '\x7d') : isIdleChar x := by
  rcases h with h | rfl
  · exact isIdleChar_of_isIdentPart (Text.isIdentPart_of_isIdentStart h)
  · rfl

variable {jsx : Bool} {f : ClassField}

theorem Stands.isLayout (hf : f.Stands jsx) : f.indent.all isLayout ∧
    f.before.all isLayout ∧ f.after.all isLayout := by
  have h := hf.layout
  rw [List.all_append, List.all_append, Bool.and_eq_true, Bool.and_eq_true] at h
  exact ⟨h.1.1, h.1.2, h.2⟩

theorem Stands.all_head (hf : f.Stands jsx) : f.head.all isIdleChar := by
  obtain ⟨hindent, hbefore, hafter⟩ := hf.isLayout
  have hname : f.name.all isIdleChar := List.all_eq_true.mpr fun c hc =>
    isIdleChar_of_isIdentPart (Text.isIdentPart_of_isIdentifier hf.isIdentifier c hc)
  rw [head, List.all_append, List.all_append, List.all_append, List.all_append,
    all_isIdleChar_of_layout hindent, hname, all_isIdleChar_of_layout hbefore,
    all_isIdleChar_of_layout hafter]
  rfl

end Characters

end ClassField

namespace Scan

section Begins

variable {s : Slot} {base base' L : List Slot} {g : Text}

theorem begins_of_layout (hg : g.all isLayout) (base : List Slot) :
    begins ((paint g.asCode).reverse ++ base) = begins base := by
  induction g generalizing base with
  | nil => rfl
  | cons c g ih =>
    rw [List.all_cons, Bool.and_eq_true] at hg
    have hone : Slot.ofChar .code c = [⟨some c, .code⟩] := by
      rw [Slot.ofChar, utf8Size_of_isLayout hg.1]
      rfl
    rw [Text.asCode_cons, Slot.paint_cons, hone, List.reverse_append, List.append_assoc, ih hg.2]
    exact begins_cons (by simp [Slot.isLayout, hg.1])

variable (hL : ∃ x ∈ L, (x.kind == .comment || x.isLayout) = false) (hs : s.isAsciiIdent = false)
include hL hs

/-- What stands before a byte that belongs to no word plays no role behind a byte of code. -/
theorem begins_of_ink : begins (L ++ s :: base) = begins (L ++ s :: base') := by
  have hne : L.dropWhile (fun x => x.kind == .comment || x.isLayout) ≠ [] := by
    rw [ne_eq, List.dropWhile_eq_nil_iff]
    intro hall
    obtain ⟨x, hx, hink⟩ := hL
    rw [hall x hx] at hink
    cases hink
  have htake : ∀ {t : Slot} {before b : List Slot},
      (t :: (before ++ s :: b)).takeWhile Slot.isAsciiIdent =
        (t :: before).takeWhile Slot.isAsciiIdent := by
    intro t before b
    rw [← List.cons_append, List.takeWhile_append]
    split
    · rename_i hall
      rw [List.takeWhile_cons, if_neg (by simp [hs]), List.append_nil]
      exact ((List.takeWhile_sublist _).eq_of_length hall).symm
    · rfl
  unfold begins
  rw [List.dropWhile_append, List.dropWhile_append]
  cases hdrop : L.dropWhile (fun x => x.kind == .comment || x.isLayout) with
  | nil => exact absurd hdrop hne
  | cons t before =>
    simp only [List.isEmpty_cons, Bool.false_eq_true, if_false, List.cons_append, htake]

theorem beginsAlike_of_ink (whole : Text) :
    BeginsAlike (L ++ s :: base) (L ++ s :: base') whole := by
  intro ps v _
  rw [← List.append_assoc, ← List.append_assoc]
  obtain ⟨x, hx, hink⟩ := hL
  exact begins_of_ink ⟨x, List.mem_append_right _ hx, hink⟩ hs

end Begins

end Scan

namespace ClassField

variable {jsx : Bool} {o o' : State} {f : ClassField} {fs : List ClassField} {start rest : Text}

theorem lineEnd_cons (semicolon : Bool) :
    ∃ d tail, lineEnd semicolon = d :: tail ∧ d ∈ seamChars := by
  cases semicolon with
  | false => exact ⟨'\n', [], rfl, by decide⟩
  | true => exact ⟨';', ['\n'], rfl, by decide⟩

theorem lineEnd_idle (semicolon : Bool) : (lineEnd semicolon).all isIdleChar := by
  cases semicolon <;> rfl

/-- Behind the `=` of a field and the layout there, an expression can begin. -/
theorem Stands.joins (hf : f.Stands jsx) (base : List Slot) :
    Joins ((paint f.head.asCode).reverse ++ base) f.value := by
  obtain ⟨-, -, hafter⟩ := hf.isLayout
  have hhead : (paint f.head.asCode).reverse ++ base = (paint f.after.asCode).reverse ++
      ⟨some '=', .code⟩ :: ((paint (Text.asCode (f.indent ++ f.name ++ f.before))).reverse ++
        base) := by
    have hequals : paint (Text.asCode "=") = [⟨some '=', .code⟩] := rfl
    rw [head, Text.asCode_append, Text.asCode_append _ "=", paint_append, paint_append,
      List.reverse_append, List.reverse_append, List.append_assoc]
    rfl
  rw [hhead]
  refine ⟨(begins_of_layout hafter _).trans rfl, fun _ _ _ s hs => ?_⟩
  cases hlast : f.after.reverse with
  | nil =>
    rw [List.reverse_eq_nil_iff.mp hlast] at hs
    obtain rfl : _ = s := by simpa using hs
    rfl
  | cons c g =>
    have hmem : c ∈ f.after := List.mem_reverse.mp (hlast ▸ List.mem_cons_self)
    have hlayout := List.all_eq_true.mp hafter c hmem
    have hone : Slot.ofChar .code c = [⟨some c, .code⟩] := by
      rw [Slot.ofChar, utf8Size_of_isLayout hlayout]
      rfl
    rw [List.reverse_eq_cons_iff.mp hlast, Text.asCode_append, paint_append,
      Text.asCode_cons, Slot.paint_cons, hone] at hs
    obtain rfl : _ = s := by simpa using hs
    exact of_isLayout hlayout (by decide)

theorem Stands.reads (hf : f.Stands jsx) (ho : o.Idle) (semicolon : Bool) (post : Text) :
    ∃ o', Reads jsx o (f.head ++ f.value ++ lineEnd semicolon)
      (f.painted jsx ++ (lineEnd semicolon).asCode) post o' := by
  obtain ⟨d, tail, hend, hd⟩ := lineEnd_cons semicolon
  have hseam : Seam f.value (lineEnd semicolon ++ post) := by
    rw [hend]
    exact seam_of_head hd (tail ++ post)
  obtain ⟨o₁, h₁⟩ := reads_plain jsx ho hf.all_head (f.value ++ (lineEnd semicolon ++ post))
  have hjoins : Joins o₁.done f.value := h₁.done ▸ hf.joins o.done
  obtain ⟨o₂, h₂⟩ := reads_selfContained h₁.idle hf.idle (fun _ => hjoins) hseam
  obtain ⟨o₃, h₃⟩ := reads_plain jsx h₂.idle (lineEnd_idle semicolon) post
  exact ⟨o₃, (h₁.trans h₂).trans h₃⟩

theorem reads_lines (hfs : ∀ f ∈ fs, f.Stands jsx) (ho : o.Idle) (semicolon : Bool) (post : Text) :
    ∃ o', Reads jsx o (lines semicolon fs) (paintedLines jsx semicolon fs) post o' := by
  induction fs generalizing o with
  | nil => exact ⟨o, .refl _ _, rfl, ho⟩
  | cons f fs ih =>
    obtain ⟨o₁, h₁⟩ := (hfs f (by simp)).reads ho semicolon (lines semicolon fs ++ post)
    obtain ⟨o₂, h₂⟩ := ih (fun g hg => hfs g (by simp [hg])) h₁.idle
    exact ⟨o₂, h₁.trans h₂⟩

theorem reads_classText (hstart : (run jsx .start start).Idle) (hfs : ∀ f ∈ fs, f.Stands jsx)
    (semicolon : Bool) (rest : Text) : ∃ o, Reads jsx .start (start ++ '\x7b' :: lines semicolon fs)
      (trace jsx .start start ++ ('\x7b', .code) :: paintedLines jsx semicolon fs) rest o := by
  obtain ⟨o₁, h₁⟩ := reads_selfContained start_idle hstart (fun _ => .nil start)
    (seam_of_head (d := '\x7b') (by decide) (lines semicolon fs ++ rest))
  obtain ⟨o₂, h₂⟩ := reads_plain jsx h₁.idle (g := ['\x7b']) rfl (lines semicolon fs ++ rest)
  obtain ⟨o₃, h₃⟩ := reads_lines hfs h₂.idle semicolon rest
  exact ⟨o₃, h₁.trans (v := '\x7b' :: lines semicolon fs) (h₂.trans h₃)⟩

/-- With semicolons and without them, the same character stands before what follows the fields. -/
theorem paintedLines_last (jsx : Bool) (fs : List ClassField) : ∃ y ∈ ['\x7b', '\n'],
    ∀ semicolon, ∃ init,
      ('\x7b', .code) :: paintedLines jsx semicolon fs = init ++ [(y, .code)] := by
  rcases List.eq_nil_or_concat fs with rfl | ⟨init, f, rfl⟩
  · exact ⟨'\x7b', by decide, fun _ => ⟨[], rfl⟩⟩
  · refine ⟨'\n', by decide, fun semicolon => ?_⟩
    have hend : ∃ e, (lineEnd semicolon).asCode = e ++ [('\n', .code)] := by
      cases semicolon with
      | false => exact ⟨[], rfl⟩
      | true => exact ⟨[(';', .code)], rfl⟩
    obtain ⟨e, he⟩ := hend
    refine ⟨('\x7b', .code) :: paintedLines jsx semicolon init ++ (f.painted jsx ++ e), ?_⟩
    simp [paintedLines, he]

/-- Behind the same character of code, what follows the fields is read alike. -/
theorem trace_continues {y : Char} {b b' : List Slot} (hrest : Continues rest) (ho : o.Idle)
    (ho' : o'.Idle) (hy : y ∈ ['\x7b', '\n']) (hdone : o.done = ⟨some y, .code⟩ :: b)
    (hdone' : o'.done = ⟨some y, .code⟩ :: b') :
    trace jsx o' rest = trace jsx o rest ∧ Follows (trace jsx o rest) ∧
      (MarkupFree (run jsx o' rest).modes ↔ MarkupFree (run jsx o rest).modes) := by
  obtain ⟨gap, tail, rfl, hgap, hnext⟩ := hrest
  obtain ⟨o₁, h₁⟩ := reads_plain jsx ho (all_isIdleChar_of_layout hgap) tail
  obtain ⟨o₁', h₁'⟩ := reads_plain jsx ho' (all_isIdleChar_of_layout hgap) tail
  rw [h₁.trace_append, h₁'.trace_append, h₁.reaches.run_eq, h₁'.reaches.run_eq]
  cases tail with
  | nil =>
    obtain ⟨n, hmodes⟩ := h₁.idle.root
    obtain ⟨n', hmodes'⟩ := h₁'.idle.root
    refine ⟨by rw [trace_nil, trace_nil], ⟨gap, [], by rfl, hgap, by simp⟩, ?_⟩
    rw [run, run, hmodes, hmodes']
    exact Iff.rfl
  | cons x tail =>
    have hx := hnext x rfl
    have hidle : [x].all isIdleChar := by
      rw [List.all_cons, isIdleChar_of_next hx]
      rfl
    obtain ⟨o₂, h₂⟩ := reads_plain jsx h₁.idle hidle tail
    obtain ⟨o₂', h₂'⟩ := reads_plain jsx h₁'.idle hidle tail
    obtain ⟨n, hmodes⟩ := h₂.idle.root
    have hink : ∃ s ∈ (paint [(x, Kind.code)]).reverse ++ (paint gap.asCode).reverse,
        (s.kind == .comment || s.isLayout) = false := by
      refine ⟨⟨some x, .code⟩, by simp [Slot.paint_cons, Slot.ofChar], ?_⟩
      have hlayout : isLayout x = false := by
        rcases hx with hx | rfl
        · have := FunctionSource.isTrivia_of_isIdentStart hx
          simpa [Slot.isTrivia, Slot.isCode, Slot.isLayout] using this
        · rfl
      simp [Slot.isLayout, hlayout]
    have hword : Slot.isAsciiIdent ⟨some y, .code⟩ = false := by
      simp only [List.mem_cons, List.not_mem_nil, or_false] at hy
      rcases hy with rfl | rfl <;> rfl
    have hbegins : BeginsAlike o₂'.done o₂.done tail := by
      rw [h₂.done, h₂'.done, h₁.done, h₁'.done, hdone, hdone', ← List.append_assoc,
        ← List.append_assoc]
      exact beginsAlike_of_ink hink hword tail
    have haligned : Aligned [] o₂'.done o₂.done tail o₂' o₂ tail := by
      obtain ⟨n', hmodes'⟩ := h₂'.idle.root
      refine ⟨h₂'.idle.context.trans h₂.idle.context.symm, ?_, [], rfl, rfl, rfl⟩
      rw [hmodes, hmodes']
      exact .base _ _ _
    have hrun : Aligned [] o₂'.done o₂.done tail (run jsx o₂' tail) (run jsx o₂ tail) [] :=
      haligned.run h₂'.idle.rooted fun _ => hbegins
    have htrace : trace jsx o₂' tail = trace jsx o₂ tail := by
      obtain ⟨ps, hps', hps, -⟩ := hrun.done
      rw [run_done, List.append_cancel_right_eq, List.reverse_inj] at hps hps'
      rw [Slot.paint_injective hps, Slot.paint_injective hps']
    have hcons : ∀ {p p' : State}, Reads jsx p [x] [(x, .code)] tail p' →
        trace jsx p (x :: tail) = (x, .code) :: trace jsx p' tail := fun h => h.trace_append
    have hsame : ∀ {p p' : State}, Reads jsx p [x] [(x, .code)] tail p' →
        run jsx p (x :: tail) = run jsx p' tail := fun h => h.reaches.run_eq
    rw [hcons h₂, hcons h₂', hsame h₂, hsame h₂', htrace]
    refine ⟨rfl, ⟨gap, _, rfl, hgap, ?_⟩, hrun.modes.markupFree_iff⟩
    rintro p ⟨⟩
    exact ⟨rfl, hx⟩

/-- With semicolons and without them, the fields and what follows them are read alike.  If the text
without semicolons is scanned with markup, so is the one with semicolons. -/
theorem kinds_classText (hstart : (run jsx .start start).Idle) (hfs : ∀ f ∈ fs, f.Stands jsx)
    (hrest : Continues rest) (hmarkup : withMarkup (classText start false fs rest) = jsx)
    (hmarkup' : jsx = false → withMarkup (classText start true fs rest) = false) :
    ∃ rs, Follows rs ∧ ∀ semicolon, kinds (classText start semicolon fs rest) =
      trace jsx .start start ++ ('\x7b', .code) :: paintedLines jsx semicolon fs ++ rs := by
  obtain ⟨o, h⟩ := reads_classText hstart hfs false rest
  obtain ⟨o', h'⟩ := reads_classText hstart hfs true rest
  obtain ⟨y, hy, hlast⟩ := paintedLines_last jsx fs
  have hone : paint [(y, Kind.code)] = [⟨some y, .code⟩] := by
    simp only [List.mem_cons, List.not_mem_nil, or_false] at hy
    rcases hy with rfl | rfl <;> rfl
  have hdone : ∀ {semicolon : Bool} {p : State},
      Reads jsx .start (start ++ '\x7b' :: lines semicolon fs)
        (trace jsx .start start ++ ('\x7b', .code) :: paintedLines jsx semicolon fs) rest p →
      ∃ b, p.done = ⟨some y, .code⟩ :: b := by
    intro semicolon p hp
    obtain ⟨init, hinit⟩ := hlast semicolon
    rw [hp.done, hinit, ← List.append_assoc, paint_append, hone, List.reverse_append]
    exact ⟨_, rfl⟩
  obtain ⟨b, hb⟩ := hdone h
  obtain ⟨b', hb'⟩ := hdone h'
  obtain ⟨htrace, hfollows, hfree⟩ : trace jsx o' rest = trace jsx o rest ∧ _ :=
    trace_continues hrest h.idle h'.idle hy hb hb'
  refine ⟨trace jsx o rest, hfollows, fun semicolon => ?_⟩
  cases semicolon with
  | false => rw [kinds, hmarkup, classText, h.trace_append]
  | true =>
    have hmarkup' : withMarkup (classText start true fs rest) = jsx := by
      cases jsx with
      | false => exact hmarkup' rfl
      | true =>
        rw [withMarkup_iff, classText, h'.reaches.run_eq, hfree, ← h.reaches.run_eq]
        exact withMarkup_iff.mp hmarkup
    rw [kinds, hmarkup', classText, h'.trace_append, htrace]

end ClassField

end Declass
