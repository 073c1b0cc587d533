import Declass.Proofs.FieldLines
import Declass.Proofs.InsetMembers

/-!
# Semicolons behind class fields

**Input.** A class body that begins with fields on lines of their own, once with a semicolon behind
each of them and once without.

**Algorithm.** Each field is read in both texts.  Without a semicolon it ends at its line feed: the
value is a whole expression there, and what comes next cannot continue one.  What is read of the
value is the same function, or none, in both texts, since they have the same bytes up to what ends
it.  Behind the fields the two texts have the same bytes to their end.

**Results.** `ClassField.textsAt_semicolon`: the members of both class bodies have the same names,
kinds and texts.  `ClassField.fallback_semicolon`: it is not enough that the values stand for
themselves in a scan with markup, if the text around them is scanned without it.
-/

namespace Declass

open Scan CodeMap
open Slot (width)

/-- From position `i` on, these are the characters up to the end. -/
def Slot.Rests (ps : List (Char × Kind)) (i : Nat) (qs : List (Char × Kind)) : Prop :=
  ∃ pre, ps = pre ++ qs ∧ width pre = i

namespace Slot.Rests

variable {m : CodeMap} {ps qs rs : Painted} {i : Nat} {c : Char} {k : Kind}

theorem liesAt (h : Rests ps i qs) : LiesAt ps i qs := by
  obtain ⟨pre, rfl, rfl⟩ := h
  exact ⟨pre, [], by simp, rfl⟩

theorem right (h : Rests ps i (qs ++ rs)) : Rests ps (i + width qs) rs := by
  obtain ⟨pre, rfl, rfl⟩ := h
  exact ⟨pre ++ qs, by simp, by simp⟩

theorem tail (h : Rests ps i ((c, k) :: qs)) : Rests ps (i + c.utf8Size) qs := by
  obtain ⟨pre, rfl, rfl⟩ := h
  exact ⟨pre ++ [(c, k)], by simp, by simp⟩

variable (h : Rests ps i qs) (hm : m.Shows ps)
include h hm

theorem size_eq : m.size = i + width qs := by
  obtain ⟨pre, rfl, rfl⟩ := h
  rw [size_eq_width hm, width_append]

theorem isBoundary : m.isBoundary i := by
  obtain ⟨pre, rfl, rfl⟩ := h
  exact (isBoundary_iff hm).mpr ⟨pre, qs, rfl, rfl⟩

end Slot.Rests

section Walks

variable {m : CodeMap} {ps qs rs : Painted} {i j e e' start stop : Nat} {c : Char}
  {k : Kind} {g : Text}

theorem size_of_layout (hg : g.all Character.isLayout) : g.size = g.length := by
  induction g with
  | nil => rfl
  | cons c g ih =>
    rw [List.all_cons, Bool.and_eq_true] at hg
    rw [Text.size_cons, List.length_cons, utf8Size_of_isLayout hg.1, ih hg.2, Nat.add_comm]

/-- A value goes on where nothing that could end it stands outside its brackets. -/
theorem Member.valueEndFrom_of_walks (h : Walks m i j e e')
    (hquiet : ∀ x ∈ [';', '\n'], m.outerFrom (m.isCodeChar · x) (j - i) e i = []) (count : Nat) :
    valueEndFrom m start stop (j - i + count) e i = valueEndFrom m start stop count e' j := by
  induction h with
  | refl => simp
  | opens hopens hnext ih =>
    rw [hnext.length_succ, Nat.add_right_comm, valueEndFrom, if_pos hopens]
    refine ih fun x hx => ?_
    have houter := hquiet x hx
    rwa [hnext.length_succ, outerFrom_opens hopens] at houter
  | closes hcloses hnext ih =>
    rw [hnext.length_succ, Nat.add_right_comm, valueEndFrom,
      if_neg (by simp [not_opens_of_closes hcloses]), if_pos hcloses]
    refine ih fun x hx => ?_
    have houter := hquiet x hx
    rwa [hnext.length_succ, outerFrom_closes hcloses] at houter
  | @other i j e e' hopens hcloses hnext ih =>
    have hrest : ∀ x ∈ [';', '\n'], (e == 0 && m.isCodeChar i x) = false ∧
        m.outerFrom (m.isCodeChar · x) (j - (i + 1)) e (i + 1) = [] := by
      intro x hx
      have houter := hquiet x hx
      rw [hnext.length_succ, outerFrom_other hopens hcloses] at houter
      cases hhere : e == 0 && m.isCodeChar i x with
      | true => simp [hhere] at houter
      | false => exact ⟨rfl, by simpa [hhere] using houter⟩
    have hsemicolon := (hrest ';' (by simp)).1
    have hnewline := (hrest '\n' (by simp)).1
    have hends : (e == 0 && (m.isCodeChar i ';' ||
        (m.isCodeChar i '\n' && isComplete m start stop i))) = false := by
      cases hzero : e == 0 with
      | false => rfl
      | true =>
        rw [hzero, Bool.true_and] at hsemicolon hnewline
        rw [hsemicolon, hnewline]
        rfl
    rw [hnext.length_succ, Nat.add_right_comm, valueEndFrom, if_neg (by simp [hopens]),
      if_neg (by simp [hcloses]), hends]
    exact ih fun x hx => (hrest x hx).2

variable (hm : m.Shows ps)
include hm

theorem skipTrivia_of_layout (h : Slot.LiesAt ps i (g.asCode ++ (c, k) :: rs))
    (hg : g.all Character.isLayout) (hc : Slot.isTrivia ⟨some c, k⟩ = false)
    (hstop : i + g.size ≤ stop) : m.skipTrivia i stop = i + g.size := by
  have hlength : g.asCode.length = g.size := by rw [size_of_layout hg, Text.asCode, List.length_map]
  rw [← hlength]
  refine skipWhile_of_liesAt hm h (fun q hq => ?_) hc (by omega)
  obtain ⟨d, hd, rfl⟩ := List.mem_map.mp hq
  have hlayout := List.all_eq_true.mp hg d hd
  refine ⟨utf8Size_of_isLayout hlayout, ?_⟩
  simp [Slot.isTrivia, Slot.isCode, Slot.isLayout, hlayout]

theorem isTrivia_of_layout (h : Slot.LiesAt ps i (g.asCode ++ rs))
    (hg : g.all Character.isLayout) (hi : i ≤ j) (hj : j < i + g.size) : m.has Slot.isTrivia j := by
  induction g generalizing i with
  | nil => exact absurd hj (by simpa using hi)
  | cons c g ih =>
    rw [List.all_cons, Bool.and_eq_true] at hg
    have hone := utf8Size_of_isLayout hg.1
    rcases Nat.eq_or_lt_of_le hi with rfl | hlt
    · rw [has_of_liesAt hm h]
      simp [Slot.isTrivia, Slot.isCode, Slot.isLayout, hg.1]
    · have htail := Slot.LiesAt.tail h
      rw [hone] at htail
      rw [Text.size_cons] at hj
      exact ih htail hg.2 hlt (by omega)

theorem slot_of_last (h : Slot.LiesAt ps i (qs ++ [(c, k)])) :
    m.slots[i + width (qs ++ [(c, k)]) - 1]? =
      some ⟨if c.utf8Size = 1 then some c else none, k⟩ := by
  obtain ⟨pre, post, hps, rfl⟩ := h
  have hpos := c.utf8Size_pos
  have hslot := slots_inside hm (show ps = pre ++ qs ++ (c, k) :: post by simp [hps])
    (show c.utf8Size - 1 < c.utf8Size by omega)
  have hplace : width (pre ++ qs) + (c.utf8Size - 1) = width pre + width (qs ++ [(c, k)]) - 1 := by
    simp only [Slot.width_append, Slot.width_cons, Slot.width_nil]
    omega
  have hone : (c.utf8Size - 1 = 0) = (c.utf8Size = 1) := propext ⟨by omega, by omega⟩
  rw [hplace] at hslot
  simpa only [hone] using hslot

theorem trimTrivia_of_last (h : Slot.LiesAt ps i (qs ++ [(c, k)]))
    (hc : Slot.isTrivia ⟨some c, k⟩ = false) (start : Nat) :
    m.trimTrivia start (i + width (qs ++ [(c, k)])) = i + width (qs ++ [(c, k)]) := by
  have hlast : m.has Slot.isTrivia (i + width (qs ++ [(c, k)]) - 1) = false := by
    rw [has, slot_of_last hm h, Option.any_some]
    split
    · exact hc
    · simp only [Slot.isTrivia, Bool.or_eq_false_iff] at hc ⊢
      exact ⟨hc.1, by simp [Slot.isLayout]⟩
  unfold trimTrivia
  cases i + width (qs ++ [(c, k)]) - start with
  | zero => rfl
  | succ count => rw [skipBackWhile, hlast, if_neg Bool.false_ne_true]

/-- Code that ends with a character behind which no expression goes on. -/
theorem Member.isOpenEnded_of_last {y : Char} {l : Kind}
    (h : Slot.LiesAt ps i (qs ++ [(y, l)] ++ [(c, k)]))
    (hc : k = .code → wantsMore c = false ∧ (c = '>' → y ≠ '=')) :
    isOpenEnded m (i + width (qs ++ [(y, l)] ++ [(c, k)])) = false := by
  have hslot := slot_of_last hm h
  have hbefore := slot_of_last hm h.left
  have hplace : c.utf8Size = 1 →
      i + width (qs ++ [(y, l)] ++ [(c, k)]) - 2 = i + width (qs ++ [(y, l)]) - 1 := by
    intro hone
    rw [Slot.width_append, Slot.width_cons, Slot.width_nil, hone]
    omega
  generalize i + width (qs ++ [(y, l)] ++ [(c, k)]) = stop at hslot hplace ⊢
  have hkind : m.isCode (stop - 1) = (k == .code) := by
    rw [isCode, has, hslot]
    rfl
  have hlast : m.charAt? (stop - 1) = if c.utf8Size = 1 then some c else none := by
    rw [charAt?, hslot]
    rfl
  rw [isOpenEnded, hkind, hlast]
  by_cases hcode : k = .code
  · by_cases hone : c.utf8Size = 1
    · obtain ⟨hmore, harrow⟩ := hc hcode
      have hequals : (c == '>' && m.charAt? (stop - 2) == some '=') = false := by
        by_cases hgt : c = '>'
        · rw [hplace hone, charAt?, hbefore]
          by_cases hwidth : y.utf8Size = 1 <;> simp [hwidth, harrow hgt]
        · simp [hgt]
      rw [Bool.and_eq_false_iff] at hequals
      rw [if_pos hone, Option.any_some, hmore]
      rcases hequals with hne | hne
      · simp [hne]
      · simp [hne]
    · simp [hone]
  · simp [hcode]

end Walks

namespace ClassField

section Reading

variable (f : ClassField) (jsx : Bool)

/-- The characters of a field from its name on, with their kinds. -/
def bare : List (Char × Kind) :=
  f.name.asCode ++ (f.before.asCode ++ ('=', .code) ::
    (f.after.asCode ++ trace jsx .start f.value))

/-- Where the `=` of a field stands whose name starts at `s`. -/
def equals (s : Nat) : Nat := s + f.name.size + f.before.size

/-- Where the value of that field starts. -/
def valueStart (s : Nat) : Nat := f.equals s + 1 + f.after.size

/-- Where the value of that field stops. -/
def valueStop (s : Nat) : Nat := f.valueStart s + f.value.size

theorem painted_eq : f.painted jsx = f.indent.asCode ++ f.bare jsx := by
  simp [painted, head, bare]

theorem width_trace : width (trace jsx .start f.value) = f.value.size := by
  rw [width, trace_chars]

theorem valueStop_eq (s : Nat) : f.valueStop s = s + width (f.bare jsx) := by
  have hequals : '='.utf8Size = 1 := rfl
  simp only [valueStop, valueStart, equals, bare, Slot.width_append, Slot.width_cons,
    Text.width_asCode, width_trace, hequals]
  omega

variable {f jsx} {m : CodeMap} {ps rs : Painted} {s stop : Nat} (hm : m.Shows ps)
  (hf : f.Stands jsx) (h : Slot.LiesAt ps s (f.bare jsx ++ rs))

section Places

include h

theorem before_liesAt : Slot.LiesAt ps (s + f.name.size) (f.before.asCode ++ ('=', .code) ::
    (f.after.asCode ++ (trace jsx .start f.value ++ rs))) := by
  rw [bare, List.append_assoc] at h
  have hright := h.right
  simpa using hright

theorem equals_liesAt : Slot.LiesAt ps (f.equals s) (('=', .code) ::
    (f.after.asCode ++ (trace jsx .start f.value ++ rs))) := by
  have hright := (before_liesAt h).right
  rwa [Text.width_asCode] at hright

theorem after_liesAt :
    Slot.LiesAt ps (f.equals s + 1) (f.after.asCode ++ (trace jsx .start f.value ++ rs)) :=
  (equals_liesAt h).tail

theorem value_liesAt : Slot.LiesAt ps (f.valueStart s) (trace jsx .start f.value ++ rs) := by
  have hright := (after_liesAt h).right
  rwa [Text.width_asCode] at hright

include hf

theorem name_liesAt : ∃ c rs', Slot.LiesAt ps s (f.name.asCode ++ (c, .code) :: rs') ∧
    Character.isIdentPart c = false := by
  rw [bare, List.append_assoc] at h
  cases hbefore : f.before with
  | nil =>
    rw [hbefore] at h
    exact ⟨'=', _, h, rfl⟩
  | cons c g =>
    have hlayout := List.all_eq_true.mp hf.isLayout.2.1 c (by simp [hbefore])
    rw [hbefore] at h
    exact ⟨c, _, h, of_isLayout hlayout (by decide)⟩

end Places

section Ends

include hf

theorem Stands.exists_name : ∃ a w, f.name = a :: w ∧ Character.isIdentStart a := by
  have hident := hf.isIdentifier
  cases hname : f.name with
  | nil =>
    rw [hname] at hident
    cases hident
  | cons a w =>
    rw [hname, Text.isIdentifier, Bool.and_eq_true] at hident
    exact ⟨a, w, rfl, hident.1⟩

theorem Stands.exists_first : ∃ x k qs, trace jsx .start f.value = (x, k) :: qs ∧
    Slot.isTrivia ⟨some x, k⟩ = false ∧ f.value.head? = some x := by
  have hchars := trace_chars jsx .start f.value
  have hfirst := hf.first
  cases htrace : trace jsx .start f.value with
  | nil =>
    rw [htrace] at hchars
    exact absurd hchars.symm hf.nonempty
  | cons p qs =>
    obtain ⟨x, k⟩ := p
    rw [htrace] at hchars hfirst
    refine ⟨x, k, qs, rfl, hfirst (x, k) rfl, ?_⟩
    rw [← hchars]
    rfl

/-- What stands before the value ends with the `=` or with layout. -/
theorem Stands.exists_sign : ∃ qs y, f.name.asCode ++ (f.before.asCode ++
    ('=', .code) :: f.after.asCode) = qs ++ [(y, .code)] ∧ (y = '=' → f.after = []) := by
  rcases List.eq_nil_or_concat f.after with hnil | ⟨init, y, hafter⟩
  · exact ⟨f.name.asCode ++ f.before.asCode, '=', by simp [hnil], fun _ => hnil⟩
  · have hlayout := List.all_eq_true.mp hf.isLayout.2.2 y (by simp [hafter])
    refine ⟨f.name.asCode ++ (f.before.asCode ++ ('=', .code) :: Text.asCode init), y, ?_, ?_⟩
    · simp [hafter]
    · rintro rfl
      cases hlayout

/-- The value does not end with trivia, nor with code behind which an expression goes on. -/
theorem Stands.exists_last : ∃ qs y l c k, f.bare jsx = qs ++ [(y, l)] ++ [(c, k)] ∧
    Slot.isTrivia ⟨some c, k⟩ = false ∧
    (k = .code → Member.wantsMore c = false ∧ (c = '>' → y ≠ '=')) := by
  obtain ⟨sign, z, hsign, hz⟩ := hf.exists_sign
  have hbare : f.bare jsx = sign ++ [(z, .code)] ++ trace jsx .start f.value := by
    rw [← hsign, bare]
    simp
  have hchars := trace_chars jsx .start f.value
  have hlast := hf.last
  have hcomplete := hf.complete
  rw [hbare]
  rcases List.eq_nil_or_concat (trace jsx .start f.value) with hnil | ⟨init, ⟨c, k⟩, htrace⟩
  · rw [hnil] at hchars
    exact absurd hchars.symm hf.nonempty
  rw [List.concat_eq_append] at htrace
  rw [htrace, List.getLast?_concat] at hlast
  rw [htrace, List.map_append, List.map_singleton] at hchars
  rw [htrace]
  rcases List.eq_nil_or_concat init with rfl | ⟨init', ⟨y, l⟩, rfl⟩
  · refine ⟨sign, z, .code, c, k, by simp, hlast (c, k) rfl, fun hcode => ?_⟩
    obtain ⟨hmore, -⟩ := hcomplete (c, k) (by rw [htrace]; rfl) hcode
    refine ⟨hmore, fun hgt hequals => ?_⟩
    have happart := (hf.apart (hz hequals) c (by rw [← hchars]; rfl)).2
    exact happart hgt
  · rw [List.concat_eq_append] at htrace hchars ⊢
    refine ⟨sign ++ [(z, .code)] ++ init', y, l, c, k, by simp, hlast (c, k) rfl, fun hcode => ?_⟩
    obtain ⟨hmore, harrow⟩ := hcomplete (c, k) (by rw [htrace]; simp) hcode
    refine ⟨hmore, fun hgt hequals => harrow hgt ?_⟩
    rw [← hchars, List.dropLast_concat, List.map_append, List.map_singleton, List.getLast?_concat,
      hequals]

end Ends

section Fields

include hm hf h

theorem Stands.modifiersFrom_eq (hstop : f.valueStop s ≤ stop) (count : Nat)
    (mods : Member.Modifiers) : Member.modifiersFrom m stop count mods s = .ok (mods, s) := by
  cases count with
  | zero => rfl
  | succ count =>
    obtain ⟨c, rs', hname, hc⟩ := name_liesAt hf h
    obtain ⟨hend, hslice⟩ := identEnd_of_liesAt hm hname hf.isIdentifier hc
    have hbefore : m.skipTrivia (s + f.name.size) stop = f.equals s :=
      skipTrivia_of_layout hm (before_liesAt h) hf.isLayout.2.1 rfl (by
        unfold valueStop valueStart equals at hstop
        omega)
    obtain ⟨rest, hrest⟩ := slice_size_of_liesAt hm (equals_liesAt h)
    rw [Member.modifiersFrom, bind_of_eq_ok hend, bind_of_eq_ok hslice, hbefore]
    cases mods.add? f.name with
    | none => rfl
    | some more =>
      dsimp only
      split
      · rw [bind_of_eq_ok hrest]
        rfl
      · rfl

theorem Stands.valueEnd_eq (hstop : f.valueStop s < stop)
    (hends : m.isCodeChar (f.valueStop s) ';' ∨ m.isCodeChar (f.valueStop s) '\n' ∧
      Member.isComplete m (f.valueStart s) stop (f.valueStop s)) :
    Member.valueEnd m (f.valueStart s) stop = (f.valueStop s, f.valueStop s + 1) := by
  have hvalue := (value_liesAt h).left
  have hwalks : Walks m (f.valueStart s) (f.valueStop s) 0 0 := by
    rw [valueStop, ← width_trace f jsx]
    exact walks_of_liesAt hm hvalue hf.balanced
  have hquiet : ∀ x ∈ [';', '\n'], m.outerFrom (m.isCodeChar · x)
      (f.valueStop s - f.valueStart s) 0 (f.valueStart s) = [] := by
    have hcount : f.valueStop s - f.valueStart s = width (trace jsx .start f.value) + 0 := by
      rw [width_trace, valueStop]
      omega
    intro x hx
    rw [hcount]
    simp only [List.mem_cons, List.not_mem_nil, or_false] at hx
    rcases hx with rfl | rfl
    · exact outerFrom_of_quiet hm hvalue hf.balanced hf.noSemicolon 0
    · exact outerFrom_of_quiet hm hvalue hf.balanced hf.noNewline 0
  have hcount : stop - f.valueStart s =
      f.valueStop s - f.valueStart s + (stop - (f.valueStop s + 1) + 1) := by
    unfold valueStop at hstop ⊢
    omega
  have hother : m.has Slot.opens (f.valueStop s) = false ∧
      m.has Slot.closes (f.valueStop s) = false := by
    rcases hends with hends | ⟨hends, -⟩ <;> simp [has, isCodeChar_iff.mp hends] <;> decide
  have hhere : (0 == 0 && (m.isCodeChar (f.valueStop s) ';' || (m.isCodeChar (f.valueStop s) '\n' &&
        Member.isComplete m (f.valueStart s) stop (f.valueStop s)))) := by
    rcases hends with hends | ⟨hends, hcomplete⟩
    · simp [hends]
    · simp [hends, hcomplete]
  rw [Member.valueEnd, hcount, Member.valueEndFrom_of_walks hwalks hquiet, Member.valueEndFrom,
    if_neg (by simp [hother.1]), if_neg (by simp [hother.2])]
  exact if_pos hhere

omit hf h in
/-- Behind the line feed comes nothing that continues an expression. -/
theorem Follows.next (hfollows : Follows rs) {i : Nat} (h : Slot.Rests ps i (('\n', .code) :: rs))
    (hsize : stop ≤ m.size) :
    stop ≤ m.skipTrivia i stop ∨ (m.charAt? (m.skipTrivia i stop)).any Member.goesOn = false := by
  obtain ⟨gap, tail, rfl, hgap, hnext⟩ := hfollows
  have hlies : Slot.Rests ps i (Text.asCode ('\n' :: gap) ++ tail) := h
  have hlayout : ('\n' :: gap).all Character.isLayout := by
    rw [List.all_cons, hgap]
    rfl
  by_cases hle : stop ≤ m.skipTrivia i stop
  · exact .inl hle
  have hge := le_skipTrivia m i stop
  have hstop := skipTrivia_stop (show m.skipTrivia i stop < stop by omega)
  have hbehind : i + Text.size ('\n' :: gap) ≤ m.skipTrivia i stop := by
    by_contra hlt
    rw [isTrivia_of_layout hm hlies.liesAt hlayout hge (by omega)] at hstop
    cases hstop
  right
  cases tail with
  | nil =>
    have hend := hlies.size_eq hm
    rw [List.append_nil, Text.width_asCode] at hend
    omega
  | cons p tail =>
    obtain ⟨x, k⟩ := p
    obtain ⟨rfl, hx⟩ := hnext (x, k) rfl
    have hplace := hlies.right
    rw [Text.width_asCode] at hplace
    have hink : Slot.isTrivia ⟨some x, .code⟩ = false := by
      rcases hx with hx | rfl
      · exact FunctionSource.isTrivia_of_isIdentStart hx
      · rfl
    have hhere : m.skipTrivia i stop = i + Text.size ('\n' :: gap) :=
      skipTrivia_of_layout hm hlies.liesAt hlayout hink (by omega)
    rw [hhere, charAt?_of_liesAt hm hplace.liesAt, Option.any_some]
    have hne : ∀ y, (Character.isIdentStart y || y == '\x7d') = false → x ≠ y := by
      rintro y hy rfl
      rcases hx with hx | rfl
      · simp [hx] at hy
      · cases hy
    have hgoes : ∀ y ∈ ".?:+-*/%&|=,(>".toList,
        (Character.isIdentStart y || y == '\x7d') = false := by decide
    rw [Member.goesOn, List.contains_eq_mem, decide_eq_false_iff_not]
    exact fun hmem => hne x (hgoes x hmem) rfl

theorem Stands.isComplete_eq (hnext : stop ≤ m.skipTrivia (f.valueStop s) stop ∨
      (m.charAt? (m.skipTrivia (f.valueStop s) stop)).any Member.goesOn = false) :
    Member.isComplete m (f.valueStart s) stop (f.valueStop s) := by
  obtain ⟨qs, y, l, c, k, hbare, hink, hend⟩ := hf.exists_last
  have hlies := h.left
  rw [hbare] at hlies
  have hplace : f.valueStop s = s + width (qs ++ [(y, l)] ++ [(c, k)]) := by
    rw [f.valueStop_eq jsx s, hbare]
  have htrim : m.trimTrivia (f.valueStart s) (f.valueStop s) = f.valueStop s := by
    rw [hplace]
    exact trimTrivia_of_last hm hlies hink _
  have hopen : Member.isOpenEnded m (f.valueStop s) = false := by
    rw [hplace]
    exact Member.isOpenEnded_of_last hm hlies hend
  have hnonempty : f.valueStop s ≠ f.valueStart s := by
    obtain ⟨x, rest, hvalue⟩ := List.exists_cons_of_ne_nil hf.nonempty
    have hx := x.utf8Size_pos
    rw [valueStop, hvalue, Text.size_cons]
    omega
  unfold Member.isComplete
  dsimp only
  rw [htrim, hopen, bne_iff_ne.mpr hnonempty]
  rcases hnext with hnext | hnext
  · simp [hnext]
  · simp [hnext]

/-- A field is read up to what ends its value. -/
theorem Stands.read_eq (hstop : f.valueStop s < stop)
    (hends : m.isCodeChar (f.valueStop s) ';' ∨ m.isCodeChar (f.valueStop s) '\n' ∧
      Member.isComplete m (f.valueStart s) stop (f.valueStop s)) {parts : Option FunctionParts}
    (hparts : Member.functionValue? m (f.valueStart s) (f.valueStop s) = .ok parts) :
    Member.read m s stop = .ok (.member ⟨f.name, false, ⟨s, f.valueStop s⟩,
      Member.valueKind ⟨f.valueStart s, f.valueStop s⟩ parts⟩ (f.valueStop s + 1)) := by
  have hmods := hf.modifiersFrom_eq hm h (le_of_lt hstop) m.size ⟨false, false, false⟩
  obtain ⟨c, rs', hname, hc⟩ := name_liesAt hf h
  obtain ⟨hend, hslice⟩ := identEnd_of_liesAt hm hname hf.isIdentifier hc
  obtain ⟨a, w, hword, hstart⟩ := hf.exists_name
  have hnot : ∀ d, Character.isIdentStart d = false → m.isCodeChar s d = false := by
    intro d hd
    rw [hword] at hname
    rw [isCodeChar_of_liesAt hm hname, beq_eq_false_iff_ne]
    rintro rfl
    rw [hstart] at hd
    cases hd
  have hnonempty : (s + f.name.size == s) = false := by
    have ha := a.utf8Size_pos
    rw [hword, Text.size_cons, beq_eq_false_iff_ne]
    omega
  have hsizes := hstop
  unfold valueStop valueStart equals at hsizes
  have hbefore : m.skipTrivia (s + f.name.size) stop = f.equals s :=
    skipTrivia_of_layout hm (before_liesAt h) hf.isLayout.2.1 rfl (by omega)
  have hequals : ∀ d, m.isCodeChar (f.equals s) d = ('=' == d) :=
    isCodeChar_of_liesAt hm (equals_liesAt h)
  obtain ⟨x, k, qs, htrace, hink, hhead⟩ := hf.exists_first
  have hsecond : m.isCodeChar (f.equals s + 1) '=' = false := by
    have hafter := after_liesAt h
    cases hgap : f.after with
    | nil =>
      rw [hgap, htrace] at hafter
      rw [isCodeChar, has_of_liesAt hm hafter]
      simp [Slot.isCodeChar, (hf.apart hgap x hhead).1]
    | cons d g =>
      have hlayout := List.all_eq_true.mp hf.isLayout.2.2 d (by simp [hgap])
      rw [hgap] at hafter
      rw [isCodeChar_of_liesAt hm hafter, beq_eq_false_iff_ne]
      rintro rfl
      cases hlayout
  have hvalueStart : Member.valueStart m (f.equals s) stop = f.valueStart s := by
    have hafter := after_liesAt h
    rw [htrace] at hafter
    exact skipTrivia_of_layout hm hafter hf.isLayout.2.2 hink (by unfold equals; omega)
  have hvalueEnd := hf.valueEnd_eq hm h hstop hends
  have hvalueStop : Member.valueStop m (f.equals s) stop = f.valueStop s := by
    obtain ⟨qs, y, l, c, k, hbare, hink, -⟩ := hf.exists_last
    have hlies := h.left
    rw [hbare] at hlies
    rw [Member.valueStop, hvalueStart, hvalueEnd, f.valueStop_eq jsx s, hbare]
    exact trimTrivia_of_last hm hlies hink _
  have hvalueNext : Member.valueNext m (f.equals s) stop = f.valueStop s + 1 := by
    rw [Member.valueNext, hvalueStart, hvalueEnd, hvalueStop]
    unfold valueStop valueStart
    omega
  have hfield : Member.fieldWithValue m f.name false s (f.equals s) stop = _ :=
    Member.fieldWithValue_eq (f := parts) (by rw [hvalueStart, hvalueStop]; exact hparts)
  rw [hvalueStart, hvalueStop, hvalueNext] at hfield
  unfold Member.read
  rw [bind_of_eq_ok hmods]
  simp only [hnot '*' rfl, hnot '#' rfl, Bool.false_eq_true, if_false]
  rw [bind_of_eq_ok hend, hnonempty, bind_of_eq_ok hslice, hbefore, hequals, hequals, hsecond]
  exact hfield

end Fields

end Reading

end ClassField

/-- What a member is, with the texts of its ranges. -/
inductive KindText where
  | function (isAsync : Bool) (params : Text) (isBlock : Bool) (body : Text)
  | field (value : Option Text)
  | accessor
  deriving DecidableEq, Repr

/-- A member with the texts of its ranges. -/
structure MemberText where
  name : Text
  isStatic : Bool
  kind : KindText
  deriving DecidableEq, Repr

/-- Whether the body is a block. -/
def Body.isBlock : Body → Bool
  | block _ => true
  | expression _ => false

/-- What a member of the map is, with the texts of its ranges. -/
def MemberKind.text (m : CodeMap) : MemberKind → Except Fault KindText
  | function parts => do
    let params ← m.slice parts.params.start parts.params.stop
    let body ← m.slice parts.body.range.start parts.body.range.stop
    return .function parts.isAsync params parts.body.isBlock body
  | field (some value) => do return .field (some (← m.slice value.start value.stop))
  | field none => return .field none
  | accessor => return .accessor

/-- A member of the map with the texts of its ranges. -/
def Member.text (m : CodeMap) (member : Member) : Except Fault MemberText := do
  return ⟨member.name, member.isStatic, ← member.kind.text m⟩

/-- Where the class body ends that opens at `o`.  One that is never closed ends with the text. -/
def CodeMap.bodyStop (m : CodeMap) (o : Nat) : Nat := (m.matching o).getD m.size

/-- The members of the class body that opens at `o`, with the texts of their ranges. -/
def Member.textsAt (t : Text) (o : Nat) : Except Fault (List MemberText) := do
  let listing ← list (ofText t) (o + 1) ((ofText t).bodyStop o)
  listing.members.mapM (Member.text (ofText t))

namespace Member

variable {m m' : CodeMap} {ps : Painted} {d o c : Nat} {member : Member}

/-- Members of two maps that have the same texts. -/
def Alike (m m' : CodeMap) (a a' : Member) : Prop :=
  ∃ w, a.text m = .ok w ∧ a'.text m' = .ok w

/-- A member in a range that both maps have has the same texts in both. -/
theorem alike_shift (h : Window m m' d o c) (hm : m.Shows ps) (hlies : member.Lies m)
    (hparts : ∀ parts, member.kind = .function parts → parts.Between o c)
    (hvalue : ∀ value, member.kind = .field (some value) → value.Between o c) :
    Alike m m' member (member.shift d) := by
  have hslice : ∀ {s : Span}, m.Whole s.start s.stop → s.Between o c → ∃ t,
      m.slice s.start s.stop = .ok t ∧ m'.slice (s.shift d).start (s.shift d).stop = .ok t := by
    intro s hwhole hs
    obtain ⟨t, ht, -⟩ := slice_yields hm hwhole
    obtain ⟨_, ht', hsame, -⟩ := h.slice_mirrors (le_of_lt hs.start.1) hs.stop.2 t ht
    exact ⟨t, ht, hsame ▸ ht'⟩
  have hkind : ∃ w, member.kind.text m = .ok w ∧ (member.shift d).kind.text m' = .ok w := by
    rw [Member.kind_shift]
    cases hmember : member.kind with
    | function parts =>
      obtain ⟨params, hparams, hparams'⟩ :=
        hslice (hlies.parts parts hmember).params (hparts parts hmember).params
      obtain ⟨body, hbody, hbody'⟩ :=
        hslice (hlies.parts parts hmember).body.whole (hparts parts hmember).body
      refine ⟨.function parts.isAsync params parts.body.isBlock body, ?_, ?_⟩
      · rw [MemberKind.text, bind_of_eq_ok hparams, bind_of_eq_ok hbody]
        rfl
      · rw [← Body.range_shift] at hbody'
        have hblock : (parts.body.shift d).isBlock = parts.body.isBlock := by
          cases parts.body <;> rfl
        rw [MemberKind.shift, MemberKind.text, FunctionParts.shift, bind_of_eq_ok hparams',
          bind_of_eq_ok hbody', hblock]
        rfl
    | field value =>
      cases value with
      | none => exact ⟨_, rfl, rfl⟩
      | some value =>
        obtain ⟨t, ht, ht'⟩ := hslice (hlies.value value hmember) (hvalue value hmember)
        refine ⟨.field (some t), ?_, ?_⟩
        · rw [MemberKind.text, bind_of_eq_ok ht]
          rfl
        · rw [MemberKind.shift, Option.map_some, MemberKind.text, bind_of_eq_ok ht']
          rfl
    | accessor => exact ⟨_, rfl, rfl⟩
  obtain ⟨w, hw, hw'⟩ := hkind
  refine ⟨⟨member.name, member.isStatic, w⟩, ?_, ?_⟩
  · rw [Member.text, bind_of_eq_ok hw]
    rfl
  · rw [Member.text, bind_of_eq_ok hw']
    rfl

theorem texts_of_alike {l l' : List Member} (h : List.Forall₂ (Alike m m') l l') :
    ∃ texts, l.mapM (Member.text m) = .ok texts ∧ l'.mapM (Member.text m') = .ok texts ∧
      texts.map MemberText.name = l.map Member.name := by
  induction h with
  | nil => exact ⟨[], rfl, rfl, rfl⟩
  | @cons a a' l l' halike _ ih =>
    obtain ⟨w, hw, hw'⟩ := halike
    obtain ⟨texts, htexts, htexts', hnames⟩ := ih
    have hname : w.name = a.name := by
      obtain ⟨k, -, hk⟩ := bind_eq_ok hw
      cases hk
      rfl
    refine ⟨w :: texts, ?_, ?_, by rw [List.map_cons, List.map_cons, hname, hnames]⟩
    · rw [List.mapM_cons, bind_of_eq_ok hw, bind_of_eq_ok htexts]
      rfl
    · rw [List.mapM_cons, bind_of_eq_ok hw', bind_of_eq_ok htexts']
      rfl

end Member

section Windows

variable {m m' : CodeMap} {ps ps' q r r' : Painted} {d i stop : Nat}

variable (hm : m.Shows ps) (hm' : m'.Shows ps')
include hm hm'

/-- Characters that both texts have, further on in the second one. -/
theorem slots_of_shared (h : Slot.LiesAt ps i q) (h' : Slot.LiesAt ps' (d + i) q) {j : Nat}
    (hj : i ≤ j) (hlt : j < i + width q) : m'.slots[d + j]? = m.slots[j]? := by
  rw [slots_of_liesAt hm h hj hlt, slots_of_liesAt hm' h' (by omega) (by omega),
    Nat.add_sub_add_left]

/-- A range of characters that both texts have, with something behind it in both that ends what is
read. -/
theorem window_of_shared {x y : Char} (h : Slot.LiesAt ps i (q ++ (x, .code) :: r))
    (h' : Slot.LiesAt ps' (d + i) (q ++ (y, .code) :: r')) (hx : x ∈ endings) (hy : y ∈ endings) :
    Window m m' d i (i + width q) where
  slots _ hi hlt := slots_of_shared hm hm' h.left h'.left hi hlt
  ends := by
    have hright := h'.right
    rw [Nat.add_assoc] at hright
    refine .code (ends_of_codeChar hx ?_) (ends_of_codeChar hy ?_)
    · rw [isCodeChar_of_liesAt hm h.right, beq_self_eq_true]
    · rw [isCodeChar_of_liesAt hm' hright, beq_self_eq_true]

theorem window_of_tail (h : Slot.Rests ps i q) (h' : Slot.Rests ps' (d + i) q)
    (hend : m.BodyEnd stop) (hend' : m'.BodyEnd (d + stop)) : Window m m' d i stop := by
  have hsize := h.size_eq hm
  have hsize' := h'.size_eq hm'
  have hle : stop ≤ m.size := isBoundary_le hm (hend.limit hm).fence.1
  refine ⟨fun j hj hlt => slots_of_shared hm hm' h.liesAt h'.liesAt hj (by omega), ?_⟩
  rcases hend with rfl | hcloses
  · exact .text rfl (by omega)
  · have hlt := lt_size_of_has hcloses
    rcases hend' with hend' | hcloses'
    · omega
    · exact .code (ends_of_closes hcloses) (ends_of_closes hcloses')

end Windows

namespace Member

variable {m : CodeMap} {t : Text} {i stop count count' : Nat}

theorem listFrom_of_separator (hi : i < stop)
    (hsep : m.has (fun s => s.isTrivia || s.isCodeChar ';') i) (count : Nat) :
    listFrom m stop count i = listFrom m stop count (i + 1) := by
  have hskip : skipSeparators m i stop = skipSeparators m (i + 1) stop := by
    have hcount : stop - i = stop - (i + 1) + 1 := by omega
    rw [skipSeparators, skipSeparators, hcount, skipWhile, if_pos hsep]
  cases count with
  | zero => rfl
  | succ count => rw [listFrom, listFrom, hskip]

/-- The number of members that are allowed for makes no difference, as long as it is enough. -/
theorem listFrom_of_enough (ht : m = ofText t) (hend : m.BodyEnd stop) (hi : i ≤ stop)
    (hb : m.isBoundary i) (hcount : stop < i + count) (hcount' : stop < i + count') :
    listFrom m stop count i = listFrom m stop count' i := by
  obtain ⟨regions, -, hlist⟩ := exists_tiling ht hend _ rfl hi hb
  rw [hlist _ hcount, hlist _ hcount']

end Member

namespace ClassField

variable {t t' : Text} {m m' : CodeMap} {ps ps' rs : Painted} {jsx : Bool}
  {d i stop count count' : Nat} {y : Char} {f : ClassField} {fs : List ClassField}

/-- A field is read alike in two texts, in the first of which a line feed ends it and in the second
one a semicolon. -/
theorem Stands.read_alike (ht : m = ofText t) (hm : m.Shows ps) (hm' : m'.Shows ps')
    (hf : f.Stands jsx) {us us' : Painted} (h : Slot.Rests ps i (f.bare jsx ++ ('\n', .code) :: us))
    (h' : Slot.LiesAt ps' (d + i) (f.bare jsx ++ (';', .code) :: us')) (hfollows : Follows us)
    (hend : m.BodyEnd stop) {stop' : Nat} (hstop : f.valueStop i < stop)
    (hstop' : f.valueStop (d + i) < stop') :
    ∃ member, Member.read m i stop = .ok (.member member (f.valueStop i + 1)) ∧
      Member.read m' (d + i) stop' = .ok (.member (member.shift d) (f.valueStop (d + i) + 1)) ∧
      Member.Alike m m' member (member.shift d) ∧ member.name = f.name := by
  have hmove : f.valueStart (d + i) = d + f.valueStart i ∧
      f.valueStop (d + i) = d + f.valueStop i := by
    unfold valueStop valueStart equals
    omega
  have hright := h.right
  have hright' := h'.right
  rw [← f.valueStop_eq jsx] at hright hright'
  have hfeed : m.isCodeChar (f.valueStop i) '\n' :=
    (isCodeChar_of_liesAt hm hright.liesAt '\n').trans rfl
  have hsemicolon : m'.isCodeChar (f.valueStop (d + i)) ';' :=
    (isCodeChar_of_liesAt hm' hright' ';').trans rfl
  have hwindow : Window m m' d i (f.valueStop i) := by
    rw [f.valueStop_eq jsx]
    exact window_of_shared hm hm' h.liesAt h' (by decide) (by decide)
  have hb := (hend.limit hm).fence.1
  have hcomplete : Member.isComplete m (f.valueStart i) stop (f.valueStop i) :=
    hf.isComplete_eq hm h.liesAt (hfollows.next hm hright (isBoundary_le hm hb))
  have hvalue : m.Whole (f.valueStart i) (f.valueStop i) := by
    rw [valueStop, ← width_trace f jsx]
    exact (whole_of_slice hm (slice_of_painted hm (value_liesAt h.liesAt).left)).1
  have hle := hvalue.le
  have hlt : i < f.valueStart i := by
    unfold valueStart equals
    omega
  obtain ⟨parts, hparts, -⟩ :=
    Member.functionValue?_yields ht hvalue (limit_of_codeChar hm hfeed rfl)
  obtain ⟨parts', hparts', hmoves, hbetween⟩ :=
    Member.functionValue?_mirrors hwindow hm hlt hle (le_refl _) parts hparts
  have hread := hf.read_eq hm h.liesAt hstop (.inr ⟨hfeed, hcomplete⟩) hparts
  rw [← hmove.1, ← hmove.2] at hparts'
  have hread' := hf.read_eq hm' h' hstop' (.inl hsemicolon) hparts'
  have hmember := (Member.read_yields ht ⟨by omega, h.isBoundary hm, hb⟩ hend).of_eq hread
  refine ⟨_, hread, ?_, Member.alike_shift hwindow hm hmember.1 (fun g hg => ?_) fun v hv => ?_, rfl⟩
  · rw [hread', hmoves, hmove.1, hmove.2]
    cases parts <;> rfl
  · cases parts with
    | none => cases hg
    | some parts =>
      cases hg
      exact hbetween _ rfl
  · cases parts with
    | none =>
      cases hv
      exact ⟨⟨hlt, hle⟩, by dsimp only; omega, le_refl _⟩
    | some parts => cases hv

theorem paintedLines_cons (jsx semicolon : Bool) (f : ClassField) (fs : List ClassField) :
    paintedLines jsx semicolon (f :: fs) =
      f.painted jsx ++ (lineEnd semicolon).asCode ++ paintedLines jsx semicolon fs := by
  rw [paintedLines, paintedLines, List.flatMap_cons]

theorem width_painted (f : ClassField) (jsx : Bool) :
    width (f.painted jsx) = f.indent.size + width (f.bare jsx) := by
  rw [painted_eq, Slot.width_append, Text.width_asCode]

theorem width_paintedLines_cons (jsx : Bool) (f : ClassField) (fs : List ClassField) :
    width (paintedLines jsx false (f :: fs)) =
      width (f.painted jsx) + 1 + width (paintedLines jsx false fs) := by
  have hfeed : (lineEnd false).size = 1 := rfl
  rw [paintedLines_cons, Slot.width_append, Slot.width_append, Text.width_asCode, hfeed]

/-- A field comes first among the members. -/
theorem Stands.listFrom_eq (hf : f.Stands jsx) (hm : m.Shows ps) {next : Nat} {member : Member}
    (h : Slot.LiesAt ps i (f.indent.asCode ++ (f.bare jsx ++ rs)))
    (hstop : i + f.indent.size < stop)
    (hread : Member.read m (i + f.indent.size) stop = .ok (.member member next)) (count : Nat) :
    Member.listFrom m stop (count + 1) i = (do
      let rest ← Member.listFrom m stop count next
      return { rest with members := member :: rest.members }) := by
  obtain ⟨a, w, hname, hstart⟩ := hf.exists_name
  have hindent := hf.isLayout.1
  have hskip : Member.skipSeparators m i stop = i + f.indent.size := by
    rw [bare, hname] at h
    rw [size_of_layout hindent] at hstop ⊢
    exact skipSeparators_of_liesAt hm f.indent h hindent (FunctionSource.not_separator hstart)
      (le_of_lt hstop)
  rw [Member.listFrom, hskip, if_neg (by omega), bind_of_eq_ok hread]

/-- A field is listed alike in both texts.  In the second one, what follows it is one byte further
on. -/
theorem Stands.listFrom_step (ht : m = ofText t) (hm : m.Shows ps) (hm' : m'.Shows ps')
    (hf : f.Stands jsx) {us us' : Painted}
    (h : Slot.Rests ps i (f.painted jsx ++ ('\n', .code) :: us))
    (h' : Slot.LiesAt ps' (d + i) (f.painted jsx ++ (';', .code) :: ('\n', .code) :: us'))
    (hfollows : Follows us) (hend : m.BodyEnd stop) {stop' : Nat}
    (hstop : i + width (f.painted jsx) < stop)
    (hstop' : d + (i + width (f.painted jsx)) + 1 < stop') :
    ∃ member, Member.Alike m m' member (member.shift d) ∧ member.name = f.name ∧
      (∀ count, Member.listFrom m stop (count + 1) i = (do
        let rest ← Member.listFrom m stop count (i + width (f.painted jsx) + 1)
        return { rest with members := member :: rest.members })) ∧
      ∀ count, Member.listFrom m' stop' (count + 1) (d + i) = (do
        let rest ← Member.listFrom m' stop' count (d + 1 + (i + width (f.painted jsx) + 1))
        return { rest with members := member.shift d :: rest.members }) := by
  have hwidth := f.width_painted jsx
  rw [painted_eq, List.append_assoc] at h h'
  have hbare := h.right
  have hbare' := h'.right
  rw [Text.width_asCode] at hbare hbare'
  rw [Nat.add_assoc] at hbare'
  have hvalue : f.valueStop (i + f.indent.size) = i + width (f.painted jsx) := by
    rw [f.valueStop_eq jsx, hwidth, Nat.add_assoc]
  have hvalue' : f.valueStop (d + (i + f.indent.size)) = d + (i + width (f.painted jsx)) := by
    rw [f.valueStop_eq jsx, hwidth, Nat.add_assoc, Nat.add_assoc]
  obtain ⟨member, hread, hread', halike, hname⟩ := hf.read_alike ht hm hm' hbare hbare' hfollows
    hend (hvalue ▸ hstop) (hvalue' ▸ Nat.lt_of_succ_lt hstop')
  rw [hvalue] at hread
  rw [hvalue', ← Nat.add_assoc d] at hread'
  refine ⟨member, halike, hname, hf.listFrom_eq hm h.liesAt (by omega) hread, fun count => ?_⟩
  -- The line feed behind the semicolon is passed over.
  have hfeed : m'.has (fun s => s.isTrivia || s.isCodeChar ';')
      (d + (i + width (f.painted jsx)) + 1) := by
    have hright := hbare'.right.tail
    rw [← f.valueStop_eq jsx, hvalue'] at hright
    exact has_of_liesAt hm' hright _
  have hnext : d + (i + width (f.painted jsx)) + 1 + 1 =
      d + 1 + (i + width (f.painted jsx) + 1) := by omega
  rw [hf.listFrom_eq hm' h' (by omega) hread', Member.listFrom_of_separator hstop' hfeed, hnext]

/-- What stands behind the line feed of a field is the next field, or what follows the fields. -/
theorem follows_lines (hfs : ∀ f ∈ fs, f.Stands jsx) (hrs : Follows rs) (semicolon : Bool) :
    Follows (paintedLines jsx semicolon fs ++ rs) := by
  cases fs with
  | nil => exact hrs
  | cons f fs =>
    have hf := hfs f (by simp)
    obtain ⟨a, w, hname, hstart⟩ := hf.exists_name
    refine ⟨f.indent, f.bare jsx ++ ((lineEnd semicolon).asCode ++
      (paintedLines jsx semicolon fs ++ rs)), ?_, hf.isLayout.1, ?_⟩
    · simp [paintedLines_cons, painted_eq]
    · rw [bare, hname]
      rintro p ⟨⟩
      exact ⟨rfl, .inl hstart⟩

/-- Behind the fields, the rest of the class body is read alike. -/
theorem listFrom_tail (ht : m = ofText t) (ht' : m' = ofText t') (hm : m.Shows ps)
    (hm' : m'.Shows ps') (h : Slot.Rests ps i ((y, .code) :: rs))
    (h' : Slot.Rests ps' (d + i) ((y, .code) :: rs)) (hy : y.utf8Size = 1) (hend : m.BodyEnd stop)
    (hend' : m'.BodyEnd (d + stop)) (hstop : i + 1 ≤ stop) (hcount : stop < i + 1 + count)
    (hcount' : stop < i + 1 + count') : Mirrors (Member.listFrom m stop count (i + 1))
      (Member.listFrom m' (d + stop) count' (d + (i + 1)))
      fun l l' => List.Forall₂ (Member.Alike m m') l.members l'.members := by
  have hwindow := window_of_tail hm hm' h h' hend hend'
  have hb : m.isBoundary (i + 1) := hy ▸ h.tail.isBoundary hm
  have hb' : m'.isBoundary (d + (i + 1)) := (hwindow.isBoundary_eq (by omega) hstop).trans hb
  have henough : Member.listFrom m' (d + stop) count' (d + (i + 1)) =
      Member.listFrom m' (d + stop) count (d + (i + 1)) :=
    Member.listFrom_of_enough ht' hend' (by omega) hb' (by omega) (by omega)
  rw [henough]
  intro l hl
  obtain ⟨l', hl', hmoves, hbetween⟩ :=
    Member.listFrom_mirrors hwindow hm hm' hend hend' (Nat.lt_succ_self _) hstop l hl
  refine ⟨l', hl', ?_⟩
  have hlies := (Member.listFrom_yields ht hend hb).of_eq hl
  dsimp only
  rw [hmoves.members, List.forall₂_map_right_iff, List.forall₂_same]
  intro member hmember
  have hin := hbetween member hmember
  exact Member.alike_shift hwindow hm (hlies member hmember) hin.parts hin.value

/-- The members of both class bodies are alike, and those of the fields come first. -/
theorem listFrom_lines (ht : m = ofText t) (ht' : m' = ofText t') (hm : m.Shows ps)
    (hm' : m'.Shows ps') (hfs : ∀ f ∈ fs, f.Stands jsx) (hrs : Follows rs)
    (h : Slot.Rests ps i ((y, .code) :: (paintedLines jsx false fs ++ rs)))
    (h' : Slot.Rests ps' (d + i) ((y, .code) :: (paintedLines jsx true fs ++ rs)))
    (hy : y.utf8Size = 1) (hend : m.BodyEnd stop) (hend' : m'.BodyEnd (d + fs.length + stop))
    (hstop : i + 1 + width (paintedLines jsx false fs) ≤ stop) (hcount : stop < i + 1 + count)
    (hcount' : fs.length + stop < i + 1 + count') : Mirrors (Member.listFrom m stop count (i + 1))
      (Member.listFrom m' (d + fs.length + stop) count' (d + (i + 1)))
      fun l l' => List.Forall₂ (Member.Alike m m') l.members l'.members ∧
        fs.map ClassField.name <+: l.members.map Member.name := by
  induction fs generalizing i d y count count' with
  | nil =>
    intro l hl
    obtain ⟨l', hl', halike⟩ := listFrom_tail ht ht' hm hm' h h' hy hend hend'
      (by simpa [paintedLines] using hstop) hcount (by simpa using hcount') l hl
    exact ⟨l', hl', halike, List.nil_prefix⟩
  | cons f fs ih =>
    have hf := hfs f (by simp)
    have hrest : ∀ g ∈ fs, g.Stands jsx := fun g hg => hfs g (by simp [hg])
    have hwidth := width_paintedLines_cons jsx f fs
    have hlength : d + (f :: fs).length + stop = d + 1 + fs.length + stop := by
      rw [List.length_cons]
      omega
    rw [hlength] at hend' ⊢
    rw [paintedLines_cons] at h h'
    have hline : Slot.Rests ps (i + 1) (f.painted jsx ++ ('\n', .code) ::
        (paintedLines jsx false fs ++ rs)) := by
      simpa [lineEnd, hy] using h.tail
    have hline' : Slot.Rests ps' (d + (i + 1)) (f.painted jsx ++ (';', .code) ::
        ('\n', .code) :: (paintedLines jsx true fs ++ rs)) := by
      simpa [lineEnd, hy, Nat.add_assoc] using h'.tail
    have hnext : Slot.Rests ps' (d + 1 + (i + 1 + width (f.painted jsx)))
        (('\n', .code) :: (paintedLines jsx true fs ++ rs)) := by
      rw [Nat.add_right_comm, ← Nat.add_assoc d]
      exact hline'.right.tail
    obtain ⟨member, halike, hname, hlist, hlist'⟩ := hf.listFrom_step ht hm hm' hline
      hline'.liesAt (follows_lines hrest hrs false) hend (show _ < stop by omega)
      (show _ < d + 1 + fs.length + stop by omega)
    obtain ⟨count, rfl⟩ : ∃ n, count = n + 1 := ⟨count - 1, by omega⟩
    obtain ⟨count', rfl⟩ : ∃ n, count' = n + 1 := ⟨count' - 1, by omega⟩
    have hfields : Mirrors (Member.listFrom m stop count _) (Member.listFrom m' _ count' _) _ :=
      ih hrest hline.right hnext rfl hend' (by omega) (by omega) (by omega)
    rw [hlist, hlist']
    refine hfields.bind fun l l' h => .ok ⟨.cons halike h.1, ?_⟩
    rw [List.map_cons, List.map_cons, hname]
    exact List.cons_prefix_cons.mpr ⟨rfl, h.2⟩

theorem bodyEnd_bodyStop (m : CodeMap) (o : Nat) : m.BodyEnd (m.bodyStop o) := by
  rw [bodyStop]
  cases hmatch : m.matching o with
  | none => exact .inl rfl
  | some c => exact .inr (matching_spec hmatch).2.1

/-- Behind a brace, the bracket that closes it is looked for behind what is balanced. -/
theorem matching_of_balanced {qs : Painted} (hm : m.Shows ps)
    (h : Slot.Rests ps i (('\x7b', .code) :: (qs ++ rs))) (hqs : Balanced qs) :
    m.matching i = m.matchFrom (width rs) 1 (i + 1 + width qs) := by
  have hopens : m.has Slot.opens i := has_of_liesAt hm h.liesAt Slot.opens
  have hwalks : Walks m (i + 1) (i + 1 + width qs) 0 0 := walks_of_liesAt hm h.tail.liesAt.left hqs
  have hsize : m.size - i = i + 1 + width qs - (i + 1) + width rs + 1 := by
    have hone : '\x7b'.utf8Size = 1 := rfl
    rw [h.size_eq hm, Slot.width_cons, Slot.width_append, hone]
    omega
  rw [matching, if_pos hopens, hsize, matchFrom, if_pos hopens, matchFrom_of_walks hwalks]

theorem Stands.balanced_painted (hf : f.Stands jsx) : Balanced (f.painted jsx) := by
  refine Balanced.append (balanced_of_bracketFree (List.all_eq_true.mpr fun c hc => ?_) .code)
    hf.balanced
  have hlayout : ∀ c, Character.isLayout c → isBracketFree c := fun c hc =>
    of_isLayout hc (by decide)
  obtain ⟨hindent, hbefore, hafter⟩ := hf.isLayout
  simp only [head, List.mem_append] at hc
  rcases hc with (((hc | hc) | hc) | hc) | hc
  · exact hlayout c (List.all_eq_true.mp hindent c hc)
  · exact isBracketFree_of_isIdentPart (Text.isIdentPart_of_isIdentifier hf.isIdentifier c hc)
  · exact hlayout c (List.all_eq_true.mp hbefore c hc)
  · obtain rfl : c = '=' := by simpa using hc
    rfl
  · exact hlayout c (List.all_eq_true.mp hafter c hc)

theorem balanced_lines (hfs : ∀ f ∈ fs, f.Stands jsx) (semicolon : Bool) :
    Balanced (paintedLines jsx semicolon fs) := by
  induction fs with
  | nil => rfl
  | cons f fs ih =>
    have hend : Balanced (lineEnd semicolon).asCode := by cases semicolon <;> rfl
    exact ((hfs f (by simp)).balanced_painted.append hend).append
      (ih fun g hg => hfs g (by simp [hg]))

theorem width_lines_semicolon (jsx : Bool) (fs : List ClassField) :
    width (paintedLines jsx true fs) = fs.length + width (paintedLines jsx false fs) := by
  induction fs with
  | nil => rfl
  | cons f fs ih =>
    have hend : (lineEnd true).size = 2 := rfl
    rw [width_paintedLines_cons, paintedLines_cons, Slot.width_append, Slot.width_append,
      Text.width_asCode, List.length_cons]
    omega

/-- With semicolons, the class body ends as many bytes further on. -/
theorem bodyStop_lines (hm : m.Shows ps) (hm' : m'.Shows ps') (hfs : ∀ f ∈ fs, f.Stands jsx)
    (h : Slot.Rests ps i (('\x7b', .code) :: (paintedLines jsx false fs ++ rs)))
    (h' : Slot.Rests ps' i (('\x7b', .code) :: (paintedLines jsx true fs ++ rs))) :
    m'.bodyStop i = fs.length + m.bodyStop i ∧
      i + 1 + width (paintedLines jsx false fs) ≤ m.bodyStop i := by
  have hwidth := width_lines_semicolon jsx fs
  have hrest : Slot.Rests ps (i + 1 + width (paintedLines jsx false fs)) rs := h.tail.right
  have hrest' : Slot.Rests ps' (fs.length + (i + 1 + width (paintedLines jsx false fs))) rs := by
    rw [Nat.add_left_comm, ← hwidth]
    exact h'.tail.right
  have hsize := hrest.size_eq hm
  have hsize' : m'.size = fs.length + m.size := by
    rw [hrest'.size_eq hm', hsize, Nat.add_assoc]
  have hwindow := window_of_tail hm hm' hrest hrest' (.inl rfl) (.inl hsize'.symm)
  have hmatch := matching_of_balanced hm h (balanced_lines hfs false)
  have hmatch' := matching_of_balanced hm' h' (balanced_lines hfs true)
  rw [hwidth, Nat.add_left_comm, hwindow.matchFrom_eq (le_refl _) (by omega), ← hmatch] at hmatch'
  rw [bodyStop, bodyStop, hmatch']
  cases hclose : m.matching i with
  | none => exact ⟨hsize', by rw [Option.getD_none]; omega⟩
  | some c =>
    rw [hclose] at hmatch
    exact ⟨rfl, (matchFrom_spec hmatch.symm).1⟩

/-- The members of a class body are the same, with names, kinds and texts, whether a semicolon and a
line feed or a line feed alone ends each of the fields with which it begins.  These come first among
them. -/
theorem textsAt_semicolon {start rest : Text} (hstart : (run jsx .start start).Idle)
    (hfs : ∀ f ∈ fs, f.Stands jsx) (hrest : Continues rest)
    (hmarkup : withMarkup (classText start false fs rest) = jsx)
    (hmarkup' : jsx = false → withMarkup (classText start true fs rest) = false) :
    ∃ texts, Member.textsAt (classText start false fs rest) start.size = .ok texts ∧
      Member.textsAt (classText start true fs rest) start.size = .ok texts ∧
      fs.map ClassField.name <+: texts.map MemberText.name := by
  obtain ⟨rs, hrs, hkinds⟩ := kinds_classText hstart hfs hrest hmarkup hmarkup'
  have hm := shows (m := ofText (classText start false fs rest)) rfl
  have hm' := shows (m := ofText (classText start true fs rest)) rfl
  rw [hkinds, List.append_assoc, List.cons_append] at hm hm'
  have hplace : width (trace jsx .start start) = start.size := by rw [width, trace_chars]
  have hbody : ∀ qs, Slot.Rests (trace jsx .start start ++ ('\x7b', .code) :: qs) start.size
      (('\x7b', .code) :: qs) := fun qs => ⟨_, rfl, hplace⟩
  obtain ⟨hstop, hle⟩ := bodyStop_lines hm hm' hfs (hbody _) (hbody _)
  have hend := bodyEnd_bodyStop (ofText (classText start false fs rest)) start.size
  have hend' := bodyEnd_bodyStop (ofText (classText start true fs rest)) start.size
  have hsize := isBoundary_le hm (hend.limit hm).fence.1
  have hsize' := isBoundary_le hm' (hend'.limit hm').fence.1
  rw [hstop] at hend' hsize'
  have hb : (ofText (classText start false fs rest)).isBoundary (start.size + 1) = true :=
    (hbody _).tail.isBoundary hm
  obtain ⟨listing, hlisting, -⟩ := Member.listFrom_yields rfl hend hb
  have hlines := listFrom_lines rfl rfl hm hm' hfs hrs (hbody _)
    (show Slot.Rests _ (0 + start.size) _ from (Nat.zero_add _).symm ▸ hbody _) rfl hend
    (by rwa [Nat.zero_add]) hle
    (show _ < _ + 1 + ((ofText (classText start false fs rest)).size + 1) by omega)
    (show _ < _ + 1 + ((ofText (classText start true fs rest)).size + 1) by omega)
  rw [Nat.zero_add, Nat.zero_add] at hlines
  obtain ⟨listing', hlisting', halike, hnames⟩ := hlines listing hlisting
  obtain ⟨texts, htexts, htexts', hsame⟩ := Member.texts_of_alike halike
  refine ⟨texts, ?_, ?_, hsame ▸ hnames⟩
  · rw [Member.textsAt, Member.list, bind_of_eq_ok hlisting, htexts]
  · rw [Member.textsAt, Member.list, hstop, bind_of_eq_ok hlisting', htexts']

/-- Fields with an object literal, a function that gives markup, and a template literal. -/
def variedFields : List ClassField :=
  [⟨"\n  ", "state", " ", " ", "\x7b\n    open: 1\n  \x7d"⟩,
    ⟨"  ", "show", " ", " ", "async (e) => <b>\x7bthis.f('`')\x7d</b>"⟩,
    ⟨"", "label", "", "", "`a;\n$\x7bx\x7d`"⟩]

/-- The rest of their class. -/
def variedRest : Text := "\n  render() \x7b return 0 \x7d\n\x7d\n"

/-- The line feeds and the semicolon inside the values end no field. -/
theorem textsAt_semicolon_varied :
    ∃ texts, Member.textsAt (classText "class A extends Component" false variedFields variedRest) 25 =
        .ok texts ∧
      Member.textsAt (classText "class A extends Component" true variedFields variedRest) 25 =
        .ok texts ∧
      variedFields.map ClassField.name <+: texts.map MemberText.name :=
  textsAt_semicolon (by decide) (by decide)
    ⟨"\n  ", "render() \x7b return 0 \x7d\n\x7d\n", by decide, by decide, by decide⟩
    (show _ = true by decide) nofun

/-- Two fields with a backtick in their markup. -/
def backtickFields : List ClassField :=
  [⟨"\n", "a", "", "", "()=><b>`</b>"⟩, ⟨"", "c", "", "", "()=><b>`</b>"⟩]

/-- The rest of their class, and behind it markup that is never closed. -/
def backtickRest : Text := "render()\x7breturn 0\x7d\x7d\nx=<i"

/-- The members of their class, with what stands between the two backticks. -/
def backtickTexts (between : Text) : List MemberText :=
  [⟨"a", false, .function false [] false ("<b>`</b>" ++ between ++ "c=()=><b>`</b>")⟩,
    ⟨"render", false, .function false [] true "return 0"⟩]

/-- Where markup is left open, the text is scanned without it.  The two backticks are then the ends of
a template literal, and what ends the first line belongs to its text. -/
theorem fallback_semicolon : (run true .start "class A extends Component").Idle ∧
    (∀ f ∈ backtickFields, f.Stands true) ∧ Continues backtickRest ∧
    Member.textsAt (classText "class A extends Component" false backtickFields backtickRest) 25 =
      .ok (backtickTexts "\n") ∧
    Member.textsAt (classText "class A extends Component" true backtickFields backtickRest) 25 =
      .ok (backtickTexts ";\n") := by
  refine ⟨by decide, by decide, ⟨[], backtickRest, rfl, rfl, by decide⟩, ?_, ?_⟩
  · decide +kernel
  · decide +kernel

end ClassField

end Declass
