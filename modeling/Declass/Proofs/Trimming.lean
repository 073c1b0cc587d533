import Declass.Proofs.Words
import Declass.Snippet
import Mathlib.Data.List.TakeWhile

/-!
# Trimming

**Input.** A text with White_Space at its ends.

**Results.**
* `exists_trimmed`: every text is White_Space around its trimmed text.
* `IsTrimmed.trimmedSpan` and `trimmedSpan_lies`: where the trimmed text lies.
* `trim_append` and `trimmedSpan_append`: more White_Space at the ends changes neither the trimmed
  text nor where it lies.
-/

namespace Declass

namespace Text

variable {t u lead trail : Text}

theorem isBlank_append (u v : Text) : isBlank (u ++ v) = (u.isBlank && v.isBlank) := List.all_append

theorem isBlank_of_mem {c : Char} (hc : c ∈ u) (hspace : Character.isSpace c = false) :
    u.isBlank = false := by
  by_contra hblank
  rw [Bool.not_eq_false, isBlank, List.all_eq_true] at hblank
  rw [hblank c hc] at hspace
  cases hspace

theorem trimStart_eq (t : Text) : ∃ lead, t = lead ++ t.trimStart ∧ lead.all Character.isSpace :=
  ⟨t.takeWhile Character.isSpace, List.takeWhile_append_dropWhile.symm, List.all_takeWhile⟩

theorem trimEnd_eq (t : Text) : ∃ trail, t = t.trimEnd ++ trail := by
  obtain ⟨lead, ht, -⟩ := trimStart_eq t.reverse
  refine ⟨lead.reverse, ?_⟩
  have := congrArg List.reverse ht
  simpa [trimEnd, trimStart] using this

theorem trim_of_isBlank (h : t.isBlank) : t.trim = [] := by
  have hnil : t.trimStart = [] := List.dropWhile_eq_nil_iff.mpr (List.all_eq_true.mp h)
  rw [trim, hnil]
  rfl

theorem trimmedSpan_of_isBlank {u : Text} (i : Nat) (h : u.isBlank) :
    (u.trimmedSpan i).stop ≤ (u.trimmedSpan i).start := by
  have hnil : u.trimEnd = [] := by
    simpa [trimEnd, List.dropWhile_eq_nil_iff, isBlank] using h
  simp [trimmedSpan, hnil]

/-- The text neither starts nor ends with White_Space. -/
structure IsTrimmed (u : Text) : Prop where
  head : ∀ c, u.head? = some c → Character.isSpace c = false
  last : ∀ c, u.getLast? = some c → Character.isSpace c = false

instance : Decidable u.IsTrimmed :=
  decidable_of_iff ((∀ c ∈ u.head?, Character.isSpace c = false) ∧
    ∀ c ∈ u.getLast?, Character.isSpace c = false) ⟨fun h => ⟨h.1, h.2⟩, fun h => ⟨h.1, h.2⟩⟩

theorem isTrimmed_of_isIdentifier (h : u.isIdentifier) : u.IsTrimmed := by
  have hident := isIdentPart_of_isIdentifier h
  exact ⟨fun c hc => isSpace_of_isIdentPart (hident c (List.mem_of_head? hc)),
    fun c hc => isSpace_of_isIdentPart (hident c (List.mem_of_getLast? hc))⟩

namespace IsTrimmed

variable (h : u.IsTrimmed) (hne : u ≠ []) (hlead : lead.isBlank) (htrail : trail.isBlank)
include h hne

theorem trimStart_append (hlead : lead.isBlank) (v : Text) :
    trimStart (lead ++ (u ++ v)) = u ++ v := by
  obtain ⟨c, rest, rfl⟩ := List.exists_cons_of_ne_nil hne
  have hhead : ¬ Character.isSpace c := by simp [h.head c rfl]
  rw [trimStart, List.dropWhile_append_of_pos (List.all_eq_true.mp hlead), List.cons_append,
    List.dropWhile_cons_of_neg hhead]

theorem trimEnd_append (htrail : trail.isBlank) (v : Text) :
    trimEnd (v ++ u ++ trail) = v ++ u := by
  have hreverse : IsTrimmed u.reverse :=
    ⟨fun c hc => h.last c (by simpa using hc), fun c hc => h.head c (by simpa using hc)⟩
  have hblank : isBlank trail.reverse := by simpa [isBlank] using htrail
  have hstart := hreverse.trimStart_append (by simpa using hne) hblank v.reverse
  rw [trimStart] at hstart
  rw [trimEnd, List.reverse_append, List.reverse_append, hstart, List.reverse_append,
    List.reverse_reverse, List.reverse_reverse]

include hlead htrail in
/-- Text with White_Space around it lies, once trimmed, behind the White_Space. -/
theorem trimmedSpan (i : Nat) :
    (lead ++ u ++ trail).trimmedSpan i = ⟨i + lead.size, i + lead.size + u.size⟩ := by
  have hstart := h.trimStart_append hne hlead trail
  rw [← List.append_assoc] at hstart
  rw [Text.trimmedSpan, h.trimEnd_append hne htrail, hstart]
  simp only [size_append, Span.mk.injEq]
  omega

include hlead htrail in
theorem trim_append : Text.trim (lead ++ u ++ trail) = u := by
  have hend := h.trimEnd_append hne htrail []
  rw [List.nil_append] at hend
  rw [Text.trim, List.append_assoc, h.trimStart_append hne hlead, hend]

theorem trim : u.trim = u := by
  have hnil : isBlank [] := rfl
  have htrim := h.trim_append hne hnil hnil
  rwa [List.append_nil] at htrim

end IsTrimmed

theorem exists_trimmed (t : Text) : ∃ lead trail, t = lead ++ t.trim ++ trail ∧
    lead.isBlank ∧ trail.isBlank ∧ t.trim.IsTrimmed := by
  obtain ⟨lead, ht, hlead⟩ := trimStart_eq t
  obtain ⟨trail, hr, htrail⟩ := trimStart_eq t.trimStart.reverse
  have hcore : t.trimStart = t.trim ++ trail.reverse := by
    have := congrArg List.reverse hr
    simpa [trim, trimEnd, trimStart] using this
  refine ⟨lead, trail.reverse, ?_, hlead, by simpa [isBlank] using htrail, ?_, ?_⟩
  · rw [List.append_assoc, ← hcore, ← ht]
  · intro c hc
    have hnot := List.head?_dropWhile_not Character.isSpace t
    rw [← trimStart, hcore, List.head?_append, hc] at hnot
    simpa using hnot
  · intro c hc
    have hnot := List.head?_dropWhile_not Character.isSpace t.trimStart.reverse
    rw [trim, trimEnd, List.getLast?_reverse] at hc
    rw [hc] at hnot
    simpa using hnot

theorem trim_ne_nil (h : t.isBlank = false) : t.trim ≠ [] := by
  obtain ⟨lead, trail, ht, hlead, htrail, -⟩ := exists_trimmed t
  intro hnil
  rw [ht, hnil, isBlank_append, isBlank_append, hlead, htrail] at h
  cases h

theorem mem_trim {c : Char} (hc : c ∈ t) (hspace : Character.isSpace c = false) : c ∈ t.trim := by
  obtain ⟨lead, trail, ht, hlead, htrail, -⟩ := exists_trimmed t
  rw [ht, List.mem_append, List.mem_append] at hc
  rcases hc with (hc | hc) | hc
  · rw [isBlank_of_mem hc hspace] at hlead
    cases hlead
  · exact hc
  · rw [isBlank_of_mem hc hspace] at htrail
    cases htrail

theorem exists_trimmed_append (u : Text) (hlead : lead.isBlank)
    (htrail : trail.isBlank) : ∃ l r, u = l ++ u.trim ++ r ∧
      lead ++ u ++ trail = (lead ++ l) ++ u.trim ++ (r ++ trail) ∧ l.isBlank ∧
      r.isBlank ∧ isBlank (lead ++ l) ∧ isBlank (r ++ trail) ∧ u.trim.IsTrimmed := by
  obtain ⟨l, r, hu, hl, hr, htrimmed⟩ := exists_trimmed u
  refine ⟨l, r, hu, ?_, hl, hr, by simp [isBlank_append, hlead, hl],
    by simp [isBlank_append, hr, htrail], htrimmed⟩
  conv_lhs => rw [hu]
  simp

theorem trim_append (u : Text) (hlead : lead.isBlank) (htrail : trail.isBlank) :
    trim (lead ++ u ++ trail) = u.trim := by
  cases hu : u.isBlank with
  | true =>
    have hall : isBlank (lead ++ u ++ trail) := by simp [isBlank_append, hlead, hu, htrail]
    rw [trim_of_isBlank hall, trim_of_isBlank hu]
  | false =>
    obtain ⟨l, r, -, hall, -, -, hlead', htrail', htrimmed⟩ := exists_trimmed_append u hlead htrail
    rw [hall]
    exact htrimmed.trim_append (trim_ne_nil hu) hlead' htrail'

/-- White_Space at the ends does not change where the trimmed text lies. -/
theorem trimmedSpan_append (hu : u.isBlank = false) (hlead : lead.isBlank)
    (htrail : trail.isBlank) (i : Nat) :
    (lead ++ u ++ trail).trimmedSpan i = u.trimmedSpan (i + lead.size) := by
  obtain ⟨l, r, hsplit, hall, hl, hr, hlead', htrail', htrimmed⟩ :=
    exists_trimmed_append u hlead htrail
  have hspan := htrimmed.trimmedSpan (trim_ne_nil hu) hl hr (i + lead.size)
  rw [← hsplit] at hspan
  rw [hall, hspan, htrimmed.trimmedSpan (trim_ne_nil hu) hlead' htrail', size_append]
  simp only [Nat.add_assoc]

/-- Text that is not blank lies, once trimmed, where its trimmed range says. -/
theorem trimmedSpan_lies {t u : Text} {i : Nat} (h : LiesAt t i u) (hb : u.isBlank = false) :
    LiesAt t (u.trimmedSpan i).start u.trim ∧
      (u.trimmedSpan i).stop = (u.trimmedSpan i).start + u.trim.size ∧ u.trim ≠ [] := by
  obtain ⟨pre, post, ht, rfl⟩ := h
  obtain ⟨lead, trail, hu, hlead, htrail, htrimmed⟩ := exists_trimmed u
  have hne := trim_ne_nil hb
  have hspan := htrimmed.trimmedSpan hne hlead htrail pre.size
  rw [← hu] at hspan
  rw [hspan]
  refine ⟨⟨pre ++ lead, trail ++ post, ?_, size_append _ _⟩, rfl, hne⟩
  calc t = pre ++ (lead ++ u.trim ++ trail) ++ post := by rw [ht, ← hu]
    _ = pre ++ lead ++ u.trim ++ (trail ++ post) := by simp

/-- Text that is not blank has a trimmed range with something in it. -/
theorem trimmedSpan_lt (hu : u.isBlank = false) (i : Nat) :
    (u.trimmedSpan i).start < (u.trimmedSpan i).stop := by
  obtain ⟨lead, trail, hsplit, hlead, htrail, htrimmed⟩ := exists_trimmed u
  have hne := trim_ne_nil hu
  have hspan := htrimmed.trimmedSpan hne hlead htrail i
  rw [← hsplit] at hspan
  obtain ⟨c, rest, hcore⟩ := List.exists_cons_of_ne_nil hne
  have hpos := c.utf8Size_pos
  rw [hspan, hcore, size_cons]
  dsimp only
  omega

theorem trimmedSpan_le (t : Text) (i : Nat) :
    (t.trimmedSpan i).start ≤ i + t.size ∧ (t.trimmedSpan i).stop ≤ i + t.size := by
  obtain ⟨trail, ht⟩ := t.trimEnd_eq
  have hsize := congrArg size ht
  rw [size_append] at hsize
  constructor <;> dsimp only [trimmedSpan] <;> omega

theorem trim_infix (t : Text) : t.trim <:+: t := by
  obtain ⟨lead, trail, ht, -⟩ := exists_trimmed t
  exact ⟨lead, trail, ht.symm⟩

end Text

end Declass
