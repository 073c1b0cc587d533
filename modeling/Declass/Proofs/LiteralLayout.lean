import Declass.Proofs.RelaidScans

/-!
# Literals of a text with a new layout

**Input.** A text, given another layout line by line: the bodies of functions are indented anew, and
the lines of a template are put under each other.

**Algorithm.** Neither looks at literals.  The filling between two lines is replaced wherever it
stands, and White_Space at the end is dropped.

**Results.** Literals are kept under every indentation if and only if none has a line feed or ends
the text with White_Space.  A template keeps its literals if and only if those with line feeds are
already laid out like it.
-/

namespace Declass

open Character (isSpace isLayout)

/-- The characters of literals, one after the other. -/
def Scan.literals (ps : List (Char × Kind)) : Text := (ps.filter (·.2 == .literal)).map Prod.fst

/-- The characters of the literals of a map, one after the other. -/
def CodeMap.literals (m : CodeMap) : Text :=
  (m.slots.toList.filter (·.kind == .literal)).filterMap Slot.char?

namespace Scan

variable {p : Char × Kind} {ps qs : Painted}

theorem literals_append (ps qs : Painted) : literals (ps ++ qs) = literals ps ++ literals qs := by
  rw [literals, List.filter_append, List.map_append, literals, literals]

theorem literals_cons (p : Char × Kind) (ps : Painted) :
    literals (p :: ps) = literals [p] ++ literals ps := literals_append [p] ps

theorem literals_eq_nil_iff : literals ps = [] ↔ ∀ p ∈ ps, p.2 ≠ .literal := by
  simp only [literals, List.map_eq_nil_iff, List.filter_eq_nil_iff, beq_iff_eq]

theorem literals_of_none (h : ∀ p ∈ ps, p.2 ≠ .literal) : literals ps = [] :=
  literals_eq_nil_iff.mpr h

theorem literals_of_all (h : ∀ p ∈ ps, p.2 = .literal) : literals ps = ps.map Prod.fst := by
  rw [literals, List.filter_eq_self.mpr fun p hp => beq_iff_eq.mpr (h p hp)]

theorem literals_map (w : Text) : literals (w.map (·, .literal)) = w := by
  rw [literals_of_all (by simp), List.map_map, Function.comp_def, List.map_id']

theorem length_literals_le (ps : Painted) : (literals ps).length ≤ ps.length := by
  rw [literals, List.length_map]
  exact List.length_filter_le _ ps

/-- The bytes of a character have its kind, and the first of them has the character. -/
theorem literals_ofChar (p : Char × Kind) :
    ((Slot.ofChar p.2 p.1).filter (·.kind == .literal)).filterMap Slot.char? = literals [p] := by
  obtain ⟨c, k⟩ := p
  by_cases hk : k = .literal <;> simp [Slot.ofChar, literals, hk]

/-- The literals of a map are those of the characters that it shows. -/
theorem literals_of_shows {m : CodeMap} (h : m.Shows ps) : m.literals = literals ps := by
  rw [CodeMap.literals, h]
  clear h
  induction ps with
  | nil => rfl
  | cons p ps ih =>
    rw [Slot.paint_cons, List.filter_append, List.filterMap_append, ih, literals_ofChar,
      ← literals_cons]

end Scan

namespace Layout

open Scan

section Conditions

/-- The text does not end with White_Space of a literal. -/
def LastKept (ps : List (Char × Kind)) : Prop :=
  ∀ p ∈ ps.getLast?, p.2 = .literal → isSpace p.1 = false

instance (ps : List (Char × Kind)) : Decidable (LastKept ps) :=
  inferInstanceAs (Decidable (∀ p ∈ ps.getLast?, p.2 = .literal → isSpace p.1 = false))

/-- No literal has a line feed or ends the text with White_Space. -/
@[mk_iff] structure WithinLines (ps : List (Char × Kind)) : Prop where
  feeds : ('\n', Kind.literal) ∉ ps
  last : LastKept ps

instance (ps : List (Char × Kind)) : Decidable (WithinLines ps) :=
  decidable_of_iff' _ (withinLines_iff ps)

/-- The lines of literals are laid out like those of a template: a line feed comes right behind a
line, exactly the indentation of a template comes behind it, and no White_Space comes last. -/
@[mk_iff] structure TemplateLines (ps : List (Char × Kind)) : Prop where
  trails : ps.IsChain fun p q => q = ('\n', .literal) → isSpace p.1 = false
  indents : ∀ r ∈ ps.tails, r.head? = some ('\n', .literal) →
    (r.tail.takeWhile (isSpace ·.1)).map Prod.fst = templateIndent
  last : LastKept ps

instance (ps : List (Char × Kind)) : Decidable (TemplateLines ps) :=
  decidable_of_iff' _ (templateLines_iff ps)

variable {p : Char × Kind} {ps : Painted}

theorem lastKept_cons (hlast : ps = [] → p.2 = .literal → isSpace p.1 = false) :
    LastKept (p :: ps) ↔ LastKept ps := by
  cases ps with
  | nil => simpa [LastKept] using hlast rfl
  | cons q ps => rw [LastKept, List.getLast?_cons_cons, LastKept]

/-- A character other than a line feed does not decide whether literals are within lines. -/
theorem withinLines_cons (hp : p ≠ ('\n', .literal))
    (hlast : ps = [] → p.2 = .literal → isSpace p.1 = false) :
    WithinLines (p :: ps) ↔ WithinLines ps := by
  have hmem : ('\n', Kind.literal) ∉ p :: ps ↔ ('\n', Kind.literal) ∉ ps := by
    simp [Ne.symm hp]
  exact ⟨fun h => ⟨hmem.mp h.feeds, (lastKept_cons hlast).mp h.last⟩,
    fun h => ⟨hmem.mpr h.feeds, (lastKept_cons hlast).mpr h.last⟩⟩

/-- Nor whether they are laid out like a template, unless it is White_Space in front of one. -/
theorem templateLines_cons (hp : p ≠ ('\n', .literal))
    (hnext : isSpace p.1 → ps.head? ≠ some ('\n', .literal))
    (hlast : ps = [] → p.2 = .literal → isSpace p.1 = false) :
    TemplateLines (p :: ps) ↔ TemplateLines ps := by
  constructor
  · rintro ⟨htrails, hindents, hend⟩
    exact ⟨htrails.tail, fun r hr => hindents r (List.mem_cons_of_mem _ hr),
      (lastKept_cons hlast).mp hend⟩
  · rintro ⟨htrails, hindents, hend⟩
    refine ⟨List.isChain_cons.mpr ⟨fun q hq heq => ?_, htrails⟩, fun r hr hhead => ?_,
      (lastKept_cons hlast).mpr hend⟩
    · cases hspace : isSpace p.1 with
      | false => rfl
      | true => exact absurd (heq ▸ hq) (hnext hspace)
    · rcases List.mem_cons.mp (List.tails_cons .. ▸ hr) with rfl | hr
      · exact absurd (Option.some.inj hhead) hp
      · exact hindents r hr hhead

theorem withinLines_of_literals (h : literals ps = []) : WithinLines ps := by
  rw [literals_eq_nil_iff] at h
  exact ⟨fun hmem => h _ hmem rfl, fun p hp hkind => absurd hkind (h p (List.mem_of_getLast? hp))⟩

theorem WithinLines.templateLines (h : WithinLines ps) : TemplateLines ps := by
  induction ps with
  | nil => exact ⟨.nil, by simp, h.last⟩
  | cons p ps ih =>
    have hp : p ≠ ('\n', .literal) := fun heq => h.feeds (heq ▸ List.mem_cons_self)
    have hlast : ps = [] → p.2 = .literal → isSpace p.1 = false := by
      rintro rfl
      exact h.last p rfl
    refine (templateLines_cons hp (fun _ hhead => ?_) hlast).mpr
      (ih ((withinLines_cons hp hlast).mp h))
    exact h.feeds (List.mem_cons_of_mem p (List.mem_of_mem_head? hhead))

variable {ws : Painted} (hws : ('\n', Kind.literal) ∉ ws)
  (hps : ∃ c k r, ps = (c, k) :: r ∧ isSpace c = false)

include hws hps

theorem head_append_ne : (ws ++ ps).head? ≠ some ('\n', .literal) := by
  obtain ⟨c, k, r, rfl, hc⟩ := hps
  cases ws with
  | nil =>
    intro hhead
    cases hhead
    exact absurd hc (by decide)
  | cons w ws => exact fun hhead => hws (Option.some.inj hhead ▸ List.mem_cons_self)

theorem withinLines_append : WithinLines (ws ++ ps) ↔ WithinLines ps := by
  obtain ⟨c, k, r, rfl, hc⟩ := hps
  induction ws with
  | nil => rfl
  | cons w ws ih =>
    rw [List.mem_cons, not_or] at hws
    rw [List.cons_append, withinLines_cons (Ne.symm hws.1) (by simp), ih hws.2]

theorem templateLines_append : TemplateLines (ws ++ ps) ↔ TemplateLines ps := by
  induction ws with
  | nil => rfl
  | cons w ws ih =>
    rw [List.mem_cons, not_or] at hws
    have hne : ws ++ ps ≠ [] := by
      obtain ⟨c, k, r, rfl, -⟩ := hps
      simp
    rw [List.cons_append, templateLines_cons (Ne.symm hws.1)
      (fun _ => head_append_ne hws.2 hps) (fun hnil => absurd hnil hne), ih hws.2]

end Conditions

section Keeping

variable {P : Text → Prop} {p : Char × Kind} {ps qs : Painted} {n : Nat}

theorem Relayed.eq_nil (h : Relayed P ps qs) (hps : ps = []) : qs = [] := by
  cases h with
  | stop => rfl
  | char => cases hps
  | gap _ _ hhead =>
    obtain ⟨_, _, _, rfl, -⟩ := hhead
    simp at hps
  | literal => simp at hps

/-- Where the second text goes on with no line feed, the first does not with one in a literal. -/
theorem Relayed.head_ne (h : Relayed P ps qs) (hqs : ∃ q r, qs = q :: r ∧ q.1 ≠ '\n') :
    ps.head? ≠ some ('\n', .literal) := by
  obtain ⟨q, r, hqs, hq⟩ := hqs
  cases h with
  | stop => cases hqs
  | char =>
    cases hqs
    intro hhead
    cases hhead
    exact hq rfl
  | gap hws _ hps => exact head_append_ne (fun hmem => hws _ hmem rfl) hps
  | literal =>
    cases hqs
    exact absurd rfl hq

/-- White_Space that is kept as a character of a line is not the last character. -/
theorem Relayed.last (h : Relayed P ps qs)
    (hinner : isSpace p.1 → ∃ q r, qs = q :: r ∧ q.1 ≠ '\n') (hps : ps = []) :
    isSpace p.1 = false := by
  cases hspace : isSpace p.1 with
  | false => rfl
  | true =>
    obtain ⟨q, r, hqs, -⟩ := hinner hspace
    cases (h.eq_nil hps).symm.trans hqs

/-- White_Space at the end of the text is kept only if there is none in literals. -/
theorem LastKept.literals (h : LastKept ps) (hspace : ∀ p ∈ ps, isSpace p.1)
    (hkind : (∀ p ∈ ps, p.2 = .literal) ∨ ∀ p ∈ ps, p.2 ≠ .literal) : Scan.literals ps = [] := by
  rcases hkind with hall | hnone
  · cases hlast : ps.getLast? with
    | none => rw [List.getLast?_eq_none_iff.mp hlast]; rfl
    | some p =>
      have hp := List.mem_of_getLast? hlast
      cases (h p hlast (hall p hp)).symm.trans (hspace p hp)
  · exact literals_of_none hnone

/-- Literals within lines are kept. -/
theorem Relayed.literals_eq (h : Relayed P ps qs) (hlines : WithinLines ps) :
    literals qs = literals ps := by
  induction h with
  | stop hspace hkind => rw [hlines.last.literals hspace hkind]; rfl
  | @char p ps qs hp hinner h ih =>
    have hrest := (withinLines_cons (fun heq => hp (by rw [heq]))
      fun hps _ => h.last hinner hps).mp hlines
    rw [literals_cons, ih hrest, ← literals_cons]
  | gap hws hws' hps h ih =>
    have hrest := (withinLines_append (fun hmem => hws _ hmem rfl) hps).mp hlines
    rw [literals_append, literals_append, literals_of_none hws, literals_of_none hws', ih hrest]
  | literal => exact absurd (by simp) hlines.feeds

/-- Other literals get longer than the indentation, or lose their end. -/
theorem Relayed.withinLines_or (hP : ∀ v, P v → n ≤ v.length) (h : Relayed P ps qs) :
    WithinLines ps ∨ n < (literals qs).length ∨ (literals qs).length < (literals ps).length := by
  induction h with
  | @stop ps hspace hkind =>
    rcases eq_or_ne (literals ps) [] with hnil | hne
    · exact .inl (withinLines_of_literals hnil)
    · exact .inr (.inr (List.length_pos_iff.mpr hne))
  | @char p ps qs hp hinner h ih =>
    have hiff : WithinLines (p :: ps) ↔ WithinLines ps :=
      withinLines_cons (fun heq => hp (by rw [heq])) fun hps _ => h.last hinner hps
    rw [hiff, literals_cons p ps, literals_cons p qs, List.length_append, List.length_append]
    rcases ih with hlines | hlong | hshort
    · exact .inl hlines
    · exact .inr (.inl (by omega))
    · exact .inr (.inr (by omega))
  | gap hws hws' hps h ih =>
    rw [withinLines_append (fun hmem => hws _ hmem rfl) hps, literals_append, literals_append,
      literals_of_none hws, literals_of_none hws']
    exact ih
  | @literal u v v' ps qs hgap =>
    have hfill := hP v' hgap.fill
    rw [literals_append, literals_map, List.length_append, List.length_cons]
    omega

theorem blank_append_inj {a b x y : Text} {c d : Char} (ha : a.isBlank)
    (hb : b.isBlank) (hc : isSpace c = false) (hd : isSpace d = false) :
    a ++ c :: x = b ++ d :: y ↔ a = b ∧ c :: x = d :: y := by
  constructor
  · intro h
    have hspaces := congrArg (List.takeWhile isSpace) h
    rw [List.takeWhile_append_of_pos (List.all_eq_true.mp ha),
      List.takeWhile_append_of_pos (List.all_eq_true.mp hb),
      List.takeWhile_cons_of_neg (by simp [hc]), List.takeWhile_cons_of_neg (by simp [hd]),
      List.append_nil, List.append_nil] at hspaces
    subst hspaces
    exact ⟨rfl, List.append_cancel_left h⟩
  · rintro ⟨rfl, h⟩
    rw [h]

theorem feed_eq_append_iff {u v v' : Text} (hu : '\n' ∉ u) :
    '\n' :: v' = u ++ '\n' :: v ↔ u = [] ∧ v = v' := by
  constructor
  · intro h
    cases u with
    | nil => exact ⟨rfl, (List.cons.inj h).2.symm⟩
    | cons d u => exact absurd ((List.cons.inj h).1 ▸ List.mem_cons_self) hu
  · rintro ⟨rfl, rfl⟩
    rfl

theorem TemplateLines.trail {u : Text} (hu : u.isBlank)
    (h : TemplateLines (u.map (·, .literal) ++ ('\n', .literal) :: ps)) : u = [] := by
  rcases List.eq_nil_or_concat u with rfl | ⟨u, d, rfl⟩
  · rfl
  · have hspace : isSpace d := List.all_eq_true.mp hu d (by simp)
    have htrails := h.trails
    rw [List.concat_eq_append, List.map_append, List.append_assoc] at htrails
    have hd := (List.isChain_cons_cons.mp htrails.right_of_append).1 rfl
    cases hspace.symm.trans hd

/-- White_Space in front of another character is what is taken there. -/
theorem map_takeWhile_spaces {v : Text} {k : Kind} (hv : v.isBlank)
    (hps : ∃ c k r, ps = (c, k) :: r ∧ isSpace c = false) :
    ((v.map (·, k) ++ ps).takeWhile (isSpace ·.1)).map Prod.fst = v := by
  obtain ⟨c, k', r, rfl, hc⟩ := hps
  rw [List.takeWhile_append_of_pos (isSpace_of_mem hv), List.takeWhile_cons_of_neg (by simp [hc]),
    List.append_nil, List.map_map, Function.comp_def, List.map_id']

/-- A gap in a literal is laid out like a template if it is the line feed and the indentation. -/
theorem templateLines_gap {u v : Text} (hu : u.isBlank) (hv : v.isBlank)
    (hps : ∃ c k r, ps = (c, k) :: r ∧ isSpace c = false) :
    TemplateLines ((u ++ '\n' :: v).map (·, .literal) ++ ps) ↔
      (u = [] ∧ v = templateIndent) ∧ TemplateLines ps := by
  have hindent : ('\n', Kind.literal) ∉ templateIndent.map (·, Kind.literal) := by decide
  rw [List.map_append, List.map_cons, List.append_assoc, List.cons_append]
  constructor
  · intro h
    obtain rfl := h.trail hu
    have hfill := h.indents _ ((List.mem_tails _ _).mpr List.suffix_rfl) rfl
    rw [List.map_nil, List.nil_append, List.tail_cons, map_takeWhile_spaces hv hps] at hfill
    subst hfill
    refine ⟨⟨rfl, rfl⟩, (templateLines_append hindent hps).mp ?_⟩
    refine ⟨h.trails.tail, fun r hr => h.indents r (List.mem_cons_of_mem _ hr), ?_⟩
    exact (lastKept_cons (by simp [templateIndent])).mp h.last
  · rintro ⟨⟨rfl, rfl⟩, h⟩
    have hrest := (templateLines_append hindent hps).mpr h
    refine ⟨List.isChain_cons.mpr ⟨?_, hrest.trails⟩, fun r hr hhead => ?_,
      (lastKept_cons (by simp [templateIndent])).mpr hrest.last⟩
    · rintro q hq rfl
      have hspace : (templateIndent.map (·, Kind.literal) ++ ps).head? = some (' ', .literal) := rfl
      exact absurd (hspace.symm.trans hq) (by decide)
    · rcases List.mem_cons.mp (List.tails_cons .. ▸ hr) with rfl | hr
      · exact map_takeWhile_spaces hv hps
      · exact hrest.indents r hr hhead

/-- A template keeps its literals if and only if they are laid out like it. -/
theorem Relayed.literals_eq_iff (h : Relayed (· = templateIndent) ps qs) :
    literals qs = literals ps ↔ TemplateLines ps := by
  induction h with
  | stop hspace hkind =>
    exact ⟨fun h => (withinLines_of_literals h.symm).templateLines,
      fun h => (h.last.literals hspace hkind).symm⟩
  | @char p ps qs hp hinner h ih =>
    have hiff : TemplateLines (p :: ps) ↔ TemplateLines ps :=
      templateLines_cons (fun heq => hp (by rw [heq]))
        (fun hspace => h.head_ne (hinner hspace)) fun hps _ => h.last hinner hps
    rw [hiff, literals_cons p ps, literals_cons p qs, List.append_right_inj, ih]
  | gap hws hws' hps h ih =>
    rw [templateLines_append (fun hmem => hws _ hmem rfl) hps, literals_append, literals_append,
      literals_of_none hws, literals_of_none hws']
    exact ih
  | @literal u v v' ps qs hgap hps hqs h ih =>
    obtain ⟨c, r, rfl, hc⟩ := hps
    obtain ⟨d, r', rfl, hd⟩ := hqs
    obtain rfl := hgap.fill
    have hcons : ∀ c r, literals ((c, Kind.literal) :: r) = c :: literals r := fun _ _ => rfl
    rw [templateLines_gap hgap.trail hgap.blank ⟨c, _, r, rfl, hc⟩, ← ih, literals_append,
      literals_append, literals_map, literals_map, hcons, hcons,
      blank_append_inj (by decide) hgap.isBlank hd hc, feed_eq_append_iff hgap.feed]

end Keeping

/-- A body keeps its literals under every indentation if and only if they are within lines, and a
template keeps them if and only if their lines are laid out like its own. -/
theorem literals_kept_iff (b : Text) (hmarkup : Steady (trace true .start b))
    (hsteady : Steady (kinds b)) :
    ((∀ indent : Text, (∀ c ∈ indent, isLayout c = true ∧ c ≠ '\n') →
        (CodeMap.ofText (reindent b indent)).literals = (CodeMap.ofText b).literals) ↔
      WithinLines (kinds b)) ∧
    ((CodeMap.ofText (alignTemplate b)).literals = (CodeMap.ofText b).literals ↔
      TemplateLines (kinds b)) := by
  simp only [literals_of_shows (ofText_shows _)]
  refine ⟨⟨fun h => ?_, fun h indent hindent => ?_⟩, ?_⟩
  · -- An indentation of the length of the text is too long for its literals.
    have hindent : ∀ c ∈ List.replicate b.length ' ', isLayout c = true ∧ c ≠ '\n' := by
      intro c hc
      rw [List.eq_of_mem_replicate hc]
      decide
    have hrelaid := (reindent_laid b hindent).relayed hmarkup hsteady
    have hkept := h _ hindent
    have hle : (literals (kinds b)).length ≤ b.length := by
      have hchars := congrArg List.length (kinds_chars b)
      rw [List.length_map] at hchars
      exact hchars ▸ length_literals_le (kinds b)
    rcases hrelaid.withinLines_or (n := b.length) (by simp) with hlines | hlong | hshort
    · exact hlines
    · rw [hkept] at hlong
      omega
    · rw [hkept] at hshort
      omega
  · exact ((reindent_laid b hindent).relayed hmarkup hsteady).literals_eq h
  · exact ((alignTemplate_laid b).relayed hmarkup hsteady).literals_eq_iff

/-- A quote in code, which its line settles, and a literal that is laid out like a template. -/
def brokenLiteralSource : Text := "f(/\x27/,\n  \x60a\n    b\x60)"

/-- The template keeps that literal, but not every body does. -/
theorem literals_kept_template :
    Steady (trace true .start brokenLiteralSource) ∧ Steady (kinds brokenLiteralSource) ∧
    (¬ ∀ indent : Text, (∀ c ∈ indent, isLayout c = true ∧ c ≠ '\n') →
      (CodeMap.ofText (reindent brokenLiteralSource indent)).literals =
        (CodeMap.ofText brokenLiteralSource).literals) ∧
    (CodeMap.ofText (alignTemplate brokenLiteralSource)).literals =
      (CodeMap.ofText brokenLiteralSource).literals := by
  have hmarkup : Steady (trace true .start brokenLiteralSource) := by decide +kernel
  have hsteady : Steady (kinds brokenLiteralSource) := by decide +kernel
  have hacross : ¬ WithinLines (kinds brokenLiteralSource) := by decide +kernel
  have hlines : TemplateLines (kinds brokenLiteralSource) := by decide +kernel
  obtain ⟨hbody, htemplate⟩ := literals_kept_iff brokenLiteralSource hmarkup hsteady
  exact ⟨hmarkup, hsteady, hbody.not.mpr hacross, htemplate.mpr hlines⟩

/-- The indentation of the second line gets into the literal. -/
theorem reindent_widens_literal :
    reindent "\x60a\nb\x60" "  " = "  \x60a\n  b\x60" ∧
    (CodeMap.ofText "\x60a\nb\x60").literals = "\x60a\nb\x60" ∧
    (CodeMap.ofText (reindent "\x60a\nb\x60" "  ")).literals = "\x60a\n  b\x60" := by
  decide +kernel

end Layout

end Declass
