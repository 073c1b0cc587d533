import Declass.Proofs.Relayout
import Declass.Proofs.ScanInvariants

/-!
# Scans of a text with a new layout

**Input.** A text and the text with another layout, scanned by two machines.

**Algorithm.** The machines are compared line by line and gap by gap.  On a line they make the same
moves: what a move looks at in the text behind differs in White_Space only, and what it looks at in
the text before is the word that goes on and whether an expression begins.  White_Space leaves the
machine where it is, but for the line feed behind a line comment.  An escaped line feed is read with
its backslash, in both texts.

**Results.** A text in which quotes that open no string are settled by their line, and in which code
has no White_Space but layout, is read alike with every other layout: each character keeps its kind,
and each gap is literal in both texts or in neither.
-/

namespace Declass

open Character (isSpace isLayout)

namespace Layout

open Scan

section Strings

variable {P : Text → Prop} {q : Char} {t t' v : Text}

/-- What stands behind a quote that opens no string, so that it opens none with another layout
either: the last character of the line other than White_Space is no backslash, and another line that
is not blank follows. -/
@[mk_iff] structure LeavesOpen (t : Text) : Prop where
  escape : (t.takeWhile (· != '\n')).reverse.find? (!isSpace ·) ≠ some '\\'
  more : Text.isBlank (t.dropWhile (· != '\n')) = false

instance (t : Text) : Decidable (LeavesOpen t) := decidable_of_iff' _ (leavesOpen_iff t)

theorem LeavesOpen.tail {c : Char} (hc : c ≠ '\n') (h : LeavesOpen (c :: t)) : LeavesOpen t := by
  obtain ⟨hescape, hmore⟩ := h
  rw [List.takeWhile_cons_of_pos (by simpa using hc), List.reverse_cons, List.find?_append]
    at hescape
  rw [List.dropWhile_cons_of_pos (by simpa using hc)] at hmore
  exact ⟨fun h => hescape (by rw [h, Option.some_or]), hmore⟩

theorem not_leavesOpen_blank (ht : t.isBlank) : ¬ LeavesOpen t := by
  intro h
  have hblank : Text.isBlank (t.dropWhile (· != '\n')) := List.all_eq_true.mpr fun c hc =>
      List.all_eq_true.mp ht c ((List.dropWhile_sublist _).subset hc)
  cases hblank.symm.trans h.more

theorem isSpace_of_isQuote (hq : isQuote q) : isSpace q = false := by
  simp only [isQuote, Bool.or_eq_true, beq_iff_eq] at hq
  rcases hq with rfl | rfl <;> decide

theorem stringCloses_feed (q : Char) (t : Text) : stringCloses q ('\n' :: t) = false := by
  rw [stringCloses_cons (by decide), if_pos (by decide)]

/-- White_Space on the line does not decide whether a string is closed. -/
theorem stringCloses_blank (hq : isQuote q) (hv : v.isBlank) (hfeed : '\n' ∉ v)
    (t : Text) : stringCloses q (v ++ t) = stringCloses q t := by
  induction v with
  | nil => rfl
  | cons c v ih =>
    obtain ⟨hc, hv⟩ := List.forall_mem_cons.mp (List.all_eq_true.mp hv)
    rw [List.mem_cons, not_or] at hfeed
    have hslash : c ≠ '\\' := by rintro rfl; exact absurd hc (by decide)
    have hquote : ¬ (c == q) := by
      intro h
      rw [beq_iff_eq.mp h, isSpace_of_isQuote hq] at hc
      cases hc
    have hne : ¬ (c == '\n') := by simpa using Ne.symm hfeed.1
    rw [List.cons_append, stringCloses_cons hslash, if_neg hne, if_neg hquote]
    exact ih (List.all_eq_true.mpr hv) hfeed.2

theorem stringCloses_feeds (hq : isQuote q) (hv : v.isBlank) (hfeed : '\n' ∈ v)
    (t : Text) : stringCloses q (v ++ t) = false := by
  obtain ⟨a, b, rfl, ha⟩ := List.eq_append_cons_of_mem hfeed
  rw [Text.isBlank_append, Bool.and_eq_true] at hv
  rw [List.append_assoc, stringCloses_blank hq hv.1 ha, List.cons_append, stringCloses_feed]

/-- A string that is closed is closed with another layout, also if a backslash comes before. -/
theorem Relaid.closes (hq : isQuote q) (h : Relaid P t t') :
    (stringCloses q t → stringCloses q t') ∧
      (stringCloses q ('\\' :: t) → stringCloses q ('\\' :: t')) := by
  induction h with
  | stop _ => exact ⟨fun _ => by rw [stringCloses], fun _ => by rw [stringCloses]⟩
  | @char c t t' hc _ _ ih =>
    refine ⟨fun h => ?_, fun h => ?_⟩
    · by_cases hslash : c = '\\'
      · rw [hslash] at h ⊢
        exact ih.2 h
      · rw [stringCloses_cons hslash] at h ⊢
        split_ifs at h ⊢
        · rfl
        · exact ih.1 h
    · exact ih.1 h
  | @gap u v v' t t' c hgap hc _ ih =>
    refine ⟨fun h => ?_, fun h => ?_⟩
    · rw [stringCloses_blank hq hgap.trail hgap.feed] at h
      cases h
    · -- Only a line feed right behind the backslash is skipped.
      cases u with
      | nil =>
        rw [List.nil_append, stringCloses] at h
        rw [stringCloses]
        have hfree : '\n' ∉ v := by
          intro hmem
          rw [stringCloses_feeds hq hgap.blank hmem] at h
          cases h
        rw [stringCloses_blank hq hgap.blank hfree] at h
        rw [stringCloses_blank hq (isBlank_of_layout hgap.blank hgap.layout)
          (fun hmem => hfree (hgap.feeds hmem))]
        exact ih.1 h
      | cons d u =>
        obtain ⟨-, hu⟩ := List.forall_mem_cons.mp (List.all_eq_true.mp hgap.trail)
        have hfree : '\n' ∉ u := fun hmem => hgap.feed (List.mem_cons_of_mem d hmem)
        rw [List.cons_append, stringCloses,
          stringCloses_blank hq (List.all_eq_true.mpr hu) hfree] at h
        cases h

theorem Relaid.leaves_open (h : Relaid P t t') :
    (LeavesOpen t → stringCloses q t = false → stringCloses q t' = false) ∧
      (LeavesOpen ('\\' :: t) → stringCloses q ('\\' :: t) = false →
        stringCloses q ('\\' :: t') = false) := by
  induction h with
  | stop hw =>
    exact ⟨fun hopen => absurd hopen (not_leavesOpen_blank hw),
      fun hopen => absurd (hopen.tail (by decide)) (not_leavesOpen_blank hw)⟩
  | @char c t t' hc _ _ ih =>
    refine ⟨fun hopen h => ?_, fun hopen h => ?_⟩
    · by_cases hslash : c = '\\'
      · rw [hslash] at hopen h ⊢
        exact ih.2 hopen h
      · rw [stringCloses_cons hslash] at h ⊢
        split_ifs at h ⊢
        · rfl
        · exact ih.1 (hopen.tail hc) h
    · exact ih.1 ((hopen.tail (by decide)).tail hc) h
  | @gap u v v' t t' c hgap hc _ ih =>
    refine ⟨fun _ _ => stringCloses_feed q _, fun hopen _ => ?_⟩
    -- The backslash would be the last character of its line.
    refine absurd ?_ hopen.escape
    have hline : ('\\' :: (u ++ '\n' :: (v ++ c :: t))).takeWhile (· != '\n') = '\\' :: u := by
      have hu : ∀ d ∈ '\\' :: u, (d != '\n') := by
        intro d hd
        rcases List.mem_cons.mp hd with rfl | hd
        · decide
        · exact bne_iff_ne.mpr fun h => hgap.feed (h ▸ hd)
      rw [← List.cons_append, List.takeWhile_append_of_pos hu]
      simp
    have hnone : u.reverse.find? (!isSpace ·) = none := by
      refine List.find?_eq_none.mpr fun d hd => ?_
      simp [List.all_eq_true.mp hgap.trail d (List.mem_reverse.mp hd)]
    rw [hline, List.reverse_cons, List.find?_append, hnone]
    decide

end Strings

end Layout

namespace Scan

section Before

variable {x a b : List Slot}

theorem takeWhile_append_congr {p : Slot → Bool} (h : a.takeWhile p = b.takeWhile p) :
    (x ++ a).takeWhile p = (x ++ b).takeWhile p := by
  rw [List.takeWhile_append, List.takeWhile_append, h]

theorem begins_cons_of_neg {s : Slot} (hs : ¬ (s.kind == .comment || s.isLayout))
    (h : (s :: a).takeWhile Slot.isAsciiIdent = (s :: b).takeWhile Slot.isAsciiIdent) :
    begins (s :: a) = begins (s :: b) := by
  simp only [begins]
  rw [List.dropWhile_cons, if_neg hs, List.dropWhile_cons, if_neg hs]
  simp only [h]

/-- Whether an expression begins depends on what is read before only in so far as it does there,
and on the word that goes on. -/
theorem begins_append_congr (hword : a.takeWhile Slot.isAsciiIdent = b.takeWhile Slot.isAsciiIdent)
    (h : begins a = begins b) : begins (x ++ a) = begins (x ++ b) := by
  induction x with
  | nil => exact h
  | cons s x ih =>
    rw [List.cons_append, List.cons_append]
    by_cases hs : (s.kind == .comment || s.isLayout) = true
    · rw [begins_cons hs, begins_cons hs, ih]
    · refine begins_cons_of_neg hs ?_
      rw [← List.cons_append, ← List.cons_append, takeWhile_append_congr hword]

theorem begins_trivia (hx : ∀ s ∈ x, (s.kind == .comment || s.isLayout)) :
    begins (x ++ a) = begins a := by
  induction x with
  | nil => rfl
  | cons s x ih =>
    obtain ⟨hs, hx⟩ := List.forall_mem_cons.mp hx
    rw [List.cons_append, begins_cons hs, ih hx]

theorem isAsciiIdent_of_isSpace {c : Char} (h : isSpace c) : Character.isAsciiIdent c = false := by
  cases hident : Character.isAsciiIdent c with
  | false => rfl
  | true =>
    rw [Text.isSpace_of_isIdentPart (Text.isIdentPart_of_isAsciiIdent hident)] at h
    cases h

theorem word_of_space {ps : Painted} (hne : ps ≠ [] ∨ a = []) (h : ∀ p ∈ ps, isSpace p.1) :
    ((Slot.paint ps).reverse ++ a).takeWhile Slot.isAsciiIdent = [] := by
  have hnone : ∀ s ∈ (Slot.paint ps).reverse, ¬ s.isAsciiIdent := by
    intro s hs
    obtain ⟨p, hp, hsp⟩ := List.mem_flatMap.mp (List.mem_reverse.mp hs)
    rcases List.mem_cons.mp hsp with rfl | hsp
    · simpa [Slot.isAsciiIdent] using isAsciiIdent_of_isSpace (h p hp)
    · simp [List.eq_of_mem_replicate hsp, Slot.isAsciiIdent]
  cases hlast : (Slot.paint ps).reverse with
  | nil =>
    cases ps with
    | nil =>
      rw [hne.resolve_left (absurd rfl)]
      rfl
    | cons p ps => simp [Slot.ofChar] at hlast
  | cons s x =>
    rw [List.cons_append, List.takeWhile_cons_of_neg]
    exact hnone s (hlast ▸ List.mem_cons_self)

end Before

/-- The machine is in code, outside strings. -/
def State.InCode (s : State) : Prop :=
  (∃ braces hole below, s.modes = .code braces hole :: below) ∧ ∀ q, s.context ≠ .quoted q

/-- Two machines that go on alike: what they have read may differ in layout. -/
structure Alike (s s' : State) : Prop where
  modes : s'.modes = s.modes
  context : s'.context = s.context
  word : s'.done.takeWhile Slot.isAsciiIdent = s.done.takeWhile Slot.isAsciiIdent
  begins : s.InCode → begins s'.done = begins s.done

section Gaps

variable {jsx : Bool} {s s' s'' : State} {t t' t'' u v : Text} {ps qs : Painted}

/-- The machine reads text as `ps` and is then in another state in front of other text. -/
structure Takes (jsx : Bool) (s : State) (t : Text) (ps : List (Char × Kind)) (s' : State)
    (t' : Text) : Prop where
  trace : trace jsx s t = ps ++ trace jsx s' t'
  run : run jsx s t = run jsx s' t'
  fits : s.Fits t → s'.Fits t'

theorem Takes.refl (s : State) (t : Text) : Takes jsx s t [] s t := ⟨rfl, rfl, id⟩

theorem Takes.trans (h : Takes jsx s t ps s' t') (h' : Takes jsx s' t' qs s'' t'') :
    Takes jsx s t (ps ++ qs) s'' t'' :=
  ⟨by rw [h.trace, h'.trace, List.append_assoc], h.run.trans h'.run, h'.fits ∘ h.fits⟩

theorem takes_next (jsx : Bool) (s : State) (c : Char) (rest : Text) :
    Takes jsx s (c :: rest) ((s.reads jsx c rest).1.map fun d => (d, (s.move jsx c rest).kind))
      (s.next jsx c rest) (s.reads jsx c rest).2 :=
  ⟨trace_cons jsx s c rest, run_cons jsx s c rest, fun h => h.next jsx⟩

/-- White_Space that the machine reads in one way, without changing its state. -/
theorem takes_still {modes : List Mode} {context : Context} {k : Kind} {w : Text}
    (h : ∀ done, ∀ c ∈ w, ∀ rest, State.move jsx ⟨done, modes, context⟩ c rest =
      ⟨k, false, modes, context⟩) (done : List Slot) (t : Text) :
    Takes jsx ⟨done, modes, context⟩ (w ++ t) (w.map (·, k))
      ⟨(Slot.paint (w.map (·, k))).reverse ++ done, modes, context⟩ t := by
  induction w generalizing done with
  | nil => exact Takes.refl _ _
  | cons c w ih =>
    have hmove := h done c List.mem_cons_self (w ++ t)
    have hreads := reads_single (show (State.move jsx ⟨done, modes, context⟩ c (w ++ t)).pair =
      false by rw [hmove])
    have hnext := takes_next jsx ⟨done, modes, context⟩ c (w ++ t)
    rw [State.next, hreads, hmove] at hnext
    have hrest := hnext.trans (ih (fun done d hd => h done d (List.mem_cons_of_mem c hd)) _)
    simpa using hrest

/-- How White_Space is read in a state: as the first kind before a line feed, and as the second from
the line feed on, with the context that it leads to. -/
inductive Lull : List Mode → Context → Kind → Kind → Context → Prop
  | plain (braces : Nat) (hole : Hole) (below : List Mode) :
      Lull (.code braces hole :: below) .plain .code .code .plain
  | string (braces : Nat) (hole : Hole) (below : List Mode) {q : Char} (hq : isQuote q = true) :
      Lull (.code braces hole :: below) (.quoted q) .literal .literal (.quoted q)
  | lineComment (braces : Nat) (hole : Hole) (below : List Mode) :
      Lull (.code braces hole :: below) .lineComment .comment .code .plain
  | blockComment (braces : Nat) (hole : Hole) (below : List Mode) :
      Lull (.code braces hole :: below) .blockComment .comment .comment .blockComment
  | template (below : List Mode) : Lull (.template :: below) .plain .literal .literal .plain
  | value (depth : Nat) (closing : Bool) (below : List Mode) {q : Char} (hq : isQuote q = true) :
      Lull (.tag depth closing (some q) :: below) .plain .literal .literal .plain
  | tag (depth : Nat) (closing : Bool) (below : List Mode) :
      Lull (.tag depth closing none :: below) .plain .markup .markup .plain
  | children (depth : Nat) (below : List Mode) :
      Lull (.children depth :: below) .plain .markup .markup .plain

theorem exists_lull (h : s.Fits t) : ∃ k₀ k context, Lull s.modes s.context k₀ k context := by
  obtain ⟨done, modes, context⟩ := s
  have hcode : (∀ braces hole below, modes ≠ .code braces hole :: below) → context = .plain := by
    intro hne
    exact h.context.resolve_right fun ⟨_, _, _, hmodes⟩ => hne _ _ _ hmodes
  cases modes with
  | nil => cases h.rooted
  | cons mode below =>
    cases mode with
    | code braces hole =>
      cases context with
      | plain => exact ⟨_, _, _, .plain braces hole below⟩
      | quoted q => exact ⟨_, _, _, .string braces hole below (h.string q rfl)⟩
      | lineComment => exact ⟨_, _, _, .lineComment braces hole below⟩
      | blockComment => exact ⟨_, _, _, .blockComment braces hole below⟩
    | template =>
      obtain rfl : context = .plain := hcode nofun
      exact ⟨_, _, _, .template below⟩
    | tag depth closing quote =>
      obtain rfl : context = .plain := hcode nofun
      cases quote with
      | none => exact ⟨_, _, _, .tag depth closing below⟩
      | some q =>
        exact ⟨_, _, _, .value depth closing below (h.tags _ List.mem_cons_self)⟩
    | children depth =>
      obtain rfl : context = .plain := hcode nofun
      exact ⟨_, _, _, .children depth below⟩

namespace Lull

variable {modes : List Mode} {context context' : Context} {k₀ k : Kind} {c : Char}

section

variable (h : Lull modes context k₀ k context')
include h

theorem after : Lull modes context' k k context' := by
  cases h with
  | lineComment braces hole below => exact .plain braces hole below
  | plain braces hole below => exact .plain braces hole below
  | string braces hole below hq => exact .string braces hole below hq
  | blockComment braces hole below => exact .blockComment braces hole below
  | template below => exact .template below
  | value depth closing below hq => exact .value depth closing below hq
  | tag depth closing below => exact .tag depth closing below
  | children depth below => exact .children depth below

theorem literal_iff : k₀ = .literal ↔ k = .literal := by
  cases h <;> simp

theorem kind_literal_iff {p : Char × Kind} (hp : p ∈ u.map (·, k₀) ++ v.map (·, k)) :
    p.2 = .literal ↔ k = .literal := by
  rcases List.mem_append.mp hp with hp | hp
  · obtain ⟨_, _, rfl⟩ := List.mem_map.mp hp
    exact h.literal_iff
  · obtain ⟨_, _, rfl⟩ := List.mem_map.mp hp
    exact Iff.rfl

theorem kinds_of_code (hcode : ∃ braces hole below, modes = .code braces hole :: below)
    (hstring : ∀ q, context' ≠ .quoted q) :
    (k₀ = .code ∨ k₀ = .comment) ∧ (k = .code ∨ k = .comment) ∧ ∀ q, context ≠ .quoted q := by
  obtain ⟨braces, hole, below, rfl⟩ := hcode
  cases h with
  | string _ _ _ hq => exact absurd rfl (hstring _)
  | _ => simp

end

theorem move_literal (h : Lull modes context k₀ .literal context') (done : List Slot) (c : Char)
    (rest : Text) : (State.move jsx ⟨done, modes, context'⟩ c rest).kind = .literal := by
  cases h with
  | string braces hole below hq =>
    simp only [State.move, quotedMove]
    split <;> rfl
  | template below =>
    simp only [State.move, templateMove]
    split_ifs <;> rfl
  | value depth closing below hq => rfl

theorem trace_literal (jsx : Bool) (h : Lull modes context k₀ .literal context') (done : List Slot)
    (c : Char) (t : Text) :
    ∃ ps, trace jsx ⟨done, modes, context'⟩ (c :: t) = (c, .literal) :: ps := by
  rw [← h.move_literal done c t]
  exact trace_head jsx _ c t

theorem ne_of_isSpace {d : Char} (hc : isSpace c) (hd : isSpace d = false) : c ≠ d := by
  rintro rfl
  cases hc.symm.trans hd

/-- Where line feeds make no difference, all White_Space is read in one way. -/
theorem move_steady (h : Lull modes context k k context) (hc : isSpace c) (done : List Slot)
    (rest : Text) : State.move jsx ⟨done, modes, context⟩ c rest = ⟨k, false, modes, context⟩ := by
  have hne : ∀ d, isSpace d = false → c ≠ d := fun _ => ne_of_isSpace hc
  cases h with
  | plain braces hole below =>
    have hquote : isQuote c = false := by
      simp [isQuote, hne '\x22' (by decide), hne '\x27' (by decide)]
    simp [State.move, plainMove, hquote, hne '\x60' (by decide), hne '/' (by decide),
      hne '\x7b' (by decide), hne '\x7d' (by decide), hne '<' (by decide)]
  | string braces hole below hq =>
    simp [State.move, quotedMove, hne '\\' (by decide), hne _ (Layout.isSpace_of_isQuote hq)]
  | blockComment braces hole below =>
    simp [State.move, blockCommentMove, hne '*' (by decide)]
  | template below =>
    simp [State.move, templateMove, hne '\\' (by decide), hne '$' (by decide),
      hne '\x60' (by decide)]
  | value depth closing below hq =>
    simp [State.move, tagMove, hne _ (Layout.isSpace_of_isQuote hq)]
  | tag depth closing below =>
    have hquote : isQuote c = false := by
      simp [isQuote, hne '\x22' (by decide), hne '\x27' (by decide)]
    simp [State.move, tagMove, hquote, hne '\x7b' (by decide), hne '/' (by decide),
      hne '>' (by decide)]
  | children depth below =>
    simp [State.move, childrenMove, hne '\x7b' (by decide), hne '<' (by decide)]

theorem move_space (h : Lull modes context k₀ k context') (hc : isSpace c) (hfeed : c ≠ '\n')
    (done : List Slot) (rest : Text) :
    State.move jsx ⟨done, modes, context⟩ c rest = ⟨k₀, false, modes, context⟩ := by
  have hafter := h.after
  cases h with
  | lineComment braces hole below => simp [State.move, lineCommentMove, hfeed]
  | _ => exact hafter.move_steady hc done rest

theorem move_feed (jsx : Bool) (h : Lull modes context k₀ k context') (done : List Slot)
    (rest : Text) :
    State.move jsx ⟨done, modes, context⟩ '\n' rest = ⟨k, false, modes, context'⟩ := by
  have hafter := h.after
  cases h with
  | lineComment braces hole below => rfl
  | _ => exact hafter.move_steady (by decide) done rest

theorem takes_steady (jsx : Bool) (h : Lull modes context k k context) (hv : v.isBlank)
    (done : List Slot) (t : Text) : Takes jsx ⟨done, modes, context⟩ (v ++ t) (v.map (·, k))
      ⟨(Slot.paint (v.map (·, k))).reverse ++ done, modes, context⟩ t :=
  takes_still (fun done c hc rest => h.move_steady (List.all_eq_true.mp hv c hc) done rest) done t

theorem takes_line (jsx : Bool) (h : Lull modes context k₀ k context') (hu : u.isBlank)
    (hfeed : '\n' ∉ u) (done : List Slot) (t : Text) :
    Takes jsx ⟨done, modes, context⟩ (u ++ t) (u.map (·, k₀))
      ⟨(Slot.paint (u.map (·, k₀))).reverse ++ done, modes, context⟩ t :=
  takes_still (fun done c hc rest => h.move_space (List.all_eq_true.mp hu c hc)
    (fun heq => hfeed (heq ▸ hc)) done rest) done t

theorem takes_gap (jsx : Bool) (h : Lull modes context k₀ k context') (hu : u.isBlank)
    (hfeed : '\n' ∉ u) (hv : v.isBlank) (done : List Slot) (t : Text) :
    Takes jsx ⟨done, modes, context⟩ (u ++ '\n' :: (v ++ t))
      (u.map (·, k₀) ++ ('\n' :: v).map (·, k))
      ⟨(Slot.paint (u.map (·, k₀) ++ ('\n' :: v).map (·, k))).reverse ++ done, modes, context'⟩
      t := by
  have hline := h.takes_line jsx hu hfeed done ('\n' :: (v ++ t))
  generalize hd : (Slot.paint (u.map (·, k₀))).reverse ++ done = done' at hline
  have hmove := h.move_feed jsx done' (v ++ t)
  have hnext := takes_next jsx ⟨done', modes, context⟩ '\n' (v ++ t)
  rw [State.next, reads_single (by rw [hmove]), hmove] at hnext
  have hrest := h.after.takes_steady jsx hv ((Slot.paint (['\n'].map (·, k))).reverse ++ done') t
  have hall := hline.trans (hnext.trans hrest)
  rw [← hd] at hall
  simpa using hall

end Lull

end Gaps

section Steps

variable {jsx : Bool} {s s' : State} {c : Char} {rest rest' : Text}

theorem isSpace_of_tagStart (h : (c.isAlpha || c == '>')) : isSpace c = false := by
  rcases Bool.or_eq_true_iff.mp h with h | h
  · refine Text.isSpace_of_isIdentPart (Text.isIdentPart_of_isAsciiIdent ?_)
    simp [Character.isAsciiIdent, Char.isAlphanum, h]
  · rw [beq_iff_eq.mp h]
    decide

/-- Alike machines make the same move if they see the same behind the character, White_Space
apart. -/
theorem Alike.move (h : Alike s s')
    (hahead : ∀ d, isSpace d = false → (rest'.head? = some d ↔ rest.head? = some d))
    (hquote : s.Plain → isQuote c → stringCloses c rest = stringCloses c rest') :
    s'.move jsx c rest' = s.move jsx c rest := by
  have hhead : ∀ d, isSpace d = false → (rest'.head? == some d) = (rest.head? == some d) := by
    intro d hd
    rw [Bool.eq_iff_iff, beq_iff_eq, beq_iff_eq, hahead d hd]
  have hname : rest'.head?.any (fun d => d.isAlpha || d == '>') =
      rest.head?.any fun d => d.isAlpha || d == '>' := by
    rw [Bool.eq_iff_iff, Option.any_eq_true, Option.any_eq_true]
    exact exists_congr fun d => and_congr_left fun hd => hahead d (isSpace_of_tagStart hd)
  obtain ⟨done, modes, context⟩ := s
  obtain ⟨hmodes, hcontext, -, hbegins⟩ := h
  subst hmodes hcontext
  refine move_congr (fun hplain => ⟨hquote hplain, fun _ => ?_⟩) fun d hd => hhead d ?_
  · rw [opensElement_eq, opensElement_eq, hname,
      hbegins ⟨hplain.2, fun q hq => by cases hplain.1.symm.trans hq⟩]
  · have hmem := mem_of_asks hd
    simp only [List.mem_cons, List.not_mem_nil, or_false] at hmem
    rcases hmem with rfl | rfl | rfl | rfl <;> decide

/-- The characters with which the machine gets from literals and markup back into code. -/
def isMark (c : Char) : Bool := isQuote c || c == '\x60' || c == '\x7b' || c == '>'

/-- Code is entered by a mark, which is the character read or the one read with it. -/
theorem move_enters {t : Text} (hfits : s.Fits t) (hs : ¬ s.InCode)
    (hcode : ∃ braces hole below, (s.move jsx c rest).modes = .code braces hole :: below)
    (hcontext : ∀ q, (s.move jsx c rest).context ≠ .quoted q) :
    (s.move jsx c rest).kind ≠ .comment ∧ ((s.move jsx c rest).pair = false ∧ isMark c ∨
        (s.move jsx c rest).pair ∧ ∃ d, rest.head? = some d ∧ isMark d) := by
  have hquote := hfits.string
  obtain ⟨done, modes, context⟩ := s
  obtain ⟨braces, hole, below, hmodes⟩ := hcode
  have hspec := move_spec jsx done modes context c rest
  generalize State.move jsx ⟨done, modes, context⟩ c rest = m at hspec hmodes hcontext ⊢
  cases hspec with
  | plain _ => exact absurd ⟨⟨_, _, _, rfl⟩, nofun⟩ hs
  | stringCloses => exact ⟨nofun, .inl ⟨rfl, by simp [isMark, hquote _ rfl]⟩⟩
  | stringEscape _ => exact absurd rfl (hcontext _)
  | stringGoesOn _ _ => exact absurd rfl (hcontext _)
  | templateHole _ h => exact ⟨nofun, .inr ⟨rfl, _, h, by decide⟩⟩
  | elementCloses _ h => exact ⟨nofun, .inr ⟨rfl, _, h, by decide⟩⟩
  | templateCloses h => exact ⟨nofun, .inl ⟨rfl, by simp [isMark, h]⟩⟩
  | tagHole h => exact ⟨nofun, .inl ⟨rfl, by simp [isMark, h]⟩⟩
  | tagCloses h => exact ⟨nofun, .inl ⟨rfl, by simp [isMark, h]⟩⟩
  | childrenHole h => exact ⟨nofun, .inl ⟨rfl, by simp [isMark, h]⟩⟩
  | _ => first | exact absurd ⟨⟨_, _, _, rfl⟩, nofun⟩ hs | cases hmodes

theorem begins_mark {k : Kind} (hc : isMark c) (hk : k ≠ .comment) (a b : List Slot) :
    begins ((Slot.ofChar k c).reverse ++ a) = begins ((Slot.ofChar k c).reverse ++ b) := by
  have hslot : Slot.ofChar k c = [⟨some c, k⟩] ∧ isLayout c = false ∧
      Character.isAsciiIdent c = false := by
    simp only [isMark, isQuote, Bool.or_eq_true, beq_iff_eq] at hc
    rcases hc with (((rfl | rfl) | rfl) | rfl) | rfl <;> exact ⟨rfl, by decide, by decide⟩
  obtain ⟨hslot, hlayout, hident⟩ := hslot
  have hneg : ¬ ((⟨some c, k⟩ : Slot).kind == .comment || (⟨some c, k⟩ : Slot).isLayout) := by
    simp [Slot.isLayout, hk, hlayout]
  have hword : ¬ (⟨some c, k⟩ : Slot).isAsciiIdent := by simp [Slot.isAsciiIdent, hident]
  rw [hslot]
  refine begins_cons_of_neg hneg ?_
  rw [List.takeWhile_cons_of_neg hword, List.takeWhile_cons_of_neg hword]

/-- Alike machines that make the same move are alike afterwards. -/
theorem Alike.next {t : Text} (h : Alike s s') (hfits : s.Fits t)
    (hmove : s'.move jsx c rest' = s.move jsx c rest)
    (hreads : (s'.reads jsx c rest').1 = (s.reads jsx c rest).1) :
    Alike (s.next jsx c rest) (s'.next jsx c rest') := by
  have hnext : s'.next jsx c rest' = s'.after (s.move jsx c rest) (s.reads jsx c rest).1 := by
    rw [State.next, hmove, hreads]
  rw [hnext]
  refine ⟨rfl, rfl, takeWhile_append_congr h.word, fun hcode => ?_⟩
  by_cases hs : s.InCode
  · exact begins_append_congr h.word (h.begins hs)
  · obtain ⟨hkind, hmark⟩ := move_enters hfits hs hcode.1 hcode.2
    obtain ⟨pre, d, hcs, hd⟩ : ∃ pre d, (s.reads jsx c rest).1 = pre ++ [d] ∧ isMark d := by
      rcases hmark with ⟨hpair, hc⟩ | ⟨hpair, d, hhead, hd⟩
      · exact ⟨[], c, by rw [reads_single hpair]; rfl, hc⟩
      · obtain ⟨tail, rfl⟩ := List.head?_eq_some_iff.mp hhead
        exact ⟨[c], d, by rw [reads_of_pair hpair]; rfl, hd⟩
    simp only [State.next, State.after, hcs, List.flatMap_append, List.reverse_append,
      List.flatMap_singleton, List.append_assoc]
    exact begins_mark hd hkind _ _

theorem trivia_paint {ps : Painted} (h : ∀ p ∈ ps, p.2 = .comment ∨ isLayout p.1) :
    ∀ x ∈ (Slot.paint ps).reverse, (x.kind == .comment || x.isLayout) := by
  intro x hx
  obtain ⟨p, hp, hxp⟩ := List.mem_flatMap.mp (List.mem_reverse.mp hx)
  rcases h p hp with hk | hlayout
  · have hkind : x.kind = p.2 := by
      rcases List.mem_cons.mp hxp with rfl | hxp
      · rfl
      · rw [List.eq_of_mem_replicate hxp]
    simp [hkind, hk]
  · rw [Slot.ofChar, CodeMap.utf8Size_of_isLayout hlayout] at hxp
    obtain rfl := List.mem_singleton.mp hxp
    simp [Slot.isLayout, hlayout]

/-- Alike machines are alike behind White_Space, which in code has to be layout or comment. -/
theorem Alike.behind {context : Context} {ps ps' : Painted} (h : Alike s s')
    (hne : ps ≠ [] ∨ s.done = []) (hne' : ps' ≠ [] ∨ s'.done = [])
    (hspace : ∀ p ∈ ps ++ ps', isSpace p.1)
    (hcode : (∃ braces hole below, s.modes = .code braces hole :: below) →
      (∀ q, context ≠ .quoted q) → s.InCode ∧ ∀ p ∈ ps ++ ps', p.2 = .comment ∨ isLayout p.1) :
    Alike ⟨(Slot.paint ps).reverse ++ s.done, s.modes, context⟩
      ⟨(Slot.paint ps').reverse ++ s'.done, s'.modes, context⟩ := by
  refine ⟨h.modes, rfl, ?_, fun hin => ?_⟩
  · exact (word_of_space hne' fun p hp => hspace p (List.mem_append_right _ hp)).trans
      (word_of_space hne fun p hp => hspace p (List.mem_append_left _ hp)).symm
  obtain ⟨hs, hlayout⟩ := hcode hin.1 hin.2
  have hold := trivia_paint fun p hp => hlayout p (List.mem_append_left _ hp)
  have hnew := trivia_paint fun p hp => hlayout p (List.mem_append_right _ hp)
  exact (begins_trivia hnew).trans ((h.begins hs).trans (begins_trivia hold).symm)

theorem move_pair_space {d : Char} {t : Text} (hfits : s.Fits t)
    (hpair : (s.move jsx c rest).pair) (hhead : rest.head? = some d) (hd : isSpace d) :
    Lull s.modes s.context .literal .literal s.context ∧
      s.move jsx c rest = ⟨.literal, true, s.modes, s.context⟩ := by
  have hne : ∀ {x}, rest.head? = some x → isSpace x ≠ false := fun hx => by
    cases hhead.symm.trans hx
    simp [hd]
  obtain ⟨k₀, k, context', hlull⟩ := exists_lull hfits
  obtain ⟨done, modes, context⟩ := s
  have hspec := move_spec jsx done modes context c rest
  generalize State.move jsx ⟨done, modes, context⟩ c rest = m at hspec hpair ⊢
  cases hspec with
  | plain hplain =>
    -- In plain code only the slash of a comment is read with the next character.
    cases hplain with
    | lineComment _ h => exact absurd (by decide) (hne h)
    | blockComment _ h => exact absurd (by decide) (hne h)
    | _ => cases hpair
  | commentCloses _ h => exact absurd (by decide) (hne h)
  | templateHole _ h => exact absurd (by decide) (hne h)
  | elementCloses _ h => exact absurd (by decide) (hne h)
  | stringEscape _ => exact ⟨.string _ _ _ (hfits.string _ rfl), rfl⟩
  | templateEscape _ =>
    cases hlull
    exact ⟨.template _, rfl⟩
  | _ => cases hpair

end Steps

end Scan

namespace Layout

open Scan

section Simulation

/-- What is read of a text and of the text with another layout.  A gap is read alike: neither
filling has literals, or both are literal and go on as a literal. -/
inductive Relayed (P : Text → Prop) : List (Char × Kind) → List (Char × Kind) → Prop
  | stop {ps : List (Char × Kind)} (hspace : ∀ p ∈ ps, isSpace p.1 = true)
      (hkind : (∀ p ∈ ps, p.2 = .literal) ∨ ∀ p ∈ ps, p.2 ≠ .literal) : Relayed P ps []
  | char {p : Char × Kind} {ps qs : List (Char × Kind)} (hp : p.1 ≠ '\n')
      (hinner : isSpace p.1 = true → ∃ q r, qs = q :: r ∧ q.1 ≠ '\n') (h : Relayed P ps qs) :
      Relayed P (p :: ps) (p :: qs)
  | gap {ws ws' ps qs : List (Char × Kind)} (hws : ∀ w ∈ ws, w.2 ≠ .literal)
      (hws' : ∀ w ∈ ws', w.2 ≠ .literal) (hps : ∃ c k r, ps = (c, k) :: r ∧ isSpace c = false)
      (h : Relayed P ps qs) : Relayed P (ws ++ ps) (ws' ++ qs)
  | literal {u v v' : Text} {ps qs : List (Char × Kind)} (hgap : Gap P u v v')
      (hps : ∃ c r, ps = (c, .literal) :: r ∧ isSpace c = false)
      (hqs : ∃ c r, qs = (c, .literal) :: r ∧ isSpace c = false) (h : Relayed P ps qs) :
      Relayed P ((u ++ '\n' :: v).map (·, .literal) ++ ps) (('\n' :: v').map (·, .literal) ++ qs)

/-- What is read of a text that is read alike with another layout: quotes in code stay open, and
White_Space in code is layout. -/
@[mk_iff] structure Steady (ps : List (Char × Kind)) : Prop where
  quotes : ∀ r ∈ ps.tails, ∀ q ∈ r.head?, q.2 = .code → isQuote q.1 = true →
    LeavesOpen (r.tail.map Prod.fst)
  spaces : ∀ p ∈ ps, p.2 = .code → isSpace p.1 = true → isLayout p.1 = true

instance (ps : List (Char × Kind)) : Decidable (Steady ps) := decidable_of_iff' _ (steady_iff ps)

theorem Steady.suffix {ps qs : Painted} (h : Steady ps) (hsuffix : qs <:+ ps) : Steady qs :=
  ⟨fun r hr => h.quotes r ((List.mem_tails _ _).mpr (((List.mem_tails _ _).mp hr).trans hsuffix)),
    fun p hp => h.spaces p (hsuffix.subset hp)⟩

variable {P : Text → Prop} {jsx : Bool} {s s' : State} {t t' w u v v' : Text} {c : Char}
  {k k₀ : Kind} {context' : Context}

theorem isSpace_of_mem (hw : w.isBlank) : ∀ p ∈ w.map (·, k), isSpace p.1 := by
  intro p hp
  obtain ⟨d, hd, rfl⟩ := List.mem_map.mp hp
  exact List.all_eq_true.mp hw d hd

theorem isBlank_tail (h : Text.isBlank (c :: w)) : w.isBlank :=
  (Bool.and_eq_true_iff.mp (List.all_cons.symm.trans h)).2

theorem isBlank_feed (hv : v.isBlank) : Text.isBlank ('\n' :: v) :=
  List.all_cons.trans (Bool.and_eq_true_iff.mpr ⟨by decide, hv⟩)

theorem Gap.isBlank (hgap : Gap P u v v') : Text.isBlank (u ++ '\n' :: v) := by
  rw [Text.isBlank_append, hgap.trail, isBlank_feed hgap.blank, Bool.and_self]

theorem Gap.isSpace_of_mem (hgap : Gap P u v v') :
    ∀ p ∈ u.map (·, k₀) ++ ('\n' :: v).map (·, k), isSpace p.1 := by
  intro p hp
  rcases List.mem_append.mp hp with hp | hp
  · exact Layout.isSpace_of_mem hgap.trail p hp
  · exact Layout.isSpace_of_mem (isBlank_feed hgap.blank) p hp

theorem Gap.head (hgap : Gap P u v v') (t : Text) :
    ∃ d, (u ++ '\n' :: t).head? = some d ∧ isSpace d := by
  cases hu : u with
  | nil => exact ⟨'\n', rfl, by decide⟩
  | cons d u => exact ⟨d, rfl, List.all_eq_true.mp hgap.trail d (hu ▸ List.mem_cons_self)⟩

/-- The two texts agree on the next character, White_Space apart. -/
theorem Relaid.head (h : Relaid P t t') (d : Char) (hd : isSpace d = false) :
    t'.head? = some d ↔ t.head? = some d := by
  have hspace : ∀ x, isSpace x → x ≠ d := fun _ hx => Lull.ne_of_isSpace hx hd
  cases h with
  | stop hw =>
    cases t with
    | nil => rfl
    | cons x t => simpa using hspace x (List.all_eq_true.mp hw x List.mem_cons_self)
  | char => rfl
  | @gap u v v' _ _ _ hgap =>
    have hfeed := hspace '\n' (by decide)
    cases u with
    | nil => rfl
    | cons x u =>
      simpa [hfeed] using hspace x (List.all_eq_true.mp hgap.trail x List.mem_cons_self)

/-- Two machines read two texts alike, and end in the same modes. -/
structure ReadsAlike (P : Text → Prop) (jsx : Bool) (s : State) (t : Text) (s' : State)
    (t' : Text) : Prop where
  trace : Relayed P (trace jsx s t) (trace jsx s' t')
  modes : (run jsx s' t').modes = (run jsx s t).modes

section

variable (h : Alike s s') (hlull : Lull s.modes s.context k₀ k context')
include h hlull

theorem readsAlike_stop (hw : w.isBlank) : ReadsAlike P jsx s w s' [] := by
  have hspace : ∀ p ∈ trace jsx s w, isSpace p.1 := by
    intro p hp
    refine List.all_eq_true.mp hw p.1 ?_
    rw [← trace_chars jsx s w]
    exact List.mem_map_of_mem hp
  by_cases hfeed : '\n' ∈ w
  · obtain ⟨u, v, rfl, hu⟩ := List.eq_append_cons_of_mem hfeed
    rw [Text.isBlank_append, Bool.and_eq_true] at hw
    have htakes := hlull.takes_gap jsx hw.1 hu (isBlank_tail hw.2) s.done []
    rw [List.append_nil] at htakes
    refine ⟨.stop hspace ?_, h.modes.trans (congrArg State.modes htakes.run).symm⟩
    rw [htakes.trace, trace_nil, List.append_nil]
    by_cases hk : k = .literal
    · exact .inl fun p hp => (hlull.kind_literal_iff hp).mpr hk
    · exact .inr fun p hp => (hlull.kind_literal_iff hp).not.mpr hk
  · have htakes := hlull.takes_line jsx hw hfeed s.done []
    rw [List.append_nil] at htakes
    refine ⟨.stop hspace ?_, h.modes.trans (congrArg State.modes htakes.run).symm⟩
    rw [htakes.trace]
    by_cases hk : k₀ = .literal
    · exact .inl (by simp [hk])
    · exact .inr (by simp [hk])

/-- Behind a gap, alike machines are alike: what they read of it in code is layout. -/
theorem alike_gap (hgap : Gap P u v v')
    (hspaces : ∀ p ∈ u.map (·, k₀) ++ ('\n' :: v).map (·, k), p.2 = .code → isLayout p.1) : Alike
      ⟨(Slot.paint (u.map (·, k₀) ++ ('\n' :: v).map (·, k))).reverse ++ s.done, s.modes, context'⟩
      ⟨(Slot.paint (('\n' :: v').map (·, k))).reverse ++ s'.done, s'.modes, context'⟩ := by
  refine h.behind (.inl (by simp)) (.inl (by simp)) ?_ fun hcode hstring => ?_
  · have hblank' := isBlank_of_layout hgap.blank hgap.layout
    intro p hp
    rcases List.mem_append.mp hp with hp | hp
    · exact hgap.isSpace_of_mem p hp
    · exact isSpace_of_mem (isBlank_feed hblank') p hp
  · obtain ⟨hk₀, hk, hcontext⟩ := hlull.kinds_of_code hcode hstring
    have hold : ∀ p ∈ u.map (·, k₀) ++ ('\n' :: v).map (·, k), p.2 = .comment ∨ isLayout p.1 := by
      intro p hp
      have hkind : p.2 = .code ∨ p.2 = .comment := by
        rcases List.mem_append.mp hp with hp | hp
        · obtain ⟨_, _, rfl⟩ := List.mem_map.mp hp
          exact hk₀
        · obtain ⟨_, _, rfl⟩ := List.mem_map.mp hp
          exact hk
      exact hkind.symm.imp_right (hspaces p hp)
    refine ⟨⟨hcode, hcontext⟩, fun p hp => ?_⟩
    rcases List.mem_append.mp hp with hp | hp
    · exact hold p hp
    · obtain ⟨d, hd, rfl⟩ := List.mem_map.mp hp
      rcases List.mem_cons.mp hd with rfl | hd
      · exact .inr rfl
      · rcases hgap.layout d hd with hd | hd
        · exact .inr hd
        · exact hold (d, k) (List.mem_append_right _
            (List.mem_map_of_mem (List.mem_cons_of_mem '\n' hd)))

/-- How a gap is read, and the states behind it. -/
theorem readsAlike_gap (hgap : Gap P u v v') (hc : isSpace c = false)
    (hfits : ∀ done, State.Fits ⟨done, s.modes, context'⟩ (c :: t))
    (hsteady : Steady (trace jsx s (u ++ '\n' :: (v ++ c :: t))))
    (ih : ∀ {s s' : State}, Alike s s' → s.Fits (c :: t) → Steady (trace jsx s (c :: t)) →
      ReadsAlike P jsx s (c :: t) s' (c :: t')) :
    ReadsAlike P jsx s (u ++ '\n' :: (v ++ c :: t)) s' ('\n' :: (v' ++ c :: t')) := by
  have hblank' := isBlank_of_layout hgap.blank hgap.layout
  have hlull' : Lull s'.modes s'.context k₀ k context' := by rw [h.modes, h.context]; exact hlull
  have hold := hlull.takes_gap jsx hgap.trail hgap.feed hgap.blank s.done (c :: t)
  have hnew := hlull'.takes_gap jsx (u := []) rfl List.not_mem_nil hblank' s'.done (c :: t')
  rw [List.nil_append] at hnew
  have halike := alike_gap h hlull hgap fun p hp hk => by
    refine hsteady.spaces p ?_ hk (hgap.isSpace_of_mem p hp)
    rw [hold.trace]
    exact List.mem_append_left _ hp
  have hrest := ih halike (hfits _) (hsteady.suffix ⟨_, hold.trace.symm⟩)
  refine ⟨?_, by rw [hnew.run, hold.run]; exact hrest.modes⟩
  rw [hold.trace, hnew.trace]
  by_cases hk : k = .literal
  · obtain rfl := hk
    obtain rfl := hlull.literal_iff.mpr rfl
    obtain ⟨r, hr⟩ := hlull.trace_literal jsx _ c t
    obtain ⟨r', hr'⟩ := hlull'.trace_literal jsx _ c t'
    have hliteral := Relayed.literal hgap ⟨c, r, hr, hc⟩ ⟨c, r', hr', hc⟩ hrest.trace
    rw [List.map_append] at hliteral
    exact hliteral
  · obtain ⟨r, hr⟩ := trace_head jsx _ c t
    exact .gap (fun p hp => (hlull.kind_literal_iff hp).not.mpr hk) (by simp [hk])
      ⟨c, _, r, hr, hc⟩ hrest.trace

end

theorem relayed_char (hc : c ≠ '\n') (hinner : isSpace c → ∃ d r, t' = d :: r ∧ d ≠ '\n')
    (h : Relayed P (trace jsx s t) (trace jsx s' t')) :
    Relayed P ((c, k) :: trace jsx s t) ((c, k) :: trace jsx s' t') := by
  refine .char hc (fun hspace => ?_) h
  obtain ⟨d, r, rfl, hd⟩ := hinner hspace
  obtain ⟨ps, hps⟩ := trace_head jsx s' d r
  exact ⟨_, ps, hps, hd⟩

/-- The step over characters that both machines read at once. -/
theorem readsAlike_next {cs : Text} (h : Alike s s') (hfits : s.Fits (c :: t))
    (hsteady : Steady (trace jsx s (c :: t))) (hmove : s'.move jsx c t' = s.move jsx c t)
    (hreads : s.reads jsx c t = (cs, u)) (hreads' : s'.reads jsx c t' = (cs, v))
    (hchars : ∀ {k : Kind} {s s' : State}, Relayed P (trace jsx s u) (trace jsx s' v) →
      Relayed P (cs.map (·, k) ++ trace jsx s u) (cs.map (·, k) ++ trace jsx s' v))
    (ih : ∀ {s s' : State}, Alike s s' → s.Fits u → Steady (trace jsx s u) →
      ReadsAlike P jsx s u s' v) : ReadsAlike P jsx s (c :: t) s' (c :: t') := by
  have halike := h.next hfits hmove (by rw [hreads, hreads'])
  have hold := takes_next jsx s c t
  have hnew := takes_next jsx s' c t'
  rw [hreads] at hold
  rw [hreads', hmove] at hnew
  have hrest := ih halike (hold.fits hfits) (hsteady.suffix ⟨_, hold.trace.symm⟩)
  refine ⟨?_, by rw [hnew.run, hold.run]; exact hrest.modes⟩
  rw [hold.trace, hnew.trace]
  exact hchars hrest.trace

section Escapes

variable (hlull : Lull s.modes s.context .literal .literal s.context)

include hlull

/-- In a literal, a character that is read with White_Space is read as if it were alone. -/
theorem escaped (hmove : s.move jsx c t = ⟨.literal, true, s.modes, s.context⟩)
    (ht : ∀ d, t.head? = some d → isSpace d) : trace jsx s (c :: t) =
        (c, .literal) :: trace jsx (s.after ⟨.literal, false, s.modes, s.context⟩ [c]) t ∧
      run jsx s (c :: t) = run jsx (s.after ⟨.literal, false, s.modes, s.context⟩ [c]) t := by
  have hnext := takes_next jsx s c t
  rw [State.next, hmove] at hnext
  cases t with
  | nil => exact ⟨hnext.trace, hnext.run⟩
  | cons d t =>
    rw [reads_of_pair (by rw [hmove])] at hnext
    have hd : Text.isBlank [d] := by simp [Text.isBlank, ht d rfl]
    have hrest := hlull.takes_steady jsx hd
      (s.after ⟨.literal, false, s.modes, s.context⟩ [c]).done t
    have hstate : s.after ⟨.literal, true, s.modes, s.context⟩ [c, d] =
        ⟨(Slot.paint ([d].map (·, .literal))).reverse ++
          (s.after ⟨.literal, false, s.modes, s.context⟩ [c]).done, s.modes, s.context⟩ := by
      simp [State.after]
    rw [hstate] at hnext
    exact ⟨hnext.trace.trans (congrArg ((c, Kind.literal) :: ·) hrest.trace.symm),
      hnext.run.trans hrest.run.symm⟩

theorem alike_escaped (h : Alike s s') : Alike (s.after ⟨.literal, false, s.modes, s.context⟩ [c])
      (s'.after ⟨.literal, false, s'.modes, s'.context⟩ [c]) := by
  refine ⟨h.modes, h.context, takeWhile_append_congr h.word, fun hin => ?_⟩
  rcases (hlull.kinds_of_code hin.1 hin.2).1 with hk | hk <;> cases hk

/-- Behind the White_Space that the character is read with, a string is still closed. -/
theorem fits_escaped (hmove : s.move jsx c (w ++ t) = ⟨.literal, true, s.modes, s.context⟩)
    (hne : w ≠ []) (hw : w.isBlank) (hfits : s.Fits (c :: (w ++ t))) (done : List Slot) :
    State.Fits ⟨done, s.modes, s.context⟩ t := by
  cases w with
  | nil => exact absurd rfl hne
  | cons d w =>
    have hnext : (s.next jsx c (d :: (w ++ t))).Fits (s.reads jsx c (d :: (w ++ t))).2 :=
      hfits.next jsx
    rw [List.cons_append] at hmove
    rw [State.next, reads_of_pair (by rw [hmove]), hmove] at hnext
    have hblank := isBlank_tail hw
    have hrest := (hlull.takes_steady jsx hblank _ t).fits hnext
    exact hrest.congr done

/-- The step over a character that is read with White_Space. -/
theorem readsAlike_escaped (h : Alike s s')
    (hmove : s.move jsx c t = ⟨.literal, true, s.modes, s.context⟩)
    (hmove' : s'.move jsx c t' = s.move jsx c t) (ht : ∀ d, t.head? = some d → isSpace d)
    (ht' : ∀ d, t'.head? = some d → isSpace d) (hc : c ≠ '\n')
    (hinner : isSpace c → ∃ d r, t' = d :: r ∧ d ≠ '\n') (hsteady : Steady (trace jsx s (c :: t)))
    (ih : ∀ {done done' : List Slot},
      Alike ⟨done, s.modes, s.context⟩ ⟨done', s'.modes, s'.context⟩ →
      Steady (trace jsx ⟨done, s.modes, s.context⟩ t) →
      ReadsAlike P jsx ⟨done, s.modes, s.context⟩ t ⟨done', s'.modes, s'.context⟩ t') :
    ReadsAlike P jsx s (c :: t) s' (c :: t') := by
  have hlull' : Lull s'.modes s'.context .literal .literal s'.context := by
    rw [h.modes, h.context]
    exact hlull
  obtain ⟨htrace, hrun⟩ := escaped hlull hmove ht
  obtain ⟨htrace', hrun'⟩ := escaped hlull' (by rw [hmove', hmove, h.modes, h.context]) ht'
  have hrest := ih (alike_escaped hlull h) (hsteady.suffix ⟨[_], htrace.symm⟩)
  refine ⟨?_, by rw [hrun, hrun']; exact hrest.modes⟩
  rw [htrace, htrace']
  exact relayed_char hc hinner hrest.trace

end Escapes

/-- The step over a character of a line: the machines read it alone, with the next character of the
line, or, as an escape, with the White_Space behind the line. -/
theorem readsAlike_char (halike : Alike s s') (hfits : s.Fits (c :: t))
    (hsteady : Steady (trace jsx s (c :: t))) (hmove : s'.move jsx c t' = s.move jsx c t)
    (hc : c ≠ '\n') (hinner : isSpace c → ∃ d r, t' = d :: r ∧ d ≠ '\n') (h : Relaid P t t')
    (ih : ∀ {s s' : State} {u u' : Text}, u.length ≤ t.length → Relaid P u u' → Alike s s' →
      s.Fits u → Steady (trace jsx s u) → ReadsAlike P jsx s u s' u') :
    ReadsAlike P jsx s (c :: t) s' (c :: t') := by
  cases hpair : (s.move jsx c t).pair with
  | false =>
    have hpair' : (s'.move jsx c t').pair = false := by rw [hmove, hpair]
    exact readsAlike_next halike hfits hsteady hmove (reads_single hpair) (reads_single hpair')
      (relayed_char hc hinner) (ih le_rfl h)
  | true =>
    cases h with
    | stop hw =>
      cases t with
      | nil =>
        exact readsAlike_next halike hfits hsteady hmove rfl rfl (relayed_char hc hinner)
          (ih le_rfl (.stop hw))
      | cons d t =>
        have hd := List.all_eq_true.mp hw d List.mem_cons_self
        obtain ⟨hlull, hliteral⟩ := move_pair_space hfits hpair rfl hd
        exact readsAlike_escaped hlull halike hliteral hmove (by simpa using hd) nofun hc
          hinner hsteady fun ho _ => readsAlike_stop ho hlull hw
    | @char d t t' hd hinner' h =>
      have hpair' : (s'.move jsx c (d :: t')).pair := by rw [hmove, hpair]
      refine readsAlike_next halike hfits hsteady hmove (reads_of_pair hpair)
        (reads_of_pair hpair') (fun hrest => ?_) (ih (by simp) h)
      refine .char hc (fun _ => ⟨_, _, rfl, hd⟩) ?_
      exact relayed_char hd hinner' hrest
    | @gap u v v' t t' d hgap hd h =>
      have hsplit : u ++ '\n' :: (v ++ d :: t) = (u ++ '\n' :: v) ++ d :: t := by simp
      obtain ⟨e, he, hspace⟩ := hgap.head (v ++ d :: t)
      obtain ⟨hlull, hliteral⟩ := move_pair_space hfits hpair he hspace
      have hrest : ∀ done, State.Fits ⟨done, s.modes, s.context⟩ (d :: t) := by
        rw [hsplit] at hliteral hfits
        exact fits_escaped hlull hliteral (by simp) hgap.isBlank hfits
      have hlen : (d :: t).length ≤ (u ++ '\n' :: (v ++ d :: t)).length := by
        simp
        omega
      exact readsAlike_escaped hlull halike hliteral hmove
        (fun _ h => Option.some.inj (he.symm.trans h) ▸ hspace)
        (fun _ h => Option.some.inj h ▸ by decide) hc hinner hsteady
        fun ho hs => readsAlike_gap ho hlull hgap hd hrest hs (ih hlen h)

theorem Relaid.stringCloses_eq (h : Relaid P t t') (hsteady : Steady (trace jsx s (c :: t)))
    (hs : s.Plain) (hc : isQuote c) : stringCloses c t = stringCloses c t' := by
  cases hcloses : stringCloses c t with
  | true => exact ((h.closes hc).1 hcloses).symm
  | false =>
    obtain ⟨ps, hps⟩ := trace_head jsx s c t
    have hkind : (s.move jsx c t).kind = .code := by
      obtain ⟨done, modes, context⟩ := s
      obtain ⟨rfl, braces, hole, below, rfl⟩ := hs
      simp [State.move, plainMove, hc, hcloses]
    have hchars : ps.map Prod.fst = t := by
      have htrace := trace_chars jsx s (c :: t)
      rw [hps] at htrace
      exact (List.cons.inj htrace).2
    have hopen := hsteady.quotes _ ((List.mem_tails _ _).mpr List.suffix_rfl) (c, _)
      (by rw [hps]; rfl) hkind hc
    rw [hps, List.tail_cons] at hopen
    rw [hchars] at hopen
    exact (h.leaves_open.1 hopen hcloses).symm

/-- A text and the text with another layout are read alike by alike machines. -/
theorem Relaid.readsAlike (h : Relaid P t t') (halike : Alike s s') (hfits : s.Fits t)
    (hsteady : Steady (trace jsx s t)) : ReadsAlike P jsx s t s' t' := by
  induction hn : t.length using Nat.strong_induction_on generalizing s s' t t' with
  | _ n ih =>
    obtain ⟨k₀, k, context', hlull⟩ := exists_lull hfits
    cases h with
    | stop hw => exact readsAlike_stop halike hlull hw
    | @gap u v v' t t' c hgap hc h =>
      have hlen : (c :: t).length < n := by
        rw [← hn]
        simp
        omega
      have htakes := hlull.takes_gap jsx hgap.trail hgap.feed hgap.blank s.done (c :: t)
      have hrest := htakes.fits hfits
      exact readsAlike_gap halike hlull hgap hc hrest.congr hsteady
        fun halike hfits hsteady => ih _ hlen h halike hfits hsteady rfl
    | @char c t t' hc hinner h =>
      have hmove : s'.move jsx c t' = s.move jsx c t :=
        halike.move h.head (h.stringCloses_eq hsteady)
      refine readsAlike_char halike hfits hsteady hmove hc hinner h
        fun hlen h halike hfits hsteady => ih _ ?_ h halike hfits hsteady rfl
      rw [← hn]
      exact Nat.lt_succ_of_le hlen

/-- From the start, a text and the text with another layout are read alike. -/
theorem Laid.readsAlike (h : Laid P t t') (hsteady : Steady (trace jsx .start t)) :
    ReadsAlike P jsx .start t .start t' := by
  have hstart : Alike .start .start := ⟨rfl, rfl, rfl, fun _ => rfl⟩
  have hlull := Lull.plain 0 .root []
  cases h with
  | blank hb => exact readsAlike_stop hstart hlull hb
  | @text v v' t t' c hv hv' hc h =>
    have hblank' := isBlank_of_layout hv hv'
    have hold := hlull.takes_steady jsx hv [] (c :: t)
    have hnew := hlull.takes_steady jsx hblank' [] (c :: t')
    have hlayout : ∀ d ∈ v, isLayout d := by
      intro d hd
      refine hsteady.spaces (d, .code) ?_ rfl (List.all_eq_true.mp hv d hd)
      rw [State.start, hold.trace]
      exact List.mem_append_left _ (List.mem_map_of_mem hd)
    have hlayouts : ∀ p ∈ v.map (·, Kind.code) ++ v'.map (·, Kind.code), isLayout p.1 := by
      intro p hp
      rw [← List.map_append] at hp
      obtain ⟨d, hd, rfl⟩ := List.mem_map.mp hp
      rcases List.mem_append.mp hd with hd | hd
      · exact hlayout d hd
      · exact (hv' d hd).elim id (hlayout d)
    have halike : Alike ⟨(Slot.paint (v.map (·, .code))).reverse ++ [], [.code 0 .root], .plain⟩
        ⟨(Slot.paint (v'.map (·, .code))).reverse ++ [], [.code 0 .root], .plain⟩ :=
      hstart.behind (.inr rfl) (.inr rfl) (fun p hp => isSpace_of_isLayout (hlayouts p hp))
        fun _ _ => ⟨⟨⟨0, .root, [], rfl⟩, by simp [State.start]⟩, fun p hp => .inr (hlayouts p hp)⟩
    have hrest := h.readsAlike halike (hold.fits (start_fits _))
      (hsteady.suffix ⟨_, hold.trace.symm⟩)
    refine ⟨?_, by rw [State.start, hnew.run, hold.run]; exact hrest.modes⟩
    rw [State.start, hold.trace, hnew.trace]
    obtain ⟨r, hr⟩ := trace_head jsx _ c t
    exact .gap (by simp) (by simp) ⟨c, _, r, hr, hc⟩ hrest.trace

/-- A text and the text with another layout have the kinds alike. -/
theorem Laid.relayed (h : Laid P t t') (hmarkup : Steady (trace true .start t))
    (hsteady : Steady (kinds t)) : Relayed P (kinds t) (kinds t') := by
  have hsame : withMarkup t' = withMarkup t := by
    rw [Bool.eq_iff_iff, withMarkup_iff, withMarkup_iff, (h.readsAlike hmarkup).modes]
  rw [kinds, kinds, hsame]
  exact (h.readsAlike hsteady).trace

end Simulation

end Layout

end Declass
