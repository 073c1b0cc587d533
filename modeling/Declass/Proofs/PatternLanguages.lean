import Declass.Proofs.Matches
import Mathlib.Computability.Language

/-!
# The languages of patterns

**Input.** A matcher without edges, and a place of a text.

**Algorithm.** A matcher `Reads` a language if its ends at each place are the places behind the
words of the language that the text goes on with.  Sequences read products, choices read sums, and
the order of preference plays no part.

**Results.**
* `Pattern.exists_of_mem_occurrences`: every match in a text is a match at some place of it.
* `Pattern.mem_occurrences_or_inside`: a match at a place is in the list of matches, unless the
  place lies inside a match that starts earlier.
-/

namespace Declass

/-- The place behind `pre` in the text `pre ++ rest`. -/
def Cursor.behind (pre rest : Text) : Cursor := ⟨pre.getLast?, pre.size, rest⟩

theorem Cursor.behind_concat (pre rest : Text) (d : Char) :
    Cursor.behind (pre ++ [d]) rest = ⟨some d, pre.size + d.utf8Size, rest⟩ := by
  rw [Cursor.behind, List.getLast?_concat, Text.size_append]
  rfl

/-- Between the two texts stands an edge: a word character on one side only. -/
def Text.EdgeBetween (pre rest : Text) : Prop :=
  pre.getLast?.any Character.isWord ≠ rest.head?.any Character.isWord

/-- The words of one character with property `p`. -/
def Text.letter (p : Char → Bool) : Language Char := {u | ∃ d, p d = true ∧ u = [d]}

/-- The words of characters with property `p`. -/
def Text.run (p : Char → Bool) : Language Char := {u | ∀ d ∈ u, p d = true}

/-- A text starts with one run of characters that go on as long as they have property `p`. -/
theorem Text.run_inj {p : Char → Bool} {u v a b : Text} (hu : ∀ c ∈ u, p c)
    (hv : ∀ c ∈ v, p c) (ha : a.head?.any p = false) (hb : b.head?.any p = false)
    (h : u ++ a = v ++ b) : u = v ∧ a = b := by
  induction u generalizing v with
  | nil =>
    cases v with
    | nil => exact ⟨rfl, h⟩
    | cons d v =>
      rw [List.nil_append] at h
      rw [h] at ha
      simp [hv d List.mem_cons_self] at ha
  | cons c u ih =>
    cases v with
    | nil =>
      rw [List.nil_append] at h
      rw [← h] at hb
      simp [hu c List.mem_cons_self] at hb
    | cons d v =>
      obtain ⟨rfl, hrest⟩ := List.cons.inj h
      obtain ⟨rfl, rfl⟩ := ih (fun c hc => hu c (List.mem_cons_of_mem _ hc))
        (fun c hc => hv c (List.mem_cons_of_mem _ hc)) hrest
      exact ⟨rfl, rfl⟩

namespace Matcher

variable {pre rest : Text} {e : Cursor} {ms : List Matcher} {m : Matcher}

/-- The ends of a match are the places behind the words of the language. -/
def Reads (m : Matcher) (L : Language Char) : Prop :=
  ∀ pre rest e, e ∈ m (.behind pre rest) ↔
    ∃ u ∈ L, ∃ post, rest = u ++ post ∧ e = .behind (pre ++ u) post

theorem mem_edge :
    e ∈ edge (.behind pre rest) ↔ Text.EdgeBetween pre rest ∧ e = .behind pre rest := by
  unfold edge Text.EdgeBetween Cursor.behind
  split
  · simp_all
  · simp_all

theorem skip_reads : Reads skip 1 := by
  intro pre rest e
  simp [skip, Language.mem_one]

theorem one_reads (p : Char → Bool) : Reads (one p) (Text.letter p) := by
  intro pre rest e
  cases rest with
  | nil =>
    simp only [one, Cursor.behind, List.not_mem_nil, false_iff]
    rintro ⟨u, ⟨d, -, rfl⟩, post, h, -⟩
    cases h
  | cons d rest =>
    have hone : one p (.behind pre (d :: rest)) =
        if p d then [.behind (pre ++ [d]) rest] else [] := by
      rw [Cursor.behind_concat]
      rfl
    rw [hone]
    constructor
    · intro h
      split at h
      · rename_i hd
        exact ⟨[d], ⟨d, hd, rfl⟩, rest, rfl, List.mem_singleton.mp h⟩
      · cases h
    · rintro ⟨u, ⟨d', hd, rfl⟩, post, h, rfl⟩
      cases h
      simp [hd]

/-- Where a run of characters can end: here, or behind one more character. -/
theorem exists_run_cons {p : Char → Bool} {d : Char} :
    (∃ u, (∀ c ∈ u, p c) ∧ ∃ post, d :: rest = u ++ post ∧ e = .behind (pre ++ u) post) ↔
      e = .behind pre (d :: rest) ∨ p d ∧ ∃ u, (∀ c ∈ u, p c) ∧
        ∃ post, rest = u ++ post ∧ e = .behind (pre ++ [d] ++ u) post := by
  constructor
  · rintro ⟨u, hu, post, h, rfl⟩
    cases u with
    | nil =>
      cases h
      exact .inl (by rw [List.append_nil])
    | cons c u =>
      cases h
      exact .inr ⟨hu d (by simp), u, fun c hc => hu c (by simp [hc]), post, rfl, by simp⟩
  · rintro (rfl | ⟨hd, u, hu, post, rfl, rfl⟩)
    · exact ⟨[], by simp, _, rfl, by rw [List.append_nil]⟩
    · exact ⟨d :: u, by simpa using ⟨hd, hu⟩, post, rfl, by simp⟩

theorem mem_runEnds_iff {p : Char → Bool} {shorter : List Cursor} :
    e ∈ runEnds p shorter pre.getLast? pre.size rest ↔ e ∈ shorter ∨
      ∃ u, (∀ c ∈ u, p c) ∧ ∃ post, rest = u ++ post ∧ e = .behind (pre ++ u) post := by
  induction rest generalizing pre shorter with
  | nil =>
    rw [runEnds, List.mem_cons, or_comm]
    refine or_congr Iff.rfl ⟨?_, ?_⟩
    · rintro rfl
      exact ⟨[], by simp, [], rfl, by simp [Cursor.behind]⟩
    · rintro ⟨u, -, post, h, rfl⟩
      obtain ⟨rfl, rfl⟩ := List.append_eq_nil_iff.mp h.symm
      simp [Cursor.behind]
  | cons d rest ih =>
    rw [runEnds, exists_run_cons]
    split
    · rename_i hd
      have hnext := @ih (pre ++ [d]) (.behind pre (d :: rest) :: shorter)
      rw [List.getLast?_concat, Text.size_append] at hnext
      refine hnext.trans ?_
      rw [List.mem_cons, or_assoc, or_left_comm]
      simp [hd]
    · rename_i hd
      rw [or_comm]
      simp [hd, Cursor.behind]

theorem many_reads (p : Char → Bool) : Reads (many p) (Text.run p) := by
  intro pre rest e
  refine Iff.trans mem_runEnds_iff ?_
  simp only [List.not_mem_nil, false_or]
  exact Iff.rfl

theorem spaces_reads : Reads spaces (Text.run Character.isSpace) := many_reads _

theorem seq_nil_reads : Reads (seq []) 1 := skip_reads

theorem mem_foldl_iff {cs : List Cursor} :
    e ∈ ms.foldl (fun cs m => cs.flatMap m) cs ↔ ∃ s ∈ cs, e ∈ seq ms s := by
  induction ms generalizing cs with
  | nil => simp [seq]
  | cons m ms ih =>
    have hseq : ∀ s, e ∈ seq (m :: ms) s ↔ ∃ s' ∈ m s, e ∈ seq ms s' := by
      intro s
      rw [seq, List.foldl_cons, ih, List.flatMap_singleton]
    simp only [List.foldl_cons, ih, hseq, List.mem_flatMap]
    constructor
    · rintro ⟨s', ⟨s, hs, hs'⟩, he⟩
      exact ⟨s, hs, s', hs', he⟩
    · rintro ⟨s, hs, s', hs', he⟩
      exact ⟨s', ⟨s, hs, hs'⟩, he⟩

theorem mem_seq_cons {c : Cursor} : e ∈ seq (m :: ms) c ↔ ∃ s ∈ m c, e ∈ seq ms s := by
  rw [seq, List.foldl_cons, List.flatMap_singleton]
  exact mem_foldl_iff

theorem seq_cons_reads {L M : Language Char} (hm : Reads m L) (hms : Reads (seq ms) M) :
    Reads (seq (m :: ms)) (L * M) := by
  intro pre rest e
  rw [mem_seq_cons]
  constructor
  · rintro ⟨s, hs, he⟩
    obtain ⟨u, hu, post, rfl, rfl⟩ := (hm pre rest s).mp hs
    obtain ⟨v, hv, post', rfl, rfl⟩ := (hms _ _ e).mp he
    exact ⟨u ++ v, Language.append_mem_mul hu hv, post', by simp, by simp⟩
  · rintro ⟨_, ⟨u, hu, v, hv, rfl⟩, post, rfl, rfl⟩
    refine ⟨.behind (pre ++ u) (v ++ post), (hm _ _ _).mpr ⟨u, hu, _, by simp, rfl⟩, ?_⟩
    exact (hms _ _ _).mpr ⟨v, hv, post, rfl, by simp⟩

theorem char_reads (d : Char) : Reads (one (· == d)) {[d]} := by
  have hletter : Text.letter (· == d) = {[d]} := by
    ext u
    constructor
    · rintro ⟨c, hc, rfl⟩
      rw [beq_iff_eq.mp hc]
      rfl
    · rintro rfl
      exact ⟨d, beq_self_eq_true d, rfl⟩
  rw [← hletter]
  exact one_reads _

theorem word_reads (w : Text) : Reads (word w) {w} := by
  induction w with
  | nil => exact seq_nil_reads
  | cons d w ih =>
    have hlanguage : ({[d]} : Language Char) * {w} = {d :: w} := Set.image2_singleton
    rw [← hlanguage]
    exact seq_cons_reads (char_reads d) ih

theorem one_many_reads (p q : Char → Bool) : Reads (seq [one p, many q])
    {s | ∃ c u, p c ∧ (∀ d ∈ u, q d) ∧ s = c :: u} := by
  have hreads := seq_cons_reads (one_reads p) <| seq_cons_reads (many_reads q) seq_nil_reads
  refine Eq.mp (congrArg _ (Set.ext fun s => ?_)) hreads
  constructor
  · rintro ⟨_, ⟨c, hc, rfl⟩, _, ⟨u, hu, _, rfl, rfl⟩, rfl⟩
    exact ⟨c, u, hc, hu, by simp⟩
  · rintro ⟨c, u, hc, hu, rfl⟩
    exact ⟨[c], ⟨c, hc, rfl⟩, u, ⟨u, hu, [], rfl, List.append_nil u⟩, rfl⟩

theorem mem_edge_seq {L : Language Char} (h : Reads (seq ms) L) :
    e ∈ seq (edge :: ms) (.behind pre rest) ↔ Text.EdgeBetween pre rest ∧
      ∃ u ∈ L, ∃ post, rest = u ++ post ∧ e = .behind (pre ++ u) post := by
  rw [mem_seq_cons, ← h pre rest e]
  constructor
  · rintro ⟨s, hs, he⟩
    obtain ⟨hedge, rfl⟩ := mem_edge.mp hs
    exact ⟨hedge, he⟩
  · rintro ⟨hedge, he⟩
    exact ⟨_, mem_edge.mpr ⟨hedge, rfl⟩, he⟩

theorem mem_seq_edge {L : Language Char} (h : Reads (seq ms) L) :
    e ∈ seq (ms ++ [edge]) (.behind pre rest) ↔ ∃ u ∈ L, ∃ post, rest = u ++ post ∧
      e = .behind (pre ++ u) post ∧ Text.EdgeBetween (pre ++ u) post := by
  rw [seq_concat, List.mem_flatMap]
  constructor
  · rintro ⟨c, hc, he⟩
    obtain ⟨u, hu, post, hrest, rfl⟩ := (h _ _ _).mp hc
    obtain ⟨hedge, rfl⟩ := mem_edge.mp he
    exact ⟨u, hu, post, hrest, rfl, hedge⟩
  · rintro ⟨u, hu, post, hrest, rfl, hedge⟩
    exact ⟨_, (h _ _ _).mpr ⟨u, hu, post, hrest, rfl⟩, mem_edge.mpr ⟨hedge, rfl⟩⟩

theorem opt_reads {L : Language Char} (h : Reads m L) : Reads (opt m) {u | u ∈ L ∨ u = []} := by
  intro pre rest e
  have hopt : e ∈ opt m (.behind pre rest) ↔ e ∈ m (.behind pre rest) ∨ e = .behind pre rest := by
    simp [opt, oneOf, skip]
  rw [hopt, h pre rest e]
  constructor
  · rintro (⟨u, hu, post, hpost⟩ | rfl)
    · exact ⟨u, .inl hu, post, hpost⟩
    · exact ⟨[], .inr rfl, rest, rfl, by rw [List.append_nil]⟩
  · rintro ⟨u, hu | rfl, post, rfl, rfl⟩
    · exact .inl ⟨u, hu, post, rfl, rfl⟩
    · exact .inr (by rw [List.append_nil])

theorem anyWord_reads {ws : List Text} (h : ws ≠ []) : Reads (anyWord ws) {u | u ∈ ws} := by
  intro pre rest e
  rw [anyWord, if_neg (by simpa using h), oneOf, List.mem_flatMap]
  constructor
  · rintro ⟨m, hm, he⟩
    obtain ⟨w, hw, rfl⟩ := List.mem_map.mp hm
    obtain ⟨u, rfl, post, hpost⟩ := (word_reads w pre rest e).mp he
    exact ⟨u, hw, post, hpost⟩
  · rintro ⟨w, hw, post, hpost⟩
    exact ⟨word w, List.mem_map.mpr ⟨w, hw, rfl⟩,
      (word_reads w pre rest e).mpr ⟨w, rfl, post, hpost⟩⟩

end Matcher

namespace Pattern

variable {p : Pattern} {found : Match} {c : Cursor} {pre rest : Text}

theorem exists_of_matchAt (h : p.matchAt c = some found) :
    ∃ a ∈ p.before c, ∃ b ∈ p.group a, ∃ e ∈ p.after b,
      found = ⟨c.offset, e.offset, a.rest.take (a.rest.length - b.rest.length)⟩ := by
  obtain ⟨a, ha, hmem⟩ := List.mem_flatMap.mp (List.mem_of_head? h)
  obtain ⟨b, hb, hmem⟩ := List.mem_flatMap.mp hmem
  obtain ⟨e, he, rfl⟩ := List.mem_map.mp hmem
  exact ⟨a, ha, b, hb, e, he, rfl⟩

theorem exists_matchAt {a b e : Cursor} (ha : a ∈ p.before c) (hb : b ∈ p.group a)
    (he : e ∈ p.after b) : ∃ found, p.matchAt c = some found := by
  rw [← Option.isSome_iff_exists, matchAt, List.isSome_head?]
  exact List.ne_nil_of_mem (List.mem_flatMap.mpr
    ⟨a, ha, List.mem_flatMap.mpr ⟨b, hb, List.mem_map.mpr ⟨e, he, rfl⟩⟩⟩)

theorem start_of_matchAt (h : p.matchAt c = some found) : found.start = c.offset := by
  obtain ⟨a, -, b, -, e, -, rfl⟩ := exists_of_matchAt h
  rfl

theorem exists_of_mem_matchesFrom {resume : Nat}
    (h : found ∈ p.matchesFrom resume pre.getLast? pre.size rest) :
    ∃ mid post, rest = mid ++ post ∧ p.matchAt (.behind (pre ++ mid) post) = some found := by
  induction rest generalizing resume pre with
  | nil => cases h
  | cons d rest ih =>
    have step : ∀ {resume' : Nat},
        found ∈ p.matchesFrom resume' (some d) (pre.size + d.utf8Size) rest →
        ∃ mid post, d :: rest = mid ++ post ∧
          p.matchAt (.behind (pre ++ mid) post) = some found := by
      intro resume' h
      have hpre : (pre ++ [d]).size = pre.size + d.utf8Size := by simp
      rw [← List.getLast?_concat (l := pre), ← hpre] at h
      obtain ⟨mid, post, rfl, hfound⟩ := ih h
      exact ⟨d :: mid, post, rfl, by simpa using hfound⟩
    rw [matchesFrom] at h
    split at h
    · rename_i first hfirst
      split at hfirst
      · cases hfirst
      rcases List.mem_cons.mp h with rfl | h
      · exact ⟨[], d :: rest, rfl, by rwa [List.append_nil]⟩
      · exact step h
    · exact step h

theorem exists_of_mem_occurrences {t : Text} (h : found ∈ p.occurrences t) :
    ∃ pre post, t = pre ++ post ∧ p.matchAt (.behind pre post) = some found :=
  @exists_of_mem_matchesFrom p found [] t 0 h

theorem mem_matchesFrom_or_inside {resume : Nat} {mid : Text} (hrest : rest ≠ [])
    (h : p.matchAt (.behind (pre ++ mid) rest) = some found) :
    found ∈ p.matchesFrom resume pre.getLast? pre.size (mid ++ rest) ∨ (pre ++ mid).size < resume ∨
      ∃ g ∈ p.matchesFrom resume pre.getLast? pre.size (mid ++ rest),
        g.start < (pre ++ mid).size ∧ (pre ++ mid).size < g.stop := by
  induction mid generalizing resume pre with
  | nil =>
    obtain ⟨d, rest, rfl⟩ := List.exists_cons_of_ne_nil hrest
    rw [List.append_nil] at h ⊢
    by_cases hresume : pre.size < resume
    · exact .inr (.inl hresume)
    · rw [List.nil_append, matchesFrom, if_neg hresume]
      have hfound : p.matchAt ⟨pre.getLast?, pre.size, d :: rest⟩ = some found := h
      rw [hfound]
      exact .inl List.mem_cons_self
  | cons d mid ih =>
    have hpre : (pre ++ [d]).size = pre.size + d.utf8Size := by simp
    have hassoc : pre ++ [d] ++ mid = pre ++ d :: mid := by simp
    have hlt : pre.size < (pre ++ d :: mid).size := by
      have := d.utf8Size_pos
      rw [← hassoc, Text.size_append]
      omega
    have step : ∀ resume',
        found ∈ p.matchesFrom resume' (some d) (pre.size + d.utf8Size) (mid ++ rest) ∨
          (pre ++ d :: mid).size < resume' ∨
          ∃ g ∈ p.matchesFrom resume' (some d) (pre.size + d.utf8Size) (mid ++ rest),
            g.start < (pre ++ d :: mid).size ∧ (pre ++ d :: mid).size < g.stop := by
      intro resume'
      have hnext := @ih (pre ++ [d]) resume' (by rwa [hassoc])
      rwa [List.getLast?_concat, hpre, hassoc] at hnext
    rw [List.cons_append, matchesFrom]
    split
    · rename_i g hg
      have hstart : g.start = pre.size := by
        split at hg
        · cases hg
        · exact start_of_matchAt hg
      rcases step g.stop with hmem | hinside | ⟨g', hg', hinside⟩
      · exact .inl (List.mem_cons_of_mem _ hmem)
      · exact .inr (.inr ⟨g, List.mem_cons_self, by omega, hinside⟩)
      · exact .inr (.inr ⟨g', List.mem_cons_of_mem _ hg', hinside⟩)
    · exact step resume

/-- A match at a place is in the list, unless the place lies inside one that starts earlier. -/
theorem mem_occurrences_or_inside (hrest : rest ≠ [])
    (h : p.matchAt (.behind pre rest) = some found) : found ∈ p.occurrences (pre ++ rest) ∨
      ∃ g ∈ p.occurrences (pre ++ rest), g.start < pre.size ∧ pre.size < g.stop := by
  rcases @mem_matchesFrom_or_inside p found [] rest 0 pre hrest h with hmem | hlt | hinside
  · exact .inl hmem
  · exact absurd hlt (Nat.not_lt_zero _)
  · exact .inr hinside

end Pattern

end Declass
