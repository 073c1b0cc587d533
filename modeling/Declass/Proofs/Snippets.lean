import Declass.Proofs.Extraction
import Declass.Proofs.Lockstep

/-!
# Snippets on their own

**Input.** A source from which a component was extracted, and one of the snippets of the component.

The snippet is scanned again without its surroundings.  That its bytes come out with the same kinds
is not guaranteed: a quote that is code in the source, because no second one follows on its line,
opens a string in a snippet that ends before the line does, and markup is recognised in each text by
itself.

**Results.** `rescan_agrees_iff`: these two are the only differences, in every snippet that lies in
one run of code of its source.
-/

namespace Declass

open CodeMap Scan

section Before

/-- The bytes before a position, last one first. -/
def CodeMap.before (m : CodeMap) (i : Nat) : List Slot := (m.slots.toList.take i).reverse

variable {m : CodeMap} {ps pre post : Painted} {i : Nat} {s : Slot}

theorem before_succ (h : m.slots[i]? = some s) : m.before (i + 1) = s :: m.before i := by
  have h' : m.slots.toList[i]? = some s := by simpa using h
  simp [before, List.take_add_one, h']

theorem paint_before (hm : m.Shows ps) (hps : ps = pre ++ post) :
    (Slot.paint pre).reverse = m.before (Slot.width pre) := by
  rw [before, hm, hps, Slot.paint_append, ← Slot.length_paint, List.take_left]

theorem begins_of_trivia {a : Nat} (hle : i ≤ a)
    (htrivia : ∀ j, i ≤ j → j < a → m.has Slot.isTrivia j)
    (h : begins (m.before i)) : begins (m.before a) := by
  induction a, hle using Nat.le_induction with
  | base => exact h
  | succ a hle ih =>
    obtain ⟨s, hs, htriv⟩ := has_eq_true.mp (htrivia a hle (by omega))
    rw [before_succ hs, begins_cons ?_]
    · exact ih fun j hj hlt => htrivia j hj (by omega)
    · simp only [Slot.isTrivia, Bool.or_eq_true, Bool.and_eq_true] at htriv ⊢
      exact htriv.imp_right And.right

end Before

section Openings

/-- The byte `last` closes no hole, and nothing that it belongs to goes on at position `a`. -/
inductive CodeMap.Clear (m : CodeMap) (a : Nat) (last : Slot) : Prop
  | code (hk : last.kind = .code) (hbrace : last.char? ≠ some '\x7d')
      (hword : ∀ c, m.charAt? a = some c → Character.isAsciiIdent c = true →
        last.isAsciiIdent = false)
  | comment (hk : last.kind = .comment) (hnext : m.has Slot.isTrivia a = false)

/-- An expression can begin at position `a`, right behind a byte that is clear of it. -/
structure CodeMap.Free (m : CodeMap) (a : Nat) : Prop where
  begins : begins (m.before a) = true
  last : ∃ i last, a = i + 1 ∧ m.slots[i]? = some last ∧ m.Clear a last

variable {m : CodeMap} {t : Text} {a i : Nat}

theorem CodeMap.Free.behind (h : m.Free i) (hb : m.Behind i a) : m.Free a := by
  refine ⟨begins_of_trivia hb.le hb.trivia h.begins, ?_⟩
  rcases Nat.eq_or_lt_of_le hb.le with rfl | hlt
  · exact h.last
  obtain ⟨j, rfl⟩ : ∃ j, a = j + 1 := ⟨a - 1, by omega⟩
  obtain ⟨last, hlast, htrivia⟩ := has_eq_true.mp (hb.trivia j (by omega) (by omega))
  refine ⟨j, last, rfl, hlast, ?_⟩
  simp only [Slot.isTrivia, Bool.or_eq_true, Bool.and_eq_true, beq_iff_eq] at htrivia
  rcases htrivia with hcomment | ⟨hcode, hlayout⟩
  · exact .comment hcomment hb.stop
  · obtain ⟨c, hc, hlayout⟩ := (Option.any_eq_true _ _).mp hlayout
    simp only [Character.isLayout, Bool.or_eq_true, beq_iff_eq] at hlayout
    refine .code (by simpa [Slot.isCode] using hcode) ?_ fun _ _ _ => ?_
    · rw [hc]
      rcases hlayout with (((rfl | rfl) | rfl) | rfl) | rfl <;> simp
    · rw [Slot.isAsciiIdent, hc]
      rcases hlayout with (((rfl | rfl) | rfl) | rfl) | rfl <;> rfl

theorem free_of_codeChar {c : Char} (h : m.isCodeChar i c)
    (hc : c ∈ ['(', '[', '\x7b', '>']) : m.Free (i + 1) := by
  have hs := isCodeChar_iff.mp h
  simp only [List.mem_cons, List.not_mem_nil, or_false] at hc
  refine ⟨?_, i, _, rfl, hs, .code rfl ?_ fun _ _ _ => ?_⟩
  · rw [before_succ hs]
    rcases hc with rfl | rfl | rfl | rfl <;> rfl
  · rcases hc with rfl | rfl | rfl | rfl <;> simp
  · rcases hc with rfl | rfl | rfl | rfl <;> rfl

/-- The bytes of the word, last one first. -/
def returnSlots : List Slot :=
  ['n', 'r', 'u', 't', 'e', 'r'].map fun c => ⟨some c, .code⟩

theorem begins_return {done : List Slot} (h : ∀ s ∈ done.head?, s.isAsciiIdent = false) :
    begins (returnSlots ++ done) := by
  have htake : (returnSlots ++ done).takeWhile Slot.isAsciiIdent = returnSlots := by
    rw [List.takeWhile_append, if_pos (by rfl)]
    cases done with
    | nil => rfl
    | cons s done =>
      rw [List.takeWhile_cons, if_neg (by simp [h s rfl])]
      rfl
  have hdrop : (returnSlots ++ done).dropWhile (fun s => s.kind == .comment || s.isLayout) =
      returnSlots ++ done := rfl
  unfold begins
  rw [hdrop]
  simp only [returnSlots, List.map_cons, List.map_nil, List.cons_append, List.nil_append] at htake ⊢
  rw [htake]
  rfl

theorem free_of_return (hcode : (ofText t).isCode i)
    (h : (ofText t).stands i "return") : (ofText t).Free (i + Text.size "return") := by
  simp only [stands, Bool.and_eq_true] at h
  obtain ⟨⟨hspells, hbefore⟩, hafter⟩ := h
  have hslot : ∀ pre c post, ("return".toList = pre ++ c :: post) →
      (ofText t).slots[i + Text.size pre]? = some ⟨some c, .code⟩ := by
    intro pre c post hword
    rw [hword] at hspells
    refine isCodeChar_iff.mp (isCodeChar_of_spells ?_ hcode hspells)
    rw [← hword]
    rfl
  have hfirst : (ofText t).slots[i]? = some ⟨some 'r', .code⟩ :=
    hslot [] 'r' ['e', 't', 'u', 'r', 'n'] rfl
  have hlast : (ofText t).slots[i + 5]? = some ⟨some 'n', .code⟩ :=
    hslot ['r', 'e', 't', 'u', 'r'] 'n' [] rfl
  have hword : (ofText t).before (i + 6) = returnSlots ++ (ofText t).before i := by
    rw [before_succ hlast,
      before_succ (show (ofText t).slots[i + 4]? = _ from hslot ['r', 'e', 't', 'u'] 'r' ['n'] rfl),
      before_succ (show (ofText t).slots[i + 3]? = _ from hslot ['r', 'e', 't'] 'u' ['r', 'n'] rfl),
      before_succ (show (ofText t).slots[i + 2]? = _ from hslot ['r', 'e'] 't' ['u', 'r', 'n'] rfl),
      before_succ (show (ofText t).slots[i + 1]? = _ from hslot ['r'] 'e' ['t', 'u', 'r', 'n'] rfl),
      before_succ hfirst]
    rfl
  refine ⟨?_, i + 5, _, rfl, hlast, .code rfl (by simp) fun c hc hident => ?_⟩
  · change begins ((ofText t).before (i + 6)) = true
    rw [hword]
    refine begins_return fun s hs => ?_
    cases i with
    | zero => simp [before] at hs
    | succ i =>
      obtain ⟨s', hs'⟩ : ∃ s', (ofText t).slots[i]? = some s' := by
        refine ⟨_, Array.getElem?_eq_getElem ?_⟩
        exact Nat.lt_of_succ_lt (codeChar_lt_size (isCodeChar_iff.mpr hfirst))
      rw [before_succ hs'] at hs
      obtain rfl : s' = s := by simpa using hs
      rw [Slot.isAsciiIdent]
      cases hchar : s'.char? with
      | none => rfl
      | some c =>
        by_contra hident
        have hc : (ofText t).charAt? i = some c := by simp [charAt?, hs', hchar]
        have hpart := Text.isIdentPart_of_isAsciiIdent (by simpa using hident)
        simp [charBefore?, hc, hpart] at hbefore
  · rw [hc] at hafter
    simp [Text.isIdentPart_of_isAsciiIdent hident] at hafter

/-- Where a block or an expression starts, text is read as if nothing stood before it. -/
theorem CodeMap.Opening.free (h : (ofText t).Opening a) : (ofText t).Free a := by
  cases h with
  | bracket h =>
    rcases opens_iff.mp h with h | h | h
    · exact free_of_codeChar h (by simp)
    · exact free_of_codeChar h (by simp)
    · exact free_of_codeChar h (by simp)
  | @arrow o start hcode hword hb =>
    have hgt : (ofText t).isCodeChar (o + 1) '>' :=
      @isCodeChar_of_spells t ['='] [] '>' o rfl hcode hword
    exact (free_of_codeChar hgt (by simp)).behind hb
  | returned hcode hword hb => exact (free_of_return hcode hword).behind hb

end Openings

section Rescan

variable {t : Text} {pre mid post : Painted} {c : Char} {k : Kind}

/-- The machine is in code, and stays in it up to the end of `u`. -/
def Scan.State.Encloses (jsx : Bool) (s : State) (u post : Text) : Prop :=
  ∃ braces hole below, s.modes = .code braces hole :: below ∧ Stays jsx below post s u

/-- The two ways from what a source gives a piece of it to what the piece gives itself. -/
structure Rescans (t u : Text) (ps : List (Char × Kind)) : Prop where
  quotes : ∀ jsx, ps = trace jsx .start u → Settled ps
  kinds : Settled ps → ps = trace (withMarkup t) .start u

theorem ends_of_closing (hps : kinds t = pre ++ mid ++ post)
    (h : (ofText t).Closing (Slot.width (pre ++ mid))) : Ends mid post := by
  have hm := ofText_shows t
  rintro ⟨d, l⟩ hp ⟨e, k⟩ hq
  obtain ⟨init, rfl⟩ := List.getLast?_eq_some_iff.mp hp
  obtain ⟨tail, rfl⟩ := List.head?_eq_some_iff.mp hq
  have hslot : (ofText t).slots[Slot.width (pre ++ (init ++ [(d, l)]))]? = some ⟨some e, k⟩ :=
    (slot_iff hm).mpr ⟨_, _, hps, rfl⟩
  generalize hb : Slot.width (pre ++ (init ++ [(d, l)])) = b at h hslot
  cases h with
  | size => exact absurd hslot (by simp [CodeMap.size])
  | code h =>
    obtain ⟨s, hs, hcode⟩ := has_eq_true.mp h
    obtain rfl : _ = s := Option.some.inj (hslot.symm.trans hs)
    exact .inl (by simpa [Slot.isCode] using hcode)
  | comment hs hk hbefore =>
    obtain rfl : _ = _ := Option.some.inj (hslot.symm.trans hs)
    refine .inr (.inl ⟨hk, ?_⟩)
    have hpos := d.utf8Size_pos
    simp only [Slot.width_append, Slot.width_cons, Slot.width_nil] at hb
    have hps' : kinds t = (pre ++ init) ++ (d, l) :: (e, k) :: tail := by simp [hps]
    have hwidth : b - 1 + 1 = Slot.width (pre ++ init) + d.utf8Size := by
      rw [Slot.width_append]
      omega
    obtain ⟨s', hs', hkind⟩ := slots_last hm hps' hwidth
    rw [← hkind]
    exact hbefore (b - 1) s' (by omega) hs'

/-- The scan of the source comes to the piece, and what it reads from there on. -/
theorem reaches_of_kinds (hps : kinds t = pre ++ (c, k) :: post)
    (hstart : k = .code ∨ ∀ p ∈ pre.getLast?, p.2 = .code ∨ p.2 ≠ k) :
    ∃ s, Reaches (withMarkup t) .start t s (c :: post.map Prod.fst) ∧
      trace (withMarkup t) s (c :: post.map Prod.fst) = (c, k) :: post ∧
      s.done = (ofText t).before (Slot.width pre) := by
  obtain ⟨s, hreach, htrace, hdone⟩ := reaches_of_trace hps hstart
  refine ⟨s, hreach, htrace, ?_⟩
  rw [hdone, paint_before (ofText_shows t) hps]
  simp [State.start]

/-- Where text is read as if nothing stood before it, the machine is in plain code. -/
theorem plain_of_free (hps : kinds t = pre ++ (c, k) :: post)
    (hfree : (ofText t).Free (Slot.width pre)) :
    ∃ s, Reaches (withMarkup t) .start t s (c :: post.map Prod.fst) ∧
      trace (withMarkup t) s (c :: post.map Prod.fst) = (c, k) :: post ∧
      s.done = (ofText t).before (Slot.width pre) ∧ s.Plain ∧
      ∀ last, s.done.head? = some last → (ofText t).Clear (Slot.width pre) last ∧
        (last.kind = .comment → last = ⟨some '/', .comment⟩) := by
  have hm := ofText_shows t
  obtain ⟨i, last, hi, hlast, hclear⟩ := hfree.last
  have hslot : (ofText t).slots[Slot.width pre]? = some ⟨some c, k⟩ :=
    (slot_iff hm).mpr ⟨_, _, hps, rfl⟩
  have hkind : ∀ p ∈ pre.getLast?, p.2 = last.kind := by
    rintro ⟨d, l⟩ hp
    obtain ⟨init, rfl⟩ := List.getLast?_eq_some_iff.mp hp
    have hps' : kinds t = init ++ (d, l) :: (c, k) :: post := by simp [hps]
    have hwidth : i + 1 = Slot.width init + d.utf8Size := by
      simp only [Slot.width_append, Slot.width_cons, Slot.width_nil] at hi
      omega
    obtain ⟨s, hs, rfl⟩ := slots_last hm hps' hwidth
    rw [Option.some.inj (hs.symm.trans hlast)]
  -- A comment before the place is over: the text there does not start with trivia.
  have hover : last.kind = .comment →
      k ≠ .comment ∧ (k = .code → Character.isLayout c = false) := by
    intro hcomment
    cases hclear with
    | code hk _ _ => cases hk.symm.trans hcomment
    | comment _ hnext =>
      simp only [has, hslot, Option.any_some, Slot.isTrivia, Slot.isCode, Slot.isLayout,
        Bool.or_eq_false_iff, beq_eq_false_iff_ne, Bool.and_eq_false_iff] at hnext
      exact ⟨hnext.1, fun hcode => hnext.2.resolve_left (by simp [hcode])⟩
  obtain ⟨s, hreach, htrace, hdone⟩ := reaches_of_kinds hps <| by
    cases hclear with
    | code hk _ _ => exact .inr fun p hp => .inl ((hkind p hp).trans hk)
    | comment hk _ =>
      exact .inr fun p hp => .inr ((hkind p hp).trans hk ▸ (hover hk).1.symm)
  have hmove : (s.move (withMarkup t) c (post.map Prod.fst)).kind = k := by
    obtain ⟨qs, hqs⟩ := trace_head (withMarkup t) s c (post.map Prod.fst)
    rw [hqs] at htrace
    simpa using (List.cons.inj htrace).1
  have hhead : s.done.head? = some last := by
    rw [hdone, hi, before_succ hlast]
    rfl
  obtain ⟨hplain, hslash⟩ := plain_of_reaches hreach hhead <| by
    cases hclear with
    | code hk hbrace _ => exact .inl ⟨hk, hbrace⟩
    | comment hk _ => exact .inr ⟨hk, by rw [hmove]; exact hover hk⟩
  refine ⟨s, hreach, htrace, hdone, hplain, fun last' hlast' => ?_⟩
  obtain rfl := Option.some.inj (hhead.symm.trans hlast')
  exact ⟨hclear, hslash⟩

/-- A piece that starts where text is read as if nothing stood before it. -/
theorem rescan_of_free (hps : kinds t = pre ++ (c, k) :: (mid ++ post))
    (hfree : (ofText t).Free (Slot.width pre)) (hends : Ends ((c, k) :: mid) post) :
    ∃ s, Reaches (withMarkup t) .start t s (c :: mid.map Prod.fst ++ post.map Prod.fst) ∧
      (s.Encloses (withMarkup t) (c :: mid.map Prod.fst) (post.map Prod.fst) →
        Rescans t (c :: mid.map Prod.fst) ((c, k) :: mid)) := by
  have hslot : (ofText t).slots[Slot.width pre]? = some ⟨some c, k⟩ :=
    (slot_iff (ofText_shows t)).mpr ⟨_, _, hps, rfl⟩
  obtain ⟨s, hreach, htrace, hdone, ⟨hcontext, -⟩, hlast⟩ := plain_of_free hps hfree
  rw [List.map_append] at hreach htrace
  refine ⟨s, hreach, ?_⟩
  rintro ⟨braces, hole, below, hmodes, hstays⟩
  have hjoins : Joins s.done (c :: mid.map Prod.fst) := by
    refine ⟨?_, ?_⟩
    · rw [hdone]
      exact hfree.begins
    · intro d hd hident x hx
      obtain rfl : c = d := by simpa using hd
      obtain ⟨hclear, hslash⟩ := hlast x hx
      cases hclear with
      | code _ _ hword => exact hword c (by simp [charAt?, hslot]) hident
      | comment hk _ =>
        rw [hslash hk]
        rfl
  have hpasses := passes_of_trace (show trace (withMarkup t) s (c :: mid.map Prod.fst ++ _) =
    ((c, k) :: mid) ++ post from htrace) (by simp) hends hstays
  have haligned :
      Aligned below s.done [] (c :: mid.map Prod.fst) s .start (c :: mid.map Prod.fst) := by
    refine ⟨hcontext, ?_, [], rfl, rfl, rfl⟩
    rw [hmodes]
    exact .base _ _ _
  exact ⟨fun jsx => lockstep_quotes hpasses haligned,
    lockstep_kinds hpasses hjoins (.nil _) haligned⟩

/-- An opening bracket that is code is read alone, and leaves the modes below it. -/
theorem bracket_next {jsx : Bool} {s : State} {rest : Text} {braces : Nat} {hole : Hole}
    {below : List Mode} (hmodes : s.modes = .code braces hole :: below)
    (hc : c ∈ ['(', '[', '\x7b']) (hk : (s.move jsx c rest).kind = .code) :
    s.reads jsx c rest = ([c], rest) ∧ ∃ braces', s.next jsx c rest =
      ⟨⟨some c, .code⟩ :: s.done, .code braces' hole :: below, .plain⟩ := by
  have hreads : s.reads jsx c rest = ([c], rest) := by
    rcases reads_cases jsx s c rest with h | ⟨d, tail, -, hpair, -⟩
    · exact h
    · rw [move_pair_of_code hk] at hpair
      cases hpair
  refine ⟨hreads, ?_⟩
  rw [State.next, hreads]
  obtain ⟨done, modes, context⟩ := s
  subst hmodes
  simp only [List.mem_cons, List.not_mem_nil, or_false] at hc
  cases context with
  | plain =>
    rcases hc with rfl | rfl | rfl
    · exact ⟨braces, by rfl⟩
    · exact ⟨braces, by rfl⟩
    · exact ⟨braces + 1, by rfl⟩
  | quoted quote =>
    simp only [State.move, quotedMove] at hk
    split_ifs at hk
  | lineComment =>
    rcases hc with rfl | rfl | rfl <;> simp [State.move, lineCommentMove] at hk
  | blockComment =>
    simp only [State.move, blockCommentMove] at hk
    split_ifs at hk

theorem rescan_of_bracket (hps : kinds t = pre ++ (c, .code) :: (mid ++ post))
    (hc : c ∈ ['(', '[', '\x7b']) (hends : Ends mid post) :
    ∃ s, Reaches (withMarkup t) .start t s (c :: mid.map Prod.fst ++ post.map Prod.fst) ∧
      (s.Encloses (withMarkup t) (c :: mid.map Prod.fst) (post.map Prod.fst) →
        Rescans t (c :: mid.map Prod.fst) ((c, .code) :: mid)) := by
  obtain ⟨s, hreach, htrace, -⟩ := reaches_of_kinds hps (.inl rfl)
  rw [List.map_append] at hreach htrace
  refine ⟨s, hreach, ?_⟩
  rintro ⟨braces, hole, below, hmodes, hstays⟩
  generalize hu : mid.map Prod.fst = u at *
  generalize hv : post.map Prod.fst = v at *
  have hkind : (s.move (withMarkup t) c (u ++ v)).kind = .code := by
    obtain ⟨qs, hqs⟩ := trace_head (withMarkup t) s c (u ++ v)
    rw [hqs] at htrace
    simpa using (List.cons.inj htrace).1
  obtain ⟨hreads, braces', hnext⟩ := bracket_next hmodes hc hkind
  have hcode : ∀ jsx, (State.start.move jsx c u).kind = .code := by
    simp only [List.mem_cons, List.not_mem_nil, or_false] at hc
    rcases hc with rfl | rfl | rfl <;> simp [State.move, State.start, plainMove, isQuote]
  have hpasses : Passes (withMarkup t) below v (s.next (withMarkup t) c (u ++ v)) u mid := by
    refine passes_of_trace ?_ hu hends (hstays.next hreads).2
    rw [trace_cons, hreads] at htrace
    exact (List.cons.inj htrace).2
  have haligned : ∀ jsx, Aligned below (⟨some c, .code⟩ :: s.done) [⟨some c, .code⟩] u
      (s.next (withMarkup t) c (u ++ v)) (State.start.next jsx c u) u := by
    intro jsx
    obtain ⟨-, n, hnext'⟩ := bracket_next rfl hc (hcode jsx)
    rw [hnext, hnext']
    exact ⟨rfl, .base _ _ _, [], rfl, rfl, rfl⟩
  have htrace' : ∀ jsx, trace jsx .start (c :: u) =
      (c, .code) :: trace jsx (State.start.next jsx c u) u := by
    intro jsx
    rw [trace_cons, (bracket_next rfl hc (hcode jsx)).1, hcode]
    rfl
  constructor
  · intro jsx heq
    rw [htrace' jsx] at heq
    refine ⟨fun _ hq => ?_, lockstep_quotes hpasses (haligned jsx) (List.cons.inj heq).2⟩
    simp only [List.mem_cons, List.not_mem_nil, or_false] at hc
    rcases hc with rfl | rfl | rfl <;> cases hq
  · rintro ⟨-, hset⟩
    rw [htrace', ← lockstep_kinds hpasses (joins_bracket hc _ _) (joins_bracket hc _ _)
      (haligned _) hset]

end Rescan

section Cuts

variable {t : Text} {pre mid post : Painted} {a b : Nat}

/-- Every range that snippets are cut from is scanned on its own as its source allows. -/
theorem rescan_of_cut (h : (ofText t).Cut a b) :
    ∃ pre mid post, kinds t = pre ++ mid ++ post ∧ Slot.width pre = a ∧
      Slot.width (pre ++ mid) = b ∧
      (mid = [] ∨ ∃ s, Reaches (withMarkup t) .start t s (mid.map Prod.fst ++ post.map Prod.fst) ∧
        (s.Encloses (withMarkup t) (mid.map Prod.fst) (post.map Prod.fst) →
          Rescans t (mid.map Prod.fst) mid)) := by
  have hm := ofText_shows t
  have hwhole := h.whole hm
  obtain ⟨pre, mid, post, hps, ha, hb⟩ := boundary_split hm hwhole.left hwhole.right hwhole.le
  refine ⟨pre, mid, post, hps, ha, hb, ?_⟩
  subst ha hb
  rcases mid with _ | ⟨⟨c, k⟩, mid⟩
  · exact .inl rfl
  refine .inr ?_
  have hps' : kinds t = pre ++ (c, k) :: (mid ++ post) := by simpa using hps
  have hslot : (ofText t).slots[Slot.width pre]? = some ⟨some c, k⟩ :=
    (slot_iff hm).mpr ⟨_, _, hps', rfl⟩
  generalize hstop : Slot.width (pre ++ (c, k) :: mid) = stop at h
  cases h with
  | empty h =>
    have hpos := c.utf8Size_pos
    simp only [Slot.width_append, Slot.width_cons] at hstop
    omega
  | piece h =>
    refine rescan_of_free hps' h.opening.free (ends_of_closing hps ?_)
    rw [hstop]
    exact h.closing
  | @brackets close h =>
    obtain ⟨hopens, hcloses, hlt, -⟩ := matching_spec h
    obtain ⟨rfl, hc⟩ : k = .code ∧ c ∈ ['(', '[', '\x7b'] := by
      rcases opens_iff.mp hopens with h | h | h <;>
        · have := Option.some.inj (hslot.symm.trans (isCodeChar_iff.mp h))
          simp only [Slot.mk.injEq, Option.some.injEq] at this
          simp [this]
    refine rescan_of_bracket hps' hc ?_
    rintro ⟨d, l⟩ hp q -
    obtain ⟨init, rfl⟩ := List.getLast?_eq_some_iff.mp hp
    have hps'' : kinds t = (pre ++ (c, .code) :: init) ++ (d, l) :: post := by simp [hps]
    have hend : close + 1 = Slot.width (pre ++ (c, .code) :: init) + d.utf8Size := by
      simp only [Slot.width_append, Slot.width_cons, Slot.width_nil] at hstop ⊢
      omega
    -- The last character is the closing bracket, which is code and read alone.
    obtain ⟨x, hx, hlast⟩ : ∃ x, x ≠ '<' ∧ (ofText t).slots[close]? = some ⟨some x, .code⟩ := by
      rcases closes_iff.mp hcloses with h | h | h
      · exact ⟨_, by decide, isCodeChar_iff.mp h⟩
      · exact ⟨_, by decide, isCodeChar_iff.mp h⟩
      · exact ⟨_, by decide, isCodeChar_iff.mp h⟩
    obtain ⟨s, hs, rfl⟩ := slots_last hm hps'' hend
    refine .inr (.inr ⟨?_, ?_⟩)
    · rw [Option.some.inj (hs.symm.trans hlast)]
    · rintro rfl
      have hwidth : Slot.width (pre ++ (c, .code) :: init) = close := by
        have : ('<' : Char).utf8Size = 1 := rfl
        omega
      have hslot := (slot_iff hm).mpr ⟨_, _, hps'', hwidth⟩
      rw [hlast, Option.some.injEq, Slot.mk.injEq, Option.some.injEq] at hslot
      exact hx hslot.1

/-- The kinds of a part of the source are those it has on its own if the bytes are the same. -/
theorem eq_kinds_iff_slots (hps : kinds t = pre ++ mid ++ post) :
    mid = kinds (mid.map Prod.fst) ↔ ∀ j < Text.size (mid.map Prod.fst),
      (ofText (mid.map Prod.fst)).slots[j]? = (ofText t).slots[Slot.width pre + j]? := by
  have hinside : ∀ j < Slot.width mid,
      (ofText t).slots[Slot.width pre + j]? = (Slot.paint mid)[j]? := by
    intro j hj
    rw [getElem?_slots (ofText_shows t), hps, List.append_assoc, Slot.paint_append,
      Slot.paint_append, ← Slot.length_paint pre,
      List.getElem?_append_right (Nat.le_add_right _ _), Nat.add_sub_cancel_left,
      List.getElem?_append_left (by rwa [Slot.length_paint])]
  have hown : ∀ j, (ofText (mid.map Prod.fst)).slots[j]? =
      (Slot.paint (kinds (mid.map Prod.fst)))[j]? := fun j => getElem?_slots (ofText_shows _) j
  constructor
  · intro heq j hj
    rw [hown, hinside j hj, ← heq]
  · intro h
    refine Slot.paint_injective (List.ext_getElem? fun j => ?_)
    by_cases hj : j < Slot.width mid
    · rw [← hinside j hj, ← h j hj, hown]
    · have hwidth : Slot.width (kinds (mid.map Prod.fst)) = Slot.width mid := by
        rw [Slot.width, kinds_chars, Slot.width]
      rw [List.getElem?_eq_none (by simpa using hj),
        List.getElem?_eq_none (by simpa [hwidth] using hj)]

/-- Every quote of the text that the map has as code is followed by a line feed before the string
it would open is closed. -/
def CodeMap.quotesSettled (m : CodeMap) : Nat → Text → Bool
  | _, [] => true
  | i, c :: rest =>
    !(isQuote c && m.isCodeChar i c && stringCloses c rest) && quotesSettled m (i + c.utf8Size) rest

theorem settled_iff (hps : kinds t = pre ++ mid ++ post) :
    Settled mid ↔ (ofText t).quotesSettled (Slot.width pre) (mid.map Prod.fst) := by
  induction mid generalizing pre with
  | nil => simp [Settled, quotesSettled]
  | cons p mid ih =>
    obtain ⟨c, k⟩ := p
    have hslot : (ofText t).slots[Slot.width pre]? = some ⟨some c, k⟩ :=
      (slot_iff (ofText_shows t)).mpr ⟨pre, mid ++ post, by simpa using hps, rfl⟩
    have hcode : (ofText t).isCodeChar (Slot.width pre) c ↔ k = .code := by
      rw [isCodeChar_iff, hslot]
      simp
    have hps' : kinds t = (pre ++ [(c, k)]) ++ mid ++ post := by simpa using hps
    have htail := ih hps'
    rw [Settled, htail, List.map_cons, quotesSettled]
    by_cases hk : k = .code
    · by_cases hq : isQuote c = true
      · simp [hk, hq, hcode.mpr hk]
      · simp [hq]
    · have : (ofText t).isCodeChar (Slot.width pre) c = false := by
        simpa using mt hcode.mp hk
      simp [hk, this]

end Cuts

theorem encloses_of_atRoot {jsx : Bool} {t u post : Text} {s : State}
    (h : Reaches jsx .start t s (u ++ post)) (hroot : s.AtRoot) : s.Encloses jsx u post := by
  obtain ⟨braces, hmodes⟩ := hroot
  refine ⟨braces, .root, [], hmodes, fun s' v hreach _ => ?_⟩
  exact ((h.trans hreach).rooted start_rooted).length_pos

/-- **Snippets on their own.**  Let the scan of a source come to a snippet in code that is not left
before the end of the snippet, as it is wherever only the code of the module is open.  Then the
bytes of the snippet get the same kinds without their surroundings if and only if every quote among
them that is code in the source stands before a line feed of the snippet, and markup is recognised
in both texts or makes no difference. -/
theorem rescan_agrees_iff {t : Text} {receivers : List Text} {c : Component}
    (h : Component.extract t receivers = .ok c) {s : Snippet} (hs : s ∈ c.snippets) :
    ∃ pre post, t = pre ++ s.text ++ post ∧
      s.range = Span.clamp ⟨Text.size pre, Text.size (pre ++ s.text)⟩ ∧
      (s.text = [] ∨ ∃ st, Reaches (withMarkup t) .start t st (s.text ++ post) ∧
        (st.AtRoot → st.Encloses (withMarkup t) s.text post) ∧
        (st.Encloses (withMarkup t) s.text post →
          ((∀ j < s.text.size, (ofText s.text).slots[j]? = (ofText t).slots[Text.size pre + j]?) ↔
            (ofText t).quotesSettled (Text.size pre) s.text = true ∧ SharesMarkup t s.text))) := by
  have hm := ofText_shows t
  have hlies := (Component.extract_faultless t receivers).of_eq h
  obtain ⟨start, stop, hcut, his⟩ := hlies.snippets s hs
  obtain ⟨pre, mid, post, hps, rfl, rfl, hrescan⟩ := rescan_of_cut hcut
  obtain ⟨-, -, hrange⟩ := (Snippet.cut_yields hm (hcut.whole hm)).of_eq his
  have htext : s.text = mid.map Prod.fst := by
    obtain ⟨u, hu, his⟩ := bind_eq_ok his
    obtain ⟨range, -, his⟩ := bind_eq_ok his
    rw [slice_eq_ok hm hps] at hu
    cases hu
    cases his
    rfl
  have hfree : withMarkup t = false → ∀ p ∈ mid, p.2 ≠ .markup := by
    intro ht p hp
    have hkinds := trace_kind_of_not_jsx (t := t) start_markupFree p
    rw [← ht] at hkinds
    exact hkinds (by change p ∈ kinds t; simp [hps, hp])
  refine ⟨pre.map Prod.fst, post.map Prod.fst, ?_, ?_, ?_⟩
  · have hchars := congrArg (List.map Prod.fst) hps
    rwa [kinds_chars, List.map_append, List.map_append, ← htext] at hchars
  · rw [hrange, htext, ← List.map_append]
    rfl
  · rw [htext]
    refine hrescan.imp (fun hmid => by rw [hmid]; rfl) ?_
    rintro ⟨st, hreach, hst⟩
    refine ⟨st, hreach, encloses_of_atRoot hreach, fun henc => ?_⟩
    have hscans := hst henc
    have hwidth : Text.size (pre.map Prod.fst) = Slot.width pre := rfl
    rw [hwidth, ← eq_kinds_iff_slots hps, ← settled_iff hps]
    exact eq_kinds_iff hscans.quotes hscans.kinds hfree

/-- A component with a quote in a regular expression and a line feed behind it in the method. -/
def linedSource : Text :=
  "class A extends Component\x7bf()\x7breturn /'/.test(this.x)\n\x7drender()\x7breturn 0\x7d\x7d"

/-- The body of its method. -/
def linedBody : Snippet := ⟨"return /'/.test(this.x)\n", ⟨30, 54⟩⟩

/-- The line feed belongs to the body, which is scanned on its own as in its source. -/
theorem rescan_agrees_lined :
    ∃ c, Component.extract linedSource ["this"] = .ok c ∧ linedBody ∈ c.snippets ∧
      ∀ j < linedBody.text.size,
        (ofText linedBody.text).slots[j]? = (ofText linedSource).slots[30 + j]? := by
  obtain ⟨c, hc, hbody⟩ : ∃ c, Component.extract linedSource ["this"] = .ok c ∧
      linedBody ∈ c.snippets := ⟨_, rfl, by decide⟩
  refine ⟨c, hc, hbody, ?_⟩
  obtain ⟨pre, post, ht, hrange, hcase⟩ := rescan_agrees_iff hc hbody
  have hpre : Text.size pre = 30 := by
    have : 30 = min (Text.size pre) Span.limit := congrArg Span.start hrange
    simp only [Span.limit] at this
    omega
  have hrest : linedBody.text ++ post = linedSource.drop 30 := by
    rw [← List.take_append_drop 30 linedSource, List.append_assoc] at ht
    exact (Text.append_inj_of_size ht (by rw [hpre]; decide)).2.symm
  rcases hcase with hnil | ⟨st, hreach, hroot, hiff⟩
  · cases hnil
  · have hst : st = (advance (withMarkup linedSource) 30 .start linedSource).1 := by
      refine hreach.unique ?_
      rw [hrest, show linedSource.drop 30 =
        (advance (withMarkup linedSource) 30 .start linedSource).2 by decide]
      exact reaches_advance _ _ _ _
    rw [hpre] at hiff
    refine (hiff (hroot ⟨2, ?_⟩)).mpr ⟨by decide, .inl (by decide)⟩
    rw [hst]
    decide

/-- The same component with the line feed behind the method. -/
def unlinedSource : Text :=
  "class A extends Component\x7bf()\x7breturn /'/.test(this.x)\x7d\nrender()\x7breturn 0\x7d\x7d"

/-- The body of its method. -/
def unlinedBody : Snippet := ⟨"return /'/.test(this.x)", ⟨30, 53⟩⟩

/-- The quote is code in the source.  In the body on its own it opens a string, which hides what
comes behind it. -/
theorem quote_hides_rest :
    (∃ c, Component.extract unlinedSource ["this"] = .ok c ∧ unlinedBody ∈ c.snippets) ∧
      (∀ j < unlinedBody.text.size, (ofText unlinedSource).isCode (30 + j) = true) ∧
      ∀ j < unlinedBody.text.size, (ofText unlinedBody.text).isCode j = decide (j < 8) :=
  ⟨⟨_, rfl, by decide⟩, by decide, by decide⟩

end Declass
