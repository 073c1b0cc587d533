import Declass.Proofs.Boundaries

/-!
# What a scan reads

**Input.** A state of the scanning machine and the text in front of it.

**Algorithm.** `State.reads` says how many characters one move takes, `State.next` which state it
leads to, and `scan_induction` is the induction over the moves of a scan.  `trace` lists the
characters of the text with the kinds they are read as.

**Results.**
* `ofText_shows`: the map of a text is the layout of its trace, so every character has one kind.
* `move_pair_of_code`: code is read one character at a time.
* `run_markupFree`: a scan without markup never enters an element.
-/

namespace Declass

namespace Scan

section Moves

variable (jsx : Bool)

/-- The characters that a move reads, and the text behind them. -/
def State.reads (s : State) (c : Char) : Text → Text × Text
  | [] => ([c], [])
  | d :: rest => if (s.move jsx c (d :: rest)).pair then ([c, d], rest) else ([c], d :: rest)

/-- The state after a move. -/
def State.next (s : State) (c : Char) (rest : Text) : State :=
  s.after (s.move jsx c rest) (s.reads jsx c rest).1

theorem run_cons (s : State) (c : Char) (rest : Text) :
    run jsx s (c :: rest) = run jsx (s.next jsx c rest) (s.reads jsx c rest).2 := by
  cases rest with
  | nil => rw [run, State.next, State.reads, run]
  | cons d rest =>
    rw [run, State.next, State.reads]
    by_cases h : (s.move jsx c (d :: rest)).pair = true
    · simp [h]
    · simp [h]

variable {jsx} in
theorem reads_of_pair {s : State} {c d : Char} {rest : Text}
    (h : (s.move jsx c (d :: rest)).pair) : s.reads jsx c (d :: rest) = ([c, d], rest) := by
  rw [State.reads, if_pos h]

variable {jsx} in
theorem reads_single {s : State} {c : Char} {rest : Text} (h : (s.move jsx c rest).pair = false) :
    s.reads jsx c rest = ([c], rest) := by
  cases rest with
  | nil => rfl
  | cons d rest => rw [State.reads, if_neg (by simp [h])]

/-- A move reads one character or two. -/
theorem reads_cases (s : State) (c : Char) (rest : Text) : s.reads jsx c rest = ([c], rest) ∨
      ∃ d tail, rest = d :: tail ∧ (s.move jsx c rest).pair ∧
        s.reads jsx c rest = ([c, d], tail) := by
  cases rest with
  | nil => exact .inl rfl
  | cons d tail =>
    rw [State.reads]
    by_cases h : (s.move jsx c (d :: tail)).pair = true
    · exact .inr ⟨d, tail, rfl, h, by simp [h]⟩
    · exact .inl (by simp [h])

theorem reads_append (s : State) (c : Char) (rest : Text) :
    (s.reads jsx c rest).1 ++ (s.reads jsx c rest).2 = c :: rest := by
  cases rest with
  | nil => rfl
  | cons d rest =>
    rw [State.reads]
    split <;> simp

theorem reads_length (s : State) (c : Char) (rest : Text) :
    (s.reads jsx c rest).2.length ≤ rest.length := by
  cases rest with
  | nil => simp [State.reads]
  | cons d rest =>
    rw [State.reads]
    split <;> simp

/-- Induction over the moves of a scan. -/
theorem scan_induction {P : State → Text → Prop} (nil : ∀ s, P s [])
    (move : ∀ s c rest, P (s.next jsx c rest) (s.reads jsx c rest).2 → P s (c :: rest)) :
    ∀ (s : State) (t : Text), P s t
  | s, [] => nil s
  | s, c :: rest =>
    have := reads_length jsx s c rest
    move s c rest (scan_induction nil move (s.next jsx c rest) (s.reads jsx c rest).2)
termination_by _ t => t.length
decreasing_by simp only [List.length_cons]; omega

end Moves

section Trace

variable (jsx : Bool)

/-- The characters of the text, each with the kind it is read as. -/
def trace : State → Text → List (Char × Kind)
  | _, [] => []
  | s, [c] => [(c, (s.move jsx c []).kind)]
  | s, c :: d :: rest =>
    let m := s.move jsx c (d :: rest)
    if m.pair then (c, m.kind) :: (d, m.kind) :: trace (s.after m [c, d]) rest
    else (c, m.kind) :: trace (s.after m [c]) (d :: rest)

@[simp] theorem trace_nil (s : State) : trace jsx s [] = [] := by
  rw [trace]

theorem trace_cons (s : State) (c : Char) (rest : Text) : trace jsx s (c :: rest) =
      (s.reads jsx c rest).1.map (fun d => (d, (s.move jsx c rest).kind)) ++
        trace jsx (s.next jsx c rest) (s.reads jsx c rest).2 := by
  cases rest with
  | nil => simp [trace, State.reads]
  | cons d rest =>
    rw [trace, State.next, State.reads]
    by_cases h : (s.move jsx c (d :: rest)).pair = true
    · simp [h]
    · simp [h]

/-- The trace goes through the text. -/
theorem trace_chars (s : State) (t : Text) : (trace jsx s t).map Prod.fst = t := by
  induction s, t using scan_induction jsx with
  | nil s => simp
  | move s c rest ih =>
    rw [trace_cons, List.map_append, ih]
    simpa [Function.comp_def] using reads_append jsx s c rest

theorem flatMap_ofChar (k : Kind) (cs : Text) :
    cs.flatMap (Slot.ofChar k) = Slot.paint (cs.map fun d => (d, k)) := by
  simp [Slot.paint, List.flatMap_map]

/-- The slots of a scan are the layout of its trace. -/
theorem run_done (s : State) (t : Text) :
    (run jsx s t).done = (Slot.paint (trace jsx s t)).reverse ++ s.done := by
  induction s, t using scan_induction jsx with
  | nil s => simp [run]
  | move s c rest ih =>
    rw [run_cons, ih, trace_cons, State.next, State.after]
    simp only [flatMap_ofChar, Slot.paint_append, List.reverse_append, List.append_assoc]

end Trace

section Kinds

/-- Whether no element is open. -/
def MarkupFree (modes : List Mode) : Prop := modes.any Mode.isMarkup = false

theorem markupFree_cons {mode : Mode} {modes : List Mode} :
    MarkupFree (mode :: modes) ↔ mode.isMarkup = false ∧ MarkupFree modes := by
  simp [MarkupFree]

section Plain

variable {jsx : Bool} {done : List Slot} {braces : Nat} {hole : Hole} {below : List Mode} {c : Char}
  {rest : Text}

/-- The moves of plain code, each with what leads to it. -/
inductive PlainMove (jsx : Bool) (done : List Slot) (braces : Nat) (hole : Hole)
    (below : List Mode) (c : Char) (rest : Text) : Move → Prop
  | stringOpens (hc : isQuote c = true) (h : stringCloses c rest = true) :
      PlainMove jsx done braces hole below c rest
        ⟨.literal, false, .code braces hole :: below, .quoted c⟩
  | loneQuote (hc : isQuote c = true) (h : stringCloses c rest = false) :
      PlainMove jsx done braces hole below c rest
        ⟨.code, false, .code braces hole :: below, .plain⟩
  | templateOpens (hc : c = '\x60') :
      PlainMove jsx done braces hole below c rest
        ⟨.literal, false, .template :: .code braces hole :: below, .plain⟩
  | lineComment (hc : c = '/') (h : rest.head? = some '/') :
      PlainMove jsx done braces hole below c rest
        ⟨.comment, true, .code braces hole :: below, .lineComment⟩
  | blockComment (hc : c = '/') (h : rest.head? = some '*') :
      PlainMove jsx done braces hole below c rest
        ⟨.comment, true, .code braces hole :: below, .blockComment⟩
  | braceOpens (hc : c = '\x7b') :
      PlainMove jsx done braces hole below c rest
        ⟨.code, false, .code (braces + 1) hole :: below, .plain⟩
  | braceCloses (hc : c = '\x7d') (h : 0 < braces) :
      PlainMove jsx done braces hole below c rest
        ⟨.code, false, .code (braces - 1) hole :: below, .plain⟩
  | rootBrace (hc : c = '\x7d') (h : braces = 0) (hh : hole = .root) :
      PlainMove jsx done braces hole below c rest
        ⟨.code, false, .code braces hole :: below, .plain⟩
  | templateHoleCloses (hc : c = '\x7d') (h : braces = 0) (hh : hole = .template) :
      PlainMove jsx done braces hole below c rest ⟨.literal, false, below, .plain⟩
  | containerCloses (hc : c = '\x7d') (h : braces = 0) (hh : hole = .container) :
      PlainMove jsx done braces hole below c rest ⟨.code, false, below, .plain⟩
  | elementOpens (hc : c = '<') (hj : jsx = true) (h : opensElement done rest = true) :
      PlainMove jsx done braces hole below c rest
        ⟨.markup, false, .tag 0 false none :: .code braces hole :: below, .plain⟩
  | other (hq : isQuote c = false) (ht : c ≠ '\x60') (ho : c ≠ '\x7b') (hc : c ≠ '\x7d')
      (hs : c = '/' → rest.head? ≠ some '/' ∧ rest.head? ≠ some '*')
      (he : c = '<' → jsx = true → opensElement done rest = false) :
      PlainMove jsx done braces hole below c rest
        ⟨.code, false, .code braces hole :: below, .plain⟩

/-- Reading a character of plain code is one of these moves. -/
theorem plainMove_spec : PlainMove jsx done braces hole below c rest
    (plainMove jsx done braces hole below c rest) := by
  unfold plainMove
  by_cases hq : isQuote c = true
  · rw [if_pos hq]
    by_cases h : stringCloses c rest = true
    · rw [if_pos h]
      exact .stringOpens hq h
    · rw [if_neg h]
      exact .loneQuote hq (by simpa using h)
  rw [if_neg hq]
  by_cases ht : c = '\x60'
  · rw [if_pos (by simp [ht])]
    exact .templateOpens ht
  rw [if_neg (by simp [ht])]
  by_cases hl : c = '/' ∧ rest.head? = some '/'
  · rw [if_pos (by simp [hl])]
    exact .lineComment hl.1 hl.2
  rw [if_neg (by simpa using hl)]
  by_cases hb : c = '/' ∧ rest.head? = some '*'
  · rw [if_pos (by simp [hb])]
    exact .blockComment hb.1 hb.2
  rw [if_neg (by simpa using hb)]
  by_cases ho : c = '\x7b'
  · rw [if_pos (by simp [ho])]
    exact .braceOpens ho
  rw [if_neg (by simp [ho])]
  by_cases hc : c = '\x7d'
  · rw [if_pos (by simp [hc])]
    by_cases h : 0 < braces
    · rw [if_pos h]
      exact .braceCloses hc h
    · rw [if_neg h]
      cases hole with
      | root => exact .rootBrace hc (by omega) rfl
      | template => exact .templateHoleCloses hc (by omega) rfl
      | container => exact .containerCloses hc (by omega) rfl
  rw [if_neg (by simp [hc])]
  by_cases he : c = '<' ∧ jsx ∧ opensElement done rest = true
  · rw [if_pos (by simp [he])]
    exact .elementOpens he.1 he.2.1 he.2.2
  · rw [if_neg (by simpa [and_assoc] using he)]
    refine .other (by simpa using hq) ht ho hc ?_ ?_
    · intro h
      exact ⟨fun h' => hl ⟨h, h'⟩, fun h' => hb ⟨h, h'⟩⟩
    · intro h hj
      by_contra hopens
      exact he ⟨h, hj, by simpa using hopens⟩

end Plain

/-- The moves of the machine, each with the modes and the context in which it is made and what leads
to it. -/
inductive Moves (jsx : Bool) (done : List Slot) (c : Char) (rest : Text) :
    List Mode → Context → Move → Prop
  | ended (context : Context) : Moves jsx done c rest [] context ⟨.code, false, [], context⟩
  | plain {braces : Nat} {hole : Hole} {below : List Mode} {m : Move}
      (h : PlainMove jsx done braces hole below c rest m) :
      Moves jsx done c rest (.code braces hole :: below) .plain m
  | stringEscape {braces : Nat} {hole : Hole} {below : List Mode} {quote : Char} (hc : c = '\\') :
      Moves jsx done c rest (.code braces hole :: below) (.quoted quote)
        ⟨.literal, true, .code braces hole :: below, .quoted quote⟩
  | stringCloses {braces : Nat} {hole : Hole} {below : List Mode} (hc : c ≠ '\\') :
      Moves jsx done c rest (.code braces hole :: below) (.quoted c)
        ⟨.literal, false, .code braces hole :: below, .plain⟩
  | stringGoesOn {braces : Nat} {hole : Hole} {below : List Mode} {quote : Char} (hc : c ≠ '\\')
      (hq : c ≠ quote) : Moves jsx done c rest (.code braces hole :: below) (.quoted quote)
        ⟨.literal, false, .code braces hole :: below, .quoted quote⟩
  | lineEnds {braces : Nat} {hole : Hole} {below : List Mode} (hc : c = '\n') :
      Moves jsx done c rest (.code braces hole :: below) .lineComment
        ⟨.code, false, .code braces hole :: below, .plain⟩
  | lineGoesOn {braces : Nat} {hole : Hole} {below : List Mode} (hc : c ≠ '\n') :
      Moves jsx done c rest (.code braces hole :: below) .lineComment
        ⟨.comment, false, .code braces hole :: below, .lineComment⟩
  | commentCloses {braces : Nat} {hole : Hole} {below : List Mode} (hc : c = '*')
      (h : rest.head? = some '/') : Moves jsx done c rest (.code braces hole :: below) .blockComment
        ⟨.comment, true, .code braces hole :: below, .plain⟩
  | commentGoesOn {braces : Nat} {hole : Hole} {below : List Mode}
      (h : c = '*' → rest.head? ≠ some '/') :
      Moves jsx done c rest (.code braces hole :: below) .blockComment
        ⟨.comment, false, .code braces hole :: below, .blockComment⟩
  | templateEscape {below : List Mode} {context : Context} (hc : c = '\\') :
      Moves jsx done c rest (.template :: below) context ⟨.literal, true, .template :: below, .plain⟩
  | templateHole {below : List Mode} {context : Context} (hc : c = '$')
      (h : rest.head? = some '\x7b') : Moves jsx done c rest (.template :: below) context
        ⟨.literal, true, .code 0 .template :: .template :: below, .plain⟩
  | templateCloses {below : List Mode} {context : Context} (hc : c = '\x60') :
      Moves jsx done c rest (.template :: below) context ⟨.literal, false, below, .plain⟩
  | templateGoesOn {below : List Mode} {context : Context} (he : c ≠ '\\') (hc : c ≠ '\x60')
      (h : c = '$' → rest.head? ≠ some '\x7b') :
      Moves jsx done c rest (.template :: below) context
        ⟨.literal, false, .template :: below, .plain⟩
  | value {depth : Nat} {closing : Bool} {q : Char} {below : List Mode} {context : Context} :
      Moves jsx done c rest (.tag depth closing (some q) :: below) context
        ⟨.literal, false, .tag depth closing (if c == q then none else some q) :: below, .plain⟩
  | valueOpens {depth : Nat} {closing : Bool} {below : List Mode} {context : Context}
      (hc : isQuote c = true) : Moves jsx done c rest (.tag depth closing none :: below) context
        ⟨.literal, false, .tag depth closing (some c) :: below, .plain⟩
  | tagHole {depth : Nat} {closing : Bool} {below : List Mode} {context : Context}
      (hc : c = '\x7b') : Moves jsx done c rest (.tag depth closing none :: below) context
        ⟨.code, false, .code 0 .container :: .tag depth closing none :: below, .plain⟩
  | elementCloses {depth : Nat} {below : List Mode} {context : Context} (hc : c = '/')
      (h : rest.head? = some '>') : Moves jsx done c rest (.tag depth false none :: below) context
        ⟨.markup, true, endTag depth below, .plain⟩
  | tagCloses {depth : Nat} {closing : Bool} {below : List Mode} {context : Context}
      (hc : c = '>') : Moves jsx done c rest (.tag depth closing none :: below) context
        ⟨.markup, false, endTag (if closing then depth - 1 else depth + 1) below, .plain⟩
  | tagGoesOn {depth : Nat} {closing : Bool} {below : List Mode} {context : Context}
      (hq : isQuote c = false) (ho : c ≠ '\x7b') (hc : c ≠ '>')
      (h : c = '/' → closing = false → rest.head? ≠ some '>') :
      Moves jsx done c rest (.tag depth closing none :: below) context
        ⟨.markup, false, .tag depth closing none :: below, .plain⟩
  | childrenHole {depth : Nat} {below : List Mode} {context : Context} (hc : c = '\x7b') :
      Moves jsx done c rest (.children depth :: below) context
        ⟨.code, false, .code 0 .container :: .children depth :: below, .plain⟩
  | tagOpens {depth : Nat} {below : List Mode} {context : Context} (hc : c = '<') :
      Moves jsx done c rest (.children depth :: below) context
        ⟨.markup, false, .tag depth (rest.head? == some '/') none :: below, .plain⟩
  | childrenGoOn {depth : Nat} {below : List Mode} {context : Context} (ho : c ≠ '\x7b')
      (hc : c ≠ '<') : Moves jsx done c rest (.children depth :: below) context
        ⟨.markup, false, .children depth :: below, .plain⟩

/-- Reading a character is one of these moves. -/
theorem move_spec (jsx : Bool) (done : List Slot) (modes : List Mode) (context : Context) (c : Char)
    (rest : Text) :
    Moves jsx done c rest modes context (State.move jsx ⟨done, modes, context⟩ c rest) := by
  cases modes with
  | nil => exact .ended context
  | cons mode below =>
    cases mode with
    | code braces hole =>
      cases context with
      | plain => exact .plain plainMove_spec
      | quoted quote =>
        simp only [State.move, quotedMove, beq_iff_eq]
        split_ifs with hslash hquote
        · exact .stringEscape hslash
        · exact hquote ▸ .stringCloses hslash
        · exact .stringGoesOn hslash hquote
      | lineComment =>
        simp only [State.move, lineCommentMove, beq_iff_eq]
        split_ifs with hfeed
        · exact .lineEnds hfeed
        · exact .lineGoesOn hfeed
      | blockComment =>
        simp only [State.move, blockCommentMove, Bool.and_eq_true, beq_iff_eq]
        split_ifs with hends
        · exact .commentCloses hends.1 hends.2
        · exact .commentGoesOn (not_and.mp hends)
    | template =>
      simp only [State.move, templateMove, Bool.and_eq_true, beq_iff_eq]
      split_ifs with hslash hhole htick
      · exact .templateEscape hslash
      · exact .templateHole hhole.1 hhole.2
      · exact .templateCloses htick
      · exact .templateGoesOn hslash htick (not_and.mp hhole)
    | tag depth closing quote =>
      cases quote with
      | some q => exact .value
      | none =>
        simp only [State.move, tagMove, Bool.and_eq_true, Bool.not_eq_true', beq_iff_eq]
        generalize hdepth : (if closing = true then depth - 1 else depth + 1) = n
        split_ifs with hquote hbrace hends hgt
        · exact .valueOpens hquote
        · exact .tagHole hbrace
        · obtain ⟨⟨hslash, rfl⟩, hnext⟩ := hends
          exact .elementCloses hslash hnext
        · exact hdepth ▸ .tagCloses hgt
        · refine .tagGoesOn (by simpa using hquote) hbrace hgt fun hslash hopen hnext => ?_
          exact hends ⟨⟨hslash, hopen⟩, hnext⟩
    | children depth =>
      simp only [State.move, childrenMove, beq_iff_eq]
      split_ifs with hbrace htag
      · exact .childrenHole hbrace
      · exact .tagOpens htag
      · exact .childrenGoOn hbrace htag

variable {jsx : Bool} {s : State}

/-- Code is read one character at a time. -/
theorem move_pair_of_code {c : Char} {rest : Text} (h : (s.move jsx c rest).kind = .code) :
    (s.move jsx c rest).pair = false := by
  obtain ⟨done, modes, context⟩ := s
  have hspec := move_spec jsx done modes context c rest
  generalize State.move jsx ⟨done, modes, context⟩ c rest = m at hspec h ⊢
  cases hspec with
  | plain hplain => cases hplain <;> first | rfl | cases h
  | _ => first | rfl | cases h

variable (hs : MarkupFree s.modes)
include hs

theorem move_markupFree {c : Char} {rest : Text} (h : (s.move jsx c rest).kind ≠ .markup) :
    MarkupFree (s.move jsx c rest).modes := by
  obtain ⟨done, modes, context⟩ := s
  have hspec := move_spec jsx done modes context c rest
  generalize State.move jsx ⟨done, modes, context⟩ c rest = m at hspec h ⊢
  cases hspec with
  | plain hplain => cases hplain <;> simp_all [markupFree_cons, Mode.isMarkup]
  | _ => simp_all [markupFree_cons, Mode.isMarkup]

theorem move_kind_of_not_jsx (c : Char) (rest : Text) : (s.move false c rest).kind ≠ .markup := by
  obtain ⟨done, modes, context⟩ := s
  have hspec := move_spec false done modes context c rest
  generalize State.move false ⟨done, modes, context⟩ c rest = m at hspec ⊢
  cases hspec with
  | plain hplain => cases hplain <;> simp_all
  | _ => simp_all [markupFree_cons, Mode.isMarkup]

theorem run_markupFree {t : Text} (h : ∀ p ∈ trace jsx s t, p.2 ≠ .markup) :
    MarkupFree (run jsx s t).modes := by
  induction s, t using scan_induction jsx with
  | nil s => simpa [run] using hs
  | move s c rest ih =>
    rw [trace_cons] at h
    rw [run_cons]
    refine ih (move_markupFree hs ?_) fun p hp => h p (by simp [hp])
    have hc : c ∈ (s.reads jsx c rest).1 := by
      cases rest with
      | nil => simp [State.reads]
      | cons d rest =>
        rw [State.reads]
        split <;> simp
    exact h (c, (s.move jsx c rest).kind) (List.mem_append_left _ (List.mem_map.mpr ⟨c, hc, rfl⟩))

/-- A scan without markup reads none. -/
theorem trace_kind_of_not_jsx {t : Text} : ∀ p ∈ trace false s t, p.2 ≠ .markup := by
  induction s, t using scan_induction false with
  | nil s => simp
  | move s c rest ih =>
    intro p hp
    have hkind := move_kind_of_not_jsx hs c rest
    rw [trace_cons] at hp
    rcases List.mem_append.mp hp with hp | hp
    · obtain ⟨d, -, rfl⟩ := List.mem_map.mp hp
      exact hkind
    · exact ih (move_markupFree hs hkind) p hp

end Kinds

section Comments

variable {k : Option Kind} {qs : Painted}

/-- The kind of the last byte read. -/
def State.lastKind (s : State) : Option Kind := s.done.head?.map Slot.kind

/-- Inside a comment, the last byte read is one of the comment. -/
def State.CommentRead (s : State) : Prop :=
  s.modes ≠ [] → s.context = .lineComment ∨ s.context = .blockComment →
    s.lastKind = some .comment

theorem lastKind_next (jsx : Bool) (s : State) (c : Char) (rest : Text) :
    (s.next jsx c rest).lastKind = some (s.move jsx c rest).kind := by
  have hlast : ∀ (k : Kind) (d : Char),
      ((Slot.ofChar k d).reverse.head?).map Slot.kind = some k := by
    intro k d
    rw [List.head?_reverse, Slot.ofChar, List.getLast?_cons]
    cases d.utf8Size - 1 with
    | zero => rfl
    | succ n => rw [List.replicate_succ', List.getLast?_concat]; rfl
  obtain ⟨init, d, hd⟩ : ∃ init d, (s.reads jsx c rest).1 = init ++ [d] := by
    rcases reads_cases jsx s c rest with h | ⟨d, tail, -, -, h⟩
    · exact ⟨[], c, by simp [h]⟩
    · exact ⟨[c], d, by simp [h]⟩
  simp only [State.lastKind, State.next, State.after, hd, List.flatMap_append,
    List.flatMap_singleton, List.reverse_append, List.append_assoc]
  rw [List.head?_append_of_ne_nil _ (by simp [Slot.ofChar]), hlast]

theorem commentRead_next (jsx : Bool) (s : State) (c : Char) (rest : Text) :
    (s.next jsx c rest).CommentRead := by
  intro hmodes h
  rw [lastKind_next]
  obtain ⟨done, modes, context⟩ := s
  simp only [State.next, State.after] at hmodes h
  have hspec := move_spec jsx done modes context c rest
  generalize State.move jsx ⟨done, modes, context⟩ c rest = m at hspec hmodes h ⊢
  cases hspec with
  | plain hplain => cases hplain <;> simp_all
  | _ => simp_all

/-- A move that reads a comment behind something else reads its first slash. -/
theorem move_comment_starts {jsx : Bool} {s : State} {c : Char} {rest : Text}
    (hs : s.CommentRead) (hlast : s.lastKind ≠ some .comment)
    (h : (s.move jsx c rest).kind = .comment) : c = '/' := by
  have hout : s.modes ≠ [] → s.context ≠ .lineComment ∧ s.context ≠ .blockComment := fun hne =>
    ⟨fun hcontext => hlast (hs hne (.inl hcontext)), fun hcontext => hlast (hs hne (.inr hcontext))⟩
  obtain ⟨done, modes, context⟩ := s
  have hspec := move_spec jsx done modes context c rest
  generalize State.move jsx ⟨done, modes, context⟩ c rest = m at hspec h
  cases hspec with
  | plain hplain => cases hplain <;> first | assumption | cases h
  | _ => simp_all

/-- Behind a byte of the kind `k`, every comment starts with a slash. -/
def CommentsOpen : Option Kind → List (Char × Kind) → Prop
  | _, [] => True
  | k, (c, l) :: ps => (l = .comment → k ≠ some .comment → c = '/') ∧ CommentsOpen (some l) ps

/-- In what a scan reads, every comment starts with a slash. -/
theorem trace_commentsOpen {jsx : Bool} {s : State} {t : Text} (hs : s.CommentRead) :
    CommentsOpen s.lastKind (trace jsx s t) := by
  induction s, t using scan_induction jsx with
  | nil s => simp [CommentsOpen]
  | move s c rest ih =>
    have hnext := ih (commentRead_next jsx s c rest)
    rw [lastKind_next] at hnext
    have hfirst : (s.move jsx c rest).kind = .comment → s.lastKind ≠ some .comment → c = '/' :=
      fun h hlast => move_comment_starts hs hlast h
    rw [trace_cons]
    rcases reads_cases jsx s c rest with h | ⟨d, tail, -, -, h⟩
    · rw [h] at hnext ⊢
      exact ⟨hfirst, hnext⟩
    · rw [h] at hnext ⊢
      exact ⟨hfirst, fun h' hne => absurd (congrArg some h') hne, hnext⟩

theorem CommentsOpen.left {rs : Painted} (h : CommentsOpen k (qs ++ rs)) : CommentsOpen k qs := by
  induction qs generalizing k with
  | nil => trivial
  | cons q qs ih => exact ⟨h.1, ih h.2⟩

theorem CommentsOpen.right {rs : Painted} (h : CommentsOpen k (qs ++ rs)) :
    CommentsOpen ((qs.getLast?.map Prod.snd).or k) rs := by
  induction qs generalizing k with
  | nil => exact h
  | cons q qs ih =>
    have hrest := ih h.2
    cases hlast : qs.getLast? with
    | none => simpa [List.getLast?_cons, hlast] using hrest
    | some p => simpa [List.getLast?_cons, hlast] using hrest

theorem CommentsOpen.slash {pre post : Painted} {c : Char}
    (h : CommentsOpen k (pre ++ (c, .comment) :: post))
    (hlast : (pre.getLast?.map Prod.snd).or k ≠ some .comment) : c = '/' := h.right.1 rfl hlast

theorem CommentsOpen.slash_mem (h : CommentsOpen k qs) (hk : k ≠ some .comment)
    (hq : ∃ q ∈ qs, q.2 = .comment) : '/' ∈ qs.map Prod.fst := by
  induction qs generalizing k with
  | nil => simp at hq
  | cons q qs ih =>
    by_cases hcomment : q.2 = .comment
    · rw [← h.1 hcomment hk]
      simp
    · refine List.mem_cons_of_mem _ (ih h.2 (by simpa using hcomment) ?_)
      obtain ⟨r, hr, hrc⟩ := hq
      rcases List.mem_cons.mp hr with rfl | hr
      · exact absurd hrc hcomment
      · exact ⟨r, hr, hrc⟩

end Comments

/-- Characters that are code wherever plain code is read: none that can open a string, a template
literal, a comment or an element, or close a hole. -/
def isPlainChar (c : Char) : Bool := !(['\x22', '\x27', '\x60', '/', '\x7d', '<'].contains c)

theorem isPlainChar_ne {c d : Char} (h : isPlainChar c) (hd : isPlainChar d = false) : c ≠ d :=
  fun heq => by
    rw [heq, hd] at h
    cases h

theorem isPlainChar_of_isIdentPart {c : Char} (h : Character.isIdentPart c) : isPlainChar c := by
  have hne : ∀ d, Character.isIdentPart d = false → c ≠ d := by
    rintro d hd rfl
    rw [h] at hd
    cases hd
  simp [isPlainChar, hne '\x22' rfl, hne '\x27' rfl, hne '\x60' rfl, hne '/' rfl, hne '\x7d' rfl,
    hne '<' rfl]

/-- The machine is in code, outside strings and comments. -/
def State.Plain (s : State) : Prop :=
  s.context = .plain ∧ ∃ braces hole below, s.modes = .code braces hole :: below

/-- The machine is in plain code, or has left every mode. -/
def State.InPlain (s : State) : Prop := s.modes = [] ∨ s.Plain

theorem move_plainChar {jsx : Bool} {s : State} {c : Char} {rest : Text} (hs : s.InPlain)
    (hc : isPlainChar c) : (s.move jsx c rest).kind = .code := by
  obtain ⟨done, modes, context⟩ := s
  rcases hs with rfl | ⟨rfl, braces, hole, below, rfl⟩
  · rfl
  · simp only [State.move]
    generalize hm : plainMove jsx done braces hole below c rest = m
    have hspec := hm ▸ plainMove_spec
    have hquote : isQuote c = false := by
      simp [isQuote, isPlainChar_ne hc (d := '\x22') rfl, isPlainChar_ne hc (d := '\x27') rfl]
    cases hspec with
    | stringOpens hq _ => simp [hquote] at hq
    | templateOpens h => exact absurd h (isPlainChar_ne hc rfl)
    | lineComment h _ => exact absurd h (isPlainChar_ne hc rfl)
    | blockComment h _ => exact absurd h (isPlainChar_ne hc rfl)
    | templateHoleCloses h _ _ => exact absurd h (isPlainChar_ne hc rfl)
    | elementOpens h _ _ => exact absurd h (isPlainChar_ne hc rfl)
    | _ => rfl

/-- Behind a character that was read as code, the machine is in plain code, unless the character
closed a hole. -/
theorem inPlain_next {jsx : Bool} {s : State} {c : Char} {rest : Text} (hc : c ≠ '\x7d')
    (h : (s.move jsx c rest).kind = .code) : (s.next jsx c rest).InPlain := by
  obtain ⟨done, modes, context⟩ := s
  simp only [State.next, State.after, State.InPlain, State.Plain]
  have hspec := move_spec jsx done modes context c rest
  generalize State.move jsx ⟨done, modes, context⟩ c rest = m at hspec h ⊢
  cases hspec with
  | ended context => exact .inl rfl
  | plain hplain => cases hplain <;> simp_all
  | _ => simp_all

/-- Behind code, such a character is code. -/
def CodeGoesOn (p q : Char × Kind) : Prop :=
  p.2 = .code → isPlainChar p.1 = true → isPlainChar q.1 = true → q.2 = .code

theorem trace_codeGoesOn (jsx : Bool) (s : State) (t : Text) : (trace jsx s t).IsChain CodeGoesOn ∧
      (s.InPlain → ∀ p ∈ (trace jsx s t).head?, isPlainChar p.1 → p.2 = .code) := by
  induction s, t using scan_induction jsx with
  | nil s => simp
  | move s c rest ih =>
    obtain ⟨hchain, hhead⟩ := ih
    rw [trace_cons]
    rcases reads_cases jsx s c rest with h | ⟨d, tail, -, hpair, h⟩
    · rw [h] at hchain hhead ⊢
      refine ⟨List.isChain_cons.mpr ⟨fun q hq hk hc => ?_, hchain⟩, ?_⟩
      · exact hhead (inPlain_next (isPlainChar_ne hc rfl) hk) q hq
      · intro hplain p hp hc
        obtain rfl : (c, (s.move jsx c rest).kind) = p := by simpa using hp
        exact move_plainChar hplain hc
    · -- Two characters are read together only outside code.
      have hk : (s.move jsx c rest).kind ≠ .code := fun hcode => by
        rw [move_pair_of_code hcode] at hpair
        cases hpair
      rw [h] at hchain ⊢
      refine ⟨?_, ?_⟩
      · refine List.isChain_cons.mpr ⟨fun q hq hcode => absurd hcode hk, ?_⟩
        exact List.isChain_cons.mpr ⟨fun q hq hcode => absurd hcode hk, hchain⟩
      · intro hplain p hp hc
        obtain rfl : (c, (s.move jsx c rest).kind) = p := by simpa using hp
        exact move_plainChar hplain hc

/-- Whether the text is scanned with markup: recognising it leaves no element open. -/
def withMarkup (t : Text) : Bool := (slots? true t).isSome

/-- The characters of a text with their kinds. -/
def kinds (t : Text) : List (Char × Kind) := trace (withMarkup t) .start t

theorem start_markupFree : MarkupFree State.start.modes := rfl

theorem start_commentRead : State.start.CommentRead := fun _ h => by
  rcases h with h | h <;> cases h

theorem slots?_eq_some {jsx : Bool} {t : Text} (h : MarkupFree (run jsx .start t).modes) :
    slots? jsx t = some (Slot.paint (trace jsx .start t)) := by
  have hdone : (run jsx .start t).done.reverse = Slot.paint (trace jsx .start t) := by
    rw [run_done]
    simp [State.start]
  unfold slots?
  simp only [hdone]
  rw [if_neg (by simpa [MarkupFree] using h)]

/-- Markup is recognised if doing so leaves no element open. -/
theorem withMarkup_iff {t : Text} : withMarkup t ↔ MarkupFree (run true .start t).modes := by
  constructor
  · intro h
    by_contra hopen
    simp only [MarkupFree, Bool.not_eq_false] at hopen
    rw [withMarkup, slots?, if_pos hopen] at h
    cases h
  · intro h
    rw [withMarkup, slots?_eq_some h]
    rfl

/-- The map of a text is the layout of its characters with their kinds. -/
theorem ofText_shows (t : Text) : (CodeMap.ofText t).Shows (kinds t) := by
  unfold CodeMap.Shows CodeMap.ofText kinds withMarkup
  cases h : slots? true t with
  | some slots =>
    have hfree := withMarkup_iff.mp (show withMarkup t = true by rw [withMarkup, h]; rfl)
    rw [slots?_eq_some hfree] at h
    cases h
    rfl
  | none =>
    rw [slots?_eq_some (run_markupFree start_markupFree (trace_kind_of_not_jsx start_markupFree))]
    rfl

@[simp] theorem kinds_chars (t : Text) : (kinds t).map Prod.fst = t := trace_chars _ _ _

theorem ofText_comment_starts {t : Text} {i : Nat} {s : Slot}
    (hs : (CodeMap.ofText t).slots[i]? = some s) (hk : s.kind = .comment)
    (hbefore : ∀ j s', i = j + 1 → (CodeMap.ofText t).slots[j]? = some s' → s'.kind ≠ .comment) :
    s.char? = some '/' := by
  have hm := ofText_shows t
  obtain ⟨char, kind⟩ := s
  subst hk
  cases char with
  | none =>
    obtain ⟨j, s', hj, hs', hkind, -⟩ := CodeMap.slot_before hm hs
    exact absurd hkind (hbefore j s' hj hs')
  | some c =>
    obtain ⟨pre, post, hps, hi⟩ := (CodeMap.slot_iff hm).mp hs
    have hopen : CommentsOpen none (pre ++ (c, .comment) :: post) := by
      rw [← hps]
      exact trace_commentsOpen start_commentRead
    refine congrArg some (hopen.slash ?_)
    rcases List.eq_nil_or_concat pre with rfl | ⟨init, ⟨d, l⟩, rfl⟩
    · simp
    · -- The last byte of the character before has the kind of that character.
      have hd := d.utf8Size_pos
      have hps' : kinds t = init ++ (d, l) :: (c, .comment) :: post := by simp [hps]
      have hwidth : i = Slot.width init + d.utf8Size := by
        rw [← hi]
        simp
      obtain ⟨s', hs', rfl⟩ := CodeMap.slots_last hm hps' (show i - 1 + 1 = _ by omega)
      simpa using hbefore (i - 1) s' (by omega) hs'

/-- Code goes on as code up to a character that opens something else. -/
theorem ofText_code_next {t : Text} {i : Nat} {c d : Char}
    (hc : (CodeMap.ofText t).slots[i]? = some ⟨some c, .code⟩) (hcw : isPlainChar c)
    (hd : (CodeMap.ofText t).charAt? (i + c.utf8Size) = some d) (hdw : isPlainChar d) :
    (CodeMap.ofText t).slots[i + c.utf8Size]? = some ⟨some d, .code⟩ := by
  have hm := ofText_shows t
  obtain ⟨pre, post, hps, rfl⟩ := (CodeMap.slot_iff hm).mp hc
  obtain ⟨before, k, after, hps', hwidth⟩ := (CodeMap.charAt?_iff hm).mp hd
  have hsplit : (pre ++ [(c, .code)]) ++ post = before ++ ((d, k) :: after) := by
    rw [← hps', hps]
    simp
  obtain ⟨rfl, rfl⟩ : pre ++ [(c, .code)] = before ∧ post = (d, k) :: after := by
    refine Slot.append_inj_of_width hsplit ?_
    rw [hwidth]
    simp
  have hchain := (trace_codeGoesOn (withMarkup t) .start t).1
  change (kinds t).IsChain CodeGoesOn at hchain
  rw [hps] at hchain
  have hnext := (List.isChain_append.mp hchain).2.1
  obtain rfl : k = .code := (List.isChain_cons.mp hnext).1 (d, k) (by simp) rfl hcw hdw
  rw [← hwidth]
  exact (CodeMap.slot_iff hm).mpr ⟨_, _, hps', rfl⟩

end Scan

end Declass
