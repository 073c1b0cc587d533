import Declass.Proofs.Concatenation
import Declass.Proofs.Places

/-!
# Blanking comments

**Input.** A text, and the same text with each byte of a comment replaced by a space, line feeds
apart.

**Algorithm.** The scanning machine runs over both texts side by side.  Where the one is inside a
comment the other is in plain code, and otherwise they are in the same state.  What the machine
decides by looking further than one character comes out the same: a comment never stands between a
quote and the quote that closes it, and neither the word before a `<` nor the character behind one
changes when a comment next to it turns into layout.

**Results.**
* `run_blanked`: the two machines stay side by side.
* `kinds_blankComments`: the text without comments is read as the text with them, comments apart,
  provided that recognising markup does not leave an element open in the second text alone.
-/

namespace Declass

namespace Slot

/-- What takes the place of a byte of a comment. -/
def filler (c : Char) : Char := if c = '\n' then '\n' else ' '

/-- The byte, or layout if it belongs to a comment. -/
def blank (s : Slot) : Slot :=
  if s.kind = .comment then ⟨some (s.char?.elim ' ' filler), .code⟩ else s

/-- The character, or layout of the same width if it belongs to a comment. -/
def blankChar (p : Char × Kind) : List (Char × Kind) :=
  if p.2 = .comment then (Text.asCode (List.replicate p.1.utf8Size (filler p.1))) else [p]

/-- The characters with layout in place of the comments. -/
def blanked (ps : List (Char × Kind)) : List (Char × Kind) := ps.flatMap blankChar

section Blanks

variable {c : Char} {k : Kind} {ps : Painted}

theorem filler_cases (c : Char) : filler c = ' ' ∨ filler c = '\n' := by
  unfold filler
  split
  · exact .inr rfl
  · exact .inl rfl

@[simp] theorem blanked_nil : blanked [] = [] := rfl

@[simp] theorem blanked_cons (p : Char × Kind) (ps : Painted) :
    blanked (p :: ps) = blankChar p ++ blanked ps := rfl

@[simp] theorem blanked_append (ps qs : Painted) :
    blanked (ps ++ qs) = blanked ps ++ blanked qs := List.flatMap_append

theorem blankChar_of_ne (h : k ≠ .comment) : blankChar (c, k) = [(c, k)] := if_neg h

theorem blankChar_comment (c : Char) :
    blankChar (c, .comment) = Text.asCode (List.replicate c.utf8Size (filler c)) := if_pos rfl

theorem blank_of_ne {s : Slot} (h : s.kind ≠ .comment) : s.blank = s := if_neg h

theorem blank_comment (char : Option Char) :
    blank ⟨char, .comment⟩ = ⟨some (char.elim ' ' filler), .code⟩ := if_pos rfl

theorem utf8Size_filler (c : Char) : (filler c).utf8Size = 1 := by
  rcases filler_cases c with h | h <;> rw [h] <;> rfl

theorem paint_replicate (n : Nat) (c : Char) (hc : c.utf8Size = 1) :
    paint (Text.asCode (List.replicate n c)) = List.replicate n ⟨some c, .code⟩ := by
  induction n with
  | zero => rfl
  | succ n ih => simp [List.replicate_succ, ih, ofChar, hc]

theorem kind_of_mem_ofChar {s : Slot} (h : s ∈ ofChar k c) : s.kind = k := by
  rw [ofChar, List.mem_cons, List.mem_replicate] at h
  rcases h with rfl | ⟨-, rfl⟩ <;> rfl

theorem map_blank_ofChar (c : Char) (k : Kind) :
    (ofChar k c).map blank = paint (blankChar (c, k)) := by
  by_cases hk : k = .comment
  · subst hk
    rw [blankChar_comment, paint_replicate _ _ (utf8Size_filler c), ofChar, List.map_cons,
      List.map_replicate, blank_comment, blank_comment]
    by_cases hc : c = '\n'
    · subst hc
      rfl
    · have hpos := c.utf8Size_pos
      obtain ⟨n, hn⟩ : ∃ n, c.utf8Size = n + 1 := ⟨c.utf8Size - 1, by omega⟩
      simp [filler, hc, hn, List.replicate_succ]
  · rw [blankChar_of_ne hk, paint_cons, paint_nil, List.append_nil]
    conv_rhs => rw [← List.map_id (ofChar k c)]
    refine List.map_congr_left fun s hs => blank_of_ne ?_
    rwa [kind_of_mem_ofChar hs]

theorem paint_blanked (ps : Painted) : paint (blanked ps) = (paint ps).map blank := by
  induction ps with
  | nil => rfl
  | cons p ps ih =>
    rw [blanked_cons, paint_append, paint_cons, List.map_append, ih, map_blank_ofChar]

@[simp] theorem width_blanked (ps : Painted) : width (blanked ps) = width ps := by
  rw [← length_paint, paint_blanked, List.length_map, length_paint]

theorem blanked_of_not_comment (h : ∀ p ∈ ps, p.2 ≠ .comment) : blanked ps = ps := by
  induction ps with
  | nil => rfl
  | cons p ps ih =>
    rw [blanked_cons, blankChar_of_ne (h p (by simp)), ih fun q hq => h q (by simp [hq])]
    rfl

end Blanks

end Slot

open Slot (blanked blankChar filler)

namespace Scan

section Comments

variable {jsx : Bool} {s : State} {c : Char} {rest t : Text}

/-- The context outside comments. -/
def Context.blank : Context → Context
  | .lineComment => .plain
  | .blockComment => .plain
  | context => context

/-- The machine as it is when the comments it has read are blanked. -/
def State.blank (s : State) : State := ⟨s.done.map Slot.blank, s.modes, s.context.blank⟩

/-- A move that reads a comment stays in the code around it. -/
structure State.Comments (s : State) (m : Move) (rest : Text) : Prop where
  code : ∃ braces hole below, s.modes = .code braces hole :: below
  before : s.context.blank = .plain
  modes : m.modes = s.modes
  after : m.context = .lineComment ∨ m.context = .blockComment ∨
    m.context = .plain ∧ m.pair = true ∧ rest.head? = some '/'

theorem comments_of_move (h : (s.move jsx c rest).kind = .comment) :
    s.Comments (s.move jsx c rest) rest := by
  obtain ⟨done, modes, context⟩ := s
  have hspec := move_spec jsx done modes context c rest
  generalize State.move jsx ⟨done, modes, context⟩ c rest = m at hspec h ⊢
  cases hspec with
  | plain hplain =>
    cases hplain with
    | lineComment _ _ => exact ⟨⟨_, _, _, rfl⟩, rfl, rfl, .inl rfl⟩
    | blockComment _ _ => exact ⟨⟨_, _, _, rfl⟩, rfl, rfl, .inr (.inl rfl)⟩
    | _ => cases h
  | lineGoesOn _ => exact ⟨⟨_, _, _, rfl⟩, rfl, rfl, .inl rfl⟩
  | commentCloses _ hend => exact ⟨⟨_, _, _, rfl⟩, rfl, rfl, .inr (.inr ⟨rfl, rfl, hend⟩)⟩
  | commentGoesOn _ => exact ⟨⟨_, _, _, rfl⟩, rfl, rfl, .inr (.inl rfl)⟩
  | _ => cases h

/-- A comment ends with a slash or before a line feed. -/
def CommentsClose (p q : Char × Kind) : Prop :=
  p.2 = .comment → q.2 ≠ .comment → p.1 = '/' ∨ q.1 = '\n'

/-- What is read behind a comment, where the last character of it is `b`. -/
theorem commentsClose_next {b : Char} (h : (s.move jsx c rest).kind = .comment)
    (hb : (s.reads jsx c rest).1.getLast? = some b) :
    ∀ q ∈ (trace jsx (s.next jsx c rest) (s.reads jsx c rest).2).head?,
      q.2 ≠ .comment → b = '/' ∨ q.1 = '\n' := by
  obtain ⟨⟨braces, hole, below, hcode⟩, -, hmodes, hafter⟩ := comments_of_move h
  cases htail : (s.reads jsx c rest).2 with
  | nil => simp
  | cons d tail =>
    obtain ⟨ps, hps⟩ := trace_head jsx (s.next jsx c rest) d tail
    rw [hps]
    rintro q hq hne
    obtain rfl : _ = q := by simpa using hq
    rw [State.next, State.after, State.move, hmodes, hcode] at hne
    rcases hafter with hcontext | hcontext | ⟨-, hpair, hhead⟩
    · rw [hcontext] at hne
      simp only [lineCommentMove] at hne
      split_ifs at hne with hd
      · exact .inr (by simpa using hd)
      · exact absurd rfl hne
    · rw [hcontext] at hne
      simp only [blockCommentMove] at hne
      split_ifs at hne <;> exact absurd rfl hne
    · cases rest with
      | nil => cases hhead
      | cons e rest =>
        obtain rfl : e = '/' := by simpa using hhead
        rw [reads_of_pair hpair] at hb
        exact .inl (by simpa using hb.symm)

theorem trace_commentsClose (jsx : Bool) (s : State) (t : Text) :
    (trace jsx s t).IsChain CommentsClose := by
  induction s, t using scan_induction jsx with
  | nil s => simp
  | move s c rest ih =>
    have hnext := @commentsClose_next jsx s c rest
    rw [trace_cons]
    rcases reads_cases jsx s c rest with h | ⟨d, tail, -, -, h⟩
    · rw [h] at ih hnext ⊢
      exact List.isChain_cons.mpr ⟨fun q hq hk => hnext hk rfl q hq, ih⟩
    · rw [h] at ih hnext ⊢
      refine List.isChain_cons.mpr
        ⟨?_, List.isChain_cons.mpr ⟨fun q hq hk => hnext hk rfl q hq, ih⟩⟩
      intro q hq hk hne
      obtain rfl : _ = q := by simpa using hq
      exact absurd hk hne

end Comments

section Strings

variable {jsx : Bool} {s : State} {q : Char} {t : Text}

theorem isQuote_ne {c : Char} (hq : isQuote q) (hc : isQuote c = false) : c ≠ q := by
  rintro rfl
  rw [hq] at hc
  cases hc

theorem stringCloses_spaces (hq : isQuote q) (n : Nat) (u : Text) :
    stringCloses q (List.replicate n ' ' ++ u) = stringCloses q u := by
  have hspace : ' ' ≠ q := isQuote_ne hq rfl
  induction n with
  | zero => rfl
  | succ n ih =>
    rw [List.replicate_succ, List.cons_append, stringCloses_cons (by decide), ih]
    simp [hspace]

theorem stringCloses_comment (hq : isQuote q) {c : Char} (hc : c ≠ '\n') (ps : Painted) :
    stringCloses q ((blanked ((c, .comment) :: ps)).map Prod.fst) =
      stringCloses q ((blanked ps).map Prod.fst) := by
  rw [Slot.blanked_cons, Slot.blankChar_comment, List.map_append, Text.map_fst_asCode, filler,
    if_neg hc, stringCloses_spaces hq]

/-- Where the line ends before a string would, it does so without the comments. -/
theorem stringCloses_blanked (hq : isQuote q) : ∀ {ps : Painted}
    {k : Option Kind}, CommentsOpen k ps → ps.IsChain CommentsClose →
    stringCloses q (ps.map Prod.fst) = false → stringCloses q ((blanked ps).map Prod.fst) = false
  | [], _, _, _, h => by simp [stringCloses] at h
  | [(c, k)], _, _, _, h => by
      have hnewline : c = '\n' := by
        by_contra hc
        by_cases hb : c = '\\'
        · subst hb
          simp [stringCloses] at h
        · simp [stringCloses_cons hb, hc, stringCloses] at h
      subst hnewline
      by_cases hk : k = .comment
      · subst hk
        rfl
      · rw [Slot.blanked_cons, Slot.blankChar_of_ne hk]
        rfl
  | (c, k) :: (d, l) :: ps, _, hopen, hchain, h => by
      have hrest := (List.isChain_cons.mp hchain).2
      by_cases hb : c = '\\'
      · subst hb
        have htail : stringCloses q ((blanked ps).map Prod.fst) = false :=
          stringCloses_blanked hq hopen.2.2 (List.isChain_cons.mp hrest).2 h
        by_cases hk : k = .comment
        · -- The backslash is gone, so a line feed behind it now ends the line.
          subst hk
          rw [stringCloses_comment hq (by decide)]
          by_cases hd : d = '\n'
          · subst hd
            by_cases hl : l = .comment
            · subst hl
              rfl
            · rw [Slot.blanked_cons, Slot.blankChar_of_ne hl]
              rfl
          · have hl : l = .comment := by
              by_contra hl
              rcases (List.isChain_cons.mp hchain).1 (d, l) rfl rfl hl with h | h
              · cases h
              · exact hd h
            subst hl
            rw [stringCloses_comment hq hd, htail]
        · -- A comment behind the backslash starts with a slash, which is one byte.
          rw [Slot.blanked_cons, Slot.blankChar_of_ne hk, Slot.blanked_cons]
          by_cases hl : l = .comment
          · subst hl
            obtain rfl := hopen.2.1 rfl (by simpa using hk)
            exact htail
          · rw [Slot.blankChar_of_ne hl]
            exact htail
      · rw [List.map_cons, stringCloses_cons hb] at h
        by_cases hc : c = '\n'
        · subst hc
          by_cases hk : k = .comment
          · subst hk
            rfl
          · rw [Slot.blanked_cons, Slot.blankChar_of_ne hk]
            rfl
        · have hcq : c ≠ q := by
            rintro rfl
            simp [hc] at h
          have htail := stringCloses_blanked hq hopen.2 hrest (by simpa [hc, hcq] using h)
          by_cases hk : k = .comment
          · subst hk
            rw [stringCloses_comment hq hc, htail]
          · rw [Slot.blanked_cons, Slot.blankChar_of_ne hk, List.singleton_append, List.map_cons,
              stringCloses_cons hb]
            simpa [hc, hcq] using htail

theorem State.InString.next {c : Char} (hs : s.InString q) (hc : c = '\\' ∨ c ≠ q) (rest : Text) :
    (s.next jsx c rest).InString q := by
  rw [State.next, move_of_inString hs, quotedMove]
  by_cases hb : c = '\\'
  · subst hb
    exact ⟨rfl, hs.2⟩
  · rw [if_neg (by simpa using hb), if_neg (by simpa using hc.resolve_left hb)]
    exact ⟨rfl, hs.2⟩

/-- A string that the machine is in closes without the comments behind it. -/
theorem InString.stringCloses_blanked (hs : s.InString q) (h : stringCloses q t) :
    stringCloses q ((blanked (trace jsx s t)).map Prod.fst) := by
  induction s, t using scan_induction jsx with
  | nil s => simp [stringCloses]
  | move s c rest ih =>
    have hmove : s.move jsx c rest = quotedMove q s.modes c := move_of_inString hs rest
    have hkind : (s.move jsx c rest).kind = .literal := by
      rw [hmove, quotedMove]
      split <;> rfl
    have hne : (s.move jsx c rest).kind ≠ .comment := by simp [hkind]
    rw [trace_cons, Slot.blanked_append, Slot.blanked_of_not_comment (by simp [hne]),
      List.map_append, List.map_map, Function.comp_def, List.map_id']
    by_cases hb : c = '\\'
    · subst hb
      rcases reads_cases jsx s '\\' rest with hreads | ⟨d, tail, rfl, -, hreads⟩
      · cases rest with
        | nil =>
          rw [hreads]
          simp [stringCloses]
        | cons d rest =>
          rw [reads_of_pair (by rw [hmove]; rfl)] at hreads
          simp at hreads
      · rw [hreads] at ih ⊢
        exact ih (hs.next (.inl rfl) _) h
    · have hreads : s.reads jsx c rest = ([c], rest) :=
        reads_single (by simp [hmove, quotedMove, hb])
      rw [hreads] at ih ⊢
      rw [stringCloses_cons hb] at h
      rw [List.singleton_append, stringCloses_cons hb]
      split_ifs at h ⊢ with hc hcq
      · rfl
      · exact ih (hs.next (.inr (by simpa using hcq)) _) h

end Strings

section Words

/-- Before a word character that is no comment, a comment ends with none. -/
def Parted (r s : Slot) : Prop :=
  r.kind = .comment → s.kind ≠ .comment → s.isAsciiIdent = true → r.isAsciiIdent = false

theorem isAsciiIdent_blank {s : Slot} (h : s.kind = .comment) : s.blank.isAsciiIdent = false := by
  obtain ⟨char, kind⟩ := s
  subst h
  rw [Slot.blank_comment]
  cases char with
  | none => rfl
  | some c =>
    simp only [Slot.isAsciiIdent, Option.elim_some, Option.any_some]
    rcases Slot.filler_cases c with h | h <;> rw [h] <;> rfl

theorem isLayout_blank {s : Slot} (h : s.kind = .comment) : s.blank.isLayout := by
  obtain ⟨char, kind⟩ := s
  subst h
  rw [Slot.blank_comment]
  cases char with
  | none => rfl
  | some c =>
    simp only [Slot.isLayout, Option.elim_some, Option.any_some]
    rcases Slot.filler_cases c with h | h <;> rw [h] <;> rfl

theorem paint_parted {ps : Painted} (h : ps.IsChain CommentsClose) :
    (Slot.paint ps).IsChain Parted := by
  induction ps with
  | nil => exact .nil
  | cons p ps ih =>
    obtain ⟨c, k⟩ := p
    obtain ⟨hfirst, hrest⟩ := List.isChain_cons.mp h
    refine List.isChain_append.mpr ⟨?_, ih hrest, ?_⟩
    · refine (List.pairwise_of_forall_mem_list fun r hr s hs hcomment hne => ?_).isChain
      rw [Slot.kind_of_mem_ofChar hr] at hcomment
      rw [Slot.kind_of_mem_ofChar hs] at hne
      exact absurd hcomment hne
    · intro r hr s hs hcomment hne hword
      obtain rfl : k = .comment := by
        rw [← hcomment, Slot.kind_of_mem_ofChar (List.mem_of_getLast? hr)]
      cases ps with
      | nil => simp at hs
      | cons q ps =>
        obtain rfl : _ = s := by simpa [Slot.ofChar] using hs
        rcases hfirst q rfl rfl hne with hc | hq
        · -- The last byte of a comment before anything but a line feed is its slash.
          subst hc
          obtain rfl : (⟨some '/', .comment⟩ : Slot) = r := Option.some.inj hr
          rfl
        · rw [hq] at hword
          cases hword

variable {l : List Slot}

/-- The word that the bytes, last one first, end with is the same without the comments. -/
theorem takeWhile_blank (hl : l.IsChain fun s r => Parted r s)
    (hhead : ∀ s ∈ l.head?, s.kind = .comment → s.isAsciiIdent = false) :
    (l.map Slot.blank).takeWhile Slot.isAsciiIdent = l.takeWhile Slot.isAsciiIdent := by
  induction l with
  | nil => rfl
  | cons s l ih =>
    obtain ⟨hfirst, hrest⟩ := List.isChain_cons.mp hl
    rw [List.map_cons, List.takeWhile_cons, List.takeWhile_cons]
    by_cases hk : s.kind = .comment
    · rw [isAsciiIdent_blank hk, hhead s rfl hk]
      rfl
    · rw [Slot.blank_of_ne hk]
      by_cases hs : s.isAsciiIdent = true
      · rw [ih hrest fun r hr hcomment => hfirst r hr hcomment hk hs]
      · simp [hs]

/-- Whether an expression can begin behind the bytes does not depend on the comments. -/
theorem begins_blank (hl : l.IsChain fun s r => Parted r s) :
    begins (l.map Slot.blank) = begins l := by
  induction l with
  | nil => rfl
  | cons s l ih =>
    have hrest := (List.isChain_cons.mp hl).2
    by_cases hs : (s.kind == .comment || s.isLayout) = true
    · have hblank : (s.blank.kind == .comment || s.blank.isLayout) := by
        by_cases hk : s.kind = .comment
        · rw [isLayout_blank hk, Bool.or_true]
        · rwa [Slot.blank_of_ne hk]
      rw [List.map_cons, begins_cons hblank, begins_cons hs, ih hrest]
    · have hk : s.kind ≠ .comment := fun hk => hs (by simp [hk])
      have htake := takeWhile_blank hl fun r hr hcomment => by
        obtain rfl : s = r := by simpa using hr
        exact absurd hcomment hk
      rw [List.map_cons, Slot.blank_of_ne hk] at htake ⊢
      have hdrop : ∀ before, (s :: before).dropWhile (fun s => s.kind == .comment || s.isLayout) =
          s :: before := fun _ => List.dropWhile_cons_of_neg hs
      rw [begins, begins, hdrop, hdrop]
      simp only [htake]

end Words

section Steps

variable {jsx : Bool} {s : State} {done done' : List Slot} {braces : Nat} {hole : Hole}
  {below : List Mode} {c : Char} {rest rest' : Text}

/-- The character behind a move, and the one that takes its place when comments are blanked: they
are the same, or a comment of code starts there. -/
def Ahead (modes : List Mode) (rest rest' : Text) : Prop :=
  rest'.head? = rest.head? ∨ rest.head? = some '/' ∧ rest'.head? = some ' ' ∧
    ∃ braces hole below, modes = .code braces hole :: below

/-- Outside comments, the machine makes the same move if the comments are blanked. -/
theorem move_blank (hroot : s.modes ≠ []) (hkind : (s.move jsx c rest).kind ≠ .comment)
    (hahead : Ahead (s.move jsx c rest).modes rest rest')
    (hquote : s.Plain → isQuote c → stringCloses c rest = stringCloses c rest')
    (hbegins : begins (s.done.map Slot.blank) = begins s.done) :
    s.blank.move jsx c rest' = s.move jsx c rest ∧
      (s.move jsx c rest).context.blank = (s.move jsx c rest).context := by
  have hdec : s.Plain → Decided jsx jsx s.done (s.done.map Slot.blank) c rest rest' := by
    refine fun hplain => ⟨hquote hplain, fun _ => ?_⟩
    rw [opensElement_eq, opensElement_eq, hbegins]
    rcases hahead with h | ⟨h, h', -⟩
    · rw [h]
    · rw [h, h']
      rfl
  obtain ⟨done, modes, context⟩ := s
  have hspec := move_spec jsx done modes context c rest
  generalize hm : State.move jsx ⟨done, modes, context⟩ c rest = m at hspec hkind hahead ⊢
  have hasks : ∀ d ∈ State.asks ⟨done, modes, context⟩ c,
      (rest'.head? == some d) = (rest.head? == some d) := by
    intro d hd
    rcases hahead with h | ⟨h, h', braces, hole, below, hmodes⟩
    · rw [h]
    · -- A slash that is asked for makes a comment or a tag.
      have hslash : d ≠ '/' := by
        cases hspec with
        | plain hplain => cases hplain <;> simp_all [State.asks, isQuote]
        | _ => grind [State.asks]
      have hmem := mem_of_asks hd
      simp only [List.mem_cons, List.not_mem_nil, or_false] at hmem
      rcases hmem with rfl | rfl | rfl | rfl <;> simp_all
  have hcongr : State.move jsx ⟨done.map Slot.blank, modes, context⟩ c rest' = m :=
    (move_congr hdec hasks).trans hm
  cases hspec with
  | ended => exact absurd rfl hroot
  | plain hplain =>
    refine ⟨hcongr, ?_⟩
    cases hplain <;> first | rfl | exact absurd rfl hkind
  | lineEnds hc =>
    -- The line feed that ends the comment is read as in plain code.
    subst hc
    exact ⟨by simp [State.move, State.blank, Context.blank, plainMove, isQuote], rfl⟩
  | _ => first | exact absurd rfl hkind | exact ⟨hcongr, rfl⟩

end Steps

section Runs

variable {jsx : Bool} {s : State} {c : Char} {rest t : Text}

theorem run_layout {g : Text} (hs : s.Plain) (hg : ∀ c ∈ g, c = ' ' ∨ c = '\n') (v : Text) :
    run jsx s (g ++ v) = run jsx ⟨(Slot.paint g.asCode).reverse ++ s.done, s.modes, .plain⟩ v := by
  obtain ⟨done, modes, context⟩ := s
  obtain ⟨hcontext, braces, hole, below, hmodes⟩ := hs
  subst hcontext hmodes
  induction g generalizing done with
  | nil => rfl
  | cons c g ih =>
    obtain ⟨hc, hg⟩ := List.forall_mem_cons.mp hg
    have hmove : ∀ rest, State.move jsx ⟨done, .code braces hole :: below, .plain⟩ c rest =
        ⟨.code, false, .code braces hole :: below, .plain⟩ := by
      rcases hc with rfl | rfl <;> simp [State.move, plainMove, isQuote]
    have hreads : State.reads jsx ⟨done, .code braces hole :: below, .plain⟩ c (g ++ v) =
        ([c], g ++ v) := reads_single (by rw [hmove])
    rw [List.cons_append, run_cons, State.next, hreads, hmove, State.after, ih hg]
    simp

theorem ahead_next (hkind : (s.move jsx c rest).kind ≠ .comment) :
    Ahead (s.move jsx c rest).modes (s.reads jsx c rest).2
      ((blanked (trace jsx (s.next jsx c rest) (s.reads jsx c rest).2)).map Prod.fst) := by
  cases (s.reads jsx c rest).2 with
  | nil => exact .inl rfl
  | cons d tail =>
    obtain ⟨ps, hps⟩ := trace_head jsx (s.next jsx c rest) d tail
    rw [hps, Slot.blanked_cons]
    by_cases hd : ((s.next jsx c rest).move jsx d tail).kind = .comment
    · -- A comment behind something else starts with its slash.
      obtain rfl := move_comment_starts (commentRead_next jsx s c rest)
        (by rw [lastKind_next]; simpa using hkind) hd
      rw [hd]
      exact .inr ⟨rfl, rfl, (comments_of_move hd).code⟩
    · rw [Slot.blankChar_of_ne hd]
      exact .inl rfl

theorem pair_of_quote (hs : s.Plain) (hq : isQuote c) : (s.move jsx c rest).pair = false := by
  obtain ⟨hcontext, braces, hole, below, hmodes⟩ := hs
  rw [State.move, hcontext, hmodes]
  simp only [plainMove, if_pos hq]
  split <;> rfl

/-- A quote opens a string with the comments behind it blanked if it does with them. -/
theorem stringCloses_ahead (hs : s.Plain) (hq : isQuote c) : stringCloses c rest =
      stringCloses c ((blanked (trace jsx (s.next jsx c rest) rest)).map Prod.fst) := by
  obtain ⟨hcontext, braces, hole, below, hmodes⟩ := hs
  cases hcloses : stringCloses c rest with
  | false =>
    refine (stringCloses_blanked hq (trace_commentsOpen (commentRead_next jsx s c rest))
      (trace_commentsClose _ _ _) ?_).symm
    rwa [trace_chars]
  | true =>
    refine (InString.stringCloses_blanked ?_ hcloses).symm
    have hmove : s.move jsx c rest = ⟨.literal, false, s.modes, .quoted c⟩ := by
      rw [State.move, hcontext, hmodes]
      simp [plainMove, hq, hcloses]
    rw [State.next, hmove]
    exact ⟨rfl, _, _, _, hmodes⟩

theorem map_blank_done (s : State) (c : Char) (rest : Text) :
    (s.next jsx c rest).done.map Slot.blank =
      (Slot.paint (blanked ((s.reads jsx c rest).1.map fun d =>
        (d, (s.move jsx c rest).kind)))).reverse ++ s.done.map Slot.blank := by
  rw [State.next, State.after, flatMap_ofChar, List.map_append, List.map_reverse,
    Slot.paint_blanked]

/-- A move outside comments, made by the machine that sees them blanked. -/
theorem reads_blank (hmodes : s.modes ≠ []) (hkind : (s.move jsx c rest).kind ≠ .comment)
    (hbegins : begins (s.done.map Slot.blank) = begins s.done) : ∃ rest', (s.reads jsx c rest).1 ++
          (blanked (trace jsx (s.next jsx c rest) (s.reads jsx c rest).2)).map Prod.fst = c :: rest' ∧
      s.blank.next jsx c rest' = (s.next jsx c rest).blank ∧ (s.blank.reads jsx c rest').2 =
        (blanked (trace jsx (s.next jsx c rest) (s.reads jsx c rest).2)).map Prod.fst := by
  have hnext : ∀ rest', s.blank.move jsx c rest' = s.move jsx c rest →
      (s.move jsx c rest).context.blank = (s.move jsx c rest).context →
      (s.blank.reads jsx c rest').1 = (s.reads jsx c rest).1 →
      s.blank.next jsx c rest' = (s.next jsx c rest).blank := by
    intro rest' hmove hcontext hreads
    have hblank : (s.next jsx c rest).blank = ⟨(s.next jsx c rest).done.map Slot.blank,
        (s.move jsx c rest).modes, (s.move jsx c rest).context.blank⟩ := rfl
    rw [hblank, map_blank_done, Slot.blanked_of_not_comment (by simp [hkind]), State.next, hmove,
      hreads, State.after, flatMap_ofChar, hcontext]
    rfl
  rcases reads_cases jsx s c rest with h | ⟨d, tail, rfl, hpair, h⟩
  · have hahead := ahead_next hkind
    rw [h] at hahead hnext ⊢
    generalize hv : (blanked (trace jsx (s.next jsx c rest) rest)).map Prod.fst = v at hahead ⊢
    obtain ⟨hmove, hcontext⟩ := move_blank hmodes hkind hahead
      (fun hplain hq => by rw [stringCloses_ahead hplain hq, hv]) hbegins
    have hreads : s.blank.reads jsx c v = ([c], v) := by
      cases v with
      | nil => rfl
      | cons e v =>
        refine reads_single ?_
        rw [hmove]
        cases rest with
        | nil => simp at hv
        | cons d rest =>
          by_contra hpair
          rw [reads_of_pair (by simpa using hpair)] at h
          simp at h
    refine ⟨v, rfl, hnext v hmove hcontext ?_, ?_⟩ <;> rw [hreads]
  · rw [h] at hnext ⊢
    generalize (blanked (trace jsx (s.next jsx c (d :: tail)) tail)).map Prod.fst = v
    have hahead : Ahead (s.move jsx c (d :: tail)).modes (d :: tail) (d :: v) := .inl rfl
    obtain ⟨hmove, hcontext⟩ := move_blank hmodes hkind hahead
      (fun hplain hq => by rw [pair_of_quote hplain hq] at hpair; cases hpair) hbegins
    have hreads : s.blank.reads jsx c (d :: v) = ([c, d], v) := reads_of_pair (by rw [hmove, hpair])
    refine ⟨d :: v, rfl, hnext _ hmove hcontext ?_, ?_⟩ <;> rw [hreads]

theorem blanked_comment (cs : Text) : ∃ g : Text, (∀ c ∈ g, c = ' ' ∨ c = '\n') ∧
    blanked (cs.map fun d => (d, .comment)) = g.asCode := by
  induction cs with
  | nil => exact ⟨[], by simp, rfl⟩
  | cons c cs ih =>
    obtain ⟨g, hg, hblank⟩ := ih
    refine ⟨List.replicate c.utf8Size (filler c) ++ g, ?_, ?_⟩
    · intro d hd
      rcases List.mem_append.mp hd with hd | hd
      · rw [(List.mem_replicate.mp hd).2]
        exact Slot.filler_cases c
      · exact hg d hd
    · rw [List.map_cons, Slot.blanked_cons, Slot.blankChar_comment, hblank, Text.asCode_append]

/-- The machine that sees the comments blanked runs alongside the one that sees them. -/
theorem run_blanked {qs : Painted} (hroot : Rooted s.modes)
    (hdone : s.done = (Slot.paint qs).reverse)
    (hchain : (qs ++ trace jsx s t).IsChain CommentsClose) :
    run jsx s.blank ((blanked (trace jsx s t)).map Prod.fst) = (run jsx s t).blank := by
  -- The induction follows the machine that sees the comments; `qs` is what it has read so far.
  induction s, t using scan_induction jsx generalizing qs with
  | nil s => simp [run]
  | move s c rest ih =>
    have hbegins : begins (s.done.map Slot.blank) = begins s.done := by
      have hparted := paint_parted (List.isChain_append.mp hchain).1
      exact begins_blank (hdone ▸ List.isChain_reverse.mpr hparted)
    rw [trace_cons] at hchain ⊢
    rw [← List.append_assoc] at hchain
    rw [run_cons, ← ih (rooted_move hroot c rest) ?_ hchain, Slot.blanked_append, List.map_append]
    swap
    · rw [State.next, State.after, flatMap_ofChar, hdone, Slot.paint_append, List.reverse_append]
    -- While it reads a comment the other machine reads layout and stays in plain code.
    by_cases hkind : (s.move jsx c rest).kind = .comment
    · obtain ⟨⟨braces, hole, below, hcode⟩, hbefore, hmodes, hafter⟩ := comments_of_move hkind
      obtain ⟨g, hg, hblank⟩ := blanked_comment (s.reads jsx c rest).1
      have hnext : (s.next jsx c rest).blank =
          ⟨(Slot.paint g.asCode).reverse ++ s.blank.done, s.blank.modes, .plain⟩ := by
        have hcontext : (s.move jsx c rest).context.blank = .plain := by
          rcases hafter with h | h | ⟨h, -, -⟩ <;> rw [h] <;> rfl
        rw [State.blank, map_blank_done, hkind, hblank]
        simp only [State.next, State.after, hmodes, hcontext, State.blank]
      rw [hnext, hkind, hblank, Text.map_fst_asCode]
      exact run_layout (s := s.blank) ⟨hbefore, _, _, _, hcode⟩ hg _
    · have hne := List.ne_nil_of_length_pos hroot.length_pos
      obtain ⟨rest', hrest, hnext, hreads⟩ := reads_blank hne hkind hbegins
      rw [Slot.blanked_of_not_comment (by simp [hkind]), List.map_map, Function.comp_def,
        List.map_id', hrest, run_cons, hnext, hreads]

end Runs

end Scan

/-- The text with spaces in place of the bytes of its comments, line feeds apart. -/
def Text.blankComments (t : Text) : Text := (blanked (Scan.kinds t)).map Prod.fst

namespace Scan

/-- From the start, the scan of the blanked text gives the blanked kinds and ends alongside. -/
theorem trace_blanked (jsx : Bool) (t : Text) :
    trace jsx .start ((blanked (trace jsx .start t)).map Prod.fst) = blanked (trace jsx .start t) ∧
      (run jsx .start ((blanked (trace jsx .start t)).map Prod.fst)).modes =
        (run jsx .start t).modes := by
  have hstart : State.start.done = (Slot.paint []).reverse := rfl
  have hrun : run jsx .start ((blanked (trace jsx .start t)).map Prod.fst) =
      (run jsx .start t).blank := run_blanked start_rooted hstart (trace_commentsClose jsx .start t)
  refine ⟨?_, by rw [hrun]; rfl⟩
  have hdone := congrArg State.done hrun
  rw [run_done, State.blank, run_done, List.map_append, List.map_reverse, ← Slot.paint_blanked]
    at hdone
  exact Slot.paint_injective (List.reverse_injective (List.append_cancel_right hdone))

/-- Without its comments a text is read as it is with them, if markup is recognised in it no more
than before. -/
theorem kinds_blankComments {t : Text} (h : withMarkup t.blankComments → withMarkup t) :
    kinds t.blankComments = blanked (kinds t) := by
  obtain ⟨htrace, hmodes⟩ := trace_blanked (withMarkup t) t
  have hsame : withMarkup t.blankComments = withMarkup t := by
    cases ht : withMarkup t with
    | false => simpa [ht] using h
    | true =>
      rw [ht] at hmodes
      rw [withMarkup_iff] at ht ⊢
      rw [Text.blankComments, kinds, withMarkup_iff.mpr ht, hmodes]
      exact ht
  rw [kinds, hsame]
  exact htrace

end Scan

end Declass
