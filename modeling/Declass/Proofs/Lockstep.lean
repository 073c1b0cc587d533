import Declass.Proofs.Reaching
import Mathlib.Data.List.TakeWhile

/-!
# Two scans of the same text

A text is scanned once inside its source, behind what comes before it and with more text after it,
and once on its own.  Both machines read the same characters, and as long as they give each of them
the same kind they stay `Aligned`: same context, same modes above the level of code at which they
started, same slots since then.

Three things tell them apart.

* A quote opens a string unless a line feed comes first.  The text on its own may end before that
  line feed.
* Whether an element can open depends on the slots before it.  This makes no difference where an
  expression can begin behind both beginnings (`begins`).
* At the last character the machine inside the source sees what comes after.

**Results.** `lockstep_quotes` and `lockstep_kinds`: the two scans agree if and only if every quote
that is code in the source is code in the text on its own.
-/

namespace Declass

namespace Scan

/-- Whether an expression can begin behind the slots `done`. -/
def begins (done : List Slot) : Bool :=
  match done.dropWhile (fun s => s.kind == .comment || s.isLayout) with
  | [] => true
  | s :: before =>
    s.kind == .code && s.char?.any fun c =>
      beginsExpression c ||
        (Character.isAsciiIdent c &&
          expressionWords.contains
            (((s :: before).takeWhile Slot.isAsciiIdent).filterMap Slot.char?).reverse)

theorem opensElement_eq (done : List Slot) (rest : Text) : opensElement done rest =
    (rest.head?.any (fun c => c.isAlpha || c == '>') && begins done) := rfl

theorem begins_cons {s : Slot} {done : List Slot}
    (h : (s.kind == .comment || s.isLayout)) : begins (s :: done) = begins done := by
  simp only [begins]
  rw [List.dropWhile_cons, if_pos h]

/-- Text that is read behind `base` does not see it: an expression can begin there, and no word
goes on across the seam. -/
structure Joins (base : List Slot) (u : Text) : Prop where
  begins : begins base = true
  apart : ∀ c ∈ u.head?, Character.isAsciiIdent c = true → ∀ s ∈ base.head?, s.isAsciiIdent = false

theorem Joins.nil (u : Text) : Joins [] u := ⟨rfl, by simp⟩

/-- Behind an opening bracket, text is read as if nothing stood before the bracket. -/
theorem joins_bracket {c : Char} (hc : c ∈ ['(', '[', '\x7b']) (done : List Slot) (u : Text) :
    Joins (⟨some c, .code⟩ :: done) u := by
  simp only [List.mem_cons, List.not_mem_nil, or_false] at hc
  refine ⟨?_, fun _ _ _ x hx => ?_⟩
  · rcases hc with rfl | rfl | rfl <;> rfl
  · obtain rfl : _ = x := by simpa using hx
    rcases hc with rfl | rfl | rfl <;> rfl

/-- The slots before the seam play no role for an element behind it. -/
theorem Joins.begins_append {base : List Slot} {u v : Text} {ps : Painted}
    (h : Joins base u) (hu : ps.map Prod.fst ++ v = u) :
    Scan.begins ((Slot.paint ps).reverse ++ base) = Scan.begins (Slot.paint ps).reverse := by
  simp only [Scan.begins]
  rw [List.dropWhile_append]
  cases hdrop : (Slot.paint ps).reverse.dropWhile (fun s => s.kind == .comment || s.isLayout) with
  | nil => simpa [Scan.begins] using h.begins
  | cons s before =>
    -- A word that reaches back to the seam is the first of the text.
    have htake : ((s :: before) ++ base).takeWhile Slot.isAsciiIdent =
        (s :: before).takeWhile Slot.isAsciiIdent := by
      rw [List.takeWhile_append]
      split
      · rename_i hall
        have hself := (List.takeWhile_sublist _).eq_of_length hall
        have hident := List.takeWhile_eq_self_iff.mp hself
        obtain ⟨c, k, qs, rfl⟩ : ∃ c k qs, ps = (c, k) :: qs := by
          cases ps with
          | nil => simp at hdrop
          | cons p qs => exact ⟨p.1, p.2, qs, rfl⟩
        have hlast : (⟨some c, k⟩ : Slot) ∈ s :: before := by
          have hsuffix : s :: before <:+ (Slot.paint ((c, k) :: qs)).reverse :=
            hdrop ▸ List.dropWhile_suffix _
          have hget := hsuffix.getLast (by simp)
          have : (s :: before).getLast (by simp) = ⟨some c, k⟩ := by
            rw [hget]
            simp [Slot.ofChar]
          exact this ▸ List.getLast_mem _
        have hc : Character.isAsciiIdent c := hident _ hlast
        have hbase : base.takeWhile Slot.isAsciiIdent = [] := by
          cases hb : base with
          | nil => rfl
          | cons x rest =>
            have := h.apart c (by simp [← hu]) hc x (by simp [hb])
            simp [this]
        rw [hbase, List.append_nil, hself]
      · rfl
    simp only [List.isEmpty_cons, Bool.false_eq_true, if_false, List.cons_append]
    rw [← List.cons_append, htake]

section Steps

/-- The modes of the machine inside the source and of the machine on its own: the same down to the
code they started in, which lies on `below` for one and on nothing for the other. -/
inductive Stacks (below : List Mode) : List Mode → List Mode → Prop
  | base (braces braces' : Nat) (hole : Hole) :
      Stacks below (.code braces hole :: below) [.code braces' .root]
  | push (mode : Mode) {outer inner : List Mode} (h : Stacks below outer inner) :
      Stacks below (mode :: outer) (mode :: inner)

theorem Stacks.code {below outer inner : List Mode} (h : Stacks below outer inner)
    (hinner : ∃ braces hole tail, inner = .code braces hole :: tail) :
    ∃ braces hole tail, outer = .code braces hole :: tail := by
  obtain ⟨braces, hole, tail, rfl⟩ := hinner
  cases h with
  | base => exact ⟨_, _, _, rfl⟩
  | push => exact ⟨_, _, _, rfl⟩

/-- The two moves lead on in the same way. -/
structure Follows (below : List Mode) (m m' : Move) : Prop where
  pair : m.pair = m'.pair
  context : m.context = m'.context
  modes : Stacks below m.modes m'.modes

/-- The two places where a machine looks further than one character come out the same. -/
structure Decided (jsx jsx' : Bool) (done done' : List Slot) (c : Char) (rest rest' : Text) :
    Prop where
  quote : isQuote c = true → stringCloses c rest = stringCloses c rest'
  element : c = '<' → (jsx && opensElement done rest) = (jsx' && opensElement done' rest')

variable {jsx jsx' : Bool} {done done' : List Slot} {braces braces' : Nat} {hole hole' : Hole}
  {below outer inner : List Mode} {c : Char} {rest rest' : Text} {modes : List Mode}
  {context : Context}

/-- Plain code is read alike if what the machine looks for further away is. -/
theorem plainMove_congr (hdec : Decided jsx jsx' done done' c rest rest')
    (hslash : c = '/' → ∀ d ∈ ['/', '*'], (rest'.head? == some d) = (rest.head? == some d)) :
    plainMove jsx' done' braces hole below c rest' = plainMove jsx done braces hole below c rest := by
  have hcomment : ∀ d ∈ ['/', '*'], (c == '/' && rest'.head? == some d) =
      (c == '/' && rest.head? == some d) := by
    intro d hd
    by_cases hc : c = '/'
    · rw [hslash hc d hd]
    · rw [beq_false_of_ne hc, Bool.false_and, Bool.false_and]
  have helement : (c == '<' && jsx' && opensElement done' rest') =
      (c == '<' && jsx && opensElement done rest) := by
    by_cases hc : c = '<'
    · rw [Bool.and_assoc, Bool.and_assoc, hdec.element hc]
    · rw [Bool.and_assoc, Bool.and_assoc, beq_false_of_ne hc, Bool.false_and, Bool.false_and]
  by_cases hq : isQuote c = true
  · simp [plainMove, hq, hdec.quote hq]
  · unfold plainMove
    rw [if_neg hq, if_neg hq]
    simp only [hcomment '/' (by simp), hcomment '*' (by simp), helement]

/-- The characters that the machine asks for behind `c`. -/
def State.asks (s : State) (c : Char) : List Char :=
  match s.modes with
  | .code _ _ :: _ =>
    match s.context with
    | .plain => if c = '/' then ['/', '*'] else []
    | .blockComment => if c = '*' then ['/'] else []
    | _ => []
  | .template :: _ => if c = '$' then ['\x7b'] else []
  | .tag _ false none :: _ => if c = '/' then ['>'] else []
  | .children _ :: _ => if c = '<' then ['/'] else []
  | _ => []

theorem mem_of_asks {s : State} {d : Char} (h : d ∈ s.asks c) : d ∈ ['/', '*', '\x7b', '>'] := by
  grind [State.asks]

/-- Two machines with the same modes and the same context make the same move if they are told the
same by what comes behind the character. -/
theorem move_congr
    (hdec : State.Plain ⟨done, modes, context⟩ → Decided jsx jsx' done done' c rest rest')
    (hasks : ∀ d ∈ State.asks ⟨done, modes, context⟩ c,
      (rest'.head? == some d) = (rest.head? == some d)) :
    State.move jsx' ⟨done', modes, context⟩ c rest' =
      State.move jsx ⟨done, modes, context⟩ c rest := by
  cases modes with
  | nil => rfl
  | cons mode below =>
    cases mode with
    | code braces hole =>
      cases context with
      | plain =>
        refine plainMove_congr (hdec ⟨rfl, _, _, _, rfl⟩) fun hc d hd => hasks d ?_
        rwa [State.asks, if_pos hc]
      | quoted quote => rfl
      | lineComment => rfl
      | blockComment =>
        by_cases hc : c = '*'
        · simp [State.move, blockCommentMove, hasks '/' (by simp [State.asks, hc])]
        · simp [State.move, blockCommentMove, hc]
    | template =>
      by_cases hc : c = '$'
      · simp [State.move, templateMove, hasks '\x7b' (by simp [State.asks, hc])]
      · simp [State.move, templateMove, hc]
    | tag depth closing quote =>
      cases quote with
      | some q => rfl
      | none =>
        by_cases hc : c = '/' ∧ closing = false
        · simp [State.move, tagMove, hasks '>' (by simp [State.asks, hc])]
        · have hslash : (c == '/' && !closing) = false := by simpa using hc
          simp [State.move, tagMove, hslash]
    | children depth =>
      by_cases hc : c = '<'
      · simp [State.move, childrenMove, hasks '/' (by simp [State.asks, hc])]
      · simp [State.move, childrenMove, hc]

/-- A character that is asked for is read together with the one before it, if this is not the `<` of
a tag. -/
theorem pair_of_asks {d : Char} (hd : d ∈ State.asks ⟨done, modes, context⟩ c)
    (hhead : rest.head? = some d) (hmodes : ∀ depth below, modes ≠ .children depth :: below) :
    (State.move jsx ⟨done, modes, context⟩ c rest).pair := by
  have hspec := move_spec jsx done modes context c rest
  generalize State.move jsx ⟨done, modes, context⟩ c rest = m at hspec ⊢
  cases hspec with
  | plain h => cases h <;> grind [State.asks, isQuote]
  | _ => grind [State.asks, isQuote]

/-- A character that is read alone is of the same kind with nothing behind it. -/
theorem kind_of_single
    (hdec : State.Plain ⟨done, modes, context⟩ → Decided jsx jsx' done done' c rest [])
    (hpair : (State.move jsx ⟨done, modes, context⟩ c rest).pair = false) :
    (State.move jsx' ⟨done', modes, context⟩ c []).kind =
      (State.move jsx ⟨done, modes, context⟩ c rest).kind := by
  by_cases hmodes : ∃ depth below, modes = .children depth :: below
  · obtain ⟨depth, below, rfl⟩ := hmodes
    simp only [State.move, childrenMove]
    split_ifs <;> rfl
  · refine congrArg Move.kind (move_congr hdec fun d hd => ?_)
    have hne : rest.head? ≠ some d := fun hhead => by
      rw [pair_of_asks hd hhead fun depth below h => hmodes ⟨depth, below, h⟩] at hpair
      cases hpair
    rw [beq_false_of_ne hne]
    rfl

/-- A move changes the modes above the code that the machines started in alike. -/
theorem move_stacks (hstacks : Stacks below outer inner)
    (hstays : below.length < (State.move jsx ⟨done, outer, context⟩ c rest).modes.length) :
    (State.move jsx ⟨done, outer, context⟩ c rest).kind =
        (State.move jsx ⟨done, inner, context⟩ c rest).kind ∧
      Follows below (State.move jsx ⟨done, outer, context⟩ c rest)
        (State.move jsx ⟨done, inner, context⟩ c rest) := by
  cases hstacks with
  | base braces braces' hole =>
    cases context with
    | plain =>
      simp only [State.move, plainMove] at hstays ⊢
      split_ifs at hstays ⊢ <;> cases hole <;> first
        | exact ⟨rfl, rfl, rfl, .base _ _ _⟩
        | exact ⟨rfl, rfl, rfl, .push _ (.base _ _ _)⟩
        | simp at hstays
    | _ =>
      simp only [State.move, quotedMove, lineCommentMove, blockCommentMove]
      split <;> exact ⟨rfl, rfl, rfl, .base _ _ _⟩
  | push mode h =>
    -- What lies below the innermost mode plays no role.
    have hpush : ∀ top, Stacks below (top :: _) (top :: _) := fun top => h.push top
    cases mode with
    | code braces hole =>
      cases context with
      | plain =>
        simp only [State.move, plainMove]
        split_ifs <;> cases hole <;>
          exact ⟨rfl, rfl, rfl, by first | exact h | exact hpush _ | exact (hpush _).push _⟩
      | _ =>
        simp only [State.move, quotedMove, lineCommentMove, blockCommentMove]
        split <;> exact ⟨rfl, rfl, rfl, hpush _⟩
    | template =>
      simp only [State.move, templateMove]
      split_ifs <;>
        exact ⟨rfl, rfl, rfl, by first | exact h | exact hpush _ | exact (hpush _).push _⟩
    | tag depth closing quote =>
      cases quote with
      | some q => exact ⟨rfl, rfl, rfl, hpush _⟩
      | none =>
        simp only [State.move, tagMove, endTag]
        split_ifs <;>
          exact ⟨rfl, rfl, rfl, by first | exact h | exact hpush _ | exact (hpush _).push _⟩
    | children depth =>
      simp only [State.move, childrenMove]
      split_ifs <;> exact ⟨rfl, rfl, rfl, by first | exact hpush _ | exact (hpush _).push _⟩

/-- What a machine decides by looking ahead shows in the kind of the character. -/
theorem decided_of_kind (h : (plainMove jsx done braces hole outer c rest).kind =
    (plainMove jsx' done' braces' hole' inner c rest').kind) :
    Decided jsx jsx' done done' c rest rest' := by
  constructor
  · intro hq
    cases hr : stringCloses c rest <;> cases hr' : stringCloses c rest' <;>
      simp [plainMove, hq, hr, hr'] at h ⊢
  · rintro rfl
    cases hr : jsx && opensElement done rest <;> cases hr' : jsx' && opensElement done' rest' <;>
      simp_all [plainMove, isQuote]

theorem move_step {o i : State} (hcontext : o.context = i.context)
    (hmodes : Stacks below o.modes i.modes)
    (hstays : below.length < (o.move jsx c rest).modes.length)
    (hhead : rest.head? = rest'.head? ∨ rest' = [] ∧ (o.move jsx c rest).pair = false)
    (hdec : o.Plain → Decided jsx jsx' o.done i.done c rest rest') :
    (o.move jsx c rest).kind = (i.move jsx' c rest').kind ∧
      (rest.head? = rest'.head? → Follows below (o.move jsx c rest) (i.move jsx' c rest')) := by
  obtain ⟨done, modes, context⟩ := o
  obtain ⟨done', modes', context'⟩ := i
  subst hcontext
  obtain ⟨hkind, hfollows⟩ := move_stacks hmodes hstays
  have hdec' : State.Plain ⟨done, modes', context⟩ → Decided jsx jsx' done done' c rest rest' :=
    fun hplain => hdec ⟨hplain.1, hmodes.code hplain.2⟩
  have hsame : rest.head? = rest'.head? → State.move jsx' ⟨done', modes', context⟩ c rest' =
      State.move jsx ⟨done, modes', context⟩ c rest := fun h =>
    move_congr hdec' fun d _ => by rw [h]
  refine ⟨?_, fun h => hsame h ▸ hfollows⟩
  rcases hhead with h | ⟨rfl, hpair⟩
  · rw [hsame h, hkind]
  · rw [kind_of_single hdec' (hfollows.pair ▸ hpair), hkind]

end Steps

theorem stringCloses_cons {quote c : Char} {rest : Text} (hc : c ≠ '\\') :
    stringCloses quote (c :: rest) =
      if c == '\n' then false else if c == quote then true else stringCloses quote rest := by
  rw [stringCloses]
  · intro h
    exact absurd h hc
  · intro _ _ h
    exact absurd h hc

/-- A string that is closed in a text, or never, is so in every beginning of the text. -/
theorem stringCloses_of_append {quote : Char} : ∀ {u post : Text},
    stringCloses quote (u ++ post) → stringCloses quote u = true
  | [], _, _ => by rw [stringCloses]
  | [c], post, h => by
      by_cases hc : c = '\\'
      · rw [hc, stringCloses]
      · rw [List.cons_append, stringCloses_cons hc] at h
        rw [stringCloses_cons hc]
        split_ifs at h ⊢
        · rfl
        · rw [stringCloses]
  | c :: d :: u, post, h => by
      by_cases hc : c = '\\'
      · subst hc
        rw [stringCloses]
        exact stringCloses_of_append h
      · rw [List.cons_append, stringCloses_cons hc] at h
        rw [stringCloses_cons hc]
        split_ifs at h ⊢
        · rfl
        · exact stringCloses_of_append h

theorem stringCloses_of_code {jsx : Bool} {s : State} {c : Char} {rest : Text} (hs : s.modes ≠ [])
    (hq : isQuote c) (h : (s.move jsx c rest).kind = .code) : stringCloses c rest = false := by
  have hne : ∀ d, isQuote d = false → c ≠ d := by
    rintro d hd rfl
    rw [hq] at hd
    cases hd
  obtain ⟨done, modes, context⟩ := s
  have hspec := move_spec jsx done modes context c rest
  generalize State.move jsx ⟨done, modes, context⟩ c rest = m at hspec h
  cases hspec with
  | ended => exact absurd rfl hs
  | plain hplain =>
    cases hplain with
    | loneQuote _ h' => exact h'
    | braceOpens hc => exact absurd hc (hne _ rfl)
    | braceCloses hc _ => exact absurd hc (hne _ rfl)
    | rootBrace hc _ _ => exact absurd hc (hne _ rfl)
    | containerCloses hc _ _ => exact absurd hc (hne _ rfl)
    | other hq' _ _ _ _ _ => simp [hq] at hq'
    | _ => cases h
  | lineEnds hc => exact absurd hc (hne _ rfl)
  | tagHole hc => exact absurd hc (hne _ rfl)
  | childrenHole hc => exact absurd hc (hne _ rfl)
  | _ => cases h

section Passing

/-- The machine reads the text `u` in front of `post` as `ps`.  On the way it never leaves the code
that lies on `below`, and what it reads together does not reach into `post`. -/
inductive Passes (jsx : Bool) (below : List Mode) (post : Text) :
    State → Text → List (Char × Kind) → Prop
  | nil (s : State) : Passes jsx below post s [] []
  | last {s : State} {c : Char} (hstays : below.length < (s.move jsx c post).modes.length)
      (hstop : ∀ d tail, post = d :: tail → (s.move jsx c post).pair = false ∧
        (c = '<' → ((s.next jsx c post).move jsx d tail).kind ≠ .markup)) :
      Passes jsx below post s [c] [(c, (s.move jsx c post).kind)]
  | move {s : State} {c : Char} {rest cs tail : Text} {ps : List (Char × Kind)} (hrest : rest ≠ [])
      (hstays : below.length < (s.move jsx c (rest ++ post)).modes.length)
      (hreads : s.reads jsx c (rest ++ post) = (cs, tail ++ post))
      (hnext : Passes jsx below post (s.next jsx c (rest ++ post)) tail ps) :
      Passes jsx below post s (c :: rest)
        (cs.map (fun d => (d, (s.move jsx c (rest ++ post)).kind)) ++ ps)

/-- Every quote that is code has a line feed behind it before the string it would open is closed. -/
def Settled : List (Char × Kind) → Prop
  | [] => True
  | (c, k) :: ps =>
    (k = .code → isQuote c = true → stringCloses c (ps.map Prod.fst) = false) ∧ Settled ps

/-- The two machines are at the same place of the text `whole`, with `u` in front of them. -/
structure Aligned (below : List Mode) (base base' : List Slot) (whole : Text) (o i : State)
    (u : Text) : Prop where
  context : o.context = i.context
  modes : Stacks below o.modes i.modes
  done : ∃ ps, o.done = (Slot.paint ps).reverse ++ base ∧
    i.done = (Slot.paint ps).reverse ++ base' ∧ ps.map Prod.fst ++ u = whole

variable {jsx jsx' : Bool} {below : List Mode} {base base' : List Slot} {whole post u : Text}
  {o i : State} {ps : Painted} {c d : Char} {rest rest' : Text}

theorem Passes.chars (h : Passes jsx below post o u ps) : ps.map Prod.fst = u := by
  induction h with
  | nil s => rfl
  | last _ _ => rfl
  | @move s c rest cs tail ps _ _ hreads _ ih =>
    have happend := reads_append jsx s c (rest ++ post)
    rw [hreads, ← List.append_assoc, ← List.cons_append] at happend
    rw [List.map_append, ih, ← List.append_cancel_right happend]
    simp [Function.comp_def]

theorem Aligned.after {cs : Text} {m m' : Move} (h : Aligned below base base' whole o i (cs ++ u))
    (hk : m.kind = m'.kind) (hf : Follows below m m') :
    Aligned below base base' whole (o.after m cs) (i.after m' cs) u := by
  obtain ⟨ps, ho, hi, hwhole⟩ := h.done
  refine ⟨hf.context, hf.modes, ps ++ cs.map fun d => (d, m.kind), ?_, ?_, ?_⟩
  · simp [State.after, ho, flatMap_ofChar]
  · simp [State.after, hi, flatMap_ofChar, hk]
  · simpa [Function.comp_def] using hwhole

theorem Aligned.opensElement (h : Aligned below base base' whole o i u) (hb : Joins base whole)
    (hb' : Joins base' whole) (hhead : rest.head? = rest'.head?) :
    Scan.opensElement o.done rest = Scan.opensElement i.done rest' := by
  obtain ⟨ps, ho, hi, hwhole⟩ := h.done
  rw [opensElement_eq, opensElement_eq, ho, hi, hb.begins_append hwhole, hb'.begins_append hwhole,
    hhead]

theorem Aligned.decided (h : Aligned below base base' whole o i u) (hplain : o.Plain)
    (hk : (o.move jsx c rest).kind = (i.move jsx' c rest').kind) :
    Decided jsx jsx' o.done i.done c rest rest' := by
  obtain ⟨done, modes, context⟩ := o
  obtain ⟨done', modes', context'⟩ := i
  obtain ⟨hcontext, braces, hole, outer, hmodes⟩ := hplain
  obtain ⟨hsame, hstacks, -⟩ := h
  subst hcontext hmodes hsame
  cases hstacks with
  | base => exact decided_of_kind hk
  | push => exact decided_of_kind hk

section

variable (h : Aligned below base base' whole o i (c :: rest)) (hrest : rest ≠ [])
  (hstays : below.length < (o.move jsx c (rest ++ post)).modes.length)
include h hrest hstays

theorem Aligned.reads_eq {cs tail : Text}
    (hreads : o.reads jsx c (rest ++ post) = (cs, tail ++ post))
    (hdec : o.Plain → Decided jsx jsx' o.done i.done c (rest ++ post) rest) :
    i.reads jsx' c rest = (cs, tail) ∧ c :: rest = cs ++ tail := by
  have hhead : (rest ++ post).head? = rest.head? := List.head?_append_of_ne_nil _ hrest
  have hf := (move_step h.context h.modes hstays (.inl hhead) hdec).2 hhead
  cases rest with
  | nil => exact absurd rfl hrest
  | cons d rest =>
    cases hpair : (o.move jsx c (d :: rest ++ post)).pair with
    | true =>
      rw [List.cons_append] at hpair hreads
      rw [reads_of_pair hpair, Prod.mk.injEq] at hreads
      obtain ⟨rfl, htail⟩ := hreads
      obtain rfl := List.append_cancel_right htail
      exact ⟨reads_of_pair (hf.pair ▸ hpair), rfl⟩
    | false =>
      rw [List.cons_append] at hpair hreads
      rw [reads_single hpair, ← List.cons_append, Prod.mk.injEq] at hreads
      obtain ⟨rfl, htail⟩ := hreads
      obtain rfl := List.append_cancel_right htail
      exact ⟨reads_single (hf.pair ▸ hpair), rfl⟩

theorem Aligned.step {cs tail : Text} (hreads : o.reads jsx c (rest ++ post) = (cs, tail ++ post))
    (hdec : o.Plain → Decided jsx jsx' o.done i.done c (rest ++ post) rest) :
    trace jsx' i (c :: rest) = cs.map (fun d => (d, (o.move jsx c (rest ++ post)).kind)) ++
        trace jsx' (i.next jsx' c rest) tail ∧
      Aligned below base base' whole (o.next jsx c (rest ++ post)) (i.next jsx' c rest) tail := by
  have hhead : (rest ++ post).head? = rest.head? := List.head?_append_of_ne_nil _ hrest
  obtain ⟨hk, hfollows⟩ := move_step h.context h.modes hstays (.inl hhead) hdec
  obtain ⟨hreads', hsplit⟩ := h.reads_eq hrest hstays hreads hdec
  constructor
  · rw [trace_cons, hreads', hk]
  · rw [State.next, State.next, hreads', hreads]
    rw [hsplit] at h
    exact h.after hk (hfollows hhead)

end

theorem trace_head (jsx : Bool) (s : State) (c : Char) (rest : Text) :
    ∃ ps, trace jsx s (c :: rest) = (c, (s.move jsx c rest).kind) :: ps := by
  rw [trace_cons]
  rcases reads_cases jsx s c rest with h | ⟨d, tail, -, -, h⟩ <;> rw [h] <;> exact ⟨_, rfl⟩

theorem Stacks.ne_nil {outer inner : List Mode} (h : Stacks below outer inner) : inner ≠ [] := by
  cases h <;> simp

theorem settled_reads {cs tail : Text} (hreads : o.reads jsx c (rest ++ post) = (cs, tail ++ post))
    (hps : ps.map Prod.fst = tail) :
    Settled (cs.map (fun d => (d, (o.move jsx c (rest ++ post)).kind)) ++ ps) ↔
      ((o.move jsx c (rest ++ post)).kind = .code → isQuote c →
        stringCloses c rest = false) ∧ Settled ps := by
  rcases reads_cases jsx o c (rest ++ post) with h | ⟨d, tail', -, hpair, h⟩
  · rw [h, Prod.mk.injEq] at hreads
    obtain ⟨rfl, htail⟩ := hreads
    obtain rfl := List.append_cancel_right htail
    simp [Settled, hps]
  · have hk : (o.move jsx c (rest ++ post)).kind ≠ .code := fun hcode => by
      rw [move_pair_of_code hcode] at hpair
      cases hpair
    rw [h] at hreads
    obtain ⟨rfl, -⟩ := hreads
    simp [Settled, hk]

/-- If the two scans agree, every quote that is code in the source is code in the text on its
own. -/
theorem lockstep_quotes (h : Passes jsx below post o u ps)
    (ha : Aligned below base base' whole o i u) (heq : ps = trace jsx' i u) : Settled ps := by
  induction h generalizing i with
  | nil s => trivial
  | @last s c hstays hstop =>
    have hk : (s.move jsx c post).kind = (i.move jsx' c []).kind := by
      simpa [trace] using heq
    refine ⟨fun hcode hq => ?_, trivial⟩
    exact stringCloses_of_code ha.modes.ne_nil hq (hk ▸ hcode)
  | @move s c rest cs tail ps hrest hstays hreads hnext ih =>
    have hk : (s.move jsx c (rest ++ post)).kind = (i.move jsx' c rest).kind := by
      obtain ⟨qs, hqs⟩ := trace_head jsx' i c rest
      obtain ⟨cs', hcs⟩ : ∃ cs', cs = c :: cs' := by
        rcases reads_cases jsx s c (rest ++ post) with h | ⟨d, tail, -, -, h⟩ <;>
          exact ⟨_, congrArg Prod.fst (hreads.symm.trans h)⟩
      rw [hqs, hcs] at heq
      simpa using (List.cons.inj heq).1
    obtain ⟨htrace, hnextAligned⟩ := ha.step hrest hstays hreads fun hplain => ha.decided hplain hk
    rw [htrace] at heq
    refine (settled_reads hreads hnext.chars).mpr ⟨fun hcode hq => ?_, ?_⟩
    · exact stringCloses_of_code ha.modes.ne_nil hq (hk ▸ hcode)
    · exact ih hnextAligned (List.append_cancel_left heq)

theorem tag_goes_on {tail : Text} (hplain : o.Plain)
    (h : (jsx && Scan.opensElement o.done (d :: tail))) :
    ((o.next jsx '<' (d :: tail)).move jsx d tail).kind = .markup := by
  obtain ⟨done, modes, context⟩ := o
  obtain ⟨hcontext, braces, hole, outer, hmodes⟩ := hplain
  subst hcontext hmodes
  have hmove : State.move jsx ⟨done, .code braces hole :: outer, .plain⟩ '<' (d :: tail) =
      ⟨.markup, false, .tag 0 false none :: .code braces hole :: outer, .plain⟩ := by
    simp [State.move, plainMove, isQuote, Bool.and_eq_true_iff.mp h]
  have hd : d.isAlpha ∨ d = '>' := by
    have := (Bool.and_eq_true_iff.mp (Bool.and_eq_true_iff.mp h).2).1
    simpa using this
  have hne : ∀ e, e.isAlpha = false → e ≠ '>' → d ≠ e := by
    rintro e halpha hgt rfl
    rcases hd with hd | hd
    · rw [halpha] at hd
      cases hd
    · exact hgt hd
  have hq : isQuote d = false := by
    simp [isQuote, hne '\x22' rfl (by decide), hne '\x27' rfl (by decide)]
  have hnext : (State.next jsx ⟨done, .code braces hole :: outer, .plain⟩ '<' (d :: tail)).modes =
      .tag 0 false none :: .code braces hole :: outer := by
    rw [State.next, State.after, hmove]
  rw [State.move, hnext]
  simp only [tagMove, hq, beq_iff_eq, hne '\x7b' rfl (by decide), Bool.false_eq_true,
    if_false, beq_eq_false_iff_ne.mpr (hne '/' rfl (by decide)), Bool.false_and]
  split <;> rfl

/-- If every quote that is code in the source is code in the text on its own, the two scans
agree. -/
theorem lockstep_kinds (h : Passes jsx below post o u ps) (hb : Joins base whole)
    (hb' : Joins base' whole) (ha : Aligned below base base' whole o i u) (hset : Settled ps) :
    ps = trace jsx i u := by
  have hquote : ∀ {o : State} {c : Char} (rest : Text), o.Plain →
      ((o.move jsx c (rest ++ post)).kind = .code → isQuote c →
        stringCloses c rest = false) → isQuote c →
      stringCloses c (rest ++ post) = stringCloses c rest := by
    intro o c rest hplain hset hq
    cases hcloses : stringCloses c (rest ++ post) with
    | true => exact (stringCloses_of_append hcloses).symm
    | false =>
      refine (hset ?_ hq).symm
      obtain ⟨hcontext, braces, hole, outer, hmodes⟩ := hplain
      simp [State.move, hcontext, hmodes, plainMove, hq, hcloses]
  induction h generalizing i with
  | nil s => simp
  | @last s c hstays hstop =>
    have hhead : post.head? = ([] : Text).head? ∨
        ([] : Text) = [] ∧ (s.move jsx c post).pair = false := by
      cases post with
      | nil => exact .inl rfl
      | cons d tail => exact .inr ⟨rfl, (hstop d tail rfl).1⟩
    have hdec : s.Plain → Decided jsx jsx s.done i.done c post [] := by
      intro hplain
      refine ⟨hquote [] hplain hset.1, ?_⟩
      rintro rfl
      cases post with
      | nil => simp [opensElement_eq]
      | cons d tail =>
        cases hopens : jsx && Scan.opensElement s.done (d :: tail) with
        | true => exact absurd (tag_goes_on hplain hopens) ((hstop d tail rfl).2 rfl)
        | false => simp [opensElement_eq]
    have hk := (move_step ha.context ha.modes hstays hhead hdec).1
    simp [trace, hk]
  | @move s c rest cs tail ps hrest hstays hreads hnext ih =>
    obtain ⟨hfirst, hset⟩ := (settled_reads hreads hnext.chars).mp hset
    have hdec : s.Plain → Decided jsx jsx s.done i.done c (rest ++ post) rest := by
      intro hplain
      refine ⟨hquote rest hplain hfirst, fun _ => ?_⟩
      rw [ha.opensElement hb hb' (List.head?_append_of_ne_nil rest hrest)]
    obtain ⟨htrace, hnextAligned⟩ := ha.step hrest hstays hreads hdec
    rw [htrace, ih hnextAligned hset]

/-- Nothing that is read together goes on from `ps` to `qs`. -/
def Ends (ps qs : List (Char × Kind)) : Prop :=
  ∀ p ∈ ps.getLast?, ∀ q ∈ qs.head?,
    q.2 = .code ∨ q.2 = .comment ∧ p.2 ≠ .comment ∨ p.2 = .code ∧ p.1 ≠ '<'

theorem Ends.tail {p : Char × Kind} {qs : Painted} (h : Ends (p :: ps) qs) :
    Ends ps qs := fun r hr => h r (mem_getLast?_of_tail hr)

/-- The machine stays where it is, or higher, up to `post`. -/
def Stays (jsx : Bool) (below : List Mode) (post : Text) (s : State) (u : Text) : Prop :=
  ∀ s' v, Reaches jsx s (u ++ post) s' v → post.length ≤ v.length → below.length < s'.modes.length

theorem Stays.next {cs tail : Text} (h : Stays jsx below post o (c :: rest))
    (hreads : o.reads jsx c (rest ++ post) = (cs, tail ++ post)) :
    below.length < (o.move jsx c (rest ++ post)).modes.length ∧
      Stays jsx below post (o.next jsx c (rest ++ post)) tail := by
  constructor
  · exact h (o.next jsx c (rest ++ post)) (tail ++ post) (.of_reads hreads (.refl _ _)) (by simp)
  · intro s' v hreach hv
    exact h s' v (.of_reads hreads hreach) hv

theorem reads_of_ends {k : Kind} {qs : Painted}
    (htrace : trace jsx o (c :: post) = (c, k) :: qs) (hends : Ends [(c, k)] qs) :
    o.reads jsx c post = ([c], post) := by
  rcases reads_cases jsx o c post with h | ⟨d, tail, -, hpair, h⟩
  · exact h
  · rw [trace_cons, h] at htrace
    obtain ⟨rfl, rfl⟩ := htrace
    have hk : (o.move jsx c post).kind ≠ .code := fun hcode => by
      rw [move_pair_of_code hcode] at hpair
      cases hpair
    rcases hends (c, (o.move jsx c post).kind) rfl (d, (o.move jsx c post).kind) rfl with
      hcode | ⟨hcomment, hother⟩ | ⟨hcode, -⟩
    · exact absurd hcode hk
    · exact absurd hcomment hother
    · exact absurd hcode hk

/-- A text that ends where nothing goes on is read on its own behalf. -/
theorem passes_of_trace : ∀ {u : Text} {s : State} {ps qs : Painted},
    trace jsx s (u ++ post) = ps ++ qs → ps.map Prod.fst = u → Ends ps qs →
    Stays jsx below post s u → Passes jsx below post s u ps
  | [], s, ps, qs, _, hps, _, _ => by
      obtain rfl : ps = [] := by simpa using hps
      exact .nil s
  | [c], s, ps, qs, htrace, hps, hends, hstays => by
      obtain ⟨k, rfl⟩ : ∃ k, ps = [(c, k)] := by
        obtain ⟨p, rfl, hp⟩ := List.map_eq_singleton_iff.mp hps
        exact ⟨p.2, by rw [← hp]⟩
      change trace jsx s (c :: post) = (c, k) :: qs at htrace
      have hreads := reads_of_ends htrace hends
      rw [trace_cons, hreads] at htrace
      obtain ⟨rfl, rfl⟩ : (s.move jsx c post).kind = k ∧
          trace jsx (s.next jsx c post) post = qs := by
        simpa using htrace
      have hstays' := hstays.next (show s.reads jsx c ([] ++ post) = ([c], [] ++ post) from hreads)
      refine .last hstays'.1 ?_
      rintro d tail rfl
      constructor
      · by_contra hpair
        rw [reads_of_pair (by simpa using hpair)] at hreads
        simp at hreads
      · intro hlt
        obtain ⟨rs, hrs⟩ := trace_head jsx (s.next jsx c (d :: tail)) d tail
        rcases hends _ rfl (d, _) (by rw [hrs]; rfl) with h | ⟨h, -⟩ | ⟨-, h⟩
        · exact fun hk => by cases h.symm.trans hk
        · exact fun hk => by cases h.symm.trans hk
        · exact absurd hlt h
  | c :: d :: rest, s, ps, qs, htrace, hps, hends, hstays => by
      obtain ⟨k, ps, rfl⟩ : ∃ k ps', ps = (c, k) :: ps' := by
        obtain ⟨p, ps', rfl, hp, -⟩ := List.map_eq_cons_iff.mp hps
        exact ⟨p.2, ps', by rw [← hp]⟩
      have hps' : ps.map Prod.fst = d :: rest := by simpa using hps
      change trace jsx s (c :: (d :: rest ++ post)) = (c, k) :: (ps ++ qs) at htrace
      rcases reads_cases jsx s c (d :: rest ++ post) with hreads | ⟨e, tail, heq, hpair, hreads⟩
      · rw [trace_cons, hreads] at htrace
        simp only [List.map_cons, List.map_nil, List.cons_append, List.nil_append, List.cons.injEq,
          Prod.mk.injEq, true_and] at htrace
        obtain ⟨rfl, htail⟩ := htrace
        obtain ⟨hhere, hnext⟩ := hstays.next hreads
        exact .move (by simp) hhere hreads (passes_of_trace htail hps' hends.tail hnext)
      · obtain ⟨rfl, rfl⟩ : d = e ∧ rest ++ post = tail := by simpa using heq
        obtain ⟨l, ps, rfl⟩ : ∃ l ps', ps = (d, l) :: ps' := by
          obtain ⟨p, ps', rfl, hp, -⟩ := List.map_eq_cons_iff.mp hps'
          exact ⟨p.2, ps', by rw [← hp]⟩
        rw [trace_cons, hreads] at htrace
        simp only [List.map_cons, List.map_nil, List.cons_append, List.nil_append, List.cons.injEq,
          Prod.mk.injEq, true_and] at htrace
        obtain ⟨rfl, rfl, htail⟩ := htrace
        obtain ⟨hhere, hnext⟩ := hstays.next hreads
        exact .move (by simp) hhere hreads
          (passes_of_trace htail (by simpa using hps') hends.tail.tail hnext)

end Passing

section Markup

variable {s : State} {c : Char} {rest t u : Text}

/-- Recognising markup makes a difference only where markup is read. -/
theorem move_of_not_markup (h : (s.move true c rest).kind ≠ .markup) :
    s.move false c rest = s.move true c rest := by
  obtain ⟨done, modes, context⟩ := s
  refine move_congr (fun hplain => ⟨fun _ => rfl, ?_⟩) fun _ _ => rfl
  rintro rfl
  obtain ⟨rfl, braces, hole, below, rfl⟩ := hplain
  cases hopens : opensElement done rest with
  | false => rfl
  | true => simp [State.move, plainMove, isQuote, hopens] at h

theorem trace_of_not_markup (h : ∀ p ∈ trace true s t, p.2 ≠ .markup) :
    trace false s t = trace true s t := by
  induction s, t using scan_induction true with
  | nil s => simp
  | move s c rest ih =>
    obtain ⟨qs, hqs⟩ := trace_head true s c rest
    have hmove : s.move false c rest = s.move true c rest :=
      move_of_not_markup (h (c, _) (by rw [hqs]; simp))
    have hreads : s.reads false c rest = s.reads true c rest := by
      cases rest with
      | nil => rfl
      | cons d rest => rw [State.reads, State.reads, hmove]
    have hnext : s.next false c rest = s.next true c rest := by
      rw [State.next, State.next, hmove, hreads]
    rw [trace_cons] at h
    rw [trace_cons, trace_cons, hmove, hreads, hnext]
    rw [ih fun p hp => h p (List.mem_append_right _ hp)]

/-- The text of a part of the source is scanned as the source is, or markup makes no difference. -/
def SharesMarkup (t u : Text) : Prop :=
  withMarkup u = withMarkup t ∨ withMarkup t = false ∧ ∀ p ∈ kinds u, p.2 ≠ .markup

theorem withMarkup_of_not_markup (h : ∀ p ∈ trace true .start u, p.2 ≠ .markup) : withMarkup u :=
  withMarkup_iff.mpr (run_markupFree start_markupFree h)

/-- Whether markup is recognised is decided for each text on its own. -/
theorem eq_kinds_iff {ps : Painted} (hquotes : ∀ jsx, ps = trace jsx .start u → Settled ps)
    (hkinds : Settled ps → ps = trace (withMarkup t) .start u)
    (hfree : withMarkup t = false → ∀ p ∈ ps, p.2 ≠ .markup) :
    ps = kinds u ↔ Settled ps ∧ SharesMarkup t u := by
  constructor
  · intro heq
    have hset := hquotes _ heq
    refine ⟨hset, ?_⟩
    by_cases hsame : withMarkup u = withMarkup t
    · exact .inl hsame
    refine .inr ?_
    cases ht : withMarkup t with
    | false => exact ⟨rfl, fun p hp => hfree ht p (heq ▸ hp)⟩
    | true =>
      -- The text reads the same with markup, so recognising it leaves no element open.
      have hu : withMarkup u = false := by simpa [ht] using hsame
      have htrue : ps = trace true .start u := ht ▸ hkinds hset
      have hfalse : ps = trace false .start u := by rw [heq, kinds, hu]
      have hmarkup := withMarkup_of_not_markup fun p hp =>
        trace_kind_of_not_jsx start_markupFree p (hfalse ▸ htrue ▸ hp)
      rw [hu] at hmarkup
      cases hmarkup
  · rintro ⟨hset, hshare | ⟨ht, hnone⟩⟩
    · rw [hkinds hset, kinds, hshare]
    · have hps := hkinds hset
      rw [ht] at hps
      cases hu : withMarkup u with
      | false => rw [hps, kinds, hu]
      | true =>
        rw [kinds, hu] at hnone ⊢
        rw [hps, trace_of_not_markup hnone]

end Markup

end Scan

end Declass
