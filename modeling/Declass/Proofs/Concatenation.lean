import Declass.Proofs.Lockstep

/-!
# Scanning one text after another

**Input.** A text that is put together from others, and the scanning machine.

A text is self-contained if the machine, started on it alone, is `Idle` at its end: in the code of
the module, outside strings and comments.  Such a text leaves no trace in what is read after it but
its last bytes, which decide whether an element can open.

**Results.**
* `reads_selfContained`: a self-contained text is read as it is on its own wherever it joins an
  idle machine.
* `reads_plain`: text without quotes, slashes and tags is read as code.
* `kinds_of_reads`: reading all of the text piece by piece gives its kinds.
-/

namespace Declass

namespace Scan

section Seams

/-- The machine is in the code of the module, outside strings and comments. -/
structure State.Idle (s : State) : Prop where
  context : s.context = .plain
  root : s.AtRoot

instance (s : State) : Decidable s.AtRoot :=
  match hmodes : s.modes with
  | [.code _ hole] => decidable_of_iff (hole = .root) (by simp [State.AtRoot, hmodes])
  | [] => .isFalse (by simp [State.AtRoot, hmodes])
  | [.template] => .isFalse (by simp [State.AtRoot, hmodes])
  | [.tag _ _ _] => .isFalse (by simp [State.AtRoot, hmodes])
  | [.children _] => .isFalse (by simp [State.AtRoot, hmodes])
  | _ :: _ :: _ => .isFalse (by simp [State.AtRoot, hmodes])

instance (s : State) : Decidable s.Idle :=
  decidable_of_iff (s.context = .plain ∧ s.AtRoot) ⟨fun h => ⟨h.1, h.2⟩, fun h => ⟨h.1, h.2⟩⟩

/-- No comment and no tag begins at the end of one text and goes on in the next. -/
def Seam (u post : Text) : Prop :=
  ∀ c ∈ u.getLast?, ∀ d ∈ post.head?,
    (c = '/' → d ≠ '/' ∧ d ≠ '*') ∧ (c = '<' → d.isAlpha = false ∧ d ≠ '>')

/-- No comment and no tag begins with the last byte that was read and goes on in the text. -/
structure State.Parted (jsx : Bool) (s : State) (post : Text) : Prop where
  slash : s.done.head? = some ⟨some '/', .code⟩ → post.head? ≠ some '/' ∧ post.head? ≠ some '*'
  tag : jsx = true → s.done.head? = some ⟨some '<', .code⟩ →
    ∀ d ∈ post.head?, d.isAlpha = false ∧ d ≠ '>'

variable {jsx : Bool} {i o : State} {c : Char} {rest post u : Text}

theorem head?_next (i : State) (c : Char) :
    (i.next jsx c []).done.head? = (Slot.ofChar (i.move jsx c []).kind c).getLast? := by
  have hne : (Slot.ofChar (i.move jsx c []).kind c).reverse ≠ [] := by simp [Slot.ofChar]
  rw [State.next, State.after, State.reads, List.flatMap_singleton,
    List.head?_append_of_ne_nil _ hne, List.head?_reverse]

/-- The last byte that a scan of the text reads belongs to the last character. -/
theorem getLast?_of_head?_run {d : Char} {k : Kind}
    (h : (run jsx .start u).done.head? = some ⟨some d, k⟩) : u.getLast? = some d := by
  rw [run_done] at h
  rw [← trace_chars jsx .start u]
  generalize trace jsx .start u = ps at h ⊢
  rcases List.eq_nil_or_concat ps with rfl | ⟨init, ⟨c, l⟩, rfl⟩
  · cases h
  · rw [List.concat_eq_append, Slot.paint_append, Slot.paint_cons, Slot.paint_nil, List.append_nil,
      List.reverse_append, List.append_assoc, List.head?_append_of_ne_nil _ (by simp [Slot.ofChar]),
      List.head?_reverse, Slot.ofChar, List.getLast?_cons] at h
    cases hn : c.utf8Size - 1 with
    | zero => simp_all
    | succ n => simp [hn, List.replicate_succ'] at h

theorem Seam.parted (h : Seam u post) : (run jsx .start u).Parted jsx post := by
  constructor
  · intro hslash
    have hlast := h '/' (getLast?_of_head?_run hslash)
    exact ⟨fun hd => ((hlast _ hd).1 rfl).1 rfl, fun hd => ((hlast _ hd).1 rfl).2 rfl⟩
  · exact fun _ htag d hd => (h '<' (getLast?_of_head?_run htag) d hd).2 rfl

/-- A move that ends in idle code with nothing in front of it ends there whatever comes next. -/
theorem move_of_idle (hmodes : ∃ n, (i.move jsx c []).modes = [.code n .root])
    (hcontext : (i.move jsx c []).context = .plain) (hparted : (i.next jsx c []).Parted jsx post) :
    i.move jsx c post = i.move jsx c [] ∧ (i.move jsx c []).pair = false := by
  have hcode : ∀ d, c = d → d.utf8Size = 1 → (i.move jsx c []).kind = .code →
      (i.next jsx c []).done.head? = some ⟨some d, .code⟩ := by
    rintro d rfl hsize hkind
    rw [head?_next, Slot.ofChar, hsize, hkind]
    rfl
  obtain ⟨done, modes, context⟩ := i
  have hspec := move_spec jsx done modes context c []
  generalize hm : State.move jsx ⟨done, modes, context⟩ c [] = m at hspec hmodes hcontext hcode ⊢
  have hasks : ∀ d ∈ State.asks ⟨done, modes, context⟩ c,
      (post.head? == some d) = (List.head? [] == some d) := by
    intro d hd
    cases hspec with
    | plain hplain =>
      obtain rfl : c = '/' := by
        by_contra hc
        simp [State.asks, hc] at hd
      have hslash := hparted.slash (hcode '/' rfl rfl (by cases hplain <;> simp_all [isQuote]))
      simp only [State.asks, List.mem_cons, List.not_mem_nil, or_false, if_true] at hd
      rcases hd with rfl | rfl
      · simpa using hslash.1
      · simpa using hslash.2
    | _ => grind [State.asks]
  have hdec : State.Plain ⟨done, modes, context⟩ → Decided jsx jsx done done c [] post := by
    rintro ⟨rfl, braces, hole, below, rfl⟩
    refine ⟨fun hq => ?_, fun hc => ?_⟩
    · -- The quote would open a string.
      simp only [State.move, plainMove, hq, stringCloses, if_true] at hm
      cases hm
      cases hcontext
    · subst hc
      have hkind : m.kind = .code := by simp [← hm, State.move, plainMove, isQuote, opensElement]
      have htag := fun hj => hparted.tag hj (hcode '<' rfl rfl hkind)
      cases jsx with
      | false => rfl
      | true =>
        rw [opensElement_eq, opensElement_eq]
        cases hpost : post.head? with
        | none => rfl
        | some d => simp [htag rfl d hpost]
  have hpair : m.pair = false := by
    cases hspec with
    | plain hplain => cases hplain <;> simp_all
    | _ => simp_all
  exact ⟨(move_congr hdec hasks).trans hm, hpair⟩

/-- The machine is in a string with this quote. -/
def State.InString (quote : Char) (s : State) : Prop :=
  s.context = .quoted quote ∧ ∃ braces hole below, s.modes = .code braces hole :: below

theorem move_of_inString {s : State} {quote : Char} (h : s.InString quote) (rest : Text) :
    s.move jsx c rest = quotedMove quote s.modes c := by
  obtain ⟨hcontext, braces, hole, below, hmodes⟩ := h
  rw [State.move, hmodes, hcontext]

/-- A string that the machine leaves before the text ends is closed in it. -/
theorem stringCloses_append {quote : Char} : ∀ {rest : Text} {s : State}, s.InString quote →
    (run jsx s rest).context = .plain → stringCloses quote rest →
    stringCloses quote (rest ++ post) = true
  | [], s, hs, hrun, _ => by cases hs.1.symm.trans hrun
  | [c], s, hs, hrun, hcloses => by
      by_cases hc : c = '\\'
      · simp [run, State.after, move_of_inString hs, quotedMove, hc] at hrun
      · rw [stringCloses_cons hc] at hcloses
        rw [List.cons_append, stringCloses_cons hc]
        split_ifs at hcloses ⊢
        · rfl
        · rename_i hne
          simp [run, State.after, move_of_inString hs, quotedMove, hc] at hrun
          simp [hrun] at hne
  | c :: d :: rest, s, hs, hrun, hcloses => by
      by_cases hc : c = '\\'
      · subst hc
        rw [List.cons_append]
        have hmove : s.move jsx '\\' (d :: rest) = ⟨.literal, true, s.modes, .quoted quote⟩ :=
          move_of_inString hs _
        rw [run_cons, reads_of_pair (by rw [hmove]), State.next, hmove] at hrun
        refine stringCloses_append ?_ hrun hcloses
        exact ⟨rfl, hs.2⟩
      · rw [stringCloses_cons hc] at hcloses
        rw [List.cons_append, stringCloses_cons hc]
        split_ifs at hcloses ⊢
        · rfl
        · rename_i hne
          have hmove : s.move jsx c (d :: rest) = ⟨.literal, false, s.modes, .quoted quote⟩ := by
            rw [move_of_inString hs]
            simpa [quotedMove, hc] using hne
          rw [run_cons, reads_single (by rw [hmove]), State.next, hmove] at hrun
          refine stringCloses_append ?_ hrun hcloses
          exact ⟨rfl, hs.2⟩

end Seams

section Joining

variable {jsx : Bool} {base base' : List Slot} {whole post u : Text} {i o : State} {c : Char}
  {rest : Text}

theorem Rooted.root_of_singleton {braces : Nat} {hole : Hole} (h : Rooted [.code braces hole]) :
    hole = .root := by
  cases h with
  | root => rfl
  | push _ h => cases h

theorem Aligned.idle (h : Aligned [] base base' whole o i u) (hroot : Rooted o.modes)
    (hidle : i.Idle) : o.Idle := by
  obtain ⟨n, hmodes⟩ := hidle.root
  have hstacks := h.modes
  rw [hmodes] at hstacks
  refine ⟨h.context.trans hidle.context, ?_⟩
  unfold State.AtRoot
  generalize o.modes = modes at hstacks hroot ⊢
  cases hstacks with
  | base braces _ hole => exact ⟨braces, by rw [hroot.root_of_singleton]⟩
  | push _ h => cases h

theorem Aligned.plain {below : List Mode} (h : Aligned below base base' whole o i u)
    (hplain : o.Plain) : i.Plain := by
  obtain ⟨hcontext, braces, hole, outer, hmodes⟩ := hplain
  have hstacks := h.modes
  rw [hmodes] at hstacks
  refine ⟨h.context.symm.trans hcontext, ?_⟩
  generalize i.modes = modes at hstacks
  cases hstacks with
  | base _ braces' _ => exact ⟨braces', .root, [], rfl⟩
  | push _ _ => exact ⟨braces, hole, _, rfl⟩

/-- Where a quote opens a string in a text that comes to its end outside strings, it does so whatever
comes next. -/
theorem stringCloses_of_idle (hplain : i.Plain) (hq : isQuote c)
    (hrun : (run jsx i (c :: rest)).context = .plain) :
    stringCloses c (rest ++ post) = stringCloses c rest := by
  cases hcloses : stringCloses c rest with
  | false =>
    cases happend : stringCloses c (rest ++ post) with
    | false => rfl
    | true =>
      rw [stringCloses_of_append happend] at hcloses
      cases hcloses
  | true =>
    obtain ⟨hcontext, braces, hole, below, hmodes⟩ := hplain
    have hmove : i.move jsx c rest = ⟨.literal, false, .code braces hole :: below, .quoted c⟩ := by
      simp [State.move, hcontext, hmodes, plainMove, hq, hcloses]
    have hreads : i.reads jsx c rest = ([c], rest) := reads_single (by rw [hmove])
    rw [run_cons, hreads, State.next, hmove] at hrun
    exact stringCloses_append ⟨rfl, _, _, _, rfl⟩ hrun hcloses

/-- Behind `base` and behind `base'` an expression can begin at the same places of the text. -/
def BeginsAlike (base base' : List Slot) (whole : Text) : Prop :=
  ∀ ps v, ps.map Prod.fst ++ v = whole →
    begins ((Slot.paint ps).reverse ++ base) = begins ((Slot.paint ps).reverse ++ base')

theorem Joins.beginsAlike (h : Joins base whole) (h' : Joins base' whole) :
    BeginsAlike base base' whole := by
  intro ps v hwhole
  rw [h.begins_append hwhole, h'.begins_append hwhole]

theorem Aligned.elementOpens {rest' : Text} (ha : Aligned [] base base' whole o i u)
    (hbegins : jsx → BeginsAlike base base' whole) (hhead : rest.head? = rest'.head?) :
    (jsx && Scan.opensElement o.done rest) = (jsx && Scan.opensElement i.done rest') := by
  cases jsx with
  | false => rfl
  | true =>
    obtain ⟨ps, ho, hi, hwhole⟩ := ha.done
    rw [opensElement_eq, opensElement_eq, ho, hi, hbegins rfl ps _ hwhole, hhead]

section

variable (ha : Aligned [] base base' whole o i u) (hroot : Rooted o.modes)
  (hbegins : jsx → BeginsAlike base base' whole)
include ha hroot hbegins

/-- The two machines stay aligned up to the end of a text that is self-contained. -/
theorem Aligned.reaches (hidle : (run jsx i u).Idle) (hparted : (run jsx i u).Parted jsx post) :
    ∃ o', Reaches jsx o (u ++ post) o' post ∧
      Aligned [] base base' whole o' (run jsx i u) [] ∧ Rooted o'.modes := by
  induction i, u using scan_induction jsx generalizing o with
  | nil i => exact ⟨o, .refl _ _, by rwa [run], hroot⟩
  | move i c rest ih =>
    have hroot' : ∀ tail, Rooted (o.move jsx c tail).modes := fun tail => rooted_move hroot c tail
    by_cases hrest : rest = []
    · subst hrest
      have hrun : run jsx i [c] = i.next jsx c [] := by rw [run_cons, State.reads, run]
      rw [hrun] at hidle hparted ⊢
      obtain ⟨hmove, hpair⟩ := move_of_idle hidle.root hidle.context hparted
      obtain ⟨hk, hf⟩ := move_step ha.context ha.modes (hroot' post).length_pos (.inl rfl)
        fun _ => ⟨fun _ => rfl, fun _ => ha.elementOpens hbegins rfl⟩
      rw [hmove] at hk hf
      have hreads : o.reads jsx c post = ([c], post) := reads_single ((hf rfl).pair.trans hpair)
      refine ⟨o.next jsx c post, .of_reads hreads (.refl _ _), ?_, hroot' post⟩
      rw [State.next, hreads]
      exact ha.after hk (hf rfl)
    · obtain ⟨cs, tail, hreads⟩ : ∃ cs tail, o.reads jsx c (rest ++ post) = (cs, tail ++ post) := by
        obtain ⟨d, rest, rfl⟩ := List.exists_cons_of_ne_nil hrest
        rcases reads_cases jsx o c (d :: rest ++ post) with h | ⟨e, tail, heq, -, h⟩
        · exact ⟨_, _, h⟩
        · obtain ⟨-, rfl⟩ : d = e ∧ rest ++ post = tail := by simpa using heq
          exact ⟨_, _, h⟩
      have hdec : o.Plain → Decided jsx jsx o.done i.done c (rest ++ post) rest := by
        intro hplain
        refine ⟨fun hq => ?_, fun _ => ?_⟩
        · exact stringCloses_of_idle (ha.plain hplain) hq hidle.context
        · exact ha.elementOpens hbegins (List.head?_append_of_ne_nil rest hrest)
      obtain ⟨hreads', -⟩ := ha.reads_eq hrest (hroot' _).length_pos hreads hdec
      obtain ⟨-, hnext⟩ := ha.step hrest (hroot' _).length_pos hreads hdec
      rw [run_cons, hreads'] at hidle hparted ⊢
      rw [hreads'] at ih
      obtain ⟨o', hreach, haligned, hroot''⟩ := ih hnext (hroot' _) hidle hparted
      exact ⟨o', .of_reads hreads hreach, haligned, hroot''⟩

/-- Two machines that read the same text to its end stay aligned. -/
theorem Aligned.run : Aligned [] base base' whole (Scan.run jsx o u) (Scan.run jsx i u) [] := by
  induction i, u using scan_induction jsx generalizing o with
  | nil i => rwa [Scan.run]
  | move i c rest ih =>
    have hroot' : Rooted (o.move jsx c rest).modes := rooted_move hroot c rest
    obtain ⟨hk, hf⟩ := move_step ha.context ha.modes hroot'.length_pos (.inl rfl)
      fun _ => ⟨fun _ => rfl, fun _ => ha.elementOpens hbegins rfl⟩
    have hreads : o.reads jsx c rest = i.reads jsx c rest := by
      cases rest with
      | nil => rfl
      | cons d rest => rw [State.reads, State.reads, (hf rfl).pair]
    rw [run_cons, run_cons, hreads]
    refine ih ?_ hroot'
    rw [← reads_append jsx i c rest] at ha
    rw [State.next, hreads]
    exact ha.after hk (hf rfl)

end

theorem Stacks.markupFree_iff {outer inner : List Mode} (h : Stacks [] outer inner) :
    MarkupFree outer ↔ MarkupFree inner := by
  induction h with
  | base braces braces' hole => exact ⟨fun _ => rfl, fun _ => rfl⟩
  | push mode _ ih => rw [markupFree_cons, markupFree_cons, ih]

end Joining

section Pieces

variable {jsx : Bool} {o o' o'' : State} {u v post : Text} {ps qs : Painted}

theorem Reaches.run_eq {s s' : State} {t t' : Text} (h : Reaches jsx s t s' t') :
    run jsx s t = run jsx s' t' := by
  induction h with
  | refl => rfl
  | move _ ih => rw [run_cons, ih]

/-- The machine reads `u` in front of `post` as `ps` and is idle behind it. -/
structure Reads (jsx : Bool) (o : State) (u : Text) (ps : List (Char × Kind)) (post : Text)
    (o' : State) : Prop where
  reaches : Reaches jsx o (u ++ post) o' post
  done : o'.done = (Slot.paint ps).reverse ++ o.done
  idle : o'.Idle

theorem Reads.trans (h : Reads jsx o u ps (v ++ post) o') (h' : Reads jsx o' v qs post o'') :
    Reads jsx o (u ++ v) (ps ++ qs) post o'' where
  reaches := by
    rw [List.append_assoc]
    exact h.reaches.trans h'.reaches
  done := by rw [h'.done, h.done, Slot.paint_append, List.reverse_append, List.append_assoc]
  idle := h'.idle

theorem Reads.congr (h : Reads jsx o u ps post o') (hu : v = u) (hps : qs = ps) :
    Reads jsx o v qs post o' := by
  subst hu hps
  exact h

theorem start_idle : State.start.Idle := ⟨rfl, 0, rfl⟩

theorem State.Idle.rooted (h : o.Idle) : Rooted o.modes := by
  obtain ⟨n, hmodes⟩ := h.root
  rw [hmodes]
  exact .root n

theorem State.Idle.aligned (h : o.Idle) (u : Text) : Aligned [] o.done [] u o .start u := by
  obtain ⟨n, hmodes⟩ := h.root
  refine ⟨h.context, ?_, [], rfl, rfl, rfl⟩
  rw [hmodes]
  exact .base _ _ _

/-- A self-contained text is read as it is on its own. -/
theorem reads_selfContained (ho : o.Idle) (hu : (run jsx .start u).Idle)
    (hj : jsx → Joins o.done u) (hseam : Seam u post) :
    ∃ o', Reads jsx o u (trace jsx .start u) post o' := by
  obtain ⟨o', hreach, ha, hroot⟩ :=
    (ho.aligned u).reaches ho.rooted (fun h => (hj h).beginsAlike (.nil u)) hu hseam.parted
  refine ⟨o', hreach, ?_, ha.idle hroot hu⟩
  obtain ⟨ps, hdone, hdone', -⟩ := ha.done
  rw [run_done] at hdone'
  rw [hdone, List.append_cancel_right hdone']

/-- Characters that an idle machine reads as code. -/
def isIdleChar (c : Char) : Bool := isPlainChar c || c == '\x7d'

theorem idle_next (jsx : Bool) {c : Char} (ho : o.Idle) (hc : isIdleChar c) (rest : Text) :
    o.reads jsx c rest = ([c], rest) ∧ (o.next jsx c rest).Idle ∧
      (o.move jsx c rest).kind = .code := by
  have hne : ∀ d, isIdleChar d = false → c ≠ d := by
    rintro d hd rfl
    rw [hc] at hd
    cases hd
  have hquote : isQuote c = false := by simp [isQuote, hne '\x22' rfl, hne '\x27' rfl]
  have hmove : (o.move jsx c rest).kind = .code ∧ (o.move jsx c rest).context = .plain ∧
      ∃ n, (o.move jsx c rest).modes = [.code n .root] := by
    obtain ⟨n, hmodes⟩ := ho.root
    rw [State.move, hmodes, ho.context]
    dsimp only
    generalize hm : plainMove jsx o.done n .root [] c rest = m
    have hspec := hm ▸ plainMove_spec
    cases hspec with
    | stringOpens h => simp [hquote] at h
    | loneQuote h => simp [hquote] at h
    | templateOpens h => exact absurd h (hne _ rfl)
    | lineComment h => exact absurd h (hne _ rfl)
    | blockComment h => exact absurd h (hne _ rfl)
    | elementOpens h => exact absurd h (hne _ rfl)
    | templateHoleCloses _ _ h => cases h
    | containerCloses _ _ h => cases h
    | _ => exact ⟨rfl, rfl, _, rfl⟩
  exact ⟨reads_single (move_pair_of_code hmove.1), ⟨hmove.2.1, hmove.2.2⟩, hmove.1⟩

/-- An idle machine reads such characters one at a time and stays idle. -/
theorem reads_plain (jsx : Bool) {g : Text} (ho : o.Idle) (hg : g.all isIdleChar)
    (post : Text) : ∃ o', Reads jsx o g (g.map fun c => (c, .code)) post o' := by
  induction g generalizing o with
  | nil => exact ⟨o, .refl _ _, rfl, ho⟩
  | cons c g ih =>
    rw [List.all_cons, Bool.and_eq_true] at hg
    obtain ⟨hreads, hidle, hkind⟩ := idle_next jsx ho hg.1 (g ++ post)
    obtain ⟨o', hreach, hdone, hidle'⟩ := ih hidle hg.2
    refine ⟨o', .of_reads hreads hreach, ?_, hidle'⟩
    rw [hdone, State.next, State.after, hreads, hkind]
    simp

theorem Reads.run_eq {t : Text} (h : Reads jsx o t ps [] o') : run jsx o t = o' := by
  have := h.reaches.run_eq
  rwa [List.append_nil] at this

/-- A text has the kinds that its first piece is read with, and then those of the rest. -/
theorem Reads.trace_append (h : Reads jsx o u ps post o') :
    trace jsx o (u ++ post) = ps ++ trace jsx o' post := by
  have hdone := run_done jsx o (u ++ post)
  rw [h.reaches.run_eq, run_done, h.done, ← List.append_assoc, ← List.reverse_append,
    ← Slot.paint_append, List.append_cancel_right_eq, List.reverse_inj] at hdone
  exact (Slot.paint_injective hdone).symm

/-- What a text is read as, piece by piece, are its kinds. -/
theorem kinds_of_reads {t : Text} (h : Reads true .start t ps [] o) : kinds t = ps := by
  obtain ⟨n, hmodes⟩ := h.idle.root
  have hfree : MarkupFree (run true .start t).modes := by
    rw [h.run_eq, hmodes]
    rfl
  have htrace := h.trace_append
  rw [List.append_nil, trace_nil, List.append_nil] at htrace
  rw [kinds, withMarkup_iff.mpr hfree, htrace]

end Pieces

end Scan

end Declass
