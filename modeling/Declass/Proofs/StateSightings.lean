import Declass.Proofs.Diagnostics
import Declass.Proofs.IdentifierKinds
import Declass.Proofs.InsetExtraction
import Declass.Proofs.PatternLanguages

/-!
# Where the state initializer is seen

**Input.** A class component, and receivers that are identifiers.

**Algorithm.** An `Assignment` is the text of an assignment to the state of a receiver up to its
brace, and it is `SeenAt` a place if it stands there in code and behind an edge.  The search takes
matches from left to right and leaves out those that start inside an earlier one.  Such a match
starts inside the receiver of the earlier one, which is code too.

**Results.** `assignedState_reads`: the literal that is taken is that of the first assignment that
is seen.  `SeenAt.brace_le`: no brace stands between the start of an assignment and its own.
-/

namespace Declass

open CodeMap
open Character (isIdentPart isSpace isWord)

/-- An assignment to the state of a receiver up to its brace, with the white space in it. -/
structure Assignment where
  receiver : Text
  beforeDot : Text
  beforeName : Text
  beforeEquals : Text
  beforeBrace : Text

namespace Assignment

/-- What stands behind the white space in front of the dot. -/
def tail (a : Assignment) : Text :=
  a.beforeName ++ ("state" ++ (a.beforeEquals ++ ("=" ++ a.beforeBrace)))

/-- The assignment without its brace. -/
def stem (a : Assignment) : Text := a.receiver ++ a.beforeDot ++ '.' :: a.tail

/-- The text of the assignment. -/
def text (a : Assignment) : Text := a.stem ++ ['\x7b']

/-- The position of the brace of an assignment at position `i`. -/
def brace (a : Assignment) (i : Nat) : Nat := i + a.stem.size

/-- The assignment is one to the state of a receiver. -/
structure Fits (receivers : List Text) (a : Assignment) : Prop where
  receiver : a.receiver ∈ receivers
  beforeDot : ∀ c ∈ a.beforeDot, isSpace c = true
  beforeName : ∀ c ∈ a.beforeName, isSpace c = true
  beforeEquals : ∀ c ∈ a.beforeEquals, isSpace c = true
  beforeBrace : ∀ c ∈ a.beforeBrace, isSpace c = true

section Matching

open Matcher Component

variable {receivers : List Text} {pre rest : Text} {found : Match}

/-- What the pattern of state assignments goes through behind its edge. -/
def matchers (receivers : List Text) : List Matcher :=
  [.anyWord receivers, .spaces, .one (· == '.'), .spaces, .word "state", .spaces, .one (· == '='),
    .spaces, .one (· == '\x7b')]

theorem mem_before {c e : Cursor} :
    e ∈ (stateAssignment receivers).before c ↔ ∃ s ∈ edge c, e ∈ seq (matchers receivers) s := by
  have hbefore : (stateAssignment receivers).before = seq (edge :: matchers receivers) := by
    dsimp only [stateAssignment, matchers]
  rw [hbefore, mem_seq_cons]

/-- The words that the pattern of state assignments reads are the assignments. -/
theorem matchers_reads (h : receivers ≠ []) :
    Reads (seq (matchers receivers)) {u | ∃ a, Fits receivers a ∧ u = a.text} := by
  have hreads := seq_cons_reads (anyWord_reads h) <| seq_cons_reads spaces_reads <|
    seq_cons_reads (char_reads '.') <| seq_cons_reads spaces_reads <|
    seq_cons_reads (word_reads "state") <| seq_cons_reads spaces_reads <|
    seq_cons_reads (char_reads '=') <| seq_cons_reads spaces_reads <|
    seq_cons_reads (char_reads '\x7b') seq_nil_reads
  refine Eq.mp (congrArg _ (Set.ext fun u => ?_)) hreads
  constructor
  · rintro ⟨w, hw, _, ⟨s₁, h₁, _, ⟨_, rfl, _, ⟨s₂, h₂, _, ⟨_, rfl, _, ⟨s₃, h₃, _, ⟨_, rfl, _,
      ⟨s₄, h₄, _, ⟨_, rfl, _, rfl, rfl⟩, rfl⟩, rfl⟩, rfl⟩, rfl⟩, rfl⟩, rfl⟩, rfl⟩, rfl⟩
    exact ⟨⟨w, s₁, s₂, s₃, s₄⟩, ⟨hw, h₁, h₂, h₃, h₄⟩, by simp [text, stem, tail]⟩
  · rintro ⟨a, ha, rfl⟩
    exact ⟨a.receiver, ha.receiver, _, ⟨a.beforeDot, ha.beforeDot, _, ⟨['.'], rfl, _,
      ⟨a.beforeName, ha.beforeName, _, ⟨"state", rfl, _, ⟨a.beforeEquals, ha.beforeEquals, _,
      ⟨['='], rfl, _, ⟨a.beforeBrace, ha.beforeBrace, _, ⟨['\x7b'], rfl, _, rfl, rfl⟩, rfl⟩, rfl⟩,
      rfl⟩, rfl⟩, rfl⟩, rfl⟩, rfl⟩, by simp [text, stem, tail]⟩

/-- A match of the pattern is an assignment behind an edge. -/
theorem exists_of_matchAt (h : receivers ≠ [])
    (hfound : (stateAssignment receivers).matchAt (.behind pre rest) = some found) :
    Text.EdgeBetween pre rest ∧ found.start = pre.size ∧ ∃ a post, Fits receivers a ∧
      rest = a.text ++ post ∧ found.stop = pre.size + a.text.size := by
  obtain ⟨e, he, b, hb, e', he', rfl⟩ := Pattern.exists_of_matchAt hfound
  obtain rfl : b = e := List.mem_singleton.mp hb
  obtain rfl : e' = b := List.mem_singleton.mp he'
  obtain ⟨s, hs, he⟩ := mem_before.mp he
  obtain ⟨hedge, rfl⟩ := mem_edge.mp hs
  obtain ⟨u, ⟨a, ha, rfl⟩, post, hrest, rfl⟩ := (matchers_reads h pre rest e').mp he
  exact ⟨hedge, rfl, a, post, ha, hrest, Text.size_append pre a.text⟩

/-- An assignment behind an edge is a match of the pattern. -/
theorem exists_matchAt {a : Assignment} {post : Text} (ha : Fits receivers a)
    (hedge : Text.EdgeBetween pre (a.text ++ post)) :
    ∃ found, (stateAssignment receivers).matchAt (.behind pre (a.text ++ post)) = some found := by
  have hne : receivers ≠ [] := List.ne_nil_of_mem ha.receiver
  have hend : Cursor.behind (pre ++ a.text) post ∈
      (stateAssignment receivers).before (.behind pre (a.text ++ post)) :=
    mem_before.mpr ⟨.behind pre (a.text ++ post), mem_edge.mpr ⟨hedge, rfl⟩,
      (matchers_reads hne pre _ _).mpr ⟨a.text, ⟨a, ha, rfl⟩, post, rfl, rfl⟩⟩
  exact Pattern.exists_matchAt hend (List.mem_singleton.mpr rfl) (List.mem_singleton.mpr rfl)

end Matching

section Shape

variable {receivers : List Text} (hr : ∀ w ∈ receivers, w.isIdentifier) {a b : Assignment}
  {u post post' : Text}

theorem not_mem_of_forall {p : Char → Bool} {x : Char} (h : ∀ c ∈ u, p c)
    (hx : p x = false) : x ∉ u := by
  intro hmem
  rw [h x hmem] at hx
  cases hx

/-- A text that is cut at a character for the first time is cut in one way. -/
theorem append_cons_inj {x : Char} {u v p q : Text} (hu : x ∉ u) (hv : x ∉ v)
    (h : u ++ x :: p = v ++ x :: q) : u = v ∧ p = q := by
  have hne : ∀ {w : Text}, x ∉ w → ∀ c ∈ w, (c != x) := by
    intro w hw c hc
    rw [bne_iff_ne]
    rintro rfl
    exact hw hc
  obtain ⟨rfl, hrest⟩ := Text.run_inj (hne hu) (hne hv) (by simp) (by simp) h
  exact ⟨rfl, (List.cons.inj hrest).2⟩

include hr

/-- Characters that are neither white space nor part of a name stand in an assignment only where
they belong. -/
theorem Fits.not_mem_front (ha : a.Fits receivers) {x : Char}
    (hident : isIdentPart x = false) (hspace : isSpace x = false) :
    x ∉ a.receiver ++ a.beforeDot := by
  rw [List.mem_append, not_or]
  exact ⟨not_mem_of_forall (Text.isIdentPart_of_isIdentifier (hr _ ha.receiver)) hident,
    not_mem_of_forall ha.beforeDot hspace⟩

omit hr in
theorem Fits.not_mem_tail (ha : a.Fits receivers) {x : Char}
    (hident : isIdentPart x = false) (hspace : isSpace x = false)
    (hequals : x ≠ '=') : x ∉ a.tail := by
  have hall : ("state" : Text).all isIdentPart := rfl
  have hstate : x ∉ ("state" : Text) := not_mem_of_forall (List.all_eq_true.mp hall) hident
  simp only [tail, List.mem_append, not_or]
  exact ⟨not_mem_of_forall ha.beforeName hspace, hstate, not_mem_of_forall ha.beforeEquals hspace,
    by simpa using hequals, not_mem_of_forall ha.beforeBrace hspace⟩

theorem Fits.brace_not_mem (ha : a.Fits receivers) : '\x7b' ∉ a.stem := by
  rw [stem, List.mem_append, List.mem_cons, not_or, not_or]
  exact ⟨ha.not_mem_front hr rfl rfl, by decide, ha.not_mem_tail rfl rfl (by decide)⟩

/-- An assignment that starts inside another one starts inside its receiver. -/
theorem overlap (ha : a.Fits receivers) (hb : b.Fits receivers)
    (h : a.text ++ post = u ++ (b.text ++ post')) (hlt : u.size < a.text.size) :
    ∃ v, a.receiver = u ++ v := by
  -- The first brace is the brace of both.
  have hstem : a.stem = u ++ b.stem := by
    rcases List.append_eq_append_iff.mp h with ⟨v, rfl, hv⟩ | ⟨v, hv, hpost⟩
    · rw [Text.size_append] at hlt
      omega
    · rcases List.eq_nil_or_concat v with rfl | ⟨v, x, rfl⟩
      · rw [hv, List.append_nil] at hlt
        exact absurd hlt (lt_irrefl _)
      · rw [List.concat_eq_append, ← List.append_assoc] at hv
        obtain ⟨hstem, hx⟩ := List.append_inj' hv rfl
        obtain rfl := (List.cons.inj hx).1
        have hfree : '\x7b' ∉ v := fun hmem =>
          ha.brace_not_mem hr (hstem ▸ List.mem_append_right _ hmem)
        simp only [text, List.concat_eq_append, List.append_assoc, List.singleton_append] at hpost
        rw [hstem, (append_cons_inj hfree (hb.brace_not_mem hr) hpost.symm).1]
  have hdots : ∀ {c : Assignment}, c.Fits receivers → c.stem.count '.' = 1 := by
    intro c hc
    rw [stem, List.count_append, List.count_cons_self,
      List.count_eq_zero_of_not_mem (hc.not_mem_front hr rfl rfl),
      List.count_eq_zero_of_not_mem (hc.not_mem_tail rfl rfl (by decide))]
  have hfree : '.' ∉ u := by
    have hcount := congrArg (List.count '.') hstem
    rw [List.count_append, hdots ha, hdots hb] at hcount
    exact List.count_eq_zero.mp (by omega)
  have hfront : u ++ (b.receiver ++ b.beforeDot) = a.receiver ++ a.beforeDot := by
    rw [stem, stem, ← List.append_assoc] at hstem
    refine (append_cons_inj ?_ (ha.not_mem_front hr rfl rfl) hstem.symm).1
    rw [List.mem_append, not_or]
    exact ⟨hfree, hb.not_mem_front hr rfl rfl⟩
  rcases List.append_eq_append_iff.mp hfront with ⟨v, hv, -⟩ | ⟨v, -, hv⟩
  · exact ⟨v, hv⟩
  · -- The receiver inside would start with white space.
    have hident := hr _ hb.receiver
    cases hw : b.receiver with
    | nil => rw [hw] at hident; cases hident
    | cons c w =>
      have hc := ha.beforeDot c (by rw [hv, hw]; simp)
      rw [hw] at hident
      rw [Text.isSpace_of_isIdentPart (Text.isIdentPart_of_isIdentifier hident c (by simp))] at hc
      cases hc

end Shape

end Assignment

section Seen

open Assignment

/-- An assignment stands in the class body, in code and behind an edge. -/
structure SeenAt (t : Text) (body : Span) (receivers : List Text) (a : Assignment) (i : Nat) :
    Prop where
  fits : a.Fits receivers
  place : ∃ pre post, t = pre ++ (a.text ++ post) ∧ pre.size = i ∧
    Text.EdgeBetween pre (a.text ++ post)
  inside : body.start ≤ i ∧ a.brace i < body.stop
  code : (ofText t).isCode i = true

/-- The first assignment that is seen in the class body. -/
structure FirstSeen (t : Text) (body : Span) (receivers : List Text) (a : Assignment) (i : Nat) :
    Prop where
  seen : SeenAt t body receivers a i
  first : ∀ b j, SeenAt t body receivers b j → i ≤ j

theorem Assignment.size_text (a : Assignment) : a.text.size = a.stem.size + 1 := by
  rw [text, Text.size_append]
  rfl

theorem Assignment.text_ne_nil (a : Assignment) : a.text ≠ [] := by simp [text]

/-- Behind a character that is not part of a word, an edge is where the text behind it has one. -/
theorem edgeBetween_inside {front pre rest post : Text}
    (hfront : front.getLast?.any isWord = false) (hrest : rest ≠ []) :
    Text.EdgeBetween (front ++ pre) (rest ++ post) ↔ Text.EdgeBetween pre rest := by
  unfold Text.EdgeBetween
  rw [List.head?_append_of_ne_nil _ hrest, List.getLast?_append]
  cases pre.getLast? with
  | none => rw [Option.none_or, hfront]; rfl
  | some c => rfl

variable {t front text back : Text} {receivers : List Text}
  (hr : ∀ w ∈ receivers, w.isIdentifier) (ht : t = front ++ text ++ back)
  (hfront : front.getLast?.any isWord = false)
include ht hfront

/-- What the extraction finds in code is seen there. -/
theorem exists_seenAt {found : Match} (hfound : found ∈ Component.stateAssignments receivers text)
    (hcode : (ofText t).isCode (front.size + found.start)) :
    ∃ a, SeenAt t ⟨front.size, front.size + text.size⟩ receivers a (front.size + found.start) ∧
      a.brace (front.size + found.start) = front.size + found.stop - 1 := by
  unfold Component.stateAssignments at hfound
  split at hfound
  · cases hfound
  rename_i hne
  obtain ⟨pre, rest, htext, hmatch⟩ := Pattern.exists_of_mem_occurrences hfound
  obtain ⟨hedge, hstart, a, post, ha, rfl, hstop⟩ :=
    Assignment.exists_of_matchAt (by simpa using hne) hmatch
  have hsize := a.size_text
  refine ⟨a, ⟨ha, ⟨front ++ pre, post ++ back, ?_, ?_, ?_⟩, ⟨by simp, ?_⟩, hcode⟩, ?_⟩
  · rw [ht, htext]
    simp
  · rw [Text.size_append, hstart]
  · rw [← List.append_assoc a.text]
    exact (edgeBetween_inside hfront (by simp [a.text_ne_nil])).mpr hedge
  · rw [htext, Assignment.brace, Text.size_append, Text.size_append]
    dsimp only
    omega
  · rw [Assignment.brace]
    omega

include hr

/-- Where an assignment is seen, the extraction finds one in code that starts no later. -/
theorem SeenAt.exists_found {a : Assignment} {i : Nat}
    (h : SeenAt t ⟨front.size, front.size + text.size⟩ receivers a i) :
    ∃ found ∈ Component.stateAssignments receivers text, front.size + found.start ≤ i ∧
      (ofText t).isCode (front.size + found.start) := by
  obtain ⟨whole, post, hplace, rfl, hedge⟩ := h.place
  obtain ⟨hstart, hstop⟩ := h.inside
  have hsize := a.size_text
  dsimp only at hstart hstop
  rw [Assignment.brace] at hstop
  -- The assignment lies in the text that is searched.
  have hsplit : front ++ (text ++ back) = whole ++ (a.text ++ post) := by
    rw [← hplace, ht, List.append_assoc]
  obtain ⟨pre, rfl, hin⟩ := Text.append_split_of_size hsplit hstart
  rw [Text.size_append] at hstop
  rw [← List.append_assoc] at hin
  obtain ⟨rest, rfl, rfl⟩ := Text.append_split_of_size hin.symm (by rw [Text.size_append]; omega)
  have hne : receivers ≠ [] := List.ne_nil_of_mem h.fits.receiver
  have hlist : Component.stateAssignments receivers (pre ++ a.text ++ rest) =
      (Component.stateAssignment receivers).occurrences (pre ++ (a.text ++ rest)) := by
    rw [Component.stateAssignments, if_neg (by simpa using hne), List.append_assoc]
  rw [← List.append_assoc a.text, edgeBetween_inside hfront (by simp [a.text_ne_nil])] at hedge
  obtain ⟨found, hmatch⟩ := Assignment.exists_matchAt h.fits hedge
  have hat : found.start = pre.size := Pattern.start_of_matchAt hmatch
  rw [hlist]
  rcases Pattern.mem_occurrences_or_inside (by simp [a.text_ne_nil]) hmatch with hmem | hinside
  · refine ⟨found, hmem, by rw [hat, Text.size_append], ?_⟩
    rw [hat, ← Text.size_append]
    exact h.code
  · -- It starts inside the receiver of an assignment that was found before, which is code too.
    obtain ⟨g, hg, hbefore, hbehind⟩ := hinside
    obtain ⟨pre', rest', hpre, hmatch'⟩ := Pattern.exists_of_mem_occurrences hg
    obtain ⟨-, hgstart, b, post', hb, rfl, hgstop⟩ := Assignment.exists_of_matchAt hne hmatch'
    refine ⟨g, hg, by rw [Text.size_append]; omega, ?_⟩
    obtain ⟨u, rfl, hu⟩ := Text.append_split_of_size hpre.symm (by omega)
    rw [Text.size_append] at hbefore hbehind
    obtain ⟨v, hv⟩ := Assignment.overlap hr hb h.fits hu (by omega)
    have hparts := Text.isIdentPart_of_isIdentifier (hr _ hb.receiver)
    have hident := hr _ h.fits.receiver
    cases hw : a.receiver with
    | nil => rw [hw] at hident; cases hident
    | cons c w =>
      rw [hw] at hident
      have hc := Text.isIdentPart_of_isIdentifier hident c List.mem_cons_self
      have hcode := h.code
      rw [Text.size_append, Text.size_append, ← Nat.add_assoc, ← hgstart] at hcode
      refine isCode_of_ident (fun d hd => hparts d (by simp [hv, hd])) hc
        ⟨front ++ pre', ?_, ?_, ?_⟩ hcode
      · exact w ++ (a.beforeDot ++ '.' :: (a.tail ++ '\x7b' :: (rest ++ back)))
      · rw [ht]
        simp [Assignment.text, Assignment.stem, hw]
      · rw [Text.size_append, hgstart]

end Seen

section Braces

variable {t : Text} {body : Span} {receivers : List Text} {a : Assignment} {i : Nat}

theorem SeenAt.charAt?_brace (h : SeenAt t body receivers a i) :
    (ofText t).charAt? (a.brace i) = some '\x7b' := by
  obtain ⟨pre, post, ht, rfl, -⟩ := h.place
  refine charAt?_ofText_iff.mpr ⟨pre ++ a.stem, post, ?_, Text.size_append _ _⟩
  rw [ht, Assignment.text]
  simp

/-- No brace stands between the start of an assignment and its brace. -/
theorem SeenAt.brace_le (hr : ∀ w ∈ receivers, w.isIdentifier)
    (h : SeenAt t body receivers a i) {v : Nat} (hv : (ofText t).charAt? v = some '\x7b')
    (hle : i ≤ v) : a.brace i ≤ v := by
  by_contra hlt
  rw [Assignment.brace] at hlt
  obtain ⟨pre, post, ht, rfl, -⟩ := h.place
  obtain ⟨pre', post', ht', rfl⟩ := charAt?_ofText_iff.mp hv
  rw [ht, List.append_assoc] at ht'
  obtain ⟨mid, rfl, hmid⟩ := Text.append_split_of_size ht' hle
  rw [Text.size_append] at hlt
  rw [Assignment.text, List.append_assoc] at hmid
  obtain ⟨rest, hstem, hrest⟩ := Text.append_split_of_size hmid.symm (by omega)
  refine h.fits.brace_not_mem hr ?_
  cases rest with
  | nil =>
    rw [hstem, List.append_nil] at hlt
    omega
  | cons c rest =>
    obtain rfl := (List.cons.inj hrest).1
    rw [hstem]
    simp

end Braces

section ClassBody

theorem stateAssignments_ordered (receivers : List Text) (text : Text) :
    (Component.stateAssignments receivers text).Pairwise fun a b => a.stop ≤ b.start := by
  unfold Component.stateAssignments
  split
  · exact .nil
  · exact Pattern.occurrences_ordered (Component.stateAssignment_forward receivers) text

variable {t : Text} {header : Match} {body : Span} {receivers : List Text}

theorem exists_classBody_text (h : Component.classBody? (ofText t) header = some body) :
    ∃ front text back, t = front ++ text ++ back ∧ front.getLast?.any isWord = false ∧
      body = ⟨front.size, front.size + text.size⟩ ∧
      (ofText t).slice body.start body.stop = .ok text := by
  have hm := Scan.ofText_shows t
  obtain ⟨text, hslice, hlies, hstop⟩ := slice_yields hm (Component.classBody?_spec hm h).1
  rw [Scan.kinds_chars] at hlies
  obtain ⟨front, back, ht, hfront⟩ := hlies
  refine ⟨front, text, back, ht, ?_, ?_, hslice⟩
  · obtain ⟨o, hopen, rfl⟩ := Option.map_eq_some_iff.mp h
    obtain ⟨-, -, hspells⟩ := findCode_spec hopen
    have hlies := (spells_iff hm (spells_boundary hm (by decide) hspells)).mp hspells
    rw [Scan.kinds_chars] at hlies
    obtain ⟨pre, post, ht', rfl⟩ := hlies
    rw [ht, List.append_assoc] at ht'
    obtain ⟨rfl, -⟩ := Text.append_inj_of_size ht' (by rw [hfront, Text.size_append]; rfl)
    rw [show ("\x7b" : Text) = ['\x7b'] from rfl, List.getLast?_concat]
    rfl
  · rw [hfront, hstop]

/-- The state that is assigned is the literal of the first assignment that is seen. -/
theorem assignedState_reads (hr : ∀ w ∈ receivers, w.isIdentifier)
    (hbody : Component.classBody? (ofText t) header = some body) {l : List (Nat × Snippet)}
    (h : Component.assignedState (ofText t) receivers body.start body.stop = .ok l) :
    (l = [] ∧ ∀ a i, ¬SeenAt t body receivers a i) ∨ ∃ a i, FirstSeen t body receivers a i ∧
        Component.Findings.ReadsLiteral (ofText t) i (a.brace i) l := by
  obtain ⟨front, text, back, ht, hfront, rfl, hslice⟩ := exists_classBody_text hbody
  unfold Component.assignedState at h
  rw [bind_of_eq_ok hslice] at h
  cases hfind : (Component.stateAssignments receivers text).find? fun found =>
      (ofText t).isCode (front.size + found.start) with
  | none =>
    rw [hfind] at h
    cases h
    refine .inl ⟨rfl, fun a i hseen => ?_⟩
    obtain ⟨found, hmem, -, hcode⟩ := hseen.exists_found hr ht hfront
    exact absurd hcode (by simpa using List.find?_eq_none.mp hfind found hmem)
  | some found =>
    rw [hfind] at h
    obtain ⟨hcode, before, after, hlist, hbefore⟩ := List.find?_eq_some_iff_append.mp hfind
    have hmem := List.mem_of_find?_eq_some hfind
    obtain ⟨a, hseen, hbrace⟩ := exists_seenAt ht hfront hmem hcode
    refine .inr ⟨a, front.size + found.start, ⟨hseen, fun b j hb => ?_⟩, ?_⟩
    · -- What is found in code is the first such one, or comes behind it.
      obtain ⟨g, hg, hle, hgcode⟩ := hb.exists_found hr ht hfront
      rw [hlist, List.mem_append, List.mem_cons] at hg
      rcases hg with hg | rfl | hg
      · exact absurd hgcode (by simpa using hbefore g hg)
      · exact hle
      · have hordered := stateAssignments_ordered receivers text
        rw [hlist] at hordered
        have hstop := (List.pairwise_cons.mp (List.pairwise_append.mp hordered).2.1).1 g hg
        have hlt := (Component.stateAssignment_lt hmem).1
        omega
    · rw [hbrace]
      dsimp only at h
      split at h
      · rename_i hmatch
        cases h
        exact .unclosed hmatch
      · rename_i close hmatch
        obtain ⟨s, hs, h⟩ := bind_eq_ok h
        cases h
        exact .closed hmatch hs

end ClassBody

end Declass
