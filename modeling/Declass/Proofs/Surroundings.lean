import Declass.Proofs.Concatenation
import Declass.Proofs.Locality
import Declass.Proofs.Rebasing

/-!
# A class component among other code

**Input.** A text that converts, with other text before and behind it.

A `Preamble` is a text whose statements are complete and that declares no class component.  A text
is `Complete` if its statements are complete and it closes the body of its class component.

**Algorithm.** The three texts are scanned one after the other: the machine is idle at both seams,
and an expression can begin there, so each text has the kinds it has on its own.  The search for the
declaration does not look past the semicolon before the first seam nor past the brace of the class
body, and what follows happens between that brace and the one that closes it.

**Results.** `convert_surrounded`: the surrounding text leaves the module as it is and moves what is
reported.  `comment_semicolon_misleads`: a semicolon at the end does not make a preamble.
-/

namespace Declass

open CodeMap Scan

section Seams

variable {t u post : Text} {ps : Painted} {base : List Slot}

/-- The character belongs to a comment or to the layout. -/
def Filler (p : Char × Kind) : Prop :=
  p.2 = .comment ∨ Character.isLayout p.1 = true

theorem filler_slot {p : Char × Kind} (h : Filler p) {s : Slot}
    (hs : s ∈ Slot.ofChar p.2 p.1) : (s.kind == .comment || s.isLayout) := by
  obtain ⟨c, k⟩ := p
  rcases h with h | h
  · obtain rfl : k = .comment := h
    have hkind : s.kind = .comment := by
      rcases List.mem_cons.mp hs with rfl | hs
      · rfl
      · rw [List.eq_of_mem_replicate hs]
    simp [hkind]
  · rw [Slot.ofChar, utf8Size_of_isLayout h] at hs
    obtain rfl := List.mem_singleton.mp hs
    simp [Slot.isLayout, h]

theorem begins_of_ended {x : Char} (hx : x = ';' ∨ x = '\x7d') {tail : Painted}
    (htail : ∀ p ∈ tail, Filler p) :
    begins ((Slot.paint (ps ++ (x, .code) :: tail)).reverse ++ base) := by
  have hskip : ∀ s ∈ (Slot.paint tail).reverse, (s.kind == .comment || s.isLayout) := by
    intro s hs
    obtain ⟨p, hp, hs⟩ := List.mem_flatMap.mp (List.mem_reverse.mp hs)
    exact filler_slot (htail p hp) hs
  have hone : Slot.ofChar .code x = [⟨some x, .code⟩] := by rcases hx with rfl | rfl <;> rfl
  rw [Slot.paint_append, Slot.paint_cons, List.reverse_append, List.reverse_append,
    List.append_assoc, List.append_assoc, begins, List.dropWhile_append_of_pos hskip]
  rcases hx with rfl | rfl <;> rfl

/-- A text that ends with a line feed leaves nothing open at its end. -/
theorem seam_of_newline (h : u.getLast? = some '\n') (post : Text) : Seam u post := by
  intro c hc d _
  obtain rfl : '\n' = c := Option.some.inj (h.symm.trans hc)
  exact ⟨nofun, nofun⟩

theorem joins_of_newline (hbegins : begins ((Slot.paint ps).reverse ++ base))
    (hnewline : (ps.map Prod.fst).getLast? = some '\n') (u : Text) :
    Joins ((Slot.paint ps).reverse ++ base) u := by
  refine ⟨hbegins, fun _ _ _ s hs => ?_⟩
  rw [List.getLast?_map] at hnewline
  obtain ⟨⟨c, k⟩, hlast, rfl⟩ := Option.map_eq_some_iff.mp hnewline
  obtain ⟨init, rfl⟩ := List.getLast?_eq_some_iff.mp hlast
  have hone : Slot.ofChar k '\n' = [⟨some '\n', k⟩] := rfl
  simp only [Slot.paint_append, Slot.paint_cons, Slot.paint_nil, hone, List.append_nil,
    List.reverse_append, List.reverse_singleton, List.cons_append, List.head?_cons,
    Option.mem_some] at hs
  subst hs
  rfl

/-- A text after which the machine is idle is scanned with markup. -/
theorem kinds_of_idle (h : (run true .start t).Idle) : kinds t = trace true .start t := by
  have hseam : Seam t [] := by simp [Seam]
  obtain ⟨o, hreads⟩ := reads_selfContained start_idle h (fun _ => .nil t) hseam
  exact kinds_of_reads hreads

end Seams

/-- The statements of the text end, with a semicolon at its end, an expression can begin behind
them, and none of them declares a class component. -/
structure Preamble (p : Text) : Prop where
  idle : (run true .start p).Idle
  ends : ∃ u, p = u ++ [';', '\n']
  begins : begins (Slot.paint (kinds p)).reverse = true
  noClass : Component.isClass p = false

/-- The statements of the text end, the last of them with a semicolon or a brace, and one of them
declares a class component whose body is closed. -/
structure Complete (s : Text) : Prop where
  idle : (run true .start s).Idle
  ends : ∃ ps x tail, kinds s = ps ++ (x, .code) :: tail ∧ (x = ';' ∨ x = '\x7d') ∧
    ∀ p ∈ tail, Filler p
  newline : s.getLast? = some '\n'
  closed : ∃ header o c, Component.findDeclaration? (ofText s) s = some header ∧
    (ofText s).findCode header.stop (ofText s).size "\x7b" = some o ∧
    (ofText s).matching o = some c

section Scanning

variable {p s q u post : Text} {o : State} {ps : Painted}

theorem Preamble.newline (h : Preamble p) : p.getLast? = some '\n' := by
  obtain ⟨u, rfl⟩ := h.ends
  simp

/-- A preamble is read as it is on its own, and the text behind it does not see it. -/
theorem Preamble.reads (h : p = [] ∨ Preamble p) (u post : Text) :
    ∃ o, Reads true .start p (kinds p) post o ∧ Joins o.done u := by
  rcases h with rfl | h
  · exact ⟨.start, ⟨.refl _ _, rfl, start_idle⟩, .nil u⟩
  · obtain ⟨o, hreads⟩ :=
      reads_selfContained start_idle h.idle (fun _ => .nil p) (seam_of_newline h.newline post)
    rw [← kinds_of_idle h.idle] at hreads
    refine ⟨o, hreads, ?_⟩
    rw [hreads.done]
    refine joins_of_newline ?_ (by rw [kinds_chars, h.newline]) u
    exact (List.append_nil _).symm ▸ h.begins

/-- A complete text is read as it is on its own, and the text behind it does not see it. -/
theorem Complete.reads (h : Complete s) (ho : o.Idle) (hj : Joins o.done s) (u post : Text) :
    ∃ o', Reads true o s (kinds s) post o' ∧ Joins o'.done u := by
  obtain ⟨o', hreads⟩ := reads_selfContained ho h.idle (fun _ => hj) (seam_of_newline h.newline post)
  rw [← kinds_of_idle h.idle] at hreads
  refine ⟨o', hreads, ?_⟩
  obtain ⟨ps, x, tail, hkinds, hx, htail⟩ := h.ends
  rw [hreads.done]
  refine joins_of_newline ?_ (by rw [kinds_chars, h.newline]) u
  rw [hkinds]
  exact begins_of_ended hx htail

/-- Text whose elements are all closed leaves the kinds of what was read before it. -/
theorem kinds_append (h : Reads true .start u ps q o) (hj : Joins o.done q)
    (hq : withMarkup q) : ∃ qs, kinds (u ++ q) = ps ++ qs := by
  have haligned : Aligned [] o.done [] q (run true o q) (run true .start q) [] :=
    (h.idle.aligned q).run h.idle.rooted fun _ => hj.beginsAlike (.nil q)
  have hrun := h.reaches.run_eq
  have hfree : MarkupFree (run true .start (u ++ q)).modes := by
    rw [hrun]
    exact haligned.modes.markupFree_iff.mpr (withMarkup_iff.mp hq)
  have hmarkup : withMarkup (u ++ q) := withMarkup_iff.mpr hfree
  refine ⟨trace true o q, ?_⟩
  rw [kinds, hmarkup, h.trace_append]

/-- Each of the texts has the kinds it has on its own. -/
theorem kinds_surrounded (hp : p = [] ∨ Preamble p) (hs : Complete s)
    (hq : withMarkup q) : ∃ qs, kinds (p ++ s ++ q) = kinds p ++ kinds s ++ qs := by
  obtain ⟨o, hreads, hj⟩ := Preamble.reads hp s (s ++ q)
  obtain ⟨o', hreads', hj'⟩ := hs.reads hreads.idle hj q q
  exact kinds_append (hreads.trans hreads') hj' hq

end Scanning

/-- The second map holds the first one, `d` bytes further on. -/
def CodeMap.Holds (m m' : CodeMap) (d : Nat) : Prop :=
  ∀ i < m.size, m'.slots[d + i]? = m.slots[i]?

section Holding

variable {m m' : CodeMap} {ps qs rs : Painted} {d : Nat}

theorem holds_of_shows (hm : m.Shows qs) (hm' : m'.Shows (ps ++ qs ++ rs)) :
    m.Holds m' (Slot.width ps) := by
  intro i hi
  rw [size_eq_width hm] at hi
  rw [getElem?_slots hm, getElem?_slots hm', Slot.paint_append, Slot.paint_append,
    List.append_assoc, List.getElem?_append_right (by simp), Slot.length_paint,
    Nat.add_sub_cancel_left, List.getElem?_append_left (by simpa using hi)]

variable (h : m.Holds m' d)
include h

namespace CodeMap.Holds

theorem has_eq {i : Nat} (hi : i < m.size) (p : Slot → Bool) : m'.has p (d + i) = m.has p i := by
  rw [has, has, h i hi]

theorem findCodeFrom_eq {x : Char} {count count' i j : Nat} (hle : i + count ≤ m.size)
    (hcount : count ≤ count') (hfind : m.findCodeFrom [x] count i = some j) :
    m'.findCodeFrom [x] count' (d + i) = some (d + j) := by
  induction count generalizing count' i with
  | zero => cases hfind
  | succ count ih =>
    obtain ⟨n, rfl⟩ : ∃ n, count' = n + 1 := ⟨count' - 1, by omega⟩
    have hcode : m'.isCode (d + i) = m.isCode i := h.has_eq (by omega) _
    have hspells : m'.spells [x] (d + i) = m.spells [x] i := by
      simp only [spells, charAt?, h i (by omega)]
    rw [findCodeFrom] at hfind ⊢
    rw [hcode, hspells]
    by_cases hhere : (m.isCode i && m.spells [x] i) = true
    · rw [if_pos hhere] at hfind ⊢
      rw [Option.some.inj hfind]
    · rw [if_neg hhere] at hfind ⊢
      exact ih (i := i + 1) (by omega) (by omega) hfind

/-- A character that is found in code is found there in the second map. -/
theorem findCode_eq (hsize : d + m.size ≤ m'.size) {x : Char} {start j : Nat}
    (hfind : m.findCode start m.size [x] = some j) :
    m'.findCode (d + start) m'.size [x] = some (d + j) := by
  have hx := x.utf8Size_pos
  have hwidth : Text.size [x] = x.utf8Size := by simp [Text.size]
  unfold findCode at hfind ⊢
  rw [min_self, hwidth] at hfind ⊢
  by_cases hcount : m.size + 1 - x.utf8Size - start = 0
  · rw [hcount] at hfind
    cases hfind
  · exact h.findCodeFrom_eq (by omega) (by omega) hfind

theorem inset {o c : Nat} (hmatch : m.matching o = some c) : Inset m m' d o c := by
  refine ⟨hmatch, fun i _ hc => h i ?_⟩
  exact lt_of_le_of_lt hc (lt_size_of_has (matching_spec hmatch).2.1)

end CodeMap.Holds

end Holding

section Declaration

open Component

variable {p s rest : Text}

theorem Pattern.matchesFrom_of_none {pattern : Pattern} {b : Option Char} {x : Char}
    {off resume : Nat} (h : pattern.matchAt ⟨b, off, x :: rest⟩ = none) :
    pattern.matchesFrom resume b off (x :: rest) =
      pattern.matchesFrom resume (some x) (off + x.utf8Size) rest := by
  rw [matchesFrom, h, ite_self]

/-- The declarations in a text with a preamble: those of the preamble, and then those of the text. -/
theorem Preamble.occurrences (hp : p = [] ∨ Preamble p) (rest : Text) :
    ∃ found next before, declaration.occurrences (p ++ rest) =
        found ++ declaration.matchesFrom next before p.size rest ∧
      next ≤ p.size ∧ before.any Character.isWord = false ∧
      ∀ f ∈ found, f.start < p.size ∧ (ofText p).isCode f.start = false := by
  rcases hp with rfl | hp
  · exact ⟨[], 0, none, rfl, le_refl _, rfl, by simp⟩
  obtain ⟨u, rfl⟩ := hp.ends
  have hresume : 0 ≤ 0 ∧ 0 ≤ 0 + 0 ∨ 0 = 0 + 0 := .inr rfl
  have hbefore : (none : Option Char).any Character.isWord = none.any Character.isWord := rfl
  obtain ⟨found, next, next', last, last', hfound, hfound', -, hnext, hstart⟩ :=
    Pattern.matchesFrom_twin (declaration_local (.inl rfl) ['\n'] ('\n' :: rest) 0)
      (declaration_local (.inl rfl) ['\n'] ['\n'] 0) declaration_forward (u := u) hbefore hresume
      (Nat.zero_le _)
  have hshift : found.map (·.shift 0) = found := by
    simp [Match.shift]
  have hsize : Text.size (u ++ [';', '\n']) = 0 + (0 + u.size) + 1 + 1 := by
    rw [Text.size_append, Nat.zero_add, Nat.zero_add]
    rfl
  have hsemicolon : ∀ b off, declaration.matchAt ⟨b, off, ';' :: '\n' :: rest⟩ = none :=
    fun b off => matchAt_declaration_eq_none (by simp)
  have hnewline : ∀ b off, declaration.matchAt ⟨b, off, '\n' :: rest⟩ = none :=
    fun b off => matchAt_declaration_eq_none (by simp)
  refine ⟨found, next', some '\n', ?_, by omega, rfl, fun f hf => ⟨by have := hstart f hf; omega, ?_⟩⟩
  · rw [List.append_assoc, hsize]
    refine hfound'.trans ?_
    rw [hshift, Pattern.matchesFrom_of_none (hsemicolon _ _),
      Pattern.matchesFrom_of_none (hnewline _ _)]
    rfl
  · have hnone : findDeclaration? (ofText (u ++ [';', '\n'])) (u ++ [';', '\n']) = none := by
      have := hp.noClass
      rwa [isClass, Option.isSome_eq_false_iff, Option.isNone_iff_eq_none] at this
    have hmem : f ∈ declaration.occurrences (u ++ [';', '\n']) := by
      rw [Pattern.occurrences]
      exact hfound ▸ List.mem_append_left _ hf
    simpa using List.find?_eq_none.mp hnone f hmem

/-- The declaration before a brace of code is found before that brace, whatever comes behind it. -/
theorem find?_before_brace {m : CodeMap} {header : Match} {v w : Text}
    (hheader : findDeclaration? m (v ++ '\x7b' :: w) = some header)
    (hstop : header.stop ≤ v.size) {found : List Match} {next : Nat} {last : Option Char}
    (hfound : declaration.occurrences (v ++ '\x7b' :: w) =
      found ++ declaration.matchesFrom next last v.size ('\x7b' :: w)) :
    (found.find? fun f => m.isCode f.start) = some header := by
  unfold findDeclaration? at hheader
  rw [hfound, List.find?_append] at hheader
  cases hfirst : found.find? fun f => m.isCode f.start with
  | some f =>
    rw [hfirst] at hheader
    exact hheader
  | none =>
    -- A declaration further on would start behind the brace, and so behind its own end.
    have hbrace : ∀ b off, declaration.matchAt ⟨b, off, '\x7b' :: w⟩ = none :=
      fun b off => matchAt_declaration_eq_none (by simp)
    rw [hfirst, Pattern.matchesFrom_of_none (hbrace _ _)] at hheader
    obtain ⟨-, pre, mid, -, -, hstart, hmid⟩ :=
      Pattern.mem_matchesFrom declaration_forward (List.mem_of_find?_eq_some hheader)
    have := Char.utf8Size_pos '\x7b'
    omega

/-- The declaration of the class component is the first one of the whole text. -/
theorem findDeclaration?_surrounded {q : Text} (hp : p = [] ∨ Preamble p) {m' : CodeMap}
    (hbefore : (ofText p).Holds m' 0) (hm : (ofText s).Holds m' p.size) {header : Match} {o : Nat}
    (hheader : findDeclaration? (ofText s) s = some header)
    (hopen : (ofText s).findCode header.stop (ofText s).size "\x7b" = some o) :
    findDeclaration? m' (p ++ s ++ q) = some (header.shift p.size) := by
  obtain ⟨hstop, -, hspells⟩ := findCode_spec hopen
  obtain ⟨v, w, rfl, rfl⟩ : ∃ v w, s = v ++ '\x7b' :: w ∧ v.size = o := by
    have hshows := Scan.ofText_shows s
    obtain ⟨pre, post, hs, hsize⟩ := (spells_iff hshows (spells_boundary hshows (by decide) hspells)).mp
      hspells
    exact ⟨pre, post, by simpa using hs, hsize⟩
  obtain ⟨found, next, before, hall, hnext, hword, hfound⟩ :=
    Preamble.occurrences hp (v ++ '\x7b' :: (w ++ q))
  have hresume : 0 ≤ 0 ∧ next ≤ p.size + 0 ∨ next = p.size + 0 := .inl ⟨le_refl _, hnext⟩
  have hword : (none : Option Char).any Character.isWord = before.any Character.isWord := hword.symm
  obtain ⟨found', next', next'', last, last', htwin, htwin', -, -, hstart⟩ :=
    Pattern.matchesFrom_twin (declaration_local (.inr rfl) w (w ++ q) p.size)
      (declaration_local (.inr rfl) w w 0) declaration_forward (u := v) hword hresume (Nat.zero_le _)
  rw [Nat.zero_add] at htwin hstart
  have hfirst := find?_before_brace hheader hstop htwin
  have hcode : ∀ f ∈ found', m'.isCode (f.shift p.size).start =
      (ofText (v ++ '\x7b' :: w)).isCode f.start := by
    intro f hf
    refine hm.has_eq ?_ _
    rw [size_ofText, Text.size_append]
    have := hstart f hf
    omega
  have hnone : (found.find? fun f => m'.isCode f.start) = none := by
    refine List.find?_eq_none.mpr fun f hf => ?_
    obtain ⟨hlt, hnot⟩ := hfound f hf
    have hsame := hbefore.has_eq (by rwa [size_ofText]) Slot.isCode
    rw [Nat.zero_add] at hsame
    rw [isCode, hsame]
    simpa [isCode] using hnot
  have hassoc : p ++ (v ++ '\x7b' :: w) ++ q = p ++ (v ++ '\x7b' :: (w ++ q)) := by simp
  have hrest := htwin'
  rw [Nat.add_zero] at hrest
  rw [findDeclaration?, hassoc, hall, List.find?_append, hnone, hrest,
    List.find?_append, List.find?_map]
  have hcongr : (found'.find? ((fun f => m'.isCode f.start) ∘ (·.shift p.size))) = some header :=
    (List.find?_congr hcode).trans hfirst
  rw [hcongr]
  rfl

end Declaration

section Conversion

variable {p s q : Text} {receivers : List Text}

/-- The surrounding text moves the pieces of the class component. -/
theorem extract_surrounded {c : Component} (h : Component.extract s receivers = .ok c)
    (hp : p = [] ∨ Preamble p) (hs : Complete s) (hq : withMarkup q)
    (hsize : (p ++ s ++ q).size ≤ Span.limit) :
    Component.extract (p ++ s ++ q) receivers = .ok (c.shift p.size) := by
  obtain ⟨qs, hkinds⟩ := kinds_surrounded hp hs hq
  have hshows := Scan.ofText_shows (p ++ s ++ q)
  rw [hkinds] at hshows
  have hbefore : (ofText p).Holds (ofText (p ++ s ++ q)) 0 := by
    have hfirst : (ofText (p ++ s ++ q)).Shows ([] ++ kinds p ++ (kinds s ++ qs)) := by
      rwa [← List.append_assoc]
    exact holds_of_shows (Scan.ofText_shows p) hfirst
  have hholds : (ofText s).Holds (ofText (p ++ s ++ q)) p.size := by
    rw [← width_kinds]
    exact holds_of_shows (Scan.ofText_shows s) hshows
  have hwidth : p.size + (ofText s).size ≤ (ofText (p ++ s ++ q)).size := by
    simp only [size_ofText, Text.size_append]
    omega
  obtain ⟨header, o, close, hheader, hopen, hmatch⟩ := hs.closed
  have hinset := hholds.inset hmatch
  have hheader' := findDeclaration?_surrounded (q := q) hp hbefore hholds hheader hopen
  have hopen' : (ofText (p ++ s ++ q)).findCode (p.size + header.stop) (ofText (p ++ s ++ q)).size
      "\x7b" = some (p.size + o) := hholds.findCode_eq hwidth hopen
  have hclose : close < (ofText s).size := lt_size_of_has (matching_spec hmatch).2.1
  have hlimit : p.size + close ≤ Span.limit := by
    rw [size_ofText (p ++ s ++ q)] at hwidth
    omega
  obtain ⟨header₁, body, found, render, pieces, hextracts, rfl⟩ := Component.extract_iff.mp h
  obtain rfl : header = header₁ := Option.some.inj (hheader.symm.trans hextracts.hheader)
  obtain rfl : ⟨o + 1, close⟩ = body := by
    have hbody := hextracts.hbody
    rw [Component.classBody?, hopen, Option.map_some, hmatch] at hbody
    exact Option.some.inj hbody
  obtain ⟨_, hfound, rfl, hrender⟩ :=
    Component.findings_mirrors hinset hlimit receivers found hextracts.hfound
  have hbetween := hrender render hextracts.hrender
  obtain ⟨_, hpieces, rfl⟩ := Component.splitRender_mirrors hinset hlimit (Scan.ofText_shows s)
    (Scan.ofText_shows (p ++ s ++ q)) hbetween.body pieces hextracts.hpieces
  refine Component.extract_iff.mpr ⟨header.shift p.size, ⟨p.size + (o + 1), p.size + close⟩,
    found.shift p.size, render.shift p.size, _, ⟨hheader', ?_, hfound, ?_, hpieces⟩, ?_⟩
  · have hmatch' : (ofText (p ++ s ++ q)).matching (p.size + o) = some (p.size + close) := by
      rw [hinset.matching_eq (le_refl o) hinset.lt.le, hmatch]
      rfl
    have hstop : (header.shift p.size).stop = p.size + header.stop := rfl
    rw [Component.classBody?, hstop, hopen', Option.map_some, hmatch']
    rfl
  · rw [Component.Findings.shift, hextracts.hrender]
    rfl
  · exact (Component.of_shift p.size header.group found pieces).symm

end Conversion

/-- A text that converts gives the same module behind a preamble and in front of other code, and
what is reported about it lies as much further on as the preamble is wide. -/
theorem convert_surrounded {p s q : Text} {receivers : List Text} {conv : Conversion}
    (h : convert s receivers = .ok conv) (hs : Complete s) (hp : p = [] ∨ Preamble p)
    (hq : withMarkup q = true) (hsize : (p ++ s ++ q).size < 2 ^ 32) :
    convert (p ++ s ++ q) receivers =
      .ok ⟨conv.code, conv.warnings.map (·.shift p.size)⟩ := by
  have hsize : (p ++ s ++ q).size ≤ Span.limit := by
    unfold Span.limit
    omega
  obtain ⟨c, hextract, hassemble⟩ := bind_eq_ok h
  have hlies := (Component.extract_faultless s receivers).of_eq hextract
  have hshiftable : c.Shiftable p.size := by
    refine hlies.shiftable ?_
    simp only [Text.size_append] at hsize
    omega
  have hassemble' := Conversion.assemble_shift (check_eq_ok hassemble) hshiftable
  refine (bind_of_eq_ok (extract_surrounded hextract hp hs hq hsize)).trans ?_
  rw [hassemble']
  rfl

/-- An element whose text looks like a comment, and behind it a class component that has this member
before its render method. -/
def elementSource (member : Text) : Text :=
  "<a>/*</a>;\nclass A extends Component\x7b" ++ member ++ "render()\x7breturn 0\x7d\x7d\n"

/-- The module that the class component is converted to. -/
def elementModule : Text :=
  "import React from 'react';\n\nfunction A(props) \x7b
  return (\n    0\n  );\n\x7d\n\nexport default A;\n"

theorem complete_of_brace {s : Text} {header : Match} {o c : Nat}
    (hidle : (run true .start s).Idle)
    (hends : kinds s = (kinds s).dropLast.dropLast ++ [('\x7d', .code), ('\n', .code)])
    (hheader : Component.findDeclaration? (ofText s) s = some header)
    (hopen : (ofText s).findCode header.stop (ofText s).size "\x7b" = some o)
    (hmatch : (ofText s).matching o = some c) : Complete s where
  idle := hidle
  ends := ⟨_, _, _, hends, .inr rfl, fun p hp => .inr (by rw [List.mem_singleton.mp hp]; rfl)⟩
  newline := by
    rw [← kinds_chars s, hends]
    simp
  closed := ⟨header, o, c, hheader, hopen, hmatch⟩

theorem complete_static : Complete (elementSource "static x;") := by
  have hheader : Component.findDeclaration? (ofText (elementSource "static x;"))
      (elementSource "static x;") = some ⟨11, 36, "A"⟩ := by decide +kernel
  refine complete_of_brace (o := 36) (c := 64) ⟨by decide +kernel, 0, by decide +kernel⟩
    (by decide +kernel) hheader (by decide +kernel) (by decide +kernel)

theorem preamble_name : Preamble "x;\n" where
  idle := ⟨by decide, 0, by decide⟩
  ends := ⟨"x", rfl⟩
  begins := by decide
  noClass := by decide

/-- The warning about the member lies as much further on as the preamble is wide. -/
theorem convert_surrounded_static :
    convert (elementSource "static x;") ["this"] =
        .ok ⟨elementModule, [⟨.staticDropped "x", ⟨37, 45⟩⟩]⟩ ∧
      Complete (elementSource "static x;") ∧ Preamble "x;\n" ∧
      withMarkup "f(<b>/*</b>);" = true ∧
      convert ("x;\n" ++ elementSource "static x;" ++ "f(<b>/*</b>);") ["this"] =
        .ok ⟨elementModule, [⟨.staticDropped "x", ⟨40, 48⟩⟩]⟩ := by
  have hconvert : convert (elementSource "static x;") ["this"] =
      .ok ⟨elementModule, [⟨.staticDropped "x", ⟨37, 45⟩⟩]⟩ := by decide +kernel
  have hmarkup : withMarkup "f(<b>/*</b>);" = true := by decide +kernel
  exact ⟨hconvert, complete_static, preamble_name, hmarkup,
    convert_surrounded hconvert complete_static (.inr preamble_name) hmarkup (by decide +kernel)⟩

/-- A semicolon that ends a comment leaves the word before it as the last code, behind which no
element opens.  What looks like a comment then hides the class component. -/
theorem comment_semicolon_misleads :
    convert (elementSource "") ["this"] = .ok ⟨elementModule, []⟩ ∧
      Complete (elementSource "") ∧
      (run true .start "x//;\n").Idle ∧ '<' ∉ ("x//;\n" : Text) ∧
      Component.isClass "x//;\n" = false ∧ withMarkup "" = true ∧
      convert ("x//;\n" ++ elementSource "" ++ "") ["this"] =
        .error (.refused .notAClassComponent) := by
  have hheader : Component.findDeclaration? (ofText (elementSource "")) (elementSource "") =
      some ⟨11, 36, "A"⟩ := by decide +kernel
  have hcomplete : Complete (elementSource "") :=
    complete_of_brace (o := 36) (c := 55) ⟨by decide +kernel, 0, by decide +kernel⟩
      (by decide +kernel) hheader (by decide +kernel) (by decide +kernel)
  exact ⟨by decide +kernel, hcomplete, ⟨by decide, 0, by decide⟩, by decide, by decide, by decide,
    by decide +kernel⟩

end Declass
