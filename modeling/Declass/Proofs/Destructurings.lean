import Declass.Proofs.DeclaredClasses
import Declass.Proofs.StateSightings

/-!
# Declarations that take the state apart

**Input.** A text, the names of the state entries, and receivers that are identifiers.

**Algorithm.** A `Destructuring` is the text of a declaration that takes the state of a receiver
apart, up to the word `state`.  Its parts are told apart by the first brace, the brace that closes it
and the dot, so that a place has one match at most up to that word.  The search goes on over white
space and takes in a semicolon if there is one.  No such declaration starts inside another one.

**Results.** `destructurings_blanked`: what is blanked out is every such declaration whose names are
all state entries, with the white space and the semicolon behind it.  What else stands behind the
declaration plays no part, so that a part of an initializer can be left over.
-/

namespace Declass

open CodeMap
open Character (isSpace isWord)
open Text (EdgeBetween LiesAt size_append)

/-- What is taken apart: the state of a receiver, from the equals sign on, part by part. -/
structure StateInitializer where
  beforeEquals : Text
  beforeReceiver : Text
  receiver : Text
  beforeDot : Text
  beforeName : Text

namespace StateInitializer

/-- What stands before the dot. -/
def front (s : StateInitializer) : Text :=
  s.beforeEquals ++ '=' :: (s.beforeReceiver ++ (s.receiver ++ s.beforeDot))

/-- What stands behind the dot. -/
def back (s : StateInitializer) : Text := s.beforeName ++ "state"

/-- The text of the initializer. -/
def text (s : StateInitializer) : Text := s.front ++ '.' :: s.back

/-- The parts are what they should be.  Where there are no receivers, nothing stands in their
place. -/
structure Fits (receivers : List Text) (s : StateInitializer) : Prop where
  beforeEquals : ∀ c ∈ s.beforeEquals, isSpace c = true
  beforeReceiver : ∀ c ∈ s.beforeReceiver, isSpace c = true
  receiver : s.receiver ∈ receivers ∨ receivers = [] ∧ s.receiver = []
  beforeDot : ∀ c ∈ s.beforeDot, isSpace c = true
  beforeName : ∀ c ∈ s.beforeName, isSpace c = true

open Matcher

variable {receivers : List Text}

theorem anyWord_reads_or (receivers : List Text) : Reads (anyWord receivers)
    {u | u ∈ receivers ∨ receivers = [] ∧ u = []} := by
  by_cases h : receivers = []
  · subst h
    refine Eq.mp (congrArg _ (Set.ext fun u => ?_)) skip_reads
    exact (Language.mem_one u).trans (by simp)
  · refine Eq.mp (congrArg _ (Set.ext fun u => ?_)) (anyWord_reads h)
    simp [h]

/-- What the pattern goes through behind the names, up to the word `state`. -/
def matchers (receivers : List Text) : List Matcher :=
  [.one (· == '\x7d'), .spaces, .one (· == '='), .spaces, .anyWord receivers, .spaces,
    .one (· == '.'), .spaces, .word "state"]

theorem matchers_reads : Reads (seq (matchers receivers))
    {u | ∃ s, Fits receivers s ∧ u = '\x7d' :: s.text} := by
  have hreads := seq_cons_reads (char_reads '\x7d') <| seq_cons_reads spaces_reads <|
    seq_cons_reads (char_reads '=') <| seq_cons_reads spaces_reads <|
    seq_cons_reads (anyWord_reads_or receivers) <| seq_cons_reads spaces_reads <|
    seq_cons_reads (char_reads '.') <| seq_cons_reads spaces_reads <|
    seq_cons_reads (word_reads "state") seq_nil_reads
  refine Eq.mp (congrArg _ (Set.ext fun u => ?_)) hreads
  constructor
  · rintro ⟨_, rfl, _, ⟨s₁, h₁, _, ⟨_, rfl, _, ⟨s₂, h₂, _, ⟨w, hw, _, ⟨s₃, h₃, _, ⟨_, rfl, _,
      ⟨s₄, h₄, _, ⟨_, rfl, _, rfl, rfl⟩, rfl⟩, rfl⟩, rfl⟩, rfl⟩, rfl⟩, rfl⟩, rfl⟩, rfl⟩
    exact ⟨⟨s₁, s₂, w, s₃, s₄⟩, ⟨h₁, h₂, hw, h₃, h₄⟩, by simp [text, front, back]⟩
  · rintro ⟨s, hs, rfl⟩
    exact ⟨['\x7d'], rfl, _, ⟨s.beforeEquals, hs.beforeEquals, _, ⟨['='], rfl, _,
      ⟨s.beforeReceiver, hs.beforeReceiver, _, ⟨s.receiver, hs.receiver, _,
      ⟨s.beforeDot, hs.beforeDot, _, ⟨['.'], rfl, _, ⟨s.beforeName, hs.beforeName, _,
      ⟨"state", rfl, _, rfl, rfl⟩, rfl⟩, rfl⟩, rfl⟩, rfl⟩, rfl⟩, rfl⟩, rfl⟩,
      by simp [text, front, back]⟩

theorem mem_matchers_edge {pre rest : Text} {e : Cursor} :
    e ∈ seq (matchers receivers ++ [edge]) (.behind pre rest) ↔ ∃ s post, Fits receivers s ∧
      rest = '\x7d' :: s.text ++ post ∧ e = .behind (pre ++ '\x7d' :: s.text) post ∧
      EdgeBetween (pre ++ '\x7d' :: s.text) post := by
  rw [mem_seq_edge matchers_reads]
  constructor
  · rintro ⟨_, ⟨s, hs, rfl⟩, post, h⟩
    exact ⟨s, post, hs, h⟩
  · rintro ⟨s, post, hs, h⟩
    exact ⟨_, ⟨s, hs, rfl⟩, post, h⟩

end StateInitializer

/-- A declaration that takes the state of a receiver apart, part by part, without what closes it. -/
structure Destructuring where
  keyword : Text
  beforeBrace : Text
  group : Text
  source : StateInitializer

namespace Destructuring

/-- What stands before the brace. -/
def front (d : Destructuring) : Text := d.keyword ++ d.beforeBrace

/-- The text of the declaration. -/
def text (d : Destructuring) : Text :=
  d.front ++ '\x7b' :: (d.group ++ '\x7d' :: d.source.text)

/-- The words that declare. -/
def keywords : List Text := ["const", "let", "var"]

/-- Whether the character may stand between the braces. -/
def inGroup (c : Char) : Bool := c != '\x7b' && c != '\x7d'

/-- The parts are what they should be. -/
structure Fits (receivers : List Text) (d : Destructuring) : Prop where
  keyword : d.keyword ∈ keywords
  beforeBrace : ∀ c ∈ d.beforeBrace, isSpace c = true
  group : ∀ c ∈ d.group, inGroup c = true
  source : d.source.Fits receivers

/-- What is taken in behind a declaration: white space, and a semicolon behind it. -/
def closing (post : Text) : Text :=
  post.takeWhile isSpace ++ (if post.trimStart.head? = some ';' then [';'] else [])

section Stations

open Matcher

variable {r : Resolver} {pre rest : Text}

theorem mem_before {e : Cursor} :
    e ∈ r.destructuring.before (.behind pre rest) ↔ EdgeBetween pre rest ∧
      ∃ k s : Text, k ∈ keywords ∧ (∀ c ∈ s, isSpace c) ∧
        ∃ post, rest = k ++ s ++ '\x7b' :: post ∧ e = .behind (pre ++ (k ++ s ++ ['\x7b'])) post := by
  have hbefore : r.destructuring.before =
      seq (edge :: [.anyWord keywords, .spaces, .one (· == '\x7b')]) := by
    dsimp only [Resolver.destructuring, keywords]
  have hkeywords : keywords ≠ [] := by decide
  have hreads := seq_cons_reads (anyWord_reads hkeywords) <|
    seq_cons_reads spaces_reads <| seq_cons_reads (char_reads '\x7b') seq_nil_reads
  rw [hbefore, mem_edge_seq hreads]
  refine and_congr_right fun _ => ⟨?_, ?_⟩
  · rintro ⟨_, ⟨k, hk, _, ⟨s, hs, _, ⟨_, rfl, _, rfl, rfl⟩, rfl⟩, rfl⟩, post, rfl, rfl⟩
    exact ⟨k, s, hk, hs, post, by simp, by simp⟩
  · rintro ⟨k, s, hk, hs, post, rfl, rfl⟩
    exact ⟨k ++ s ++ ['\x7b'], ⟨k, hk, _, ⟨s, hs, _, ⟨['\x7b'], rfl, [], rfl, rfl⟩, rfl⟩, by simp⟩,
      post, by simp, rfl⟩

/-- The places that a match goes through: behind the first brace, behind the names, and behind the
word `state`. -/
def stations (r : Resolver) (c : Cursor) : List (Cursor × Cursor × Cursor) :=
  (r.destructuring.before c).flatMap fun a => (r.destructuring.group a).flatMap fun b =>
    (seq (StateInitializer.matchers r.receivers ++ [edge]) b).map fun s => (a, b, s)

/-- Where a match ends that has come behind the word `state`. -/
def ends (s : Cursor) : List Cursor := (spaces s).flatMap (opt (.one (· == ';')))

/-- The match that goes through the places and comes to the end `e`. -/
def matchThrough (c : Cursor) (x : Cursor × Cursor × Cursor) (e : Cursor) : Match :=
  ⟨c.offset, e.offset, x.1.rest.take (x.1.rest.length - x.2.1.rest.length)⟩

theorem matchAt_eq_head? (c : Cursor) : r.destructuring.matchAt c =
    ((stations r c).flatMap fun x => (ends x.2.2).map (matchThrough c x)).head? := by
  have hafter : ∀ b, r.destructuring.after b =
      (seq (StateInitializer.matchers r.receivers ++ [edge]) b).flatMap ends := by
    intro b
    have hparts : r.destructuring.after =
        seq (StateInitializer.matchers r.receivers ++ [edge] ++ [spaces] ++
          [opt (.one (· == ';'))]) := by
      dsimp only [Resolver.destructuring, StateInitializer.matchers, List.cons_append,
        List.nil_append]
    rw [hparts, seq_concat, seq_concat, List.flatMap_assoc]
    rfl
  simp only [Pattern.matchAt, stations, hafter, List.flatMap_assoc, List.map_flatMap,
    List.flatMap_map]
  rfl

/-- The places that the match of a declaration goes through. -/
def station (pre : Text) (d : Destructuring) (post : Text) : Cursor × Cursor × Cursor :=
  (.behind (pre ++ (d.front ++ ['\x7b'])) (d.group ++ '\x7d' :: (d.source.text ++ post)),
    .behind (pre ++ (d.front ++ ['\x7b']) ++ d.group) ('\x7d' :: (d.source.text ++ post)),
    .behind (pre ++ d.text) post)

theorem mem_stations {x : Cursor × Cursor × Cursor} :
    x ∈ stations r (.behind pre rest) ↔ ∃ d post, Fits r.receivers d ∧ rest = d.text ++ post ∧
      EdgeBetween pre rest ∧ EdgeBetween (pre ++ d.text) post ∧
      x = station pre d post := by
  have hgroup : ∀ a, r.destructuring.group a = many inGroup a := fun a => rfl
  have htext : ∀ d : Destructuring, pre ++ (d.front ++ ['\x7b']) ++ d.group ++
      '\x7d' :: d.source.text = pre ++ d.text := fun d => by simp [text]
  simp only [stations, List.mem_flatMap, List.mem_map, hgroup]
  constructor
  · rintro ⟨a, ha, b, hb, s, hs, rfl⟩
    obtain ⟨hedge, k, s, hk, hs', post, rfl, rfl⟩ := mem_before.mp ha
    obtain ⟨g, hg, post, rfl, rfl⟩ := (many_reads inGroup _ _ _).mp hb
    obtain ⟨source, post, hsource, rfl, rfl, hedge'⟩ := StateInitializer.mem_matchers_edge.mp hs
    have hwhole := htext ⟨k, s, g, source⟩
    dsimp only [front] at hwhole
    rw [hwhole] at hedge' ⊢
    exact ⟨⟨k, s, g, source⟩, post, ⟨hk, hs', hg, hsource⟩, by simp [text, front], hedge, hedge', rfl⟩
  · rintro ⟨d, post, hd, rfl, hedge, hedge', rfl⟩
    rw [← htext] at hedge'
    refine ⟨(station pre d post).1, mem_before.mpr ⟨hedge, d.keyword, d.beforeBrace, hd.keyword,
        hd.beforeBrace, _, ?_, rfl⟩,
      (station pre d post).2.1, (many_reads inGroup _ _ _).mpr ⟨d.group, hd.group, _, rfl, rfl⟩,
      (station pre d post).2.2, StateInitializer.mem_matchers_edge.mpr ⟨d.source, post, hd.source,
        rfl, ?_, hedge'⟩, rfl⟩
    · simp [text, front]
    · rw [station, ← htext]

end Stations

section Shape

open Assignment

theorem keyword_isAlpha {k : Text} (h : k ∈ keywords) : ∀ c ∈ k, c.isAlpha := by
  have hall : keywords.all (·.all Char.isAlpha) := rfl
  exact List.all_eq_true.mp (List.all_eq_true.mp hall k h)

variable {receivers : List Text} {d e : Destructuring} {x : Char}

/-- In front of the brace there are letters and white space only. -/
theorem Fits.not_mem_front (hd : d.Fits receivers) (halpha : x.isAlpha = false)
    (hspace : isSpace x = false) : x ∉ d.front := by
  rw [front, List.mem_append, not_or]
  exact ⟨not_mem_of_forall (keyword_isAlpha hd.keyword) halpha,
    not_mem_of_forall hd.beforeBrace hspace⟩

variable (hr : ∀ w ∈ receivers, w.isIdentifier)
include hr

/-- Between the equals sign and the dot there are white space and characters of a name only. -/
theorem Fits.not_mem_source (hd : d.Fits receivers) (hident : Character.isIdentPart x = false)
    (hspace : isSpace x = false) (hequals : x ≠ '=') : x ∉ d.source.front := by
  have hreceiver : x ∉ d.source.receiver := by
    rcases hd.source.receiver with hw | ⟨-, hw⟩
    · exact not_mem_of_forall (Text.isIdentPart_of_isIdentifier (hr _ hw)) hident
    · rw [hw]
      exact List.not_mem_nil
  simp only [StateInitializer.front, List.mem_append, List.mem_cons, not_or]
  exact ⟨not_mem_of_forall hd.source.beforeEquals hspace, hequals,
    not_mem_of_forall hd.source.beforeReceiver hspace, hreceiver,
    not_mem_of_forall hd.source.beforeDot hspace⟩

/-- A text starts with one declaration at most, up to how the white space in it is told apart. -/
theorem text_inj {post post' : Text} (hd : d.Fits receivers) (he : e.Fits receivers)
    (h : d.text ++ post = e.text ++ post') :
    d.front = e.front ∧ d.group = e.group ∧ d.source.text = e.source.text ∧ post = post' := by
  have hclose : ∀ {d : Destructuring}, d.Fits receivers → '\x7d' ∉ d.group := fun hd =>
    not_mem_of_forall hd.group rfl
  have hdot : ∀ {d : Destructuring}, d.Fits receivers → '.' ∉ d.source.front := fun hd =>
    hd.not_mem_source hr rfl rfl (by decide)
  simp only [text, StateInitializer.text, StateInitializer.back, List.append_assoc,
    List.cons_append] at h
  obtain ⟨hfront, h⟩ := append_cons_inj (hd.not_mem_front rfl rfl) (he.not_mem_front rfl rfl) h
  obtain ⟨hgroup, h⟩ := append_cons_inj (hclose hd) (hclose he) h
  obtain ⟨hsource, h⟩ := append_cons_inj (hdot hd) (hdot he) h
  obtain ⟨hname, h⟩ := Text.run_inj hd.source.beforeName he.source.beforeName rfl rfl h
  refine ⟨hfront, hgroup, ?_, List.append_cancel_left h⟩
  rw [StateInitializer.text, StateInitializer.text, StateInitializer.back, StateInitializer.back,
    hsource, hname]

end Shape

section Preferred

open Matcher

/-- Where all alternatives are the same, the preferred end is the preferred one of any of them. -/
theorem head?_flatMap_of_forall_eq {α β : Type} {l : List α} {x : α} (f : α → List β) (hx : x ∈ l)
    (h : ∀ y ∈ l, y = x) : (l.flatMap f).head? = (f x).head? := by
  cases hf : f x with
  | nil =>
    have hnone : l.flatMap f = [] := List.flatMap_eq_nil_iff.mpr fun y hy => by rw [h y hy, hf]
    rw [hnone]
  | cons b bs =>
    obtain ⟨y, l, rfl⟩ := List.exists_cons_of_ne_nil (List.ne_nil_of_mem hx)
    rw [List.flatMap_cons, h y List.mem_cons_self, hf]
    rfl

theorem head?_runEnds (p : Char → Bool) (shorter : List Cursor) (pre rest : Text) :
    (runEnds p shorter pre.getLast? pre.size rest).head? =
      some (.behind (pre ++ rest.takeWhile p) (rest.dropWhile p)) := by
  induction rest generalizing pre shorter with
  | nil =>
    rw [List.takeWhile_nil, List.append_nil]
    rfl
  | cons c rest ih =>
    rw [runEnds]
    cases hc : p c with
    | true =>
      have hnext := ih (.behind pre (c :: rest) :: shorter) (pre ++ [c])
      rw [List.getLast?_concat, size_append, List.append_assoc] at hnext
      rw [List.takeWhile_cons_of_pos hc, List.dropWhile_cons_of_pos hc]
      exact hnext
    | false =>
      have hc : ¬ p c := by simp [hc]
      rw [List.takeWhile_cons_of_neg hc, List.dropWhile_cons_of_neg hc, List.append_nil]
      rfl

/-- White space is taken in as far as it goes, and a semicolon behind it. -/
theorem head?_ends (pre post : Text) : ∃ rest, post = closing post ++ rest ∧
    (ends (.behind pre post)).head? = some (.behind (pre ++ closing post) rest) := by
  have hspaces := head?_runEnds isSpace [] pre post
  obtain ⟨shorter, hlist⟩ := List.head?_eq_some_iff.mp hspaces
  have hends : ends (.behind pre post) =
      opt (.one (· == ';')) (.behind (pre ++ post.takeWhile isSpace) post.trimStart) ++
        shorter.flatMap (opt (.one (· == ';'))) := by
    exact congrArg (List.flatMap _) hlist
  have hsplit : post = post.takeWhile isSpace ++ post.trimStart :=
    List.takeWhile_append_dropWhile.symm
  rw [hends, closing]
  cases hrest : post.trimStart with
  | nil =>
    rw [hrest] at hsplit
    exact ⟨[], by simpa using hsplit, by simp [opt, oneOf, skip, one, Cursor.behind]⟩
  | cons c rest =>
    rw [hrest] at hsplit
    by_cases hc : c = ';'
    · subst hc
      refine ⟨rest, by simpa using hsplit, ?_⟩
      simp [opt, oneOf, skip, one, Cursor.behind, ← List.append_assoc]
    · refine ⟨c :: rest, by simpa [hc] using hsplit, ?_⟩
      simp [opt, oneOf, skip, one, Cursor.behind, hc]

variable {r : Resolver} (hr : ∀ w ∈ r.receivers, w.isIdentifier) {pre rest : Text}
include hr

/-- The preferred match at the start of a declaration takes in the declaration and what closes it. -/
theorem matchAt_of_fits {d : Destructuring} {post : Text} (hd : d.Fits r.receivers)
    (hedge : EdgeBetween pre (d.text ++ post))
    (hedge' : EdgeBetween (pre ++ d.text) post) :
    r.destructuring.matchAt (.behind pre (d.text ++ post)) =
      some ⟨pre.size, pre.size + (d.text ++ closing post).size, d.group⟩ := by
  have hmem : station pre d post ∈ stations r (.behind pre (d.text ++ post)) :=
    mem_stations.mpr ⟨d, post, hd, rfl, hedge, hedge', rfl⟩
  have hsame : ∀ x ∈ stations r (.behind pre (d.text ++ post)), x = station pre d post := by
    intro x hx
    obtain ⟨e, post', he, hrest, -, -, rfl⟩ := mem_stations.mp hx
    obtain ⟨hfront, hgroup, hsource, rfl⟩ := text_inj hr hd he hrest
    rw [station, station, text, text, hfront, hgroup, hsource]
  obtain ⟨rest, -, hends⟩ := head?_ends (pre ++ d.text) post
  have hthird : (station pre d post).2.2 = .behind (pre ++ d.text) post := rfl
  rw [matchAt_eq_head?, head?_flatMap_of_forall_eq _ hmem hsame, hthird, List.head?_map, hends]
  simp [matchThrough, station, Cursor.behind, Nat.add_assoc]

theorem matchAt_eq_some_iff {found : Match} :
    r.destructuring.matchAt (.behind pre rest) = some found ↔ ∃ d post, Fits r.receivers d ∧
      rest = d.text ++ post ∧ EdgeBetween pre rest ∧ EdgeBetween (pre ++ d.text) post ∧
      found = ⟨pre.size, pre.size + (d.text ++ closing post).size, d.group⟩ := by
  constructor
  · intro h
    have hne : stations r (.behind pre rest) ≠ [] := by
      intro hnil
      rw [matchAt_eq_head?, hnil] at h
      cases h
    obtain ⟨x, l, hlist⟩ := List.exists_cons_of_ne_nil hne
    obtain ⟨d, post, hd, rfl, hedge, hedge', -⟩ :=
      mem_stations.mp (show x ∈ stations r (.behind pre rest) by simp [hlist])
    rw [matchAt_of_fits hr hd hedge hedge'] at h
    exact ⟨d, post, hd, rfl, hedge, hedge', (Option.some.inj h).symm⟩
  · rintro ⟨d, post, hd, rfl, hedge, hedge', rfl⟩
    exact matchAt_of_fits hr hd hedge hedge'

end Preferred

section Inside

open Assignment

variable {receivers : List Text} {d e : Destructuring} {x y post post' : Text} {c : Char}

/-- The characters that declarations start with. -/
def isInitial (c : Char) : Bool := c == 'c' || c == 'l' || c == 'v'

theorem Fits.head_text (hd : d.Fits receivers) : ∃ c rest, d.text = c :: rest ∧ isInitial c := by
  have hheads : ∀ k ∈ keywords, ∃ c rest, k = c :: rest ∧ isInitial c := by
    intro k hk
    simp only [keywords, List.mem_cons, List.not_mem_nil, or_false] at hk
    rcases hk with rfl | rfl | rfl
    · exact ⟨'c', "onst", rfl, rfl⟩
    · exact ⟨'l', "et", rfl, rfl⟩
    · exact ⟨'v', "ar", rfl, rfl⟩
  obtain ⟨c, rest, hk, hc⟩ := hheads _ hd.keyword
  exact ⟨c, rest ++ (d.beforeBrace ++ '\x7b' :: (d.group ++ '\x7d' :: d.source.text)),
    by simp [text, front, hk], hc⟩

theorem isSpace_of_isInitial (h : isInitial c) : isSpace c = false := by
  simp only [isInitial, Bool.or_eq_true, beq_iff_eq] at h
  rcases h with (rfl | rfl) | rfl <;> rfl

/-- No declaration starts before the brace of another one, where there are a word and white space. -/
theorem Fits.front_not_start (hd : d.Fits receivers) (h : d.front = x ++ c :: y) (hx : x ≠ [])
    (hlast : x.getLast?.any isWord = false) : isInitial c = false := by
  rcases List.append_eq_append_iff.mp h with ⟨z, rfl, hz⟩ | ⟨z, hz, hy⟩
  · rw [← Bool.not_eq_true]
    intro hc
    have hspace := hd.beforeBrace c (by simp [hz])
    rw [isSpace_of_isInitial hc] at hspace
    cases hspace
  · have hwords : keywords.all (·.all isWord) := rfl
    obtain ⟨x, b, rfl⟩ := (List.eq_nil_or_concat x).resolve_left hx
    have hb := List.all_eq_true.mp (List.all_eq_true.mp hwords _ hd.keyword) b (by simp [hz])
    simp [hb] at hlast

/-- Behind the dot there are white space, the word `state` and a semicolon only. -/
theorem Fits.back_not_start (hd : d.Fits receivers)
    (hc : c ∈ d.source.back ++ closing post) : isInitial c = false := by
  have hspaces : ∀ u : Text, (∀ c ∈ u, isSpace c) → c ∈ u → isInitial c = false := by
    intro u hu hmem
    rw [← Bool.not_eq_true]
    intro hc
    have hspace := hu c hmem
    rw [isSpace_of_isInitial hc] at hspace
    cases hspace
  have hword : ("state" : Text).all (fun c => !isInitial c) := rfl
  simp only [StateInitializer.back, closing, List.mem_append] at hc
  rcases hc with (hc | hc) | hc | hc
  · exact hspaces _ hd.source.beforeName hc
  · simpa using List.all_eq_true.mp hword c hc
  · exact hspaces _ (fun b hb => List.mem_takeWhile_imp hb) hc
  · split at hc
    · obtain rfl := List.mem_singleton.mp hc
      rfl
    · cases hc

variable (hr : ∀ w ∈ receivers, w.isIdentifier)
include hr

/-- From a place between the brace and the dot of a declaration, the next brace does not come before
the dot. -/
theorem Fits.inner_not_start (hd : d.Fits receivers) (he : e.Fits receivers)
    (h : d.group ++ '\x7d' :: (d.source.front ++ ['.']) = x ++ y) (hy : y ≠ [])
    (hrest : e.text ++ post' = y ++ post) : False := by
  have hopen : '\x7b' ∉ y := by
    intro hmem
    have hmem : '\x7b' ∈ d.group ++ '\x7d' :: (d.source.front ++ ['.']) := by
      rw [h]
      exact List.mem_append_right _ hmem
    have hgroup : '\x7b' ∉ d.group := not_mem_of_forall hd.group rfl
    have hsource : '\x7b' ∉ d.source.front := hd.not_mem_source hr rfl rfl (by decide)
    simp [hgroup, hsource] at hmem
  have hdot : '.' ∈ y := by
    obtain ⟨y, b, rfl⟩ := (List.eq_nil_or_concat y).resolve_left hy
    rw [← List.cons_append, ← List.append_assoc, List.concat_eq_append, ← List.append_assoc] at h
    obtain ⟨-, hb⟩ := List.append_inj' h rfl
    rw [← (List.cons.inj hb).1]
    simp
  rw [text, List.append_assoc] at hrest
  rcases List.append_eq_append_iff.mp hrest with ⟨z, rfl, hz⟩ | ⟨z, hz, -⟩
  · cases z with
    | nil =>
      rw [List.append_nil] at hdot
      exact he.not_mem_front rfl rfl hdot
    | cons b z =>
      obtain rfl := (List.cons.inj hz).1
      exact hopen (by simp)
  · exact he.not_mem_front (x := '.') rfl rfl (by rw [hz]; exact List.mem_append_left _ hdot)

/-- No declaration starts inside another one or what closes it. -/
theorem not_inside (hd : d.Fits receivers) (he : e.Fits receivers)
    (h : d.text ++ post = x ++ (e.text ++ post')) (hx : x ≠ [])
    (hlt : x.size < (d.text ++ closing post).size)
    (hlast : x.getLast?.any isWord = false) : False := by
  obtain ⟨rest, hpost, -⟩ := head?_ends [] post
  have hwhole : x ++ (e.text ++ post') = d.text ++ closing post ++ rest := by
    rw [← h, List.append_assoc, ← hpost]
  obtain ⟨y, hy, hrest⟩ := Text.append_split_of_size hwhole (le_of_lt hlt)
  obtain ⟨c, tail, htext, hc⟩ := he.head_text
  cases y with
  | nil =>
    rw [hy, List.append_nil] at hlt
    exact absurd hlt (lt_irrefl _)
  | cons b y =>
    obtain rfl : c = b := by
      rw [htext] at hrest
      exact (List.cons.inj hrest).1
    have hparts : d.front ++ '\x7b' :: (d.group ++ '\x7d' :: (d.source.front ++ ['.']) ++
        (d.source.back ++ closing post)) = x ++ c :: y := by
      rw [← hy, text, StateInitializer.text]
      simp
    -- The place lies before the brace, between the brace and the dot, or behind the dot.
    rcases List.append_eq_append_iff.mp hparts with ⟨z, rfl, hz⟩ | ⟨z, hz, hcy⟩
    · cases z with
      | nil =>
        obtain rfl := (List.cons.inj hz).1
        cases hc
      | cons b z =>
        have hback : c ∈ d.source.back ++ closing post → False := fun hmem => by
          rw [hd.back_not_start hmem] at hc
          cases hc
        rcases List.append_eq_append_iff.mp (List.cons.inj hz).2 with
          ⟨u, rfl, hu⟩ | ⟨u, hu, hcy⟩
        · exact hback (by simp [hu])
        · cases u with
          | nil => exact hback (by rw [← List.nil_append (_ ++ _), ← hcy]; simp)
          | cons b u =>
            rw [hcy, List.append_assoc] at hrest
            exact hd.inner_not_start hr he hu (by simp) hrest
    · cases z with
      | nil =>
        obtain rfl := (List.cons.inj hcy).1
        cases hc
      | cons b z =>
        obtain rfl := (List.cons.inj hcy).1
        rw [hd.front_not_start hz hx hlast] at hc
        cases hc

end Inside

end Destructuring

namespace Resolver

open Destructuring

/-- At position `i` of the text, in code, a declaration takes the state of a receiver apart into
state entries.  It is followed by `post`. -/
structure TakesApartAt (r : Resolver) (t : Text) (i : Nat) (d : Destructuring) (post : Text) :
    Prop where
  fits : d.Fits r.receivers
  place : ∃ pre, t = pre ++ (d.text ++ post) ∧ pre.size = i ∧
    pre.getLast?.any isWord = false
  ends : post.head?.any isWord = false
  code : (ofText t).isCode i = true
  redundant : r.isRedundant (listedNames d.group) = true

section Search

variable {r : Resolver} {pre post : Text} {d : Destructuring}

theorem edgeBetween_destructuring (hd : d.Fits r.receivers) (rest : Text) :
    EdgeBetween pre (d.text ++ rest) ↔ pre.getLast?.any isWord = false := by
  obtain ⟨c, tail, htext, hc⟩ := hd.head_text
  have hword : isWord c := by
    simp only [isInitial, Bool.or_eq_true, beq_iff_eq] at hc
    rcases hc with (rfl | rfl) | rfl <;> rfl
  simp [EdgeBetween, htext, hword]

theorem getLast?_destructuring (pre : Text) (d : Destructuring) :
    (pre ++ d.text).getLast? = some 'e' := by
  have htext : pre ++ d.text = pre ++ (d.front ++ '\x7b' :: (d.group ++ '\x7d' ::
      (d.source.front ++ '.' :: (d.source.beforeName ++ "stat")))) ++ ['e'] := by
    simp [Destructuring.text, StateInitializer.text, StateInitializer.back]
  rw [htext, List.getLast?_concat]

theorem edgeBetween_state : EdgeBetween (pre ++ d.text) post ↔
    post.head?.any isWord = false := by
  have hword : (some 'e').any isWord := rfl
  rw [EdgeBetween, getLast?_destructuring, hword]
  simp

variable (hr : ∀ w ∈ r.receivers, w.isIdentifier) {t : Text} {found : Match}
include hr

/-- The search finds the declarations, each with what closes it. -/
theorem mem_redundant_iff : (found ∈ r.destructuring.occurrences t ∧
      ((ofText t).isCode found.start && r.isRedundant (listedNames found.group))) ↔
    ∃ d post, r.TakesApartAt t found.start d post ∧
      found.stop = found.start + (d.text ++ closing post).size ∧ found.group = d.group := by
  constructor
  · rintro ⟨hmem, hfilter⟩
    obtain ⟨hcode, hredundant⟩ := Bool.and_eq_true_iff.mp hfilter
    obtain ⟨pre, rest, rfl, hmatch⟩ := Pattern.exists_of_mem_occurrences hmem
    obtain ⟨d, post, hd, rfl, hedge, hedge', rfl⟩ := (matchAt_eq_some_iff hr).mp hmatch
    exact ⟨d, post, ⟨hd, ⟨pre, rfl, rfl, (edgeBetween_destructuring hd post).mp hedge⟩,
      edgeBetween_state.mp hedge', hcode, hredundant⟩, rfl, rfl⟩
  · rintro ⟨d, post, h, hstop, hgroup⟩
    obtain ⟨pre, rfl, hpre, hbefore⟩ := h.place
    have hfilter : ((ofText (pre ++ (d.text ++ post))).isCode found.start &&
        r.isRedundant (listedNames found.group)) := by
      rw [h.code, hgroup, h.redundant]
      rfl
    refine ⟨?_, hfilter⟩
    obtain rfl : found = ⟨pre.size, pre.size + (d.text ++ closing post).size, d.group⟩ := by
      rw [hpre, ← hstop, ← hgroup]
    have hmatch := matchAt_of_fits hr h.fits ((edgeBetween_destructuring h.fits post).mpr hbefore)
      (edgeBetween_state.mpr h.ends)
    have hne : d.text ++ post ≠ [] := by
      obtain ⟨c, tail, htext, -⟩ := h.fits.head_text
      simp [htext]
    rcases Pattern.mem_occurrences_or_inside hne hmatch with hmem | ⟨g, hg, hlt, hlt'⟩
    · exact hmem
    · obtain ⟨pre', rest', hwhole, hmatch'⟩ := Pattern.exists_of_mem_occurrences hg
      obtain ⟨e, post', he, rfl, -, -, rfl⟩ := (matchAt_eq_some_iff hr).mp hmatch'
      dsimp only at hlt hlt'
      obtain ⟨x, rfl, hx⟩ := Text.append_split_of_size hwhole.symm (le_of_lt hlt)
      rw [size_append] at hlt hlt'
      have hxne : x ≠ [] := by
        rintro rfl
        simp at hlt
      rw [List.getLast?_append_of_ne_nil _ hxne] at hbefore
      exact (not_inside hr he h.fits hx hxne (by omega) hbefore).elim

end Search

end Resolver

/-- The character `c` at position `j` is the first one from `i` on that is neither white space nor
part of a comment. -/
structure CodeMap.NextAt (m : CodeMap) (i j : Nat) (c : Char) : Prop where
  le : i ≤ j
  char : m.charAt? j = some c
  solid : isSpace c = false
  noComment : m.has (·.kind == .comment) j = false
  between : ∀ k b, i ≤ k → k < j → m.charAt? k = some b →
    isSpace b = true ∨ m.has (·.kind == .comment) k = true

/-- The characters that carry an expression on. -/
def carryingOn : Text := ".[(,?|&+-*/"

/-- No expression is cut off at position `i`: a semicolon comes before it, or what comes next does
not carry an expression on. -/
def CodeMap.EndsStatement (m : CodeMap) (i : Nat) : Prop :=
  m.charBefore? i = some ';' ∨ ∀ j c, m.NextAt i j c → c ∉ carryingOn

theorem CodeMap.nextAt_iff_of_blank {m : CodeMap} {i i' j : Nat} {c : Char} (hle : i ≤ i')
    (hblank : ∀ k b, i ≤ k → k < i' → m.charAt? k = some b → isSpace b) :
    m.NextAt i j c ↔ m.NextAt i' j c := by
  constructor
  · intro h
    have hbehind : i' ≤ j := by
      by_contra hlt
      have hspace := hblank j c h.le (by omega) h.char
      rw [h.solid] at hspace
      cases hspace
    exact ⟨hbehind, h.char, h.solid, h.noComment, fun k b hk => h.between k b (by omega)⟩
  · intro h
    refine ⟨hle.trans h.le, h.char, h.solid, h.noComment, fun k b hk hlt hb => ?_⟩
    by_cases hbefore : k < i'
    · exact .inl (hblank k b hk hbefore hb)
    · exact h.between k b (by omega) hlt hb

namespace Resolver

open Destructuring

section Statements

variable {r : Resolver} {t post : Text} {i : Nat} {d : Destructuring} (h : r.TakesApartAt t i d post)
include h

theorem TakesApartAt.liesAt : LiesAt t i (d.text ++ closing post) := by
  obtain ⟨pre, ht, hpre, -⟩ := h.place
  obtain ⟨rest, hpost, -⟩ := head?_ends [] post
  exact ⟨pre, rest, by rw [ht, List.append_assoc, List.append_assoc, ← hpost], hpre⟩

theorem TakesApartAt.charBefore?_eq : (ofText t).charBefore? (i + (d.text ++ closing post).size) =
    (d.text ++ closing post).getLast? := by
  obtain ⟨pre, rest, rfl, rfl⟩ := h.liesAt
  obtain ⟨c, tail, htext, -⟩ := h.fits.head_text
  rw [← size_append, charBefore?_ofText, List.getLast?_append_of_ne_nil _ (by simp [htext])]

/-- Whether the range that is blanked out ends a statement shows behind the word `state`. -/
theorem TakesApartAt.endsStatement_iff :
    (ofText t).EndsStatement (i + (d.text ++ closing post).size) ↔ post.trimStart.head? = some ';' ∨
        ∀ j c, (ofText t).NextAt (i + d.text.size) j c → c ∉ carryingOn := by
  have hlies := h.liesAt
  rw [EndsStatement, h.charBefore?_eq]
  by_cases hclosed : post.trimStart.head? = some ';'
  · have hlast : (d.text ++ closing post).getLast? = some ';' := by
      rw [closing, if_pos hclosed, ← List.append_assoc, List.getLast?_concat]
    exact ⟨fun _ => .inl hclosed, fun _ => .inl hlast⟩
  · have hspaces : closing post = post.takeWhile isSpace := by
      rw [closing, if_neg hclosed, List.append_nil]
    have hopen : (d.text ++ closing post).getLast? ≠ some ';' := by
      rw [hspaces]
      rcases List.eq_nil_or_concat (post.takeWhile isSpace) with hnil | ⟨s, b, hs⟩
      · rw [hnil, List.append_nil, ← List.nil_append d.text, getLast?_destructuring]
        decide
      · rw [hs, List.concat_eq_append, ← List.append_assoc, List.getLast?_concat]
        rintro ⟨⟩
        have hspace : isSpace ';' := List.mem_takeWhile_imp (l := post) (by rw [hs]; simp)
        cases hspace
    have hblank : ∀ k b, i + d.text.size ≤ k → k < i + (d.text ++ closing post).size →
        (ofText t).charAt? k = some b → isSpace b := by
      intro k b hle hlt hb
      have hm := Scan.ofText_shows t
      have hstop := (slice_of_liesAt hm (by rw [Scan.kinds_chars]; exact hlies)).1.right
      have hend := charAt?_le_boundary hm hb hstop hlt
      have hclosing : LiesAt t (i + d.text.size) (closing post) := by
        obtain ⟨pre, rest, rfl, rfl⟩ := hlies
        exact ⟨pre ++ d.text, rest, by simp, size_append _ _⟩
      have hpart : [b] <:+: closing post :=
        Text.infix_of_liesAt hclosing (charAt?_ofText_iff.mp hb) hle
          (by simpa [Nat.add_assoc] using hend)
      rw [hspaces] at hpart
      exact List.mem_takeWhile_imp (hpart.subset List.mem_cons_self)
    rw [or_iff_right hopen, or_iff_right hclosed]
    have hle : i + d.text.size ≤ i + (d.text ++ closing post).size := by
      rw [size_append]
      omega
    exact forall₂_congr fun j c => imp_congr_left (nextAt_iff_of_blank hle hblank).symm

end Statements

/-- Blanking out declarations makes an edit for each declaration that takes the state of a receiver
apart into state entries, and no other.  An edit takes in the declaration up to the word `state`, and
the white space and the semicolon behind it, whatever comes next.  So the edits are whole statements
if and only if behind no such declaration without a semicolon its initializer goes on. -/
theorem destructurings_blanked (r : Resolver) (hr : ∀ w ∈ r.receivers, w.isIdentifier = true)
    (t : Text) : ∃ edits out, r.stripDestructuring t = .ok out ∧ Edit.Fit (ofText t) 0 edits ∧
      Edit.splice (ofText t) 0 edits = .ok out ∧
      (∀ e, e ∈ edits ↔ ∃ i d post, r.TakesApartAt t i d post ∧
        e = ⟨⟨i, i + (d.text ++ closing post).size⟩, blankOut (d.text ++ closing post)⟩) ∧
      ((∀ e ∈ edits, (ofText t).EndsStatement e.range.stop) ↔
        ∀ i d post, r.TakesApartAt t i d post → post.trimStart.head? = some ';' ∨
          ∀ j c, (ofText t).NextAt (i + d.text.size) j c → c ∉ carryingOn) := by
  have hm := Scan.ofText_shows t
  obtain ⟨edits, out, hpaired, hfit, hsplice, hstrip⟩ := r.stripDestructuring_paired t
  have hedits : ∀ e, e ∈ edits ↔ ∃ i d post, r.TakesApartAt t i d post ∧
      e = ⟨⟨i, i + (d.text ++ closing post).size⟩, blankOut (d.text ++ closing post)⟩ := by
    intro e
    constructor
    · intro he
      obtain ⟨found, hfound, text, htext, rfl⟩ := (partners_of_forall₂ hpaired).1 e he
      obtain ⟨d, post, h, hstop, -⟩ := (mem_redundant_iff hr).mp (List.mem_filter.mp hfound)
      have hslice := (slice_of_liesAt hm (by rw [Scan.kinds_chars]; exact h.liesAt)).2
      rw [hstop] at htext ⊢
      cases htext.symm.trans hslice
      exact ⟨found.start, d, post, h, rfl⟩
    · rintro ⟨i, d, post, h, rfl⟩
      obtain ⟨e, he, text, htext, rfl⟩ := (partners_of_forall₂ hpaired).2
        ⟨i, i + (d.text ++ closing post).size, d.group⟩
        (List.mem_filter.mpr ((mem_redundant_iff hr).mpr ⟨d, post, h, rfl, rfl⟩))
      have hslice := (slice_of_liesAt hm (by rw [Scan.kinds_chars]; exact h.liesAt)).2
      cases htext.symm.trans hslice
      exact he
  refine ⟨edits, out, hstrip, hfit, hsplice, hedits, ?_, ?_⟩
  · intro hends i d post h
    exact h.endsStatement_iff.mp (hends _ ((hedits _).mpr ⟨i, d, post, h, rfl⟩))
  · intro hnext e he
    obtain ⟨i, d, post, h, rfl⟩ := (hedits e).mp he
    exact h.endsStatement_iff.mpr (hnext i d post h)

/-- The declaration `let { a , b } = this . state`. -/
def spacedDestructuring : Destructuring := ⟨"let", " ", " a , b ", ⟨" ", " ", "this", " ", " "⟩⟩

theorem spacedDestructuring_takesApart : TakesApartAt ⟨["a", "b"], [], ["this"]⟩
    "f();let \x7b a , b \x7d = this . state ;\ng(a)" 4 spacedDestructuring " ;\ng(a)" where
  fits := ⟨by decide, List.all_eq_true.mp rfl, List.all_eq_true.mp rfl,
    ⟨List.all_eq_true.mp rfl, List.all_eq_true.mp rfl, .inl (by decide), List.all_eq_true.mp rfl,
      List.all_eq_true.mp rfl⟩⟩
  place := ⟨"f();", by decide, by decide, by decide⟩
  ends := by decide
  code := by decide
  redundant := by decide

/-- The semicolon goes with the declaration, and the line feed stays. -/
theorem destructurings_blanked_spaced :
    (∀ w ∈ (["this"] : List Text), w.isIdentifier = true) ∧
      ∃ edits, Edit.splice (ofText "f();let \x7b a , b \x7d = this . state ;\ng(a)") 0 edits =
          .ok "f();                              \ng(a)" ∧
        ⟨⟨4, 34⟩, "                              "⟩ ∈ edits := by
  have hr : ∀ w ∈ (["this"] : List Text), w.isIdentifier = true := by decide
  have hout : stripDestructuring ⟨["a", "b"], [], ["this"]⟩
      "f();let \x7b a , b \x7d = this . state ;\ng(a)" =
        .ok "f();                              \ng(a)" := by decide +kernel
  obtain ⟨edits, out, hstrip, -, hsplice, hedits, -⟩ := destructurings_blanked
    ⟨["a", "b"], [], ["this"]⟩ hr "f();let \x7b a , b \x7d = this . state ;\ng(a)"
  cases hstrip.symm.trans hout
  exact ⟨hr, edits, hsplice, (hedits _).mpr ⟨4, spacedDestructuring, " ;\ng(a)",
    spacedDestructuring_takesApart, by decide⟩⟩

/-- Of an initializer that goes on behind the state, the rest is left over. -/
theorem initializer_cut : stripDestructuring ⟨["a"], [], ["this"]⟩ "const \x7ba\x7d = this.state.a" =
      .ok "                      .a" ∧
    ¬ (ofText "const \x7ba\x7d = this.state.a").EndsStatement 22 := by
  refine ⟨by decide +kernel, ?_⟩
  rintro (hbefore | hnext)
  · exact absurd hbefore (by decide)
  · refine hnext 22 '.' ⟨le_refl 22, by decide, rfl, by decide, fun k b hle hlt => ?_⟩ (by decide)
    omega

end Resolver

end Declass
