import Declass.Proofs.Patches
import Declass.Proofs.PatternLanguages

/-!
# Where class components are declared

**Input.** A text.

A `Declaration` is the text of a declaration of a class component, part by part.

**Results.** `isClass_iff`: a text is taken for a class component if and only if a declaration in it
starts in code.  The search leaves out what starts inside an earlier match, but no declaration
starts inside another one (`Declaration.not_inside`).
-/

namespace Declass

open Component (declaration isClass)
open Character (isWord)
open Text (EdgeBetween run_inj)

theorem Character.isSpace_of_isWord {c : Char} (h : isWord c) : isSpace c = false := by
  have hspaces : ∀ d ∈ Text.spaces, isWord d = false :=
    List.all_iff_forall_prop.mp (by decide +kernel)
  cases hspace : isSpace c with
  | false => rfl
  | true =>
    rw [hspaces c (Text.mem_spaces hspace)] at h
    cases h

/-- The text of a declaration of a class component, part by part. -/
structure Declaration where
  beforeName : Text
  name : Text
  beforeExtends : Text
  beforeBase : Text
  base : Text

namespace Declaration

/-- The text of the declaration. -/
def text (d : Declaration) : Text :=
  "class" ++ (d.beforeName ++ (d.name ++ (d.beforeExtends ++ ("extends" ++
    (d.beforeBase ++ d.base)))))

/-- Characters that names may start with. -/
def startsName (c : Char) : Bool := c.isAlpha || c == '_' || c == '$'

/-- Characters that may stand inside names. -/
def inName (c : Char) : Bool := isWord c || c == '$'

/-- The names in declarations. -/
def IsName (n : Text) : Prop :=
  ∃ c u, startsName c = true ∧ (∀ d ∈ u, inName d = true) ∧ n = c :: u

/-- White space of at least one character. -/
def IsGap (s : Text) : Prop :=
  ∃ c u, Character.isSpace c = true ∧ (∀ d ∈ u, Character.isSpace d = true) ∧ s = c :: u

/-- A name and a dot, with white space around the dot. -/
def IsQualifier (q : Text) : Prop :=
  ∃ n s s', IsName n ∧ (∀ c ∈ s, Character.isSpace c = true) ∧
    (∀ c ∈ s', Character.isSpace c = true) ∧ q = n ++ (s ++ '.' :: s')

/-- What a class component extends: a component, which may be pure and have a qualifier. -/
def IsBase (b : Text) : Prop :=
  ∃ q p : Text, (IsQualifier q ∨ q = []) ∧ (p = "Pure" ∨ p = []) ∧ b = q ++ (p ++ "Component")

/-- The parts are what they should be. -/
structure WellFormed (d : Declaration) : Prop where
  beforeName : IsGap d.beforeName
  name : IsName d.name
  beforeExtends : IsGap d.beforeExtends
  beforeBase : IsGap d.beforeBase
  base : IsBase d.base

section Matching

open Matcher

theorem spaces1_reads : Reads spaces1 {s | IsGap s} := one_many_reads _ _

theorem name_reads : Reads Matcher.name {n | IsName n} := one_many_reads _ _

theorem qualifier_reads :
    Reads (seq [Matcher.name, spaces, one (· == '.'), spaces]) {q | IsQualifier q} := by
  have hreads := seq_cons_reads name_reads <| seq_cons_reads spaces_reads <|
    seq_cons_reads (char_reads '.') <| seq_cons_reads spaces_reads seq_nil_reads
  refine Eq.mp (congrArg _ (Set.ext fun q => ?_)) hreads
  constructor
  · rintro ⟨n, hn, _, ⟨s, hs, _, ⟨_, rfl, _, ⟨s', hs', _, rfl, rfl⟩, rfl⟩, rfl⟩, rfl⟩
    exact ⟨n, s, s', hn, hs, hs', by simp⟩
  · rintro ⟨n, s, s', hn, hs, hs', rfl⟩
    exact ⟨n, hn, _, ⟨s, hs, _, ⟨['.'], rfl, _, ⟨s', hs', [], rfl, rfl⟩, rfl⟩, rfl⟩, by simp⟩

/-- What stands behind the name, without the edge at the end. -/
def behindName : List Matcher :=
  [spaces1, .word "extends", spaces1, .opt (.seq [Matcher.name, spaces, .one (· == '.'), spaces]),
    .opt (.word "Pure"), .word "Component"]

theorem behindName_reads : Reads (seq behindName) {u | ∃ s s' b, IsGap s ∧ IsGap s' ∧ IsBase b ∧
    u = s ++ ("extends" ++ (s' ++ b))} := by
  have hreads := seq_cons_reads spaces1_reads <| seq_cons_reads (word_reads "extends") <|
    seq_cons_reads spaces1_reads <| seq_cons_reads (opt_reads qualifier_reads) <|
    seq_cons_reads (opt_reads (word_reads "Pure")) <|
    seq_cons_reads (word_reads "Component") seq_nil_reads
  refine Eq.mp (congrArg _ (Set.ext fun u => ?_)) hreads
  constructor
  · rintro ⟨s, hs, _, ⟨_, rfl, _, ⟨s', hs', _, ⟨q, hq, _, ⟨p, hp, _, ⟨_, rfl, _, rfl, rfl⟩, rfl⟩,
      rfl⟩, rfl⟩, rfl⟩, rfl⟩
    exact ⟨s, s', q ++ (p ++ "Component"), hs, hs', ⟨q, p, hq, hp, rfl⟩, by simp⟩
  · rintro ⟨s, s', _, hs, hs', ⟨q, p, hq, hp, rfl⟩, rfl⟩
    exact ⟨s, hs, _, ⟨"extends", rfl, _, ⟨s', hs', _, ⟨q, hq, _, ⟨p, hp, _,
      ⟨"Component", rfl, [], rfl, rfl⟩, rfl⟩, rfl⟩, rfl⟩, rfl⟩, by simp⟩

theorem mem_before {pre rest : Text} {e : Cursor} :
    e ∈ declaration.before (.behind pre rest) ↔ EdgeBetween pre rest ∧
      ∃ s, IsGap s ∧ ∃ post, rest = "class" ++ (s ++ post) ∧
        e = .behind (pre ++ ("class" ++ s)) post := by
  have hbefore : declaration.before = seq [edge, .word "class", spaces1] := by
    dsimp only [declaration]
  have hreads := seq_cons_reads (word_reads "class") <| seq_cons_reads spaces1_reads seq_nil_reads
  rw [hbefore, mem_edge_seq hreads]
  refine and_congr_right fun _ => ⟨?_, ?_⟩
  · rintro ⟨_, ⟨_, rfl, _, ⟨s, hs, _, rfl, rfl⟩, rfl⟩, post, rfl, rfl⟩
    exact ⟨s, hs, post, by simp, by simp⟩
  · rintro ⟨s, hs, post, rfl, rfl⟩
    exact ⟨"class" ++ s, ⟨"class", rfl, s, ⟨s, hs, [], rfl, List.append_nil s⟩, rfl⟩, post,
      (List.append_assoc _ _ _).symm, rfl⟩

theorem mem_after {pre rest : Text} {e : Cursor} :
    e ∈ declaration.after (.behind pre rest) ↔ ∃ s s' b, IsGap s ∧ IsGap s' ∧ IsBase b ∧
      ∃ post, rest = s ++ ("extends" ++ (s' ++ b)) ++ post ∧
        e = .behind (pre ++ (s ++ ("extends" ++ (s' ++ b)))) post ∧
        EdgeBetween (pre ++ (s ++ ("extends" ++ (s' ++ b)))) post := by
  have hafter : declaration.after = seq (behindName ++ [edge]) := by
    dsimp only [declaration, behindName, List.cons_append, List.nil_append]
  rw [hafter, mem_seq_edge behindName_reads]
  constructor
  · rintro ⟨_, ⟨s, s', b, hs, hs', hb, rfl⟩, h⟩
    exact ⟨s, s', b, hs, hs', hb, h⟩
  · rintro ⟨s, s', b, hs, hs', hb, h⟩
    exact ⟨_, ⟨s, s', b, hs, hs', hb, rfl⟩, h⟩

variable {pre rest : Text}

/-- A match of the pattern is a declaration between edges. -/
theorem exists_of_matchAt {found : Match}
    (h : declaration.matchAt (.behind pre rest) = some found) :
    ∃ d post, WellFormed d ∧ rest = d.text ++ post ∧ EdgeBetween pre rest ∧
      EdgeBetween (pre ++ d.text) post ∧
      found = ⟨pre.size, pre.size + d.text.size, d.name⟩ := by
  obtain ⟨a, ha, b, hb, e, he, rfl⟩ := Pattern.exists_of_matchAt h
  obtain ⟨hedge, s, hs, post, rfl, rfl⟩ := mem_before.mp ha
  obtain ⟨n, hn, post, rfl, rfl⟩ := (name_reads _ _ _).mp hb
  obtain ⟨s', s'', base, hs', hs'', hbase, post, rfl, rfl, hedge'⟩ := mem_after.mp he
  have htext : pre ++ ("class" ++ s) ++ n ++ (s' ++ ("extends" ++ (s'' ++ base))) =
      pre ++ text ⟨s, n, s', s'', base⟩ := by
    simp [text]
  rw [htext] at hedge' ⊢
  refine ⟨⟨s, n, s', s'', base⟩, post, ⟨hs, hn, hs', hs'', hbase⟩, by simp [text], hedge, hedge',
    ?_⟩
  simp only [Cursor.behind, Text.size_append, List.length_append, Nat.add_sub_cancel,
    List.take_left']

/-- A declaration between edges is a match of the pattern. -/
theorem exists_matchAt {d : Declaration} {post : Text} (hd : d.WellFormed)
    (hedge : EdgeBetween pre (d.text ++ post))
    (hedge' : EdgeBetween (pre ++ d.text) post) :
    ∃ found, declaration.matchAt (.behind pre (d.text ++ post)) = some found := by
  obtain ⟨s, n, s', s'', base⟩ := d
  have htext : text ⟨s, n, s', s'', base⟩ ++ post =
      "class" ++ (s ++ (n ++ (s' ++ ("extends" ++ (s'' ++ base)) ++ post))) := by
    simp [text]
  have hwhole : pre ++ ("class" ++ s) ++ n ++ (s' ++ ("extends" ++ (s'' ++ base))) =
      pre ++ text ⟨s, n, s', s'', base⟩ := by
    simp [text]
  rw [htext] at hedge ⊢
  refine Pattern.exists_matchAt (mem_before.mpr ⟨hedge, s, hd.beforeName, _, rfl, rfl⟩)
    ((name_reads _ _ _).mpr ⟨n, hd.name, _, rfl, rfl⟩)
    (mem_after.mpr ⟨s', s'', base, hd.beforeExtends, hd.beforeBase, hd.base, post, rfl, rfl, ?_⟩)
  rwa [hwhole]

end Matching

theorem inName_of_startsName {c : Char} (h : startsName c) : inName c := by
  simp only [startsName, Bool.or_eq_true] at h
  rcases h with (h | h) | h
  · have hlt : c.toNat < 0x80 := Text.toNat_lt_of_isAlphanum (by simp [Char.isAlphanum, h])
    simp [inName, isWord, hlt, Char.isAlphanum, h]
  · obtain rfl := eq_of_beq h
    rfl
  · obtain rfl := eq_of_beq h
    rfl

theorem isSpace_of_inName {c : Char} (h : inName c) : Character.isSpace c = false := by
  rw [inName, Bool.or_eq_true] at h
  rcases h with h | h
  · exact Character.isSpace_of_isWord h
  · obtain rfl := eq_of_beq h
    rfl

theorem IsName.inName {n : Text} (h : IsName n) : ∀ c ∈ n, inName c := by
  obtain ⟨c, u, hc, hu, rfl⟩ := h
  rintro d (_ | ⟨_, hd⟩)
  · exact inName_of_startsName hc
  · exact hu d hd

theorem IsName.isSpace {n : Text} (h : IsName n) : ∀ c ∈ n, Character.isSpace c = false :=
  fun c hc => isSpace_of_inName (h.inName c hc)

theorem IsGap.isSpace {s : Text} (h : IsGap s) : ∀ c ∈ s, Character.isSpace c := by
  obtain ⟨c, u, hc, hu, rfl⟩ := h
  rintro d (_ | ⟨_, hd⟩)
  · exact hc
  · exact hu d hd

theorem IsGap.spaces_append {s g : Text} (hs : ∀ c ∈ s, Character.isSpace c)
    (hg : IsGap g) : IsGap (s ++ g) := by
  cases s with
  | nil => exact hg
  | cons c s =>
    refine ⟨c, s ++ g, hs c List.mem_cons_self, fun d hd => ?_, rfl⟩
    rcases List.mem_append.mp hd with hd | hd
    · exact hs d (List.mem_cons_of_mem _ hd)
    · exact hg.isSpace d hd

/-- Names and bases start with a character that is neither white space nor a dot. -/
theorem IsName.head {n : Text} (h : IsName n) (rest : Text) :
    (n ++ rest).head?.any Character.isSpace = false ∧ (n ++ rest).head? ≠ some '.' := by
  obtain ⟨c, u, hc, -, rfl⟩ := h
  refine ⟨isSpace_of_inName (inName_of_startsName hc), fun hdot => ?_⟩
  obtain rfl : c = '.' := Option.some.inj hdot
  cases hc

theorem IsBase.head {b : Text} (h : IsBase b) (rest : Text) :
    (b ++ rest).head?.any Character.isSpace = false ∧ (b ++ rest).head? ≠ some '.' := by
  obtain ⟨q, p, ⟨n, s, s', hn, -, -, rfl⟩ | rfl, hp, rfl⟩ := h
  · simp only [List.append_assoc]
    exact hn.head _
  · rcases hp with rfl | rfl
    · exact ⟨rfl, by simp⟩
    · exact ⟨rfl, by simp⟩

section Inside

/-- Nowhere in the text does a word start with the first letter of a declaration. -/
def NoStart (a : Text) : Prop :=
  ∀ z z', a = z ++ z' → z.getLast?.any isWord = false → z'.head? ≠ some 'c'

theorem NoStart.of_words {a : Text} (ha : ∀ c ∈ a, isWord c)
    (hc : a.head? ≠ some 'c') : NoStart a := by
  intro z z' h hz
  rcases List.eq_nil_or_concat z with rfl | ⟨z, c, rfl⟩
  · rwa [← List.nil_append z', ← h]
  · have hword := ha c (by simp [h])
    simp [hword] at hz

theorem NoStart.of_spaces {a : Text} (ha : ∀ c ∈ a, Character.isSpace c) : NoStart a := by
  intro z z' h _ hc
  have hspace := ha 'c' (by rw [h]; exact List.mem_append_right _ (List.mem_of_head? hc))
  cases hspace

variable {a b x y : Text}

theorem cut_cases (h : a ++ b = x ++ y) (hlast : x.getLast?.any isWord = false) :
    (∃ z, z ≠ [] ∧ a = x ++ z ∧ y = z ++ b) ∨
      ∃ z, x = a ++ z ∧ b = z ++ y ∧ z.getLast?.any isWord = false := by
  have hend : ∀ z, x = a ++ z → z.getLast?.any isWord = false := by
    rintro z rfl
    rcases List.eq_nil_or_concat z with rfl | ⟨z, c, rfl⟩
    · rfl
    · rwa [List.concat_eq_append, List.getLast?_concat, ← List.getLast?_concat (l := a ++ z),
        List.append_assoc, ← List.concat_eq_append]
  rcases List.append_eq_append_iff.mp h with ⟨z, hx, hb⟩ | ⟨z, ha, hy⟩
  · exact .inr ⟨z, hx, hb, hend z hx⟩
  · by_cases hz : z = []
    · subst hz
      rw [List.append_nil] at ha
      exact .inr ⟨[], by rw [ha, List.append_nil], by simpa using hy.symm, rfl⟩
    · exact .inl ⟨z, hz, ha, hy⟩

/-- A place where a declaration could start lies behind such a text. -/
theorem NoStart.pass (ha : NoStart a) (h : a ++ b = x ++ y)
    (hlast : x.getLast?.any isWord = false) (hy : y.head? = some 'c') :
    ∃ z, b = z ++ y ∧ z.getLast?.any isWord = false := by
  rcases cut_cases h hlast with ⟨z, hz, hax, hyz⟩ | ⟨z, -, hb, hend⟩
  · rw [hyz, List.head?_append_of_ne_nil _ hz] at hy
    exact absurd hy (ha x z hax hlast)
  · exact ⟨z, hb, hend⟩

theorem inName_of_isSpace {c : Char} (h : Character.isSpace c) : inName c = false := by
  rw [← Bool.not_eq_true]
  intro hname
  rw [isSpace_of_inName hname] at h
  cases h

theorem IsGap.head {s : Text} (h : IsGap s) (rest : Text) :
    (s ++ rest).head?.any inName = false := by
  obtain ⟨c, u, hc, -, rfl⟩ := h
  exact inName_of_isSpace hc

/-- A name that is followed by a dot is not one that is followed by something else. -/
theorem not_dotted {w g v n s rest : Text} (hw : ∀ c ∈ w, inName c) (hg : IsGap g)
    (hv : v.head?.any Character.isSpace = false ∧ v.head? ≠ some '.')
    (hn : ∀ c ∈ n, inName c) (hs : ∀ c ∈ s, Character.isSpace c)
    (h : w ++ (g ++ v) = n ++ (s ++ '.' :: rest)) : False := by
  have hhead : (s ++ '.' :: rest).head?.any inName = false := by
    cases s with
    | nil => rfl
    | cons c s => exact inName_of_isSpace (hs c List.mem_cons_self)
  obtain ⟨-, h⟩ := run_inj hw hn (hg.head v) hhead h
  obtain ⟨-, rfl⟩ := run_inj hg.isSpace hs hv.1 rfl h
  exact hv.2 rfl

variable {d : Declaration} (hd : d.WellFormed)
include hd

/-- Where a declaration could start inside another one: at the end of a name. -/
theorem start_cases (h : d.text = x ++ y) (hx : x ≠ [])
    (hlast : x.getLast?.any isWord = false) (hy : y.head? = some 'c') :
    (∃ z, (∀ c ∈ z, inName c) ∧
      y = z ++ (d.beforeExtends ++ ("extends" ++ (d.beforeBase ++ d.base)))) ∨
    ∃ z s rest, (∀ c ∈ z, inName c) ∧ (∀ c ∈ s, Character.isSpace c) ∧
      y = z ++ (s ++ '.' :: rest) := by
  -- The first letter comes before the place, so that the word it starts does as well.
  obtain ⟨x, rfl⟩ : ∃ x', x = 'c' :: x' := by
    cases x with
    | nil => exact absurd rfl hx
    | cons c x =>
      have hc : 'c' = c := (List.cons.inj h).1
      exact ⟨x, by rw [hc]⟩
  have hlass : ("lass" : Text) ++ (d.beforeName ++ (d.name ++ (d.beforeExtends ++ ("extends" ++
      (d.beforeBase ++ d.base))))) = x ++ y := (List.cons.inj h).2
  have hlast' : x.getLast?.any isWord = false := by
    cases x with
    | nil => exact absurd hlast (by decide)
    | cons c x => rwa [List.getLast?_cons_cons] at hlast
  obtain ⟨x, h, hlast⟩ := (NoStart.of_words (List.all_eq_true.mp rfl) (by decide)).pass hlass hlast' hy
  obtain ⟨x, h, hlast⟩ := (NoStart.of_spaces hd.beforeName.isSpace).pass h hlast hy
  rcases cut_cases h hlast with ⟨z, -, hname, rfl⟩ | ⟨x, -, h, hlast⟩
  · exact .inl ⟨z, fun c hc => hd.name.inName c (by simp [hname, hc]), rfl⟩
  obtain ⟨x, h, hlast⟩ := (NoStart.of_spaces hd.beforeExtends.isSpace).pass h hlast hy
  obtain ⟨x, h, hlast⟩ := (NoStart.of_words (List.all_eq_true.mp rfl) (by decide)).pass h hlast hy
  obtain ⟨x, h, hlast⟩ := (NoStart.of_spaces hd.beforeBase.isSpace).pass h hlast hy
  -- What remains is the base.
  obtain ⟨q, p, hq, hp, hbase⟩ := hd.base
  have hcomponent : NoStart (p ++ "Component") := by
    rcases hp with rfl | rfl
    · exact .of_words (List.all_eq_true.mp rfl) (by decide)
    · exact .of_words (List.all_eq_true.mp rfl) (by decide)
  have hend : ∀ {x : Text}, p ++ "Component" = x ++ y →
      x.getLast?.any isWord = false → False :=
    fun h hlast => hcomponent _ _ h hlast hy
  rw [hbase] at h
  rcases hq with ⟨n, s, s', hn, hs, hs', rfl⟩ | rfl
  · simp only [List.append_assoc, List.cons_append] at h
    rcases cut_cases h hlast with ⟨z, -, hname, rfl⟩ | ⟨x, -, h, hlast⟩
    · exact .inr ⟨z, s, _, fun c hc => hn.inName c (by simp [hname, hc]), hs, rfl⟩
    obtain ⟨x, h, hlast⟩ := (NoStart.of_spaces hs).pass h hlast hy
    cases x with
    | nil =>
      rw [List.nil_append] at h
      rw [← h] at hy
      exact absurd hy (by simp)
    | cons c x =>
      have hlast' : x.getLast?.any isWord = false := by
        cases x with
        | nil => rfl
        | cons d x => rwa [List.getLast?_cons_cons] at hlast
      obtain ⟨x, h, hlast⟩ := (NoStart.of_spaces hs').pass (List.cons.inj h).2 hlast' hy
      exact (hend h hlast).elim
  · exact (hend h hlast).elim

/-- No declaration starts inside another one. -/
theorem not_inside {e : Declaration} (he : e.WellFormed) {post post' : Text}
    (h : d.text ++ post = x ++ (e.text ++ post')) (hx : x ≠ []) (hlt : x.size < d.text.size)
    (hlast : x.getLast?.any isWord = false) : False := by
  obtain ⟨y, hy, hrest⟩ := Text.append_split_of_size h.symm (le_of_lt hlt)
  have hhead : y.head? = some 'c' := by
    cases y with
    | nil =>
      rw [hy, List.append_nil] at hlt
      exact absurd hlt (lt_irrefl _)
    | cons c y =>
      have hc : 'c' = c := (List.cons.inj hrest).1
      rw [hc, List.head?_cons]
  have hclass : ∀ c ∈ ("class" : Text), inName c := List.all_eq_true.mp rfl
  have hextends : ∀ c ∈ ("extends" : Text), inName c := List.all_eq_true.mp rfl
  simp only [text, List.append_assoc] at hrest
  rcases start_cases hd hy hx hlast hhead with ⟨z, hz, rfl⟩ | ⟨z, s, rest, hz, hs, rfl⟩
  · -- Runs of name characters and white space alternate, so they agree one by one.
    simp only [List.append_assoc] at hrest
    obtain ⟨-, hrest⟩ := run_inj hclass hz (he.beforeName.head _)
      (hd.beforeExtends.head _) hrest
    obtain ⟨-, hrest⟩ := run_inj he.beforeName.isSpace hd.beforeExtends.isSpace
      (he.name.head _).1 rfl hrest
    obtain ⟨-, hrest⟩ := run_inj he.name.inName hextends (he.beforeExtends.head _)
      (hd.beforeBase.head _) hrest
    obtain ⟨-, hrest⟩ := run_inj he.beforeExtends.isSpace hd.beforeBase.isSpace
      rfl (hd.base.head _).1 hrest
    obtain ⟨q, p, ⟨n, s, s', hn, hs, -, rfl⟩ | rfl, hp, hbase⟩ := hd.base
    · rw [hbase] at hrest
      simp only [List.append_assoc, List.cons_append] at hrest
      exact not_dotted hextends he.beforeBase (he.base.head _) hn.inName hs hrest
    · rw [hbase] at hrest
      rcases hp with rfl | rfl
      · exact absurd (List.cons.inj hrest).1 (by decide)
      · exact absurd (List.cons.inj hrest).1 (by decide)
  · simp only [List.append_assoc, List.cons_append] at hrest
    exact not_dotted hclass he.beforeName (he.name.head _) hz hs hrest

end Inside

section Ends

variable (d : Declaration)

theorem head_text (rest : Text) : (d.text ++ rest).head? = some 'c' := rfl

variable {d} (hd : d.WellFormed)
include hd

theorem exists_text_eq : ∃ u, d.text = u ++ "Component" := by
  obtain ⟨q, p, -, -, hbase⟩ := hd.base
  refine ⟨"class" ++ (d.beforeName ++ (d.name ++ (d.beforeExtends ++ ("extends" ++
    (d.beforeBase ++ (q ++ p)))))), ?_⟩
  rw [text, hbase]
  simp only [List.append_assoc]

theorem getLast?_text (pre : Text) : (pre ++ d.text).getLast? = some 't' := by
  obtain ⟨u, hu⟩ := exists_text_eq hd
  have ht : ("Component" : Text) = "Componen" ++ ['t'] := rfl
  rw [hu, ht, ← List.append_assoc, ← List.append_assoc, List.getLast?_concat]

end Ends

end Declaration

/-- A class component is declared at position `i` of the text. -/
def DeclaredAt (t : Text) (i : Nat) : Prop :=
  ∃ pre d post, Declaration.WellFormed d ∧ t = pre ++ (d.text ++ post) ∧ pre.size = i ∧
    pre.getLast?.any isWord = false ∧ post.head?.any isWord = false

section Search

open Declaration

variable {pre post : Text} {d : Declaration}

theorem edgeBetween_text (rest : Text) : EdgeBetween pre (d.text ++ rest) ↔
    pre.getLast?.any isWord = false := by
  have hword : (some 'c').any isWord := rfl
  rw [EdgeBetween, head_text, hword]
  simp

theorem edgeBetween_behind (hd : d.WellFormed) : EdgeBetween (pre ++ d.text) post ↔
    post.head?.any isWord = false := by
  have hword : (some 't').any isWord := rfl
  rw [EdgeBetween, getLast?_text hd, hword]
  simp

/-- What the search finds in code, and nothing else, makes a text a class component. -/
theorem isClass_iff {t : Text} : isClass t ↔ ∃ i, DeclaredAt t i ∧ (CodeMap.ofText t).isCode i := by
  have hfind : isClass t ↔ ∃ found ∈ declaration.occurrences t,
        (CodeMap.ofText t).isCode found.start := by
    rw [isClass, Component.findDeclaration?, List.find?_isSome]
  rw [hfind]
  constructor
  · rintro ⟨found, hfound, hcode⟩
    obtain ⟨pre, rest, rfl, hmatch⟩ := Pattern.exists_of_mem_occurrences hfound
    obtain ⟨d, post, hd, rfl, hedge, hedge', rfl⟩ := exists_of_matchAt hmatch
    exact ⟨pre.size, ⟨pre, d, post, hd, rfl, rfl, (edgeBetween_text post).mp hedge,
      (edgeBetween_behind hd).mp hedge'⟩, hcode⟩
  · rintro ⟨i, ⟨pre, d, post, hd, rfl, rfl, hbefore, hbehind⟩, hcode⟩
    have hne : d.text ++ post ≠ [] := fun hnil => by simpa [hnil] using head_text d post
    obtain ⟨found, hmatch⟩ := exists_matchAt hd ((edgeBetween_text post).mpr hbefore)
      ((edgeBetween_behind hd).mpr hbehind)
    have hstart : found.start = pre.size := Pattern.start_of_matchAt hmatch
    rcases Pattern.mem_occurrences_or_inside hne hmatch with hmem | ⟨g, hg, hlt, hlt'⟩
    · exact ⟨found, hmem, by rwa [hstart]⟩
    · obtain ⟨pre', rest', hpre, hmatch'⟩ := Pattern.exists_of_mem_occurrences hg
      obtain ⟨e, post', he, rfl, -, -, rfl⟩ := exists_of_matchAt hmatch'
      dsimp only at hlt hlt'
      obtain ⟨x, rfl, hx⟩ := Text.append_split_of_size hpre.symm (le_of_lt hlt)
      rw [Text.size_append] at hlt hlt'
      have hne : x ≠ [] := by
        rintro rfl
        simp at hlt
      refine (not_inside he hd hx hne (by omega) ?_).elim
      rwa [List.getLast?_append_of_ne_nil _ hne] at hbefore

end Search

end Declass
