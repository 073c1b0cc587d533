import Declass.Member
import Declass.Proofs.Nesting
import Declass.Proofs.ScanTrace
import Declass.Proofs.Words

/-!
# Places

**Input.** A code map, and characters with their kinds that are known to lie at some position.

**Results.** What every walk of the library does there: `skipWhile_of_liesAt`,
`identEnd_of_liesAt`, `matching_of_liesAt`, `outerFrom_of_liesAt` and `cut_of_liesAt` say where a
walk stops, in terms of the characters that it goes over.
-/

namespace Declass

open Scan CodeMap
open Slot (width)

/-- The characters of a text, all of them code. -/
def Text.asCode (g : Text) : List (Char × Kind) := g.map fun c => (c, .code)

namespace Text

@[simp] theorem asCode_nil : asCode [] = [] := rfl

@[simp] theorem asCode_cons (c : Char) (g : Text) : asCode (c :: g) = (c, .code) :: asCode g := rfl

@[simp] theorem asCode_append (g g' : Text) : asCode (g ++ g') = asCode g ++ asCode g' :=
  List.map_append

@[simp] theorem map_fst_asCode (g : Text) : (asCode g).map Prod.fst = g := by
  simp [asCode, Function.comp_def]

@[simp] theorem width_asCode (g : Text) : Slot.width (asCode g) = g.size := by
  rw [Slot.width, map_fst_asCode]

end Text

/-- The characters lie at position `i`, with these kinds. -/
def Slot.LiesAt (ps : List (Char × Kind)) (i : Nat) (qs : List (Char × Kind)) : Prop :=
  ∃ pre post, ps = pre ++ qs ++ post ∧ width pre = i

section Places

theorem width_kinds (t : Text) : width (kinds t) = t.size := by
  rw [width, kinds_chars]

theorem CodeMap.size_ofText (t : Text) : (ofText t).size = t.size := by
  rw [size_eq_width (ofText_shows t), width_kinds]

theorem width_wrap {o c : Char} {k l : Kind} {qs : Painted} (ho : o.utf8Size = 1)
    (hc : c.utf8Size = 1) : width ((o, k) :: qs ++ [(c, l)]) = width qs + 2 := by
  simp only [Slot.width_append, Slot.width_cons, Slot.width_nil, ho, hc]
  omega

variable {m : CodeMap} {ps qs rs : Painted} {i j : Nat} {c : Char} {k : Kind}

theorem Slot.LiesAt.left (h : Slot.LiesAt ps i (qs ++ rs)) : Slot.LiesAt ps i qs := by
  obtain ⟨pre, post, rfl, rfl⟩ := h
  exact ⟨pre, rs ++ post, by simp, rfl⟩

theorem Slot.LiesAt.right (h : Slot.LiesAt ps i (qs ++ rs)) : Slot.LiesAt ps (i + width qs) rs := by
  obtain ⟨pre, post, rfl, rfl⟩ := h
  exact ⟨pre ++ qs, post, by simp, by simp⟩

theorem Slot.LiesAt.tail (h : Slot.LiesAt ps i ((c, k) :: qs)) :
    Slot.LiesAt ps (i + c.utf8Size) qs := by
  have h' : Slot.LiesAt ps i ([(c, k)] ++ qs) := h
  simpa using h'.right

theorem Slot.LiesAt.chars (h : Slot.LiesAt ps i qs) :
    Text.LiesAt (ps.map Prod.fst) i (qs.map Prod.fst) := by
  obtain ⟨pre, post, rfl, rfl⟩ := h
  exact ⟨pre.map Prod.fst, post.map Prod.fst, by simp, rfl⟩

variable (hm : m.Shows ps)
include hm

theorem slots_of_liesAt (h : Slot.LiesAt ps i qs) (hi : i ≤ j) (hj : j < i + width qs) :
    m.slots[j]? = (Slot.paint qs)[j - i]? := by
  obtain ⟨pre, post, rfl, rfl⟩ := h
  rw [getElem?_slots hm, Slot.paint_append, Slot.paint_append, List.append_assoc,
    List.getElem?_append_right (by simpa using hi), Slot.length_paint,
    List.getElem?_append_left (by rw [Slot.length_paint]; omega)]

theorem bytesFrom_of_liesAt (h : Slot.LiesAt ps i qs) :
    m.bytesFrom (width qs) i = Slot.paint qs := by
  obtain ⟨pre, post, rfl, rfl⟩ := h
  rw [bytesFrom_eq hm, Slot.paint_append, Slot.paint_append, List.append_assoc,
    List.drop_left' (by simp), List.take_left' (by simp)]

theorem split_of_liesAt (h : Slot.LiesAt ps i qs) (hi : i ≤ j) (hj : j < i + width qs)
    (hs : m.slots[j]? = some ⟨some c, k⟩) :
    ∃ before after, qs = before ++ (c, k) :: after ∧ j = i + width before := by
  rw [slots_of_liesAt hm h hi hj] at hs
  obtain ⟨before, d, l, after, n, rfl, hn, -, hslot⟩ := Slot.getElem?_paint hs
  by_cases hzero : n = 0
  · subst hzero
    obtain ⟨rfl, rfl⟩ : c = d ∧ k = l := by simpa using hslot
    exact ⟨before, after, rfl, by omega⟩
  · simp [hzero] at hslot

theorem has_of_liesAt (h : Slot.LiesAt ps i ((c, k) :: qs)) (p : Slot → Bool) :
    m.has p i = p ⟨some c, k⟩ := by
  obtain ⟨pre, post, hps, rfl⟩ := h
  rw [List.append_assoc] at hps
  exact has_at hm hps p

theorem charAt?_of_liesAt (h : Slot.LiesAt ps i ((c, k) :: qs)) : m.charAt? i = some c := by
  obtain ⟨pre, post, hps, hi⟩ := h
  exact (charAt?_iff hm).mpr ⟨pre, k, qs ++ post, by simpa using hps, hi⟩

theorem isCodeChar_of_liesAt (h : Slot.LiesAt ps i ((c, .code) :: qs)) (d : Char) :
    m.isCodeChar i d = (c == d) := by
  rw [isCodeChar, has_of_liesAt hm h]
  simp [Slot.isCodeChar, Slot.isCode]

theorem slice_of_painted (h : Slot.LiesAt ps i qs) :
    m.slice i (i + width qs) = .ok (qs.map Prod.fst) := by
  obtain ⟨pre, post, hps, rfl⟩ := h
  simpa using slice_eq_ok hm hps

omit hm in
theorem reported_eq {start stop : Nat} (h : start ≤ stop) :
    Span.reported start stop = .ok (Span.clamp ⟨start, stop⟩) := by
  obtain ⟨s, hs, rfl⟩ := Span.reported_yields h
  exact hs

theorem cut_of_liesAt (h : Slot.LiesAt ps i qs) :
    Snippet.cut m i (i + width qs) = .ok ⟨qs.map Prod.fst, Span.clamp ⟨i, i + width qs⟩⟩ := by
  rw [Snippet.cut, bind_of_eq_ok (slice_of_painted hm h), bind_of_eq_ok (reported_eq (by omega))]
  rfl

theorem walks_of_liesAt (h : Slot.LiesAt ps i qs) (hqs : Balanced qs) :
    Walks m i (i + width qs) 0 0 := by
  obtain ⟨pre, post, hps, rfl⟩ := h
  have hwalks := walks_of_depthAfter? hm hps hqs
  rwa [Slot.width_append] at hwalks

/-- Two brackets with a text between them, as the code map has them. -/
theorem bracketed_of_liesAt {o : Char} (h : Slot.LiesAt ps i ((o, .code) :: qs ++ [(c, .code)]))
    (ho : Slot.opens ⟨some o, .code⟩) (hc : Slot.closes ⟨some c, .code⟩) :
    m.has Slot.opens i ∧ Slot.LiesAt ps (i + 1) qs ∧ m.has Slot.closes (i + 1 + width qs) := by
  have hinside : Slot.LiesAt ps (i + 1) (qs ++ [(c, .code)]) := by
    rw [← utf8Size_of_opens ho]
    exact Slot.LiesAt.tail h
  exact ⟨(has_of_liesAt hm h.left Slot.opens).trans ho, hinside.left,
    (has_of_liesAt hm hinside.right Slot.closes).trans hc⟩

theorem matching_of_liesAt {o : Char} (h : Slot.LiesAt ps i ((o, .code) :: qs ++ [(c, .code)]))
    (ho : Slot.opens ⟨some o, .code⟩) (hc : Slot.closes ⟨some c, .code⟩)
    (hqs : Balanced qs) : m.matching i = some (i + 1 + width qs) := by
  obtain ⟨hopens, hinside, hcloses⟩ := bracketed_of_liesAt hm h ho hc
  exact matching_of_walks hopens (walks_of_liesAt hm hinside hqs) hcloses

theorem outerFrom_of_liesAt {o : Char} (h : Slot.LiesAt ps i ((o, .code) :: qs ++ [(c, .code)]))
    (ho : Slot.opens ⟨some o, .code⟩) (hc : Slot.closes ⟨some c, .code⟩)
    (hqs : Balanced qs) (p : Nat → Bool) (count : Nat) :
    m.outerFrom p (width qs + 2 + count) 0 i = m.outerFrom p count 0 (i + width qs + 2) := by
  obtain ⟨hopens, hinside, hcloses⟩ := bracketed_of_liesAt hm h ho hc
  have hwalks := walks_of_liesAt hm hinside hqs
  have hcount : width qs + 2 + count = (i + 1 + width qs - (i + 1) + (count + 1)) + 1 := by
    omega
  have hnext : i + 1 + width qs + 1 = i + width qs + 2 := by
    omega
  rw [hcount, outerFrom_opens hopens, outerFrom_of_walks hwalks, outerFrom_closes hcloses, hnext]

/-- A walk over characters with the property stops behind the last of them. -/
theorem skipWhile_of_liesAt {p : Slot → Bool} {count : Nat}
    (h : Slot.LiesAt ps i (qs ++ (c, k) :: rs))
    (hqs : ∀ q ∈ qs, q.1.utf8Size = 1 ∧ p ⟨some q.1, q.2⟩) (hc : p ⟨some c, k⟩ = false)
    (hcount : qs.length ≤ count) : m.skipWhile p count i = i + qs.length := by
  induction qs generalizing i count with
  | nil =>
    cases count with
    | zero => rfl
    | succ count =>
      have hhas := (has_of_liesAt hm h p).trans hc
      rw [skipWhile, if_neg (by simp [hhas])]
      rfl
  | cons q qs ih =>
    obtain ⟨d, l⟩ := q
    obtain ⟨hd, hp⟩ := hqs (d, l) (by simp)
    obtain ⟨count, rfl⟩ : ∃ n, count = n + 1 := ⟨count - 1, by simp at hcount; omega⟩
    have hrest := Slot.LiesAt.tail h
    rw [hd] at hrest
    rw [skipWhile, if_pos ((has_of_liesAt hm h p).trans hp),
      ih hrest (fun q hq => hqs q (by simp [hq])) (by simpa using hcount), List.length_cons]
    omega

/-- An identifier in front of something that cannot be part of it. -/
theorem identEnd_of_liesAt {w : Text} (h : Slot.LiesAt ps i (w.asCode ++ (c, k) :: rs))
    (hw : w.isIdentifier) (hc : Character.isIdentPart c = false) :
    m.identEnd i = .ok (i + w.size) ∧ m.slice i (i + w.size) = .ok w := by
  have hslice := slice_of_painted hm h.left
  rw [Text.width_asCode, Text.map_fst_asCode] at hslice
  refine ⟨?_, hslice⟩
  obtain ⟨pre, post, hps, rfl⟩ := h
  rw [List.append_assoc] at hps
  rw [identEnd_eq hm hps, Text.identSize_eq, List.append_assoc, List.map_append,
    Text.map_fst_asCode, Text.identHead_of_isIdentifier hw (by simp [hc])]

/-- The rest of the text starts with the character that lies there. -/
theorem slice_size_of_liesAt (h : Slot.LiesAt ps i ((c, k) :: qs)) :
    ∃ rest, m.slice i m.size = .ok (c :: rest) := by
  obtain ⟨pre, post, hps, rfl⟩ := h
  have hall : ps = pre ++ ((c, k) :: qs ++ post) ++ [] := by simp [hps]
  have hslice := slice_eq_ok hm hall
  rw [← List.append_nil (pre ++ _), ← hall, ← size_eq_width hm] at hslice
  exact ⟨_, hslice⟩

theorem skipTrivia_of_liesAt (h : Slot.LiesAt ps i ((c, k) :: qs))
    (hc : Slot.isTrivia ⟨some c, k⟩ = false) (stop : Nat) : m.skipTrivia i stop = i := by
  have h' : Slot.LiesAt ps i ([] ++ (c, k) :: qs) := h
  exact skipWhile_of_liesAt hm h' (by simp) hc (Nat.zero_le _)

theorem skipTrivia_of_space (h : Slot.LiesAt ps i ((' ', .code) :: (c, k) :: qs))
    (hc : Slot.isTrivia ⟨some c, k⟩ = false) {stop : Nat} (hstop : i < stop) :
    m.skipTrivia i stop = i + 1 := by
  have h' : Slot.LiesAt ps i ([(' ', .code)] ++ (c, k) :: qs) := h
  refine skipWhile_of_liesAt hm h' (fun q hq => ?_) hc (by simp; omega)
  obtain rfl := List.mem_singleton.mp hq
  exact ⟨rfl, rfl⟩

theorem trimTrivia_of_liesAt (h : Slot.LiesAt ps i ((c, k) :: qs))
    (hc : Slot.isTrivia ⟨some c, k⟩ = false) (start : Nat) : m.trimTrivia start (i + 1) = i + 1 := by
  unfold trimTrivia
  cases i + 1 - start with
  | zero => rfl
  | succ count =>
    rw [skipBackWhile, Nat.add_sub_cancel, has_of_liesAt hm h, hc, if_neg Bool.false_ne_true]

theorem skipSeparators_of_liesAt (gap : Text) (h : Slot.LiesAt ps i (gap.asCode ++ (c, .code) :: rs))
    (hgap : gap.all Character.isLayout)
    (hc : (Slot.isTrivia ⟨some c, .code⟩ || Slot.isCodeChar ';' ⟨some c, .code⟩) = false) {stop : Nat}
    (hstop : i + gap.length ≤ stop) : Member.skipSeparators m i stop = i + gap.length := by
  have hlength : gap.asCode.length = gap.length := List.length_map _
  rw [← hlength]
  refine skipWhile_of_liesAt hm h (fun q hq => ?_) hc (by omega)
  obtain ⟨d, hd, rfl⟩ := List.mem_map.mp hq
  have hlayout := List.all_eq_true.mp hgap d hd
  refine ⟨utf8Size_of_isLayout hlayout, ?_⟩
  simp [Slot.isTrivia, Slot.isCode, Slot.isLayout, hlayout]

section Glue

variable {count d : Nat} {p : Nat → Bool}

theorem charAt?_of_glue {g : Text} (h : Slot.LiesAt ps i (g.asCode ++ rs))
    (hg : ∀ c ∈ g, c.utf8Size = 1) {n : Nat} {c : Char} (hn : g[n]? = some c) :
    m.charAt? (i + n) = some c := by
  induction g generalizing i n with
  | nil => simp at hn
  | cons d g ih =>
    cases n with
    | zero =>
      obtain rfl : d = c := by simpa using hn
      exact charAt?_of_liesAt hm h
    | succ n =>
      have hrest := Slot.LiesAt.tail h
      rw [hg d (by simp)] at hrest
      have := ih hrest (fun c hc => hg c (by simp [hc])) (by simpa using hn)
      rwa [Nat.add_assoc, Nat.add_comm 1 n] at this

/-- Nothing is found among characters that are no brackets and do not have the property. -/
theorem outerFrom_of_glue {g : Text} (h : Slot.LiesAt ps i (g.asCode ++ rs))
    (hg : ∀ c ∈ g, c.utf8Size = 1 ∧ isBracketFree c)
    (hp : ∀ n < g.length, p (i + n) = false) (count : Nat) :
    m.outerFrom p (g.length + count) d i = m.outerFrom p count d (i + g.length) := by
  induction g generalizing i with
  | nil => simp
  | cons c g ih =>
    obtain ⟨hsize, hfree⟩ := hg c (by simp)
    obtain ⟨ho, hc⟩ := not_bracket hfree .code
    have hrest := Slot.LiesAt.tail h
    rw [hsize] at hrest
    have hnot := hp 0 (by simp)
    rw [Nat.add_zero] at hnot
    rw [List.length_cons, Nat.add_right_comm, outerFrom_other ((has_of_liesAt hm h _).trans ho)
      ((has_of_liesAt hm h _).trans hc), hnot, Bool.and_false, if_neg Bool.false_ne_true,
      ih hrest (fun c hc => hg c (by simp [hc])) fun n hn => ?_]
    · congr 1
      omega
    · have := hp (n + 1) (by simpa using hn)
      rwa [Nat.add_comm n 1, ← Nat.add_assoc] at this

theorem outerFrom_of_first {g : Text} (h : Slot.LiesAt ps i (Text.asCode (c :: g) ++ rs))
    (hg : ∀ d ∈ c :: g, d.utf8Size = 1 ∧ isBracketFree d) (hfirst : p i)
    (hp : ∀ n < g.length, p (i + 1 + n) = false) (count : Nat) :
    m.outerFrom p (g.length + 1 + count) 0 i = i :: m.outerFrom p count 0 (i + 1 + g.length) := by
  obtain ⟨hsize, hfree⟩ := hg c (by simp)
  obtain ⟨hopens, hcloses⟩ := not_bracket hfree .code
  have hrest := Slot.LiesAt.tail h
  rw [hsize] at hrest
  rw [Nat.add_right_comm, outerFrom_other ((has_of_liesAt hm h _).trans hopens)
    ((has_of_liesAt hm h _).trans hcloses), hfirst,
    outerFrom_of_glue hm hrest (fun d hd => hg d (by simp [hd])) hp]
  rfl

end Glue

end Places

end Declass
