import Declass.Component
import Declass.Proofs.Matches
import Mathlib.Data.List.Forall2

/-!
# Patterns look no further than a barrier

A barrier is a character that a pattern never consumes.  Two places are twins if the texts from
there on agree up to a barrier, whatever comes behind it.  A matcher is `Local` if it gives twins for
twins, one for one and in the same order of preference.

**Results.**
* `Pattern.matchAt_twin`: a pattern matches at twins alike.
* `Pattern.matchesFrom_twin`: up to the barrier, two texts have the same matches, each moved by the
  distance between the texts.
* `Component.declaration_local`: the declaration of a class component is local at every character
  that is no white space, no dot and no part of a name.
-/

namespace Declass

open Character (isSpace isWord)

/-- The same words end at both places, and the texts from there on agree up to the barrier `x`,
behind which they are `r` and `r'`; the second place lies `d` bytes further on. -/
structure Cursor.Twin (x : Char) (r r' : Text) (d : Nat) (c e : Cursor) : Prop where
  before : c.before.any isWord = e.before.any isWord
  offset : e.offset = d + c.offset
  rest : ∃ u, c.rest = u ++ x :: r ∧ e.rest = u ++ x :: r'

/-- The match moved to the right. -/
def Match.shift (found : Match) (offset : Nat) : Match :=
  ⟨offset + found.start, offset + found.stop, found.group⟩

namespace Matcher

/-- For twins the matcher gives twins. -/
def Local (x : Char) (r r' : Text) (d : Nat) (m : Matcher) : Prop :=
  ∀ c e, Cursor.Twin x r r' d c e → List.Forall₂ (Cursor.Twin x r r' d) (m c) (m e)

section Local

variable {x : Char} {r r' : Text} {d : Nat}

theorem skip_local : Local x r r' d skip := fun _ _ h => .cons h .nil

theorem edge_local : Local x r r' d edge := by
  intro c e h
  obtain ⟨u, hc, he⟩ := h.rest
  have hhead : c.rest.head? = e.rest.head? := by
    rw [hc, he]
    cases u <;> rfl
  rw [edge, edge, h.before, hhead]
  split
  · exact .nil
  · exact .cons h .nil

theorem one_local {p : Char → Bool} (hx : p x = false) : Local x r r' d (one p) := by
  intro c e h
  obtain ⟨u, hc, he⟩ := h.rest
  rw [one, one, hc, he]
  cases u with
  | nil =>
    dsimp only [List.nil_append]
    rw [hx]
    exact .nil
  | cons y u =>
    dsimp only [List.cons_append]
    split
    · exact .cons ⟨rfl, by rw [h.offset, Nat.add_assoc], u, rfl, rfl⟩ .nil
    · exact .nil

theorem runEnds_local {p : Char → Bool} (hx : p x = false) {u : Text} {shorter shorter' : List Cursor}
    {b b' : Option Char} {off off' : Nat}
    (hshorter : List.Forall₂ (Cursor.Twin x r r' d) shorter shorter')
    (hbefore : b.any isWord = b'.any isWord) (hoff : off' = d + off) :
    List.Forall₂ (Cursor.Twin x r r' d) (runEnds p shorter b off (u ++ x :: r))
      (runEnds p shorter' b' off' (u ++ x :: r')) := by
  induction u generalizing shorter shorter' b b' off off' with
  | nil =>
    rw [List.nil_append, List.nil_append, runEnds, runEnds, hx]
    exact .cons ⟨hbefore, hoff, [], rfl, rfl⟩ hshorter
  | cons y u ih =>
    have hhere : List.Forall₂ (Cursor.Twin x r r' d) (⟨b, off, y :: u ++ x :: r⟩ :: shorter)
        (⟨b', off', y :: u ++ x :: r'⟩ :: shorter') :=
      .cons ⟨hbefore, hoff, y :: u, rfl, rfl⟩ hshorter
    rw [List.cons_append, List.cons_append, runEnds, runEnds]
    split
    · exact ih hhere rfl (by rw [hoff, Nat.add_assoc])
    · exact hhere

theorem many_local {p : Char → Bool} (hx : p x = false) : Local x r r' d (many p) := by
  intro c e h
  obtain ⟨u, hc, he⟩ := h.rest
  rw [many, many, hc, he]
  exact runEnds_local hx .nil h.before h.offset

theorem seq_local {ms : List Matcher} (hms : ∀ m ∈ ms, Local x r r' d m) :
    Local x r r' d (seq ms) := by
  intro c e h
  have hfold : ∀ {cs es : List Cursor}, List.Forall₂ (Cursor.Twin x r r' d) cs es →
      List.Forall₂ (Cursor.Twin x r r' d) (ms.foldl (fun cs m => cs.flatMap m) cs)
        (ms.foldl (fun cs m => cs.flatMap m) es) := by
    induction ms with
    | nil => exact id
    | cons m ms ih =>
      intro cs es hcs
      exact ih (fun m' hm' => hms m' (by simp [hm']))
        (List.rel_flatMap hcs fun c e h => hms m (by simp) c e h)
  exact hfold (.cons h .nil)

theorem oneOf_local {ms : List Matcher} (hms : ∀ m ∈ ms, Local x r r' d m) :
    Local x r r' d (oneOf ms) := by
  intro c e h
  induction ms with
  | nil => exact .nil
  | cons m ms ih =>
    exact List.rel_append (hms m (by simp) c e h) (ih fun m' hm' => hms m' (by simp [hm']))

theorem opt_local {m : Matcher} (hm : Local x r r' d m) : Local x r r' d (opt m) := by
  refine oneOf_local fun m' hm' => ?_
  simp only [List.mem_cons, List.not_mem_nil, or_false] at hm'
  rcases hm' with rfl | rfl
  · exact hm
  · exact skip_local

theorem word_local {w : Text} (hx : x ∉ w) : Local x r r' d (word w) := by
  refine seq_local fun m hm => ?_
  obtain ⟨y, hy, rfl⟩ := List.mem_map.mp hm
  refine one_local (beq_eq_false_iff_ne.mpr ?_)
  rintro rfl
  exact hx hy

end Local

end Matcher

namespace Pattern

/-- All three parts are local. -/
structure Local (x : Char) (r r' : Text) (d : Nat) (p : Pattern) : Prop where
  before : p.before.Local x r r' d
  group : p.group.Local x r r' d
  after : p.after.Local x r r' d

section Local

variable {p : Pattern} {x : Char} {r r' : Text} {d : Nat}

/-- What lies between two places is the same text at their twins. -/
theorem take_twin {a a' b b' : Cursor} (ha : Cursor.Twin x r r' d a a')
    (hb : Cursor.Twin x r r' d b b') : a'.rest.take (a'.rest.length - b'.rest.length) =
      a.rest.take (a.rest.length - b.rest.length) := by
  obtain ⟨u, hu, hu'⟩ := ha.rest
  obtain ⟨v, hv, hv'⟩ := hb.rest
  have hlength : ∀ w : Text, (u ++ x :: w).length - (v ++ x :: w).length = u.length - v.length := by
    simp only [List.length_append]
    omega
  rw [hu, hu', hv, hv', hlength, hlength, List.take_append_of_le_length (Nat.sub_le _ _),
    List.take_append_of_le_length (Nat.sub_le _ _)]

theorem matchAt_twin (hp : p.Local x r r' d) {c e : Cursor} (h : Cursor.Twin x r r' d c e) :
    p.matchAt e = (p.matchAt c).map (·.shift d) := by
  have hall : List.Forall₂ (fun found found' : Match => found' = found.shift d)
      ((p.before c).flatMap fun a => (p.group a).flatMap fun b => (p.after b).map fun e =>
        ⟨c.offset, e.offset, a.rest.take (a.rest.length - b.rest.length)⟩)
      ((p.before e).flatMap fun a => (p.group a).flatMap fun b => (p.after b).map fun e' =>
        ⟨e.offset, e'.offset, a.rest.take (a.rest.length - b.rest.length)⟩) := by
    refine List.rel_flatMap (hp.before c e h) fun a a' ha => ?_
    refine List.rel_flatMap (hp.group a a' ha) fun b b' hb => ?_
    refine List.rel_map (fun y y' (hy : Cursor.Twin x r r' d y y') => ?_) (hp.after b b' hb)
    rw [h.offset, hy.offset, take_twin ha hb]
    rfl
  unfold matchAt
  generalize (p.before c).flatMap _ = found at hall ⊢
  generalize (p.before e).flatMap _ = found' at hall ⊢
  cases hall with
  | nil => rfl
  | cons hhead _ => exact congrArg some hhead

theorem matchAt_stop (hp : p.Local x r r 0) (hf : p.Forward) {b : Option Char} {off : Nat} {u : Text}
    {found : Match} (h : p.matchAt ⟨b, off, u ++ x :: r⟩ = some found) :
    found.stop ≤ off + u.size := by
  have hsame : ∀ w, Cursor.Twin x r r 0 ⟨w, off, u ++ x :: r⟩ ⟨w, off, u ++ x :: r⟩ := fun w =>
    ⟨rfl, (Nat.zero_add _).symm, u, rfl, rfl⟩
  obtain ⟨a, ha, hmem⟩ := List.mem_flatMap.mp (List.mem_of_head? h)
  obtain ⟨b', hb, hmem⟩ := List.mem_flatMap.mp hmem
  obtain ⟨e, he, rfl⟩ := List.mem_map.mp hmem
  have ha' := List.forall₂_same.mp (hp.before _ _ (hsame b)) a ha
  have hb' := List.forall₂_same.mp (hp.group _ _ ha') b' hb
  obtain ⟨w, hw, -⟩ := (List.forall₂_same.mp (hp.after _ _ hb') e he).rest
  obtain ⟨mid, hmid, hoffset⟩ :=
    ((hf.before _ a ha).trans (hf.group a b' hb)).trans (hf.after b' e he)
  have hsize := congrArg Text.size hmid
  rw [hw] at hsize
  simp only [Text.size_append] at hsize
  dsimp only at hoffset ⊢
  omega

/-- The matches before the barrier, and how the search goes on behind them. -/
theorem matchesFrom_twin (hp : p.Local x r r' d) (hr : p.Local x r r 0) (hf : p.Forward) {u : Text}
    {resume resume' off : Nat} {b b' : Option Char}
    (hbefore : b.any isWord = b'.any isWord)
    (hresume : resume ≤ off ∧ resume' ≤ d + off ∨ resume' = d + resume)
    (hle : resume ≤ off + u.size) : ∃ found next next' last last',
      p.matchesFrom resume b off (u ++ x :: r) =
        found ++ p.matchesFrom next last (off + u.size) (x :: r) ∧
      p.matchesFrom resume' b' (d + off) (u ++ x :: r') =
        found.map (·.shift d) ++ p.matchesFrom next' last' (d + (off + u.size)) (x :: r') ∧
      next ≤ off + u.size ∧ next' ≤ d + (off + u.size) ∧ ∀ m ∈ found, m.start < off + u.size := by
  induction u generalizing resume resume' off b b' with
  | nil =>
    refine ⟨[], resume, resume', b, b', rfl, rfl, hle, ?_, by simp⟩
    omega
  | cons y u ih =>
    have hsize : off + Text.size (y :: u) = off + y.utf8Size + Text.size u := by
      rw [Text.size_cons, Nat.add_assoc]
    have htwin : Cursor.Twin x r r' d ⟨b, off, y :: (u ++ x :: r)⟩
        ⟨b', d + off, y :: (u ++ x :: r')⟩ := ⟨hbefore, rfl, y :: u, rfl, rfl⟩
    have hmatch := matchAt_twin hp htwin
    have hwait : (d + off < resume') ↔ (off < resume) := by
      omega
    rw [List.cons_append, List.cons_append, matchesFrom, matchesFrom, hmatch, hsize,
      Nat.add_assoc d off]
    rw [hsize] at hle
    by_cases hoff : off < resume
    · rw [if_pos hoff, if_pos (hwait.mpr hoff)]
      exact ih rfl (.inr (by omega)) hle
    · rw [if_neg hoff, if_neg (by omega)]
      cases hfound : p.matchAt ⟨b, off, y :: (u ++ x :: r)⟩ with
      | none => exact ih rfl (.inl ⟨by omega, by omega⟩) (by omega)
      | some m =>
        have hstop := matchAt_stop hr hf (u := y :: u) hfound
        obtain ⟨mid, post, -, hstart, -⟩ := matchAt_spec hf hfound
        have hresume' : m.stop ≤ off + y.utf8Size ∧ d + m.stop ≤ d + (off + y.utf8Size) ∨
            d + m.stop = d + m.stop := .inr rfl
        obtain ⟨found, next, next', last, last', h, h', hnext, hnext', hall⟩ :=
          ih rfl hresume' (by omega)
        refine ⟨m :: found, next, next', last, last', congrArg (m :: ·) h,
          congrArg (m.shift d :: ·) h', hnext, hnext', ?_⟩
        rintro m' (_ | ⟨_, hm'⟩)
        · have := y.utf8Size_pos
          dsimp only at hstart
          omega
        · exact hall m' hm'

end Local

end Pattern

namespace Component

open Matcher

theorem declaration_local {x : Char} (hx : x = ';' ∨ x = '\x7b') (r r' : Text) (d : Nat) :
    declaration.Local x r r' d := by
  have hspace : isSpace x = false := by rcases hx with rfl | rfl <;> rfl
  have hdot : (x == '.') = false := by rcases hx with rfl | rfl <;> rfl
  have hfirst : (x.isAlpha || x == '_' || x == '$') = false := by rcases hx with rfl | rfl <;> rfl
  have hpart : (isWord x || x == '$') = false := by rcases hx with rfl | rfl <;> rfl
  have hclass : x ∉ ("class" : Text) := by rcases hx with rfl | rfl <;> decide
  have hextends : x ∉ ("extends" : Text) := by rcases hx with rfl | rfl <;> decide
  have hpure : x ∉ ("Pure" : Text) := by rcases hx with rfl | rfl <;> decide
  have hcomponent : x ∉ ("Component" : Text) := by rcases hx with rfl | rfl <;> decide
  have hspaces : spaces.Local x r r' d := many_local hspace
  have hspaces1 : spaces1.Local x r r' d := by
    refine seq_local ?_
    simp only [List.forall_mem_cons, List.not_mem_nil, false_implies, implies_true, and_true]
    exact ⟨one_local hspace, hspaces⟩
  have hname : Matcher.name.Local x r r' d := by
    refine seq_local ?_
    simp only [List.forall_mem_cons, List.not_mem_nil, false_implies, implies_true, and_true]
    exact ⟨one_local hfirst, many_local hpart⟩
  have hqualifier : (seq [Matcher.name, spaces, one (· == '.'), spaces]).Local x r r' d := by
    refine seq_local ?_
    simp only [List.forall_mem_cons, List.not_mem_nil, false_implies, implies_true, and_true]
    exact ⟨hname, hspaces, one_local hdot, hspaces⟩
  have hbefore : (seq [edge, word "class", spaces1]).Local x r r' d := by
    refine seq_local ?_
    simp only [List.forall_mem_cons, List.not_mem_nil, false_implies, implies_true, and_true]
    exact ⟨edge_local, word_local hclass, hspaces1⟩
  have hafter : (seq [spaces1, word "extends", spaces1,
      opt (seq [Matcher.name, spaces, one (· == '.'), spaces]), opt (word "Pure"),
      word "Component", edge]).Local x r r' d := by
    refine seq_local ?_
    simp only [List.forall_mem_cons, List.not_mem_nil, false_implies, implies_true, and_true]
    exact ⟨hspaces1, word_local hextends, hspaces1, opt_local hqualifier,
      opt_local (word_local hpure), word_local hcomponent, edge_local⟩
  unfold declaration
  constructor
  · exact hbefore
  · exact hname
  · dsimp only
    exact hafter

theorem declaration_forward : declaration.Forward where
  before := by
    apply seq_forward
    simp
  group := name_forward
  after := by
    have hqualifier : Forward (opt (seq [Matcher.name, spaces, one (· == '.'), spaces])) :=
      opt_forward (seq_forward (by simp))
    apply seq_forward
    simp [hqualifier]

/-- A declaration starts with the first character of its first word. -/
theorem matchAt_declaration_eq_none {c : Cursor} (h : c.rest.head? ≠ some 'c') :
    declaration.matchAt c = none := by
  have hword : word "class" c = [] := by
    have hone : one (· == 'c') c = [] := by
      unfold one
      cases hrest : c.rest with
      | nil => rfl
      | cons x rest =>
        have hx : x ≠ 'c' := by simpa [hrest] using h
        simp [hx]
    simp [word, seq, hone]
  have hseq : ∀ w m : Matcher, w c = [] → seq [edge, w, m] c = [] := by
    intro w m hw
    have hedge : edge c = [] ∨ edge c = [c] := by
      unfold edge
      split <;> simp
    rcases hedge with hedge | hedge <;> simp [seq, hedge, hw]
  have hbefore : declaration.before c = [] := hseq _ _ hword
  simp [Pattern.matchAt, hbefore]

end Component

end Declass
