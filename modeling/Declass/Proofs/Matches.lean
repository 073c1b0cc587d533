import Declass.Pattern
import Declass.Proofs.Boundaries

/-!
# Where matches lie

A matcher is `Forward` if every end it gives is a later place of the same text.  All matchers are,
so a match of a pattern lies in the text it was looked for in.

**Results.** `mem_occurrences`: the text of every match lies where the match says, and
`occurrences_ordered`: each match starts where the one before it ends, or later.
-/

namespace Declass

/-- The place `e` comes after the place `c` of the same text, or is the same place. -/
def Cursor.Reaches (c e : Cursor) : Prop :=
  ∃ mid, c.rest = mid ++ e.rest ∧ e.offset = c.offset + Text.size mid

theorem Cursor.reaches_refl (c : Cursor) : c.Reaches c := ⟨[], rfl, rfl⟩

theorem Cursor.Reaches.trans {a b c : Cursor} (hab : a.Reaches b) (hbc : b.Reaches c) :
    a.Reaches c := by
  obtain ⟨u, hu, hus⟩ := hab
  obtain ⟨v, hv, hvs⟩ := hbc
  refine ⟨u ++ v, by rw [hu, hv, List.append_assoc], ?_⟩
  rw [hvs, hus, Text.size_append, Nat.add_assoc]

namespace Matcher

/-- Every end of a match comes after its start. -/
def Forward (m : Matcher) : Prop := ∀ c, ∀ e ∈ m c, c.Reaches e

@[simp] theorem skip_forward : Forward skip := fun c e he => by
  obtain rfl : e = c := by simpa [skip] using he
  exact e.reaches_refl

@[simp] theorem edge_forward : Forward edge := fun c e he => by
  unfold edge at he
  split at he
  · simp at he
  · obtain rfl : e = c := by simpa using he
    exact e.reaches_refl

@[simp] theorem one_forward (p : Char → Bool) : Forward (one p) := fun c e he => by
  unfold one at he
  split at he
  · simp at he
  · rename_i d rest hrest
    split at he
    · obtain rfl : e = ⟨some d, c.offset + d.utf8Size, rest⟩ := by simpa using he
      exact ⟨[d], by simp [hrest], by simp⟩
    · simp at he

theorem mem_runEnds {p : Char → Bool} {c e : Cursor} {rest : Text} {shorter : List Cursor}
    {before : Option Char} {offset : Nat} (hshorter : ∀ s ∈ shorter, c.Reaches s)
    (hhere : c.Reaches ⟨before, offset, rest⟩) (he : e ∈ runEnds p shorter before offset rest) :
    c.Reaches e := by
  induction rest generalizing shorter before offset with
  | nil =>
    rcases List.mem_cons.mp he with rfl | he
    · exact hhere
    · exact hshorter e he
  | cons d rest ih =>
    have hall : ∀ s ∈ (⟨before, offset, d :: rest⟩ : Cursor) :: shorter, c.Reaches s := by
      intro s hs
      rcases List.mem_cons.mp hs with rfl | hs
      · exact hhere
      · exact hshorter s hs
    rw [runEnds] at he
    split at he
    · exact ih hall (hhere.trans ⟨[d], rfl, by simp⟩) he
    · exact hall e he

@[simp] theorem many_forward (p : Char → Bool) : Forward (many p) := fun c _ he =>
  mem_runEnds (by simp) c.reaches_refl he

@[simp] theorem spaces_forward : Forward spaces := many_forward _

theorem mem_foldl_flatMap {c e : Cursor} {ms : List Matcher} {cs : List Cursor}
    (hms : ∀ m ∈ ms, Forward m) (hcs : ∀ s ∈ cs, c.Reaches s)
    (he : e ∈ ms.foldl (fun cs m => cs.flatMap m) cs) : c.Reaches e := by
  induction ms generalizing cs with
  | nil => exact hcs e he
  | cons m ms ih =>
    refine ih (fun m' hm' => hms m' (by simp [hm'])) (fun s hs => ?_) he
    obtain ⟨s', hs', hm⟩ := List.mem_flatMap.mp hs
    exact (hcs s' hs').trans (hms m (by simp) s' s hm)

theorem seq_forward {ms : List Matcher} (h : ∀ m ∈ ms, Forward m) : Forward (seq ms) :=
  fun c _ he => mem_foldl_flatMap h (by simpa using c.reaches_refl) he

theorem seq_concat (ms : List Matcher) (m : Matcher) (c : Cursor) :
    seq (ms ++ [m]) c = (seq ms c).flatMap m := by
  simp [seq, List.foldl_append]

@[simp] theorem spaces1_forward : Forward spaces1 := seq_forward (by simp)

@[simp] theorem name_forward : Forward name := seq_forward (by simp)

theorem oneOf_forward {ms : List Matcher} (h : ∀ m ∈ ms, Forward m) : Forward (oneOf ms) :=
  fun c e he => by
    obtain ⟨m, hm, he⟩ := List.mem_flatMap.mp he
    exact h m hm c e he

@[simp] theorem opt_forward {m : Matcher} (h : Forward m) : Forward (opt m) :=
  oneOf_forward (by simp [h])

@[simp] theorem word_forward (w : Text) : Forward (word w) := seq_forward fun m hm => by
  obtain ⟨d, -, rfl⟩ := List.mem_map.mp hm
  exact one_forward _

@[simp] theorem anyWord_forward (ws : List Text) : Forward (anyWord ws) := by
  unfold anyWord
  split
  · exact skip_forward
  · refine oneOf_forward fun m hm => ?_
    obtain ⟨w, -, rfl⟩ := List.mem_map.mp hm
    exact word_forward w

end Matcher

namespace Pattern

/-- All three parts go forward. -/
structure Forward (p : Pattern) : Prop where
  before : p.before.Forward
  group : p.group.Forward
  after : p.after.Forward

section Occurrences

variable {p : Pattern} (hp : p.Forward)
include hp

theorem matchAt_spec {c : Cursor} {found : Match} (h : p.matchAt c = some found) :
    ∃ mid post, c.rest = mid ++ post ∧ found.start = c.offset ∧
      found.stop = c.offset + Text.size mid := by
  have hmem := List.mem_of_head? h
  obtain ⟨a, ha, hmem⟩ := List.mem_flatMap.mp hmem
  obtain ⟨b, hb, hmem⟩ := List.mem_flatMap.mp hmem
  obtain ⟨e, he, rfl⟩ := List.mem_map.mp hmem
  obtain ⟨mid, hmid, hsize⟩ := ((hp.before c a ha).trans (hp.group a b hb)).trans (hp.after b e he)
  exact ⟨mid, e.rest, hmid, rfl, hsize⟩

theorem mem_matchesFrom {found : Match} {rest : Text} {resume : Nat} {before : Option Char}
    {offset : Nat} (h : found ∈ p.matchesFrom resume before offset rest) :
    resume ≤ found.start ∧ ∃ pre mid post, rest = pre ++ mid ++ post ∧
      found.start = offset + Text.size pre ∧ found.stop = found.start + Text.size mid := by
  induction rest generalizing resume before offset with
  | nil => simp [matchesFrom] at h
  | cons d rest ih =>
    have step : ∀ {resume' : Nat},
        found ∈ p.matchesFrom resume' (some d) (offset + d.utf8Size) rest →
        resume' ≤ found.start ∧ ∃ pre mid post, d :: rest = pre ++ mid ++ post ∧
          found.start = offset + Text.size pre ∧ found.stop = found.start + Text.size mid := by
      intro resume' h
      obtain ⟨hresume, pre, mid, post, rfl, hstart, hstop⟩ := ih h
      exact ⟨hresume, d :: pre, mid, post, rfl, by simp [hstart, Nat.add_assoc], hstop⟩
    rw [matchesFrom] at h
    split at h
    · rename_i first hfirst
      split at hfirst
      · cases hfirst
      obtain ⟨mid, post, hrest, hstart, hstop⟩ := matchAt_spec hp hfirst
      dsimp only at hrest hstart hstop
      rcases List.mem_cons.mp h with rfl | h
      · exact ⟨by omega, [], mid, post, by simp [hrest], by simp [hstart], by omega⟩
      · obtain ⟨hle, hlies⟩ := step h
        exact ⟨by omega, hlies⟩
    · exact step h

theorem matchesFrom_ordered {rest : Text} {resume : Nat} {before : Option Char} {offset : Nat} :
    (p.matchesFrom resume before offset rest).Pairwise fun a b => a.stop ≤ b.start := by
  induction rest generalizing resume before offset with
  | nil => simp [matchesFrom]
  | cons d rest ih =>
    rw [matchesFrom]
    split
    · exact .cons (fun b hb => (mem_matchesFrom hp hb).1) ih
    · exact ih

theorem mem_occurrences {t : Text} {found : Match} (h : found ∈ p.occurrences t) :
    ∃ mid, Text.LiesAt t found.start mid ∧ found.stop = found.start + Text.size mid := by
  obtain ⟨-, pre, mid, post, ht, hstart, hstop⟩ := mem_matchesFrom hp h
  exact ⟨mid, ⟨pre, post, ht, by omega⟩, hstop⟩

theorem occurrences_ordered (t : Text) :
    (p.occurrences t).Pairwise fun a b => a.stop ≤ b.start := matchesFrom_ordered hp

end Occurrences

end Pattern

end Declass
