import Declass.Proofs.DeclaredClasses

/-!
# Declarations in texts that are put together

**Input.** Two texts, one behind the other.

**Algorithm.** A barrier is a character that no declaration contains.  A text `Closes` if only white
space stands behind its last barrier.  A text `Opens` if nothing that a declaration could end with
stands in front of its first barrier.

**Results.** `Closes.apart` and `Opens.apart`: if the first text closes or the second one opens, the
declarations of both together are those of the first and those of the second.
-/

namespace Declass

open Declaration
open Character (isSpace isWord)

/-- Characters that no declaration contains. -/
def isBarrier (c : Char) : Bool := !(isSpace c || c == '.' || inName c)

theorem isBarrier_iff {c : Char} : isBarrier c ↔
    isSpace c = false ∧ c ≠ '.' ∧ inName c = false := by
  simp [isBarrier, and_assoc]

theorem isWord_of_isBarrier {c : Char} (h : isBarrier c) : isWord c = false := by
  have hname := (isBarrier_iff.mp h).2.2
  rw [inName, Bool.or_eq_false_iff] at hname
  exact hname.1

namespace Declaration

variable {d : Declaration} (hd : d.WellFormed)
include hd

theorem mem_text {c : Char} (h : c ∈ d.text) : isSpace c ∨ c = '.' ∨ inName c := by
  have hclass : ∀ c ∈ ("class" : Text), inName c := List.all_eq_true.mp rfl
  have hextends : ∀ c ∈ ("extends" : Text), inName c := List.all_eq_true.mp rfl
  have hpure : ∀ c ∈ ("Pure" : Text), inName c := List.all_eq_true.mp rfl
  have hcomponent : ∀ c ∈ ("Component" : Text), inName c := List.all_eq_true.mp rfl
  simp only [text, List.mem_append] at h
  rcases h with h | h | h | h | h | h | h
  · exact .inr (.inr (hclass c h))
  · exact .inl (hd.beforeName.isSpace c h)
  · exact .inr (.inr (hd.name.inName c h))
  · exact .inl (hd.beforeExtends.isSpace c h)
  · exact .inr (.inr (hextends c h))
  · exact .inl (hd.beforeBase.isSpace c h)
  · obtain ⟨q, p, hq, hp, hbase⟩ := hd.base
    rw [hbase, List.mem_append, List.mem_append] at h
    rcases h with h | h | h
    · rcases hq with ⟨n, s, s', hn, hs, hs', rfl⟩ | rfl
      · rw [List.mem_append, List.mem_append, List.mem_cons] at h
        rcases h with h | h | h | h
        · exact .inr (.inr (hn.inName c h))
        · exact .inl (hs c h)
        · exact .inr (.inl h)
        · exact .inl (hs' c h)
      · cases h
    · rcases hp with rfl | rfl
      · exact .inr (.inr (hpure c h))
      · cases h
    · exact .inr (.inr (hcomponent c h))

theorem not_mem_text {b : Char} (hb : isBarrier b) : b ∉ d.text := by
  obtain ⟨hspace, hdot, hname⟩ := isBarrier_iff.mp hb
  intro hmem
  rcases mem_text hd hmem with h | h | h
  · rw [hspace] at h
    cases h
  · exact hdot h
  · rw [hname] at h
    cases h

end Declaration

section Seams

variable {u v s : Text} {b : Char} {i : Nat} {p : Char → Bool}

theorem any_head?_append (hu : u.head?.any p = false) (hv : v.head?.any p = false) :
    (u ++ v).head?.any p = false := by
  cases u with
  | nil => exact hv
  | cons c u => exact hu

theorem any_getLast?_append (hu : u.getLast?.any p = false) (hv : v.getLast?.any p = false) :
    (u ++ v).getLast?.any p = false := by
  rw [List.getLast?_append]
  cases h : v.getLast? with
  | none => exact hu
  | some c => rwa [h] at hv

theorem any_head?_of_append (h : (u ++ v).head?.any p = false) : u.head?.any p = false := by
  cases u with
  | nil => rfl
  | cons c u => exact h

theorem any_getLast?_of_append (h : (u ++ v).getLast?.any p = false) :
    v.getLast?.any p = false := by
  rw [List.getLast?_append] at h
  cases hv : v.getLast? with
  | none => rfl
  | some c => rwa [hv] at h

theorem any_isWord_of_spaces {o : Option Char} (h : ∀ c ∈ o, isSpace c) : o.any isWord = false := by
  cases o with
  | none => rfl
  | some c =>
    rw [← Bool.not_eq_true]
    intro hword
    have hspace := h c rfl
    rw [Character.isSpace_of_isWord hword] at hspace
    cases hspace

theorem DeclaredAt.append_right (h : DeclaredAt u i)
    (hv : v.head?.any isWord = false) : DeclaredAt (u ++ v) i := by
  obtain ⟨pre, d, post, hd, rfl, hi, hbefore, hbehind⟩ := h
  exact ⟨pre, d, post ++ v, hd, by simp, hi, hbefore, any_head?_append hbehind hv⟩

theorem DeclaredAt.append_left (h : DeclaredAt v i)
    (hu : u.getLast?.any isWord = false) : DeclaredAt (u ++ v) (u.size + i) := by
  obtain ⟨pre, d, post, hd, rfl, rfl, hbefore, hbehind⟩ := h
  exact ⟨u ++ pre, d, post, hd, by simp, Text.size_append u pre,
    any_getLast?_append hu hbefore, hbehind⟩

theorem not_declaredAt_nil : ¬DeclaredAt [] i := by
  rintro ⟨pre, d, post, -, h, -⟩
  have hhead := head_text d post
  rw [(List.append_eq_nil_iff.mp h.symm).2] at hhead
  cases hhead

theorem declaredAt_barrier (hb : isBarrier b) : DeclaredAt (u ++ b :: v) i ↔
    DeclaredAt u i ∨ ∃ j, i = (u ++ [b]).size + j ∧ DeclaredAt v j := by
  have hword := isWord_of_isBarrier hb
  constructor
  · rintro ⟨pre, d, post, hd, h, rfl, hbefore, hbehind⟩
    rcases List.append_eq_append_iff.mp h with ⟨z, rfl, hz⟩ | ⟨z, rfl, hz⟩
    · cases z with
      | nil =>
        have hmem : b ∈ d.text := by
          have hc : b = 'c' := (List.cons.inj hz).1
          rw [hc]
          exact List.mem_of_head? (by simpa using head_text d [])
        exact absurd hmem (not_mem_text hd hb)
      | cons c z =>
        obtain ⟨rfl, rfl⟩ := List.cons.inj hz
        have hsplit : u ++ b :: z = (u ++ [b]) ++ z := by simp
        rw [hsplit] at hbefore ⊢
        exact .inr ⟨Text.size z, Text.size_append _ _, z, d, post, hd, rfl, rfl,
          any_getLast?_of_append hbefore, hbehind⟩
    · rcases List.append_eq_append_iff.mp hz with ⟨w, rfl, rfl⟩ | ⟨w, htext, hw⟩
      · exact .inl ⟨pre, d, w, hd, rfl, rfl, hbefore, any_head?_of_append hbehind⟩
      · cases w with
        | nil =>
          rw [List.append_nil] at htext
          exact .inl ⟨pre, d, [], hd, by rw [htext, List.append_nil], rfl, hbefore, rfl⟩
        | cons c w =>
          obtain ⟨rfl, -⟩ := List.cons.inj hw
          exact absurd (by rw [htext]; simp) (not_mem_text hd hb)
  · rintro (h | ⟨j, rfl, h⟩)
    · exact h.append_right hword
    · have hv := h.append_left (u := u ++ [b]) (by rw [List.getLast?_concat]; exact hword)
      rwa [List.append_assoc] at hv

/-- White space in front of a text has no part in its declarations. -/
theorem declaredAt_spaces_append (hs : ∀ c ∈ s, isSpace c) :
    DeclaredAt (s ++ v) i ↔ ∃ j, i = s.size + j ∧ DeclaredAt v j := by
  constructor
  · rintro ⟨pre, d, post, hd, h, rfl, hbefore, hbehind⟩
    rcases List.append_eq_append_iff.mp h with ⟨z, rfl, rfl⟩ | ⟨z, rfl, hz⟩
    · exact ⟨Text.size z, Text.size_append _ _, z, d, post, hd, rfl, rfl,
        any_getLast?_of_append hbefore, hbehind⟩
    · cases z with
      | nil =>
        exact ⟨0, by simp, [], d, post, hd, by simpa using hz.symm, rfl, rfl, hbehind⟩
      | cons c z =>
        have hc : 'c' = c := (List.cons.inj hz).1
        have hspace := hs c (by simp)
        rw [← hc] at hspace
        cases hspace
  · rintro ⟨j, rfl, h⟩
    exact h.append_left (any_isWord_of_spaces fun c hc => hs c (List.mem_of_getLast? hc))

/-- A text that ends with white space or with a part of a word has no declaration that goes on into
that end. -/
theorem declaredAt_append (hv : v.head?.any isWord = false)
    (hends : ∀ z w u', v = z ++ w → z ≠ [] → u ++ z ≠ u' ++ "Component") :
    DeclaredAt (u ++ v) i ↔ DeclaredAt u i := by
  constructor
  · rintro ⟨pre, d, post, hd, h, rfl, hbefore, hbehind⟩
    rw [← List.append_assoc] at h
    rcases List.append_eq_append_iff.mp h with ⟨z, hz, rfl⟩ | ⟨z, rfl, rfl⟩
    · obtain ⟨w, hw⟩ := exists_text_eq hd
      rw [hw, ← List.append_assoc] at hz
      by_cases hnil : z = []
      · subst hnil
        refine ⟨pre, d, [], hd, ?_, rfl, hbefore, rfl⟩
        rw [hw, List.append_nil, ← List.append_assoc, hz, List.append_nil]
      · exact absurd hz.symm (hends z post (pre ++ w) rfl hnil)
    · exact ⟨pre, d, z, hd, by simp, rfl, hbefore, any_head?_of_append hbehind⟩
  · exact fun h => h.append_right hv

theorem not_ends_of_spaces {z u' : Text} (hz : z ≠ []) (hs : ∀ c ∈ z, isSpace c) :
    u ++ z ≠ u' ++ "Component" := by
  intro h
  obtain ⟨z, c, rfl⟩ := (List.eq_nil_or_concat z).resolve_left hz
  have ht : ("Component" : Text) = "Componen" ++ ['t'] := rfl
  rw [List.concat_eq_append, ← List.append_assoc, ht, ← List.append_assoc] at h
  obtain rfl := (List.cons.inj (List.append_inj' h rfl).2).1
  have hspace := hs 't' (by simp)
  cases hspace

theorem declaredAt_append_spaces (hs : ∀ c ∈ s, isSpace c) :
    DeclaredAt (u ++ s) i ↔ DeclaredAt u i := by
  refine declaredAt_append (any_isWord_of_spaces fun c hc => hs c (List.mem_of_head? hc)) ?_
  rintro z w u' rfl hz
  exact not_ends_of_spaces hz fun c hc => hs c (List.mem_append_left _ hc)

theorem declaredAt_append_return (hs : IsGap s) :
    DeclaredAt (u ++ (s ++ "return")) i ↔ DeclaredAt u i := by
  have hspaces := hs.isSpace
  refine declaredAt_append ?_ ?_
  · obtain ⟨c, s, hc, -, rfl⟩ := hs
    exact any_isWord_of_spaces (by rintro d ⟨⟩; exact hc)
  · intro z w u' h hz heq
    rcases List.append_eq_append_iff.mp h with ⟨r, rfl, hr⟩ | ⟨r, rfl, -⟩
    · have hmem : r ∈ List.inits ("return" : Text) := (List.mem_inits _ _).mpr ⟨w, hr.symm⟩
      have hinits : List.inits ("return" : Text) =
          [[], "r", "re", "ret", "retu", "retur", "return"] := rfl
      rw [hinits] at hmem
      have hreverse := congrArg List.reverse heq
      simp only [List.mem_cons, List.not_mem_nil, or_false] at hmem
      rcases hmem with rfl | rfl | rfl | rfl | rfl | rfl | rfl
      · rw [List.append_nil] at hz heq
        exact not_ends_of_spaces hz hspaces heq
      all_goals simp at hreverse
    · exact not_ends_of_spaces hz (fun c hc => hspaces c (List.mem_append_left _ hc)) heq

end Seams

section Apart

variable {s u v : Text}

/-- The text declares no class component. -/
def Classless (t : Text) : Prop := ∀ i, ¬DeclaredAt t i

theorem classless_of_spaces (hs : ∀ c ∈ s, isSpace c) : Classless s :=
  fun _ h => not_declaredAt_nil ((declaredAt_append_spaces hs).mp h)

/-- The declarations of both texts together are those of the first and those of the second. -/
def Apart (u v : Text) : Prop :=
  ∀ i, DeclaredAt (u ++ v) i ↔ DeclaredAt u i ∨ ∃ j, i = u.size + j ∧ DeclaredAt v j

/-- Only white space stands behind the last barrier of the text. -/
def Closes (u : Text) : Prop :=
  ∃ w b, ∃ s : Text, isBarrier b = true ∧ (∀ c ∈ s, isSpace c = true) ∧
    u = w ++ b :: s

/-- Nothing stands in front of the first barrier of the text that a declaration could end with:
white space, or a return keyword behind white space. -/
def Opens (v : Text) : Prop :=
  ∃ f b w, (∀ u i, DeclaredAt (u ++ f) i ↔ DeclaredAt u i) ∧ isBarrier b = true ∧ v = f ++ b :: w

theorem Closes.apart (h : Closes u) : Apart u v := by
  obtain ⟨w, b, s, hb, hs, rfl⟩ := h
  intro i
  have hsize : (w ++ b :: s).size = (w ++ [b]).size + s.size := by
    simp [Nat.add_assoc]
  have hsplit : w ++ b :: s ++ v = w ++ b :: (s ++ v) := by simp
  rw [hsplit, hsize, declaredAt_barrier hb, declaredAt_barrier hb, or_assoc]
  refine or_congr Iff.rfl ⟨?_, ?_⟩
  · rintro ⟨j, rfl, h⟩
    obtain ⟨k, rfl, hk⟩ := (declaredAt_spaces_append hs).mp h
    exact .inr ⟨k, (Nat.add_assoc _ _ _).symm, hk⟩
  · rintro (⟨j, -, h⟩ | ⟨j, rfl, h⟩)
    · exact absurd h (classless_of_spaces hs j)
    · exact ⟨s.size + j, Nat.add_assoc _ _ _, (declaredAt_spaces_append hs).mpr ⟨j, rfl, h⟩⟩

theorem Opens.apart (h : Opens v) : Apart u v := by
  obtain ⟨f, b, w, hf, hb, rfl⟩ := h
  intro i
  have hnone : ∀ j, ¬DeclaredAt f j := fun j hj => not_declaredAt_nil ((hf [] j).mp hj)
  have hsize : (u ++ f ++ [b]).size = u.size + (f ++ [b]).size := by
    rw [List.append_assoc, Text.size_append]
  rw [← List.append_assoc, declaredAt_barrier hb, hf, hsize]
  refine or_congr Iff.rfl ⟨?_, ?_⟩
  · rintro ⟨j, rfl, h⟩
    exact ⟨_, Nat.add_assoc _ _ _, (declaredAt_barrier hb).mpr (.inr ⟨j, rfl, h⟩)⟩
  · rintro ⟨j, rfl, h⟩
    rcases (declaredAt_barrier hb).mp h with h | ⟨k, rfl, hk⟩
    · exact absurd h (hnone j)
    · exact ⟨k, (Nat.add_assoc _ _ _).symm, hk⟩

/-- A barrier shows at the head of the text once white space is taken off. -/
theorem Opens.of_trimmed (h : (v.dropWhile isSpace).head?.any isBarrier) : Opens v := by
  obtain ⟨b, hhead, hb⟩ := (Option.any_eq_true _ _).mp h
  obtain ⟨w, hw⟩ := List.head?_eq_some_iff.mp hhead
  refine ⟨v.takeWhile isSpace, b, w, fun u i => ?_, hb, ?_⟩
  · exact declaredAt_append_spaces fun c hc => List.mem_takeWhile_imp hc
  · rw [← hw, List.takeWhile_append_dropWhile]

theorem Opens.of_return {s' w : Text} {b : Char} (hs : IsGap s)
    (hs' : ∀ c ∈ s', isSpace c) (hb : isBarrier b) :
    Opens (s ++ "return" ++ s' ++ b :: w) := by
  refine ⟨s ++ "return" ++ s', b, w, fun u i => ?_, hb, rfl⟩
  rw [← List.append_assoc, declaredAt_append_spaces hs', declaredAt_append_return hs]

theorem apart_spaces_left (hs : ∀ c ∈ s, isSpace c) : Apart s v := by
  intro i
  rw [declaredAt_spaces_append hs, or_iff_right (classless_of_spaces hs i)]

theorem apart_spaces_right (hs : ∀ c ∈ s, isSpace c) : Apart u s := by
  intro i
  rw [declaredAt_append_spaces hs]
  refine (or_iff_left ?_).symm
  rintro ⟨j, -, h⟩
  exact classless_of_spaces hs j h

/-- A barrier shows at the end of the text once white space is taken off. -/
theorem Closes.of_trimmed (h : (u.reverse.dropWhile isSpace).head?.any isBarrier) : Closes u := by
  obtain ⟨b, hhead, hb⟩ := (Option.any_eq_true _ _).mp h
  obtain ⟨w, hw⟩ := List.head?_eq_some_iff.mp hhead
  refine ⟨w.reverse, b, (u.reverse.takeWhile isSpace).reverse, hb, fun c hc => ?_, ?_⟩
  · exact List.mem_takeWhile_imp (List.mem_reverse.mp hc)
  · have hsplit := List.takeWhile_append_dropWhile (p := isSpace) (l := u.reverse)
    rw [hw] at hsplit
    simpa using (congrArg List.reverse hsplit).symm

theorem Closes.append (h : Closes v) : Closes (u ++ v) := by
  obtain ⟨w, b, s, hb, hs, rfl⟩ := h
  exact ⟨u ++ w, b, s, hb, hs, by simp⟩

end Apart

theorem Classless.append {u v : Text} (hu : Classless u) (hv : Classless v) (h : Apart u v) :
    Classless (u ++ v) := by
  intro i hi
  rcases (h i).mp hi with hi | ⟨j, -, hj⟩
  · exact hu i hi
  · exact hv j hj

/-- A text without the first keyword is classless, also in front of a text without white space. -/
theorem classless_of_keyword {w n : Text} (hw : ¬("class" : Text) <:+: w)
    (hn : ∀ c ∈ n, isSpace c = false) : Classless (w ++ n) := by
  rintro i ⟨pre, d, post, hd, h, -⟩
  obtain ⟨c, u, hc, -, hgap⟩ := hd.beforeName
  have hsplit : w ++ n = (pre ++ "class") ++ (c :: (u ++ (d.name ++ (d.beforeExtends ++
      ("extends" ++ (d.beforeBase ++ d.base))))) ++ post) := by
    rw [h, text, hgap]
    simp
  rcases List.append_eq_append_iff.mp hsplit with ⟨z, -, rfl⟩ | ⟨z, rfl, -⟩
  · have hspace := hn c (by simp)
    rw [hc] at hspace
    cases hspace
  · exact hw ⟨pre, z, rfl⟩

theorem classless_of_fixed {w : Text} (hw : ¬("class" : Text) <:+: w) : Classless w := by
  have h := classless_of_keyword hw (n := []) (by simp)
  rwa [List.append_nil] at h

end Declass
