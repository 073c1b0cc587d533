import Declass.Proofs.Assembly
import Declass.Proofs.DeclarationSeams

/-!
# The texts that are put into sections

**Input.** The sections of a generated module, with the texts they are made from.

**Algorithm.** A `Marked` text knows the places of the texts that were put into it.  It is `Sound`
if its declarations are those of these texts.  Marked texts that are put together stay sound where
the first of them closes or the second one opens.

**Results.** `sound_stateMarked`, `sound_effectMarked`, `sound_methodMarked` and
`sound_renderMarked`: the sections declare what is declared by the initial values, the bodies of
lifecycle callbacks, the parameters and bodies of methods, the statements of render and the template
in them, and nothing else.
-/

namespace Declass

open Character (isSpace upper upperExpansions)
open Layout (alignTemplate reindent)

/-- A text with the places of texts that were put into it. -/
structure Marked where
  text : Text
  marks : List (Nat × Text)

namespace Marked

/-- A text that nothing was put into. -/
def fixed (t : Text) : Marked := ⟨t, []⟩

/-- A text that was put in. -/
def emitted (t : Text) : Marked := ⟨t, [(0, t)]⟩

/-- One marked text behind the other. -/
def append (a b : Marked) : Marked :=
  ⟨a.text ++ b.text, a.marks ++ b.marks.map fun k => (a.text.size + k.1, k.2)⟩

instance : Append Marked := ⟨append⟩

/-- The texts that were put in. -/
def texts (a : Marked) : List Text := a.marks.map Prod.snd

@[simp] theorem text_fixed (t : Text) : (fixed t).text = t := rfl

@[simp] theorem text_emitted (t : Text) : (emitted t).text = t := rfl

@[simp] theorem text_append (a b : Marked) : (a ++ b).text = a.text ++ b.text := rfl

@[simp] theorem texts_fixed (t : Text) : (fixed t).texts = [] := rfl

@[simp] theorem texts_emitted (t : Text) : (emitted t).texts = [t] := rfl

@[simp] theorem texts_append (a b : Marked) : (a ++ b).texts = a.texts ++ b.texts := by
  change ((a.marks ++ b.marks.map _).map Prod.snd : List Text) = _
  rw [List.map_append, List.map_map]
  rfl

/-- The marked texts in a row, in front of a last one. -/
def stack (front : List Marked) (last : Marked) : Marked := front.foldr (· ++ ·) last

theorem text_stack (front : List Marked) (last : Marked) :
    (stack front last).text = front.flatMap text ++ last.text := by
  induction front with
  | nil => rfl
  | cons a front ih =>
    change a.text ++ (stack front last).text = _
    rw [ih, List.flatMap_cons, List.append_assoc]

theorem texts_stack (front : List Marked) (last : Marked) :
    (stack front last).texts = front.flatMap texts ++ last.texts := by
  induction front with
  | nil => rfl
  | cons a front ih =>
    change (a ++ stack front last).texts = _
    rw [texts_append, ih, List.flatMap_cons, List.append_assoc]

/-- The texts lie at their places, and the declarations are theirs. -/
structure Sound (a : Marked) : Prop where
  lies : ∀ k ∈ a.marks, Text.LiesAt a.text k.1 k.2
  declared : ∀ i, DeclaredAt a.text i ↔ ∃ k ∈ a.marks, ∃ j, i = k.1 + j ∧ DeclaredAt k.2 j

theorem sound_fixed {t : Text} (h : Classless t) : (fixed t).Sound :=
  ⟨by simp [fixed], fun i => by simpa [fixed] using h i⟩

theorem sound_emitted (t : Text) : (emitted t).Sound :=
  ⟨by simpa [emitted] using ⟨[], [], by simp, rfl⟩, fun i => by simp [emitted]⟩

theorem Sound.append {a b : Marked} (ha : a.Sound) (hb : b.Sound) (h : Apart a.text b.text) :
    (a ++ b).Sound := by
  have hmem : ∀ {k : Nat × Text}, k ∈ (a ++ b).marks ↔
      k ∈ a.marks ∨ ∃ k' ∈ b.marks, k = (a.text.size + k'.1, k'.2) := by
    intro k
    change k ∈ a.marks ++ b.marks.map _ ↔ _
    simp [List.mem_append, List.mem_map, eq_comm]
  refine ⟨fun k hk => ?_, fun i => ?_⟩
  · rcases hmem.mp hk with hk | ⟨k, hk', rfl⟩
    · obtain ⟨pre, post, htext, hpre⟩ := ha.lies k hk
      exact ⟨pre, post ++ b.text, by simp [htext], hpre⟩
    · obtain ⟨pre, post, htext, hpre⟩ := hb.lies k hk'
      exact ⟨a.text ++ pre, post, by simp [htext], by simp [hpre]⟩
  · rw [text_append, h i, ha.declared i]
    constructor
    · rintro (⟨k, hk, hi⟩ | ⟨j, rfl, hj⟩)
      · exact ⟨k, hmem.mpr (.inl hk), hi⟩
      · obtain ⟨k, hk, l, rfl, hl⟩ := (hb.declared j).mp hj
        exact ⟨_, hmem.mpr (.inr ⟨k, hk, rfl⟩), l, (Nat.add_assoc _ _ _).symm, hl⟩
    · rintro ⟨k, hk, j, rfl, hj⟩
      rcases hmem.mp hk with hk | ⟨k, hk', rfl⟩
      · exact .inl ⟨k, hk, j, rfl, hj⟩
      · exact .inr ⟨k.1 + j, Nat.add_assoc _ _ _, (hb.declared _).mpr ⟨k, hk', j, rfl, hj⟩⟩

theorem sound_between {u v : Text} (t : Text) (hu : Classless u) (hcloses : Closes u)
    (hv : Classless v) (hopens : Opens v) : (fixed u ++ (emitted t ++ fixed v)).Sound :=
  (sound_fixed hu).append ((sound_emitted t).append (sound_fixed hv) hopens.apart) hcloses.apart

/-- Sound texts in a row are sound if each of them closes or is white space. -/
theorem sound_stack {front : List Marked} {last : Marked} (hfront : ∀ a ∈ front, a.Sound ∧
    (Closes a.text ∨ ∀ c ∈ a.text, isSpace c)) (hlast : last.Sound) : (stack front last).Sound := by
  induction front with
  | nil => exact hlast
  | cons a front ih =>
    obtain ⟨ha, hclose⟩ := hfront a List.mem_cons_self
    refine ha.append (ih fun b hb => hfront b (List.mem_cons_of_mem _ hb)) ?_
    rcases hclose with hclose | hspaces
    · exact hclose.apart
    · exact apart_spaces_left hspaces

end Marked

theorem length_upper_le (c : Char) : (upper c).length ≤ 3 := by
  have hexpansions : ∀ e ∈ upperExpansions, e.2.length ≤ 3 := by decide
  unfold upper
  split
  · simp
  · split
    · rename_i cs hcs
      rw [List.length_map]
      obtain ⟨e, he, rfl⟩ : ∃ e ∈ upperExpansions, e.2 = cs := by
        obtain ⟨before, after, hlist, -⟩ := List.lookup_eq_some_iff.mp hcs
        exact ⟨(c.toNat, cs), by simp [hlist], rfl⟩
      exact hexpansions e he
    · split <;> simp

/-- The name of a setter is classless, though the upper case of a character may be anything. -/
theorem classless_setterName {n : Text} (hn : ∀ c ∈ n, isSpace c = false) :
    Classless (setterName n) := by
  cases n with
  | nil => exact classless_of_fixed (by decide)
  | cons c rest =>
    refine classless_of_keyword ?_ fun d hd => hn d (List.mem_cons_of_mem _ hd)
    rintro ⟨a, b, h⟩
    have hlength := congrArg List.length h
    have hupper := length_upper_le c
    simp only [List.length_append] at hlength
    have hset : ("set" : Text).length = 3 := rfl
    have hclass : ("class" : Text).length = 5 := rfl
    match a with
    | [] => exact absurd (List.cons.inj h).1 (by decide)
    | [x] => exact absurd (List.cons.inj (List.cons.inj h).2).1 (by decide)
    | _ :: _ :: _ =>
      simp only [List.length_cons] at hlength
      omega

namespace Conversion

open Marked

/-- A state line with the place of its value. -/
def stateMarked (name value : Text) : Marked :=
  fixed ("  const [" ++ (name ++ (", " ++ (setterName name ++ "] = useState(")))) ++
    (emitted value ++ fixed ");\n")

/-- The body of a method as it is laid out. -/
def laidBody (form : BodyForm) (body : Text) : Text :=
  match form with
  | .block => reindent body "    "
  | .expression => body.trim

/-- What stands in front of the body of a method and behind it. -/
def bodyBraces (form : BodyForm) (body : Text) : Text × Text :=
  match form with
  | .block =>
    if (reindent body "    ").isEmpty then (") => \x7b", "\x7d;\n")
    else (") => \x7b\n", "\n  \x7d;\n")
  | .expression => (") => ", ";\n")

/-- What stands behind the parameters of a method, with the place of the body. -/
def bodyMarked (form : BodyForm) (body : Text) : Marked :=
  fixed (bodyBraces form body).1 ++
    (emitted (laidBody form body) ++ fixed (bodyBraces form body).2)

/-- The word in front of the parameters of a method. -/
def asyncWord (method : Method) : Text := if method.isAsync then "async " else ""

/-- A method with the places of its parameters and its body. -/
def methodMarked (method : Method) (body : Text) : Marked :=
  fixed ("  const " ++ method.name ++ (" = " ++ (asyncWord method ++ "("))) ++
    (emitted method.params ++ bodyMarked method.form body)

/-- A body under an indentation with its place. -/
def blockMarked (body indent : Text) : Marked :=
  emitted (reindent body indent) ++
    fixed (if (reindent body indent).isEmpty then [] else "\n")

/-- The body that runs when the component appears, with its place. -/
def setupMarked : Option Text → Marked
  | some body => blockMarked body "    "
  | none => fixed []

/-- The function that is returned, with the place of its body. -/
def cleanupMarked (gap : Text) : Option Text → Marked
  | some body => fixed (gap ++ "    return () => \x7b\n") ++
      (blockMarked body "      " ++ fixed "    \x7d;\n")
  | none => fixed []

/-- An effect with the places of its bodies. -/
def effectMarked (e : Effect) : Marked :=
  fixed "  useEffect(() => \x7b\n" ++ (setupMarked e.setup ++
    (cleanupMarked (if (setupMarked e.setup).text.isEmpty then "" else "\n") e.cleanup ++
      fixed "  \x7d, []);\n"))

/-- The returned template with its place. -/
def templateMarked (template : Text) : Marked :=
  fixed "  return (\n    " ++ (emitted (alignTemplate template) ++ fixed "\n  );\n")

/-- The statements of render and the returned template with their places. -/
def renderMarked (prelude template : Text) : Marked :=
  emitted (reindent prelude "  ") ++
    (fixed (if (reindent prelude "  ").isEmpty then [] else "\n\n") ++
      templateMarked template)

theorem text_stateMarked (name value : Text) :
    (stateMarked name value).text = stateLine name value := by
  unfold stateMarked stateLine
  simp only [text_append, text_fixed, text_emitted, List.append_assoc]

theorem text_methodMarked (method : Method) (body : Text) :
    (methodMarked method body).text = methodSection method body := by
  unfold methodMarked methodSection bodyMarked
  simp only [text_append, text_fixed, text_emitted, List.append_assoc]
  cases method.form with
  | block =>
    dsimp only [bodyBraces, laidBody]
    by_cases hempty : (reindent body "    ").isEmpty = true
    · rw [List.isEmpty_iff.mp hempty]
      rfl
    · rw [if_neg hempty, if_neg hempty]
      rfl
  | expression => rfl

theorem text_blockMarked (body indent : Text) :
    (blockMarked body indent).text = Effect.bodyBlock body indent := by
  unfold blockMarked Effect.bodyBlock
  dsimp only [text_append, text_emitted, text_fixed]
  split
  · rename_i hempty
    rw [List.isEmpty_iff.mp hempty]
    rfl
  · rfl

theorem text_effectMarked (e : Effect) : (effectMarked e).text = e.render := by
  obtain ⟨setup, cleanup⟩ := e
  unfold effectMarked Effect.render
  simp only [text_append, text_fixed, List.append_assoc]
  cases setup with
  | none =>
    cases cleanup with
    | none => rfl
    | some body =>
      dsimp only [setupMarked, cleanupMarked]
      simp only [text_append, text_fixed, text_blockMarked, List.append_assoc]
      rfl
  | some body =>
    cases cleanup <;> dsimp only [setupMarked, cleanupMarked] <;>
      simp only [text_append, text_fixed, text_blockMarked, List.append_assoc]

theorem text_renderMarked (prelude template : Text) : (renderMarked prelude template).text =
    Text.join "\n" (preludeSections prelude ++ [templateSection template]) := by
  unfold renderMarked preludeSections
  by_cases hempty : (reindent prelude "  ").isEmpty = true
  · rw [List.isEmpty_iff.mp hempty]
    rfl
  · rw [if_neg hempty, if_neg hempty]
    change _ = reindent prelude "  " ++ "\n" ++ "\n" ++ templateSection template
    simp only [List.append_assoc]
    rfl

theorem texts_stateMarked (name value : Text) : (stateMarked name value).texts = [value] := rfl

theorem texts_methodMarked (method : Method) (body : Text) :
    (methodMarked method body).texts = [method.params, laidBody method.form body] := rfl

theorem texts_effectMarked (e : Effect) : (effectMarked e).texts =
    e.setup.toList.map (reindent · "    ") ++
      e.cleanup.toList.map (reindent · "      ") := by
  obtain ⟨setup, cleanup⟩ := e
  cases setup <;> cases cleanup <;> rfl

theorem texts_renderMarked (prelude template : Text) : (renderMarked prelude template).texts =
    [reindent prelude "  ", alignTemplate template] := rfl

theorem sound_stateMarked {name : Text} (hname : ∀ c ∈ name, isSpace c = false)
    (value : Text) : (stateMarked name value).Sound := by
  have hvariable : Classless name := classless_of_keyword (w := []) (by decide) hname
  have hsetter : Classless (setterName name ++ "] = useState(") :=
    (classless_setterName hname).append (classless_of_fixed (by decide))
      (Opens.of_trimmed rfl).apart
  have hbehind : Classless (", " ++ (setterName name ++ "] = useState(")) :=
    (classless_of_fixed (by decide)).append hsetter (Closes.of_trimmed rfl).apart
  have hpair : Classless (name ++ (", " ++ (setterName name ++ "] = useState("))) :=
    hvariable.append hbehind (Opens.of_trimmed rfl).apart
  refine sound_between value ?_ ?_ (classless_of_fixed (by decide)) (Opens.of_trimmed rfl)
  · exact (classless_of_fixed (by decide)).append hpair (Closes.of_trimmed rfl).apart
  · exact (Closes.of_trimmed rfl).append.append.append.append

theorem closes_stateMarked (name value : Text) : Closes (stateMarked name value).text :=
  (Closes.of_trimmed (u := ");\n") rfl).append.append

section

variable (form : BodyForm) (body : Text)
include form body

theorem bodyBraces_cases :
    bodyBraces form body ∈ [((") => \x7b" : Text), ("\x7d;\n" : Text)),
      (") => \x7b\n", "\n  \x7d;\n"), (") => ", ";\n")] := by
  cases form with
  | block =>
    dsimp only [bodyBraces]
    split
    · exact .head _
    · exact .tail _ (.head _)
  | expression => exact .tail _ (.tail _ (.head _))

theorem sound_bodyMarked : (bodyMarked form body).Sound := by
  unfold bodyMarked
  have hcases := bodyBraces_cases form body
  generalize bodyBraces form body = braces at hcases ⊢
  fin_cases hcases <;>
    exact sound_between _ (classless_of_fixed (by decide)) (Closes.of_trimmed rfl)
      (classless_of_fixed (by decide)) (Opens.of_trimmed rfl)

theorem opens_bodyMarked : Opens (bodyMarked form body).text := by
  unfold bodyMarked
  have hcases := bodyBraces_cases form body
  generalize bodyBraces form body = braces at hcases ⊢
  fin_cases hcases <;> exact Opens.of_trimmed rfl

theorem closes_bodyMarked : Closes (bodyMarked form body).text := by
  unfold bodyMarked
  have hcases := bodyBraces_cases form body
  generalize bodyBraces form body = braces at hcases ⊢
  fin_cases hcases <;> exact (Closes.of_trimmed rfl).append.append

end

theorem sound_methodMarked {method : Method}
    (hname : ∀ c ∈ method.name, isSpace c = false) (body : Text) :
    (methodMarked method body).Sound := by
  have hassign : Classless (" = " ++ (asyncWord method ++ "(")) := by
    unfold asyncWord
    split <;> exact classless_of_fixed (by decide)
  have hhead : Classless ("  const " ++ method.name ++ (" = " ++ (asyncWord method ++ "("))) :=
    (classless_of_keyword (by decide) hname).append hassign
      (Opens.of_trimmed rfl).apart
  have hbehind := (sound_emitted method.params).append (sound_bodyMarked method.form body)
    (opens_bodyMarked method.form body).apart
  exact (sound_fixed hhead).append hbehind
    (Closes.of_trimmed (u := "(") rfl).append.append.append.apart

theorem closes_methodMarked (method : Method) (body : Text) :
    Closes (methodMarked method body).text := (closes_bodyMarked method.form body).append.append

theorem sound_blockMarked (body indent : Text) : (blockMarked body indent).Sound := by
  have hspaces : ∀ c ∈ (if (reindent body indent).isEmpty then [] else "\n" : Text),
      isSpace c := by
    split <;> exact List.all_eq_true.mp rfl
  exact (sound_emitted _).append (sound_fixed (classless_of_spaces hspaces))
    (apart_spaces_right hspaces)

theorem sound_setupMarked (setup : Option Text) : (setupMarked setup).Sound := by
  cases setup with
  | none => exact sound_fixed (classless_of_fixed (by decide))
  | some body => exact sound_blockMarked body _

theorem sound_cleanupMarked {gap : Text} (hgap : ∀ c ∈ gap, isSpace c)
    (cleanup : Option Text) : (cleanupMarked gap cleanup).Sound := by
  cases cleanup with
  | none => exact sound_fixed (classless_of_fixed (by decide))
  | some body =>
    have hhead : Classless (gap ++ "    return () => \x7b\n") :=
      (classless_of_spaces hgap).append (classless_of_fixed (by decide)) (apart_spaces_left hgap)
    have hbody := (sound_blockMarked body "      ").append
      (sound_fixed (t := "    \x7d;\n") (classless_of_fixed (by decide)))
      (Opens.of_trimmed rfl).apart
    exact (sound_fixed hhead).append hbody (Closes.of_trimmed rfl).append.apart

theorem opens_cleanupMarked {gap : Text} (hgap : ∀ c ∈ gap, isSpace c)
    (cleanup : Option Text) :
    Opens ((cleanupMarked gap cleanup).text ++ "  \x7d, []);\n") := by
  cases cleanup with
  | none => exact Opens.of_trimmed rfl
  | some body =>
    have htext : (cleanupMarked gap (some body)).text ++ "  \x7d, []);\n" =
        gap ++ "    " ++ "return" ++ " " ++ '(' :: (") => \x7b\n" ++
          ((blockMarked body "      ").text ++ "    \x7d;\n" ++ "  \x7d, []);\n")) := by
      dsimp only [cleanupMarked]
      simp only [text_append, text_fixed, List.append_assoc]
      rfl
    rw [htext]
    have hindent := Declaration.IsGap.spaces_append (g := "    ") hgap
      ⟨' ', "   ", rfl, List.all_eq_true.mp rfl, rfl⟩
    exact Opens.of_return hindent (List.all_eq_true.mp rfl) rfl

theorem sound_effectMarked (e : Effect) : (effectMarked e).Sound := by
  have hgap : ∀ c ∈ (if (setupMarked e.setup).text.isEmpty then "" else "\n" : Text),
      isSpace c := by
    split <;> exact List.all_eq_true.mp rfl
  have hend := (sound_cleanupMarked hgap e.cleanup).append
    (sound_fixed (t := "  \x7d, []);\n") (classless_of_fixed (by decide)))
    (Opens.of_trimmed rfl).apart
  have hbehind := (sound_setupMarked e.setup).append hend (opens_cleanupMarked hgap e.cleanup).apart
  exact (sound_fixed (classless_of_fixed (by decide))).append hbehind (Closes.of_trimmed rfl).apart

theorem closes_effectMarked (e : Effect) : Closes (effectMarked e).text :=
  (Closes.of_trimmed (u := "  \x7d, []);\n") rfl).append.append.append

theorem opens_templateMarked {gap : Text} (hgap : ∀ c ∈ gap, isSpace c)
    (template : Text) : Opens (gap ++ (templateMarked template).text) := by
  have htext : gap ++ (templateMarked template).text = gap ++ "  " ++ "return" ++ " " ++
      '(' :: ("\n    " ++ (alignTemplate template ++ "\n  );\n")) := by
    simp only [List.append_assoc]
    rfl
  rw [htext]
  have hindent := Declaration.IsGap.spaces_append (g := "  ") hgap
    ⟨' ', " ", rfl, List.all_eq_true.mp rfl, rfl⟩
  exact Opens.of_return hindent (List.all_eq_true.mp rfl) rfl

theorem sound_renderMarked (prelude template : Text) : (renderMarked prelude template).Sound := by
  have hgap : ∀ c ∈ (if (reindent prelude "  ").isEmpty then [] else "\n\n" : Text),
      isSpace c := by
    split <;> exact List.all_eq_true.mp rfl
  have htemplate : (templateMarked template).Sound :=
    sound_between _ (classless_of_fixed (by decide)) (Closes.of_trimmed rfl)
      (classless_of_fixed (by decide)) (Opens.of_trimmed rfl)
  have hbehind := (sound_fixed (classless_of_spaces hgap)).append htemplate (apart_spaces_left hgap)
  exact (sound_emitted _).append hbehind (opens_templateMarked hgap template).apart

end Conversion

end Declass
