import Declass.Component
import Declass.Proofs.Concatenation
import Declass.Proofs.Members
import Declass.Proofs.Places

/-!
# Printed class components

**Input.** A class given by its parts: a name, methods, and the two parts of a render method.  The
parts that are source text are fragments, which are read on their own to their end in code and
balance their brackets.  What stands in them is arbitrary otherwise: strings, comments, template
literals, markup, nested functions.

**Algorithm.** `ClassSource.print` writes the class with one member to a line; each fragment stands
behind an opening bracket.

**Results.** `ClassSource.kinds_print`: the scan of the printed class reads each fragment as it reads
the fragment alone, and everything between them as code.
-/

namespace Declass

open Scan CodeMap
open Text (asCode)

/-- A piece of source that stands for itself: it is read on its own to its end in code, and its
brackets are balanced. -/
structure Fragment where
  text : Text
  idle : (run true .start text).Idle
  balanced : Balanced (kinds text)

-- Brackets in strings and comments do not count.
example : Fragment := ⟨"f('\x7d') // \x7b\n", ⟨rfl, 0, rfl⟩, rfl⟩

/-- A function member of a class. -/
structure FunctionSource where
  name : Text
  isAsync : Bool
  params : Fragment
  body : Fragment
  isIdentifier : name.isIdentifier = true

/-- The member names that are put to a use of their own. -/
def reservedNames : List Text :=
  "constructor" :: "render" :: Lifecycle.mount.callback :: Lifecycle.unmount.callback ::
    Component.unsupportedCallbacks

/-- A method: a function member without a use of its own. -/
structure MethodSource extends FunctionSource where
  isFree : name ∉ reservedNames

/-- Whether the text is a name of ASCII letters, digits, underscores and dollars. -/
def Text.isClassName : Text → Bool
  | [] => false
  | c :: rest => (c.isAlpha || c == '_' || c == '$') && rest.all Character.isAsciiIdent

/-- A class component: its name, its methods, and what its render method does before it returns and
what it returns. -/
structure ClassSource where
  name : Text
  methods : List MethodSource
  prelude : Fragment
  template : Fragment
  isName : name.isClassName = true

theorem Text.isIdentPart_of_isClassName {w : Text} (h : w.isClassName) :
    ∀ c ∈ w, Character.isIdentPart c := by
  cases w with
  | nil => simp
  | cons d w =>
    simp only [isClassName, Bool.and_eq_true, Bool.or_eq_true, List.all_eq_true] at h
    have hd : Character.isAsciiIdent d := by
      simp only [Character.isAsciiIdent, Char.isAlphanum, Bool.or_eq_true]
      tauto
    rintro c (_ | ⟨_, hc⟩)
    · exact isIdentPart_of_isAsciiIdent hd
    · exact isIdentPart_of_isAsciiIdent (h.2 c hc)

/-- The modifier and the name of a function member. -/
def FunctionSource.head (f : FunctionSource) : Text :=
  if f.isAsync then "async " ++ f.name else f.name

/-- The function member on a line of its own. -/
def FunctionSource.print (f : FunctionSource) : Text :=
  "  " ++ f.head ++ "(" ++ f.params.text ++ ") \x7b" ++ f.body.text ++ "\x7d\n"

/-- What stands before the members of the class. -/
def ClassSource.header (s : ClassSource) : Text := "class " ++ s.name ++ " extends Component \x7b"

/-- The text of the class. -/
def ClassSource.print (s : ClassSource) : Text :=
  s.header ++ "\n" ++ s.methods.flatMap (·.toFunctionSource.print) ++
    "  render() \x7b" ++ s.prelude.text ++ "\n    return (" ++ s.template.text ++ ");\n  \x7d\n" ++
    "\x7d\n"

section Fragments

variable {o : State} {u g post : Text} {c : Char}

/-- The characters that may follow a fragment. -/
def seamChars : List Char := [')', '\x7d', '\x7b', '\n', ',', ';', ' ']

theorem seam_of_head {d : Char} (hd : d ∈ seamChars) (rest : Text) : Seam u (d :: rest) := by
  have hapart : ∀ e ∈ seamChars, (e ≠ '/' ∧ e ≠ '*') ∧ e.isAlpha = false ∧ e ≠ '>' := by decide
  intro c _ e he
  obtain rfl : d = e := by simpa using he
  exact ⟨fun _ => (hapart d hd).1, fun _ => (hapart d hd).2⟩

theorem Fragment.reads (f : Fragment) (ho : o.Idle) (hj : Joins o.done f.text)
    (hseam : Seam f.text post) : ∃ o', Reads true o f.text (kinds f.text) post o' := by
  have hend : Seam f.text [] := fun _ _ _ h => by cases h
  obtain ⟨alone, halone⟩ := reads_selfContained start_idle f.idle (fun _ => .nil f.text) hend
  rw [kinds_of_reads halone]
  exact reads_selfContained ho f.idle (fun _ => hj) hseam

theorem Fragment.reads_behind (f : Fragment) (ho : o.Idle) (hg : g.all isIdleChar)
    (hc : c ∈ ['(', '[', '\x7b']) (hseam : Seam f.text post) :
    ∃ o', Reads true o (g ++ c :: f.text) (g.asCode ++ (c, .code) :: kinds f.text) post o' := by
  have hbracket : (g ++ [c]).all isIdleChar := by
    simp only [List.mem_cons, List.not_mem_nil, or_false] at hc
    rw [List.all_append, hg]
    rcases hc with rfl | rfl | rfl <;> rfl
  have hpaint : Slot.paint [(c, Kind.code)] = [⟨some c, .code⟩] := by
    simp only [List.mem_cons, List.not_mem_nil, or_false] at hc
    rcases hc with rfl | rfl | rfl <;> rfl
  obtain ⟨o', h'⟩ := reads_plain true ho hbracket (f.text ++ post)
  have hdone : o'.done = ⟨some c, .code⟩ :: ((Slot.paint g.asCode).reverse ++ o.done) := by
    rw [h'.done, List.map_append, Slot.paint_append, List.map_singleton, hpaint,
      List.reverse_append]
    rfl
  obtain ⟨o'', h''⟩ := f.reads h'.idle (hdone ▸ joins_bracket hc _ f.text) hseam
  have h := h'.trans h''
  rw [List.append_assoc, List.map_append, List.append_assoc] at h
  exact ⟨o'', h⟩

end Fragments

theorem isBracketFree_of_isIdentPart {c : Char} (h : Character.isIdentPart c) :
    isBracketFree c := by
  have hne : ∀ d, Character.isIdentPart d = false → c ≠ d := by
    rintro d hd rfl
    rw [h] at hd
    cases hd
  simp [isBracketFree, hne '(' rfl, hne '[' rfl, hne '\x7b' rfl, hne ')' rfl, hne ']' rfl,
    hne '\x7d' rfl]

namespace FunctionSource

variable {o : State}

/-- The characters of a function member without the layout around it, with their kinds. -/
def painted (f : FunctionSource) : List (Char × Kind) :=
  f.head.asCode ++ ('(', .code) :: kinds f.params.text ++ asCode ") " ++
    ('\x7b', .code) :: kinds f.body.text ++ [('\x7d', .code)]

theorem mem_head (f : FunctionSource) {c : Char} (hc : c ∈ f.head) :
    Character.isIdentPart c ∨ c = ' ' := by
  have hname := Text.isIdentPart_of_isIdentifier f.isIdentifier c
  unfold head at hc
  split at hc
  · rcases List.mem_append.mp hc with hc | hc
    · have hasync : ∀ c ∈ ("async " : Text), Character.isIdentPart c ∨ c = ' ' :=
        List.all_iff_forall_prop.mp (by decide)
      exact hasync c hc
    · exact .inl (hname hc)
  · exact .inl (hname hc)

theorem reads (f : FunctionSource) (ho : o.Idle) (post : Text) :
    ∃ o', Reads true o f.print (asCode "  " ++ f.painted ++ asCode "\n") post o' := by
  have hhead : (("  " : Text) ++ f.head).all isIdleChar := by
    rw [List.all_append]
    refine Bool.and_eq_true_iff.mpr ⟨rfl, List.all_eq_true.mpr fun c hc => ?_⟩
    rcases f.mem_head hc with h | rfl
    · rw [isIdleChar, isPlainChar_of_isIdentPart h]
      rfl
    · rfl
  obtain ⟨o₁, h₁⟩ := f.params.reads_behind ho hhead (c := '(') (by decide)
    (seam_of_head (d := ')') (by decide) (' ' :: '\x7b' :: (f.body.text ++ '\x7d' :: '\n' :: post)))
  obtain ⟨o₂, h₂⟩ := f.body.reads_behind h₁.idle (g := ") ") rfl (c := '\x7b') (by decide)
    (seam_of_head (d := '\x7d') (by decide) ('\n' :: post))
  obtain ⟨o₃, h₃⟩ := reads_plain true h₂.idle (g := "\x7d\n") rfl post
  have hassoc : ∀ a b c d e f : Text, a ++ b ++ c ++ d ++ e ++ f = a ++ (b ++ c) ++ (d ++ e) ++ f :=
    fun a b c d e f => by simp only [List.append_assoc]
  have htext : f.print = "  " ++ f.head ++ '(' :: f.params.text ++
      (") " ++ '\x7b' :: f.body.text) ++ "\x7d\n" :=
    hassoc ("  " ++ f.head) "(" f.params.text ") \x7b" f.body.text "\x7d\n"
  have hpainted : asCode "  " ++ f.painted ++ asCode "\n" =
      asCode ("  " ++ f.head) ++ ('(', .code) :: kinds f.params.text ++
        (asCode ") " ++ ('\x7b', .code) :: kinds f.body.text) ++ asCode "\x7d\n" := by
    simp only [painted, Text.asCode_append, List.append_assoc]
    rfl
  exact ⟨o₃, ((h₁.trans h₂).trans h₃).congr htext hpainted⟩

/-- The characters of function members on lines of their own, with their kinds. -/
def paintedLines (fs : List FunctionSource) : List (Char × Kind) :=
  fs.flatMap fun f => asCode "  " ++ f.painted ++ asCode "\n"

theorem reads_lines (fs : List FunctionSource) (ho : o.Idle) (post : Text) :
    ∃ o', Reads true o (fs.flatMap print) (paintedLines fs) post o' := by
  induction fs generalizing o with
  | nil => exact ⟨o, .refl _ _, rfl, ho⟩
  | cons f fs ih =>
    obtain ⟨o₁, h₁⟩ := f.reads ho (fs.flatMap print ++ post)
    obtain ⟨o₂, h₂⟩ := ih h₁.idle
    exact ⟨o₂, h₁.trans h₂⟩

theorem painted_balanced (f : FunctionSource) : Balanced f.painted := by
  have hhead : Balanced f.head.asCode := by
    refine balanced_of_bracketFree (List.all_eq_true.mpr fun c hc => ?_) .code
    rcases f.mem_head hc with h | rfl
    · exact isBracketFree_of_isIdentPart h
    · rfl
  have hparams := Balanced.wrap (o := '(') (c := ')') rfl rfl f.params.balanced
  have hbody := Balanced.wrap (o := '\x7b') (c := '\x7d') rfl rfl f.body.balanced
  have hgap : Balanced (asCode " ") := rfl
  have h := ((hhead.append hparams).append hgap).append hbody
  simpa [painted] using h

theorem paintedLines_balanced (fs : List FunctionSource) : Balanced (paintedLines fs) := by
  induction fs with
  | nil => rfl
  | cons f fs ih =>
    have hindent : Balanced (asCode "  ") := rfl
    have hfeed : Balanced (asCode "\n") := rfl
    exact ((hindent.append f.painted_balanced).append hfeed).append ih

end FunctionSource

namespace ClassSource

/-- What the body of the render method is read as. -/
def paintedRender (s : ClassSource) : List (Char × Kind) :=
  kinds s.prelude.text ++ asCode "\n    return " ++ ('(', .code) :: kinds s.template.text ++
    asCode ");\n  "

theorem reads_render (s : ClassSource) :
    ∃ o, Reads true .start (s.prelude.text ++ "\n    return (" ++ s.template.text ++ ");\n  ")
      s.paintedRender [] o := by
  obtain ⟨o₁, h₁⟩ := s.prelude.reads start_idle (.nil _) (seam_of_head (d := '\n') (by decide)
    ("    return (" ++ s.template.text ++ ");\n  "))
  obtain ⟨o₂, h₂⟩ := s.template.reads_behind h₁.idle (g := "\n    return ") rfl (c := '(')
    (by decide) (seam_of_head (d := ')') (by decide) ";\n  ")
  obtain ⟨o₃, h₃⟩ := reads_plain true h₂.idle (g := ");\n  ") rfl []
  have htext : s.prelude.text ++ "\n    return (" ++ s.template.text ++ ");\n  " =
      s.prelude.text ++ ("\n    return " ++ '(' :: s.template.text) ++ ");\n  " :=
    congrArg (· ++ (");\n  " : Text)) (List.append_assoc _ _ _)
  have hpainted : s.paintedRender = kinds s.prelude.text ++
      (asCode "\n    return " ++ ('(', .code) :: kinds s.template.text) ++
        asCode ");\n  " := by
    simp only [paintedRender, List.append_assoc]
  exact ⟨o₃, ((h₁.trans h₂).trans h₃).congr htext hpainted⟩

/-- The body of the render method. -/
def renderBody (s : ClassSource) : Fragment where
  text := s.prelude.text ++ "\n    return (" ++ s.template.text ++ ");\n  "
  idle := by
    obtain ⟨o, h⟩ := s.reads_render
    exact h.run_eq ▸ h.idle
  balanced := by
    obtain ⟨o, h⟩ := s.reads_render
    rw [kinds_of_reads h]
    have hreturn : Balanced (asCode "\n    return ") := rfl
    have htemplate := Balanced.wrap (o := '(') (c := ')') rfl rfl s.template.balanced
    have hend : Balanced (asCode ";\n  ") := rfl
    have h := ((s.prelude.balanced.append hreturn).append htemplate).append hend
    simpa [paintedRender] using h

theorem kinds_renderBody (s : ClassSource) : kinds s.renderBody.text = s.paintedRender := by
  obtain ⟨o, h⟩ := s.reads_render
  exact kinds_of_reads h

/-- The render method. -/
def render (s : ClassSource) : FunctionSource where
  name := "render"
  isAsync := false
  params := ⟨[], start_idle, rfl⟩
  body := s.renderBody
  isIdentifier := rfl

/-- The function members in the order in which they are printed. -/
def functions (s : ClassSource) : List FunctionSource :=
  s.methods.map (·.toFunctionSource) ++ [s.render]

theorem print_render (s : ClassSource) :
    s.render.print = "  render() \x7b" ++ s.prelude.text ++ "\n    return (" ++ s.template.text ++
      ");\n  \x7d\n" := by
  have hassoc : ∀ a b c d e f : Text, a ++ (b ++ c ++ d ++ e) ++ f = a ++ b ++ c ++ d ++ (e ++ f) :=
    fun a b c d e f => by simp only [List.append_assoc]
  exact hassoc "  render() \x7b" s.prelude.text "\n    return (" s.template.text ");\n  " "\x7d\n"

theorem print_eq (s : ClassSource) :
    s.print = s.header ++ "\n" ++ s.functions.flatMap FunctionSource.print ++ "\x7d\n" := by
  have hassoc : ∀ a b c d e f g h : Text,
      a ++ b ++ c ++ d ++ e ++ f ++ g ++ h = a ++ (b ++ (c ++ d ++ e ++ f ++ g)) ++ h :=
    fun a b c d e f g h => by simp only [List.append_assoc]
  rw [functions, List.flatMap_append, List.flatMap_map, List.flatMap_singleton, print_render]
  exact hassoc _ _ _ _ _ _ _ _

theorem kinds_print (s : ClassSource) :
    kinds s.print = s.header.asCode ++ asCode "\n" ++ FunctionSource.paintedLines s.functions ++
      asCode "\x7d\n" := by
  have hname : ∀ c ∈ s.name, isIdleChar c := fun c hc => by
    rw [isIdleChar, isPlainChar_of_isIdentPart (Text.isIdentPart_of_isClassName s.isName c hc)]
    rfl
  have hheader : (s.header ++ "\n").all isIdleChar := by
    have happend : ∀ {g g' : Text}, g.all isIdleChar → g'.all isIdleChar →
        (g ++ g').all isIdleChar := fun h h' => by rw [List.all_append, h, h']; rfl
    exact happend (happend (happend rfl (List.all_eq_true.mpr hname)) rfl) rfl
  obtain ⟨o₁, h₁⟩ := reads_plain true start_idle hheader
    (s.functions.flatMap FunctionSource.print ++ "\x7d\n")
  obtain ⟨o₂, h₂⟩ := FunctionSource.reads_lines s.functions h₁.idle "\x7d\n"
  obtain ⟨o₃, h₃⟩ := reads_plain true h₂.idle (g := "\x7d\n") rfl []
  have hpainted : s.header.asCode ++ asCode "\n" = asCode (s.header ++ "\n") :=
    (Text.asCode_append _ _).symm
  rw [hpainted]
  exact kinds_of_reads (((h₁.trans h₂).trans h₃).congr s.print_eq rfl)

end ClassSource

end Declass
