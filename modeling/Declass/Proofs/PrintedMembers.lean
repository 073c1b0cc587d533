import Declass.Proofs.Extraction
import Declass.Proofs.Printing

/-!
# Reading printed members

**Input.** The code map of a text in which function members lie as they are printed.

**Results.**
* `FunctionSource.listFrom_eq`: the members on lines of their own are read one after the other, and
  nothing is given up.
* `ClassSource.foldlM_add`: the methods are gathered in order, and the render method is found.
* `ClassSource.splitRender_eq`: the render body is cut at the return that was printed, whatever
  returns stand in the fragments.
-/

namespace Declass

open Scan CodeMap
open Slot (width)
open Text (asCode size width_asCode)
open Slot (LiesAt width_append)
open Component (Findings splitRender unwrapParens)

namespace FunctionSource

variable {m : CodeMap} {ps rs : Painted} {i stop : Nat} (f : FunctionSource)

/-- The range of the parameters of a function printed at position `i`. -/
def paramsSpan (i : Nat) : Span :=
  ⟨i + f.head.size + 1, i + f.head.size + 1 + f.params.text.size⟩

/-- The range of the body of a function printed at position `i`. -/
def bodySpan (i : Nat) : Span :=
  ⟨(f.paramsSpan i).stop + 3, (f.paramsSpan i).stop + 3 + f.body.text.size⟩

/-- The member that a function printed at position `i` is read as. -/
def member (i : Nat) : Member :=
  ⟨f.name, false, ⟨i, (f.bodySpan i).stop + 1⟩,
    .function ⟨f.isAsync, f.paramsSpan i, .block (f.bodySpan i)⟩⟩

/-- Where the name of a function printed at position `i` starts. -/
def nameStart (i : Nat) : Nat := if f.isAsync then i + 6 else i

theorem isTrivia_of_isIdentStart {c : Char} (h : Character.isIdentStart c) :
    Slot.isTrivia ⟨some c, .code⟩ = false := by
  have hne : ∀ d, Character.isIdentStart d = false → c ≠ d := by
    rintro d hd rfl
    rw [h] at hd
    cases hd
  simp [Slot.isTrivia, Slot.isCode, Slot.isLayout, Character.isLayout, hne ' ' rfl, hne '\t' rfl,
    hne '\n' rfl, hne '\x0C' rfl, hne '\r' rfl]

theorem not_separator {c : Char} (h : Character.isIdentStart c) :
    (Slot.isTrivia ⟨some c, .code⟩ || Slot.isCodeChar ';' ⟨some c, .code⟩) = false := by
  have hne : c ≠ ';' := by
    rintro rfl
    cases h
  rw [isTrivia_of_isIdentStart h]
  simp [Slot.isCodeChar, hne]

theorem exists_name : ∃ c rest, f.name = c :: rest ∧ Character.isIdentStart c := by
  have h := f.isIdentifier
  cases hname : f.name with
  | nil =>
    rw [hname] at h
    cases h
  | cons c rest =>
    rw [hname, Text.isIdentifier, Bool.and_eq_true] at h
    exact ⟨c, rest, rfl, h.1⟩

theorem modifiersFrom_name (hm : m.Shows ps) (h : LiesAt ps i (f.name.asCode ++ ('(', .code) :: rs))
    (count : Nat) (mods : Member.Modifiers) :
    Member.modifiersFrom m stop count mods i = .ok (mods, i) := by
  cases count with
  | zero => rfl
  | succ count =>
    obtain ⟨hend, hslice⟩ := identEnd_of_liesAt hm h f.isIdentifier rfl
    have hafter := h.right
    rw [width_asCode] at hafter
    rw [Member.modifiersFrom, bind_of_eq_ok hend, bind_of_eq_ok hslice,
      skipTrivia_of_liesAt hm hafter rfl]
    cases mods.add? f.name with
    | none => rfl
    | some more =>
      dsimp only
      rw [if_neg (by omega)]
      rfl

theorem modifiersFrom_head (hm : m.Shows ps)
    (h : LiesAt ps i (f.head.asCode ++ ('(', .code) :: rs)) (hstop : i + f.head.size ≤ stop) :
    Member.modifiersFrom m stop m.size ⟨false, false, false⟩ i =
      .ok (⟨false, f.isAsync, false⟩, f.nameStart i) := by
  unfold nameStart
  unfold head at h hstop
  cases hasync : f.isAsync with
  | false =>
    rw [hasync] at h
    exact f.modifiersFrom_name hm h _ _
  | true =>
    rw [hasync, if_pos rfl] at h hstop
    obtain ⟨c, rest, hname, hstart⟩ := f.exists_name
    have hword : LiesAt ps i (asCode "async" ++ (' ', .code) ::
        (f.name.asCode ++ ('(', .code) :: rs)) := by
      simpa using h
    obtain ⟨hend, hslice⟩ := identEnd_of_liesAt hm hword rfl rfl
    have hspace : LiesAt ps (i + 5) ((' ', .code) :: (f.name.asCode ++ ('(', .code) :: rs)) :=
      hword.right
    have hnext : LiesAt ps (i + 6) (f.name.asCode ++ ('(', .code) :: rs) := hspace.tail
    have hfirst := hnext
    rw [hname] at hspace hfirst
    have htrivia : m.skipTrivia (i + size "async") stop = i + 6 :=
      skipTrivia_of_space hm hspace (isTrivia_of_isIdentStart hstart) (by
        rw [Text.size_append] at hstop
        have : size "async " = 6 := rfl
        omega)
    obtain ⟨tail, hrest⟩ := slice_size_of_liesAt hm hfirst
    have hstarts : (c :: tail).head?.any Member.startsName := by
      simp [Member.startsName, hstart]
    obtain ⟨n, hsize⟩ : ∃ n, m.size = n + 1 := ⟨m.size - 1, by
      have := lt_size_of_has ((has_of_liesAt hm hword Slot.isCode).trans rfl)
      omega⟩
    have hadd : Member.Modifiers.add? ⟨false, false, false⟩ "async" = some ⟨false, true, false⟩ := rfl
    rw [hsize, Member.modifiersFrom, bind_of_eq_ok hend, bind_of_eq_ok hslice, htrivia, hadd]
    dsimp only
    rw [if_pos (by change i + 5 < i + 6; omega), bind_of_eq_ok hrest, if_pos hstarts]
    exact f.modifiersFrom_name hm hnext _ _

theorem exists_head : ∃ c rest, f.head = c :: rest ∧ Character.isIdentStart c := by
  unfold head
  split
  · exact ⟨'a', "sync " ++ f.name, rfl, rfl⟩
  · exact f.exists_name

theorem name_liesAt (h : LiesAt ps i (f.head.asCode ++ ('(', .code) :: rs)) :
    LiesAt ps (f.nameStart i) (f.name.asCode ++ ('(', .code) :: rs) ∧
      f.nameStart i + f.name.size = i + f.head.size := by
  unfold nameStart
  unfold head at h ⊢
  split
  · rename_i hasync
    rw [if_pos hasync, Text.asCode_append, List.append_assoc] at h
    exact ⟨h.right, by rw [Text.size_append, Nat.add_assoc]; rfl⟩
  · rename_i hasync
    rw [if_neg hasync] at h
    exact ⟨h, rfl⟩

theorem isCodeChar_nameStart (hm : m.Shows ps)
    (h : LiesAt ps i (f.name.asCode ++ ('(', .code) :: rs)) (d : Char)
    (hd : Character.isIdentStart d = false) : m.isCodeChar i d = false := by
  obtain ⟨c, rest, hname, hstart⟩ := f.exists_name
  rw [hname] at h
  rw [isCodeChar_of_liesAt hm h, beq_eq_false_iff_ne]
  rintro rfl
  rw [hstart] at hd
  cases hd

theorem painted_eq : f.painted = f.head.asCode ++ (('(', .code) :: kinds f.params.text ++
    [(')', .code)] ++ (' ', .code) :: (('\x7b', .code) :: kinds f.body.text ++ [('\x7d', Kind.code)])) := by
  simp [painted]

/-- The places of the parts of a printed function. -/
structure Placed (ps : List (Char × Kind)) (i : Nat) : Prop where
  hhead : ∃ rs, LiesAt ps i (f.head.asCode ++ ('(', .code) :: rs)
  hparams : LiesAt ps (i + f.head.size) (('(', .code) :: kinds f.params.text ++ [(')', .code)])
  hgap : ∃ rs, LiesAt ps (i + f.head.size + 1 + f.params.text.size + 1)
    ((' ', .code) :: ('\x7b', .code) :: rs)
  hbody : LiesAt ps (i + f.head.size + 1 + f.params.text.size + 2)
    (('\x7b', .code) :: kinds f.body.text ++ [('\x7d', Kind.code)])

theorem placed (h : LiesAt ps i f.painted) : f.Placed ps i := by
  rw [painted_eq] at h
  have hrest := h.right
  rw [width_asCode] at hrest
  have hgap := hrest.right
  have hwidth : i + f.head.size + width (('(', .code) :: kinds f.params.text ++ [(')', .code)]) =
      i + f.head.size + 1 + f.params.text.size + 1 := by
    rw [width_wrap rfl rfl, width_kinds]
    omega
  rw [hwidth] at hgap
  have hbody := LiesAt.tail hgap
  exact ⟨⟨_, h⟩, hrest.left, ⟨_, hgap⟩, hbody⟩

theorem width_painted : width f.painted = f.head.size + f.params.text.size + f.body.text.size + 5 := by
  have hspace : (' ' : Char).utf8Size = 1 := rfl
  rw [painted_eq, width_append, width_append, Slot.width_cons, width_wrap rfl rfl,
    width_wrap rfl rfl, width_kinds, width_kinds, width_asCode, hspace]
  omega

theorem closing?_of_matching {o c : Nat} (h : m.matching o = some c) (hc : c < stop) :
    Member.closing? m o stop = some c := by
  rw [Member.closing?, h, Option.filter_some, if_pos (by simpa using hc)]

theorem paramsAndBlock?_eq (hm : m.Shows ps) (h : f.Placed ps i)
    (hstop : i + width f.painted ≤ stop) :
    Member.paramsAndBlock? m (i + f.head.size) stop = some (f.paramsSpan i, f.bodySpan i) := by
  have hparams := matching_of_liesAt hm h.hparams rfl rfl f.params.balanced
  have hbody := matching_of_liesAt hm h.hbody rfl rfl f.body.balanced
  obtain ⟨rs, hgap⟩ := h.hgap
  rw [width_kinds] at hparams hbody
  rw [width_painted] at hstop
  have hblock : m.skipTrivia (i + f.head.size + 1 + f.params.text.size + 1) stop =
      i + f.head.size + 1 + f.params.text.size + 2 := skipTrivia_of_space hm hgap rfl (by omega)
  have hbrace : m.isCodeChar (i + f.head.size + 1 + f.params.text.size + 2) '\x7b' :=
    isCodeChar_of_liesAt hm h.hbody '\x7b'
  have hclose : i + f.head.size + 1 + f.params.text.size < stop := by omega
  have hblockClose : i + f.head.size + 1 + f.params.text.size + 2 + 1 + f.body.text.size < stop := by
    omega
  simp only [Member.paramsAndBlock?, closing?_of_matching hparams hclose, Option.bind_eq_bind,
    Option.bind_some, hblock, hbrace, guard, if_true, closing?_of_matching hbody hblockClose]
  rfl

theorem read_eq (hm : m.Shows ps) (h : LiesAt ps i f.painted)
    (hstop : i + width f.painted ≤ stop) :
    Member.read m i stop = .ok (.member (f.member i) (i + width f.painted)) := by
  have hplaced := f.placed h
  obtain ⟨rs, hhead⟩ := hplaced.hhead
  have hheadStop : i + f.head.size ≤ stop := by
    rw [width_painted] at hstop
    omega
  have hmods := f.modifiersFrom_head hm hhead hheadStop
  obtain ⟨hname, hnameEnd⟩ := f.name_liesAt hhead
  obtain ⟨hend, hslice⟩ := identEnd_of_liesAt hm hname f.isIdentifier rfl
  have hopening : m.skipTrivia (f.nameStart i + f.name.size) stop = i + f.head.size := by
    rw [hnameEnd]
    exact skipTrivia_of_liesAt hm hplaced.hparams rfl stop
  have hparen : m.isCodeChar (i + f.head.size) '(' := isCodeChar_of_liesAt hm hplaced.hparams '('
  have hnonempty : (f.nameStart i + f.name.size == f.nameStart i) = false := by
    obtain ⟨c, rest, hc, -⟩ := f.exists_name
    have := c.utf8Size_pos
    rw [hc, Text.size_cons, beq_eq_false_iff_ne]
    omega
  unfold Member.read
  rw [bind_of_eq_ok hmods]
  simp only [f.isCodeChar_nameStart hm hname '*' rfl, f.isCodeChar_nameStart hm hname '#' rfl,
    Bool.false_eq_true, if_false]
  rw [bind_of_eq_ok hend, hnonempty, if_neg Bool.false_ne_true, bind_of_eq_ok hslice, hopening,
    if_pos hparen, f.paramsAndBlock?_eq hm hplaced hstop, width_painted]
  dsimp only [member, bodySpan, paramsSpan, pure, Except.pure]
  congr 2
  omega

/-- The members that functions are read as which are printed on the lines behind position `i`. -/
def members : List FunctionSource → Nat → List Member
  | [], _ => []
  | f :: fs, i => f.member (i + 3) :: members fs (i + 3 + width f.painted)

omit f in
theorem width_paintedLines_cons (f : FunctionSource) (fs : List FunctionSource) :
    width (paintedLines (f :: fs)) = width f.painted + 3 + width (paintedLines fs) := by
  have hwidth : width (paintedLines (f :: fs)) =
      2 + width f.painted + 1 + width (paintedLines fs) := by
    simp only [paintedLines, List.flatMap_cons, width_append, width_asCode]
    rfl
  omega

omit f in
theorem length_le_width (fs : List FunctionSource) : fs.length ≤ width (paintedLines fs) := by
  induction fs with
  | nil => exact Nat.zero_le _
  | cons f fs ih =>
    rw [width_paintedLines_cons, List.length_cons]
    omega

omit f in
/-- What stands on the lines behind position `i`, and the brace behind them. -/
theorem lines_cons {f : FunctionSource} {fs : List FunctionSource}
    (h : LiesAt ps i (asCode "\n" ++ paintedLines (f :: fs) ++ [('\x7d', Kind.code)])) :
    LiesAt ps i (asCode "\n  " ++ (f.painted ++
      (asCode "\n" ++ paintedLines fs ++ [('\x7d', Kind.code)]))) := by
  simpa [paintedLines] using h

omit f in
theorem listFrom_eq (hm : m.Shows ps) {fs : List FunctionSource} {count : Nat}
    (h : LiesAt ps i (asCode "\n" ++ paintedLines fs ++ [('\x7d', Kind.code)]))
    (hstop : stop = i + 1 + width (paintedLines fs)) (hcount : fs.length < count) :
    Member.listFrom m stop count i = .ok ⟨members fs i, []⟩ := by
  induction fs generalizing i count with
  | nil =>
    obtain ⟨count, rfl⟩ := Nat.exists_eq_succ_of_ne_zero (Nat.ne_of_gt hcount)
    have hstart : Member.skipSeparators m i stop = i + 1 :=
      skipSeparators_of_liesAt hm "\n" h rfl rfl (le_of_eq hstop.symm)
    have hend : stop ≤ i + 1 := le_of_eq hstop
    rw [Member.listFrom, hstart, if_pos hend]
    rfl
  | cons f fs ih =>
    obtain ⟨count, rfl⟩ := Nat.exists_eq_succ_of_ne_zero (Nat.ne_of_gt (Nat.zero_lt_of_lt hcount))
    have hplace := lines_cons h
    have hmember : LiesAt ps (i + 3) (f.painted ++
        (asCode "\n" ++ paintedLines fs ++ [('\x7d', Kind.code)])) := hplace.right
    have hwidth : stop = i + 3 + width f.painted + 1 + width (paintedLines fs) := by
      rw [width_paintedLines_cons] at hstop
      omega
    obtain ⟨c, rest, hhead, hc⟩ := f.exists_head
    have hpainted : ∃ qs, f.painted = (c, .code) :: qs := by
      rw [painted_eq, hhead]
      exact ⟨_, rfl⟩
    obtain ⟨qs, hqs⟩ := hpainted
    have hstart : Member.skipSeparators m i stop = i + 3 := by
      rw [hqs] at hplace
      exact skipSeparators_of_liesAt hm "\n  " hplace rfl (not_separator hc)
        (show i + 3 ≤ stop by omega)
    have hread := f.read_eq hm hmember.left (show i + 3 + width f.painted ≤ stop by omega)
    rw [Member.listFrom, hstart, if_neg (by omega), bind_of_eq_ok hread]
    dsimp only
    rw [bind_of_eq_ok (ih hmember.right hwidth (by simpa using hcount))]
    rfl

theorem body_liesAt (h : LiesAt ps i f.painted) :
    LiesAt ps (f.bodySpan i).start (kinds f.body.text) :=
  (LiesAt.tail (f.placed h).hbody).left

theorem cut_body (hm : m.Shows ps) (h : LiesAt ps i f.painted) :
    Snippet.cut m (f.bodySpan i).start (f.bodySpan i).stop =
      .ok ⟨f.body.text, Span.clamp (f.bodySpan i)⟩ := by
  have hcut := cut_of_liesAt hm (f.body_liesAt h)
  rwa [width_kinds, kinds_chars] at hcut

theorem slice_params (hm : m.Shows ps) (h : LiesAt ps i f.painted) :
    m.slice (f.paramsSpan i).start (f.paramsSpan i).stop = .ok f.params.text := by
  have hslice := slice_of_painted hm (LiesAt.tail (f.placed h).hparams).left
  rwa [width_kinds, kinds_chars] at hslice

end FunctionSource

namespace MethodSource

variable {m : CodeMap} {ps : Painted} {i : Nat} (src : MethodSource)

/-- The method has the name and the modifier, and its parts are the texts that were printed. -/
structure Gives (method : Method) : Prop where
  name : method.name = src.name
  params : method.params = src.params.text.trim
  isAsync : method.isAsync = src.isAsync
  form : method.form = .block
  body : method.body.text = src.body.text

/-- The method that a source printed at position `i` is put to use as. -/
def method (i : Nat) : Method :=
  ⟨src.name, src.params.text.trim, src.isAsync, .block,
    ⟨src.body.text, Span.clamp (src.bodySpan i)⟩⟩

theorem add_eq (hm : m.Shows ps) (h : LiesAt ps i src.painted) (receivers : List Text)
    (found : Findings) : Findings.add m receivers found (src.member i) =
      .ok { found with methods := found.methods ++ [src.method i] } := by
  have hfree := src.isFree
  simp only [reservedNames, List.mem_cons, not_or] at hfree
  obtain ⟨hconstructor, hrender, hmount, hunmount, hunsupported⟩ := hfree
  have hrange : i ≤ (src.bodySpan i).stop + 1 := by
    simp only [FunctionSource.bodySpan, FunctionSource.paramsSpan]
    omega
  have hcallback : Lifecycle.ofCallback? src.name = none := by
    rw [Lifecycle.ofCallback?, if_neg hmount, if_neg hunmount]
  unfold Findings.add
  rw [FunctionSource.member, bind_of_eq_ok (reported_eq hrange)]
  dsimp only
  rw [if_neg (by simpa using hunsupported), if_neg Bool.false_ne_true,
    Findings.addFunction, if_neg (by simpa using hconstructor),
    if_neg (by simpa using hrender), hcallback]
  dsimp only [Findings.addMethod, Body.range]
  rw [bind_of_eq_ok (src.slice_params hm h), bind_of_eq_ok (src.cut_body hm h)]
  rfl

theorem gives_method : src.Gives (src.method i) := ⟨rfl, rfl, rfl, rfl, rfl⟩

end MethodSource

namespace ClassSource

variable {m : CodeMap} {ps : Painted} {i : Nat} (s : ClassSource)

/-- The render method printed at position `i`, as it is found. -/
def renderParts (i : Nat) : FunctionParts :=
  ⟨false, s.render.paramsSpan i, .block (s.render.bodySpan i)⟩

theorem add_render (receivers : List Text) {found : Findings}
    (hfound : found.render = none) : Findings.add m receivers found (s.render.member i) =
      .ok { found with render := some (s.renderParts i) } := by
  have hrange : i ≤ (s.render.bodySpan i).stop + 1 := by
    simp only [FunctionSource.bodySpan, FunctionSource.paramsSpan]
    omega
  have hsupported : Component.unsupportedCallbacks.contains s.render.name = false := rfl
  have hconstructor : (s.render.name == ("constructor" : Text)) = false := rfl
  have hrender : (s.render.name == ("render" : Text)) := rfl
  unfold Findings.add
  rw [FunctionSource.member, bind_of_eq_ok (reported_eq hrange)]
  dsimp only
  rw [hsupported, Findings.addFunction, hfound]
  rfl

/-- The methods are gathered in order, and then the render method is found. -/
theorem foldlM_add (hm : m.Shows ps) (receivers : List Text) (sources : List MethodSource)
    {found : Findings} (hfound : found.render = none)
    (h : LiesAt ps i (asCode "\n" ++ FunctionSource.paintedLines
      (sources.map (·.toFunctionSource) ++ [s.render]) ++ [('\x7d', Kind.code)])) :
    ∃ methods j, List.Forall₂ MethodSource.Gives sources methods ∧
      LiesAt ps j s.render.painted ∧
      (FunctionSource.members (sources.map (·.toFunctionSource) ++ [s.render]) i).foldlM
        (Findings.add m receivers) found =
        .ok { found with methods := found.methods ++ methods, render := some (s.renderParts j) } := by
  induction sources generalizing i found with
  | nil =>
    have hplace := FunctionSource.lines_cons h
    refine ⟨[], i + 3, .nil, hplace.right.left, ?_⟩
    change Findings.add m receivers found (s.render.member (i + 3)) >>= _ = _
    rw [bind_of_eq_ok (s.add_render receivers hfound), List.append_nil]
    rfl
  | cons src sources ih =>
    have hplace := FunctionSource.lines_cons h
    have hmember : LiesAt ps (i + 3) src.painted := hplace.right.left
    have hnext : ({ found with
      methods := found.methods ++ [src.method (i + 3)] } : Findings).render = none := hfound
    obtain ⟨methods, j, hgives, hrender, hfold⟩ := ih hnext hplace.right.right
    refine ⟨src.method (i + 3) :: methods, j, .cons (src.gives_method) hgives, hrender, ?_⟩
    change Findings.add m receivers found (src.member (i + 3)) >>= _ = _
    rw [bind_of_eq_ok (src.add_eq hm hmember receivers found)]
    refine hfold.trans ?_
    simp

end ClassSource

namespace ClassSource

variable {m : CodeMap} {ps : Painted} {b : Nat} (s : ClassSource)

/-- Where the last return stands in a render body printed at position `b`. -/
def returnAt (b : Nat) : Nat := b + s.prelude.text.size + 5

/-- Where a render body printed at position `b` ends. -/
def renderStop (b : Nat) : Nat := s.returnAt b + s.template.text.size + 13

theorem renderStop_eq : s.renderStop b = b + width s.paintedRender := by
  have hwidth : width s.paintedRender = s.prelude.text.size + 12 + (1 + s.template.text.size) + 5 := by
    simp only [paintedRender, width_append, Slot.width_cons, width_kinds, width_asCode]
    rfl
  rw [renderStop, returnAt]
  omega

theorem width_prelude :
    b + width (kinds s.prelude.text ++ asCode "\n    ") = s.returnAt b := by
  rw [width_append, width_kinds]
  exact (Nat.add_assoc _ _ _).symm

/-- The places of the parts of a printed render body. -/
structure RenderPlaced (ps : List (Char × Kind)) (b : Nat) : Prop where
  hprelude : LiesAt ps b (kinds s.prelude.text ++ asCode "\n    ")
  hreturn : ∃ rs, LiesAt ps (s.returnAt b) (asCode "return (" ++ rs)
  htemplate : LiesAt ps (s.returnAt b + 7)
    (('(', .code) :: kinds s.template.text ++ [(')', .code)])
  hend : LiesAt ps (s.returnAt b + s.template.text.size + 9) (asCode ";\n  ")

/-- No return stands where one of its first two characters is missing. -/
theorem not_stands_return {i : Nat} {c : Char}
    (h : m.charAt? i = some c ∧ c ≠ 'r' ∨ m.charAt? (i + 1) = some c ∧ c ≠ 'e') :
    m.stands i "return" = false := by
  have hspells : m.spells "return" i = false := by
    change (m.charAt? i == some 'r' && (m.charAt? (i + 1) == some 'e' && _)) = false
    rcases h with ⟨h, hc⟩ | ⟨h, hc⟩
    · simp [h, hc]
    · simp [h, hc]
  rw [stands, hspells]
  rfl

section

variable (hm : m.Shows ps) (h : s.RenderPlaced ps b)
include hm h

theorem stands_return :
    m.stands (s.returnAt b) "return" := by
  obtain ⟨rs, hreturn⟩ := h.hreturn
  have hspells : m.spells "return" (s.returnAt b) := by
    have hword : LiesAt ps (s.returnAt b) (asCode "return" ++ (asCode " (" ++ rs)) :=
      hreturn
    exact spells_of_slice hm (slice_of_painted hm hword.left)
  have hbefore : m.charBefore? (s.returnAt b) = some ' ' := by
    have hglue := h.hprelude.right
    rw [width_kinds, ← List.append_nil (asCode _)] at hglue
    have hspace : m.charAt? (b + s.prelude.text.size + 4) = some ' ' :=
      charAt?_of_glue hm hglue (List.all_iff_forall_prop.mp (by decide)) rfl
    exact charBefore?_of_charAt? hm hspace
  have hafter : m.charAt? (s.returnAt b + size "return") = some ' ' :=
    charAt?_of_glue hm hreturn (List.all_iff_forall_prop.mp (by decide)) rfl
  rw [stands, hspells, hbefore, hafter]
  rfl

/-- Behind the first character of the return no other return starts, up to the template. -/
theorem not_stands_in_return {n : Nat} (hn : n < 6) :
    m.stands (s.returnAt b + 1 + n) "return" = false := by
  obtain ⟨rs, hreturn⟩ := h.hreturn
  obtain ⟨c, hc, hne⟩ : ∃ c, ("return (" : Text)[n + 2]? = some c ∧ c ≠ 'e' := by
    interval_cases n <;> exact ⟨_, rfl, by decide⟩
  have hat := charAt?_of_glue hm hreturn (List.all_iff_forall_prop.mp (by decide)) hc
  refine not_stands_return (.inr ⟨?_, hne⟩)
  rwa [show s.returnAt b + 1 + n + 1 = s.returnAt b + (n + 2) by omega]

theorem not_stands_in_end {n : Nat} (hn : n < 4) :
    m.stands (s.returnAt b + s.template.text.size + 9 + n) "return" = false := by
  obtain ⟨c, hc, hne⟩ : ∃ c, (";\n  " : Text)[n]? = some c ∧ c ≠ 'r' := by
    interval_cases n <;> exact ⟨_, rfl, by decide⟩
  have hend := h.hend
  have hat := charAt?_of_glue hm hend (List.all_iff_forall_prop.mp (by decide)) hc
  exact not_stands_return (.inl ⟨hat, hne⟩)

theorem outerFrom_return :
    m.outerFrom (fun j => m.isCode j && m.stands j "return") (s.template.text.size + 13) 0
      (s.returnAt b) = [s.returnAt b] := by
  obtain ⟨rs, hreturn⟩ := h.hreturn
  have hfound : (m.isCode (s.returnAt b) && m.stands (s.returnAt b) "return") := by
    rw [s.stands_return hm h, isCode, has_of_liesAt hm hreturn]
    rfl
  have hend := h.hend
  rw [← List.append_nil (asCode _)] at hend
  have hcount : s.template.text.size + 13 = 6 + 1 + (width (kinds s.template.text) + 2 + (4 + 0)) := by
    rw [width_kinds]
    omega
  have hendAt : s.returnAt b + 7 + s.template.text.size + 2 =
      s.returnAt b + s.template.text.size + 9 := by
    omega
  have hnone : m.outerFrom (fun j => m.isCode j && m.stands j "return") (4 + 0) 0
      (s.returnAt b + s.template.text.size + 9) = [] := by
    refine (outerFrom_of_glue hm hend (List.all_iff_forall_prop.mp (by decide))
      (fun n hn => ?_) 0).trans rfl
    rw [s.not_stands_in_end hm h hn, Bool.and_false]
  rw [hcount]
  have hword : LiesAt ps (s.returnAt b)
      (asCode ('r' :: ['e', 't', 'u', 'r', 'n', ' ']) ++ ('(', .code) :: rs) := hreturn
  refine (outerFrom_of_first hm hword (List.all_iff_forall_prop.mp (by decide)) hfound
    (fun n hn => ?_) _).trans ?_
  · rw [s.not_stands_in_return hm h hn, Bool.and_false]
  · change _ :: m.outerFrom _ _ 0 (s.returnAt b + 7) = _
    rw [outerFrom_of_liesAt hm h.htemplate rfl rfl s.template.balanced, width_kinds, hendAt, hnone]

/-- The return is the last one outside brackets. -/
theorem last_return :
    ((m.outer m.isCode b (s.renderStop b)).filter (m.stands · "return")).getLast? =
      some (s.returnAt b) := by
  have hglue : Balanced (asCode "\n    ") := rfl
  have hbefore := walks_of_liesAt hm h.hprelude (s.prelude.balanced.append hglue)
  rw [s.width_prelude] at hbefore
  have hcount : s.renderStop b - b = s.returnAt b - b + (s.template.text.size + 13) := by
    have := hbefore.le
    unfold renderStop
    omega
  rw [outer, filter_outerFrom, hcount, outerFrom_append hbefore, s.outerFrom_return hm h,
    List.getLast?_concat]

end

theorem renderPlaced (h : LiesAt ps b s.paintedRender) : s.RenderPlaced ps b := by
  have hsplit : s.paintedRender = (kinds s.prelude.text ++ asCode "\n    ") ++
      (asCode "return " ++ ((('(', .code) :: kinds s.template.text ++ [(')', .code)]) ++
        asCode ";\n  ")) := by
    simp [paintedRender]
  rw [hsplit] at h
  have hreturn := s.width_prelude ▸ h.right
  have htemplate : LiesAt ps (s.returnAt b + 7) _ := hreturn.right
  have hend := htemplate.right
  rw [width_wrap rfl rfl, width_kinds] at hend
  have hendAt : s.returnAt b + 7 + (s.template.text.size + 2) =
      s.returnAt b + s.template.text.size + 9 := by
    omega
  rw [hendAt] at hend
  exact ⟨h.left, ⟨_, hreturn⟩, htemplate.left, hend⟩

theorem findTop_semicolon (hm : m.Shows ps) (h : s.RenderPlaced ps b) :
    m.findTop (s.returnAt b + 7) (s.renderStop b) ';' =
      some (s.returnAt b + s.template.text.size + 9) := by
  have hcount : s.renderStop b - (s.returnAt b + 7) = width (kinds s.template.text) + 2 + (3 + 1) := by
    rw [width_kinds, renderStop]
    omega
  have hsemicolon : m.isCodeChar (s.returnAt b + s.template.text.size + 9) ';' :=
    isCodeChar_of_liesAt hm h.hend ';'
  have hendAt : s.returnAt b + 7 + s.template.text.size + 2 =
      s.returnAt b + s.template.text.size + 9 := by
    omega
  rw [findTop, firstOuter?, firstOuterFrom?_eq_head?, hcount,
    outerFrom_of_liesAt hm h.htemplate rfl rfl s.template.balanced, width_kinds, hendAt,
    outerFrom_other ((has_of_liesAt hm h.hend _).trans rfl) ((has_of_liesAt hm h.hend _).trans rfl),
    hsemicolon]
  rfl

theorem trimTrivia_template (hm : m.Shows ps) (h : s.RenderPlaced ps b) :
    m.trimTrivia (s.returnAt b + 7) (s.returnAt b + s.template.text.size + 9) =
      s.returnAt b + s.template.text.size + 9 := by
  have hclose := (LiesAt.tail h.htemplate).right
  rw [width_kinds] at hclose
  have hend : s.returnAt b + s.template.text.size + 9 =
      s.returnAt b + 7 + '('.utf8Size + s.template.text.size + 1 := by
    have : '('.utf8Size = 1 := rfl
    omega
  rw [hend]
  exact trimTrivia_of_liesAt hm hclose rfl _

theorem splitRender_eq (hm : m.Shows ps) (h : LiesAt ps b s.paintedRender) :
    splitRender m (.block ⟨b, s.renderStop b⟩) =
      .ok (⟨s.prelude.text ++ "\n    ", Span.clamp ⟨b, s.returnAt b⟩⟩,
        ⟨s.template.text,
          Span.clamp ⟨s.returnAt b + 8, s.returnAt b + 8 + s.template.text.size⟩⟩) := by
  have hplaced := s.renderPlaced h
  obtain ⟨rs, hreturn⟩ := hplaced.hreturn
  have hstart : m.skipTrivia (s.returnAt b + size "return") (s.renderStop b) =
      s.returnAt b + 7 := by
    have hword : LiesAt ps (s.returnAt b) (asCode "return" ++ (asCode " (" ++ rs)) :=
      hreturn
    refine skipTrivia_of_space hm hword.right rfl ?_
    change s.returnAt b + 6 < s.renderStop b
    unfold renderStop
    omega
  have hmarkup : m.isCodeChar (s.returnAt b + 7) '<' = false :=
    isCodeChar_of_liesAt hm hplaced.htemplate '<'
  have hparen : m.isCodeChar (s.returnAt b + 7) '(' := isCodeChar_of_liesAt hm hplaced.htemplate '('
  have hlast : s.returnAt b + s.template.text.size + 9 - 1 =
      s.returnAt b + 7 + 1 + width (kinds s.template.text) := by
    rw [width_kinds]
    omega
  have hmatch : m.matching (s.returnAt b + 7) =
      some (s.returnAt b + s.template.text.size + 9 - 1) := by
    rw [hlast]
    exact matching_of_liesAt hm hplaced.htemplate rfl rfl s.template.balanced
  have hprelude := cut_of_liesAt hm hplaced.hprelude
  have htemplate := cut_of_liesAt hm (LiesAt.tail hplaced.htemplate).left
  rw [s.width_prelude, List.map_append, kinds_chars] at hprelude
  rw [kinds_chars, width_kinds] at htemplate
  have hunwrap : Failure.check (unwrapParens m (s.returnAt b + 7)
      (s.returnAt b + s.template.text.size + 9)) = .ok ⟨s.template.text,
        Span.clamp ⟨s.returnAt b + 8, s.returnAt b + 8 + s.template.text.size⟩⟩ := by
    rw [unwrapParens, hparen, hmatch, if_pos (by simp), hlast, width_kinds]
    exact congrArg Failure.check htemplate
  have hreturns : Failure.check (m.keywords b (s.renderStop b) "return") =
      .ok ((m.outer m.isCode b (s.renderStop b)).filter (m.stands · "return")) := by
    rw [keywords_eq hm (by decide)]
    rfl
  unfold splitRender
  dsimp only
  rw [bind_of_eq_ok hreturns, s.last_return hm hplaced]
  dsimp only
  rw [hstart, hmarkup, if_neg Bool.false_ne_true, s.findTop_semicolon hm hplaced, Option.getD_some,
    s.trimTrivia_template hm hplaced, if_neg (by omega), hprelude]
  change Failure.check (unwrapParens m (s.returnAt b + 7) _) >>= _ = _
  rw [bind_of_eq_ok hunwrap]
  rfl

end ClassSource

end Declass
