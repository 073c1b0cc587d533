import Declass.Proofs.Locality
import Declass.Proofs.PrintedMembers

/-!
# Extraction undoes printing

**Input.** A class component given by its parts, which is printed and extracted again.

**Results.** `ClassSource.extract_print`: the extraction gives back the name, the methods in order,
and the two parts of the render method, and warns about nothing.
-/

namespace Declass

open Scan CodeMap
open Slot (width)
open Character (inRanges isAsciiIdent isSpace isWord)
open Component (classBody? declaration findDeclaration? findings)

namespace Matcher

theorem seq_cons_of_eq {m : Matcher} {ms : List Matcher} {c e : Cursor} (h : m c = [e]) :
    seq (m :: ms) c = seq ms e := by
  simp [seq, h]

theorem seq_singleton (m : Matcher) (c : Cursor) : seq [m] c = m c := by
  simp [seq]

theorem spaces1_of_space {c : Char} (hc : isSpace c = false) (b : Option Char) (off : Nat)
    (rest : Text) : spaces1 ⟨b, off, ' ' :: c :: rest⟩ = [⟨some ' ', off + 1, c :: rest⟩] := by
  have hone : one isSpace ⟨b, off, ' ' :: c :: rest⟩ = [⟨some ' ', off + 1, c :: rest⟩] := rfl
  have hspaces : spaces ⟨some ' ', off + 1, c :: rest⟩ = [⟨some ' ', off + 1, c :: rest⟩] := by
    rw [spaces, many, runEnds, hc]
    rfl
  rw [spaces1, seq_cons_of_eq hone, seq_cons_of_eq hspaces]
  rfl

theorem runEnds_of_all {p : Char → Bool} {w rest : Text} {x : Char} (hw : ∀ c ∈ w, p c)
    (hx : p x = false) (shorter : List Cursor) (b : Option Char) (off : Nat) :
    ∃ last others, runEnds p shorter b off (w ++ x :: rest) =
      ⟨last, off + w.size, x :: rest⟩ :: others := by
  induction w generalizing shorter b off with
  | nil =>
    rw [List.nil_append, runEnds, hx]
    exact ⟨b, shorter, rfl⟩
  | cons c w ih =>
    rw [List.cons_append, runEnds, if_pos (hw c (by simp)), Text.size_cons, ← Nat.add_assoc]
    exact ih (fun d hd => hw d (by simp [hd])) _ _ _

end Matcher

namespace ClassSource

open Matcher

variable (s : ClassSource)

/-- Where the declaration of the class ends. -/
def declarationStop : Nat := 6 + s.name.size + 18

theorem exists_className : ∃ c rest, s.name = c :: rest ∧
    (c.isAlpha || c == '_' || c == '$') ∧ ∀ d ∈ rest, isAsciiIdent d := by
  have h := s.isName
  cases hname : s.name with
  | nil =>
    rw [hname] at h
    cases h
  | cons c rest =>
    rw [hname, Text.isClassName, Bool.and_eq_true] at h
    exact ⟨c, rest, rfl, h.1, List.all_eq_true.mp h.2⟩

theorem not_isSpace_of_start {c : Char} (h : (c.isAlpha || c == '_' || c == '$')) :
    isSpace c = false := by
  simp only [Bool.or_eq_true, beq_iff_eq] at h
  rcases h with (h | rfl) | rfl
  · have hrange := Text.toNat_of_isAlpha h
    have hnone : ∀ n < 123, 65 ≤ n → inRanges Character.spaceRanges n = false := by
      decide
    exact hnone c.toNat (by omega) hrange.1
  · rfl
  · rfl

theorem isWord_of_isAsciiIdent {c : Char} (h : isAsciiIdent c) : (isWord c || c == '$') := by
  simp only [isAsciiIdent, Bool.or_eq_true, beq_iff_eq] at h
  rcases h with (h | rfl) | rfl
  · simp [isWord, Text.toNat_lt_of_isAlphanum h, h]
  · rfl
  · rfl

theorem before_declaration {c : Char} (hc : isSpace c = false) (rest : Text) :
    declaration.before ⟨none, 0, "class " ++ c :: rest⟩ = [⟨some ' ', 6, c :: rest⟩] := by
  have hedge : edge ⟨none, 0, "class " ++ c :: rest⟩ = [⟨none, 0, "class " ++ c :: rest⟩] := rfl
  have hword : word "class" ⟨none, 0, "class " ++ c :: rest⟩ = [⟨some 's', 5, ' ' :: c :: rest⟩] :=
    rfl
  unfold declaration
  dsimp only
  rw [seq_cons_of_eq hedge, seq_cons_of_eq hword, seq_cons_of_eq (spaces1_of_space hc _ _ _)]
  rfl

/-- What comes behind the brace plays no role for the end of the declaration. -/
theorem after_declaration (b : Option Char) (off : Nat) (rest : Text) :
    ∃ e, declaration.after ⟨b, off, " extends Component \x7b" ++ rest⟩ = [e] ∧
      e.offset = off + 18 := by
  have hclosed : ∀ b ∈ [some 'a', some '$'],
      declaration.after ⟨b, 0, " extends Component \x7b"⟩ =
        [⟨some 't', 18, " \x7b"⟩] := by
    decide
  obtain ⟨b', hb', hword⟩ : ∃ b' ∈ [some 'a', some '$'], b'.any isWord = b.any isWord := by
    cases hb : b.any isWord with
    | true => exact ⟨some 'a', by simp, by decide⟩
    | false => exact ⟨some '$', by simp, by decide⟩
  have hbrace : (" extends Component \x7b" : Text) = " extends Component " ++ ['\x7b'] := by
    decide
  have htwin : Cursor.Twin '\x7b' [] rest off ⟨b', 0, " extends Component \x7b"⟩
      ⟨b, off, " extends Component \x7b" ++ rest⟩ :=
    ⟨hword, rfl, _, hbrace, (congrArg (· ++ rest) hbrace).trans (List.append_assoc _ _ _)⟩
  have hall := (Component.declaration_local (.inr rfl) [] rest off).after _ _ htwin
  rw [hclosed b' hb'] at hall
  generalize declaration.after _ = ends at hall ⊢
  cases hall with
  | cons hend hrest =>
    cases hrest
    exact ⟨_, rfl, hend.offset⟩

theorem group_declaration (tail : Text) :
    ∃ last others, declaration.group ⟨some ' ', 6, s.name ++ ' ' :: tail⟩ =
      ⟨last, 6 + s.name.size, ' ' :: tail⟩ :: others := by
  obtain ⟨c, name, hname, hfirst, hpart⟩ := s.exists_className
  obtain ⟨last, others, hruns⟩ := runEnds_of_all
    (fun d hd => isWord_of_isAsciiIdent (hpart d hd)) (x := ' ') rfl [] (some c) (6 + c.utf8Size)
  refine ⟨last, others, ?_⟩
  have hone : one (fun c => c.isAlpha || c == '_' || c == '$')
      ⟨some ' ', 6, c :: (name ++ ' ' :: tail)⟩ =
        [⟨some c, 6 + c.utf8Size, name ++ ' ' :: tail⟩] := by
    rw [one]
    dsimp only
    rw [if_pos hfirst]
  rw [hname, Text.size_cons, ← Nat.add_assoc]
  change Matcher.name _ = _
  rw [Matcher.name, List.cons_append, seq_cons_of_eq hone, seq_singleton]
  exact hruns

theorem matchAt_of_after {tail : Text} (hafter : ∀ b off, ∃ e,
      declaration.after ⟨b, off, ' ' :: tail⟩ = [e] ∧ e.offset = off + 18) :
    declaration.matchAt ⟨none, 0, "class " ++ (s.name ++ ' ' :: tail)⟩ =
      some ⟨0, s.declarationStop, s.name⟩ := by
  obtain ⟨last, others, hgroup⟩ := s.group_declaration tail
  obtain ⟨e, hend, hoffset⟩ := hafter last (6 + s.name.size)
  have hbefore : declaration.before ⟨none, 0, "class " ++ (s.name ++ ' ' :: tail)⟩ =
      [⟨some ' ', 6, s.name ++ ' ' :: tail⟩] := by
    obtain ⟨c, name, hname, hfirst, -⟩ := s.exists_className
    rw [hname]
    exact before_declaration (not_isSpace_of_start hfirst) _
  have htake : (s.name ++ ' ' :: tail).take ((s.name ++ ' ' :: tail).length - (' ' :: tail).length) =
      s.name := by
    rw [List.length_append, Nat.add_sub_cancel, List.take_left]
  rw [Pattern.matchAt, hbefore, List.flatMap_singleton, hgroup, List.flatMap_cons, hend,
    List.map_singleton, htake, hoffset]
  rfl

theorem matchAt_declaration (rest : Text) : declaration.matchAt ⟨none, 0, s.header ++ rest⟩ =
      some ⟨0, s.declarationStop, s.name⟩ := by
  have htext : s.header ++ rest =
      "class " ++ (s.name ++ ' ' :: ("extends Component \x7b" ++ rest)) :=
    (List.append_assoc _ _ _).trans (List.append_assoc _ _ _)
  rw [htext]
  exact s.matchAt_of_after fun b off => after_declaration b off rest

theorem occurrences_of_matchAt {p : Pattern} {t : Text} {found : Match} (ht : t ≠ [])
    (h : p.matchAt ⟨none, 0, t⟩ = some found) : ∃ others, p.occurrences t = found :: others := by
  obtain ⟨c, rest, rfl⟩ := List.exists_cons_of_ne_nil ht
  rw [Pattern.occurrences, Pattern.matchesFrom, h]
  exact ⟨_, rfl⟩

/-- What stands in the class body. -/
def paintedBody : List (Char × Kind) :=
  Text.asCode "\n" ++ FunctionSource.paintedLines s.functions

theorem class_liesAt : Slot.LiesAt (kinds s.print) s.declarationStop
    ((' ', .code) :: (('\x7b', .code) :: s.paintedBody ++ [('\x7d', Kind.code)])) := by
  have hassoc : ∀ (a b n l : Painted) (x y : Char × Kind),
      a ++ b ++ n ++ l ++ [x, y] = a ++ (b ++ ((n ++ l) ++ [x])) ++ [y] := by
    simp
  have hheader : s.header.asCode =
      Text.asCode ("class " ++ s.name ++ " extends Component") ++ Text.asCode " \x7b" := by
    have hassoc : ∀ u v w x : Text, u ++ v ++ (w ++ x) = u ++ v ++ w ++ x := by
      simp
    rw [← Text.asCode_append]
    exact congrArg Text.asCode (hassoc "class " s.name " extends Component" " \x7b")
  refine ⟨Text.asCode ("class " ++ s.name ++ " extends Component"), [('\n', .code)], ?_, ?_⟩
  · rw [kinds_print, hheader]
    exact hassoc _ (Text.asCode " \x7b") _ _ ('\x7d', .code) ('\n', .code)
  · rw [Text.width_asCode, Text.size_append, Text.size_append]
    rfl

theorem findDeclaration?_print :
    findDeclaration? (ofText s.print) s.print = some ⟨0, s.declarationStop, s.name⟩ := by
  have hassoc : ∀ u v w x : Text, u ++ v ++ w ++ x = u ++ (v ++ w ++ x) := by
    simp
  have hprint := s.print_eq.trans (hassoc _ _ _ _)
  have hmatch := s.matchAt_declaration ("\n" ++ s.functions.flatMap FunctionSource.print ++ "\x7d\n")
  have hstart : s.print ≠ [] := by
    nofun
  rw [← hprint] at hmatch
  obtain ⟨others, hall⟩ := occurrences_of_matchAt hstart hmatch
  obtain ⟨qs, hqs⟩ : ∃ qs, kinds s.print = ('c', .code) :: qs := ⟨_, s.kinds_print⟩
  have hplace : Slot.LiesAt (kinds s.print) 0 (('c', .code) :: qs) := ⟨[], [], by simp [hqs], rfl⟩
  have hcode : (ofText s.print).isCode 0 := has_of_liesAt (ofText_shows s.print) hplace Slot.isCode
  rw [findDeclaration?, hall]
  exact List.find?_cons_of_pos hcode

/-- The class body is found behind the first brace. -/
theorem classBody?_print : classBody? (ofText s.print) ⟨0, s.declarationStop, s.name⟩ =
      some ⟨s.declarationStop + 2, s.declarationStop + 2 + width s.paintedBody⟩ := by
  have hm := ofText_shows s.print
  have hspace := s.class_liesAt
  have hbraces : Slot.LiesAt (kinds s.print) (s.declarationStop + 1) _ := Slot.LiesAt.tail hspace
  have hbalanced : Balanced s.paintedBody :=
    Balanced.append rfl (FunctionSource.paintedLines_balanced s.functions)
  have hmatch := matching_of_liesAt hm hbraces rfl rfl hbalanced
  have hopen : (ofText s.print).findCode s.declarationStop (ofText s.print).size "\x7b" =
      some (s.declarationStop + 1) := by
    have hlt := lt_size_of_has ((has_of_liesAt hm hbraces Slot.isCode).trans rfl)
    obtain ⟨n, hn⟩ : ∃ n, min (ofText s.print).size (ofText s.print).size + 1 - 1 -
        s.declarationStop = n + 2 := ⟨(ofText s.print).size - s.declarationStop - 2, by omega⟩
    have hcode : (ofText s.print).isCode (s.declarationStop + 1) :=
      has_of_liesAt hm hbraces Slot.isCode
    have hspells : ∀ i, (ofText s.print).spells "\x7b" i =
        ((ofText s.print).charAt? i == some '\x7b' && true) := fun _ => rfl
    change findCodeFrom _ _ (_ + 1 - 1 - _) _ = _
    rw [hn, findCodeFrom, hspells, charAt?_of_liesAt hm hspace, if_neg (by simp), findCodeFrom,
      hspells, charAt?_of_liesAt hm hbraces, hcode]
    rfl
  rw [classBody?, hopen, Option.map_some, hmatch]
  rfl

theorem findings_print (receivers : List Text) :
    ∃ literals methods j, findings (ofText s.print) receivers (s.declarationStop + 2)
        (s.declarationStop + 2 + width s.paintedBody) =
          .ok ⟨literals, none, none, methods, some (s.renderParts j), []⟩ ∧
      List.Forall₂ MethodSource.Gives s.methods methods ∧
      Slot.LiesAt (kinds s.print) j s.render.painted := by
  have hm := ofText_shows s.print
  have hinside : Slot.LiesAt (kinds s.print) (s.declarationStop + 2) _ :=
    Slot.LiesAt.tail (Slot.LiesAt.tail s.class_liesAt)
  have hwhole := (Component.classBody?_spec hm s.classBody?_print).1
  obtain ⟨assigned, hassigned, -⟩ := Component.assignedState_yields hm receivers hwhole
  have hwidth : width s.paintedBody = 1 + width (FunctionSource.paintedLines s.functions) := by
    rfl
  have hlength := FunctionSource.length_le_width s.functions
  have hsize := isBoundary_le hm hwhole.right
  have hlist : Member.list (ofText s.print) (s.declarationStop + 2)
      (s.declarationStop + 2 + width s.paintedBody) =
        .ok ⟨FunctionSource.members s.functions (s.declarationStop + 2), []⟩ :=
    FunctionSource.listFrom_eq hm hinside (by omega) (by dsimp only at hsize; omega)
  have hfirst : Component.Findings.render ⟨assigned, none, none, [], none, []⟩ = none := rfl
  obtain ⟨methods, j, hgives, hrender, hfold⟩ := s.foldlM_add hm receivers s.methods hfirst hinside
  refine ⟨assigned, methods, j, ?_, hgives, hrender⟩
  rw [findings, bind_of_eq_ok hlist, bind_of_eq_ok hassigned]
  exact hfold

/-- Extraction undoes printing. -/
theorem extract_print (receivers : List Text) :
    ∃ c, Component.extract s.print receivers = .ok c ∧ c.name = s.name ∧
      List.Forall₂ MethodSource.Gives s.methods c.methods ∧ c.mount = none ∧ c.unmount = none ∧
      c.prelude.text = s.prelude.text ++ "\n    " ∧ c.template.text = s.template.text ∧
      c.warnings = [] := by
  obtain ⟨literals, methods, j, hfound, hgives, hrender⟩ := s.findings_print receivers
  have hbody : Slot.LiesAt (kinds s.print) (s.render.bodySpan j).start s.paintedRender := by
    rw [← s.kinds_renderBody]
    exact s.render.body_liesAt hrender
  have hstop : s.renderStop (s.render.bodySpan j).start = (s.render.bodySpan j).stop := by
    rw [renderStop_eq, ← s.kinds_renderBody, width_kinds]
    rfl
  have hpieces := s.splitRender_eq (ofText_shows s.print) hbody
  rw [hstop] at hpieces
  exact ⟨_, Component.extract_iff.mpr ⟨_, _, _, _, _,
    ⟨s.findDeclaration?_print, s.classBody?_print, hfound, rfl, hpieces⟩, rfl⟩,
    rfl, hgives, rfl, rfl, rfl, rfl, rfl⟩

/-- A class whose fragments have brackets and words of a class in strings, comments, a template
literal and markup. -/
def cart : ClassSource where
  name := "Cart_1"
  methods :=
    [⟨⟨"load", true, ⟨" id, p = \x7b\x7d ", by decide, rfl⟩,
        ⟨"\n    await get(`/c/$\x7bid + '\x7d'\x7d`); // )\n  ", by decide +kernel, rfl⟩, rfl⟩,
      by decide⟩,
    ⟨⟨"label", false, ⟨"", by decide, rfl⟩,
        ⟨" return <b title=\"]\">\x7b/* \x7b */ this.n\x7d</b>; ", by decide +kernel, rfl⟩, rfl⟩,
      by decide⟩]
  prelude := ⟨"const s = 'return (';", by decide +kernel, rfl⟩
  template := ⟨"<ul>\x7bxs.map(x => <li>\x7bx\x7d)</li>)\x7d</ul>", by decide +kernel, rfl⟩
  isName := rfl

/-- All its parts are found again. -/
theorem extract_print_cart :
    cart.print = "class Cart_1 extends Component \x7b\n"
      ++ "  async load( id, p = \x7b\x7d ) \x7b\n    await get(`/c/$\x7bid + '\x7d'\x7d`); // )\n  \x7d\n"
      ++ "  label() \x7b return <b title=\"]\">\x7b/* \x7b */ this.n\x7d</b>; \x7d\n"
      ++ "  render() \x7bconst s = 'return (';\n"
      ++ "    return (<ul>\x7bxs.map(x => <li>\x7bx\x7d)</li>)\x7d</ul>);\n  \x7d\n\x7d\n" ∧
    ∃ c load label, Component.extract cart.print ["this"] = .ok c ∧ c.name = "Cart_1" ∧
      c.methods = [load, label] ∧ load.name = "load" ∧ load.isAsync = true ∧
      load.params = "id, p = \x7b\x7d" ∧
      load.body.text = "\n    await get(`/c/$\x7bid + '\x7d'\x7d`); // )\n  " ∧
      label.name = "label" ∧ label.isAsync = false ∧ label.params = "" ∧
      label.body.text = " return <b title=\"]\">\x7b/* \x7b */ this.n\x7d</b>; " ∧
      c.prelude.text = "const s = 'return (';\n    " ∧
      c.template.text = "<ul>\x7bxs.map(x => <li>\x7bx\x7d)</li>)\x7d</ul>" := by
  obtain ⟨c, hextract, hname, hmethods, -, -, hprelude, htemplate, -⟩ := cart.extract_print ["this"]
  obtain ⟨load, rest, hload, hrest, hcons⟩ := List.forall₂_cons_left_iff.mp hmethods
  obtain ⟨label, rest, hlabel, hnil, rfl⟩ := List.forall₂_cons_left_iff.mp hrest
  obtain rfl := List.forall₂_nil_left_iff.mp hnil
  exact ⟨by decide +kernel, c, load, label, hextract, hname, hcons, hload.name, hload.isAsync,
    hload.params, hload.body, hlabel.name, hlabel.isAsync, hlabel.params, hlabel.body, hprelude,
    htemplate⟩

end ClassSource

end Declass
