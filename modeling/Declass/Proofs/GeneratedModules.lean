import Declass.Proofs.AsyncMembers
import Declass.Proofs.BatchAccounts
import Declass.Proofs.Relayout
import Declass.Proofs.SectionPlaces

/-!
# Class components in generated modules

**Input.** A class component that is converted.

**Algorithm.** The module is a marked text: its sections with what stands between them.  The names
in it stand behind other keywords than that of a class, and they do not contain white space.

**Results.** `generated_isClass_iff`: a generated module is taken for a class component if and only
if one of the texts that were put into it declares one, and the declaration is code in the module.
Otherwise the module is passed through unchanged.
-/

namespace Declass

open CodeMap

theorem Member.NamedAt.isIdentPart {m : CodeMap} {ps : Painted} (hm : m.Shows ps)
    {stop pos nameEnd next : Nat} {name : Text} (h : NamedAt m stop pos name nameEnd next) :
    ∀ c ∈ name, Character.isIdentPart c := by
  have hboundary := (whole_of_slice hm h.hname).1.left
  obtain ⟨-, pre, rest, -, -, -, hslice⟩ := (identEnd_yields hm hboundary).of_eq h.hend
  obtain rfl := Except.ok.inj (h.hname.symm.trans hslice)
  exact fun c hc => Text.isIdentPart_of_identHead hc

theorem Component.isIdentPart_of_method {t : Text} {receivers : List Text} {c : Component}
    (h : extract t receivers = .ok c) :
    ∀ method ∈ c.methods, ∀ x ∈ method.name, Character.isIdentPart x := by
  obtain ⟨header, body, found, render, pieces, hx, rfl⟩ := extract_iff.mp h
  obtain ⟨listing, hlist, hmethods, -⟩ := hx.bodies
  intro method hmethod
  obtain ⟨i, hi, rfl⟩ := List.getElem_of_mem hmethod
  have hi' : i < (listing.members.filter isMethod).length := by rwa [hmethods.length_eq]
  have hof := hmethods.get hi' hi
  obtain ⟨parts, hkind, -⟩ := hof.parts
  have hmem := (List.mem_filter.mp (List.getElem_mem hi')).1
  obtain ⟨start, next, hread⟩ := Member.read_of_mem_listFrom hlist hmem
  obtain ⟨-, mods, pos, nameEnd, behind, -, hnamed, -⟩ := Member.read_function hread hkind
  rw [List.get_eq_getElem, List.get_eq_getElem] at hof
  rw [hof.name]
  exact hnamed.isIdentPart (Scan.ofText_shows t)

theorem Component.isName_of_extract {t : Text} {receivers : List Text} {c : Component}
    (h : extract t receivers = .ok c) : Declaration.IsName c.name := by
  obtain ⟨header, body, found, render, pieces, hx, rfl⟩ := extract_iff.mp h
  obtain ⟨pre, rest, -, hmatch⟩ :=
    Pattern.exists_of_mem_occurrences (List.mem_of_find?_eq_some hx.hheader)
  obtain ⟨d, post, hd, -, -, -, rfl⟩ := Declaration.exists_of_matchAt hmatch
  exact hd.name

namespace Conversion

open Marked

/-- The sections in front of render, each in its marked texts: the state lines, the effect and the
methods. -/
def Parts.groups (p : Parts) (c : Component) : List (List Marked) :=
  (if p.model.entries.isEmpty then []
    else [(p.model.entries.zip p.values).map fun q => stateMarked q.1.name q.2.text])
    ++ p.effect.toList.map (fun e => [effectMarked e])
    ++ (c.methods.zip p.bodies).map fun q => [methodMarked q.1 q.2.text]

/-- The module with the places of the texts that were put into it. -/
def Parts.marked (p : Parts) (c : Component) : Marked :=
  fixed (importLine (!p.model.entries.isEmpty) p.effect.isSome ++ "\n\nfunction " ++ c.name ++
      "(props) \x7b\n") ++
    (stack ((p.groups c).flatMap (· ++ [fixed "\n"]))
        (renderMarked p.prelude.text p.template.text) ++
      fixed ("\x7d\n\nexport default " ++ c.name ++ ";\n"))

/-- The texts that are put into the module: initial values, bodies of lifecycle callbacks,
parameters and bodies of methods, statements of render, and the template. -/
def Parts.emitted (p : Parts) (c : Component) : List Text :=
  (p.model.entries.zip p.values).map (·.2.text)
    ++ (p.setup.1.toList.map (Layout.reindent · "    ")
      ++ p.cleanup.1.toList.map (Layout.reindent · "      "))
    ++ (c.methods.zip p.bodies).flatMap (fun q => [q.1.params, laidBody q.1.form q.2.text])
    ++ [Layout.reindent p.prelude.text "  ", Layout.alignTemplate p.template.text]

theorem join_append (sep : Text) (l : List Text) {r : List Text} (hr : r ≠ []) :
    Text.join sep (l ++ r) = l.flatMap (· ++ sep) ++ Text.join sep r := by
  induction l with
  | nil => rfl
  | cons t l ih =>
    rw [List.cons_append, Text.join_cons _ _ (by simp [hr]), ih, List.flatMap_cons,
      List.append_assoc _ _ (Text.join sep r)]

theorem Parts.sections_groups (p : Parts) (c : Component) : p.sections c =
    (p.groups c).map (·.flatMap Marked.text) ++
      (preludeSections p.prelude.text ++ [templateSection p.template.text]) := by
  have hstate : (p.model.entries.zip p.values).flatMap (fun q =>
      stateLine q.1.name q.2.text) = ((p.model.entries.zip p.values).map fun q =>
        stateMarked q.1.name q.2.text).flatMap Marked.text := by
    rw [List.flatMap_map]
    exact congrArg (List.flatMap · _) (funext fun q => (text_stateMarked _ _).symm)
  unfold Parts.sections Parts.groups
  rw [hstate, List.append_assoc, List.map_append, List.map_append, List.map_map, List.map_map]
  congr 1
  congr 1
  · congr 1
    · split <;> rfl
    · simp [text_effectMarked]
  · simp [text_methodMarked]

theorem Parts.text_marked (p : Parts) (c : Component) :
    (p.marked c).text = (p.conversion c).code := by
  have hgroups : ((p.groups c).flatMap (· ++ [fixed "\n"])).flatMap Marked.text =
      ((p.groups c).map (·.flatMap Marked.text)).flatMap (· ++ ("\n" : Text)) := by
    rw [List.flatMap_assoc, List.flatMap_map]
    refine congrArg (List.flatMap · _) (funext fun g => ?_)
    rw [List.flatMap_append]
    rfl
  unfold Parts.marked Parts.conversion moduleText
  rw [p.sections_groups, join_append _ _ (by simp), ← text_renderMarked, ← hgroups]
  simp only [text_append, text_fixed, text_stack, List.append_assoc]

theorem Parts.texts_marked (p : Parts) (c : Component) : (p.marked c).texts = p.emitted c := by
  have hgroups : ((p.groups c).flatMap (· ++ [fixed "\n"])).flatMap texts =
      (p.groups c).flatMap (·.flatMap texts) := by
    rw [List.flatMap_assoc]
    refine congrArg (List.flatMap · _) (funext fun g => ?_)
    rw [List.flatMap_append]
    exact List.append_nil _
  have heffect : (p.effect.toList.map fun e => [effectMarked e]).flatMap (·.flatMap texts) =
      p.setup.1.toList.map (Layout.reindent · "    ") ++
        p.cleanup.1.toList.map (Layout.reindent · "      ") := by
    unfold Parts.effect
    cases p.setup.1 <;> cases p.cleanup.1 <;> simp [Effect.ofBodies?, texts_effectMarked]
  unfold Parts.marked Parts.emitted
  rw [texts_append, texts_append, texts_fixed, texts_fixed, texts_stack, hgroups, List.nil_append,
    List.append_nil]
  congr 1
  unfold Parts.groups
  rw [List.flatMap_append, List.flatMap_append]
  congr 1
  · congr 1
    split
    · rename_i hempty
      rw [List.isEmpty_iff.mp hempty]
      rfl
    · rw [List.flatMap_cons, List.flatMap_nil, List.append_nil, List.flatMap_map]
      exact List.map_eq_flatMap.symm
  · rw [List.flatMap_map]
    simp only [List.flatMap_cons, List.flatMap_nil, List.append_nil, texts_methodMarked]

/-- The groups and the line feeds behind them are sound, and none of them is open at its end. -/
theorem Parts.sound_groups {p : Parts} {c : Component}
    (hstates : ∀ entry ∈ p.model.entries, ∀ x ∈ entry.name, Character.isSpace x = false)
    (hmethods : ∀ method ∈ c.methods, ∀ x ∈ method.name, Character.isSpace x = false) :
    ∀ a ∈ (p.groups c).flatMap (· ++ [fixed "\n"]), a.Sound ∧
      (Closes a.text ∨ ∀ x ∈ a.text, Character.isSpace x) := by
  have hgroups : ∀ g ∈ p.groups c, ∀ a ∈ g, a.Sound ∧ Closes a.text := by
    intro g hg a ha
    rcases List.mem_append.mp hg with hg | hg
    · rcases List.mem_append.mp hg with hg | hg
      · split at hg
        · cases hg
        · obtain rfl := List.mem_singleton.mp hg
          obtain ⟨q, hq, rfl⟩ := List.mem_map.mp ha
          exact ⟨sound_stateMarked (hstates _ (List.of_mem_zip hq).1) _, closes_stateMarked _ _⟩
      · obtain ⟨e, -, rfl⟩ := List.mem_map.mp hg
        obtain rfl := List.mem_singleton.mp ha
        exact ⟨sound_effectMarked e, closes_effectMarked e⟩
    · obtain ⟨q, hq, rfl⟩ := List.mem_map.mp hg
      obtain rfl := List.mem_singleton.mp ha
      exact ⟨sound_methodMarked (hmethods _ (List.of_mem_zip hq).1) _, closes_methodMarked _ _⟩
  intro a ha
  obtain ⟨g, hg, ha⟩ := List.mem_flatMap.mp ha
  rcases List.mem_append.mp ha with ha | ha
  · exact ⟨(hgroups g hg a ha).1, .inl (hgroups g hg a ha).2⟩
  · obtain rfl := List.mem_singleton.mp ha
    have hspaces : ∀ x ∈ ("\n" : Text), Character.isSpace x := List.all_eq_true.mp rfl
    exact ⟨sound_fixed (classless_of_spaces hspaces), .inr hspaces⟩

/-- The declarations of a module are those of the texts that were put into it. -/
theorem Parts.sound_marked {t : Text} {receivers : List Text} {c : Component} {p : Parts}
    (hc : Component.extract t receivers = .ok c) (hp : p.From c receivers) :
    (p.marked c).Sound := by
  have hlies := (Component.extract_faultless t receivers).of_eq hc
  have hnamed := (StateModel.build_yields (Scan.ofText_shows t) hlies.state).of_eq hp.model
  have hname := (Component.isName_of_extract hc).isSpace
  have hgroups := Parts.sound_groups (p := p) (c := c)
    (fun entry hentry x hx => Text.isSpace_of_isIdentPart
      (Text.isIdentPart_of_isIdentifier (hnamed entry hentry) x hx))
    (fun method hmethod x hx => Text.isSpace_of_isIdentPart
      (Component.isIdentPart_of_method hc method hmethod x hx))
  have himports : ∀ state effect,
      ¬("class" : Text) <:+: importLine state effect ++ "\n\nfunction " := by
    decide
  have hhead : Classless (importLine (!p.model.entries.isEmpty) p.effect.isSome ++
      "\n\nfunction " ++ c.name ++ "(props) \x7b\n") :=
    (classless_of_keyword (himports _ _) hname).append (classless_of_fixed (by decide))
      (Opens.of_trimmed rfl).apart
  have htail : Classless ("\x7d\n\nexport default " ++ c.name ++ ";\n") :=
    (classless_of_keyword (by decide) hname).append (classless_of_fixed (by decide))
      (Opens.of_trimmed rfl).apart
  have hbehind := (sound_stack hgroups (sound_renderMarked p.prelude.text p.template.text)).append
    (sound_fixed htail) (Opens.of_trimmed rfl).apart
  exact (sound_fixed hhead).append hbehind (Closes.of_trimmed rfl).append.apart

end Conversion

/-- Without fixed modules, what is passed through as no class component is what declares none. -/
theorem transform_unchanged_iff {identifier t : Text} {receivers : List Text} :
    transform identifier t ⟨receivers, false⟩ =
        .ok ⟨t, .passedThrough (.refused .notAClassComponent), []⟩ ↔ Component.isClass t = false := by
  rw [← @convert_notAClassComponent_iff t receivers]
  have hnone : Options.fixedModule? ⟨receivers, false⟩ identifier = none := rfl
  unfold transform
  rw [hnone]
  cases convert t receivers with
  | ok conversion => simp
  | error failure => cases failure <;> simp [Transformed.unchanged]

open Conversion in
/-- A generated module is taken for a class component if and only if a text that was put into it
declares one, in code of the module.  If it is not, it is passed through as it is. -/
theorem generated_isClass_iff {t : Text} {receivers : List Text} {conv : Conversion}
    (h : convert t receivers = .ok conv) :
    ∃ c, ∃ p : Parts, Component.extract t receivers = .ok c ∧ p.From c receivers ∧
      conv = p.conversion c ∧
      ∃ places : List (Nat × Text), places.map Prod.snd = p.emitted c ∧
        (∀ k ∈ places, Text.LiesAt conv.code k.1 k.2) ∧
        (Component.isClass conv.code = true ↔ ∃ k ∈ places, ∃ j, DeclaredAt k.2 j ∧
          (ofText conv.code).isCode (k.1 + j) = true) ∧
        ∀ identifier receivers',
          transform identifier conv.code ⟨receivers', false⟩ =
              .ok ⟨conv.code, .passedThrough (.refused .notAClassComponent), []⟩ ↔
            Component.isClass conv.code = false := by
  obtain ⟨c, hc, h⟩ := bind_eq_ok h
  obtain ⟨p, hp, rfl⟩ := assemble_iff.mp (check_eq_ok h)
  have hsound := Parts.sound_marked hc hp
  have htext := p.text_marked c
  refine ⟨c, p, hc, hp, rfl, (p.marked c).marks, p.texts_marked c, fun k hk => ?_, ?_, ?_⟩
  · exact htext ▸ hsound.lies k hk
  · rw [isClass_iff]
    constructor
    · rintro ⟨i, hdeclared, hcode⟩
      obtain ⟨k, hk, j, rfl, hj⟩ := (hsound.declared i).mp (htext ▸ hdeclared)
      exact ⟨k, hk, j, hj, hcode⟩
    · rintro ⟨k, hk, j, hj, hcode⟩
      exact ⟨k.1 + j, htext ▸ (hsound.declared _).mpr ⟨k, hk, j, rfl, hj⟩, hcode⟩
  · exact fun identifier receivers' => transform_unchanged_iff

/-- A class that renders a string with a declaration in it. -/
def quotingSource : Text :=
  "class A extends Component\x7b" ++ "render()\x7breturn " ++ "'class B extends Component'"
    ++ "\x7d\x7d"

/-- What it is converted to. -/
def quotingModule : Text :=
  "import React from 'react';\n\n" ++ "function A(props) \x7b\n" ++ "  return (\n"
    ++ "    'class B extends Component'\n" ++ "  );\n\x7d\n\n" ++ "export default A;\n"

theorem convert_quoting : convert quotingSource ["this"] = .ok ⟨quotingModule, []⟩ := by
  decide +kernel

/-- A class component is declared in the module, but in none of the texts that were put into it in
code, and the module is passed through as it is. -/
theorem generated_isClass_iff_quoting :
    convert quotingSource ["this"] = .ok ⟨quotingModule, []⟩ ∧ DeclaredAt quotingModule 64 ∧
    (∃ c, ∃ p : Conversion.Parts, p.From c ["this"] ∧ ∃ places : List (Nat × Text),
      places.map Prod.snd = p.emitted c ∧ ∀ k ∈ places, Text.LiesAt quotingModule k.1 k.2 ∧
        ∀ j, DeclaredAt k.2 j → (ofText quotingModule).isCode (k.1 + j) = false) ∧
    ∀ identifier receivers, transform identifier quotingModule ⟨receivers, false⟩ =
      .ok ⟨quotingModule, .passedThrough (.refused .notAClassComponent), []⟩ := by
  have hclass : Component.isClass quotingModule = false := by decide +kernel
  obtain ⟨c, p, -, hp, -, places, htexts, hlies, hiff, hpassed⟩ :=
    generated_isClass_iff convert_quoting
  refine ⟨convert_quoting, ?_, ⟨c, p, hp, places, htexts, fun k hk => ⟨hlies k hk, fun j hj => ?_⟩⟩,
    fun identifier receivers => (hpassed identifier receivers).mpr hclass⟩
  · have hgap : Declaration.IsGap " " := ⟨' ', [], rfl, by simp, rfl⟩
    exact ⟨"import React from 'react';\n\nfunction A(props) \x7b\n  return (\n    '",
      ⟨" ", "B", " ", " ", "Component"⟩, "'\n  );\n\x7d\n\nexport default A;\n",
      ⟨hgap, ⟨'B', [], rfl, by simp, rfl⟩, hgap, hgap, ⟨[], [], .inr rfl, .inr rfl, rfl⟩⟩,
      rfl, rfl, rfl, rfl⟩
  · by_contra hcode
    cases hclass.symm.trans (hiff.mpr ⟨k, hk, j, hj, by simpa using hcode⟩)

/-- A class with a class component inside of render. -/
def innerClassSource : Text :=
  "class A extends Component\x7b" ++ "render()\x7b" ++ "class B extends Component\x7b"
    ++ "render()\x7breturn 1\x7d\x7d" ++ "return 0\x7d\x7d"

/-- What it is converted to. -/
def innerClassModule : Text :=
  "import React from 'react';\n\n" ++ "function A(props) \x7b\n"
    ++ "  class B extends Component\x7b" ++ "render()\x7breturn 1\x7d\x7d\n\n"
    ++ "  return (\n    0\n  );\n\x7d\n\n" ++ "export default A;\n"

/-- What the class inside of render is converted to. -/
def innerModule : Text :=
  "import React from 'react';\n\n" ++ "function B(props) \x7b\n"
    ++ "  return (\n    1\n  );\n\x7d\n\n" ++ "export default B;\n"

/-- The generated module is converted again, and only the class inside of render is left of it. -/
theorem inner_class_converted_again :
    convert innerClassSource ["this"] = .ok ⟨innerClassModule, []⟩ ∧
      Component.isClass innerClassModule = true ∧
      transform "A" innerClassModule ⟨["this"], false⟩ = .ok ⟨innerModule, .converted, []⟩ := by
  refine ⟨?_, ?_, ?_⟩ <;> decide +kernel

end Declass
