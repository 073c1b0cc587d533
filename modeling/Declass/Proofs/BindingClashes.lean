import Declass.Proofs.Diagnostics
import Declass.Proofs.StateBindings

/-!
# Names that are bound twice

**Input.** A class component that is converted.  The function binds its parameter, each state entry
and its setter, and each method.

**Algorithm.** `boundNames` lists these names, and `Separate` says which of them must not meet for
the list to be free of repetitions.  Warnings are followed through the conversion to the place where
they are raised, by the name that they say is declared more than once.

**Results.** `bindings_distinct_iff`: the names are distinct exactly if they are `Separate`, and a
warning names a clash only where the clashing name is a key that the state initializer itself
declares again.
-/

namespace Declass

open CodeMap
open Character (upper)

/-- The parameter of the function. -/
def parameter : Text := "props"

/-- What the function binds: its parameter, the state entries, their setters and the methods. -/
def boundNames (states methods : List Text) : List Text :=
  parameter :: (states ++ states.map setterName ++ methods)

/-- No two of the names that the function binds meet. -/
structure Separate (states methods : List Text) : Prop where
  parameter_free : parameter ∉ states ∧ parameter ∉ methods
  methods_nodup : methods.Nodup
  states_free : ∀ n ∈ states, n ∉ methods
  setters_free : ∀ n ∈ states, setterName n ∉ states ∧ setterName n ∉ methods
  setters_distinct : ∀ a ∈ states, ∀ b ∈ states, setterName a = setterName b → a = b

/-- The names differ in the case of their first character only. -/
def CaseTwins (a b : Text) : Prop :=
  ∃ c d rest, a = c :: rest ∧ b = d :: rest ∧ c ≠ d ∧ upper c = upper d

theorem exists_setterName (n : Text) : ∃ rest : Text, setterName n = "set" ++ rest := by
  cases n with
  | nil => exact ⟨[], rfl⟩
  | cons c rest => exact ⟨upper c ++ rest, List.append_assoc _ _ _⟩

theorem setterName_ne_parameter (n : Text) : setterName n ≠ parameter := by
  obtain ⟨rest, h⟩ := exists_setterName n
  rw [h]
  intro heq
  cases heq

theorem setterName_ne_callback (n : Text) (callback : Lifecycle) :
    setterName n ≠ callback.callback := by
  obtain ⟨rest, h⟩ := exists_setterName n
  rw [h]
  intro heq
  cases callback <;> cases heq

/-- The upper case of the first character has not one character but several. -/
def Expands (n : Text) : Prop := ∃ c rest, n = c :: rest ∧ (upper c).length ≠ 1

/-- Different names with the same setter are case twins, unless the upper case of a first character
has several characters. -/
theorem setterName_collision {a b : Text} (ha : a.isIdentifier) (hb : b.isIdentifier)
    (hne : a ≠ b) (h : setterName a = setterName b) : CaseTwins a b ∨ Expands a ∨ Expands b := by
  cases a with
  | nil => cases ha
  | cons c rest =>
    cases b with
    | nil => cases hb
    | cons d rest' =>
      by_cases hc : (upper c).length = 1
      · by_cases hd : (upper d).length = 1
        · have hset : ("set" : Text) ++ (upper c ++ rest) =
              ("set" : Text) ++ (upper d ++ rest') := by
            simpa [setterName] using h
          obtain ⟨hupper, rfl⟩ := List.append_inj (List.append_cancel_left hset) (hc.trans hd.symm)
          exact .inl ⟨c, d, rest, rfl, rfl, fun heq => hne (by rw [heq]), hupper⟩
        · exact .inr (.inr ⟨d, rest', rfl, hd⟩)
      · exact .inr (.inl ⟨c, rest, rfl, hc⟩)

/-- The bound names are distinct exactly if they are separate. -/
theorem nodup_boundNames_iff {states methods : List Text} (h : states.Nodup) :
    (boundNames states methods).Nodup ↔ Separate states methods := by
  have hsetters : (states.map setterName).Nodup ↔
      ∀ a ∈ states, ∀ b ∈ states, setterName a = setterName b → a = b := List.nodup_map_iff_inj_on h
  unfold boundNames
  simp only [List.nodup_cons, List.nodup_append, List.mem_append, List.mem_map, hsetters]
  constructor
  · rintro ⟨hprops, ⟨-, hdistinct, hstates⟩, hmethods, hboth⟩
    refine ⟨⟨fun hmem => hprops (.inl (.inl hmem)), fun hmem => hprops (.inr hmem)⟩, hmethods,
      fun n hn hmem => hboth n (.inl hn) n hmem rfl, fun n hn => ⟨fun hmem => ?_, fun hmem => ?_⟩,
      hdistinct⟩
    · exact hstates (setterName n) hmem (setterName n) ⟨n, hn, rfl⟩ rfl
    · exact hboth (setterName n) (.inr ⟨n, hn, rfl⟩) (setterName n) hmem rfl
  · rintro ⟨⟨hprops, hprops'⟩, hmethods, hstates, hsetter, hdistinct⟩
    refine ⟨?_, ⟨h, hdistinct, ?_⟩, hmethods, ?_⟩
    · rintro ((hmem | ⟨n, -, heq⟩) | hmem)
      · exact hprops hmem
      · exact setterName_ne_parameter n heq
      · exact hprops' hmem
    · rintro a ha b ⟨n, hn, rfl⟩ rfl
      exact (hsetter n hn).1 ha
    · rintro a (ha | ⟨n, hn, rfl⟩) b hb rfl
      · exact hstates a ha hb
      · exact (hsetter n hn).2 hb

section Warnings

variable {n : Text}

namespace Resolver

/-- No warning says of a name that it is declared more than once. -/
def Log.Unrepeated (log : Log) : Prop := ∀ w ∈ log.warnings, w.notice.repeated? = none

variable {r : Resolver} {nested : Nested} {m : CodeMap} {t : Text} {base i : Nat}
  {log log' : Log} {e : Edit}

theorem Log.Unrepeated.warn {notice : Notice} {start stop : Nat} (hlog : log.Unrepeated)
    (hnotice : notice.repeated? = none) (h : log.warn notice start stop = .ok log') :
    log'.Unrepeated := by
  intro w hw
  rw [Log.warn_warnings h] at hw
  rcases List.mem_append.mp hw with hw | hw
  · exact hlog w hw
  · obtain rfl := List.mem_singleton.mp hw
    exact hnotice

theorem Log.Unrepeated.flatten {receiver member : Text} {start stop : Nat} (hlog : log.Unrepeated)
    (h : log.flatten receiver member start stop = .ok log') : log'.Unrepeated := by
  unfold Log.flatten at h
  split at h
  · cases h
    exact hlog
  · obtain ⟨warned, hwarned, h⟩ := bind_eq_ok h
    cases h
    exact fun w hw => hlog.warn rfl hwarned w hw

/-- Resolving a reference reports no repetition, and nested texts report none either. -/
theorem ResolvesTo.unrepeated {w : Text}
    (hnested : ∀ u base log p, Log.Unrepeated log → nested u base log = .ok p → p.2.Unrepeated)
    (h : r.ResolvesTo nested m base w i log e log') (hlog : log.Unrepeated) : log'.Unrepeated := by
  cases h with
  | read _ => exact hlog
  | set _ _ harg => exact hnested _ _ _ _ hlog harg
  | kept _ _ _ hwarn => exact hlog.warn rfl hwarn
  | flattened _ _ _ _ _ hflatten => exact hlog.flatten hflatten
  | bare _ _ _ _ _ => exact hlog

theorem Resolves.unrepeated {ps : Painted} (hm : m.Shows ps)
    (hnested : ∀ u base log p, Log.Unrepeated log → nested u base log = .ok p → p.2.Unrepeated)
    {edits : List Edit} (h : r.Resolves nested m base log edits log') (hlog : log.Unrepeated) :
    log'.Unrepeated := by
  induction h with
  | nil => exact hlog
  | cons _ hhere _ ih => exact ih ((reference_cases hm hhere).unrepeated hnested hlog)

theorem resolveNested_unrepeated (depth : Nat) : ∀ u base log p, Log.Unrepeated log →
    r.resolveNested depth u base log = .ok p → p.2.Unrepeated := by
  induction depth with
  | zero =>
    intro u base log p hlog h
    cases h
    exact hlog
  | succ depth ih =>
    intro u base log p hlog h
    obtain ⟨⟨edits, log'⟩, hedits, h⟩ := bind_eq_ok h
    obtain ⟨out, -, h⟩ := bind_eq_ok h
    cases h
    exact (resolves_of_editsFrom hedits).unrepeated (Scan.ofText_shows u) ih hlog

theorem resolve_unrepeated {resolved : Resolved} (h : r.resolve t base = .ok resolved) :
    ∀ w ∈ resolved.warnings, w.notice.repeated? = none := by
  obtain ⟨⟨text, log⟩, hnested, h⟩ := bind_eq_ok h
  cases h
  exact resolveNested_unrepeated _ t base Log.empty _ (fun w hw => absurd hw List.not_mem_nil)
    hnested

end Resolver

namespace Component

variable {receivers : List Text}

theorem ofCallback?_callback (callback : Lifecycle) :
    Lifecycle.ofCallback? callback.callback = some callback := by
  cases callback <;> decide

/-- What an extraction says is declared more than once is a callback, and no method is one. -/
theorem extract_plain {t : Text} {c : Component} (h : extract t receivers = .ok c) :
    (∀ w ∈ c.warnings, ∀ n, w.notice.repeated? = some n →
      ∃ callback : Lifecycle, n = callback.callback) ∧
    ∀ method ∈ c.methods, ∀ callback : Lifecycle, method.name ≠ callback.callback := by
  obtain ⟨header, body, found, render, pieces, hx, rfl⟩ := extract_iff.mp h
  refine ⟨fun w hw n hn => ?_, fun method hmethod callback heq => ?_⟩
  · cases hx.reported w hw with
    | lost hwhole h =>
      rw [(Warning.about_yields _ hwhole.le).of_eq h] at hn
      cases hn
    | member _ hdrops =>
      cases hdrops with
      | again _ _ => exact ⟨_, (Option.some.inj hn).symm⟩
      | _ => cases hn
    | statement hdropped hw =>
      obtain ⟨line, hline⟩ := droppedStatements_notice hdropped w hw
      rw [hline] at hn
      cases hn
  · have hnone : ∀ method ∈ found.methods, Lifecycle.ofCallback? method.name = none := by
      refine hx.induction (P := fun f => ∀ method ∈ f.methods,
        Lifecycle.ofCallback? method.name = none) (fun _ _ _ => nofun) fun _ hadds hf => ?_
      cases hadds with
      | method _ hname _ _ _ hmember =>
        refine List.forall_mem_append.mpr ⟨hf, List.forall_mem_singleton.mpr ?_⟩
        rw [hname]
        exact eq_of_beq (Bool.and_eq_true_iff.mp hmember).2
      | callback => simpa using hf
      | _ => exact hf
    have hcallback := hnone method hmethod
    rw [heq, ofCallback?_callback] at hcallback
    cases hcallback

end Component

end Warnings

namespace Conversion

section Reports

variable {c : Component} {receivers : List Text} {p : Parts}

theorem resolveOption_unrepeated {r : Resolver} {s : Option Snippet}
    {out : Option Text × List Warning} (h : resolveOption r s = .ok out) :
    ∀ w ∈ out.2, w.notice.repeated? = none := by
  cases s with
  | none =>
    cases h
    exact fun w hw => absurd hw List.not_mem_nil
  | some s =>
    obtain ⟨resolved, hresolved, h⟩ := bind_eq_ok h
    cases h
    exact Resolver.resolve_unrepeated hresolved

/-- What a conversion says is declared more than once is a callback, or a key that the initializer
declares again. -/
theorem Parts.From.repeated (hp : p.From c receivers)
    (hc : ∀ w ∈ c.warnings, ∀ n, w.notice.repeated? = some n →
      ∃ callback : Lifecycle, n = callback.callback)
    {w : Warning} (hw : w ∈ (p.conversion c).warnings) {n : Text}
    (hn : w.notice.repeated? = some n) : (∃ callback : Lifecycle, n = callback.callback) ∨
      n ∈ StateModel.repeatsAfter [] (StateModel.declaredKeys c.state) := by
  have hnone : ¬ w.notice.repeated? = none := by
    rw [hn]
    simp
  have hmem := mem_of_reportOnce hw
  simp only [warnings, List.mem_append, List.mem_flatMap] at hmem
  rcases hmem with ((((((hmem | hmem) | ⟨out, hout, hmem⟩) | hmem) | hmem) | ⟨out, hout, hmem⟩) |
    hmem) | hmem
  · exact .inl (hc w hmem n hn)
  · rw [← (StateModel.build_keyed hp.model).repeats]
    exact .inr (List.mem_filterMap.mpr ⟨w, hmem, hn⟩)
  · obtain ⟨entry, -, hresolve⟩ := exists_of_mapM hp.values hout
    exact absurd (Resolver.resolve_unrepeated hresolve w hmem) hnone
  · exact absurd (resolveOption_unrepeated hp.setup w hmem) hnone
  · exact absurd (resolveOption_unrepeated hp.cleanup w hmem) hnone
  · obtain ⟨method, -, hresolve⟩ := exists_of_mapM hp.bodies hout
    exact absurd (Resolver.resolve_unrepeated hresolve w hmem) hnone
  · exact absurd (Resolver.resolve_unrepeated hp.prelude w hmem) hnone
  · exact absurd (Resolver.resolve_unrepeated hp.template w hmem) hnone

theorem Parts.From.reports_repeats (hp : p.From c receivers) {n : Text}
    (hn : n ∈ StateModel.repeatsAfter [] (StateModel.declaredKeys c.state)) :
    ∃ w ∈ (p.conversion c).warnings, w.notice.repeated? = some n := by
  rw [← (StateModel.build_keyed hp.model).repeats] at hn
  obtain ⟨w, hw, hname⟩ := List.mem_filterMap.mp hn
  have hflat : w.notice.isFlattening = false := by
    cases hnotice : w.notice with
    | memberFlattened _ _ =>
      rw [hnotice] at hname
      cases hname
    | _ => rfl
  refine ⟨w, mem_reportOnce hflat ?_, hname⟩
  simp only [warnings, List.mem_append]
  exact .inl (.inl (.inl (.inl (.inl (.inl (.inr hw))))))

theorem count_callback {states methods : List Text} (hstates : states.Nodup)
    {callback : Lifecycle} (hmethods : callback.callback ∉ methods) :
    (boundNames states methods).count callback.callback ≤ 1 := by
  have hparameter : parameter ≠ callback.callback := by
    cases callback <;> decide
  have hsetters : callback.callback ∉ states.map setterName := by
    intro hmem
    obtain ⟨n, -, heq⟩ := List.mem_map.mp hmem
    exact setterName_ne_callback n callback heq
  rw [boundNames, List.count_cons_of_ne hparameter, List.count_append, List.count_append,
    List.count_eq_zero_of_not_mem hsetters, List.count_eq_zero_of_not_mem hmethods]
  exact List.nodup_iff_count_le_one.mp hstates _

theorem exists_mem_zip {α β : Type} {l : List α} {l' : List β} (hlength : l.length = l'.length)
    {a : α} (h : a ∈ l) : ∃ b, (a, b) ∈ l.zip l' := by
  rw [← List.map_fst_zip (le_of_eq hlength)] at h
  obtain ⟨⟨a', b⟩, hmem, rfl⟩ := List.mem_map.mp h
  exact ⟨b, hmem⟩

theorem Parts.From.state_infix (hp : p.From c receivers) {n : Text}
    (hn : n ∈ p.model.entries.map (·.name)) :
    ∃ value, stateLine n value <:+: (p.conversion c).code := by
  obtain ⟨entry, hentry, rfl⟩ := List.mem_map.mp hn
  obtain ⟨value, hpair⟩ := exists_mem_zip (rebinds_of_mapM hp.values).1 hentry
  obtain ⟨pre, post, hzip⟩ := List.append_of_mem hpair
  have hsection : (p.model.entries.zip p.values).flatMap (fun q =>
      stateLine q.1.name q.2.text) ∈ p.sections c := by
    have hne : p.model.entries.isEmpty = false := by
      rw [List.isEmpty_eq_false_iff]
      exact List.ne_nil_of_mem hentry
    simp [sections, hne]
  refine ⟨value.text, List.IsInfix.trans ?_ (Parts.infix_code hsection)⟩
  rw [hzip, List.flatMap_append]
  exact ⟨_, _, List.append_assoc _ _ _⟩

end Reports

/-- The names that the function binds are distinct exactly if no entry or method is called like the
parameter, methods differ from each other and from the entries, and no setter is an entry, a method
or the setter of another entry.  No warning is about a clash: one that says of a name that it is
declared more than once is about a key of the initializer, so a clash is named by a warning only if
the clashing name is also a key that the initializer declares again. -/
theorem bindings_distinct_iff {t : Text} {receivers : List Text} {conv : Conversion}
    (h : convert t receivers = .ok conv) :
    ∃ (c : Component) (names methods : List Text),
      Component.extract t receivers = .ok c ∧ methods = c.methods.map (·.name) ∧
      names = (StateModel.declaredKeys c.state).eraseDups ∧
      (∀ n ∈ names, ∃ value, stateLine n value <:+: conv.code) ∧
      (∀ method ∈ c.methods, ∃ body, methodSection method body <:+: conv.code) ∧
      ((boundNames names methods).Nodup ↔ Separate names methods) ∧
      (∀ a ∈ names, ∀ b ∈ names, a ≠ b → setterName a = setterName b →
        CaseTwins a b ∨ Expands a ∨ Expands b) ∧
      ((∀ n, 2 ≤ (boundNames names methods).count n →
          ∃ w ∈ conv.warnings, w.notice.repeated? = some n) ↔
        ∀ n, 2 ≤ (boundNames names methods).count n →
          n ∈ StateModel.repeatsAfter [] (StateModel.declaredKeys c.state)) := by
  obtain ⟨c, hextract, h⟩ := bind_eq_ok h
  obtain ⟨p, hp, rfl⟩ := assemble_iff.mp (check_eq_ok h)
  have hnames := (StateModel.build_keyed hp.model).names
  have hnodup : (p.model.entries.map (·.name)).Nodup := hnames ▸ StateModel.nodup_eraseDups _
  have hlies := (Component.extract_faultless t receivers).of_eq hextract
  have hnamed : ∀ n ∈ (p.resolver c receivers).states, n.isIdentifier = true :=
    Parts.states_isIdentifier
      ((StateModel.build_yields (Scan.ofText_shows t) hlies.state).of_eq hp.model)
  obtain ⟨hwarnings, hmethods⟩ := Component.extract_plain hextract
  refine ⟨c, p.model.entries.map (·.name), c.methods.map (·.name), hextract, rfl, hnames,
    fun n hn => hp.state_infix hn, fun method hmethod => ?_, nodup_boundNames_iff hnodup,
    fun a ha b hb hne hsetter => ?_, fun hall n hn => ?_, fun hall n hn => ?_⟩
  · obtain ⟨body, hpair⟩ := exists_mem_zip (rebinds_of_mapM hp.bodies).1 hmethod
    exact ⟨body.text, Parts.method_infix hpair⟩
  · exact setterName_collision (hnamed a ha) (hnamed b hb) hne hsetter
  · obtain ⟨w, hw, hname⟩ := hall n hn
    rcases hp.repeated hwarnings hw hname with ⟨callback, rfl⟩ | hrepeat
    · have hmethod : callback.callback ∉ c.methods.map (·.name) := by
        intro hmem
        obtain ⟨method, hmethod, heq⟩ := List.mem_map.mp hmem
        exact hmethods method hmethod callback heq
      have hcount := count_callback hnodup hmethod
      omega
    · exact hrepeat
  · exact hp.reports_repeats (hall n hn)

/-- Two entries and a method that do not meet. -/
theorem bindings_distinct_rebinding :
    ∃ conv, convert rebindingSource ["s"] = .ok conv ∧
      (∃ value, stateLine "b" value <:+: conv.code) ∧ Separate ["a", "b"] ["f"] := by
  obtain ⟨c, names, methods, hextract, rfl, hnames, hstates, -, hiff, -, -⟩ :=
    bindings_distinct_iff convert_rebinding
  obtain rfl := Except.ok.inj (extract_rebinding.symm.trans hextract)
  obtain rfl := hnames.trans declaredKeys_rebinding
  exact ⟨_, convert_rebinding, hstates "b" (by decide), hiff.mp (by decide)⟩

/-- A class with a method that is called like the setter of its state entry. -/
def clashingSource : Text :=
  "class A extends Component{state={open:1};setOpen(){}render(){return 0}}"

/-- The component. -/
def clashingComponent : Component where
  name := "A"
  state := some ⟨"{open:1}", ⟨32, 40⟩⟩
  mount := none
  unmount := none
  methods := [⟨"setOpen", "", false, .block, ⟨"", ⟨51, 51⟩⟩⟩]
  prelude := ⟨"", ⟨61, 61⟩⟩
  template := ⟨"0", ⟨68, 69⟩⟩
  warnings := []

/-- The module that it is converted to. -/
def clashingModule : Text :=
  "import React, \x7b useState \x7d from 'react';\n\nfunction A(props) \x7b
  const [open, setOpen] = useState(1);\n\n  const setOpen = () => \x7b\x7d;\n
  return (\n    0\n  );\n\x7d\n\nexport default A;\n"

theorem extract_clashing :
    Component.extract clashingSource ["this"] = .ok clashingComponent := by
  decide +kernel

/-- The function declares the setter twice, and nothing is reported. -/
theorem setter_clash_unreported :
    Component.extract clashingSource ["this"] = .ok clashingComponent ∧
      convert clashingSource ["this"] = .ok ⟨clashingModule, []⟩ ∧
      ¬ (boundNames ["open"] ["setOpen"]).Nodup := by
  refine ⟨extract_clashing, ?_, by decide⟩
  unfold convert
  rw [extract_clashing]
  decide +kernel

end Conversion

end Declass
