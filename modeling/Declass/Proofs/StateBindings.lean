import Declass.Proofs.CommentedLiterals
import Declass.Proofs.ObjectLiterals
import Declass.Proofs.Patches

/-!
# State bindings and their uses

**Input.** A class component that is converted.

**Algorithm.** The declarations come from the keys of the state initializer, and the uses from the
resolver, which runs over the values of the entries, the bodies of the effect and of the methods, the
statements of render and the template.  `Rebinds names` says that a text was made from another by
replacing references, and that all that was written in their place are names of the list and calls
of their setters, down through the arguments of those calls.

**Results.** `state_bindings_agree`: the module declares each key of the initializer once, in order
of first occurrence and with its resolved value, every piece `Rebinds` exactly these names, and the
line of imports names the hooks that are used.  It and the lines that declare state are written out
character by character.
-/

namespace Declass

open CodeMap

mutual

/-- The second text is the first one with references replaced, and what was written in their place
are the given names and calls of their setters. -/
inductive Rebinds (names receivers : List Text) : Text → Text → Prop
  | patches {patches : List Patch} {tail : Text}
      (h : ∀ p ∈ patches, Inserts names receivers p.old p.new) :
      Rebinds names receivers (Patch.before tail patches) (Patch.after tail patches)

/-- What is written in the place of a reference: nothing for a receiver and its dot, the name of a
state read, and for a call of `setState` a call of a setter, whose argument is made from a part of
the arguments. -/
inductive Inserts (names receivers : List Text) : Text → Text → Prop
  | nothing {w : Text} (hw : w ∈ receivers) : Inserts names receivers (w ++ ".") []
  | name {w n : Text} (hw : w ∈ receivers) (hn : n ∈ names) :
      Inserts names receivers (w ++ ".state." ++ n) n
  | setter {w n gap args value arg : Text} {close : Char} (hw : w ∈ receivers) (hn : n ∈ names)
      (hvalue : value <:+: args) (h : Rebinds names receivers value arg) :
      Inserts names receivers (w ++ ".setState" ++ gap ++ "(" ++ args ++ [close])
        (setterName n ++ "(" ++ arg ++ ")")

end

theorem Rebinds.refl (names receivers : List Text) (t : Text) : Rebinds names receivers t t :=
  @Rebinds.patches names receivers [] t (by simp)

/-- Edits that could be made, each of them in a range of whole characters, fit. -/
theorem Edit.fit_of_splice {m : CodeMap} {ps : Painted} (hm : m.Shows ps) {pos : Nat}
    {edits : List Edit} {out : Text} (h : splice m pos edits = .ok out)
    (hw : ∀ e ∈ edits, m.Whole e.range.start e.range.stop) : Fit m pos edits := by
  induction edits generalizing pos out with
  | nil => exact (whole_of_slice hm h).1.left
  | cons e edits ih =>
    obtain ⟨kept, hkept, h⟩ := bind_eq_ok h
    obtain ⟨rest, hrest, -⟩ := bind_eq_ok h
    exact ⟨(whole_of_slice hm hkept).1, hw e (by simp),
      ih hrest fun e' he' => hw e' (by simp [he'])⟩

namespace Resolver

variable {r : Resolver} {m : CodeMap} {ps : Painted} {w : Text} {i : Nat}

theorem slice_of_receiverAt? (hm : m.Shows ps) (h : r.receiverAt? m i = .ok (some w)) :
    w ∈ r.receivers ∧ m.slice i (i + w.size + 1) = .ok (w ++ ".") := by
  have hfirst : ∀ {ws : List Text}, firstReceiver? m i ws = .ok (some w) →
      w ∈ ws ∧ m.wordAt i w = .ok true ∧ m.isCodeChar (i + w.size) '.' := by
    intro ws hws
    induction ws with
    | nil => cases hws
    | cons v ws ih =>
      obtain ⟨stands, hstands, hws⟩ := bind_eq_ok hws
      split at hws
      · rename_i hdot
        obtain rfl : v = w := Option.some.inj (Except.ok.inj hws)
        simp only [Bool.and_eq_true] at hdot
        exact ⟨by simp, hdot.1.1 ▸ hstands, hdot.1.2⟩
      · obtain ⟨hmem, hword⟩ := ih hws
        exact ⟨List.mem_cons_of_mem _ hmem, hword⟩
  unfold receiverAt? at h
  split at h
  · obtain ⟨hmem, hword, hdot⟩ := hfirst h
    unfold wordAt at hword
    split at hword
    · rename_i hspells
      split at hword
      · rename_i hb
        have hslice : m.slice i (i + w.size) = .ok w :=
          (slice_of_liesAt hm ((spells_iff hm hb).mp hspells)).2
        exact ⟨hmem, slice_append hm hslice (slice_codeChar hm hdot rfl)⟩
      · cases hword
    · cases hword
  · cases h

variable {nested : Nested} {t : Text} {base : Nat} {log log' : Log} {e : Edit}

/-- What takes the place of a reference is nothing, a state entry or a call of its setter. -/
theorem inserts_of_reference (hnested : ∀ u base log out log', nested u base log = .ok (out, log') →
      Rebinds r.states r.receivers u out) (hw : r.receiverAt? (ofText t) i = .ok (some w))
    (h : r.reference nested (ofText t) base w i log = .ok (e, log')) :
    ∃ old, (ofText t).slice e.range.start e.range.stop = .ok old ∧
      Inserts r.states r.receivers old e.text := by
  have hm := Scan.ofText_shows t
  obtain ⟨hmem, hdot⟩ := slice_of_receiverAt? hm hw
  have hwhole := (whole_of_slice hm hdot).1
  have hbare : e = ⟨⟨i, i + w.size + 1⟩, []⟩ →
      ∃ old, (ofText t).slice e.range.start e.range.stop = .ok old ∧
        Inserts r.states r.receivers old e.text := by
    rintro rfl
    exact ⟨_, hdot, .nothing hmem⟩
  cases reference_cases hm h with
  | @read n hread =>
    have hname := (whole_of_slice hm hread.name).1
    obtain ⟨old, hold, -⟩ := slice_yields hm (i := i) (j := i + w.size + 7 + n.size)
      ⟨by omega, hwhole.left, hname.right⟩
    refine ⟨old, hold, ?_⟩
    rw [hread.old_eq hdot hold]
    exact .name hmem (by simpa [isState] using hread.isState)
  | @set key text arg value stop log' hset htext harg =>
    have hparen := reference_paren h hset.memberEnd hset.member (by simp)
    obtain ⟨-, -, -, close, hclose, -, rfl⟩ :=
      (setterField?_yields hm _).of_eq hset.field key value stop rfl
    obtain ⟨-, hcloses, hlt, -⟩ := matching_spec hclose
    have hle := le_skipTrivia (ofText t) (i + w.size + 9) (ofText t).size
    obtain ⟨old, hold, -⟩ := slice_yields hm (i := i) (j := close + 1)
      ⟨by omega, hwhole.left, (closes_boundary hm hcloses).2⟩
    obtain ⟨gap, args, close', rfl, -, -, -, -, hkey, hvalue⟩ :=
      hset.old_eq hparen hdot htext hold
    exact ⟨_, hold, .setter hmem hkey hvalue (hnested _ _ _ _ _ harg)⟩
  | kept _ _ _ _ => exact hbare rfl
  | flattened _ _ _ _ _ _ => exact hbare rfl
  | bare _ _ _ _ _ => exact hbare rfl

/-- Resolving writes down nothing but state entries and calls of their setters, at any depth. -/
theorem rebinds_of_resolveNested {depth : Nat} {out : Text}
    (h : r.resolveNested depth t base log = .ok (out, log')) :
    Rebinds r.states r.receivers t out := by
  induction depth generalizing t base log out log' with
  | zero =>
    cases h
    exact .refl _ _ _
  | succ depth ih =>
    have hm := Scan.ofText_shows t
    obtain ⟨⟨edits, log''⟩, hedits, h⟩ := bind_eq_ok h
    obtain ⟨out', hsplice, h⟩ := bind_eq_ok h
    cases h
    have hinserts : ∀ e ∈ edits, ∃ old, (ofText t).slice e.range.start e.range.stop = .ok old ∧
        Inserts r.states r.receivers old e.text := by
      intro e he
      obtain ⟨w, j, before, behind, hw, hreference⟩ := (resolves_of_editsFrom hedits).origin he
      exact inserts_of_reference (fun u base log out log' hu => ih hu) hw hreference
    have hfit := Edit.fit_of_splice hm hsplice fun e he => by
      obtain ⟨old, hold, -⟩ := hinserts e he
      exact (whole_of_slice hm hold).1
    obtain ⟨patches, tail, rfl, rfl, hpatches⟩ := Edit.splice_patches hm [] t (by simp) hfit hsplice
    refine .patches fun p hp => ?_
    obtain ⟨pre, post, hsplit⟩ := List.append_of_mem hp
    have hat : Patch.At patches (Patch.before p.kept pre).size p := ⟨pre, post, hsplit, rfl⟩
    obtain ⟨old, hold, hinsert⟩ := hinserts _ ((hpatches _).mpr ⟨_, p, hat, rfl⟩)
    have hlies := hat.liesAt tail
    rw [← Scan.kinds_chars (Patch.before tail patches)] at hlies
    have hslice := (slice_of_liesAt hm hlies).2
    rw [Text.size_nil, Nat.zero_add] at hold
    rwa [Except.ok.inj (hslice.symm.trans hold)]

theorem rebinds_of_resolve {resolved : Resolved} (h : r.resolve t base = .ok resolved) :
    Rebinds r.states r.receivers t resolved.text := by
  obtain ⟨⟨out, log⟩, hnested, h⟩ := bind_eq_ok h
  cases h
  exact rebinds_of_resolveNested hnested

end Resolver

/-- The name that a notice says is declared more than once. -/
def Notice.repeated? : Notice → Option Text
  | .duplicateStateEntry name => some name
  | .duplicateLifecycle callback => some callback.callback
  | _ => none

namespace StateModel

section Keys

/-- The key that is read from a part of a literal. -/
def partKey? (m : CodeMap) (part : Span) : Option Text :=
  (readPart m part).toOption.join.map Prod.fst

/-- The keys of an initializer, one for each part that declares an entry, in their order. -/
def declaredKeys : Option Snippet → List Text
  | none => []
  | some initializer =>
    (literalParts initializer.text).filterMap (partKey? (ofText initializer.text))

/-- What one more part does to a model: it adds an entry, or at most a warning that it was skipped. -/
theorem addPart_cases {m : CodeMap} {base : Nat} {model next : StateModel} {part : Span}
    (h : addPart m base model part = .ok next) :
    (partKey? m part = none ∧ next.entries = model.entries ∧
      ∃ ws, next.warnings = model.warnings ++ ws ∧
        ∀ w ∈ ws, ∃ skipped, w.notice = .stateEntrySkipped skipped) ∨
    ∃ entry range, partKey? m part = some entry.name ∧ next = model.insert entry range := by
  obtain ⟨text, htext, h⟩ := bind_eq_ok h
  unfold partKey? readPart
  rw [bind_of_eq_ok htext]
  cases hblank : text.isBlank with
  | true =>
    rw [hblank] at h
    cases h
    exact .inl ⟨rfl, rfl, [], by simp⟩
  | false =>
    rw [hblank] at h
    obtain ⟨range, -, h⟩ := bind_eq_ok h
    obtain ⟨found, hfound, h⟩ := bind_eq_ok h
    simp only [Bool.false_eq_true, if_false, hfound]
    cases found with
    | none =>
      obtain ⟨entry, -, h⟩ := bind_eq_ok h
      cases h
      refine .inl ⟨rfl, rfl, _, rfl, fun w hw => ?_⟩
      obtain rfl := List.mem_singleton.mp hw
      exact ⟨_, rfl⟩
    | some field =>
      obtain ⟨valueText, -, h⟩ := bind_eq_ok h
      obtain ⟨valueRange, -, h⟩ := bind_eq_ok h
      cases h
      exact .inr ⟨_, range, rfl, rfl⟩

/-- The entries of the model are the keys, each once, and a warning says of each key that occurs
again that it does. -/
structure Keyed (keys : List Text) (model : StateModel) : Prop where
  names : model.entries.map (·.name) = keys.eraseDups
  repeats : model.warnings.filterMap (·.notice.repeated?) = repeatsAfter [] keys

variable {keys : List Text} {model : StateModel}

theorem Keyed.insert (h : Keyed keys model) (entry : StateEntry) (range : Span) :
    Keyed (keys ++ [entry.name]) (model.insert entry range) := by
  have hany : model.entries.any (·.name == entry.name) ↔ entry.name ∈ keys := by
    rw [← List.mem_eraseDups, ← h.names, List.any_eq_true, List.mem_map]
    simp only [beq_iff_eq]
  refine ⟨?_, ?_⟩
  · rw [insert_names, h.names, eraseDups_append_singleton]
    simp only [List.mem_eraseDups]
  · rw [repeatsAfter_append]
    unfold StateModel.insert
    split
    · rename_i hold
      rw [if_pos (.inr (hany.mp hold)), List.filterMap_append, h.repeats]
      rfl
    · rename_i hnew
      rw [if_neg (by simpa using fun hmem => hnew (hany.mpr hmem)), h.repeats, List.append_nil]

theorem Keyed.addPart {m : CodeMap} {base : Nat} {next : StateModel} {part : Span}
    (h : Keyed keys model) (hnext : StateModel.addPart m base model part = .ok next) :
    Keyed (keys ++ (partKey? m part).toList) next := by
  rcases addPart_cases hnext with ⟨hkey, hentries, ws, hwarnings, hws⟩ | ⟨entry, range, hkey, rfl⟩
  · rw [hkey, Option.toList_none, List.append_nil]
    refine ⟨by rw [hentries, h.names], ?_⟩
    have hnone : ws.filterMap (·.notice.repeated?) = [] := by
      refine List.filterMap_eq_nil_iff.mpr fun w hw => ?_
      obtain ⟨skipped, hskipped⟩ := hws w hw
      rw [hskipped]
      rfl
    rw [hwarnings, List.filterMap_append, h.repeats, hnone, List.append_nil]
  · rw [hkey]
    exact h.insert entry range

theorem Keyed.foldlM {m : CodeMap} {base : Nat} {parts : List Span} {last : StateModel}
    (h : Keyed keys model) (hlast : parts.foldlM (StateModel.addPart m base) model = .ok last) :
    Keyed (keys ++ parts.filterMap (partKey? m)) last := by
  induction parts generalizing model keys with
  | nil =>
    cases hlast
    simpa using h
  | cons part parts ih =>
    obtain ⟨next, hnext, hlast⟩ := bind_eq_ok hlast
    have hall := ih (h.addPart hnext) hlast
    rw [List.append_assoc] at hall
    cases hkey : partKey? m part with
    | none =>
      rw [hkey] at hall
      rwa [List.filterMap_cons_none hkey]
    | some key =>
      rw [hkey] at hall
      rwa [List.filterMap_cons_some hkey]

/-- The model of an initializer is keyed by it. -/
theorem build_keyed {state : Option Snippet} (h : build state = .ok model) :
    Keyed (declaredKeys state) model := by
  have hempty : Keyed [] empty := ⟨rfl, rfl⟩
  cases state with
  | none =>
    cases h
    exact hempty
  | some s => exact hempty.foldlM h

end Keys

theorem nodup_eraseDups (keys : List Text) : keys.eraseDups.Nodup := by
  induction keys using List.reverseRecOn with
  | nil => exact .nil
  | append_singleton keys k ih =>
    rw [eraseDups_append_singleton]
    split
    · exact ih
    · rename_i hnew
      exact List.nodup_append.mpr ⟨ih, List.nodup_singleton k, fun a ha b hb hab =>
        hnew (by rw [← List.mem_singleton.mp hb, ← hab]; exact List.mem_eraseDups.mp ha)⟩

end StateModel

namespace Conversion

section Pieces

/-- The pieces of a component before and after their references are resolved: the values of the state
entries, the bodies of the effect and of the methods, the statements of render and the template. -/
def Parts.pieces (p : Parts) (c : Component) : List (Text × Text) :=
  (p.model.entries.zip p.values).map (fun (entry, value) => (entry.value, value.text))
    ++ (c.mount.toList.zip p.setup.1.toList).map (fun (body, out) => (body.text, out))
    ++ (c.unmount.toList.zip p.cleanup.1.toList).map (fun (body, out) => (body.text, out))
    ++ (c.methods.zip p.bodies).map (fun (method, body) => (method.body.text, body.text))
    ++ [(p.stripped, p.prelude.text), (c.template.text, p.template.text)]

/-- The section that declares the state entries, if there are any. -/
def stateSections (names values : List Text) : List Text :=
  if names.isEmpty then [] else [(List.zipWith stateLine names values).flatten]

variable {c : Component} {receivers : List Text} {p : Parts}

theorem resolveOption_cases {r : Resolver} {s : Option Snippet} {out : Option Text × List Warning}
    (h : resolveOption r s = .ok out) : out.1.isSome = s.isSome ∧ ∀ q ∈ s.toList.zip out.1.toList,
      Rebinds r.states r.receivers q.1.text q.2 := by
  cases s with
  | none =>
    cases h
    exact ⟨rfl, by simp⟩
  | some s =>
    obtain ⟨resolved, hresolved, h⟩ := bind_eq_ok h
    cases h
    refine ⟨rfl, fun q hq => ?_⟩
    obtain rfl : q = (s, resolved.text) := by simpa using hq
    exact Resolver.rebinds_of_resolve hresolved

theorem rebinds_of_mapM {α : Type} {r : Resolver} {text : α → Text} {base : α → Nat} {l : List α}
    {outs : List Resolved} (h : (l.mapM fun a => r.resolve (text a) (base a)) = .ok outs) :
    l.length = outs.length ∧
      ∀ q ∈ l.zip outs, Rebinds r.states r.receivers (text q.1) q.2.text := by
  obtain ⟨hlength, hzip⟩ := List.forall₂_iff_zip.mp (mapM_eq_ok h)
  exact ⟨hlength, fun q hq => Resolver.rebinds_of_resolve (hzip hq)⟩

/-- Every piece is rebound to the entries of the state model. -/
theorem Parts.From.rebinds (h : p.From c receivers) :
    ∀ q ∈ p.pieces c, Rebinds (p.model.entries.map (·.name)) receivers q.1 q.2 := by
  intro q hq
  simp only [pieces, List.mem_append, List.mem_map, List.mem_cons, List.not_mem_nil, or_false] at hq
  rcases hq with (((⟨x, hx, rfl⟩ | ⟨x, hx, rfl⟩) | ⟨x, hx, rfl⟩) | ⟨x, hx, rfl⟩) | rfl | rfl
  · exact (rebinds_of_mapM h.values).2 x hx
  · exact (resolveOption_cases h.setup).2 x hx
  · exact (resolveOption_cases h.cleanup).2 x hx
  · exact (rebinds_of_mapM h.bodies).2 x hx
  · exact Resolver.rebinds_of_resolve h.prelude
  · exact Resolver.rebinds_of_resolve h.template

theorem Parts.From.effect_isSome (h : p.From c receivers) :
    p.effect.isSome = (c.mount.isSome || c.unmount.isSome) := by
  rw [← (resolveOption_cases h.setup).1, ← (resolveOption_cases h.cleanup).1, effect]
  cases p.setup.1 <;> cases p.cleanup.1 <;> rfl

theorem Parts.stateSections_eq (p : Parts) :
    (if p.model.entries.isEmpty then [] else [(p.model.entries.zip p.values).flatMap
      fun (entry, value) => stateLine entry.name value.text]) =
      stateSections (p.model.entries.map (·.name)) (p.values.map (·.text)) := by
  unfold stateSections
  rw [List.isEmpty_map, List.zipWith_map, List.flatMap, List.zip, List.map_zipWith]

/-- The declarations of state stand between the head of the module and its other sections. -/
theorem moduleText_stateSections (name imports : Text) (names values : List Text)
    {sections : List Text} (h : sections ≠ []) :
    moduleText name imports (stateSections names values ++ sections) =
      imports ++ "\n\nfunction " ++ name ++ "(props) \x7b\n" ++
        (List.zipWith stateLine names values).flatten ++ (if names = [] then "" else "\n") ++
        Text.join "\n" sections ++ "\x7d\n\nexport default " ++ name ++ ";\n" := by
  obtain ⟨first, rest, rfl⟩ := List.exists_cons_of_ne_nil h
  cases names with
  | nil => simp [moduleText, stateSections]
  | cons n names =>
    have hjoin : ∀ block : Text, Text.join "\n" ([block] ++ first :: rest) =
        block ++ "\n" ++ Text.join "\n" (first :: rest) := fun block => rfl
    rw [moduleText, stateSections, List.isEmpty_cons, if_neg Bool.false_ne_true, hjoin,
      if_neg (List.cons_ne_nil n names)]
    simp only [List.append_assoc]

theorem setterName_eq (n : Text) :
    setterName n = "set" ++ (n.take 1).flatMap Character.upper ++ n.drop 1 := by
  cases n with
  | nil => rfl
  | cons c n => simp [setterName]

theorem importLine_eq (usesState usesEffect : Bool) : importLine usesState usesEffect =
    "import React" ++ (if usesState then
      if usesEffect then ", \x7b useState, useEffect \x7d" else ", \x7b useState \x7d"
      else if usesEffect then ", \x7b useEffect \x7d" else "") ++ " from 'react';" := by
  cases usesState <;> cases usesEffect <;> rfl

theorem importLine_hooks (usesState usesEffect : Bool) :
    Text.contains "useState" (importLine usesState usesEffect) = usesState ∧
      Text.contains "useEffect" (importLine usesState usesEffect) = usesEffect := by
  cases usesState <;> cases usesEffect <;> decide

end Pieces

/-- The declarations of state and their uses agree.  The module declares each key of the initializer
once, in order of first occurrence and with the value it is resolved to, and wherever references are
resolved, what is written in their place are these names and their setters.  The import line names
the hook for state if there is an entry, and the hook for effects if there is a body for one. -/
theorem state_bindings_agree {t : Text} {receivers : List Text} {conv : Conversion}
    (h : convert t receivers = .ok conv) :
    ∃ (c : Component) (p : Parts) (names values : List Text) (imports : Text),
      Component.extract t receivers = .ok c ∧ p.From c receivers ∧
      names = (StateModel.declaredKeys c.state).eraseDups ∧ names.Nodup ∧
      values = p.values.map (·.text) ∧ values.length = names.length ∧
      imports = "import React" ++ (if names ≠ [] then
        if c.mount.isSome ∨ c.unmount.isSome then ", \x7b useState, useEffect \x7d"
          else ", \x7b useState \x7d"
        else if c.mount.isSome ∨ c.unmount.isSome then ", \x7b useEffect \x7d" else "") ++
          " from 'react';" ∧
      conv.code = imports ++ "\n\nfunction " ++ c.name ++ "(props) \x7b\n" ++
        (List.zipWith (fun n v => "  const [" ++ n ++ ", " ++ setterName n ++ "] = useState(" ++ v ++
          ");\n") names values).flatten ++ (if names = [] then "" else "\n") ++
        Text.join "\n" (p.effect.toList.map Effect.render ++
          ((c.methods.zip p.bodies).map (fun (method, body) => methodSection method body.text) ++
            (preludeSections p.prelude.text ++ [templateSection p.template.text]))) ++
        "\x7d\n\nexport default " ++ c.name ++ ";\n" ∧
      (∀ n ∈ names, setterName n = "set" ++ (n.take 1).flatMap Character.upper ++ n.drop 1) ∧
      (∀ q ∈ p.pieces c, Rebinds names receivers q.1 q.2) ∧
      (Text.contains "useState" imports = true ↔ names ≠ []) ∧
      (Text.contains "useEffect" imports = true ↔ c.mount.isSome ∨ c.unmount.isSome) := by
  obtain ⟨c, hextract, h⟩ := bind_eq_ok h
  obtain ⟨p, hp, rfl⟩ := assemble_iff.mp (check_eq_ok h)
  have hnames := (StateModel.build_keyed hp.model).names
  obtain ⟨hstate, heffect⟩ := importLine_hooks
    (!(p.model.entries.map (·.name)).isEmpty) (c.mount.isSome || c.unmount.isSome)
  refine ⟨c, p, p.model.entries.map (·.name), p.values.map (·.text),
    importLine (!(p.model.entries.map (·.name)).isEmpty) (c.mount.isSome || c.unmount.isSome),
    hextract, hp, hnames, ?_, rfl, ?_, ?_, ?_, fun n _ => setterName_eq n, hp.rebinds, ?_, ?_⟩
  · rw [hnames]
    exact StateModel.nodup_eraseDups _
  · rw [List.length_map, List.length_map, (rebinds_of_mapM hp.values).1]
  · rw [importLine_eq]
    simp
  · rw [Parts.conversion, Parts.sections, p.stateSections_eq, List.append_assoc, List.append_assoc,
      List.append_assoc, moduleText_stateSections _ _ _ _ (by simp), List.isEmpty_map,
      ← hp.effect_isSome]
    rfl
  · rw [hstate]
    simp
  · rw [heffect, Bool.or_eq_true]

/-- A class that declares a key again and sets one entry inside the other. -/
def rebindingSource : Text :=
  "class A extends Component\x7bstate=\x7ba:1,b:2,a:3\x7d;"
    ++ "f=()=>s.setState(\x7ba:s.setState(\x7bb:s.state.a\x7d)\x7d);render=()=>0\x7d"

/-- The module that it is converted to. -/
def rebindingModule : Text :=
  "import React, \x7b useState \x7d from 'react';\n\nfunction A(props) \x7b\n"
    ++ "  const [a, setA] = useState(3);\n  const [b, setB] = useState(2);\n\n"
    ++ "  const f = () => setA(setB(a));\n\n  return (\n    0\n  );\n\x7d\n\nexport default A;\n"

/-- The component. -/
def rebindingComponent : Component where
  name := "A"
  state := some ⟨"{a:1,b:2,a:3}", ⟨32, 45⟩⟩
  mount := none
  unmount := none
  methods := [⟨"f", "", false, .expression,
    ⟨"s.setState({a:s.setState({b:s.state.a})})", ⟨52, 93⟩⟩⟩]
  prelude := ⟨"", ⟨105, 105⟩⟩
  template := ⟨"0", ⟨105, 106⟩⟩
  warnings := []

theorem extract_rebinding : Component.extract rebindingSource ["s"] = .ok rebindingComponent := by
  decide +kernel

theorem convert_rebinding : convert rebindingSource ["s"] =
    .ok ⟨rebindingModule, [⟨.duplicateStateEntry "a", ⟨41, 44⟩⟩]⟩ := by
  decide +kernel

theorem declaredKeys_rebinding : (StateModel.declaredKeys rebindingComponent.state).eraseDups =
    (["a", "b"] : List Text) := by
  decide +kernel

/-- Both keys are declared once, with the last value of each, and all the pieces are rebound to
them. -/
theorem state_bindings_agree_nested :
    ∃ (ws : List Warning) (p : Parts), convert rebindingSource ["s"] = .ok ⟨rebindingModule, ws⟩ ∧
      p.From rebindingComponent ["s"] ∧
      ("import React, \x7b useState \x7d from 'react';\n\nfunction A(props) \x7b\n" : Text) ++
        (List.zipWith stateLine ["a", "b"] (p.values.map (·.text))).flatten <+: rebindingModule ∧
      ∀ q ∈ p.pieces rebindingComponent, Rebinds ["a", "b"] ["s"] q.1 q.2 := by
  obtain ⟨c, p, names, values, imports, hextract, hp, hnames, -, rfl, -, himports, hcode, -,
    hpieces, -, -⟩ := state_bindings_agree convert_rebinding
  obtain rfl := Except.ok.inj (extract_rebinding.symm.trans hextract)
  obtain rfl := hnames.trans declaredKeys_rebinding
  refine ⟨_, p, convert_rebinding, hp, ?_, hpieces⟩
  change rebindingModule = _ at hcode
  rw [hcode, himports]
  exact ((((List.prefix_append _ _).trans (List.prefix_append _ _)).trans
    (List.prefix_append _ _)).trans (List.prefix_append _ _)).trans (List.prefix_append _ _)

end Conversion

end Declass
