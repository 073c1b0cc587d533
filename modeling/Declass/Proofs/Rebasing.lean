import Declass.Proofs.Assembly
import Declass.Proofs.InsetExtraction

/-!
# Pieces further on in their source

**Input.** The pieces of a component, and the same pieces `d` bytes further on in another source.
Nothing of them reaches the limit of reported positions.

**Algorithm.** State entries and references are found in the text of a piece alone.  Where the piece
starts only enters the ranges that are reported, so each function is followed with two starts at
once.

**Results.** `Conversion.assemble_shift`: both components give the same module, and what is
reported about the second one lies `d` bytes further on.
-/

namespace Declass

open CodeMap
open Component (snippets)

/-- The state entry moved to the right. -/
def StateEntry.shift (entry : StateEntry) (d : Nat) : StateEntry :=
  { entry with range := entry.range.shift d }

/-- The state model moved to the right. -/
def StateModel.shift (model : StateModel) (d : Nat) : StateModel :=
  ⟨model.entries.map (·.shift d), model.warnings.map (·.shift d)⟩

/-- The log moved to the right. -/
def Resolver.Log.shift (log : Log) (d : Nat) : Log :=
  { log with warnings := log.warnings.map (·.shift d) }

/-- The resolved text moved to the right. -/
def Resolved.shift (resolved : Resolved) (d : Nat) : Resolved :=
  { resolved with warnings := resolved.warnings.map (·.shift d) }

/-- The same module, with what is reported about it moved to the right. -/
def Conversion.shift (conv : Conversion) (d : Nat) : Conversion :=
  { conv with warnings := conv.warnings.map (·.shift d) }

/-- A text at this start keeps below the limit of reported positions when it is moved. -/
def Text.Shiftable (t : Text) (d start : Nat) : Prop := d + (start + t.size) ≤ Span.limit

theorem Text.trimmedSpan_trim_le (t : Text) (i : Nat) :
    (t.trimmedSpan i).start + t.trim.size ≤ i + t.size := by
  obtain ⟨lead, ht, -⟩ := t.trimStart_eq
  obtain ⟨trail, htrim⟩ := t.trimStart.trimEnd_eq
  have hsize := congrArg Text.size ht
  have hsize' := congrArg Text.size htrim
  rw [Text.size_append] at hsize hsize'
  dsimp only [trimmedSpan, trim]
  omega

namespace StateModel

section Entries

variable {d : Nat}

/-- The second model is the first one moved, and no value in it reaches the limit. -/
def MovesTo (d : Nat) (model model' : StateModel) : Prop :=
  model' = model.shift d ∧ ∀ entry ∈ model.entries, entry.value.Shiftable d entry.range.start

theorem insert_shift (model : StateModel) (entry : StateEntry) (range : Span) :
    (model.shift d).insert (entry.shift d) (range.shift d) =
      (model.insert entry range).shift d := by
  have hany : (model.shift d).entries.any (·.name == (entry.shift d).name) =
      model.entries.any (·.name == entry.name) := by
    rw [shift, List.any_map]
    rfl
  have hreplace : replaceEntry (entry.shift d) (model.shift d).entries =
      (replaceEntry entry model.entries).map (·.shift d) := by
    simp only [replaceEntry, shift, List.map_map]
    refine List.map_congr_left fun e _ => ?_
    simp only [Function.comp_apply, apply_ite (StateEntry.shift · d)]
    rfl
  unfold insert
  rw [hany]
  split
  · rw [hreplace]
    simp [shift, Warning.shift, StateEntry.shift]
  · simp [shift]

theorem mem_insert {model : StateModel} {entry e : StateEntry} {range : Span}
    (h : e ∈ (model.insert entry range).entries) : e ∈ model.entries ∨ e = entry := by
  unfold insert at h
  split at h
  · obtain ⟨kept, hkept, rfl⟩ := List.mem_map.mp h
    split
    · exact .inr rfl
    · exact .inl hkept
  · simpa using h

variable {m : CodeMap} {ps : Painted} (hm : m.Shows ps) {base : Nat}
  (hlimit : d + (base + m.size) ≤ Span.limit)
include hm hlimit

theorem addPart_mirrors {model model' : StateModel} (hmodel : MovesTo d model model')
    (part : Span) :
    Mirrors (addPart m base model part) (addPart m (d + base) model' part) (MovesTo d) := by
  obtain ⟨rfl, hvalues⟩ := hmodel
  refine (Mirrors.refl _).bind fun _ text htext => ?_
  obtain ⟨rfl, htext⟩ := htext
  split
  · exact .ok ⟨rfl, hvalues⟩
  obtain ⟨hwhole, hsize⟩ := whole_of_slice hm htext
  have hstop := isBoundary_le hm hwhole.right
  obtain ⟨htrim, htrim'⟩ := text.trimmedSpan_le part.start
  dsimp only
  rw [Nat.add_assoc d base, Nat.add_assoc d base]
  refine (Span.reported_mirrors (by omega) (by omega)).bind fun range _ hrange => ?_
  subst hrange
  refine (Mirrors.refl _).bind fun _ found hfound => ?_
  obtain ⟨rfl, -⟩ := hfound
  cases found with
  | none =>
    refine (Mirrors.refl _).bind fun _ skipped hskipped => ?_
    obtain ⟨rfl, -⟩ := hskipped
    exact .ok ⟨by simp [shift, Warning.shift], hvalues⟩
  | some entry =>
    obtain ⟨name, span⟩ := entry
    refine (Mirrors.refl _).bind fun _ value hvalue => ?_
    obtain ⟨rfl, hvalue⟩ := hvalue
    obtain ⟨hwhole, hsize⟩ := whole_of_slice hm hvalue
    have hle := hwhole.le
    have hstop := isBoundary_le hm hwhole.right
    rw [Nat.add_assoc d base, Nat.add_assoc d base]
    refine (Span.reported_mirrors (by omega) (by omega)).with_eq.bind fun r _ hr => ?_
    obtain ⟨rfl, hr⟩ := hr
    obtain rfl := (Span.reported_yields (Nat.add_le_add_left hle base)).of_eq hr
    refine .ok ⟨insert_shift model ⟨name, value, _⟩ range, fun e he => ?_⟩
    rcases mem_insert he with he | rfl
    · exact hvalues e he
    · dsimp only [Text.Shiftable, Span.clamp]
      omega

end Entries

/-- The state entries of an initializer are the same further on. -/
theorem build_mirrors {d : Nat} {initializer : Option Snippet}
    (hlimit : ∀ s ∈ initializer, s.text.Shiftable d s.range.start) :
    Mirrors (build initializer) (build (initializer.map (·.shift d))) (MovesTo d) := by
  have hempty : MovesTo d empty empty := ⟨rfl, by simp [empty]⟩
  cases initializer with
  | none => exact .ok hempty
  | some s =>
    have hm := Scan.ofText_shows s.text
    have hlimit : d + (s.range.start + (ofText s.text).size) ≤ Span.limit := by
      rw [size_ofText]
      exact hlimit s rfl
    have hfold : ∀ parts : List Span,
        Mirrors (parts.foldlM (addPart (ofText s.text) s.range.start) empty)
          ((parts.map id).foldlM (addPart (ofText s.text) (d + s.range.start)) empty)
          (MovesTo d) := fun parts =>
      Mirrors.foldlM (fun part _ _ _ hmodel => addPart_mirrors hm hlimit hmodel part) hempty
    simp only [List.map_id] at hfold
    exact hfold _

end StateModel

namespace Resolver

section Logs

variable {d base a b : Nat} (log : Log) (ha : d + (base + a) ≤ Span.limit)
  (hb : d + (base + b) ≤ Span.limit)
include ha hb

theorem Log.warn_mirrors (notice : Notice) : Mirrors (log.warn notice (base + a) (base + b))
      ((log.shift d).warn notice (d + base + a) (d + base + b)) fun x y => y = x.shift d := by
  rw [Nat.add_assoc d base, Nat.add_assoc d base]
  refine (Warning.about_mirrors notice ha hb).bind fun w _ hw => ?_
  subst hw
  exact .ok (by simp [shift])

theorem Log.flatten_mirrors (receiver member : Text) :
    Mirrors (log.flatten receiver member (base + a) (base + b))
      ((log.shift d).flatten receiver member (d + base + a) (d + base + b))
      fun x y => y = x.shift d := by
  have hflattened : (log.shift d).flattened = log.flattened := rfl
  unfold flatten
  rw [hflattened]
  split
  · exact .ok rfl
  · refine (log.warn_mirrors ha hb _).bind fun x _ hx => ?_
    subst hx
    exact .ok rfl

end Logs

/-- What resolves texts does so alike `d` bytes further on. -/
def Nested.Shifts (nested : Nested) (d : Nat) : Prop :=
  ∀ {text : Text} {base : Nat} (log : Log), text.Shiftable d base →
    Mirrors (nested text base log) (nested text (d + base) (log.shift d))
      fun x y => y = (x.1, x.2.shift d)

section References

variable {r : Resolver} {nested : Nested} {m : CodeMap} {ps : Painted} {d base : Nat}
  (hnested : nested.Shifts d) (hm : m.Shows ps) (hlimit : d + (base + m.size) ≤ Span.limit)
include hnested hm hlimit

theorem setterCall?_mirrors (opening : Nat) (log : Log) :
    Mirrors (r.setterCall? nested m opening base log)
      (r.setterCall? nested m opening (d + base) (log.shift d))
      fun x y => y = x.map fun (call, stop, log) => (call, stop, log.shift d) := by
  refine (Mirrors.refl _).bind fun _ field hfield => ?_
  obtain ⟨rfl, -⟩ := hfield
  cases field with
  | none => exact .ok rfl
  | some field =>
    obtain ⟨key, value, stop⟩ := field
    refine (Mirrors.refl _).bind fun _ text htext => ?_
    obtain ⟨rfl, htext⟩ := htext
    obtain ⟨hwhole, hsize⟩ := whole_of_slice hm htext
    have hstop := isBoundary_le hm hwhole.right
    have htrim := text.trimmedSpan_trim_le value.start
    rw [Nat.add_assoc d base]
    refine (hnested log (by unfold Text.Shiftable; omega)).bind fun x _ hx => ?_
    subst hx
    exact .ok rfl

omit hnested hm hlimit in
theorem callEnd_le {memberEnd : Nat} (h : memberEnd ≤ m.size) : callEnd m memberEnd ≤ m.size := by
  unfold callEnd
  split
  · rename_i close hclose
    exact lt_size_of_has (matching_spec hclose).2.1
  · exact h

/-- A reference is replaced alike further on. -/
theorem reference_mirrors (receiver : Text) (i : Nat) (log : Log) :
    Mirrors (r.reference nested m base receiver i log)
      (r.reference nested m (d + base) receiver i (log.shift d))
      fun x y => y = (x.1, x.2.shift d) := by
  unfold reference
  dsimp only
  refine (Mirrors.refl _).bind fun _ memberEnd hmemberEnd => ?_
  obtain ⟨rfl, -⟩ := hmemberEnd
  refine (Mirrors.refl _).bind fun _ member hmember => ?_
  obtain ⟨rfl, hmember⟩ := hmember
  have hwhole := (whole_of_slice hm hmember).1
  have hle := hwhole.le
  have hend := isBoundary_le hm hwhole.right
  have hflatten : Mirrors (do return (⟨⟨i, i + receiver.size + 1⟩, []⟩,
          ← log.flatten receiver member (base + i) (base + memberEnd)) : Except Fault (Edit × Log))
      (do return (⟨⟨i, i + receiver.size + 1⟩, []⟩,
          ← (log.shift d).flatten receiver member (d + base + i) (d + base + memberEnd)))
      fun x y => y = (x.1, x.2.shift d) := by
    refine (log.flatten_mirrors (by omega) (by omega) receiver member).bind fun x _ hx => ?_
    subst hx
    exact .ok rfl
  split
  · split
    · refine (Mirrors.refl _).bind fun _ nameEnd hnameEnd => ?_
      obtain ⟨rfl, -⟩ := hnameEnd
      refine (Mirrors.refl _).bind fun _ name hname => ?_
      obtain ⟨rfl, -⟩ := hname
      split
      · exact .ok rfl
      · exact hflatten
    · exact hflatten
  split
  · have hkept : Mirrors (do return (⟨⟨i, i + receiver.size + 1⟩, []⟩,
            ← log.warn (.setStateKept receiver) (base + i) (base + callEnd m memberEnd)) :
              Except Fault (Edit × Log)) (do return (⟨⟨i, i + receiver.size + 1⟩, []⟩,
            ← (log.shift d).warn (.setStateKept receiver) (d + base + i)
              (d + base + callEnd m memberEnd))) fun x y => y = (x.1, x.2.shift d) := by
      have hcall := callEnd_le hend
      refine (log.warn_mirrors (by omega) (by omega) _).bind fun x _ hx => ?_
      subst hx
      exact .ok rfl
    split
    · refine (setterCall?_mirrors hnested hm hlimit _ log).bind fun call _ hcall => ?_
      subst hcall
      cases call with
      | none => exact hkept
      | some call => exact .ok rfl
    · exact hkept
  split
  · exact .ok rfl
  split
  · exact .ok rfl
  · exact hflatten

/-- The edits for references are the same further on. -/
theorem editsFrom_mirrors (count resume i : Nat) (log : Log) :
    Mirrors (r.editsFrom nested m base count resume i log)
      (r.editsFrom nested m (d + base) count resume i (log.shift d))
      fun x y => y = (x.1, x.2.shift d) := by
  induction count generalizing resume i log with
  | zero => exact .ok rfl
  | succ count ih =>
    rw [editsFrom, editsFrom]
    split
    · exact ih resume (i + 1) log
    cases r.receiverAt? m i with
    | error fault => exact .error _ _
    | ok found =>
      cases found with
      | none => exact ih resume (i + 1) log
      | some receiver =>
        refine (reference_mirrors hnested hm hlimit receiver i log).bind fun x _ hx => ?_
        subst hx
        refine (ih x.1.range.stop (i + 1) x.2).bind fun y _ hy => ?_
        subst hy
        exact .ok rfl

end References

section Resolving

variable (r : Resolver) {d : Nat}

theorem resolveNested_shifts (depth : Nat) : (r.resolveNested depth).Shifts d := by
  induction depth with
  | zero => exact fun log _ => .ok rfl
  | succ depth ih =>
    intro text base log hlimit
    have hm := Scan.ofText_shows text
    have hlimit : d + (base + (ofText text).size) ≤ Span.limit := by
      rw [size_ofText]
      exact hlimit
    refine (editsFrom_mirrors ih hm hlimit _ 0 0 log).bind fun x _ hx => ?_
    subst hx
    refine (Mirrors.refl _).bind fun _ out hout => ?_
    obtain ⟨rfl, -⟩ := hout
    exact .ok rfl

/-- A text is resolved alike further on. -/
theorem resolve_mirrors {text : Text} {base : Nat} (hlimit : text.Shiftable d base) :
    Mirrors (r.resolve text base) (r.resolve text (d + base)) fun x y => y = x.shift d := by
  refine (r.resolveNested_shifts _ Log.empty hlimit).bind fun x _ hx => ?_
  subst hx
  exact .ok rfl

theorem size_blankOut (t : Text) : (blankOut t).size = t.size := by
  have hspaces : ∀ n, Text.size (List.replicate n ' ') = n := by
    intro n
    induction n with
    | zero => rfl
    | succ n ih =>
      rw [List.replicate_succ, Text.size, ih]
      exact Nat.add_comm 1 n
  unfold blankOut
  induction t with
  | nil => rfl
  | cons c t ih =>
    rw [List.flatMap_cons, Text.size_append, ih, Text.size]
    split
    · rename_i hc
      obtain rfl : c = '\n' := by simpa using hc
      rfl
    · rw [hspaces]

/-- Edits that keep the width of what they replace keep the width of the text. -/
theorem size_of_splice {m : CodeMap} {ps : Painted} (hm : m.Shows ps)
    {edits : List Edit} (hedits : ∀ e ∈ edits, e.range.start + e.text.size = e.range.stop)
    {pos : Nat} {out : Text} (h : Edit.splice m pos edits = .ok out) : pos + out.size = m.size := by
  induction edits generalizing pos out with
  | nil => exact (whole_of_slice hm h).2
  | cons e edits ih =>
    obtain ⟨kept, hkept, h⟩ := bind_eq_ok h
    obtain ⟨rest, hrest, h⟩ := bind_eq_ok h
    cases h
    have hkept := (whole_of_slice hm hkept).2
    have hrest := ih (fun e' he' => hedits e' (by simp [he'])) hrest
    have hedit := hedits e (by simp)
    rw [Text.size_append, Text.size_append]
    omega

theorem stripDestructuring_edits {t out : Text} (h : r.stripDestructuring t = .ok out) :
    ∃ edits, Edit.splice (ofText t) 0 edits = .ok out ∧ ∀ e ∈ edits, ∃ text,
      (ofText t).slice e.range.start e.range.stop = .ok text ∧ e.text = blankOut text := by
  obtain ⟨edits, hedits, h⟩ := bind_eq_ok h
  refine ⟨edits, h, fun e he => ?_⟩
  obtain ⟨found, -, hfound⟩ := exists_of_mapM hedits he
  obtain ⟨text, htext, hedit⟩ := bind_eq_ok hfound
  rw [← Except.ok.inj hedit]
  exact ⟨text, htext, rfl⟩

theorem size_of_stripDestructuring {t out : Text} (h : r.stripDestructuring t = .ok out) :
    out.size = t.size := by
  have hm := Scan.ofText_shows t
  obtain ⟨edits, hout, hedits⟩ := r.stripDestructuring_edits h
  have hkeeps : ∀ e ∈ edits, e.range.start + e.text.size = e.range.stop := by
    intro e he
    obtain ⟨text, htext, hblank⟩ := hedits e he
    rw [hblank, size_blankOut]
    exact (whole_of_slice hm htext).2
  have hsize := size_of_splice hm hkeeps hout
  rw [size_ofText] at hsize
  omega

end Resolving

end Resolver

/-- No piece of the component reaches the limit of reported positions when it is moved. -/
def Component.Shiftable (c : Component) (d : Nat) : Prop :=
  ∀ s ∈ c.snippets, s.text.Shiftable d s.range.start

/-- What was cut out of a text stays below the limit as long as the text does. -/
theorem Component.Lies.shiftable {t : Text} {c : Component} {d : Nat} (h : c.Lies (ofText t))
    (hlimit : d + t.size ≤ Span.limit) : c.Shiftable d := by
  have hm := Scan.ofText_shows t
  intro s hs
  obtain ⟨start, stop, hcut, hs⟩ := h.snippets s hs
  have hwhole := hcut.whole hm
  obtain ⟨-, hsize, hrange⟩ := (Snippet.cut_yields hm hwhole).of_eq hs
  have hstop := isBoundary_le hm hwhole.right
  rw [size_ofText] at hstop
  rw [Text.Shiftable, hrange]
  dsimp only [Span.clamp]
  omega

namespace Conversion

/-- The parts moved to the right. -/
def Parts.shift (p : Parts) (d : Nat) : Parts where
  model := p.model.shift d
  values := p.values.map (·.shift d)
  setup := (p.setup.1, p.setup.2.map (·.shift d))
  cleanup := (p.cleanup.1, p.cleanup.2.map (·.shift d))
  bodies := p.bodies.map (·.shift d)
  stripped := p.stripped
  prelude := p.prelude.shift d
  template := p.template.shift d

section Assembly

variable {d : Nat}

theorem reportOnce_shift (seen : List Notice) (ws : List Warning) :
    reportOnce seen (ws.map (·.shift d)) = (reportOnce seen ws).map (·.shift d) := by
  induction ws generalizing seen with
  | nil => rfl
  | cons w ws ih =>
    have hnotice : (w.shift d).notice = w.notice := rfl
    rw [List.map_cons, reportOnce, reportOnce, hnotice, ih, ih]
    split
    · split <;> rfl
    · rfl

section

variable (p : Parts) (c : Component)
include p c

theorem Parts.resolver_shift (receivers : List Text) :
    (p.shift d).resolver (c.shift d) receivers = p.resolver c receivers := by
  simp only [resolver, shift, StateModel.shift, Component.shift, List.map_map]
  rfl

theorem Parts.sections_shift : (p.shift d).sections (c.shift d) = p.sections c := by
  simp only [sections, shift, StateModel.shift, Component.shift, List.isEmpty_map, List.zip_map,
    List.flatMap_map, List.map_map]
  rfl

theorem Parts.warnings_shift :
    (p.shift d).warnings (c.shift d) = (p.warnings c).map (·.shift d) := by
  simp only [warnings, shift, StateModel.shift, Component.shift, Resolved.shift, List.map_append,
    List.flatMap_map, List.map_flatMap]

theorem Parts.conversion_shift : (p.shift d).conversion (c.shift d) = (p.conversion c).shift d := by
  have hempty : (p.shift d).model.entries.isEmpty = p.model.entries.isEmpty := List.isEmpty_map
  unfold conversion
  rw [hempty, p.sections_shift, p.warnings_shift, reportOnce_shift]
  rfl

end

theorem resolveSnippet_mirrors (r : Resolver) {s : Snippet} (h : s.text.Shiftable d s.range.start) :
    Mirrors (resolveSnippet r s) (resolveSnippet r (s.shift d)) fun x y => y = x.shift d :=
  r.resolve_mirrors h

theorem resolveOption_mirrors (r : Resolver) {s : Option Snippet}
    (h : ∀ u ∈ s, u.text.Shiftable d u.range.start) :
    Mirrors (resolveOption r s) (resolveOption r (s.map (·.shift d)))
      fun x y => y = (x.1, x.2.map (·.shift d)) := by
  cases s with
  | none => exact .ok rfl
  | some u =>
    refine (resolveSnippet_mirrors r (h u rfl)).bind fun x _ hx => ?_
    subst hx
    exact .ok rfl

/-- The parts of a component that is moved are the parts of the component, moved. -/
theorem Parts.From.shift {p : Parts} {c : Component} {receivers : List Text}
    (h : p.From c receivers) (hc : c.Shiftable d) : (p.shift d).From (c.shift d) receivers := by
  have hstate : ∀ s ∈ c.state, s.text.Shiftable d s.range.start :=
    fun s hs => hc s (by simp [snippets, Option.mem_def.mp hs])
  have hmount : ∀ s ∈ c.mount, s.text.Shiftable d s.range.start :=
    fun s hs => hc s (by simp [snippets, Option.mem_def.mp hs])
  have hunmount : ∀ s ∈ c.unmount, s.text.Shiftable d s.range.start :=
    fun s hs => hc s (by simp [snippets, Option.mem_def.mp hs])
  have hmethods : ∀ method ∈ c.methods, method.body.text.Shiftable d method.body.range.start :=
    fun method hmethod => hc method.body (by
      have := List.mem_map_of_mem (f := Method.body) hmethod
      simp [snippets, this])
  have hstripped : p.stripped.Shiftable d c.prelude.range.start := by
    rw [Text.Shiftable, Resolver.size_of_stripDestructuring _ h.stripped]
    exact hc c.prelude (by simp [snippets])
  have htemplate := hc c.template (by simp [snippets])
  obtain ⟨_, hmodel, rfl, hentries⟩ := StateModel.build_mirrors hstate _ h.model
  have hvalues : Mirrors (p.model.entries.mapM fun entry =>
        (p.resolver c receivers).resolve entry.value entry.range.start)
      ((p.model.entries.map (·.shift d)).mapM fun entry =>
        (p.resolver c receivers).resolve entry.value entry.range.start)
      fun xs ys => ys = xs.map (·.shift d) :=
    Mirrors.mapM fun entry hentry => Resolver.resolve_mirrors _ (hentries entry hentry)
  have hbodies : Mirrors
      (c.methods.mapM fun method => resolveSnippet (p.resolver c receivers) method.body)
      ((c.methods.map (·.shift d)).mapM fun method =>
        resolveSnippet (p.resolver c receivers) method.body)
      fun xs ys => ys = xs.map (·.shift d) :=
    Mirrors.mapM fun method hmethod => resolveSnippet_mirrors _ (hmethods method hmethod)
  obtain ⟨_, hvalues, rfl⟩ := hvalues _ h.values
  obtain ⟨_, hsetup, rfl⟩ := resolveOption_mirrors _ hmount _ h.setup
  obtain ⟨_, hcleanup, rfl⟩ := resolveOption_mirrors _ hunmount _ h.cleanup
  obtain ⟨_, hbodies, rfl⟩ := hbodies _ h.bodies
  obtain ⟨_, hprelude, rfl⟩ := Resolver.resolve_mirrors _ hstripped _ h.prelude
  obtain ⟨_, htemplate, rfl⟩ := resolveSnippet_mirrors _ htemplate _ h.template
  rw [← p.resolver_shift (d := d)] at hvalues hsetup hcleanup hbodies hprelude htemplate
  refine ⟨hmodel, hvalues, hsetup, hcleanup, hbodies, ?_, hprelude, htemplate⟩
  rw [p.resolver_shift]
  exact h.stripped

/-- A component that is moved gives the same module, and what is reported about it is moved. -/
theorem assemble_shift {c : Component} {receivers : List Text} {conv : Conversion}
    (h : assemble c receivers = .ok conv) (hc : c.Shiftable d) :
    assemble (c.shift d) receivers = .ok (conv.shift d) := by
  obtain ⟨p, hp, rfl⟩ := assemble_iff.mp h
  exact assemble_iff.mpr ⟨p.shift d, hp.shift hc, (p.conversion_shift c).symm⟩

end Assembly

end Conversion

end Declass
