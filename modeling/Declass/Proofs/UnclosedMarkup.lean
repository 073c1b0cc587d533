import Declass.Conversion
import Declass.Proofs.MemberUse
import Declass.Proofs.Snippets

/-!
# Markup without an end

**Input.** A source whose elements are not closed, so that the scan for markup finds no end of them
and the source is scanned again without markup.

**Algorithm.** `Component.render?` is the method that the template comes from, and
`Component.returnedAt?` the place at which the expression that it returns starts.

**Results.** `unclosed_markup_refused_iff`: if markup starts there, a render method with a block is
refused and the source is left as it is.  An arrow without a block is not refused, and its template
is the markup up to where the member happens to end.
-/

namespace Declass

open CodeMap Scan

section Fallback

variable {t : Text} {i : Nat}

theorem Scan.State.Plain.move_angle {s : State} (h : s.Plain) (rest : Text) :
    (s.move false '<' rest).kind = .code := by
  obtain ⟨hcontext, braces, hole, below, hmodes⟩ := h
  simp only [State.move, hmodes, hcontext]
  generalize hm : plainMove false s.done braces hole below '<' rest = m
  have hspec := hm ▸ plainMove_spec
  cases hspec with
  | stringOpens hc _ => cases hc
  | templateOpens hc => cases hc
  | lineComment hc _ => cases hc
  | blockComment hc _ => cases hc
  | templateHoleCloses hc _ _ => cases hc
  | elementOpens _ hj _ => cases hj
  | _ => rfl

/-- Where an expression can begin, an angle bracket is code if the scan for markup failed. -/
theorem isCodeChar_angle (hmarkup : withMarkup t = false) (hfree : (ofText t).Free i)
    (h : (ofText t).charAt? i = some '<') : (ofText t).isCodeChar i '<' := by
  have hm := ofText_shows t
  obtain ⟨s, hs, hchar⟩ := Option.bind_eq_some_iff.mp h
  obtain ⟨c, k⟩ := s
  obtain rfl : c = some '<' := hchar
  obtain ⟨pre, post, hps, rfl⟩ := (slot_iff hm).mp hs
  obtain ⟨s, -, htrace, -, hplain, -⟩ := plain_of_free hps hfree
  rw [hmarkup] at htrace
  obtain ⟨qs, hqs⟩ := trace_head false s '<' (post.map Prod.fst)
  rw [hqs, hplain.move_angle] at htrace
  obtain rfl : .code = k := by simpa using (List.cons.inj htrace).1
  exact isCodeChar_iff.mpr hs

end Fallback

/-- The parts of a method named render. -/
def Member.renderParts? (member : Member) : Option FunctionParts :=
  match member.kind with
  | .function parts => if !member.isStatic && member.name == "render" then some parts else none
  | _ => none

theorem Member.renderParts?_eq_some {member : Member} {parts : FunctionParts} :
    member.renderParts? = some parts ↔ member.Renders parts := by
  unfold renderParts?
  constructor
  · intro h
    split at h
    · rename_i parts' hkind
      split at h
      · rename_i hrender
        simp only [Bool.and_eq_true, Bool.not_eq_true', beq_iff_eq] at hrender
        obtain rfl := Option.some.inj h
        exact ⟨hkind, hrender.1, hrender.2⟩
      · cases h
    · cases h
  · rintro ⟨hkind, hstatic, hname⟩
    rw [hkind]
    dsimp only
    rw [if_pos (by simp [hstatic, hname])]

namespace Component

variable {m : CodeMap} {receivers : List Text}

/-- One more member is the render method only if none was found before. -/
theorem Findings.Adds.render_eq {f f' : Findings} {member : Member}
    (h : Findings.Adds m receivers f member f') :
    f'.render = f.render.orElse fun _ => member.renderParts? := by
  cases hparts : member.renderParts? with
  | some parts => rw [h.of_renders (Member.renderParts?_eq_some.mp hparts)]
  | none =>
    have hkept : f.render.orElse (fun _ => none) = f.render := by
      cases f.render <;> rfl
    rw [hkept]
    cases h with
    | render h => rw [Member.renderParts?_eq_some.mpr h] at hparts; cases hparts
    | callback => simp
    | _ => rfl

/-- Of several render methods the first is kept. -/
theorem foldlM_render {members : List Member} {f f' : Findings}
    (h : members.foldlM (Findings.add m receivers) f = .ok f') :
    f'.render = f.render.orElse fun _ => members.findSome? Member.renderParts? := by
  induction members generalizing f with
  | nil =>
    cases h
    cases f'.render <;> rfl
  | cons member members ih =>
    obtain ⟨g, hg, h⟩ := bind_eq_ok h
    have hfirst := (Findings.add_adds hg).render_eq
    rw [ih h, hfirst, List.findSome?_cons]
    cases f.render with
    | some parts => rfl
    | none => cases member.renderParts? <;> rfl

/-- The first method named render of the class component in a source. -/
def render? (t : Text) : Option FunctionParts := do
  let header ← findDeclaration? (ofText t) t
  let body ← classBody? (ofText t) header
  let listing ← (Member.list (ofText t) body.start body.stop).toOption
  listing.members.findSome? Member.renderParts?

/-- Where the expression that render returns starts: behind the last return of a block that stands
in no brackets, and where an arrow without a block has its body. -/
def returnedAt? (m : CodeMap) : Body → Option Nat
  | .block range =>
    ((m.outer m.isCode range.start range.stop).filter (m.stands · "return")).getLast?.map
      fun ret => m.skipTrivia (ret + Text.size "return") range.stop
  | .expression range => some range.start

/-- An extraction cuts up the first render method, whatever the receivers are. -/
theorem extract_of_render {t : Text} {parts : FunctionParts} (h : render? t = some parts)
    (receivers : List Text) : parts.Lies (ofText t) ∧ ∃ name found,
      extract t receivers = (splitRender (ofText t) parts.body).map (of name found) := by
  have hm := ofText_shows t
  obtain ⟨header, hheader, h⟩ := Option.bind_eq_some_iff.mp h
  obtain ⟨body, hbody, h⟩ := Option.bind_eq_some_iff.mp h
  obtain ⟨listing, hlisting, h⟩ := Option.bind_eq_some_iff.mp h
  obtain ⟨hwhole, hend⟩ := classBody?_spec hm hbody
  obtain ⟨listing', hlist, hlies⟩ := Member.list_yields rfl hwhole hend
  rw [hlist] at hlisting
  obtain rfl := Option.some.inj hlisting
  obtain ⟨found, hfound, hfoundLies⟩ := findings_yields rfl receivers hwhole hend
  have hrender : found.render = some parts := by
    have hfold := hfound
    unfold findings at hfold
    rw [bind_of_eq_ok hlist] at hfold
    obtain ⟨assigned, -, hfold⟩ := bind_eq_ok hfold
    rw [foldlM_render hfold, h]
    rfl
  refine ⟨hfoundLies.render parts hrender, header.group, found, ?_⟩
  obtain ⟨o, hopen, rfl⟩ := Option.map_eq_some_iff.mp hbody
  have hcheck : Failure.check (findings (ofText t) receivers (o + 1)
      (((ofText t).matching o).getD (ofText t).size)) = .ok found := by
    rw [hfound]
    rfl
  unfold extract
  dsimp only
  rw [hheader]
  dsimp only
  rw [hopen]
  dsimp only
  rw [bind_of_eq_ok hcheck, hrender]
  dsimp only
  cases splitRender (ofText t) parts.body <;> rfl

end Component

namespace Component

section Refusals

variable {t : Text} {parts : FunctionParts} {range : Span} {i : Nat}

/-- A block that returns markup without an end is refused. -/
theorem splitRender_block (hmarkup : withMarkup t = false)
    (hi : returnedAt? (ofText t) (.block range) = some i)
    (hangle : (ofText t).charAt? i = some '<') :
    splitRender (ofText t) (.block range) = .error (.refused .noRenderExpression) := by
  have hm := ofText_shows t
  obtain ⟨ret, hlast, rfl⟩ := Option.map_eq_some_iff.mp hi
  have hkeywords := keywords_eq hm (w := "return") (by decide) range.start range.stop
  obtain ⟨hfrom, hto, hcode, hstands⟩ :=
    (keywords_yields hm (by decide) range.start range.stop).of_eq hkeywords ret
      (List.mem_of_getLast? hlast)
  have hcheck : Failure.check ((ofText t).keywords range.start range.stop "return") =
      .ok (((ofText t).outer (ofText t).isCode range.start range.stop).filter
        ((ofText t).stands · "return")) := by
    rw [hkeywords]
    rfl
  generalize hstart : (ofText t).skipTrivia (ret + Text.size "return") range.stop = start at hangle
  have hlimit : ((ofText t).findTop start range.stop ';').getD range.stop ≤ range.stop := by
    cases hsemi : (ofText t).findTop start range.stop ';' with
    | none => exact le_refl _
    | some semi => exact le_of_lt (findTop_spec hsemi).2.1
  have htrimmed := trimTrivia_le (ofText t) start
    (((ofText t).findTop start range.stop ';').getD range.stop)
  unfold splitRender
  dsimp only
  rw [bind_of_eq_ok hcheck, hlast]
  dsimp only
  rw [hstart]
  by_cases hlt : start < range.stop
  · have hbehind : (ofText t).Behind (ret + Text.size "return") start :=
      hstart ▸ skipTrivia_behind (hstart ▸ hlt)
    have hfree := (free_of_return hcode hstands).behind hbehind
    rw [if_pos (isCodeChar_angle hmarkup hfree hangle)]
    rfl
  · split
    · rfl
    · rw [if_pos (by omega)]
      rfl

/-- An arrow without a block is never refused: what it returns reaches to the end of its body. -/
theorem splitRender_expression (hlies : parts.Lies (ofText t)) (hbody : parts.body = .expression range)
    (hangle : (ofText t).charAt? range.start = some '<') :
    ∃ prelude template, splitRender (ofText t) parts.body = .ok (prelude, template) ∧
      template.Is (ofText t) range.start range.stop := by
  have hm := ofText_shows t
  have hpiece := hlies.body
  rw [hbody] at hpiece ⊢
  obtain ⟨prelude, hprelude, -⟩ := Cut.yields hm (.empty hpiece.whole.left)
  obtain ⟨template, htemplate, -⟩ := hpiece.yields hm
  have hparen : (ofText t).isCodeChar range.start '(' = false := by
    rw [Bool.eq_false_iff]
    intro hparen
    have hchar : (ofText t).charAt? range.start = some '(' := by
      simp [charAt?, isCodeChar_iff.mp hparen]
    cases hangle.symm.trans hchar
  refine ⟨prelude, template, ?_, htemplate⟩
  dsimp only [Body.range] at hprelude htemplate
  unfold splitRender unwrapParens
  dsimp only
  rw [hprelude, if_neg (by simp [hparen]), htemplate]
  rfl

theorem transform_of_refused {refusal : Refusal} {o : Options} {identifier : Text}
    (ho : o.fixedModule? identifier = none)
    (h : extract t o.receivers = .error (.refused refusal)) :
    transform identifier t o = .ok (.unchanged t (.refused refusal)) := by
  have hconvert : convert t o.receivers = .error (.refused refusal) := by
    rw [convert, h]
    rfl
  rw [transform, ho]
  rw [hconvert]

theorem transform_ne_unchanged {c : Component} {o : Options} {identifier : Text}
    (ho : o.fixedModule? identifier = none) (h : extract t o.receivers = .ok c)
    (reason : PassReason) : transform identifier t o ≠ .ok (.unchanged t reason) := by
  have hconvert : convert t o.receivers = Failure.check (Conversion.assemble c o.receivers) :=
    bind_of_eq_ok h
  rw [transform, ho]
  rw [hconvert]
  intro hunchanged
  cases hassemble : Conversion.assemble c o.receivers with
  | ok conversion =>
    rw [hassemble] at hunchanged
    cases hunchanged
  | error fault =>
    rw [hassemble] at hunchanged
    cases hunchanged

end Refusals

/-- Suppose that the scan for markup fails and that markup starts where render returns its
expression.  With a block the component is refused and its source left as it is.  An arrow without a
block is converted, and its template is the markup up to the end of the arrow. -/
theorem unclosed_markup_refused_iff {t : Text} (hscan : slots? true t = none)
    {parts : FunctionParts} (hrender : render? t = some parts) {i : Nat}
    (hi : returnedAt? (ofText t) parts.body = some i)
    (hangle : (ofText t).charAt? i = some '<') :
    (∀ receivers, extract t receivers = .error (.refused .noRenderExpression) ↔
      ∃ range, parts.body = .block range) ∧
    (∀ identifier o, o.fixedModule? identifier = none →
      (transform identifier t o = .ok ⟨t, .passedThrough (.refused .noRenderExpression), []⟩ ↔
        ∃ range, parts.body = .block range)) ∧
    (∀ range, parts.body = .expression range → ∀ receivers, ∃ c, extract t receivers = .ok c ∧
      c.template.Is (ofText t) range.start range.stop) := by
  have hmarkup : withMarkup t = false := by rw [withMarkup, hscan]; rfl
  have hblock : ∀ range, parts.body = .block range → ∀ receivers,
      extract t receivers = .error (.refused .noRenderExpression) := by
    intro range hbody receivers
    obtain ⟨-, name, found, hextract⟩ := extract_of_render hrender receivers
    rw [hextract, hbody, splitRender_block hmarkup (hbody ▸ hi) hangle]
    rfl
  have hexpression : ∀ range, parts.body = .expression range → ∀ receivers,
      ∃ c, extract t receivers = .ok c ∧ c.template.Is (ofText t) range.start range.stop := by
    intro range hbody receivers
    obtain ⟨hlies, name, found, hextract⟩ := extract_of_render hrender receivers
    obtain rfl : range.start = i := by
      rw [hbody] at hi
      exact Option.some.inj hi
    obtain ⟨prelude, template, hsplit, htemplate⟩ := splitRender_expression hlies hbody hangle
    refine ⟨of name found (prelude, template), ?_, htemplate⟩
    rw [hextract, hsplit]
    rfl
  refine ⟨fun receivers => ?_, fun identifier o ho => ?_, hexpression⟩
  · constructor
    · intro hrefused
      cases hbody : parts.body with
      | block range => exact ⟨range, rfl⟩
      | expression range =>
        obtain ⟨c, hc, -⟩ := hexpression range hbody receivers
        cases hc.symm.trans hrefused
    · rintro ⟨range, hbody⟩
      exact hblock range hbody receivers
  · constructor
    · intro hunchanged
      cases hbody : parts.body with
      | block range => exact ⟨range, rfl⟩
      | expression range =>
        obtain ⟨c, hc, -⟩ := hexpression range hbody o.receivers
        exact absurd hunchanged (transform_ne_unchanged ho hc _)
    · rintro ⟨range, hbody⟩
      exact transform_of_refused ho (hblock range hbody o.receivers)

/-- A class whose render method returns an element that is not closed. -/
def openElementSource : Text := "class A extends Component{render(){return <p>a;b}}"

/-- A class with the same element as the body of an arrow. -/
def openArrowSource : Text := "class A extends Component{render=()=><p>a;b}"

/-- The method with the block is refused. -/
theorem unclosed_markup_refused_block :
    slots? true openElementSource = none ∧
      (∃ parts, render? openElementSource = some parts ∧
        returnedAt? (ofText openElementSource) parts.body = some 42 ∧
        (ofText openElementSource).charAt? 42 = some '<') ∧
      extract openElementSource ["this"] = .error (.refused .noRenderExpression) := by
  have hscan : slots? true openElementSource = none := by decide +kernel
  have hrender : render? openElementSource = some ⟨false, ⟨33, 33⟩, .block ⟨35, 48⟩⟩ := by
    decide +kernel
  have hi : returnedAt? (ofText openElementSource) (.block ⟨35, 48⟩) = some 42 := by decide +kernel
  have hangle : (ofText openElementSource).charAt? 42 = some '<' := by decide +kernel
  exact ⟨hscan, ⟨_, hrender, hi, hangle⟩,
    ((unclosed_markup_refused_iff hscan hrender hi hangle).1 ["this"]).mpr ⟨_, rfl⟩⟩

/-- The arrow is not: its template is the element up to the semicolon. -/
theorem open_arrow_extracted :
    slots? true openArrowSource = none ∧
      render? openArrowSource = some ⟨false, ⟨34, 34⟩, .expression ⟨37, 41⟩⟩ ∧
      (ofText openArrowSource).charAt? 37 = some '<' ∧
      (extract openArrowSource ["this"]).map (·.template) = .ok ⟨"<p>a", ⟨37, 41⟩⟩ := by
  decide +kernel

end Component

end Declass
