import Declass.Batch
import Declass.Proofs.Extraction

/-!
# Accounting for a batch

**Input.** Options, the sources of a batch, and a sink that may take or refuse whatever it is given.

**Algorithm.** Whether a source is skipped is decided before it is converted, and `isSkipped_eq`
says that converting it would have come to the same.  `Accounts` is what the report on one source
says, given the answer of the sink.  Source after source, the sink is in the state in which the
`calls` before have left it.

**Results.** `every_source_accounted`: every source has its report, every source that does not lack
a class component reaches the sink once, and the counts add up, in whichever order the sources come.
-/

namespace Declass

/-- A computation in two steps fails in the first or in the second. -/
theorem bind_eq_error {ε α β : Type} {x : Except ε α} {f : α → Except ε β} {e : ε}
    (h : x >>= f = .error e) : x = .error e ∨ ∃ a, x = .ok a ∧ f a = .error e := by
  cases x with
  | error e' =>
    cases h
    exact .inl rfl
  | ok a => exact .inr ⟨a, rfl, h⟩

theorem check_ne_refused {α : Type} {x : Except Fault α} {refusal : Refusal} :
    Failure.check x ≠ .error (.refused refusal) := by
  cases x with
  | error fault => simp [Failure.check, Except.mapError]
  | ok a => simp [Failure.check, Except.mapError]

/-- A refusal comes from what is done with the result of a check, never from the check. -/
theorem refused_of_check {α β : Type} {x : Except Fault α} {f : α → Except Failure β}
    {refusal : Refusal} (h : Failure.check x >>= f = .error (.refused refusal)) :
    ∃ a, f a = .error (.refused refusal) := by
  rcases bind_eq_error h with h | ⟨a, -, h⟩
  · exact absurd h check_ne_refused
  · exact ⟨a, h⟩

namespace Component

open CodeMap

theorem splitRender_refusal {m : CodeMap} {body : Body} {refusal : Refusal}
    (h : splitRender m body = .error (.refused refusal)) : refusal = .noRenderExpression := by
  cases body with
  | expression range =>
    obtain ⟨prelude, h⟩ := refused_of_check h
    obtain ⟨template, h⟩ := refused_of_check h
    cases h
  | block range =>
    obtain ⟨returns, h⟩ := refused_of_check h
    cases hlast : returns.getLast? with
    | none =>
      rw [hlast] at h
      cases h
      rfl
    | some ret =>
      rw [hlast] at h
      dsimp only at h
      split at h
      · cases h
        rfl
      split at h
      · cases h
        rfl
      obtain ⟨prelude, h⟩ := refused_of_check h
      obtain ⟨template, h⟩ := refused_of_check h
      cases h

/-- An extraction finds no class component exactly where none is declared. -/
theorem extract_notAClassComponent_iff {t : Text} (receivers : List Text) :
    extract t receivers = .error (.refused .notAClassComponent) ↔ isClass t = false := by
  unfold extract isClass
  dsimp only
  cases findDeclaration? (ofText t) t with
  | none => simp [throw, throwThe, MonadExceptOf.throw]
  | some header =>
    simp only [Option.isSome_some, Bool.true_eq_false, iff_false]
    intro h
    split at h
    · obtain ⟨found, h⟩ := refused_of_check h
      split at h
      · rcases bind_eq_error h with h | ⟨pieces, -, h⟩
        · cases splitRender_refusal h
        · cases h
      · cases h
    · cases h

end Component

theorem convert_notAClassComponent_iff {t : Text} {receivers : List Text} :
    convert t receivers = .error (.refused .notAClassComponent) ↔ Component.isClass t = false := by
  rw [← Component.extract_notAClassComponent_iff receivers]
  constructor
  · intro h
    rcases bind_eq_error h with h | ⟨component, -, h⟩
    · exact h
    · exact absurd h check_ne_refused
  · intro h
    rw [convert, h]
    rfl

theorem transform_ne_internalFault {identifier t : Text} {o : Options} {result : Transformed}
    (h : transform identifier t o = .ok result) (message : Text) :
    result.outcome ≠ .passedThrough (.internalFault message) := by
  unfold transform at h
  split at h
  · cases h
    simp
  · split at h
    · cases h
      simp
    · cases h
      simp [Transformed.unchanged]
    · cases h

namespace Sink

variable {σ : Type}

/-- The state in which a list of calls leaves the sink. -/
def after (sink : Sink σ) (calls : List (Source × Transformed)) (state : σ) : σ :=
  calls.foldl (fun state call => (sink.accept call.1 call.2 state).1) state

/-- The sink decides on each text by itself, whatever it was given before. -/
def Steady (sink : Sink σ) : Prop :=
  ∀ source result state state',
    (sink.accept source result state).2 = (sink.accept source result state').2

end Sink

namespace Batch

section Sources

variable (o : Options) (source : Source)

/-- Whether `transform` leaves the source as it is because it declares no class component. -/
def lacksClass : Bool :=
  match transform source.identifier source.text o with
  | .ok result => result.outcome == .passedThrough (.refused .notAClassComponent)
  | .error _ => false

/-- What there is to hand on: what `transform` gives, or the text itself if the conversion
faults. -/
def handed : Transformed :=
  match transform source.identifier source.text o with
  | .ok result => result
  | .error fault => .unchanged source.text (.internalFault fault.message)

theorem handed_of_ok {result : Transformed}
    (h : transform source.identifier source.text o = .ok result) : handed o source = result := by
  rw [handed, h]

theorem handed_code_of_error {fault : Fault}
    (h : transform source.identifier source.text o = .error fault) :
    (handed o source).code = source.text := by
  rw [handed, h, Transformed.unchanged_code]

/-- The status of the source if the sink, once it is asked, answers with `refusal`. -/
def statusFor (refusal : Option SinkError) : Status :=
  if lacksClass o source then .skipped
  else
    match refusal, transform source.identifier source.text o with
    | some error, _ => .errored (.notTaken error)
    | none, .error fault => .errored (.fault fault)
    | none, .ok result => .written result.outcome

/-- The calls of the sink for a list of sources. -/
def calls (sources : List Source) : List (Source × Transformed) :=
  (sources.filter (!lacksClass o ·)).map fun source => (source, handed o source)

/-- The source is skipped exactly if it would be left as it is for want of a class component. -/
theorem isSkipped_eq : isSkipped o source = lacksClass o source := by
  unfold isSkipped lacksClass transform
  cases o.fixedModule? source.identifier with
  | some entry => rfl
  | none =>
    cases hclass : Component.isClass source.text with
    | false =>
      rw [convert_notAClassComponent_iff.mpr hclass]
      rfl
    | true =>
      have hne : convert source.text o.receivers ≠ .error (.refused .notAClassComponent) :=
        fun h => by simp [convert_notAClassComponent_iff.mp h] at hclass
      cases hconvert : convert source.text o.receivers with
      | ok conversion => rfl
      | error failure =>
        cases failure with
        | fault fault => rfl
        | refused refusal =>
          cases refusal with
          | noRenderExpression => rfl
          | notAClassComponent => exact absurd hconvert hne

end Sources

/-- The report says what became of the source, which the sink answers with `refusal` if it is
asked. -/
structure Accounts (o : Options) (source : Source) (refusal : Option SinkError)
    (report : FileReport) : Prop where
  identifier : report.identifier = source.identifier
  skipped : report.status = .skipped ↔ lacksClass o source = true
  errored : (∃ error, report.status = .errored error) ↔ lacksClass o source = false ∧
    (refusal.isSome = true ∨ ∃ fault, transform source.identifier source.text o = .error fault)
  written : ∀ outcome, report.status = .written outcome ↔ lacksClass o source = false ∧
    refusal = none ∧ ∃ result, transform source.identifier source.text o = .ok result ∧
      result.outcome = outcome
  classed : report.status ≠ .written (.passedThrough (.refused .notAClassComponent))
  faultless : ∀ message, report.status ≠ .written (.passedThrough (.internalFault message))

theorem accounts_of_status {o : Options} {source : Source} {refusal : Option SinkError}
    {report : FileReport} (hidentifier : report.identifier = source.identifier)
    (hstatus : report.status = statusFor o source refusal) : Accounts o source refusal report := by
  unfold statusFor at hstatus
  cases hlacks : lacksClass o source with
  | true =>
    constructor <;> simp [hidentifier, hstatus, hlacks]
  | false =>
    cases refusal with
    | some error => constructor <;> simp [hidentifier, hstatus, hlacks]
    | none =>
      cases htransform : transform source.identifier source.text o with
      | error fault =>
        constructor <;> simp [hidentifier, hstatus, hlacks, htransform]
      | ok result =>
        have hclassed : result.outcome ≠ .passedThrough (.refused .notAClassComponent) := by
          simpa [lacksClass, htransform] using hlacks
        have hfaultless := transform_ne_internalFault htransform
        constructor <;> simp [hidentifier, hstatus, hlacks, htransform, hclassed, hfaultless]

section Steps

variable {σ : Type} (sink : Sink σ) (o : Options)

/-- One source: its status, and the state in which it leaves the sink. -/
theorem process_eq (source : Source) (state : σ) :
    (process sink o source state).1.identifier = source.identifier ∧
    (process sink o source state).1.status =
      statusFor o source (sink.accept source (handed o source) state).2 ∧
    (process sink o source state).2 = sink.after (calls o [source]) state := by
  unfold process statusFor
  rw [isSkipped_eq]
  cases hlacks : lacksClass o source with
  | true => simp [calls, hlacks, Sink.after]
  | false =>
    have hcalls : calls o [source] = [(source, handed o source)] := by simp [calls, hlacks]
    rw [hcalls]
    unfold result handed
    cases htransform : transform source.identifier source.text o with
    | error fault =>
      dsimp only
      cases (sink.accept source (.unchanged source.text (.internalFault fault.message))
        state).2 with
      | none => exact ⟨rfl, rfl, rfl⟩
      | some error => exact ⟨rfl, rfl, rfl⟩
    | ok given =>
      dsimp only
      cases (sink.accept source given state).2 with
      | none => exact ⟨rfl, rfl, rfl⟩
      | some error => exact ⟨rfl, rfl, rfl⟩

theorem processAll_cons (source : Source) (sources : List Source) (state : σ) :
    processAll sink o (source :: sources) state = ((process sink o source state).1 ::
          (processAll sink o sources (process sink o source state).2).1,
        (processAll sink o sources (process sink o source state).2).2) := rfl

/-- Sources one after the other: those that come later find the sink as the earlier ones left it. -/
theorem processAll_append (before sources : List Source) (state : σ) :
    processAll sink o (before ++ sources) state = ((processAll sink o before state).1 ++
          (processAll sink o sources (processAll sink o before state).2).1,
        (processAll sink o sources (processAll sink o before state).2).2) := by
  induction before generalizing state with
  | nil => rfl
  | cons source before ih =>
    rw [List.cons_append, processAll_cons, ih]
    rfl

/-- The sink is called as `calls` lists it, and not otherwise. -/
theorem processAll_state (sources : List Source) (state : σ) :
    (processAll sink o sources state).2 = sink.after (calls o sources) state := by
  induction sources generalizing state with
  | nil => rfl
  | cons source sources ih =>
    have hcalls : calls o (source :: sources) = calls o [source] ++ calls o sources := by
      cases hlacks : lacksClass o source with
      | true => simp [calls, hlacks]
      | false => simp [calls, hlacks]
    rw [processAll_cons, hcalls, ih, (process_eq sink o source state).2.2, Sink.after, Sink.after,
      Sink.after, List.foldl_append]

theorem processAll_length (sources : List Source) (state : σ) :
    (processAll sink o sources state).1.length = sources.length := by
  induction sources generalizing state with
  | nil => rfl
  | cons source sources ih =>
    rw [processAll_cons]
    simp [ih]

theorem processAll_accounts (before : List Source) (source : Source) (behind : List Source)
    (state : σ) : ∃ report,
      (processAll sink o (before ++ source :: behind) state).1[before.length]? = some report ∧
      Accounts o source
        (sink.accept source (handed o source) (sink.after (calls o before) state)).2 report := by
  obtain ⟨hidentifier, hstatus, -⟩ := process_eq sink o source (sink.after (calls o before) state)
  refine ⟨_, ?_, accounts_of_status hidentifier hstatus⟩
  rw [processAll_append, processAll_state, List.getElem?_append_right (by rw [processAll_length]),
    processAll_length, Nat.sub_self]
  rfl

/-- With a sink that decides on each text by itself, the statuses depend on the sources alone. -/
theorem statuses_of_steady {sink : Sink σ} (hsink : sink.Steady) (sources : List Source)
    (state origin : σ) : (processAll sink o sources state).1.map (·.status) =
      sources.map fun source =>
        statusFor o source (sink.accept source (handed o source) origin).2 := by
  induction sources generalizing state with
  | nil => rfl
  | cons source sources ih =>
    rw [processAll_cons]
    simp only [List.map_cons, ih, (process_eq sink o source state).2.1,
      hsink source (handed o source) state origin]

end Steps

end Batch

namespace Summary

/-- What the counts of a batch have in common after each report. -/
structure Balances (s : Summary) (n : Nat) : Prop where
  total : s.total = n
  passedThrough : s.passedThrough ≤ s.converted

theorem Balances.record {s : Summary} {n : Nat} (h : s.Balances n) (status : Status) :
    (s.record status).Balances (n + 1) := by
  obtain ⟨htotal, hpassed⟩ := h
  unfold Summary.total at htotal
  cases status with
  | written outcome =>
    refine ⟨?_, ?_⟩
    · simp only [Summary.record, Summary.total]
      omega
    · simp only [Summary.record]
      split <;> omega
  | skipped => exact ⟨by simp only [Summary.record, Summary.total]; omega, hpassed⟩
  | errored error => exact ⟨by simp only [Summary.record, Summary.total]; omega, hpassed⟩

theorem balances_foldl {s : Summary} {n : Nat} (h : s.Balances n) (reports : List FileReport) :
    (reports.foldl (fun s report => s.record report.status) s).Balances (n + reports.length) := by
  induction reports generalizing s n with
  | nil => exact h
  | cons report reports ih =>
    have hall := ih (h.record report.status)
    rwa [Nat.add_assoc, Nat.add_comm 1] at hall

theorem record_comm (s : Summary) (a b : Status) :
    (s.record a).record b = (s.record b).record a := by
  cases a <;> cases b <;> simp [record, Nat.add_right_comm]

theorem ofReports_perm {reports reports' : List FileReport}
    (h : (reports.map (·.status)).Perm (reports'.map (·.status))) :
    ofReports reports = ofReports reports' := by
  have : RightCommutative record := ⟨record_comm⟩
  have hfold := h.foldl_eq (f := record) empty
  rwa [List.foldl_map, List.foldl_map] at hfold

end Summary

namespace Batch

/-- A batch gives one report for each source, in order, and each accounts for its source, given what
the sink answers in the state in which the sources before it have left it.  The sink is called once
for each source that does not lack a class component, in order, with what `transform` gives or with
the text itself if the conversion faults.  The counts add up to the number of sources, and if the
sink decides on each text by itself they are the same for every order of the sources. -/
theorem every_source_accounted {σ : Type} (sink : Sink σ) (o : Options) (sources : List Source)
    (state : σ) :
    (processAll sink o sources state).1.length = sources.length ∧
    (∀ before source behind, sources = before ++ source :: behind → ∃ report,
      (processAll sink o sources state).1[before.length]? = some report ∧
        Accounts o source
          (sink.accept source (handed o source) (sink.after (calls o before) state)).2 report) ∧
    (processAll sink o sources state).2 = sink.after (calls o sources) state ∧
    (∀ source ∈ sources,
      (∀ result, transform source.identifier source.text o = .ok result →
        handed o source = result) ∧
      ∀ fault, transform source.identifier source.text o = .error fault →
        (handed o source).code = source.text) ∧
    (Summary.ofReports (processAll sink o sources state).1).Balances sources.length ∧
    (sink.Steady → ∀ sources' state', sources.Perm sources' →
      Summary.ofReports (processAll sink o sources' state').1 =
        Summary.ofReports (processAll sink o sources state).1) := by
  refine ⟨processAll_length sink o sources state, ?_, processAll_state sink o sources state,
    fun source _ => ⟨fun _ => handed_of_ok o source, fun _ => handed_code_of_error o source⟩, ?_, ?_⟩
  · rintro before source behind rfl
    exact processAll_accounts sink o before source behind state
  · have hempty : Summary.empty.Balances 0 := ⟨rfl, le_refl 0⟩
    have hall := Summary.balances_foldl hempty (processAll sink o sources state).1
    rwa [Nat.zero_add, processAll_length] at hall
  · intro hsink sources' state' hperm
    refine Summary.ofReports_perm ?_
    rw [statuses_of_steady o hsink sources' state' state,
      statuses_of_steady o hsink sources state state]
    exact (hperm.map _).symm

/-- A sink that keeps what it takes and refuses the component `R`. -/
def pickySink : Sink (List (Text × Text)) where
  accept source result kept :=
    if source.identifier == "R" then (kept, some (.rejected "R"))
    else (kept ++ [(source.identifier, result.code)], none)

/-- A class whose conversion faults if a receiver is empty. -/
def faultySource : Source := ⟨"F", "class F extends Component\x7brender()\x7breturn é\x7d\x7d"⟩

/-- A class without a render method, a text without a class, the class whose conversion faults, and
a class that is refused. -/
def mixedSources : List Source :=
  [⟨"P", "class P extends Component\x7b\x7d"⟩, ⟨"N", "0"⟩, faultySource,
    ⟨"R", "class R extends Component\x7b\x7d"⟩]

/-- All four are accounted for, and counted alike from the end.  The class whose conversion faults
reaches the sink as it is. -/
theorem every_source_accounted_mixed :
    pickySink.Steady ∧
    (∃ report, (processAll pickySink ⟨[[]], true⟩ mixedSources []).1[2]? = some report ∧
      ∃ error, report.status = .errored error) ∧
    (handed ⟨[[]], true⟩ faultySource).code = faultySource.text ∧
    (faultySource.identifier, faultySource.text) ∈
      (processAll pickySink ⟨[[]], true⟩ mixedSources []).2 ∧
    Summary.ofReports (processAll pickySink ⟨[[]], true⟩ mixedSources.reverse []).1 =
      ⟨1, 1, 2, 1⟩ := by
  have hsteady : pickySink.Steady := fun source result state state' => by
    unfold pickySink
    dsimp only
    split <;> rfl
  have hcount : Summary.ofReports (processAll pickySink ⟨[[]], true⟩ mixedSources []).1 =
      ⟨1, 1, 2, 1⟩ := by decide +kernel
  have hfault : transform faultySource.identifier faultySource.text ⟨[[]], true⟩ =
      .error (.badSlice 0 1) := by decide +kernel
  obtain ⟨-, haccounts, hstate, hhanded, -, hperm⟩ :=
    every_source_accounted pickySink ⟨[[]], true⟩ mixedSources []
  obtain ⟨report, hreport, h⟩ := haccounts (mixedSources.take 2) faultySource _ rfl
  refine ⟨hsteady, ⟨report, hreport, h.errored.mpr ⟨by decide +kernel, .inr ⟨_, hfault⟩⟩⟩,
    (hhanded faultySource (by simp [mixedSources])).2 _ hfault, ?_, ?_⟩
  · rw [hstate]
    decide +kernel
  · rw [hperm hsteady mixedSources.reverse [] (List.reverse_perm _).symm, hcount]

end Batch

end Declass
