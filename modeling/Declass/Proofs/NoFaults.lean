import Declass.Proofs.Assembly
import Declass.Run

/-!
# Conversions without faults

**Input.** Any text and any receivers, as long as none of them is empty.

**Results.** `never_faults`: a conversion ends with a module or a refusal, never with a fault.
Every slice that it takes is in order, inside the text and made of whole characters, and every range
that it reports is in order, since anything else is a fault.  Settings only let identifiers through
as receivers, so no run reports a fault either.
-/

namespace Declass

open CodeMap

/-- What becomes of a component is not a fault. -/
def Outcome.IsRegular : Outcome → Prop
  | .passedThrough (.internalFault _) => False
  | _ => True

theorem transform_yields (identifier t : Text) {o : Options} (hr : [] ∉ o.receivers) :
    Yields (transform identifier t o) fun result => result.outcome.IsRegular := by
  unfold transform
  split
  · exact .ok trivial
  · rcases convert_faultless t hr with ⟨refusal, h⟩ | ⟨conversion, h, -⟩
    · rw [h]
      exact .ok trivial
    · rw [h]
      exact .ok trivial

section Runs

variable {args : Arguments} {s : Settings} {started : Text} {tree : FileTree}

/-- The report on a file is not about a fault. -/
def Status.IsRegular : Status → Prop
  | .errored (.fault _) => False
  | .written outcome => outcome.IsRegular
  | _ => True

theorem process_isRegular {σ : Type} (sink : Sink σ) {o : Options} (hr : [] ∉ o.receivers)
    (source : Source) (state : σ) : (Batch.process sink o source state).1.status.IsRegular := by
  obtain ⟨result, hresult, hregular⟩ := transform_yields source.identifier source.text hr
  unfold Batch.process
  split
  · trivial
  · simp only [Batch.result, hresult]
    cases (sink.accept source result state).2 with
    | none => exact hregular
    | some error => trivial

theorem receiversOf_yields {config : ConfigFile} {receivers : List Text}
    (h : Settings.receiversOf args config = .ok receivers) : [] ∉ receivers := by
  unfold Settings.receiversOf at h
  dsimp only at h
  split at h
  · cases h
  · rename_i hnone
    cases h
    intro hnil
    have := List.find?_eq_none.mp hnone [] hnil
    simp [Text.isIdentifier] at this

theorem resolve_receivers {config : ConfigFile} {workspace : Text}
    (h : Settings.resolve args config workspace = .ok s) : [] ∉ s.options.receivers := by
  obtain ⟨receivers, hreceivers, h⟩ := bind_eq_ok h
  cases h
  exact receiversOf_yields hreceivers

theorem settingsOf_receivers (h : Run.settingsOf started args tree = .ok s) :
    [] ∉ s.options.receivers := by
  obtain ⟨config, -, h⟩ := bind_eq_ok h
  split at h
  · cases h
  · rename_i hresolve
    cases h
    exact resolve_receivers hresolve

theorem plan_receivers {files : List Location} (h : Run.plan started args tree = .ok (s, files)) :
    [] ∉ s.options.receivers := by
  obtain ⟨settings, hsettings, h⟩ := bind_eq_ok h
  split at h
  · cases h
  · obtain ⟨ignored, -, h⟩ := bind_eq_ok h
    cases h
    exact settingsOf_receivers hsettings

theorem convertFile_isRegular (hs : [] ∉ s.options.receivers) (relative : Location)
    (tree : FileTree) : (Run.convertFile s relative tree).1.report.status.IsRegular := by
  unfold Run.convertFile
  dsimp only
  split
  · trivial
  · split
    · exact process_isRegular _ hs _ _
    · exact process_isRegular _ hs _ _

theorem convertAll_isRegular (hs : [] ∉ s.options.receivers) (files : List Location)
    (tree : FileTree) : ∀ o ∈ (Run.convertAll s files tree).1, o.report.status.IsRegular := by
  intro o ho
  induction files generalizing tree with
  | nil => simp [Run.convertAll] at ho
  | cons relative rest ih =>
    rcases List.mem_cons.mp ho with rfl | ho
    · exact convertFile_isRegular hs relative tree
    · exact ih _ ho

theorem run_isRegular {finished : Finished} (h : (Run.run started args tree).1 = .ok finished) :
    ∀ o ∈ finished.outcomes, o.report.status.IsRegular := by
  intro o ho
  unfold Run.run at h
  cases hplan : Run.plan started args tree with
  | error e =>
    rw [hplan] at h
    cases h
  | ok plan =>
    have hs := plan_receivers hplan
    rw [hplan] at h
    dsimp only at h
    unfold Run.execute at h
    split at h
    · cases h
    · cases h
      have ho := List.mem_mergeSort.mp ho
      exact convertAll_isRegular hs _ _ o ho

end Runs

/-- A conversion never asks for text that is not there: with receivers that are not empty,
`transform` always gives a text, `convert` gives a module or a refusal, and matching a bracket never
takes a bracket from a count of zero.  The receivers of every run are such, so that no run reports a
fault in any file. -/
theorem never_faults :
    (∀ identifier t o, [] ∉ o.receivers →
      ∃ result, transform identifier t o = .ok result ∧ result.outcome.IsRegular) ∧
    (∀ t receivers, [] ∉ receivers → ∀ fault, convert t receivers ≠ .error (.fault fault)) ∧
    (∀ (m : CodeMap) i, m.matchingChecked i = some (m.matching i)) ∧
    (∀ args config workspace s, Settings.resolve args config workspace = .ok s →
      [] ∉ s.options.receivers) ∧
    (∀ started args tree finished, (Run.run started args tree).1 = .ok finished →
      ∀ o ∈ finished.outcomes, o.report.status.IsRegular) := by
  refine ⟨fun identifier t o hr => transform_yields identifier t hr,
    fun t receivers hr fault => (convert_faultless t hr).ne_fault fault, matchingChecked_eq,
    fun _ _ _ _ h => resolve_receivers h, fun _ _ _ _ h => run_isRegular h⟩

/-- A tree with one component in it, whose brackets are never closed. -/
def unclosedTree : FileTree :=
  ⟨[(["src"], .directory), (["src", "components"], .directory),
    (["src", "components", "class"], .directory),
    (["src", "components", "class", "Open.js"],
      .file (.text "class Open extends Component \x7b\n  f = async (é => \x7b `$\x7b"))]⟩

/-- The usual settings lead to no fault on it. -/
theorem never_faults_unclosed :
    [] ∉ Options.default.receivers ∧
    (∃ result,
      transform "Open" "class Open extends Component \x7b f = async (é => `$\x7b" .default =
        .ok result ∧ result.outcome.IsRegular) ∧
    (∃ s, Settings.resolve .default .empty "/" = .ok s ∧ [] ∉ s.options.receivers) ∧
    (∃ finished, (Run.run "/" .default unclosedTree).1 = .ok finished ∧
      ∀ o ∈ finished.outcomes, o.report.status.IsRegular) :=
  ⟨by decide, never_faults.1 _ _ _ (by decide),
    ⟨_, rfl, never_faults.2.2.2.1 .default .empty "/" _ rfl⟩,
    ⟨_, rfl, never_faults.2.2.2.2 "/" .default unclosedTree _ rfl⟩⟩

end Declass
