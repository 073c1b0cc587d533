import Declass.Component
import Mathlib.Tactic

/-!
# Computations that end with a value

`Yields x P` says that a checked computation does not fail and that its value has property `P`.  The
rules below follow the way computations are put together, so that one lemma per function of the
library is enough: a caller uses what the lemma says of the value and never opens the function.

An extraction can also be refused.  `Faultless x P` allows that, but no fault.
-/

namespace Declass

variable {ε α β : Type} {f : α → Except ε β} {b : β} {l : List α}

/-- A computation in two steps ends with a value only if both steps do. -/
theorem bind_eq_ok {x : Except ε α} (h : x >>= f = .ok b) : ∃ a, x = .ok a ∧ f a = .ok b := by
  cases x with
  | error e => cases h
  | ok a => exact ⟨a, rfl, h⟩

theorem bind_of_eq_ok {x : Except ε α} {a : α} (h : x = .ok a) : x >>= f = f a := by
  rw [h]
  rfl

/-- A checked map that ends with values gives one for each element. -/
theorem mapM_eq_ok {bs : List β} (h : l.mapM f = .ok bs) :
    List.Forall₂ (fun a b => f a = .ok b) l bs := by
  induction l generalizing bs with
  | nil =>
    cases h
    exact .nil
  | cons a l ih =>
    rw [List.mapM_cons] at h
    obtain ⟨b, hb, h⟩ := bind_eq_ok h
    obtain ⟨bs', hbs, h⟩ := bind_eq_ok h
    cases h
    exact .cons hb (ih hbs)

/-- Each member of one of two lists that correspond has a partner in the other. -/
theorem partners_of_forall₂ {R : α → β → Prop} {l' : List β} (h : List.Forall₂ R l l') :
    (∀ b ∈ l', ∃ a ∈ l, R a b) ∧ ∀ a ∈ l, ∃ b ∈ l', R a b := by
  induction h with
  | nil => exact ⟨nofun, nofun⟩
  | cons hab _ ih =>
    simp only [List.forall_mem_cons, List.exists_mem_cons_iff]
    exact ⟨⟨.inl hab, fun b hb => .inr (ih.1 b hb)⟩, .inl hab, fun a ha => .inr (ih.2 a ha)⟩

/-- What a mapped list holds came from the list. -/
theorem exists_of_mapM {bs : List β} (h : l.mapM f = .ok bs) (hb : b ∈ bs) : ∃ a ∈ l, f a = .ok b :=
  (partners_of_forall₂ (mapM_eq_ok h)).1 b hb

/-- What each step of a fold keeps, the whole fold keeps. -/
theorem foldlM_eq_ok {f : β → α → Except ε β} {P : β → Prop} {b' : β} (h : l.foldlM f b = .ok b')
    (hb : P b) (hstep : ∀ b, ∀ a ∈ l, ∀ b', P b → f b a = .ok b' → P b') : P b' := by
  induction l generalizing b with
  | nil =>
    cases h
    exact hb
  | cons a l ih =>
    obtain ⟨next, hnext, h⟩ := bind_eq_ok h
    exact ih h (hstep b a (by simp) next hb hnext) fun b a' ha' =>
      hstep b a' (List.mem_cons_of_mem _ ha')

theorem filterAuxM_eq_ok {f : α → Except ε Bool} {g : α → Bool} {acc : List α}
    (h : ∀ a ∈ l, f a = .ok (g a)) : l.filterAuxM f acc = .ok ((l.filter g).reverse ++ acc) := by
  induction l generalizing acc with
  | nil => rfl
  | cons a l ih =>
    rw [List.filterAuxM, bind_of_eq_ok (h a (by simp)), ih fun a' ha' => h a' (by simp [ha'])]
    cases hg : g a with
    | true => simp [hg]
    | false => simp [hg]

theorem filterM_eq_ok {f : α → Except ε Bool} {g : α → Bool} (h : ∀ a ∈ l, f a = .ok (g a)) :
    l.filterM f = .ok (l.filter g) := by
  rw [List.filterM, bind_of_eq_ok (filterAuxM_eq_ok h), List.append_nil, List.reverse_reverse]
  rfl

/-- The computation ends with a value that has property `P`. -/
def Yields {ε α : Type} (x : Except ε α) (P : α → Prop) : Prop := ∃ a, x = .ok a ∧ P a

namespace Yields

variable {ε α β : Type} {P : α → Prop} {Q : β → Prop} {x : Except ε α} {l : List α}

theorem ok {a : α} (h : P a) : Yields (Except.ok a : Except ε α) P := ⟨a, rfl, h⟩

theorem bind {f : α → Except ε β} (hx : Yields x P) (hf : ∀ a, P a → Yields (f a) Q) :
    Yields (x >>= f) Q := by
  obtain ⟨a, rfl, ha⟩ := hx
  exact hf a ha

theorem mono {R : α → Prop} (hx : Yields x P) (h : ∀ a, P a → R a) : Yields x R := by
  obtain ⟨a, rfl, ha⟩ := hx
  exact ⟨a, rfl, h a ha⟩

/-- What is known of the value of a computation that is known to end with `a`. -/
theorem of_eq {a : α} (hx : Yields x P) (h : x = .ok a) : P a := by
  obtain ⟨b, hb, hP⟩ := hx
  rw [h] at hb
  cases hb
  exact hP

theorem ne_error (hx : Yields x P) (e : ε) : x ≠ .error e := by
  obtain ⟨a, rfl, -⟩ := hx
  simp

/-- The values that a checked map gives, one for each element. -/
theorem mapM {f : α → Except ε β} {R : α → β → Prop} (h : ∀ a ∈ l, Yields (f a) (R a)) :
    Yields (l.mapM f) (List.Forall₂ R l) := by
  induction l with
  | nil =>
    exact ok .nil
  | cons a l ih =>
    rw [List.mapM_cons]
    refine bind (h a (by simp)) fun b hb => ?_
    refine bind (ih fun a' ha' => h a' (by simp [ha'])) fun bs hbs => ?_
    exact ok (.cons hb hbs)

theorem foldlM {f : β → α → Except ε β} {b : β} (hb : Q b)
    (h : ∀ b, ∀ a ∈ l, Q b → Yields (f b a) Q) : Yields (l.foldlM f b) Q := by
  induction l generalizing b with
  | nil =>
    exact ok hb
  | cons a l ih =>
    refine bind (h b a (by simp) hb) fun b' hb' => ?_
    exact ih hb' fun b'' a' ha' => h b'' a' (by simp [ha'])

/-- The elements that a checked filter keeps. -/
theorem filterM {f : α → Except ε Bool} (h : ∀ a ∈ l, Yields (f a) fun _ => True) :
    Yields (l.filterM f) (fun kept => ∀ a ∈ kept, a ∈ l ∧ f a = .ok true) := by
  have hvalue : ∀ a ∈ l, f a = .ok ((f a).toOption.getD false) := by
    intro a ha
    obtain ⟨b, hb, -⟩ := h a ha
    rw [hb]
    rfl
  refine ⟨_, filterM_eq_ok hvalue, fun a ha => ?_⟩
  obtain ⟨hmem, hkept⟩ := List.mem_filter.mp ha
  exact ⟨hmem, (hvalue a hmem).trans (by rw [hkept])⟩

end Yields

theorem check_eq_ok {α : Type} {x : Except Fault α} {a : α} (h : Failure.check x = .ok a) :
    x = .ok a := by
  cases x with
  | error e => cases h
  | ok b =>
    cases h
    rfl

/-- The extraction ends with a value that has property `P`, or it is refused. -/
def Faultless {α : Type} (x : Except Failure α) (P : α → Prop) : Prop :=
  (∃ refusal, x = .error (.refused refusal)) ∨ Yields x P

namespace Faultless

variable {α β : Type} {P : α → Prop} {Q : β → Prop} {x : Except Failure α}

theorem refused (refusal : Refusal) : Faultless (throw (.refused refusal) : Except Failure α) P :=
  .inl ⟨refusal, rfl⟩

theorem ok {a : α} (h : P a) : Faultless (Except.ok a : Except Failure α) P := .inr (.ok h)

theorem check {x : Except Fault α} (hx : Yields x P) : Faultless (Failure.check x) P := by
  obtain ⟨a, rfl, ha⟩ := hx
  exact ok ha

theorem bind {f : α → Except Failure β} (hx : Faultless x P) (hf : ∀ a, P a → Faultless (f a) Q) :
    Faultless (x >>= f) Q := by
  rcases hx with ⟨refusal, rfl⟩ | ⟨a, rfl, ha⟩
  · exact .inl ⟨refusal, rfl⟩
  · exact hf a ha

theorem of_eq {a : α} (hx : Faultless x P) (h : x = .ok a) : P a := by
  rcases hx with ⟨refusal, hr⟩ | hx
  · rw [h] at hr
    cases hr
  · exact hx.of_eq h

theorem ne_fault (hx : Faultless x P) (fault : Fault) : x ≠ .error (.fault fault) := by
  rcases hx with ⟨refusal, rfl⟩ | hx
  · simp
  · exact hx.ne_error _

end Faultless

end Declass
