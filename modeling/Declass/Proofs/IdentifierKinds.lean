import Declass.Proofs.RelaidScans

/-!
# Identifiers are of one kind

**Input.** A text and two positions between which there are identifier characters only.

**Algorithm.** Outside code, an identifier character leaves the machine where it is: it ends no
string, no comment, no template and no tag.  So the next identifier character is not code either.

**Results.** `isCode_of_ident`: if the position behind identifier characters is an identifier
character of code, all of them are code.
-/

namespace Declass

open Character (isIdentPart)

namespace Scan

variable {jsx : Bool} {s : State} {c : Char} {rest t : Text}

theorem move_outside (hs : ¬s.InPlain) (hc : isIdentPart c) : (s.move jsx c rest).kind ≠ .code := by
  obtain ⟨done, modes, context⟩ := s
  have hspec := move_spec jsx done modes context c rest
  generalize State.move jsx ⟨done, modes, context⟩ c rest = m at hspec ⊢
  cases hspec with
  | ended => exact absurd (.inl rfl) hs
  | plain _ => exact absurd (.inr ⟨rfl, _, _, _, rfl⟩) hs
  | lineEnds h => exact absurd (h ▸ hc) (by decide)
  | tagHole h => exact absurd (h ▸ hc) (by decide)
  | childrenHole h => exact absurd (h ▸ hc) (by decide)
  | _ => nofun

/-- An identifier character that is read together with the one before it leaves the machine outside
code: it was escaped. -/
theorem pair_outside {d : Char} (hpair : (s.move jsx c (d :: rest)).pair)
    (hd : isIdentPart d) (done : List Slot) : ¬State.InPlain
      ⟨done, (s.move jsx c (d :: rest)).modes, (s.move jsx c (d :: rest)).context⟩ := by
  have hne : ∀ {x}, (d :: rest).head? = some x → isIdentPart x ≠ false := fun hx => by
    cases hx
    simp [hd]
  obtain ⟨before, modes, context⟩ := s
  have hspec := move_spec jsx before modes context c (d :: rest)
  generalize State.move jsx ⟨before, modes, context⟩ c (d :: rest) = m at hspec hpair ⊢
  cases hspec with
  | plain hplain =>
    cases hplain with
    | lineComment _ h => exact absurd rfl (hne h)
    | blockComment _ h => exact absurd rfl (hne h)
    | _ => cases hpair
  | commentCloses _ h => exact absurd rfl (hne h)
  | templateHole _ h => exact absurd rfl (hne h)
  | elementCloses _ h => exact absurd rfl (hne h)
  | stringEscape _ => simp [State.InPlain, State.Plain]
  | templateEscape _ => simp [State.InPlain, State.Plain]
  | _ => cases hpair

/-- An identifier character that is read by itself, and not as code, leaves the machine outside
code. -/
theorem single_outside (hs : s.Fits (c :: rest)) (hpair : (s.move jsx c rest).pair = false)
    (hc : isIdentPart c) (h : (s.move jsx c rest).kind ≠ .code) (done : List Slot) :
    ¬State.InPlain ⟨done, (s.move jsx c rest).modes, (s.move jsx c rest).context⟩ := by
  have hout : ¬s.InPlain := fun hin => h (move_plainChar hin (isPlainChar_of_isIdentPart hc))
  have hstring := hs.string
  obtain ⟨before, modes, context⟩ := s
  have hspec := move_spec jsx before modes context c rest
  generalize State.move jsx ⟨before, modes, context⟩ c rest = m at hspec hpair h ⊢
  cases hspec with
  | ended => exact absurd rfl h
  | plain _ => exact absurd (.inr ⟨rfl, _, _, _, rfl⟩) hout
  | stringCloses _ =>
    have hquote := hstring c rfl
    simp only [isQuote, Bool.or_eq_true, beq_iff_eq] at hquote
    rcases hquote with rfl | rfl <;> exact absurd hc (by decide)
  | templateCloses hback => exact absurd (hback ▸ hc) (by decide)
  | tagCloses hangle => exact absurd (hangle ▸ hc) (by decide)
  | _ => simp_all [State.InPlain, State.Plain]

/-- In front of an identifier character of code, such a character is code. -/
def CodeCameOn (p q : Char × Kind) : Prop :=
  isIdentPart p.1 = true → isIdentPart q.1 = true → q.2 = .code → p.2 = .code

theorem trace_codeCameOn (jsx : Bool) (s : State) (t : Text) (hs : s.Fits t) :
    (trace jsx s t).IsChain CodeCameOn ∧ (¬s.InPlain → ∀ p ∈ (trace jsx s t).head?,
        isIdentPart p.1 → p.2 ≠ .code) := by
  induction s, t using scan_induction jsx with
  | nil s => simp
  | move s c rest ih =>
    obtain ⟨hchain, hhead⟩ := ih (hs.next jsx)
    rw [trace_cons]
    have hfirst : ¬s.InPlain → isIdentPart c →
        (s.move jsx c rest).kind ≠ .code := fun hout hc => move_outside hout hc
    rcases reads_cases jsx s c rest with hreads | ⟨d, tail, rfl, hpair, hreads⟩
    · rw [hreads] at hchain hhead ⊢
      refine ⟨List.isChain_cons.mpr ⟨fun q hq hc hd hcode => ?_, hchain⟩, fun hout p hp => ?_⟩
      · have hpair : (s.move jsx c rest).pair = false := by
          cases rest with
          | nil => cases hq
          | cons d tail =>
            rw [Bool.eq_false_iff]
            intro hpair
            rw [reads_of_pair hpair] at hreads
            cases hreads
        by_contra hkind
        exact hhead (single_outside hs hpair hc hkind _) q hq hd hcode
      · obtain rfl : (c, (s.move jsx c rest).kind) = p := by simpa using hp
        exact hfirst hout
    · rw [hreads] at hchain hhead ⊢
      refine ⟨List.isChain_cons.mpr ⟨?_, List.isChain_cons.mpr ⟨?_, hchain⟩⟩, fun hout p hp => ?_⟩
      · intro q hq _ _ hcode
        obtain rfl : (d, (s.move jsx c (d :: tail)).kind) = q := by simpa using hq
        exact hcode
      · intro q hq hd hident hcode
        exact absurd hcode (hhead (pair_outside hpair hd _) q hq hident)
      · obtain rfl : (c, (s.move jsx c (d :: tail)).kind) = p := by simpa using hp
        exact hfirst hout

theorem code_of_isChain {qs : Painted} {c : Char} (h : (qs ++ [(c, Kind.code)]).IsChain CodeCameOn)
    (hqs : ∀ q ∈ qs, isIdentPart q.1) (hc : isIdentPart c) : ∀ q ∈ qs, q.2 = .code := by
  induction qs with
  | nil => exact fun _ hq => absurd hq List.not_mem_nil
  | cons q qs ih =>
    rw [List.cons_append, List.isChain_cons] at h
    have hrest := ih h.2 fun q' hq' => hqs q' (by simp [hq'])
    refine List.forall_mem_cons.mpr ⟨?_, hrest⟩
    cases qs with
    | nil => exact h.1 (c, .code) rfl (hqs q (by simp)) hc rfl
    | cons q' qs =>
      exact h.1 q' rfl (hqs q (by simp)) (hqs q' (by simp)) (hrest q' (by simp))

end Scan

open CodeMap Scan

/-- Identifier characters in front of an identifier character of code are code. -/
theorem isCode_of_ident {t u : Text} {c : Char} {i : Nat}
    (hu : ∀ d ∈ u, isIdentPart d) (hc : isIdentPart c)
    (h : Text.LiesAt t i (u ++ [c])) (hcode : (ofText t).isCode (i + u.size)) :
    (ofText t).isCode i := by
  have hm := ofText_shows t
  have hchain : (kinds t).IsChain CodeCameOn := (trace_codeCameOn _ _ _ (start_fits t)).1
  obtain ⟨pre, post, ht, rfl⟩ := h
  obtain ⟨ps, rest, hps, rfl, hrest⟩ := List.map_eq_append_iff.mp
    (((kinds_chars t).trans ht).trans (List.append_assoc _ _ _))
  obtain ⟨mid, after, rfl, hmid, -⟩ := List.map_eq_append_iff.mp hrest
  obtain ⟨qs, last, rfl, rfl, hlast⟩ := List.map_eq_append_iff.mp hmid
  obtain ⟨⟨c, k⟩, rfl, rfl⟩ := List.map_eq_singleton_iff.mp hlast
  have hslot : (ofText t).slots[Slot.width (ps ++ qs)]? = some ⟨some c, k⟩ :=
    (slot_iff hm).mpr ⟨ps ++ qs, after, by simp [hps], rfl⟩
  rw [Slot.width_append] at hslot
  obtain rfl : k = .code := kind_of_isCode hcode hslot
  cases qs with
  | nil => simpa using hcode
  | cons q qs =>
    rw [hps, List.append_assoc] at hchain
    have hrun := (List.isChain_append.mp hchain).2.1
    rw [← List.append_assoc] at hrun
    obtain hkind := code_of_isChain (List.isChain_append.mp hrun).1 (by simpa using hu) hc q
      (by simp)
    obtain ⟨d, k⟩ := q
    obtain rfl : k = .code := hkind
    have hfirst : (ofText t).slots[Slot.width ps]? = some ⟨some d, .code⟩ :=
      (slot_iff hm).mpr ⟨ps, qs ++ (c, .code) :: after, by simp [hps], rfl⟩
    exact isCodeChar_isCode (isCodeChar_iff.mpr hfirst)

end Declass
