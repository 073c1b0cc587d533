import Declass.Proofs.Rollback

/-!
# Kinds of whole characters

**Input.** Source text, and whether markup is recognised.

**Algorithm.** A scan that moves byte by byte may jump into the middle of a character behind a
backslash, and goes back over bytes it has marked.  It halts with the slots of the machine that reads
whole characters, so the bytes of one character end up with one kind.

**Results.** `kinds_respect_characters`: what is found by walking over the bytes lies between
characters, unless it is an end of the range that was asked for.  `skipTrivia_ends_inside`: such an
end may lie inside a character.
-/

namespace Declass

open Scan CodeMap

/-- The map of the text, with markup recognised or not. -/
def CodeMap.scanned (jsx : Bool) (t : Text) : CodeMap := ⟨(run jsx .start t).done.reverse.toArray⟩

/-- The map has one kind for each character of the text, and what is found in it lies between
characters. -/
structure CodeMap.Respects (m : CodeMap) (t : Text) : Prop where
  uniform : ∃ ps : List (Char × Kind), ps.map Prod.fst = t ∧ m.slots.toList = Slot.paint ps
  change : ∀ i s s', m.slots[i]? = some s → m.slots[i + 1]? = some s' → s.kind ≠ s'.kind →
    m.isBoundary (i + 1) = true
  skipped : ∀ i stop, m.isBoundary i = true →
    m.isBoundary (m.skipTrivia i stop) = true ∨ m.skipTrivia i stop = stop
  trimmed : ∀ start stop, m.isBoundary stop = true →
    m.isBoundary (m.trimTrivia start stop) = true ∨ m.trimTrivia start stop = start
  partner : ∀ i c, m.matching i = some c → m.isBoundary i = true ∧ m.isBoundary c = true
  parts : ∀ start stop sep part, sep.utf8Size = 1 → part ∈ m.splitTop start stop sep →
    (part.start = start ∨ m.isBoundary part.start = true) ∧
      (part.stop = stop ∨ m.isBoundary part.stop = true)
  found : ∀ start stop c i, c.utf8Size = 1 → m.findTop start stop c = some i → m.isBoundary i = true

variable {m : CodeMap} {ps : Painted}

theorem CodeMap.boundary_of_kind_ne (hm : m.Shows ps) {i : Nat} {s s' : Slot}
    (hs : m.slots[i]? = some s) (hs' : m.slots[i + 1]? = some s') (hne : s.kind ≠ s'.kind) :
    m.isBoundary (i + 1) := by
  by_contra hb
  obtain ⟨hi, -⟩ := Array.getElem?_eq_some_iff.mp hs'
  obtain ⟨j, k, b, hj, hslot, hb, rfl, -⟩ := inside_character hm hi (by simpa using hb)
  obtain rfl := Nat.succ.inj hj
  obtain rfl : s = b := Option.some.inj (hs.symm.trans hb)
  obtain rfl : s' = ⟨none, s.kind⟩ := Option.some.inj (hs'.symm.trans hslot)
  exact hne rfl

theorem CodeMap.respects_of_shows (hm : m.Shows ps) : m.Respects (ps.map Prod.fst) where
  uniform := ⟨ps, rfl, hm⟩
  change _ _ _ := boundary_of_kind_ne hm
  skipped _ _ := skipTrivia_ends hm
  trimmed _ _ := trimTrivia_ends hm
  partner i c h := by
    obtain ⟨hopens, hcloses, -⟩ := matching_spec h
    exact ⟨(opens_boundary hm hopens).1, (closes_boundary hm hcloses).1⟩
  parts start stop sep part hsep h := by
    by_cases hle : start ≤ stop
    · exact (splitTop_part hm hle hsep h).2.2.2
    · have hnone : m.outer (m.isCodeChar · sep) start stop = [] := by
        rw [outer, Nat.sub_eq_zero_of_le (by omega), outerFrom]
      rw [splitTop, hnone, cut, List.mem_singleton] at h
      rw [h]
      exact ⟨.inl rfl, .inl rfl⟩
  found _ _ _ _ hc h := (codeChar_boundary hm (findTop_spec h).2.2 hc).1

theorem CodeMap.scanned_shows (jsx : Bool) (t : Text) :
    (scanned jsx t).Shows (trace jsx .start t) := by
  rw [Shows, scanned, run_done]
  simp [State.start]

/-- All bytes of a character get the same kind, with markup recognised or not and also if the scan
moves byte by byte and goes back; the map of a text is one of the two.  So changes of the kind, the
ends of skipped and trimmed ranges, brackets that match, and separators lie between characters,
unless an end of the range itself is given back. -/
theorem kinds_respect_characters (t : Text) :
    (∀ jsx, (scanned jsx t).Respects t ∧
      ∃ r, Retry.Leads jsx (Retry.start t) r ∧ r.Halted ∧
        r.slots = (scanned jsx t).slots.toList) ∧
    ofText t = scanned (withMarkup t) t := by
  refine ⟨fun jsx => ⟨?_, ?_⟩, ?_⟩
  · have hrespects := respects_of_shows (scanned_shows jsx t)
    rwa [trace_chars] at hrespects
  · obtain ⟨r, hleads, hhalted, hslots, -⟩ := Retry.leads_run jsx 0 (start_fits t)
    exact ⟨r, hleads, hhalted, hslots⟩
  · have hslots : (ofText t).slots.toList = (scanned (withMarkup t) t).slots.toList :=
      (ofText_shows t).trans (scanned_shows _ t).symm
    exact congrArg CodeMap.mk (Array.toList_inj.mp hslots)

/-- Walking to a stop inside a character of a comment ends there. -/
theorem skipTrivia_ends_inside :
    (ofText "/*é*/".toList).isBoundary 0 = true ∧
      (ofText "/*é*/".toList).skipTrivia 0 3 = 3 ∧
      (ofText "/*é*/".toList).isBoundary 3 = false := by
  decide

end Declass
