import Declass.LineIndex
import Declass.Proofs.Relayout
import Mathlib.Data.List.DropRight

/-!
# Where lines start

**Input.** A text, and byte offsets into it.

**Algorithm.** A text is its pieces between the line feeds.  The starts of the lines are the sizes of
what stands before each piece, and looking an offset up counts the starts that are not behind it.

**Results.** `line_positions_exact`: lines and columns lead back to the offset, and the texts of the
lines are the pieces.
-/

namespace Declass

namespace Text

variable {ps : List Text}

theorem length_splitOn (sep : Char) (t : Text) : (splitOn sep t).length = t.count sep + 1 := by
  induction t with
  | nil => rfl
  | cons c t ih =>
    rw [splitOn, List.count_cons]
    split
    · rw [List.length_cons, ih]
    · cases hpieces : splitOn sep t with
      | nil => exact absurd hpieces (splitOn_ne_nil sep t)
      | cons piece pieces => simpa [hpieces] using ih

theorem takeBytes_append (t u : Text) : takeBytes t.size (t ++ u) = t := by
  induction t with
  | nil =>
    cases u with
    | nil => rfl
    | cons c u => exact if_neg (by simp [size, c.utf8Size_pos.ne'])
  | cons c t ih => simp [takeBytes, size, ih]

theorem dropBytes_append (t u : Text) : dropBytes t.size (t ++ u) = u := by
  induction t with
  | nil => cases u <;> rfl
  | cons c t ih =>
    rw [size, List.cons_append, dropBytes, Nat.add_sub_cancel_left, ih]
    exact fun h => absurd h (by have := c.utf8Size_pos; omega)

theorem takeBytes_of_size_le {t : Text} {n : Nat} (h : t.size ≤ n) : takeBytes n t = t := by
  induction t generalizing n with
  | nil => cases n <;> rfl
  | cons c t ih =>
    rw [size] at h
    rw [takeBytes, if_pos (by omega), ih (by omega)]

/-- Behind the pieces before it stands a piece, and behind the last one nothing. -/
theorem join_split {i : Nat} {p : Text} (h : ps[i]? = some p) :
    ∃ tail, join ['\n'] ps = unlines (ps.take i) ++ (p ++ tail) ∧
      (i + 1 = ps.length → tail = []) := by
  induction ps generalizing i with
  | nil => cases h
  | cons q ps ih =>
    cases i with
    | zero =>
      obtain rfl : q = p := by simpa using h
      cases ps with
      | nil => exact ⟨[], (List.append_nil q).symm, fun _ => rfl⟩
      | cons r ps => exact ⟨'\n' :: join ['\n'] (r :: ps), by simp [join, unlines], nofun⟩
    | succ i =>
      rw [List.getElem?_cons_succ] at h
      obtain ⟨tail, htail, hlast⟩ := ih h
      refine ⟨tail, ?_, fun hi => hlast (by simpa using hi)⟩
      rw [join_cons _ _ (List.ne_nil_of_mem (List.mem_of_getElem? h)), htail]
      simp [unlines]

/-- Without the carriage returns at the ends of the lines. -/
def withoutReturns (t : Text) : Text :=
  join ['\n'] ((splitOn '\n' t).map (List.rdropWhile (· == '\r')))

theorem splitOn_withoutReturns (t : Text) :
    splitOn '\n' t.withoutReturns = (splitOn '\n' t).map (List.rdropWhile (· == '\r')) := by
  refine splitOn_join (by simp [splitOn_ne_nil]) fun piece hpiece hfeed => ?_
  obtain ⟨p, hp, rfl⟩ := List.mem_map.mp hpiece
  exact not_mem_splitOn '\n' t p hp ((List.rdropWhile_prefix _ p).subset hfeed)

end Text

namespace LineIndex

open Text (splitOn unlines)

/-- The offset of a line: the bytes of the lines before it. -/
def lineStart (t : Text) (line : Nat) : Nat := (unlines ((splitOn '\n' t).take line)).size

variable {offset o start n : Nat} {t : Text} {c : Char}

theorem lineStart_feed (t : Text) (n : Nat) :
    lineStart ('\n' :: t) (n + 1) = '\n'.utf8Size + lineStart t n := rfl

theorem lineStart_cons (hc : c ≠ '\n') (t : Text) (n : Nat) :
    lineStart (c :: t) (n + 1) = c.utf8Size + lineStart t (n + 1) := by
  have hne : (c == '\n') = false := by simpa using hc
  rw [lineStart, lineStart, splitOn, hne]
  cases hpieces : splitOn '\n' t with
  | nil => exact absurd hpieces (Text.splitOn_ne_nil _ t)
  | cons piece pieces => simp [unlines]

theorem getElem?_startsFrom (offset : Nat) (t : Text) (n : Nat) :
    (offset :: startsFrom offset t)[n]? =
      if n ≤ t.count '\n' then some (offset + lineStart t n) else none := by
  induction t generalizing offset n with
  | nil => cases n <;> simp [startsFrom, lineStart, unlines]
  | cons c t ih =>
    cases n with
    | zero => simp [lineStart, unlines]
    | succ n =>
      by_cases hc : c = '\n'
      · subst hc
        have hnext := ih (offset + '\n'.utf8Size) n
        simpa [startsFrom, lineStart_feed, Nat.add_assoc] using hnext
      · -- Only the first line gets longer.
        have hnext := ih (offset + c.utf8Size) (n + 1)
        simpa [startsFrom, hc, lineStart_cons hc, Nat.add_assoc] using hnext

theorem le_of_mem_startsFrom (h : start ∈ startsFrom offset (c :: t)) :
    offset + c.utf8Size ≤ start := by
  induction t generalizing offset c with
  | nil =>
    rw [startsFrom] at h
    split at h
    · exact (List.mem_singleton.mp h).ge
    · cases h
  | cons d t ih =>
    rw [startsFrom] at h
    split at h
    · rcases List.mem_cons.mp h with rfl | h
      · exact le_rfl
      · exact (Nat.le_add_right _ _).trans (ih h)
    · exact (Nat.le_add_right _ _).trans (ih h)

/-- As many lines start up to an offset as line feeds stand before it. -/
theorem length_takeWhile_startsFrom (offset o : Nat) (t : Text) :
    ((startsFrom offset t).takeWhile (· ≤ offset + o)).length = (t.takeBytes o).count '\n' := by
  induction t generalizing offset o with
  | nil => cases o <;> rfl
  | cons c t ih =>
    rw [Text.takeBytes]
    split
    · rename_i hle
      have hnext := ih (offset + c.utf8Size) (o - c.utf8Size)
      rw [show offset + c.utf8Size + (o - c.utf8Size) = offset + o by omega] at hnext
      by_cases hc : c = '\n'
      · subst hc
        simpa [startsFrom, hle] using hnext
      · simpa [startsFrom, hc] using hnext
    · have hnil : (startsFrom offset (c :: t)).takeWhile (· ≤ offset + o) = [] := by
        cases hstarts : startsFrom offset (c :: t) with
        | nil => rfl
        | cons start starts =>
          have hge := le_of_mem_startsFrom (hstarts ▸ List.mem_cons_self)
          exact List.takeWhile_cons_of_neg (by simp; omega)
      rw [hnil]
      rfl

theorem getElem?_starts (t : Text) (n : Nat) :
    (ofText t).starts[n]? = if n ≤ t.count '\n' then some (lineStart t n) else none := by
  rw [ofText, getElem?_startsFrom, Nat.zero_add]

/-- The line that is looked up is the last one that does not start behind the offset. -/
theorem lineCol_spec (t : Text) (o : Nat) :
    ((ofText t).lineCol o).line = (t.takeBytes o).count '\n' ∧
      lineStart t ((ofText t).lineCol o).line + ((ofText t).lineCol o).col = o := by
  have hlength : ((ofText t).starts.takeWhile (· ≤ o)).length = (t.takeBytes o).count '\n' + 1 := by
    have h := length_takeWhile_startsFrom 0 o t
    simp_all [ofText]
  generalize (t.takeBytes o).count '\n' = line at hlength ⊢
  obtain ⟨start, hstart⟩ : ∃ start, ((ofText t).starts.takeWhile (· ≤ o))[line]? = some start :=
    ⟨_, List.getElem?_eq_getElem (by omega)⟩
  have hle : start ≤ o := by simpa using List.mem_takeWhile_imp (List.mem_of_getElem? hstart)
  have hget : (ofText t).starts[line]? = some start := by
    obtain ⟨rest, hrest⟩ := List.takeWhile_prefix (fun x => decide (x ≤ o)) (l := (ofText t).starts)
    rw [← hrest, List.getElem?_append_left (by omega), hstart]
  have heq : (ofText t).lineCol o = ⟨line, o - start⟩ := by
    simp only [lineCol, hlength, Nat.add_sub_cancel, List.getD_eq_getElem?_getD, hget,
      Option.getD_some]
  rw [getElem?_starts] at hget
  split at hget
  · obtain rfl := Option.some.inj hget
    rw [heq]
    exact ⟨rfl, Nat.add_sub_cancel' hle⟩
  · cases hget

theorem lineText?_eq (t : Text) (i : Nat) : (ofText t).lineText? t i =
    (splitOn '\n' t)[i]?.map (List.rdropWhile (· == '\r')) := by
  have hlength := Text.length_splitOn '\n' t
  cases hpiece : (splitOn '\n' t)[i]? with
  | none =>
    have hi := List.getElem?_eq_none_iff.mp hpiece
    rw [lineText?, getElem?_starts, if_neg (by omega)]
    rfl
  | some piece =>
    obtain ⟨hi, -⟩ := List.getElem?_eq_some_iff.mp hpiece
    obtain ⟨tail, htail, hlast⟩ := Text.join_split hpiece
    rw [Text.join_splitOn] at htail
    have hdrop : t.dropBytes (lineStart t i) = piece ++ tail :=
      (congrArg _ htail).trans (Text.dropBytes_append _ _)
    have hstart : i ≤ t.count '\n' := by omega
    by_cases hnext : i + 1 ≤ t.count '\n'
    · have hstop : lineStart t (i + 1) - 1 - lineStart t i = piece.size := by
        have hfeed : '\n'.utf8Size = 1 := rfl
        rw [lineStart, List.take_add_one, hpiece, unlines, List.flatMap_append, Text.size_append,
          ← unlines, ← lineStart]
        simp only [Option.toList_some, List.flatMap_singleton, Text.size_append, Text.size_cons,
          Text.size_nil]
        omega
      simp [lineText?, getElem?_starts, hstart, hnext, hdrop, hstop, Text.takeBytes_append,
        List.rdropWhile]
    · have hstop : t.size - lineStart t i = piece.size := by
        rw [hlast (by omega)] at htail
        have hsize := congrArg Text.size htail
        rw [Text.size_append, List.append_nil, ← lineStart] at hsize
        omega
      simp [lineText?, getElem?_starts, hstart, hnext, hdrop, hstop, Text.takeBytes_append,
        List.rdropWhile]

theorem lineStart_le (h : n ≤ t.count '\n') : lineStart t n ≤ t.size := by
  have hn : n < (splitOn '\n' t).length := by
    rw [Text.length_splitOn]
    omega
  obtain ⟨tail, htail, -⟩ := Text.join_split (List.getElem?_eq_getElem hn)
  rw [Text.join_splitOn] at htail
  have hsize := congrArg Text.size htail
  rw [Text.size_append, ← lineStart] at hsize
  omega

/-- Looking up an offset gives the number of line feeds before it, and a column that leads from the
start of the line back to the offset; offsets behind the end are on the last line.  The texts of the
lines are the pieces between the line feeds, without the carriage returns at their ends, and say what
the text is but for these. -/
theorem line_positions_exact (t : Text) :
    (∀ o, ((ofText t).lineCol o).line = (t.takeBytes o).count '\n' ∧
      lineStart t ((ofText t).lineCol o).line + ((ofText t).lineCol o).col = o) ∧
    (∀ n, ((ofText t).lineCol (t.size + n)).line = t.count '\n') ∧
    (ofText t).starts = (List.range (t.count '\n' + 1)).map (lineStart t) ∧
    (ofText t).starts.all (· ≤ t.size) = true ∧
    (∀ i, ((ofText t).lineText? t i).isSome = true ↔ i ≤ t.count '\n') ∧
    (∀ i, (ofText t).lineText? t i = (splitOn '\n' t)[i]?.map (List.rdropWhile (· == '\r'))) ∧
    ∀ u, (∀ i, (ofText t).lineText? t i = (ofText u).lineText? u i) ↔
      t.withoutReturns = u.withoutReturns := by
  have hstarts : (ofText t).starts = (List.range (t.count '\n' + 1)).map (lineStart t) := by
    refine List.ext_getElem? fun n => ?_
    rw [getElem?_starts, List.getElem?_map]
    split
    · rw [List.getElem?_range (by omega), Option.map_some]
    · rw [List.getElem?_eq_none (by simp; omega), Option.map_none]
  refine ⟨lineCol_spec t, fun n => ?_, hstarts, ?_, fun i => ?_, lineText?_eq t,
    fun u => ⟨fun h => ?_, fun h i => ?_⟩⟩
  · rw [(lineCol_spec t _).1, Text.takeBytes_of_size_le (Nat.le_add_right _ _)]
  · rw [hstarts, List.all_map, List.all_eq_true]
    intro n hn
    have hn := List.mem_range.mp hn
    simpa using lineStart_le (t := t) (by omega : n ≤ _)
  · rw [lineText?_eq, Option.isSome_map, Option.isSome_iff_ne_none, ne_eq,
      List.getElem?_eq_none_iff, Text.length_splitOn]
    omega
  · have hlines : (splitOn '\n' t).map (List.rdropWhile (· == '\r')) =
        (splitOn '\n' u).map (List.rdropWhile (· == '\r')) :=
      List.ext_getElem? fun i => by simpa only [lineText?_eq, ← List.getElem?_map] using h i
    rw [Text.withoutReturns, hlines, Text.withoutReturns]
  · have hlines := congrArg (splitOn '\n') h
    rw [Text.splitOn_withoutReturns, Text.splitOn_withoutReturns] at hlines
    rw [lineText?_eq, lineText?_eq, ← List.getElem?_map, ← List.getElem?_map, hlines]

end LineIndex

end Declass
