import Mathlib.Data.Bool.AllAny
import Declass.Proofs.Brackets

/-!
# Words

**Results.** Where a word stands in a map it lies in the text, and the end of an identifier is found
where the run of identifier characters ends.  Asking for a word that is not empty never fails,
because its first character starts where it is asked for.
-/

namespace Declass

open Character (inRanges isAsciiIdent isIdentPart isIdentStart isLayout isSpace)

namespace Text

variable {c : Char}

/-- The identifier that the text starts with. -/
def identHead : Text → Text
  | [] => []
  | c :: rest => if isIdentStart c then c :: rest.takeWhile isIdentPart else []

theorem identSize_eq (t : Text) : t.identSize = t.identHead.size := by
  cases t with
  | nil => rfl
  | cons c rest =>
    simp only [identSize, identHead]
    split <;> simp

theorem identHead_append (t : Text) : ∃ rest, t = t.identHead ++ rest := by
  cases t with
  | nil => exact ⟨[], rfl⟩
  | cons c rest =>
    by_cases h : isIdentStart c
    · refine ⟨rest.dropWhile isIdentPart, ?_⟩
      simp [identHead, h]
    · exact ⟨c :: rest, by simp [identHead, h]⟩

theorem isIdentPart_of_isIdentStart (h : isIdentStart c) : isIdentPart c := by
  simp only [isIdentStart, isIdentPart, Bool.or_eq_true] at h ⊢
  tauto

theorem toNat_of_isAlpha (h : c.isAlpha) : 65 ≤ c.toNat ∧ c.toNat ≤ 122 := by
  have hcases : (decide (c.val ≥ 'A'.val ∧ c.val ≤ 'Z'.val) ||
      (decide (c.val ≥ 'a'.val) && decide (c.val ≤ 'z'.val))) := h
  simp only [Bool.or_eq_true, Bool.and_eq_true, decide_eq_true_eq, ge_iff_le,
    UInt32.le_iff_toNat_le] at hcases
  rcases hcases with ⟨h1, h2⟩ | ⟨h1, h2⟩
  · exact ⟨h1, Nat.le_trans h2 (by decide)⟩
  · exact ⟨Nat.le_trans (by decide) h1, h2⟩

theorem toNat_lt_of_isAlphanum (h : c.isAlphanum) : c.toNat < 0x80 := by
  rw [Char.isAlphanum, Bool.or_eq_true] at h
  rcases h with h | h
  · have := (toNat_of_isAlpha h).2
    omega
  · simp only [Char.isDigit, Bool.and_eq_true, decide_eq_true_eq, UInt32.le_iff_toNat_le] at h
    exact Nat.lt_of_le_of_lt h.2 (by decide)

theorem isIdentPart_of_isAsciiIdent (h : isAsciiIdent c) : isIdentPart c := by
  simp only [isAsciiIdent, Bool.or_eq_true, beq_iff_eq] at h
  rcases h with (h | rfl) | rfl
  · have hascii := toNat_lt_of_isAlphanum h
    rw [Char.isAlphanum, Bool.or_eq_true] at h
    rcases h with h | h
    · simp [isIdentPart, Character.isAlphabetic, hascii, h]
    · simp [isIdentPart, Character.isNumeric, Character.isDecimalDigit, hascii, h]
  · rfl
  · rfl

/-- The characters of the property White_Space, one by one. -/
def spaces : List Char :=
  [9, 10, 11, 12, 13, 32, 0x85, 0xA0, 0x1680, 0x2000, 0x2001, 0x2002, 0x2003, 0x2004, 0x2005,
    0x2006, 0x2007, 0x2008, 0x2009, 0x200A, 0x2028, 0x2029, 0x202F, 0x205F, 0x3000].map Char.ofNat

theorem mem_spaces (h : isSpace c) : c ∈ spaces := by
  refine List.mem_map.mpr ⟨c.toNat, ?_, Char.ofNat_toNat c⟩
  simp only [isSpace, inRanges, Character.spaceRanges, List.any_cons,
    List.any_nil, Bool.or_eq_true, Bool.and_eq_true, decide_eq_true_eq, Bool.or_false] at h
  simp only [List.mem_cons, List.not_mem_nil, or_false]
  omega

theorem isSpace_of_isIdentPart (h : isIdentPart c) : isSpace c = false := by
  have hspaces : ∀ d ∈ spaces, isIdentPart d = false :=
    List.all_iff_forall_prop.mp (by decide +kernel)
  cases hspace : isSpace c with
  | false => rfl
  | true =>
    rw [hspaces c (mem_spaces hspace)] at h
    cases h

theorem isIdentPart_of_isIdentifier {w : Text} (h : w.isIdentifier) : ∀ c ∈ w, isIdentPart c := by
  cases w with
  | nil => simp
  | cons d w =>
    simp only [isIdentifier, Bool.and_eq_true, List.all_eq_true] at h
    rintro c (_ | ⟨_, hc⟩)
    · exact isIdentPart_of_isIdentStart h.1
    · exact h.2 c hc

/-- An identifier in front of something that cannot be part of it is what the text starts with. -/
theorem identHead_of_isIdentifier {w rest : Text} (hw : w.isIdentifier)
    (hrest : rest.head?.all (fun c => !isIdentPart c)) : identHead (w ++ rest) = w := by
  cases w with
  | nil => simp [isIdentifier] at hw
  | cons c w =>
    simp only [isIdentifier, Bool.and_eq_true, List.all_eq_true] at hw
    have hstop : rest.takeWhile isIdentPart = [] := by
      cases rest with
      | nil => rfl
      | cons d rest =>
        have : isIdentPart d = false := by simpa using hrest
        simp [this]
    have htake : (w ++ rest).takeWhile isIdentPart = w := by
      rw [List.takeWhile_append_of_pos hw.2, hstop, List.append_nil]
    simp [identHead, hw.1, htake]

end Text

namespace CodeMap

open Slot (paint width)

section Identifiers

variable {m : CodeMap} {ps : Painted} {p : Slot → Bool}

/-- A walk over bytes that all have the property goes on behind them. -/
theorem skipWhile_add {j count i : Nat} (h : ∀ n, n < j → m.has p (i + n)) :
    m.skipWhile p (j + count) i = m.skipWhile p count (i + j) := by
  induction j generalizing i with
  | zero => simp
  | succ j ih =>
    have hi : m.has p i := by simpa using h 0 (by omega)
    have hrest : ∀ n, n < j → m.has p (i + 1 + n) := fun n hn => by
      have := h (n + 1) (by omega)
      rwa [Nat.add_assoc, Nat.add_comm 1 n]
    have hcount : j + 1 + count = (j + count) + 1 := by omega
    rw [hcount, skipWhile, if_pos hi, ih hrest]
    congr 1
    omega

/-- The walk over identifier characters, in terms of the text it walks over. -/
theorem skipWhile_identPart (hm : m.Shows ps) {post pre : Painted} (hps : ps = pre ++ post) :
    m.skipWhile (fun s => s.char?.all isIdentPart) (width post) (width pre) =
      width pre + Text.size ((post.map Prod.fst).takeWhile isIdentPart) := by
  induction post generalizing pre with
  | nil => simp [skipWhile]
  | cons q post ih =>
    obtain ⟨c, k⟩ := q
    by_cases hc : isIdentPart c = true
    · have hbytes : ∀ n, n < c.utf8Size →
          m.has (fun s => s.char?.all isIdentPart) (width pre + n) := by
        intro n hn
        refine has_eq_true.mpr ⟨_, slots_inside hm hps hn, ?_⟩
        by_cases h0 : n = 0 <;> simp [h0, hc]
      have hnext : width pre + c.utf8Size = width (pre ++ [(c, k)]) := by simp
      rw [Slot.width_cons, skipWhile_add hbytes, hnext, ih (by simp [hps])]
      simp [hc, Nat.add_assoc]
    · obtain ⟨n, hn⟩ : ∃ n, width ((c, k) :: post) = n + 1 := by
        have := c.utf8Size_pos
        exact ⟨width ((c, k) :: post) - 1, by simp only [Slot.width_cons]; omega⟩
      have hfirst : m.has (fun s => s.char?.all isIdentPart) (width pre) = false := by
        have hs := slots_inside hm hps c.utf8Size_pos
        simp only [Nat.add_zero] at hs
        simp [has, hs, hc]
      rw [hn, skipWhile, hfirst]
      simp [hc]

/-- The end of the identifier at a boundary. -/
theorem identEnd_eq (hm : m.Shows ps) {pre post : Painted} (hps : ps = pre ++ post) :
    m.identEnd (width pre) = .ok (width pre + Text.identSize (post.map Prod.fst)) := by
  have hb : m.isBoundary (width pre) := (isBoundary_iff hm).mpr ⟨pre, post, hps, rfl⟩
  rw [identEnd, if_pos hb]
  cases post with
  | nil =>
    have hnone : m.charAt? (width pre) = none := by
      rw [charAt?, getElem?_slots hm, hps]
      simp
    simp [hnone, Text.identSize]
  | cons q post =>
    obtain ⟨c, k⟩ := q
    have hc : m.charAt? (width pre) = some c := (charAt?_iff hm).mpr ⟨pre, k, post, hps, rfl⟩
    by_cases hstart : isIdentStart c = true
    · -- The bytes of the first character behind its first byte belong to the walk as well.
      have hbytes : ∀ n, n < c.utf8Size - 1 →
          m.has (fun s => s.char?.all isIdentPart) (width pre + 1 + n) := by
        intro n hn
        have hs := slots_inside hm hps (show n + 1 < c.utf8Size by omega)
        rw [Nat.add_comm n 1, ← Nat.add_assoc] at hs
        exact has_eq_true.mpr ⟨_, hs, by simp⟩
      have hpos := c.utf8Size_pos
      have hsize : m.size - (width pre + 1) = c.utf8Size - 1 + width post := by
        rw [size_eq_width hm, hps]
        simp only [Slot.width_append, Slot.width_cons]
        omega
      have hnext : width pre + 1 + (c.utf8Size - 1) = width (pre ++ [(c, k)]) := by
        simp only [Slot.width_append, Slot.width_cons, Slot.width_nil]
        omega
      rw [hsize, skipWhile_add hbytes, hnext, skipWhile_identPart hm (by simp [hps])]
      simp [hc, hstart, Text.identSize, Nat.add_assoc]
    · simp [hc, hstart, Text.identSize]

/-- An identifier ends at a boundary, and what lies between is the identifier. -/
theorem identEnd_yields (hm : m.Shows ps) {i : Nat} (hi : m.isBoundary i) :
    Yields (m.identEnd i) fun e => m.Whole i e ∧
      ∃ pre rest : Text, ps.map Prod.fst = pre ++ rest ∧ pre.size = i ∧
        e = i + rest.identHead.size ∧ m.slice i e = .ok rest.identHead := by
  obtain ⟨pre, post, hps, rfl⟩ := (isBoundary_iff hm).mp hi
  refine ⟨_, identEnd_eq hm hps, ?_⟩
  obtain ⟨tail, htail⟩ := Text.identHead_append (post.map Prod.fst)
  have hlies : Text.LiesAt (ps.map Prod.fst) (width pre) (Text.identHead (post.map Prod.fst)) :=
    ⟨pre.map Prod.fst, tail, by rw [hps, List.map_append, List.append_assoc, ← htail], rfl⟩
  obtain ⟨hwhole, hslice⟩ := slice_of_liesAt hm hlies
  rw [Text.identSize_eq]
  exact ⟨hwhole, pre.map Prod.fst, post.map Prod.fst, by simp [hps], rfl, rfl, hslice⟩

end Identifiers

section Words

variable {m : CodeMap} {ps : Painted} {w u : Text} {i j : Nat}

/-- The characters of a word are spelled where the word lies. -/
theorem spells_iff (hm : m.Shows ps) (hi : m.isBoundary i) :
    m.spells w i ↔ Text.LiesAt (ps.map Prod.fst) i w := by
  induction w generalizing i with
  | nil =>
    obtain ⟨pre, post, rfl, rfl⟩ := (isBoundary_iff hm).mp hi
    simp only [spells, true_iff]
    exact ⟨pre.map Prod.fst, post.map Prod.fst, by simp, rfl⟩
  | cons c w ih =>
    simp only [spells, Bool.and_eq_true, beq_iff_eq]
    constructor
    · rintro ⟨hc, hw⟩
      obtain ⟨pre, post, ht, hpre⟩ := (ih (charAt?_boundary hm hc).2).mp hw
      obtain ⟨before, k, after, hps, hbefore⟩ := (charAt?_iff hm).mp hc
      have hsplit : before.map Prod.fst ++ [c] ++ after.map Prod.fst = pre ++ (w ++ post) := by
        rw [← List.append_assoc, ← ht, hps]
        simp
      have hsize : Text.size (before.map Prod.fst ++ [c]) = pre.size := by
        simp only [Text.size_append, Text.size_cons, Text.size_nil]
        rw [hpre, ← hbefore]
        rfl
      obtain ⟨hbc, -⟩ := Text.append_inj_of_size hsplit hsize
      refine ⟨before.map Prod.fst, post, ?_, hbefore⟩
      rw [ht, ← hbc]
      simp
    · rintro ⟨pre, post, ht, rfl⟩
      obtain ⟨pre', rest', hps, rfl, hrest⟩ :=
        List.map_eq_append_iff.mp (show ps.map Prod.fst = pre ++ (c :: (w ++ post)) by simp [ht])
      obtain ⟨⟨d, k⟩, post', rfl, rfl, hpost⟩ := List.map_eq_cons_iff.mp hrest
      have hc : m.charAt? (Text.size (pre'.map Prod.fst)) = some d :=
        (charAt?_iff hm).mpr ⟨pre', k, post', hps, rfl⟩
      refine ⟨hc, (ih (charAt?_boundary hm hc).2).mpr ?_⟩
      exact ⟨pre'.map Prod.fst ++ [d], post, by simpa using ht, by simp⟩

theorem spells_append {v : Text} :
    m.spells (u ++ v) i = (m.spells u i && m.spells v (i + u.size)) := by
  induction u generalizing i with
  | nil => simp [spells]
  | cons c u ih =>
    rw [List.cons_append, spells, spells, ih, Text.size_cons, Bool.and_assoc, Nat.add_assoc]

section

variable (hm : m.Shows ps)
include hm

/-- A word that is not empty starts at a boundary. -/
theorem spells_boundary (hw : w ≠ []) (h : m.spells w i) : m.isBoundary i := by
  cases w with
  | nil => exact absurd rfl hw
  | cons c w =>
    simp only [spells, Bool.and_eq_true, beq_iff_eq] at h
    exact (charAt?_boundary hm h.1).1

theorem spells_whole (hw : w ≠ []) (h : m.spells w i) : m.Whole i (i + w.size) :=
  (slice_of_liesAt hm ((spells_iff hm (spells_boundary hm hw h)).mp h)).1

/-- What can be cut out is a range of whole characters, as wide as its text. -/
theorem whole_of_slice (h : m.slice i j = .ok u) : m.Whole i j ∧ i + u.size = j := by
  have hw : m.Whole i j := by
    unfold slice at h
    split at h
    · rename_i hrange
      simp only [Bool.and_eq_true, decide_eq_true_eq] at hrange
      exact ⟨hrange.1.1.1, hrange.1.2, hrange.2⟩
    · cases h
  exact ⟨hw, ((slice_yields hm hw).of_eq h).2⟩

/-- The text of a range is spelled at its start. -/
theorem spells_of_slice (h : m.slice i j = .ok u) : m.spells u i := by
  have hw := (whole_of_slice hm h).1
  exact (spells_iff hm hw.left).mpr ((slice_yields hm hw).of_eq h).1

/-- An identifier that is spelled, with nothing behind it that could be part of it, is the one that
is read there. -/
theorem identEnd_of_spells (hw : w.isIdentifier) (h : m.spells w i)
    (hend : ∀ c, m.charAt? (i + w.size) = some c → isIdentPart c = false) :
    m.identEnd i = .ok (i + w.size) ∧ m.slice i (i + w.size) = .ok w := by
  have hne : w ≠ [] := by
    rintro rfl
    cases hw
  have hb := spells_boundary hm hne h
  have hlies := (spells_iff hm hb).mp h
  refine ⟨?_, (slice_of_liesAt hm hlies).2⟩
  obtain ⟨before, after, hchars, hsize⟩ := hlies
  obtain ⟨pre, post, rfl, rfl⟩ := (isBoundary_iff hm).mp hb
  obtain ⟨-, hpost⟩ : pre.map Prod.fst = before ∧ post.map Prod.fst = w ++ after := by
    refine Text.append_inj_of_size ?_ hsize.symm
    rw [← List.map_append, hchars, List.append_assoc]
  rw [identEnd_eq hm rfl, hpost, Text.identSize_eq, Text.identHead_of_isIdentifier hw]
  cases after with
  | nil => rfl
  | cons c after =>
    obtain ⟨mid, rest, rfl, hmid, hrest⟩ := List.map_eq_append_iff.mp hpost
    obtain ⟨p, rest, rfl, rfl, -⟩ := List.map_eq_cons_iff.mp hrest
    have hc : m.charAt? (width pre + w.size) = some p.1 := by
      refine (charAt?_iff hm).mpr ⟨pre ++ mid, p.2, rest, by simp, ?_⟩
      rw [Slot.width_append, ← hmid]
      rfl
    simp [hend _ hc]

/-- The character that starts at a position is the one that ends behind its bytes. -/
theorem charBefore?_of_charAt? {c : Char} (h : m.charAt? i = some c) :
    m.charBefore? (i + c.utf8Size) = some c := by
  obtain ⟨pre, k, post, hps, rfl⟩ := (charAt?_iff hm).mp h
  have hinside : ∀ n, n < c.utf8Size → m.charBefore? (width pre + (n + 1)) = some c := by
    intro n hn
    induction n with
    | zero => simp [charBefore?, h]
    | succ n ih =>
      have hnone : m.charAt? (width pre + (n + 1)) = none := by
        simp [charAt?, slots_inside hm hps hn]
      rw [← Nat.add_assoc, charBefore?, hnone]
      exact ih (by omega)
  have hpos := c.utf8Size_pos
  have hlast := hinside (c.utf8Size - 1) (by omega)
  rwa [Nat.sub_add_cancel hpos] at hlast

/-- The character before a place inside a word is one of the word. -/
theorem charBefore?_of_spells (hi : m.isBoundary i) (h : m.spells u j) (hlt : j < i)
    (hle : i ≤ j + u.size) : ∃ c ∈ u, m.charBefore? i = some c := by
  induction u generalizing j with
  | nil =>
    rw [Text.size_nil] at hle
    omega
  | cons c u ih =>
    simp only [spells, Bool.and_eq_true, beq_iff_eq] at h
    rw [Text.size_cons] at hle
    rcases Nat.eq_or_lt_of_le (charAt?_le_boundary hm h.1 hi hlt) with rfl | hlater
    · exact ⟨c, by simp, charBefore?_of_charAt? hm h.1⟩
    · obtain ⟨d, hd, hbefore⟩ := ih h.2 hlater (by omega)
      exact ⟨d, List.mem_cons_of_mem _ hd, hbefore⟩

end

/-- Whether `w` stands at the position as a whole word that is no property name. -/
def stands (m : CodeMap) (i : Nat) (w : Text) : Bool :=
  m.spells w i && ((m.charBefore? i).all fun c => !isIdentPart c && c != '.')
    && (m.charAt? (i + w.size)).all fun c => !isIdentPart c

/-- Where an identifier stands in code, there is no trivia and no character that identifiers do not
have. -/
theorem slot_of_stands (hw : w.isIdentifier) (hcode : m.isCode i)
    (h : m.stands i w) : m.has Slot.isTrivia i = false ∧
      ∀ d, isIdentPart d = false → m.isCodeChar i d = false := by
  obtain ⟨⟨c?, kind⟩, hs, hkind⟩ := has_eq_true.mp hcode
  obtain rfl : kind = .code := by simpa [Slot.isCode] using hkind
  cases w with
  | nil => cases hw
  | cons c w =>
    unfold stands at h
    rw [Bool.and_eq_true, Bool.and_eq_true, spells, Bool.and_eq_true, beq_iff_eq, charAt?, hs] at h
    obtain rfl : c? = some c := h.1.1.1
    have hpart := Text.isIdentPart_of_isIdentifier hw c List.mem_cons_self
    constructor
    · rw [has, hs]
      by_contra htrivia
      have hlayout : isLayout c := by
        simpa [Slot.isTrivia, Slot.isCode, Slot.isLayout] using htrivia
      exact absurd hpart (of_isLayout hlayout (by decide))
    · intro d hd
      by_contra hcode
      rw [Bool.not_eq_false, isCodeChar_iff, hs] at hcode
      cases hcode
      rw [hd] at hpart
      cases hpart

/-- Asking for a word that is not empty never fails. -/
theorem wordAt_eq (hm : m.Shows ps) (hw : w ≠ []) (i : Nat) :
    m.wordAt i w = .ok (m.stands i w) := by
  unfold wordAt stands
  by_cases h : m.spells w i = true
  · rw [if_pos (spells_boundary hm hw h), h]
    simp
  · simp [h]

theorem keywords_eq (hm : m.Shows ps) (hw : w ≠ []) (start stop : Nat) :
    m.keywords start stop w = .ok ((m.outer m.isCode start stop).filter (m.stands · w)) :=
  filterM_eq_ok fun i _ => wordAt_eq hm hw i

/-- The places at which a keyword is found. -/
theorem keywords_yields (hm : m.Shows ps) (hw : w ≠ []) (start stop : Nat) :
    Yields (m.keywords start stop w) fun js =>
      ∀ j ∈ js, start ≤ j ∧ j < stop ∧ m.isCode j ∧ m.stands j w := by
  refine ⟨_, keywords_eq hm hw start stop, fun j hj => ?_⟩
  obtain ⟨hj, hword⟩ := List.mem_filter.mp hj
  have hin := mem_outerFrom hj
  exact ⟨hin.1, by omega, hin.2.2, hword⟩

theorem findCodeFrom_spec {count : Nat} (h : m.findCodeFrom w count i = some j) :
    i ≤ j ∧ m.isCode j ∧ m.spells w j := by
  induction count generalizing i with
  | zero => simp [findCodeFrom] at h
  | succ count ih =>
    rw [findCodeFrom] at h
    split at h
    · rename_i hi
      obtain rfl : i = j := by simpa using h
      simp only [Bool.and_eq_true] at hi
      exact ⟨le_refl _, hi.1, hi.2⟩
    · have := ih h
      exact ⟨by omega, this.2⟩

theorem findCode_spec {start stop : Nat} (h : m.findCode start stop w = some j) :
    start ≤ j ∧ m.isCode j ∧ m.spells w j := findCodeFrom_spec h

end Words

end CodeMap

end Declass
