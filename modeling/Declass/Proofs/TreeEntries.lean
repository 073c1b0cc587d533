import Declass.FileTree
import Mathlib.Data.Char
import Mathlib.Data.List.Induction
import Mathlib.Data.List.Lex
import Mathlib.Data.List.Nodup
import Mathlib.Order.Lattice

/-!
# The entries of a file tree

**Input.** A file tree in which every location occurs once and every entry lies in a directory
(`WellFormed`), and the operations that change one entry or remove several.

**Algorithm.** A tree is looked at through `entry?` only: what an operation does is said by the
entries that are there afterwards, and the order in which the entries are listed never counts.

**Results.** `entry?_put` and `entry?_eraseAll` say what the operations do, and that the tree stays
well formed.  `entries_perm`: trees with the same entry everywhere list the same entries.
`mem_filesBelow`, `nodup_filesBelow` and `pairwise_filesBelow`: the files below a directory are
listed once each, in the order of their names.
-/

namespace Declass

theorem cons_le_cons_iff {α : Type} [LinearOrder α] {a b : α} {l m : List α} :
    a :: l ≤ b :: m ↔ a < b ∨ a = b ∧ l ≤ m := by
  rw [le_iff_lt_or_eq, List.cons.injEq, le_iff_lt_or_eq, List.cons_lt_cons_iff]
  tauto

/-- The order by code points is the order of lists. -/
theorem Text.notAfter_iff {t u : Text} : notAfter t u ↔ t ≤ u := by
  induction t generalizing u with
  | nil => simp [notAfter, ← not_lt]
  | cons a t ih =>
    cases u with
    | nil => simp [notAfter, ← not_lt]
    | cons b u =>
      rw [notAfter, cons_le_cons_iff]
      split <;> simp_all

namespace Location

theorem notAfter_iff {l m : Location} : notAfter l m ↔ l ≤ m := by
  induction l generalizing m with
  | nil => simp [notAfter, ← not_lt]
  | cons a l ih =>
    cases m with
    | nil => simp [notAfter, ← not_lt]
    | cons b m =>
      rw [notAfter, cons_le_cons_iff]
      split <;> simp_all [Text.notAfter_iff, le_iff_lt_or_eq]

theorem notAfter_total (l m : Location) : (notAfter l m || notAfter m l) := by
  simpa [notAfter_iff] using le_total l m

theorem notAfter_antisymm {l m : Location} (hlm : notAfter l m) (hml : notAfter m l) : l = m :=
  le_antisymm (notAfter_iff.mp hlm) (notAfter_iff.mp hml)

theorem notAfter_trans {l m n : Location} (hlm : notAfter l m) (hmn : notAfter m n) :
    notAfter l n := notAfter_iff.mpr ((notAfter_iff.mp hlm).trans (notAfter_iff.mp hmn))

end Location

/-- A name of an entry: not empty, no dot or two dots, and without a slash. -/
def Path.IsName (n : Text) : Prop := n ≠ [] ∧ n ≠ "." ∧ n ≠ ".." ∧ '/' ∉ n

instance (n : Text) : Decidable (Path.IsName n) :=
  inferInstanceAs (Decidable (n ≠ [] ∧ n ≠ "." ∧ n ≠ ".." ∧ '/' ∉ n))

namespace FileTree

/-- The entries form a tree: no location occurs twice, all names are names of entries, and every
entry lies in a directory. -/
structure WellFormed (t : FileTree) : Prop where
  distinct : (t.entries.map Prod.fst).Nodup
  named : ∀ entry ∈ t.entries, entry.1 ≠ [] ∧ ∀ n ∈ entry.1, Path.IsName n
  rooted : ∀ entry ∈ t.entries, t.entry? entry.1.dropLast = some .directory

instance (t : FileTree) : Decidable t.WellFormed :=
  decidable_of_iff
    ((t.entries.map Prod.fst).Nodup ∧
      (∀ entry ∈ t.entries, entry.1 ≠ [] ∧ ∀ n ∈ entry.1, Path.IsName n) ∧
      ∀ entry ∈ t.entries, t.entry? entry.1.dropLast = some .directory)
    ⟨fun h => ⟨h.1, h.2.1, h.2.2⟩, fun h => ⟨h.distinct, h.named, h.rooted⟩⟩

/-- Whether there is a file at a location. -/
def isFileAt (t : FileTree) (l : Location) : Bool := (t.fileAt? l).isSome

section Lookup

variable (t : FileTree)

@[simp]
theorem entry?_nil : t.entry? [] = some .directory := rfl

theorem entry?_of_ne_nil {l : Location} (hl : l ≠ []) : t.entry? l = t.entries.lookup l := by
  simp [ entry?, hl]

variable {t} {l : Location}

theorem fileAt?_eq_some_iff {content : Content} :
    t.fileAt? l = some content ↔ t.entry? l = some (.file content) := by
  unfold fileAt?
  split <;> simp_all

theorem isFileAt_iff : t.isFileAt l ↔ ∃ content, t.entry? l = some (.file content) := by
  simp [isFileAt, Option.isSome_iff_exists, fileAt?_eq_some_iff]

theorem fileAt?_congr {u : FileTree} (h : u.entry? l = t.entry? l) : u.fileAt? l = t.fileAt? l := by
  unfold fileAt?
  rw [h]

theorem ne_nil_of_isFileAt (h : t.isFileAt l) : l ≠ [] := by
  rintro rfl
  obtain ⟨content, hcontent⟩ := isFileAt_iff.mp h
  cases hcontent

theorem entry_cases (t : FileTree) (l : Location) :
    t.entry? l = some .directory ∨ t.isFileAt l ∨ t.entry? l = none := by
  cases hentry : t.entry? l with
  | none => exact .inr (.inr rfl)
  | some e =>
    cases e with
    | directory => exact .inl rfl
    | file content => exact .inr (.inl (isFileAt_iff.mpr ⟨content, hentry⟩))

theorem isFileAt_eq_false_of_directory (h : t.entry? l = some .directory) :
    t.isFileAt l = false := by
  simp [isFileAt, fileAt?, h]

theorem isFileAt_eq_false_of_none (h : t.entry? l = none) : t.isFileAt l = false := by
  simp [isFileAt, fileAt?, h]

theorem mem_of_found {e : Entry} (hl : l ≠ []) (h : t.entry? l = some e) : (l, e) ∈ t.entries := by
  rw [entry?_of_ne_nil t hl, List.lookup_eq_some_iff] at h
  obtain ⟨before, behind, hentries, -⟩ := h
  simp [hentries]

/-- In a well-formed tree an entry of the list is the one that is found at its location. -/
theorem WellFormed.mem_iff (ht : t.WellFormed) {e : Entry} :
    (l, e) ∈ t.entries ↔ l ≠ [] ∧ t.entry? l = some e := by
  constructor
  · intro h
    have hl := (ht.named _ h).1
    refine ⟨hl, ?_⟩
    rw [entry?_of_ne_nil t hl]
    obtain ⟨before, behind, hentries⟩ := List.append_of_mem h
    rw [List.lookup_eq_some_iff]
    refine ⟨before, behind, hentries, fun p hp => ?_⟩
    have hdistinct := ht.distinct
    rw [hentries, List.map_append] at hdistinct
    have hne := (List.nodup_append.mp hdistinct).2.2 p.1 (List.mem_map_of_mem hp) l (by simp)
    simpa using Ne.symm hne
  · exact fun h => mem_of_found h.1 h.2

/-- Two well-formed trees with the same entry at every location list the same entries. -/
theorem entries_perm {u : FileTree} (ht : t.WellFormed) (hu : u.WellFormed)
    (h : ∀ l, t.entry? l = u.entry? l) : t.entries.Perm u.entries := by
  refine (List.perm_ext_iff_of_nodup ht.distinct.of_map hu.distinct.of_map).mpr ?_
  rintro ⟨l, e⟩
  rw [ht.mem_iff, hu.mem_iff, h l]

end Lookup

section Ancestors

variable {t : FileTree} {l m : Location} {e : Entry}

variable (ht : t.WellFormed)
include ht

theorem WellFormed.dropLast_directory (h : t.entry? l = some e) :
    t.entry? l.dropLast = some .directory := by
  by_cases hl : l = []
  · subst hl
    rfl
  · exact ht.rooted _ (mem_of_found hl h)

/-- Whatever lies above an entry is a directory. -/
theorem WellFormed.directory_above (h : t.entry? (l ++ m) = some e) (hm : m ≠ []) :
    t.entry? l = some .directory := by
  induction m using List.reverseRecOn generalizing e with
  | nil => exact absurd rfl hm
  | append_singleton m n ih =>
    have habove := ht.dropLast_directory h
    rw [← List.append_assoc, List.dropLast_concat] at habove
    by_cases hm' : m = []
    · simpa [hm'] using habove
    · exact ih habove hm'

theorem WellFormed.directory_of_isPrefix (h : t.entry? m = some .directory) (hlm : l <+: m) :
    t.entry? l = some .directory := by
  obtain ⟨k, rfl⟩ := hlm
  by_cases hk : k = []
  · simpa [hk] using h
  · exact ht.directory_above h hk

/-- Nothing lies below a file. -/
theorem WellFormed.not_isPrefix_of_file (hfile : t.isFileAt l) (h : t.entry? m = some e)
    (hlm : l <+: m) : l = m := by
  obtain ⟨k, rfl⟩ := hlm
  by_cases hk : k = []
  · simp [hk]
  · rw [isFileAt_eq_false_of_directory (ht.directory_above h hk)] at hfile
    cases hfile

theorem WellFormed.isName_of_entry (h : t.entry? l = some e) {n : Text} (hn : n ∈ l) : Path.IsName n :=
  (ht.named _ (mem_of_found (List.ne_nil_of_mem hn) h)).2 n hn

end Ancestors

section Updates

variable (t : FileTree)

theorem lookup_replace (entries : List (Location × Entry)) (l m : Location) (e : Entry) :
    (entries.map fun entry => if entry.1 == l then (l, e) else entry).lookup m =
      if m = l then (entries.lookup l).map fun _ => e else entries.lookup m := by
  induction entries with
  | nil => simp
  | cons entry entries ih =>
    obtain ⟨k, f⟩ := entry
    by_cases hk : k = l
    · subst hk
      by_cases hm : m = k
      · simp [hm]
      · have hne : (m == k) = false := by simpa using hm
        simpa [List.lookup_cons, hm, hne] using ih
    · by_cases hm : m = l
      · subst hm
        have hne : (m == k) = false := by simpa using Ne.symm hk
        simpa [List.lookup_cons, hk, hne] using ih
      · by_cases hmk : m = k
        · simp [hk, hmk]
        · have hne : (m == k) = false := by simpa using hmk
          simpa [List.lookup_cons, hk, hne, hm] using ih

/-- A tree with an entry put at a location has that entry there, and the others as before. -/
theorem entry?_put {l : Location} (hl : l ≠ []) (e : Entry) (m : Location) :
    FileTree.entry? (t.put l e) m = if m = l then some e else t.entry? m := by
  by_cases hm : m = []
  · subst hm
    simp [Ne.symm hl]
  rw [entry?_of_ne_nil _ hm, entry?_of_ne_nil _ hm, put]
  split
  · rename_i hsome
    obtain ⟨f, hf⟩ := Option.isSome_iff_exists.mp hsome
    rw [lookup_replace, hf]
    rfl
  · rename_i hnone
    rw [Option.not_isSome_iff_eq_none] at hnone
    rw [List.lookup_append]
    by_cases hml : m = l
    · simp [hml, hnone]
    · have hne : (m == l) = false := by simpa using hml
      simp [List.lookup_cons, hml, hne]

/-- Erasing takes away the entries with the property, and no others. -/
theorem entry?_eraseAll {p : Location → Bool} (hp : p [] = false) (m : Location) :
    FileTree.entry? (t.eraseAll p) m = if p m then none else t.entry? m := by
  by_cases hm : m = []
  · subst hm
    simp [hp]
  rw [entry?_of_ne_nil _ hm, entry?_of_ne_nil _ hm, eraseAll]
  induction t.entries with
  | nil => simp
  | cons entry entries ih =>
    obtain ⟨k, f⟩ := entry
    by_cases hmk : m = k
    · subst hmk
      cases hpm : p m with
      | true => simpa [List.filter_cons, hpm] using ih
      | false => simp [hpm]
    · have hne : (m == k) = false := by simpa using hmk
      cases hpk : p k with
      | true => simpa [List.filter_cons, hpk, List.lookup_cons, hne] using ih
      | false => simpa [List.filter_cons, hpk, List.lookup_cons, hne] using ih

variable {t}

theorem map_fst_put {l : Location} {e : Entry} : ((t.put l e).entries.map Prod.fst) =
      if (t.entries.lookup l).isSome then t.entries.map Prod.fst
      else t.entries.map Prod.fst ++ [l] := by
  unfold put
  split
  · rw [List.map_map]
    refine List.map_congr_left fun entry _ => ?_
    by_cases hentry : entry.1 = l
    · simp [hentry]
    · simp [hentry]
  · simp

/-- Putting an entry into a directory keeps the tree well formed, unless a file takes the place of a
directory. -/
theorem WellFormed.put (ht : t.WellFormed) {l : Location} {e : Entry} (hl : l ≠ [])
    (hnames : ∀ n ∈ l, Path.IsName n) (habove : t.entry? l.dropLast = some .directory)
    (he : e = .directory ∨ t.entry? l ≠ some .directory) : (t.put l e).WellFormed := by
  have hmem : ∀ entry ∈ (t.put l e).entries, entry.1 = l ∨ ∃ f, (entry.1, f) ∈ t.entries := by
    intro entry hentry
    have hfst := List.mem_map_of_mem (f := Prod.fst) hentry
    rw [map_fst_put] at hfst
    split at hfst
    · obtain ⟨old, hold, heq⟩ := List.mem_map.mp hfst
      exact .inr ⟨old.2, heq ▸ hold⟩
    · rcases List.mem_append.mp hfst with hfst | hfst
      · obtain ⟨old, hold, heq⟩ := List.mem_map.mp hfst
        exact .inr ⟨old.2, heq ▸ hold⟩
      · exact .inl (by simpa using hfst)
  -- A directory above an entry is still one: only `l` has changed, and nothing lies below a file.
  have hkept : ∀ m, t.entry? m = some .directory →
      FileTree.entry? (t.put l e) m = some .directory := by
    intro m hm
    rw [entry?_put t hl]
    split
    · rename_i heq
      subst heq
      rcases he with rfl | he
      · rfl
      · exact absurd hm he
    · exact hm
  refine ⟨?_, ?_, ?_⟩
  · rw [map_fst_put]
    split
    · exact ht.distinct
    · rename_i hnone
      refine List.nodup_append.mpr ⟨ht.distinct, by simp, ?_⟩
      rintro k hk m hm rfl
      rw [List.mem_singleton] at hm
      subst hm
      obtain ⟨entry, hentry, rfl⟩ := List.mem_map.mp hk
      have hfound := (ht.mem_iff.mp hentry).2
      rw [entry?_of_ne_nil t hl] at hfound
      simp [hfound] at hnone
  · intro entry hentry
    rcases hmem entry hentry with heq | ⟨f, hf⟩
    · rw [heq]
      exact ⟨hl, hnames⟩
    · exact ht.named (entry.1, f) hf
  · intro entry hentry
    rcases hmem entry hentry with heq | ⟨f, hf⟩
    · rw [heq]
      exact hkept _ habove
    · exact hkept _ (ht.rooted (entry.1, f) hf)

theorem WellFormed.eraseAll (ht : t.WellFormed) {p : Location → Bool}
    (hp : ∀ l, p l → t.isFileAt l) : (t.eraseAll p).WellFormed := by
  have hsub : (t.eraseAll p).entries.Sublist t.entries := List.filter_sublist
  have hroot : p [] = false := by
    cases h : p [] with
    | false => rfl
    | true => exact absurd rfl (ne_nil_of_isFileAt (hp [] h))
  refine ⟨ht.distinct.sublist (hsub.map _), fun entry hentry => ht.named _ (hsub.subset hentry),
    fun entry hentry => ?_⟩
  have hdirectory := ht.rooted _ (hsub.subset hentry)
  rw [entry?_eraseAll t hroot]
  split
  · rename_i herased
    have hfile := hp _ herased
    simp [isFileAt_eq_false_of_directory hdirectory] at hfile
  · exact hdirectory

end Updates

section Listing

variable {t : FileTree}

theorem below?_eq_some_iff {base l r : Location} :
    below? base l = some r ↔ l = base ++ r ∧ r ≠ [] := by
  unfold below?
  constructor
  · intro h
    split at h
    · rename_i hcond
      simp only [Bool.and_eq_true, List.isPrefixOf_iff_prefix, decide_eq_true_eq] at hcond
      obtain ⟨⟨k, rfl⟩, hlength⟩ := hcond
      simp only [List.drop_left, Option.some.injEq] at h
      subst h
      refine ⟨rfl, ?_⟩
      rintro rfl
      simp at hlength
    · cases h
  · rintro ⟨rfl, hr⟩
    have hlength : 0 < r.length := List.length_pos_iff.mpr hr
    simp [hlength]

theorem mem_filesBelow (ht : t.WellFormed) {base r : Location} :
    r ∈ t.filesBelow base ↔ r ≠ [] ∧ t.isFileAt (base ++ r) := by
  unfold filesBelow
  rw [(List.mergeSort_perm _ _).mem_iff, List.mem_filterMap, isFileAt_iff]
  constructor
  · rintro ⟨⟨l, e⟩, hentry, h⟩
    cases e with
    | directory => cases h
    | file content =>
      obtain ⟨rfl, hr⟩ := below?_eq_some_iff.mp h
      exact ⟨hr, content, (ht.mem_iff.mp hentry).2⟩
  · rintro ⟨hr, content, hcontent⟩
    refine ⟨(base ++ r, .file content), ht.mem_iff.mpr ⟨by simp [hr], hcontent⟩, ?_⟩
    exact below?_eq_some_iff.mpr ⟨rfl, hr⟩

theorem nodup_filesBelow (ht : t.WellFormed) (base : Location) : (t.filesBelow base).Nodup := by
  unfold filesBelow
  rw [(List.mergeSort_perm _ _).nodup_iff]
  refine (List.pairwise_map.mp ht.distinct).filterMap _ ?_
  rintro ⟨l, e⟩ ⟨m, f⟩ hne r hr r' hr' rfl
  cases e with
  | directory => cases hr
  | file _ =>
    cases f with
    | directory => cases hr'
    | file _ =>
      refine hne ?_
      rw [(below?_eq_some_iff.mp hr).1, (below?_eq_some_iff.mp hr').1]

theorem pairwise_filesBelow (base : Location) :
    (t.filesBelow base).Pairwise fun l m => Location.notAfter l m :=
  @List.pairwise_mergeSort _ Location.notAfter (fun _ _ _ => Location.notAfter_trans)
    Location.notAfter_total _

end Listing

end FileTree

end Declass
