import Declass.Proofs.Relayout
import Declass.Proofs.TreeEntries

/-!
# Where paths lead

**Input.** Paths as text, and a well-formed file tree.

**Algorithm.** Splitting at the slashes undoes joining, so what a path leads to can be followed piece
by piece: first the pieces of a directory, then the names below it.  Comparisons go by parts and
following goes by pieces; the two differ in empty pieces and dots, which stay where they are, and in
two dots, which only following resolves.

**Results.**
* `locate_join` and `locate_below`: a path below a directory is followed from that directory on.
* `parts_of_locate`: without two dots, the parts of an absolute path are the names of its location,
  hence `isUnder_iff` and `isSame_iff`: comparing parts then compares locations.
* `locate_mono`: what a path leads to stays when directories are added.
-/

namespace Declass

open Text (splitOn splitOn_append)

namespace Path

section Parts

variable {part : Part}

/-- A part that can stand behind the root: two dots, or a name. -/
inductive IsStep : Part → Prop
  | up : IsStep .up
  | name {n : Text} (hn : IsName n) : IsStep (.name n)

/-- The steps of a path: its parts but the root or a dot in front. -/
def steps (p : Text) : List Part := (splitOn '/' p).filterMap partOf?

theorem partOf?_cases (piece : Text) :
    (piece = [] ∨ piece = ".") ∧ partOf? piece = none ∨
      piece = ".." ∧ partOf? piece = some .up ∨
      (piece ≠ [] ∧ piece ≠ "." ∧ piece ≠ "..") ∧ partOf? piece = some (.name piece) := by
  unfold partOf?
  simp only [Bool.or_eq_true, List.isEmpty_iff, beq_iff_eq]
  by_cases hhere : piece = [] ∨ piece = "."
  · exact .inl ⟨hhere, if_pos hhere⟩
  · rw [if_neg hhere]
    by_cases hup : piece = ".."
    · exact .inr (.inl ⟨hup, if_pos hup⟩)
    · rw [not_or] at hhere
      exact .inr (.inr ⟨⟨hhere.1, hhere.2, hup⟩, if_neg hup⟩)

theorem partOf?_name {n : Text} (hn : IsName n) : partOf? n = some (.name n) := by
  obtain ⟨hnil, hdot, hdots, -⟩ := hn
  rcases partOf?_cases n with ⟨hhere | hhere, -⟩ | ⟨hup, -⟩ | ⟨-, hname⟩
  · exact absurd hhere hnil
  · exact absurd hhere hdot
  · exact absurd hup hdots
  · exact hname

theorem partOf?_text {piece : Text} (h : partOf? piece = some part) :
    partOf? part.text = some part := by
  rcases partOf?_cases piece with ⟨-, hnone⟩ | ⟨-, hup⟩ | ⟨-, hname⟩
  · rw [hnone] at h
    cases h
  · rw [hup] at h
    cases h
    rfl
  · rw [hname] at h
    cases h
    exact hname

/-- The place to which a piece leads from the directory at `l`. -/
def lead (l : Location) (piece : Text) : Location :=
  match partOf? piece with
  | some .up => l.dropLast
  | some (.name n) => l ++ [n]
  | _ => l

theorem IsStep.partOf?_text (h : IsStep part) : partOf? part.text = some part := by
  cases h with
  | up => rfl
  | name hn => exact partOf?_name hn

theorem IsStep.not_mem_text (h : IsStep part) : '/' ∉ part.text := by
  cases h with
  | up => decide
  | name hn => exact hn.2.2.2

theorem isStep_of_mem_steps {p : Text} (h : part ∈ steps p) : IsStep part := by
  obtain ⟨piece, hpiece, hpart⟩ := List.mem_filterMap.mp h
  rcases partOf?_cases piece with ⟨-, hnone⟩ | ⟨-, hup⟩ | ⟨⟨hnil, hdot, hdots⟩, hname⟩
  · rw [hnone] at hpart
    cases hpart
  · rw [hup] at hpart
    cases hpart
    exact .up
  · rw [hname] at hpart
    cases hpart
    exact .name ⟨hnil, hdot, hdots, Text.not_mem_splitOn '/' p piece hpiece⟩

/-- An absolute path without two dots. -/
def IsPlain (p : Text) : Prop := isAbsolute p = true ∧ Part.up ∉ parts p

instance (p : Text) : Decidable (IsPlain p) :=
  inferInstanceAs (Decidable (isAbsolute p = true ∧ Part.up ∉ parts p))

theorem parts_of_isAbsolute {p : Text} (hp : isAbsolute p) : parts p = .root :: steps p := by
  simp [parts, hp, steps]

theorem filterMap_partOf?_names {r : List Text} (hr : ∀ n ∈ r, IsName n) :
    r.filterMap partOf? = r.map .name := by
  induction r with
  | nil => rfl
  | cons n r ih =>
    obtain ⟨hn, hrest⟩ := List.forall_mem_cons.mp hr
    rw [List.filterMap_cons, partOf?_name hn, ih hrest]
    rfl

theorem filterMap_partOf?_text {ps : List Part} (hps : ∀ part ∈ ps, IsStep part) :
    (ps.map Part.text).filterMap partOf? = ps := by
  induction ps with
  | nil => rfl
  | cons part ps ih =>
    obtain ⟨hpart, hrest⟩ := List.forall_mem_cons.mp hps
    rw [List.map_cons, List.filterMap_cons, hpart.partOf?_text, ih hrest]

end Parts

section Joining

variable {base p : Text} {r : List Text}

theorem isAbsolute_join (h : isAbsolute base) : isAbsolute (join base p) := by
  unfold join
  split
  · assumption
  · cases base with
    | nil => cases h
    | cons c base =>
      split
      · exact h
      · exact h

/-- Joining puts the pieces of a path behind those of the directory, up to one empty piece. -/
theorem splitOn_join_cases (base : Text) (hp : isAbsolute p = false) :
    ∃ front, splitOn '/' (join base p) = front ++ splitOn '/' p ∧
      (splitOn '/' base = front ∨ splitOn '/' base = front ++ [[]]) := by
  unfold join
  rw [hp, if_neg (by simp)]
  split
  · rename_i hend
    rcases Bool.or_eq_true_iff.mp hend with hempty | hslash
    · rw [List.isEmpty_iff.mp hempty]
      exact ⟨[], rfl, .inr rfl⟩
    · obtain ⟨b, rfl⟩ := List.getLast?_eq_some_iff.mp (beq_iff_eq.mp hslash)
      refine ⟨splitOn '/' b, ?_, .inr ?_⟩
      · rw [List.append_assoc, List.singleton_append, splitOn_append]
      · rw [splitOn_append]
        rfl
  · refine ⟨splitOn '/' base, ?_, .inl rfl⟩
    show splitOn '/' (base ++ ['/'] ++ p) = _
    rw [List.append_assoc, List.singleton_append, splitOn_append]

theorem steps_join (hp : isAbsolute p = false) : steps (join base p) = steps base ++ steps p := by
  obtain ⟨front, hjoin, hbase | hbase⟩ := splitOn_join_cases base hp
  · rw [steps, steps, steps, hjoin, hbase, List.filterMap_append]
  · rw [steps, steps, steps, hjoin, hbase]
    simp [partOf?]

theorem isAbsolute_ofNames (hr : ∀ n ∈ r, IsName n) : isAbsolute (ofNames r) = false := by
  cases r with
  | nil => rfl
  | cons n r =>
    obtain ⟨⟨hnil, -, -, hslash⟩, -⟩ := List.forall_mem_cons.mp hr
    cases n with
    | nil => exact absurd rfl hnil
    | cons c n =>
      have hc : c ≠ '/' := fun h => hslash (by simp [h])
      have hhead : (ofNames ((c :: n) :: r)).head? = some c := by
        cases r with
        | nil => rfl
        | cons m r => rfl
      simpa [isAbsolute, hhead] using hc

theorem splitOn_ofNames (hne : r ≠ []) (hr : ∀ n ∈ r, IsName n) :
    splitOn '/' (ofNames r) = r := Text.splitOn_join hne fun n hn => (hr n hn).2.2.2

theorem steps_ofNames (hr : ∀ n ∈ r, IsName n) : steps (ofNames r) = r.map .name := by
  by_cases hne : r = []
  · subst hne
    rfl
  · rw [steps, splitOn_ofNames hne hr, filterMap_partOf?_names hr]

theorem parts_join_ofNames (hbase : isAbsolute base) (hr : ∀ n ∈ r, IsName n) :
    parts (join base (ofNames r)) = parts base ++ r.map .name := by
  rw [parts_of_isAbsolute (isAbsolute_join hbase), parts_of_isAbsolute hbase,
    steps_join (isAbsolute_ofNames hr), steps_ofNames hr, List.cons_append]

end Joining

section Below

/-- The path with the given names below a directory, written by its parts. -/
def below (base : Text) (m : List Text) : Text := ofParts (parts base ++ m.map .name)

variable {base : Text} {m : List Text}

theorem below_eq (hbase : isAbsolute base) :
    below base m = '/' :: Text.join "/" ((steps base ++ m.map Part.name).map Part.text) := by
  rw [below, parts_of_isAbsolute hbase]
  rfl

theorem isAbsolute_below (hbase : isAbsolute base) : isAbsolute (below base m) := by
  rw [below_eq hbase]
  rfl

theorem isStep_below (hm : ∀ n ∈ m, IsName n) :
    ∀ part ∈ steps base ++ m.map .name, IsStep part := by
  intro part hpart
  rcases List.mem_append.mp hpart with hpart | hpart
  · exact isStep_of_mem_steps hpart
  · obtain ⟨n, hn, rfl⟩ := List.mem_map.mp hpart
    exact .name (hm n hn)

section

variable (hbase : isAbsolute base) (hm : ∀ n ∈ m, IsName n)
include hbase hm

theorem splitOn_below (hne : steps base ++ m.map Part.name ≠ []) :
    splitOn '/' (below base m) = [] :: (steps base ++ m.map Part.name).map Part.text := by
  rw [below_eq hbase]
  refine congrArg _ (Text.splitOn_join (by simpa using hne) ?_)
  intro n hn
  obtain ⟨part, hpart, rfl⟩ := List.mem_map.mp hn
  exact (isStep_below hm part hpart).not_mem_text

theorem steps_below : steps (below base m) = steps base ++ m.map .name := by
  by_cases hne : steps base ++ m.map .name = []
  · rw [below_eq hbase, hne]
    decide
  · rw [steps, splitOn_below hbase hm hne]
    exact filterMap_partOf?_text (isStep_below hm)

theorem parts_below : parts (below base m) = parts base ++ m.map .name := by
  rw [parts_of_isAbsolute (isAbsolute_below hbase), steps_below hbase hm,
    parts_of_isAbsolute hbase, List.cons_append]

end

theorem parent?_of_parts {p : Text} {n : Text}
    (h : parts p = parts base ++ (m ++ [n]).map Part.name) : parent? p = some (below base m) := by
  have hreverse : (parts p).reverse = .name n :: (parts base ++ m.map Part.name).reverse := by
    rw [h, List.map_append, ← List.append_assoc, List.reverse_append]
    rfl
  unfold parent?
  rw [hreverse]
  simp [below]

theorem parent?_below (hbase : isAbsolute base) {n : Text}
    (hm : ∀ k ∈ m ++ [n], IsName k) : parent? (below base (m ++ [n])) = some (below base m) :=
  parent?_of_parts (parts_below hbase hm)

theorem parent?_join_ofNames (hbase : isAbsolute base) {n : Text} (hm : ∀ k ∈ m ++ [n], IsName k) :
    parent? (join base (ofNames (m ++ [n]))) = some (below base m) :=
  parent?_of_parts (parts_join_ofNames hbase hm)

end Below

/-- A path without the slashes at its end. -/
def trimSlashes (p : Text) : Text := (p.reverse.dropWhile (· == '/')).reverse

theorem trimSlashes_concat (p : Text) : trimSlashes (p ++ ['/']) = trimSlashes p := by
  simp [trimSlashes]

theorem trimSlashes_of_not_slash {p : Text} (h : p.getLast? ≠ some '/') : trimSlashes p = p := by
  rcases List.eq_nil_or_concat p with rfl | ⟨q, c, rfl⟩
  · rfl
  · have hc : c ≠ '/' := by simpa using h
    simp [trimSlashes, hc]

theorem trimSlashes_of_splitOn {p : Text} (h : (splitOn '/' p).getLast? ≠ some []) :
    trimSlashes p = p := by
  refine trimSlashes_of_not_slash fun hlast => h ?_
  obtain ⟨q, rfl⟩ := List.getLast?_eq_some_iff.mp hlast
  rw [splitOn_append]
  simp [splitOn]

end Path

namespace FileTree

section Following

variable {t u : FileTree} {l m r : Location} {ps : List Text} {n : Text}

/-- The directories of `t` are directories of `u`. -/
def DirectoriesIn (t u : FileTree) : Prop :=
  ∀ l, t.entry? l = some .directory → u.entry? l = some .directory

theorem DirectoriesIn.trans {v : FileTree} (htu : t.DirectoriesIn u) (huv : u.DirectoriesIn v) :
    t.DirectoriesIn v := fun l hl => huv l (htu l hl)

theorem follow_cons (hl : t.entry? l = some .directory) (piece : Text) (ps : List Text) :
    t.follow l (piece :: ps) = t.follow (Path.lead l piece) ps := by
  rw [follow, hl]
  simp only [Bool.or_eq_true, List.isEmpty_iff, beq_iff_eq, Path.lead]
  rcases Path.partOf?_cases piece with ⟨hhere, hpart⟩ | ⟨hup, hpart⟩ | ⟨⟨hnil, hdot, hdots⟩, hpart⟩
  · rw [if_pos hhere, hpart]
  · subst hup
    rw [if_neg (by decide), if_pos rfl, hpart]
  · rw [if_neg (not_or.mpr ⟨hnil, hdot⟩), if_neg hdots, hpart]

theorem follow_cons_ok {piece : Text} (h : t.follow l (piece :: ps) = .ok m) :
    t.entry? l = some .directory ∧ t.follow (Path.lead l piece) ps = .ok m := by
  have hl : t.entry? l = some .directory := by
    rw [follow] at h
    split at h
    · cases h
    · cases h
    · assumption
  exact ⟨hl, by rwa [follow_cons hl] at h⟩

theorem follow_append (l : Location) (ps qs : List Text) :
    t.follow l (ps ++ qs) = t.follow l ps >>= fun m => t.follow m qs := by
  induction ps generalizing l with
  | nil => rfl
  | cons piece ps ih =>
    rcases hentry : t.entry? l with _ | e
    · simp [follow, hentry, bind, Except.bind]
    · cases e with
      | file content => simp [follow, hentry, bind, Except.bind]
      | directory => rw [List.cons_append, follow_cons hentry, follow_cons hentry, ih]

theorem follow_mono (h : t.DirectoriesIn u) (hfollow : t.follow l ps = .ok m) :
    u.follow l ps = .ok m := by
  induction ps generalizing l with
  | nil => exact hfollow
  | cons piece ps ih =>
    obtain ⟨hl, hrest⟩ := follow_cons_ok hfollow
    rw [follow_cons (h l hl)]
    exact ih hrest

/-- A path that leads somewhere leads there in a tree with more directories. -/
theorem locate_mono (h : t.DirectoriesIn u) {p : Text} (hlocate : t.locate p = .ok l) :
    u.locate p = .ok l := follow_mono h hlocate

/-- The place that a path leads to lies in a directory, and its names are names of entries. -/
theorem follow_parent (ht : t.WellFormed) (hps : ∀ piece ∈ ps, '/' ∉ piece)
    (hl : t.entry? l.dropLast = some .directory ∧ ∀ n ∈ l, Path.IsName n)
    (h : t.follow l ps = .ok m) :
    t.entry? m.dropLast = some .directory ∧ ∀ n ∈ m, Path.IsName n := by
  induction ps generalizing l with
  | nil =>
    cases h
    exact hl
  | cons piece ps ih =>
    obtain ⟨hpiece, hrest⟩ := List.forall_mem_cons.mp hps
    obtain ⟨hdirectory, h⟩ := follow_cons_ok h
    refine ih hrest ?_ h
    unfold Path.lead
    rcases Path.partOf?_cases piece with ⟨-, hpart⟩ | ⟨-, hpart⟩ | ⟨⟨hnil, hdot, hdots⟩, hpart⟩
    · rwa [hpart]
    · rw [hpart]
      exact ⟨ht.dropLast_directory hl.1, fun n hn => hl.2 n ((List.dropLast_sublist l).subset hn)⟩
    · rw [hpart]
      refine ⟨by rwa [List.dropLast_concat], fun n hn => ?_⟩
      rcases List.mem_append.mp hn with hn | hn
      · exact hl.2 n hn
      · rw [List.mem_singleton.mp hn]
        exact ⟨hnil, hdot, hdots, hpiece⟩

theorem locate_parent (ht : t.WellFormed) {p : Text} (h : t.locate p = .ok m) :
    t.entry? m.dropLast = some .directory ∧ ∀ n ∈ m, Path.IsName n :=
  follow_parent ht (Text.not_mem_splitOn '/' p) ⟨rfl, by simp⟩ h

theorem follow_cons_name (hl : t.entry? l = some .directory) (hn : Path.IsName n) :
    t.follow l (n :: ps) = t.follow (l ++ [n]) ps := by
  rw [follow_cons hl, Path.lead, Path.partOf?_name hn]

/-- Names lead down as long as there are directories. -/
theorem follow_names (ht : t.WellFormed) (hr : ∀ n ∈ r, Path.IsName n)
    (hlast : t.entry? (l ++ r.dropLast) = some .directory) : t.follow l r = .ok (l ++ r) := by
  induction r generalizing l with
  | nil => simp [follow]
  | cons n r ih =>
    obtain ⟨hn, hrest⟩ := List.forall_mem_cons.mp hr
    have hl : t.entry? l = some .directory :=
      ht.directory_of_isPrefix hlast (List.prefix_append l _)
    rw [follow_cons_name hl hn]
    by_cases hnil : r = []
    · simp [hnil, follow]
    · rw [List.dropLast_cons_of_ne_nil hnil, ← List.singleton_append, ← List.append_assoc] at hlast
      rw [ih hrest hlast, List.append_assoc, List.singleton_append]

/-- Names that can be followed lead to the place below that they spell. -/
theorem eq_of_follow_names (hr : ∀ n ∈ r, Path.IsName n) (h : t.follow l r = .ok m) :
    m = l ++ r := by
  induction r generalizing l with
  | nil =>
    cases h
    simp
  | cons n r ih =>
    obtain ⟨hn, hrest⟩ := List.forall_mem_cons.mp hr
    obtain ⟨-, h⟩ := follow_cons_ok h
    rw [Path.lead, Path.partOf?_name hn] at h
    rw [ih hrest h, List.append_assoc, List.singleton_append]

theorem follow_blocked (ht : t.WellFormed) {k : Location} (hl : t.entry? l = some .directory)
    (hr : ∀ a ∈ r, Path.IsName a) (hk : k <+: r) (hfile : t.isFileAt (l ++ k)) :
    t.follow l (r ++ [n]) = .error .notADirectory := by
  induction r generalizing l k with
  | nil =>
    rw [List.prefix_nil.mp hk, List.append_nil, isFileAt_eq_false_of_directory hl] at hfile
    cases hfile
  | cons a r ih =>
    obtain ⟨ha, hrest⟩ := List.forall_mem_cons.mp hr
    cases k with
    | nil =>
      rw [List.append_nil, isFileAt_eq_false_of_directory hl] at hfile
      cases hfile
    | cons b k =>
      obtain ⟨rfl, hkr⟩ := List.cons_prefix_cons.mp hk
      rw [← List.singleton_append, ← List.append_assoc] at hfile
      rw [List.cons_append, follow_cons_name hl ha]
      by_cases hnil : k = []
      · -- The file is the next entry: one more piece cannot be followed from it.
        subst hnil
        rw [List.append_nil] at hfile
        obtain ⟨content, hcontent⟩ := isFileAt_iff.mp hfile
        cases r with
        | nil => simp [follow, hcontent]
        | cons c r => simp [follow, hcontent]
      · obtain ⟨content, hcontent⟩ := isFileAt_iff.mp hfile
        exact ih (ht.directory_above hcontent hnil) hrest hkr hfile

/-- Without a file on the way, what is not a directory is missing. -/
theorem follow_missing (hl : t.entry? l = some .directory) (hr : ∀ a ∈ r, Path.IsName a)
    (hfree : ∀ k, k <+: r → t.isFileAt (l ++ k) = false)
    (hmissing : t.entry? (l ++ r) ≠ some .directory) :
    t.follow l (r ++ [n]) = .error .notFound := by
  induction r generalizing l with
  | nil => exact absurd (by simpa using hl) hmissing
  | cons a r ih =>
    obtain ⟨ha, hrest⟩ := List.forall_mem_cons.mp hr
    have hshift : ∀ k, l ++ a :: k = l ++ [a] ++ k := by simp
    rw [List.cons_append, follow_cons_name hl ha]
    rcases t.entry_cases (l ++ [a]) with hdirectory | hfile | hnone
    · refine ih hdirectory hrest (fun k hk => ?_) (by rwa [← hshift])
      rw [← hshift]
      exact hfree _ (List.cons_prefix_cons.mpr ⟨rfl, hk⟩)
    · rw [hfree [a] (by simp)] at hfile
      cases hfile
    · cases r with
      | nil => simp [follow, hnone]
      | cons c r => simp [follow, hnone]

end Following

section Joined

variable {t : FileTree} {base : Text} {l m : Location} {ps : List Text}

theorem follow_nil_cons (l : Location) (ps : List Text) (h : t.entry? l = some .directory) :
    t.follow l ([] :: ps) = t.follow l ps := follow_cons h [] ps

/-- A path below a directory is followed from there on. -/
theorem locate_join {p : Text} (hp : Path.isAbsolute p = false) : t.locate (Path.join base p) =
      t.locate base >>= fun l => t.follow l (splitOn '/' p) := by
  unfold locate
  obtain ⟨front, hjoin, hbase | hbase⟩ := Path.splitOn_join_cases base hp
  · rw [hjoin, hbase, follow_append]
  · rw [hjoin, hbase, follow_append, follow_append]
    -- The empty piece behind a slash asks for a directory, and so does the piece after it.
    cases t.follow [] front with
    | error e => rfl
    | ok l =>
      cases hpieces : splitOn '/' p with
      | nil => exact absurd hpieces (Text.splitOn_ne_nil '/' p)
      | cons piece pieces =>
        show t.follow l (piece :: pieces) =
          t.follow l [[]] >>= fun l => t.follow l (piece :: pieces)
        rcases hentry : t.entry? l with _ | e
        · simp [follow, hentry, bind, Except.bind]
        · cases e with
          | directory =>
            rw [follow_nil_cons l [] hentry]
            rfl
          | file content => simp [follow, hentry, bind, Except.bind]

theorem locate_join_ofNames {r : Location} (hbase : t.locate base = .ok l) (hne : r ≠ [])
    (hr : ∀ n ∈ r, Path.IsName n) : t.locate (Path.join base (Path.ofNames r)) = t.follow l r := by
  rw [locate_join (Path.isAbsolute_ofNames hr), hbase, Path.splitOn_ofNames hne hr]
  rfl

/-- Empty pieces and dots can be left out. -/
theorem follow_steps (h : t.follow l ps = .ok m) :
    t.follow l ((ps.filterMap Path.partOf?).map Path.Part.text) = .ok m := by
  induction ps generalizing l with
  | nil => exact h
  | cons piece ps ih =>
    obtain ⟨hl, h⟩ := follow_cons_ok h
    rw [List.filterMap_cons]
    cases hpart : Path.partOf? piece with
    | none =>
      rw [Path.lead, hpart] at h
      exact ih h
    | some part =>
      rw [List.map_cons, follow_cons hl, Path.lead, Path.partOf?_text hpart]
      rw [Path.lead, hpart] at h
      exact ih h

theorem directory_of_follow (h : t.follow l ps = .ok m) (hm : t.entry? m = some .directory) :
    t.entry? l = some .directory := by
  cases ps with
  | nil =>
    cases h
    exact hm
  | cons piece ps => exact (follow_cons_ok h).1

/-- Empty pieces and dots can be put in on the way to a directory. -/
theorem follow_of_steps (hm : t.entry? m = some .directory)
    (h : t.follow l ((ps.filterMap Path.partOf?).map Path.Part.text) = .ok m) :
    t.follow l ps = .ok m := by
  have hl := directory_of_follow h hm
  induction ps generalizing l with
  | nil => exact h
  | cons piece ps ih =>
    rw [List.filterMap_cons] at h
    rw [follow_cons hl, Path.lead]
    cases hpart : Path.partOf? piece with
    | none =>
      rw [hpart] at h
      exact ih h hl
    | some part =>
      rw [hpart] at h
      obtain ⟨-, h⟩ := follow_cons_ok h
      rw [Path.lead, Path.partOf?_text hpart] at h
      exact ih h (directory_of_follow h hm)

/-- Absolute paths with the same parts lead to the same directory. -/
theorem locate_of_isSame {p q : Text} (hp : Path.isAbsolute p)
    (hq : Path.isAbsolute q) (hsame : Path.isSame p q) (hlocate : t.locate q = .ok l)
    (hl : t.entry? l = some .directory) : t.locate p = .ok l := by
  rw [Path.isSame, beq_iff_eq, Path.parts_of_isAbsolute hp, Path.parts_of_isAbsolute hq,
    List.cons.injEq] at hsame
  refine follow_of_steps hl ?_
  have hsteps := follow_steps hlocate
  change t.follow [] ((Path.steps q).map Path.Part.text) = .ok l at hsteps
  rwa [← hsame.2] at hsteps

/-- A path written by its parts is followed from the directory on. -/
theorem locate_below (habsolute : Path.isAbsolute base) (hbase : t.locate base = .ok l)
    (hm : ∀ n ∈ m, Path.IsName n) : t.locate (Path.below base m) = t.follow l m := by
  have hsteps : t.follow [] ((Path.steps base).map Path.Part.text) = .ok l := follow_steps hbase
  by_cases hne : Path.steps base ++ m.map .name = []
  · obtain ⟨hnil, hmnil⟩ := List.append_eq_nil_iff.mp hne
    rw [hnil] at hsteps
    cases hsteps
    rw [List.map_eq_nil_iff.mp hmnil, Path.below_eq habsolute, hnil]
    rfl
  · rw [locate, Path.splitOn_below habsolute hm hne, follow_nil_cons _ _ t.entry?_nil,
      List.map_append, follow_append, hsteps, List.map_map]
    have htext : Path.Part.text ∘ Path.Part.name = id := rfl
    rw [htext, List.map_id]
    rfl

end Joined

section Spelling

variable {t : FileTree} {l m : Location} {p : Text}

theorem map_name_of_follow {ps : List Text} (hup : Path.Part.up ∉ ps.filterMap Path.partOf?)
    (h : t.follow l ps = .ok m) :
    m.map Path.Part.name = l.map Path.Part.name ++ ps.filterMap Path.partOf? := by
  induction ps generalizing l with
  | nil =>
    cases h
    simp
  | cons piece ps ih =>
    obtain ⟨-, h⟩ := follow_cons_ok h
    rw [List.filterMap_cons] at hup ⊢
    rw [Path.lead] at h
    rcases Path.partOf?_cases piece with ⟨-, hpart⟩ | ⟨-, hpart⟩ | ⟨-, hpart⟩
    · rw [hpart] at h hup ⊢
      exact ih hup h
    · rw [hpart] at hup
      simp at hup
    · rw [hpart] at h hup ⊢
      rw [ih (fun hmem => hup (List.mem_cons_of_mem _ hmem)) h]
      simp

/-- The parts of an absolute path without two dots are the names of its location. -/
theorem parts_of_locate (hp : Path.IsPlain p) (h : t.locate p = .ok l) :
    Path.parts p = .root :: l.map .name := by
  obtain ⟨habsolute, hup⟩ := hp
  rw [Path.parts_of_isAbsolute habsolute] at hup ⊢
  rw [List.mem_cons, not_or] at hup
  rw [map_name_of_follow hup.2 h]
  rfl

theorem map_name_injective : Function.Injective (List.map Path.Part.name) :=
  List.map_injective_iff.mpr fun _ _ h => Path.Part.name.inj h

theorem map_name_prefix_iff : l.map Path.Part.name <+: m.map Path.Part.name ↔ l <+: m := by
  constructor
  · rintro ⟨k, hk⟩
    obtain ⟨l', k', rfl, hl', -⟩ := List.map_eq_append_iff.mp hk.symm
    rw [map_name_injective hl']
    exact List.prefix_append _ _
  · rintro ⟨k, rfl⟩
    rw [List.map_append]
    exact List.prefix_append _ _

/-- One path is under another, by their parts, exactly if the locations lie so. -/
theorem isUnder_iff {q : Text} (hp : Path.parts p = .root :: l.map .name)
    (hq : Path.parts q = .root :: m.map .name) : Path.isUnder p q ↔ m <+: l := by
  rw [Path.isUnder, hp, hq, List.isPrefixOf_iff_prefix, List.cons_prefix_cons, map_name_prefix_iff]
  simp

theorem isSame_iff {q : Text} (hp : Path.parts p = .root :: l.map .name)
    (hq : Path.parts q = .root :: m.map .name) : Path.isSame p q ↔ l = m := by
  rw [Path.isSame, hp, hq, beq_iff_eq, List.cons.injEq, map_name_injective.eq_iff]
  simp

end Spelling

section GoingDown

variable {t u : FileTree}

/-- Without two dots, a path only goes down. -/
theorem isPrefix_of_follow {l m : Location} {ps : List Text}
    (hup : Path.Part.up ∉ ps.filterMap Path.partOf?) (h : t.follow l ps = .ok m) : l <+: m := by
  rw [← map_name_prefix_iff, map_name_of_follow hup h]
  exact List.prefix_append _ _

/-- Without two dots, only the directories above the place that a path leads to are looked at. -/
theorem follow_of_directories {l m : Location} {ps : List Text}
    (hup : Path.Part.up ∉ ps.filterMap Path.partOf?) (h : t.follow l ps = .ok m)
    (hu : ∀ k, k <+: m → t.entry? k = some .directory → u.entry? k = some .directory) :
    u.follow l ps = .ok m := by
  induction ps generalizing l with
  | nil => exact h
  | cons piece ps ih =>
    have hl := isPrefix_of_follow hup h
    obtain ⟨hdirectory, hrest⟩ := follow_cons_ok h
    rw [follow_cons (hu l hl hdirectory)]
    refine ih (fun hmem => hup ?_) hrest
    rw [List.filterMap_cons]
    split
    · exact hmem
    · exact List.mem_cons_of_mem _ hmem

theorem locate_of_directories {p : Text} {l : Location} (hp : Path.IsPlain p)
    (h : t.locate p = .ok l)
    (hu : ∀ k, k <+: l → t.entry? k = some .directory → u.entry? k = some .directory) :
    u.locate p = .ok l := by
  obtain ⟨habsolute, hup⟩ := hp
  rw [Path.parts_of_isAbsolute habsolute, List.mem_cons, not_or] at hup
  exact follow_of_directories hup.2 h hu

end GoingDown

section TrailingSlashes

variable {t : FileTree}

theorem locate_slash (p : Text) :
    t.locate (p ++ ['/']) = t.locate p >>= fun l => t.follow l [[]] := by
  rw [locate, splitOn_append, follow_append]
  rfl

theorem locate_trimSlashes {p : Text} {l : Location} (h : t.locate p = .ok l) :
    t.locate (Path.trimSlashes p) = .ok l := by
  induction p using List.reverseRecOn with
  | nil => exact h
  | append_singleton p c ih =>
    by_cases hc : c = '/'
    · subst hc
      rw [locate_slash] at h
      rw [Path.trimSlashes_concat]
      cases hlocate : t.locate p with
      | error e =>
        rw [hlocate] at h
        cases h
      | ok m =>
        rw [hlocate] at h
        have hm : t.follow m [[]] = .ok l := h
        rw [follow] at hm
        split at hm
        · cases hm
        · cases hm
        · cases hm
          exact ih hlocate
    · rwa [Path.trimSlashes_of_not_slash (by simpa using hc)]

theorem locate_of_trimSlashes {p : Text} {l : Location} (hl : t.entry? l = some .directory)
    (h : t.locate (Path.trimSlashes p) = .ok l) : t.locate p = .ok l := by
  induction p using List.reverseRecOn with
  | nil => exact h
  | append_singleton p c ih =>
    by_cases hc : c = '/'
    · subst hc
      rw [Path.trimSlashes_concat] at h
      rw [locate_slash, ih h]
      exact follow_nil_cons l [] hl
    · rwa [Path.trimSlashes_of_not_slash (by simpa using hc)] at h

end TrailingSlashes

end FileTree

end Declass
