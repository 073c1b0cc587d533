import Declass.Proofs.Members

/-!
# Members that are declared async

**Input.** A code map and the range of a class body in it.

**Algorithm.** A member is declared async by a word in front of its name, or by a word in front of
the function that it is a field for.  `Heads` says which words stand in front of a name, without
regard to what they mean, and `DeclaredAsync` that one of these places holds the word.  There is one
way to read a head, since nothing that comes behind a name can follow a modifier.

**Results.** `isAsync_iff_declaredAsync`: a function is read as async if and only if the member is
declared so.
-/

namespace Declass

open CodeMap

namespace Member

section Heads

/-- Words with a gap behind each of them lead from one position to another. -/
inductive WordsTo (m : CodeMap) (stop : Nat) : List Text → Nat → Nat → Prop
  | nil {pos : Nat} : WordsTo m stop [] pos pos
  | cons {w : Text} {ws : List Text} {pos wordEnd last : Nat} (hend : m.identEnd pos = .ok wordEnd)
      (hlt : pos < wordEnd) (hword : m.slice pos wordEnd = .ok w)
      (hgap : wordEnd < m.skipTrivia wordEnd stop)
      (h : WordsTo m stop ws (m.skipTrivia wordEnd stop) last) : WordsTo m stop (w :: ws) pos last

/-- Where a name starts, behind the star of a generator and the hash of a private name. -/
def nameStart (m : CodeMap) (stop pos : Nat) : Nat :=
  let behindStar := if m.isCodeChar pos '*' then m.skipTrivia (pos + 1) stop else pos
  if m.isCodeChar behindStar '#' then behindStar + 1 else behindStar

/-- A name stands at the position, and what follows it starts at `next`. -/
structure NamedAt (m : CodeMap) (stop pos : Nat) (name : Text) (nameEnd next : Nat) : Prop where
  hend : m.identEnd (nameStart m stop pos) = .ok nameEnd
  hlt : nameStart m stop pos < nameEnd
  hname : m.slice (nameStart m stop pos) nameEnd = .ok name
  hnext : m.skipTrivia nameEnd stop = next

/-- What stands in front of the parameters or of the value of a member: words, and then its name,
behind which there is something else at `next`. -/
def Heads (m : CodeMap) (start stop : Nat) (words : List Text) (name : Text) (next : Nat) : Prop :=
  ∃ pos nameEnd, WordsTo m stop words start pos ∧ NamedAt m stop pos name nameEnd next

/-- The member is declared async: the word stands in front of the name of a method, or in front of
the function that is the value of a field. -/
inductive DeclaredAsync (m : CodeMap) (stop : Nat) (member : Member) : Prop
  | method {parts : FunctionParts} {words : List Text} {next : Nat}
      (hkind : member.kind = .function parts)
      (hhead : Heads m member.range.start stop words member.name next)
      (hparen : m.isCodeChar next '(' = true) (hword : ("async" : Text) ∈ words)
  | value {parts : FunctionParts} {words : List Text} {next valueEnd : Nat}
      (hkind : member.kind = .function parts)
      (hhead : Heads m member.range.start stop words member.name next)
      (hequals : m.isCodeChar next '=' = true)
      (hend : m.identEnd (valueStart m next stop) = .ok valueEnd)
      (hword : m.slice (valueStart m next stop) valueEnd = .ok ("async" : Text))
      (hlt : valueStart m next stop < parts.params.start)

variable {m : CodeMap} {ps : Painted} {start stop pos : Nat} {name : Text} {next : Nat}

/-- An identifier that is not empty starts with a character that can start one. -/
theorem charAt?_of_identEnd {i e : Nat} (h : m.identEnd i = .ok e) (hlt : i < e) :
    ∃ c, m.charAt? i = some c ∧ Character.isIdentStart c := by
  unfold identEnd at h
  split at h
  · split at h
    · rename_i hstart
      exact (Option.any_eq_true _ _).mp hstart
    · cases h
      exact absurd hlt (lt_irrefl _)
  · cases h

theorem startsName_of_isIdentStart {c : Char} (h : Character.isIdentStart c) : startsName c := by
  simp [startsName, h]

/-- A name, with or without a star and a hash, starts with what can follow a modifier. -/
theorem NamedAt.starts {nameEnd : Nat} (h : NamedAt m stop pos name nameEnd next) :
    ∃ c, m.charAt? pos = some c ∧ startsName c := by
  obtain ⟨c, hc, hstart⟩ := charAt?_of_identEnd h.hend h.hlt
  by_cases hstar : m.isCodeChar pos '*' = true
  · exact ⟨'*', isCodeChar_charAt? hstar, rfl⟩
  by_cases hhash : m.isCodeChar pos '#' = true
  · exact ⟨'#', isCodeChar_charAt? hhash, rfl⟩
  have hpos : nameStart m stop pos = pos := by simp [nameStart, hstar, hhash]
  rw [hpos] at hc
  exact ⟨c, hc, startsName_of_isIdentStart hstart⟩

theorem Heads.starts {words : List Text} (h : Heads m start stop words name next) :
    ∃ c, m.charAt? start = some c ∧ startsName c := by
  obtain ⟨pos, nameEnd, hwords, hname⟩ := h
  cases hwords with
  | nil => exact hname.starts
  | cons hend hlt =>
    obtain ⟨c, hc, hstart⟩ := charAt?_of_identEnd hend hlt
    exact ⟨c, hc, startsName_of_isIdentStart hstart⟩

theorem NamedAt.of_word {nameEnd wordEnd : Nat} (h : NamedAt m stop pos name nameEnd next)
    (hend : m.identEnd pos = .ok wordEnd) (hlt : pos < wordEnd) :
    m.skipTrivia wordEnd stop = next := by
  obtain ⟨c, hc, hstart⟩ := charAt?_of_identEnd hend hlt
  have hother : ∀ d, Character.isIdentStart d = false → m.isCodeChar pos d = false := by
    intro d hd
    rw [Bool.eq_false_iff]
    intro hcode
    obtain rfl : c = d := Option.some.inj (hc.symm.trans (isCodeChar_charAt? hcode))
    rw [hstart] at hd
    cases hd
  have hpos : nameStart m stop pos = pos := by
    simp [nameStart, hother '*' rfl, hother '#' rfl]
  have hsame := h.hend
  rw [hpos, hend] at hsame
  rw [Except.ok.inj hsame, h.hnext]

/-- Nothing that follows a head can follow a modifier. -/
def Ends (m : CodeMap) (next : Nat) : Prop :=
  ∃ c, m.charAt? next = some c ∧ startsName c = false

theorem ends_of_codeChar {c : Char} (h : m.isCodeChar next c) (hc : startsName c = false) :
    Ends m next := ⟨c, isCodeChar_charAt? h, hc⟩

theorem Ends.not_starts (h : Ends m next) : ¬∃ c, m.charAt? next = some c ∧ startsName c := by
  rintro ⟨c, hc, hstart⟩
  obtain ⟨d, hd, hother⟩ := h
  obtain rfl := Option.some.inj (hc.symm.trans hd)
  rw [hstart] at hother
  cases hother

end Heads

section Modifiers

variable {m : CodeMap} {ps : Painted} (hm : m.Shows ps) {stop : Nat}

theorem isAsync_of_add? {mods more : Modifiers} {w : Text} (h : mods.add? w = some more) :
    more.isAsync ↔ mods.isAsync ∨ w = "async" := by
  unfold Modifiers.add? at h
  split at h
  · rename_i hw
    cases h
    simp only [beq_iff_eq] at hw
    simp [hw]
  split at h
  · rename_i hw
    cases h
    simpa using Or.inr hw
  split at h
  · rename_i hw
    cases h
    simp only [Bool.or_eq_true, beq_iff_eq] at hw
    rcases hw with rfl | rfl <;> simp
  · cases h

include hm

variable {count pos last : Nat} {mods mods' : Modifiers}

theorem head?_slice {i : Nat} {u : Text} (h : m.slice i m.size = .ok u) :
    u.head? = m.charAt? i := by
  have hspells := spells_of_slice hm h
  cases u with
  | nil =>
    have hsize := (whole_of_slice hm h).2
    rw [Text.size_nil, Nat.add_zero] at hsize
    have hnone : m.slots[i]? = none := Array.getElem?_eq_none (by rw [hsize]; exact le_refl _)
    simp [charAt?, hnone]
  | cons c u =>
    simp only [spells, Bool.and_eq_true, beq_iff_eq] at hspells
    exact hspells.1.symm

/-- What one step over the words in front of a name does: a modifier with a gap behind it and a name
behind the gap is gone over, anything else is the end. -/
theorem modifiersFrom_step (h : modifiersFrom m stop (count + 1) mods pos = .ok (mods', last)) :
    ∃ wordEnd w, m.identEnd pos = .ok wordEnd ∧ m.slice pos wordEnd = .ok w ∧
      ((mods' = mods ∧ last = pos ∧ ∀ more, mods.add? w = some more →
          wordEnd < m.skipTrivia wordEnd stop →
          ¬∃ c, m.charAt? (m.skipTrivia wordEnd stop) = some c ∧ startsName c) ∨
        ∃ more, mods.add? w = some more ∧ wordEnd < m.skipTrivia wordEnd stop ∧
          (∃ c, m.charAt? (m.skipTrivia wordEnd stop) = some c ∧ startsName c) ∧
          modifiersFrom m stop count more (m.skipTrivia wordEnd stop) = .ok (mods', last)) := by
  obtain ⟨wordEnd, hend, h⟩ := bind_eq_ok h
  obtain ⟨w, hword, h⟩ := bind_eq_ok h
  refine ⟨wordEnd, w, hend, hword, ?_⟩
  cases hmore : mods.add? w with
  | none =>
    rw [hmore] at h
    cases h
    exact .inl ⟨rfl, rfl, by simp⟩
  | some more =>
    rw [hmore] at h
    dsimp only at h
    split at h
    · rename_i hgap
      obtain ⟨rest, hrest, h⟩ := bind_eq_ok h
      have hhead := head?_slice hm hrest
      split at h
      · rename_i hstarts
        rw [hhead, Option.any_eq_true] at hstarts
        exact .inr ⟨more, rfl, hgap, hstarts, h⟩
      · rename_i hstarts
        rw [hhead, Option.any_eq_true] at hstarts
        cases h
        exact .inl ⟨rfl, rfl, fun _ _ _ => hstarts⟩
    · rename_i hgap
      cases h
      exact .inl ⟨rfl, rfl, fun _ _ h => absurd h hgap⟩

theorem lt_of_add? {more : Modifiers} {w : Text} {wordEnd : Nat} (h : mods.add? w = some more)
    (hword : m.slice pos wordEnd = .ok w) : pos < wordEnd := by
  have hne : w ≠ [] := by
    rintro rfl
    cases h
  have hsize := (whole_of_slice hm hword).2
  cases w with
  | nil => exact absurd rfl hne
  | cons c w =>
    have := c.utf8Size_pos
    rw [Text.size_cons] at hsize
    omega

/-- The modifiers are words that lead to the name, and they say whether `async` is among them. -/
theorem modifiersFrom_words (h : modifiersFrom m stop count mods pos = .ok (mods', last)) :
    ∃ words, WordsTo m stop words pos last ∧
      (mods'.isAsync ↔ mods.isAsync ∨ ("async" : Text) ∈ words) := by
  induction count generalizing mods pos with
  | zero =>
    cases h
    exact ⟨[], .nil, by simp⟩
  | succ count ih =>
    obtain ⟨wordEnd, w, hend, hword, ⟨rfl, rfl, -⟩ | ⟨more, hmore, hgap, -, h⟩⟩ :=
      modifiersFrom_step hm h
    · exact ⟨[], .nil, by simp⟩
    · obtain ⟨words, hwords, hasync⟩ := ih h
      refine ⟨w :: words, .cons hend (lt_of_add? hm hmore hword) hword hgap hwords, ?_⟩
      rw [hasync, isAsync_of_add? hmore, List.mem_cons]
      tauto

/-- There is one way to read the head of a member: words that lead to a name with something else
behind it are the modifiers. -/
theorem modifiersFrom_of_heads {words : List Text} {name : Text} {next : Nat}
    (hhead : Heads m pos stop words name next) (hends : Ends m next) (hcount : m.size ≤ pos + count)
    (h : modifiersFrom m stop count mods pos = .ok (mods', last)) {name' : Text}
    {nameEnd next' : Nat} (hname : NamedAt m stop last name' nameEnd next') (hends' : Ends m next') :
    next = next' ∧ (mods'.isAsync ↔ mods.isAsync ∨ ("async" : Text) ∈ words) := by
  obtain ⟨place, placeEnd, hwords, hplace⟩ := hhead
  induction hwords generalizing count mods with
  | @nil pos =>
    have hsame : last = pos → next = next' ∧
        (mods.isAsync ↔ mods.isAsync ∨ ("async" : Text) ∈ ([] : List Text)) := by
      rintro rfl
      have := hplace.hend
      rw [hname.hend] at this
      refine ⟨?_, by simp⟩
      rw [← hplace.hnext, ← hname.hnext, Except.ok.inj this]
    cases count with
    | zero =>
      cases h
      exact hsame rfl
    | succ count =>
      obtain ⟨wordEnd, w, hend, hword, ⟨rfl, rfl, -⟩ | ⟨more, hmore, hgap, hstarts, -⟩⟩ :=
        modifiersFrom_step hm h
      · exact hsame rfl
      · rw [hplace.of_word hend (lt_of_add? hm hmore hword)] at hstarts
        exact absurd hstarts hends.not_starts
  | @cons w ws pos wordEnd place hend hlt hword hgap hrest ih =>
    have hstarts := Heads.starts ⟨place, placeEnd, hrest, hplace⟩
    cases count with
    | zero =>
      -- The word ends inside the text, so there is room to read it.
      have := isBoundary_le hm (whole_of_slice hm hword).1.right
      omega
    | succ count =>
      obtain ⟨wordEnd', w', hend', hword', hstep⟩ := modifiersFrom_step hm h
      obtain rfl := Except.ok.inj (hend.symm.trans hend')
      obtain rfl := Except.ok.inj (hword.symm.trans hword')
      rcases hstep with ⟨rfl, rfl, hstop⟩ | ⟨more, hmore, -, -, h⟩
      · rw [hname.of_word hend hlt] at hstarts
        exact absurd hstarts hends'.not_starts
      · obtain ⟨hnext, hasync⟩ := ih (by omega) h hplace
        rw [hasync, isAsync_of_add? hmore, List.mem_cons]
        tauto

end Modifiers

section Values

variable {m : CodeMap} {ps : Painted} (hm : m.Shows ps)

theorem arrowParams?_start {pos wordEnd stop next : Nat} {params : Span}
    (h : arrowParams? m pos wordEnd stop = some (params, next)) :
    params.start = pos ∨ params.start = pos + 1 ∧ m.isCodeChar pos '(' := by
  unfold arrowParams? at h
  split at h
  · rename_i hparen
    obtain ⟨close, -, h⟩ := Option.map_eq_some_iff.mp h
    cases h
    exact .inr ⟨rfl, hparen⟩
  · split at h
    · cases h
      exact .inl rfl
    · cases h

theorem le_identEnd {i e : Nat} (h : m.identEnd i = .ok e) : i ≤ e := by
  unfold identEnd at h
  split at h
  · split at h
    · cases h
      exact le_trans (Nat.le_succ i) (le_skipWhile m _ _ _)
    · cases h
      exact le_refl _
  · cases h

/-- The parameters of a `function` expression come behind the word. -/
theorem functionWord?_params {isAsync : Bool} {wordEnd stop : Nat} {parts : FunctionParts}
    (h : functionWord? m isAsync wordEnd stop = .ok (some parts)) :
    parts.isAsync = isAsync ∧ wordEnd < parts.params.start := by
  unfold functionWord? at h
  dsimp only at h
  generalize hname : (if m.isCodeChar (m.skipTrivia wordEnd stop) '*' then
    m.skipTrivia (m.skipTrivia wordEnd stop + 1) stop else m.skipTrivia wordEnd stop) = nameStart
    at h
  have hle : wordEnd ≤ nameStart := by
    have hge := le_skipTrivia m wordEnd stop
    have hge' := le_skipTrivia m (m.skipTrivia wordEnd stop + 1) stop
    rw [← hname]
    split <;> omega
  obtain ⟨e, he, h⟩ := bind_eq_ok h
  split at h
  · cases h
  cases hparts : paramsAndBlock? m (m.skipTrivia e stop) stop with
  | none =>
    rw [hparts] at h
    cases h
  | some found =>
    rw [hparts] at h
    dsimp only at h
    split at h
    · cases h
    · cases h
      obtain ⟨close, -, hparts⟩ := Option.bind_eq_some_iff.mp hparts
      obtain ⟨-, -, hparts⟩ := Option.bind_eq_some_iff.mp hparts
      obtain ⟨blockClose, -, hparts⟩ := Option.bind_eq_some_iff.mp hparts
      cases hparts
      have hge := le_identEnd he
      have hge' := le_skipTrivia m e stop
      exact ⟨rfl, by dsimp only; omega⟩

/-- What is left of a function value once it is known where the function starts: a `function`
expression or an arrow function. -/
theorem functionAt_params {isAsync : Bool} {pos wordEnd stop : Nat} {word : Text}
    {parts : FunctionParts}
    (h : (if word == "function" then functionWord? m isAsync wordEnd stop
      else match arrowParams? m pos wordEnd stop with
        | none => return none
        | some (params, paramsEnd) =>
          let arrow := m.skipTrivia paramsEnd stop
          if !m.isCode arrow then return none
          else if stop < arrow then throw (.badSlice arrow stop)
          else if stop < arrow + 2 || !m.spells "=>" arrow then return none
          else
            return (arrowBody? m (m.skipTrivia (arrow + 2) stop) stop).map fun body =>
              ⟨isAsync, params, body⟩) = .ok (some parts)) :
    parts.isAsync = isAsync ∧
      (word = "function" ∧ wordEnd < parts.params.start ∨ parts.params.start = pos ∨
        parts.params.start = pos + 1 ∧ m.isCodeChar pos '(') := by
  split at h
  · rename_i hfunction
    obtain ⟨hsame, hlt⟩ := functionWord?_params h
    exact ⟨hsame, .inl ⟨by simpa using hfunction, hlt⟩⟩
  · cases hparams : arrowParams? m pos wordEnd stop with
    | none =>
      rw [hparams] at h
      cases h
    | some found =>
      rw [hparams] at h
      dsimp only at h
      split at h
      · cases h
      split at h
      · cases h
      split at h
      · cases h
      obtain ⟨body, -, hbody⟩ := Option.map_eq_some_iff.mp (Except.ok.inj h)
      cases hbody
      exact ⟨rfl, .inr (arrowParams?_start hparams)⟩

include hm

/-- The parameters of a value that starts with the word `async` start there as well, unless the
value is an async function. -/
theorem functionValue?_params {start stop : Nat} {parts : FunctionParts} {firstEnd : Nat}
    {first : Text} (hfirstEnd : m.identEnd start = .ok firstEnd)
    (hfirst : m.slice start firstEnd = .ok first)
    (h : functionValue? m start stop = .ok (some parts)) :
    (parts.isAsync ∧ first = "async" ∧ firstEnd ≤ parts.params.start) ∨
      parts.isAsync = false ∧ (first = "async" → parts.params.start = start) := by
  unfold functionValue? at h
  rw [bind_of_eq_ok hfirstEnd, bind_of_eq_ok hfirst] at h
  dsimp only at h
  cases hasync : (first == "async" && (decide (firstEnd < m.skipTrivia firstEnd stop) ||
      m.isCodeChar (m.skipTrivia firstEnd stop) '(') &&
      !m.isCodeChar (m.skipTrivia firstEnd stop) '=') with
  | true =>
    rw [hasync, if_pos rfl] at h
    obtain ⟨wordEnd, hwordEnd, h⟩ := bind_eq_ok h
    obtain ⟨word, -, h⟩ := bind_eq_ok h
    have hge := le_skipTrivia m firstEnd stop
    have hge' := le_identEnd hwordEnd
    simp only [Bool.and_eq_true, beq_iff_eq] at hasync
    obtain ⟨hsame, hplace⟩ := functionAt_params h
    exact .inl ⟨hsame, hasync.1.1, by omega⟩
  | false =>
    rw [hasync, if_neg (by simp)] at h
    rw [bind_of_eq_ok hfirstEnd, bind_of_eq_ok hfirst] at h
    obtain ⟨hsame, hplace⟩ := functionAt_params h
    refine .inr ⟨hsame, ?_⟩
    rintro rfl
    rcases hplace with ⟨hword, -⟩ | hstart | ⟨-, hparen⟩
    · cases hword
    · exact hstart
    · -- An opening parenthesis cannot be the first letter of the word.
      have hspells := spells_of_slice hm hfirst
      rw [show ("async" : Text) = 'a' :: ['s', 'y', 'n', 'c'] from rfl, spells, Bool.and_eq_true,
        isCodeChar_charAt? hparen] at hspells
      cases hspells.1

/-- A function is async if the word stands at its start, in front of the parameters: where it is the
parameter itself, the function is not async. -/
theorem functionValue?_isAsync {start stop : Nat} {parts : FunctionParts}
    (h : functionValue? m start stop = .ok (some parts)) :
    parts.isAsync ↔ start < parts.params.start ∧ ∃ wordEnd,
      m.identEnd start = .ok wordEnd ∧ m.slice start wordEnd = .ok ("async" : Text) := by
  obtain ⟨firstEnd, hfirstEnd, hrest⟩ := bind_eq_ok h
  obtain ⟨first, hfirst, -⟩ := bind_eq_ok hrest
  have hsize := (whole_of_slice hm hfirst).2
  rcases functionValue?_params hm hfirstEnd hfirst h with ⟨hasync, rfl, hle⟩ | ⟨hasync, hparams⟩
  · have hlt : start < parts.params.start := by
      have : Text.size ("async" : Text) = 5 := rfl
      omega
    simpa [hasync, hlt] using ⟨firstEnd, hfirstEnd, hfirst⟩
  · simp only [hasync, Bool.false_eq_true, false_iff, not_and, not_exists]
    intro hlt wordEnd hwordEnd hword
    obtain rfl := Except.ok.inj (hfirstEnd.symm.trans hwordEnd)
    obtain rfl := Except.ok.inj (hfirst.symm.trans hword)
    rw [hparams rfl] at hlt
    exact lt_irrefl _ hlt

end Values

section Reading

variable {m : CodeMap} {ps : Painted} (hm : m.Shows ps) {stop : Nat}

/-- What a function was read from: modifiers, a name, and behind it the parameters of a method or
the `=` of a field. -/
theorem read_function {start next : Nat} {member : Member} {parts : FunctionParts}
    (h : read m start stop = .ok (.member member next)) (hkind : member.kind = .function parts) :
    member.range.start = start ∧ ∃ mods pos nameEnd behind,
      modifiersFrom m stop m.size ⟨false, false, false⟩ start = .ok (mods, pos) ∧
      NamedAt m stop pos member.name nameEnd behind ∧
      (m.isCodeChar behind '(' ∧ parts.isAsync = mods.isAsync ∨ m.isCodeChar behind '=' ∧
          functionValue? m (valueStart m behind stop) (valueStop m behind stop) =
            .ok (some parts)) := by
  obtain ⟨⟨mods, pos⟩, hmods, h⟩ := bind_eq_ok h
  dsimp only at h
  rw [← show nameStart m stop pos = if m.isCodeChar (if m.isCodeChar pos '*' then
    m.skipTrivia (pos + 1) stop else pos) '#' then (if m.isCodeChar pos '*' then
      m.skipTrivia (pos + 1) stop else pos) + 1 else if m.isCodeChar pos '*' then
        m.skipTrivia (pos + 1) stop else pos from rfl] at h
  obtain ⟨nameEnd, hend, h⟩ := bind_eq_ok h
  split at h
  · cases h
  rename_i hne
  rw [beq_iff_eq] at hne
  obtain ⟨name, hname, h⟩ := bind_eq_ok h
  have hnamed : NamedAt m stop pos name nameEnd (m.skipTrivia nameEnd stop) :=
    ⟨hend, lt_of_le_of_ne (le_identEnd hend) (Ne.symm hne), hname, rfl⟩
  split at h
  · rename_i hparen
    split at h
    · cases h
      refine ⟨rfl, mods, pos, nameEnd, _, hmods, hnamed, .inl ⟨hparen, ?_⟩⟩
      split at hkind <;> cases hkind
      rfl
    · cases h
  split at h
  · rename_i hequals
    rw [Bool.and_eq_true] at hequals
    obtain ⟨f, hf, h⟩ := bind_eq_ok h
    cases h
    refine ⟨rfl, mods, pos, nameEnd, _, hmods, hnamed, .inr ⟨hequals.1, ?_⟩⟩
    cases f with
    | none => cases hkind
    | some parts =>
      cases hkind
      exact hf
  split at h
  · cases h
    cases hkind
  split at h
  · cases h
    cases hkind
  obtain ⟨gap, -, h⟩ := bind_eq_ok h
  split at h
  · cases h
    cases hkind
  · cases h

theorem read_of_mem_listFrom {count pos : Nat} {listing : Listing}
    (h : listFrom m stop count pos = .ok listing) {member : Member}
    (hmem : member ∈ listing.members) :
    ∃ start next, read m start stop = .ok (.member member next) := by
  induction count generalizing pos listing with
  | zero =>
    cases h
    cases hmem
  | succ count ih =>
    rw [listFrom] at h
    split at h
    · cases h
      cases hmem
    obtain ⟨d, hd, h⟩ := bind_eq_ok h
    cases d with
    | member found next =>
      obtain ⟨rest, hrest, h⟩ := bind_eq_ok h
      cases h
      rcases List.mem_cons.mp hmem with rfl | hmem
      · exact ⟨_, next, hd⟩
      · exact ih hrest hmem
    | lost resume =>
      obtain ⟨line, -, h⟩ := bind_eq_ok h
      obtain ⟨warning, -, h⟩ := bind_eq_ok h
      obtain ⟨rest, hrest, h⟩ := bind_eq_ok h
      cases h
      exact ih hrest hmem

include hm

/-- A function member is read as async if and only if it is declared so. -/
theorem isAsync_iff_declaredAsync {start : Nat} {listing : Listing}
    (h : list m start stop = .ok listing) {member : Member} (hmem : member ∈ listing.members)
    {parts : FunctionParts} (hkind : member.kind = .function parts) :
    parts.isAsync ↔ member.DeclaredAsync m stop := by
  obtain ⟨start, next, hread⟩ := read_of_mem_listFrom h hmem
  obtain ⟨rfl, mods, pos, nameEnd, behind, hmods, hnamed, hrest⟩ := read_function hread hkind
  have hbehind : Ends m behind := by
    rcases hrest with ⟨hparen, -⟩ | ⟨hequals, -⟩
    · exact ends_of_codeChar hparen rfl
    · exact ends_of_codeChar hequals rfl
  have hread : ∀ {words : List Text} {next : Nat} {c : Char},
      Heads m member.range.start stop words member.name next → m.isCodeChar next c →
      startsName c = false → next = behind ∧ (mods.isAsync ↔ ("async" : Text) ∈ words) := by
    intro words next c hhead hcode hc
    simpa using modifiersFrom_of_heads hm hhead (ends_of_codeChar hcode hc) (Nat.le_add_left _ _)
      hmods hnamed hbehind
  constructor
  · intro hasync
    obtain ⟨words, hwords, hmem⟩ := modifiersFrom_words hm hmods
    rcases hrest with ⟨hparen, hsame⟩ | ⟨hequals, hvalue⟩
    · exact .method hkind ⟨pos, nameEnd, hwords, hnamed⟩ hparen
        (by simpa [← hsame, hasync] using hmem)
    · obtain ⟨hlt, wordEnd, hend, hword⟩ := (functionValue?_isAsync hm hvalue).mp hasync
      exact .value hkind ⟨pos, nameEnd, hwords, hnamed⟩ hequals hend hword hlt
  · intro hdeclared
    cases hdeclared with
    | method hkind' hhead hparen hword =>
      obtain ⟨rfl, hasync⟩ := hread hhead hparen rfl
      rcases hrest with ⟨-, hsame⟩ | ⟨hequals, -⟩
      · rw [hsame, hasync]
        exact hword
      · cases (isCodeChar_charAt? hparen).symm.trans (isCodeChar_charAt? hequals)
    | value hkind' hhead hequals hend hword hlt =>
      obtain rfl := MemberKind.function.inj (hkind.symm.trans hkind')
      obtain ⟨rfl, -⟩ := hread hhead hequals rfl
      rcases hrest with ⟨hparen, -⟩ | ⟨-, hvalue⟩
      · cases (isCodeChar_charAt? hparen).symm.trans (isCodeChar_charAt? hequals)
      · exact (functionValue?_isAsync hm hvalue).mpr ⟨hlt, _, hend, hword⟩

end Reading

end Member

end Declass
