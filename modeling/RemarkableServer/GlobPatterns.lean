import RemarkableServer.CloudPaths

/-!
# The language of an exclude pattern

What `globMatch` answers is right for every pattern and name. It does not always
answer: past a star that is not the last character it tries the rest of the
pattern at every byte of the name, and a byte inside a character is no place to cut.
-/
namespace GlobPatterns

open RustText CloudPaths

/-- The names of a pattern that is read character by character. -/
inductive Matches : Text → Text → Prop where
  | done : Matches [] []
  | star {pattern name : Text} (skipped : Text) (h : Matches pattern name) : Matches ('*' :: pattern) (skipped ++ name)
  | any {pattern name : Text} (c : Char) (h : Matches pattern name) : Matches ('?' :: pattern) (c :: name)
  | char {pattern name : Text} {c : Char} (hstar : c ≠ '*') (hany : c ≠ '?') (h : Matches pattern name) :
      Matches (c :: pattern) (c :: name)

/-- Every character takes one byte. -/
def OneByte (t : Text) : Prop := ∀ c ∈ t, c.utf8Size ≤ 1

instance (t : Text) : Decidable (OneByte t) := List.decidableBAll (fun c : Char => c.utf8Size ≤ 1) t

/-- No position at which the matcher tries the rest of a pattern is inside a character: at each star
that it comes to, the star is the last character, or the rest of the name has one-byte characters only,
or it reaches a match before a longer one. -/
def CutsBetween : Text → Text → Prop
  | [], _ => True
  | '*' :: pattern, name =>
    pattern = [] ∨ OneByte name ∨
      ∃ i ≤ name.length, OneByte (name.take i) ∧ Matches pattern (name.drop i) ∧
        ∀ j ≤ i, CutsBetween pattern (name.drop j)
  | '?' :: pattern, name =>
    match name with
    | [] => True
    | _ :: name => CutsBetween pattern name
  | c :: pattern, name =>
    match name with
    | [] => True
    | d :: name => d = c → CutsBetween pattern name

theorem oneByte_nil : OneByte [] := by simp [OneByte]

theorem oneByte_cons {c : Char} {t : Text} : OneByte (c :: t) ↔ c.utf8Size ≤ 1 ∧ OneByte t := by simp [OneByte]

theorem OneByte.drop {t : Text} (h : OneByte t) (i : Nat) : OneByte (t.drop i) :=
  fun c hc => h c (List.mem_of_mem_drop hc)

@[simp] theorem matches_nil (name : Text) : Matches [] name ↔ name = [] := by
  constructor
  · intro h
    cases h
    rfl
  · intro h
    subst h
    exact .done

theorem matches_star (pattern name : Text) :
    Matches ('*' :: pattern) name ↔ ∃ i ≤ name.length, Matches pattern (name.drop i) := by
  constructor
  · intro h
    cases h with
    | star skipped h => exact ⟨skipped.length, by simp, by simpa using h⟩
    | char hstar hany h => exact absurd rfl hstar
  · intro ⟨i, hi, h⟩
    have := Matches.star (name.take i) h
    simpa using this

theorem matches_any (pattern name : Text) :
    Matches ('?' :: pattern) name ↔ ∃ c rest, name = c :: rest ∧ Matches pattern rest := by
  constructor
  · intro h
    cases h with
    | any c h => exact ⟨c, _, rfl, h⟩
    | char hstar hany h => exact absurd rfl hany
  · intro ⟨c, rest, he, h⟩
    subst he
    exact .any c h

theorem matches_char {c : Char} (hstar : c ≠ '*') (hany : c ≠ '?') (pattern name : Text) :
    Matches (c :: pattern) name ↔ ∃ rest, name = c :: rest ∧ Matches pattern rest := by
  constructor
  · intro h
    cases h with
    | star skipped h => exact absurd rfl hstar
    | any d h => exact absurd rfl hany
    | char _ _ h => exact ⟨_, rfl, h⟩
  · intro ⟨rest, he, h⟩
    subst he
    exact .char hstar hany h

/-! ## The search past a star -/

section
variable {rest : Text → Option Bool} {M : Text → Prop} (hrest : ∀ name b, rest name = some b → (b = true ↔ M name))
include hrest

/-- What the search answers is right when the rest of the pattern is. -/
theorem matchFrom_right (name : Text) (b : Bool) (h : matchFrom rest name = some b) :
    b = true ↔ ∃ i ≤ name.length, M (name.drop i) := by
  induction name with
  | nil =>
    have hb := hrest [] b h
    simpa using hb
  | cons c name ih =>
    simp only [matchFrom] at h
    cases hc : rest (c :: name) with
    | none => simp [hc] at h
    | some here =>
      have hhere := hrest _ _ hc
      cases here with
      | true =>
        simp only [hc, Option.some.injEq] at h
        subst h
        simp only [true_iff] at hhere ⊢
        exact ⟨0, by simp, hhere⟩
      | false =>
        have hnot : ¬M (c :: name) := by simpa using hhere
        by_cases hsize : c.utf8Size > 1
        · simp [hc, hsize] at h
        · have hname : matchFrom rest name = some b := by simpa [hc, hsize] using h
          rw [ih hname]
          constructor
          · intro ⟨i, hi, hm⟩
            exact ⟨i + 1, by simpa using hi, by simpa using hm⟩
          · intro ⟨i, hi, hm⟩
            cases i with
            | zero => exact absurd hm hnot
            | succ i => exact ⟨i, by simpa using hi, by simpa using hm⟩

/-- The search answers if it comes to the end, or to a match, past one-byte characters only. -/
theorem matchFrom_isSome (name : Text) :
    (matchFrom rest name).isSome = true ↔
      (OneByte name ∧ ∀ j ≤ name.length, (rest (name.drop j)).isSome = true) ∨
        ∃ i ≤ name.length, OneByte (name.take i) ∧ M (name.drop i) ∧ ∀ j ≤ i, (rest (name.drop j)).isSome = true := by
  induction name with
  | nil =>
    simp only [matchFrom, List.length_nil, Nat.le_zero, List.drop_nil, forall_eq, List.take_nil, oneByte_nil, true_and]
    constructor
    · intro h
      exact Or.inl h
    · intro h
      rcases h with h | ⟨i, hi, hm, h⟩
      · exact h
      · exact h 0 (by omega)
  | cons c name ih =>
    cases hc : rest (c :: name) with
    | none =>
      simp only [matchFrom, hc, Option.isSome_none, Bool.false_eq_true, false_iff, not_or, not_and, not_exists]
      constructor
      · intro _ h
        have := h 0 (Nat.zero_le _)
        simp [hc] at this
      · intro i _ _ _ h
        have := h 0 (Nat.zero_le _)
        simp [hc] at this
    | some here =>
      have hhere := hrest _ _ hc
      cases here with
      | true =>
        simp only [matchFrom, hc, Option.isSome_some, true_iff]
        refine Or.inr ⟨0, by omega, by simp [oneByte_nil], by simpa using hhere, ?_⟩
        intro j hj
        obtain rfl : j = 0 := by omega
        simp [hc]
      | false =>
        have hnot : ¬M (c :: name) := by simpa using hhere
        by_cases hsize : c.utf8Size > 1
        · have hlong : ¬c.utf8Size ≤ 1 := by omega
          simp only [matchFrom, hc, if_pos hsize, Option.isSome_none, Bool.false_eq_true, false_iff]
          intro h
          rcases h with ⟨hone, -⟩ | ⟨i, hi, htake, hm, -⟩
          · exact hlong (oneByte_cons.mp hone).1
          · cases i with
            | zero => exact hnot hm
            | succ i => exact hlong (oneByte_cons.mp htake).1
        · have hshort : c.utf8Size ≤ 1 := by omega
          simp only [matchFrom, hc, if_neg hsize]
          rw [ih]
          constructor
          · intro h
            rcases h with ⟨hone, h⟩ | ⟨i, hi, htake, hm, h⟩
            · refine Or.inl ⟨oneByte_cons.mpr ⟨hshort, hone⟩, ?_⟩
              intro j hj
              cases j with
              | zero => simp [hc]
              | succ j => exact h j (by simpa using hj)
            · refine Or.inr ⟨i + 1, by simpa using hi, oneByte_cons.mpr ⟨hshort, htake⟩, hm, ?_⟩
              intro j hj
              cases j with
              | zero => simp [hc]
              | succ j => exact h j (by omega)
          · intro h
            rcases h with ⟨hone, h⟩ | ⟨i, hi, htake, hm, h⟩
            · exact Or.inl ⟨(oneByte_cons.mp hone).2, fun j hj => h (j + 1) (by simpa using hj)⟩
            · cases i with
              | zero => exact absurd hm hnot
              | succ i =>
                exact Or.inr ⟨i, by simpa using hi, (oneByte_cons.mp htake).2, hm, fun j hj => h (j + 1) (by omega)⟩

end

/-! ## The matcher -/

/-- Whatever the matcher answers is right. -/
theorem globMatch_right (pattern name : Text) (b : Bool) (h : globMatch pattern name = some b) :
    b = true ↔ Matches pattern name := by
  induction pattern generalizing name b with
  | nil =>
    simp only [globMatch, Option.some.injEq] at h
    simp [← h]
  | cons c pattern ih =>
    by_cases hstar : c = '*'
    · subst hstar
      rw [matches_star]
      by_cases hlast : pattern = []
      · subst hlast
        simp only [globMatch, List.isEmpty_nil, if_true, Option.some.injEq] at h
        subst h
        simpa using ⟨name.length, le_rfl, le_rfl⟩
      · have hsearch : matchFrom (globMatch pattern) name = some b := by simpa [globMatch, hlast] using h
        exact matchFrom_right ih name b hsearch
    · by_cases hany : c = '?'
      · subst hany
        rw [matches_any]
        cases name with
        | nil =>
          simp only [globMatch, Option.some.injEq] at h
          simp [← h]
        | cons d name => simpa using ih name b (by simpa [globMatch] using h)
      · rw [matches_char hstar hany]
        cases name with
        | nil =>
          simp only [globMatch, Option.some.injEq] at h
          simp [← h]
        | cons d name =>
          by_cases hd : d = c
          · subst hd
            simpa using ih name b (by simpa [globMatch] using h)
          · have hb : b = false := by simpa [globMatch, hd, eq_comm] using h
            simp [hb, hd]

/-- The matcher answers every name of one-byte characters. -/
theorem cutsBetween_of_oneByte (pattern : Text) {name : Text} (h : OneByte name) : CutsBetween pattern name := by
  induction pattern generalizing name with
  | nil => simp [CutsBetween]
  | cons c pattern ih =>
    by_cases hstar : c = '*'
    · subst hstar
      simp only [CutsBetween]
      exact Or.inr (Or.inl h)
    · by_cases hany : c = '?'
      · subst hany
        cases name with
        | nil => simp [CutsBetween]
        | cons d name => simpa [CutsBetween] using ih (oneByte_cons.mp h).2
      · cases name with
        | nil => simp [CutsBetween]
        | cons d name =>
          simp only [CutsBetween]
          intro _
          exact ih (oneByte_cons.mp h).2

/-- The matcher answers exactly if it cuts the name between characters only. -/
theorem globMatch_isSome (pattern name : Text) : (globMatch pattern name).isSome = true ↔ CutsBetween pattern name := by
  induction pattern generalizing name with
  | nil => simp [globMatch, CutsBetween]
  | cons c pattern ih =>
    by_cases hstar : c = '*'
    · subst hstar
      by_cases hlast : pattern = []
      · simp [globMatch, CutsBetween, hlast]
      · simp only [globMatch, CutsBetween, hlast, List.isEmpty_iff, if_false, false_or]
        rw [matchFrom_isSome (globMatch_right pattern)]
        simp only [ih]
        constructor
        · intro h
          rcases h with ⟨hone, -⟩ | h
          · exact Or.inl hone
          · exact Or.inr h
        · intro h
          rcases h with hone | h
          · exact Or.inl ⟨hone, fun j _ => cutsBetween_of_oneByte pattern (hone.drop j)⟩
          · exact Or.inr h
    · by_cases hany : c = '?'
      · subst hany
        cases name with
        | nil => simp [globMatch, CutsBetween]
        | cons d name => simpa [globMatch, CutsBetween] using ih name
      · cases name with
        | nil => simp [globMatch, CutsBetween]
        | cons d name =>
          by_cases hd : d = c
          · simpa [globMatch, CutsBetween, hd] using ih name
          · simp [globMatch, CutsBetween, hd]

/-- For every pattern and name: the matcher answers, and answers whether the name is in the language of
the pattern, exactly if it never cuts the name inside a character. -/
theorem globMatch_correct_iff (pattern name : Text) :
    (∃ b, globMatch pattern name = some b ∧ (b = true ↔ Matches pattern name)) ↔ CutsBetween pattern name := by
  rw [← globMatch_isSome, Option.isSome_iff_exists]
  constructor
  · intro ⟨b, h, _⟩
    exact ⟨b, h⟩
  · intro ⟨b, h⟩
    exact ⟨b, h, globMatch_right pattern name b h⟩

/-- The pattern for temporary files, and a name of one character that takes two bytes. -/
theorem globMatch_panics :
    ¬∀ pattern name : Text, ∃ b, globMatch pattern name = some b ∧ (b = true ↔ Matches pattern name) := by
  intro h
  obtain ⟨b, hb, -⟩ := h "*.tmp".toList "é".toList
  have hpanic : globMatch "*.tmp".toList "é".toList = none := by decide
  rw [hpanic] at hb
  cases hb

/-! ## The default patterns -/

/-- `SyncConfig::default`. -/
def defaultExcludePatterns : List Text :=
  ["*.tmp".toList, "*.temp".toList, ".DS_Store".toList, "Thumbs.db".toList]

/-- A pattern without a star or a question mark stands for itself. -/
theorem matches_plain {pattern : Text} (hplain : ∀ c ∈ pattern, c ≠ '*' ∧ c ≠ '?') (name : Text) :
    Matches pattern name ↔ name = pattern := by
  induction pattern generalizing name with
  | nil => exact matches_nil name
  | cons c pattern ih =>
    obtain ⟨hstar, hany⟩ := hplain c List.mem_cons_self
    rw [matches_char hstar hany]
    simp [ih fun d hd => hplain d (List.mem_cons_of_mem c hd)]

/-- A suffix pattern of one-byte characters fails on every name that has a longer character. -/
theorem cutsBetween_suffix (suffix : Text) (hne : suffix ≠ []) (hplain : ∀ c ∈ suffix, c ≠ '*' ∧ c ≠ '?')
    (hone : OneByte suffix) (name : Text) : CutsBetween ('*' :: suffix) name ↔ OneByte name := by
  constructor
  · intro h
    simp only [CutsBetween, hne, false_or] at h
    rcases h with h | ⟨i, -, htake, hm, -⟩
    · exact h
    · rw [matches_plain hplain] at hm
      intro c hc
      rw [← List.take_append_drop i name, hm] at hc
      rcases List.mem_append.mp hc with hc | hc
      · exact htake c hc
      · exact hone c hc
  · intro h
    exact cutsBetween_of_oneByte _ h

/-- With the default patterns a sync panics at exactly the local names that are not ASCII. -/
theorem defaultExcludePatterns_panic_iff (name : Text) :
    shouldExclude defaultExcludePatterns name = none ↔ ¬OneByte name := by
  have htmp : (globMatch "*.tmp".toList name).isSome = true ↔ OneByte name := by
    have hplain : ∀ c ∈ ".tmp".toList, c ≠ '*' ∧ c ≠ '?' := by simp
    have honly : OneByte ".tmp".toList := by decide
    rw [globMatch_isSome]
    exact cutsBetween_suffix ".tmp".toList (by decide) hplain honly name
  constructor
  · intro h hone
    have hall : ∀ pattern, ∃ b, globMatch pattern name = some b := by
      intro pattern
      rw [← Option.isSome_iff_exists, globMatch_isSome]
      exact cutsBetween_of_oneByte pattern hone
    have hsome : ∀ patterns, shouldExclude patterns name ≠ none := by
      intro patterns
      induction patterns with
      | nil => simp [shouldExclude]
      | cons pattern patterns ih =>
        obtain ⟨b, hb⟩ := hall pattern
        cases b <;> simp [shouldExclude, hb, ih]
    exact hsome _ h
  · intro h
    rw [← htmp, Bool.not_eq_true, Option.isSome_eq_false_iff, Option.isNone_iff_eq_none] at h
    simp only [defaultExcludePatterns, shouldExclude, h]

end GlobPatterns
