import RemarkableServer.ZoneLookup

/-!
# The latest onset of a zone

The offset at a local time is that of the latest onset up to then, among all that the
observances of the zone have. A lookup does not go through all of them: the walk of a rule
without a count begins a period before the one with the day 800 days before. When the latest
onset is before that, as with a rule for the fifth Sunday of February, the lookup misses it.
-/
namespace ZoneOnsets

open Civil Chrono Recurrence RecurrenceWalk TimeZone ZoneLookup

variable {o : Observance} {rule : Rule} {start wall t : NaiveDateTime}

/-! ## Onsets -/

/-- An onset in UTC. -/
def utcOf (o : Observance) (onset : NaiveDateTime) : NaiveDateTime :=
  (onset.checkedSubSigned (seconds (o.offsetFrom.elim 0 Subtype.val))).getD onset

/-- The onsets of an observance: its start, those listed, and the occurrences of its rule up to the count and within the
end. -/
inductive Onset (o : Observance) : NaiveDateTime → Prop
  | start {start : NaiveDateTime} (hstart : o.start = some start) : Onset o start
  | listed {t : NaiveDateTime} (hlisted : t ∈ o.rdates) : Onset o t
  | rule {rule : Rule} {start t : NaiveDateTime} (hrule : o.rule = some rule) (hstart : o.start = some start)
      (hoccurs : t ∈ occurrences rule start) (hallowed : rule.untilAllows t (utcOf o t) = true) : Onset o t

/-- The period that the walk of a lookup begins with begins after an occurrence. -/
def Skipped (rule : Rule) (start wall t : NaiveDateTime) : Prop :=
  rule.firstPeriod start (Observance.walkStart rule wall) ≠ 0 ∧
    t.date.day < periodBegin rule start.date (rule.firstPeriod start (Observance.walkStart rule wall))

/-- The onsets that a lookup comes to. -/
inductive Found (wall : NaiveDateTime) (o : Observance) : NaiveDateTime → Prop
  | start {start : NaiveDateTime} (hstart : o.start = some start) : Found wall o start
  | listed {t : NaiveDateTime} (hlisted : t ∈ o.rdates) : Found wall o t
  | rule {rule : Rule} {start t : NaiveDateTime} (hrule : o.rule = some rule) (hstart : o.start = some start)
      (hoccurs : t ∈ occurrences rule start) (hallowed : rule.untilAllows t (utcOf o t) = true)
      (hfound : ¬Skipped rule start wall t) : Found wall o t

theorem Found.onset (h : Found wall o t) : Onset o t := by
  cases h with
  | start hstart => exact .start hstart
  | listed hlisted => exact .listed hlisted
  | rule hrule hstart hoccurs hallowed => exact .rule hrule hstart hoccurs hallowed

/-! ## The last onset -/

/-- The last of some times up to a local time, if there is one. -/
def IsLast (p : NaiveDateTime → Prop) (wall : NaiveDateTime) : Option NaiveDateTime → Prop
  | none => ∀ t, p t → wall < t
  | some last => p last ∧ last ≤ wall ∧ ∀ t, p t → t ≤ wall → t ≤ last

variable {p q : NaiveDateTime → Prop} {last : Option NaiveDateTime}

theorem IsLast.congr (h : IsLast p wall last) (hpq : ∀ t, t ≤ wall → (p t ↔ q t)) : IsLast q wall last := by
  cases last with
  | none =>
    intro t ht
    by_contra hle
    exact hle (h t ((hpq t (not_lt.mp hle)).mpr ht))
  | some last =>
    obtain ⟨hlast, hle, hall⟩ := h
    exact ⟨(hpq last hle).mp hlast, hle, fun t ht hle' => hall t ((hpq t hle').mpr ht) hle'⟩

theorem IsLast.later (h : IsLast p wall last) (hle : t ≤ wall) :
    IsLast (fun t' => p t' ∨ t' = t) wall (Observance.later last t) := by
  cases last with
  | none =>
    refine ⟨Or.inr rfl, hle, ?_⟩
    rintro t' (ht' | rfl) hle'
    · exact absurd hle' (not_le.mpr (h t' ht'))
    · exact le_rfl
  | some last =>
    obtain ⟨hlast, hle', hall⟩ := h
    refine ⟨?_, max_le hle' hle, ?_⟩
    · rcases le_total last t with hmax | hmax
      · exact Or.inr (max_eq_right hmax)
      · left
        show p (max last t)
        rw [max_eq_left hmax]
        exact hlast
    · rintro t' (ht' | rfl) hle''
      · exact (hall t' ht' hle'').trans (le_max_left last t)
      · exact le_max_right last t'

/-- The last of a list. -/
theorem isLast_max (l : List NaiveDateTime) (wall : NaiveDateTime) :
    IsLast (· ∈ l) wall (l.filter fun t => t ≤ wall).max? := by
  cases hmax : (l.filter fun t => t ≤ wall).max? with
  | none =>
    intro t ht
    by_contra hle
    have hmem : t ∈ l.filter fun t => t ≤ wall := List.mem_filter.mpr ⟨ht, decide_eq_true (not_lt.mp hle)⟩
    rw [List.max?_eq_none_iff.mp hmax] at hmem
    cases hmem
  | some last =>
    obtain ⟨hmem, hall⟩ := List.max?_eq_some_iff.mp hmax
    obtain ⟨hlast, hle⟩ := List.mem_filter.mp hmem
    exact ⟨hlast, of_decide_eq_true hle, fun t ht hle' => hall t (List.mem_filter.mpr ⟨ht, decide_eq_true hle'⟩)⟩

theorem isLast_listed (hsorted : o.rdates.Pairwise (· ≤ ·)) (wall : NaiveDateTime) :
    IsLast (· ∈ o.rdates) wall (o.listed wall) := by
  unfold Observance.listed
  generalize o.rdates = rdates at hsorted ⊢
  induction rdates with
  | nil => exact fun t ht => nomatch ht
  | cons first rest ih =>
    obtain ⟨hfirst, hrest⟩ := List.pairwise_cons.mp hsorted
    by_cases hle : first ≤ wall
    · have hlater := (ih hrest).later hle
      rw [List.takeWhile_cons, if_pos (by simpa using hle), List.getLast?_cons]
      refine IsLast.congr (p := fun t => t ∈ rest ∨ t = first) ?_ fun t _ => by rw [List.mem_cons, or_comm]
      cases hlast : (rest.takeWhile fun onset => onset ≤ wall).getLast? with
      | none =>
        rw [hlast] at hlater
        exact hlater
      | some last =>
        rw [hlast] at hlater
        have hmem := (List.takeWhile_subset _) (List.mem_of_getLast? hlast)
        have hmax : max last first = last := max_eq_left (hfirst last hmem)
        unfold Observance.later at hlater
        rw [Option.elim_some, hmax] at hlater
        exact hlater
    · rw [List.takeWhile_cons, if_neg (by simpa using hle)]
      intro t ht
      rcases List.mem_cons.mp ht with rfl | ht
      · exact not_le.mp hle
      · exact (not_le.mp hle).trans_le (hfirst t ht)

/-! ## The walk of a rule -/

/-- Days apart, onsets are in the same order in UTC. -/
theorem utcOf_lt {t' : NaiveDateTime} (htime : t.time = t'.time) (hlt : t < t') : utcOf o t < utcOf o t' := by
  have hday := (lt_iff_day htime).mp hlt
  have hclock : t.clock + 86400 ≤ t'.clock := by
    unfold NaiveDateTime.clock
    rw [htime]
    omega
  have hoffset : -86400 < o.offsetFrom.elim 0 Subtype.val ∧ o.offsetFrom.elim 0 Subtype.val < 86400 := by
    cases o.offsetFrom with
    | none => decide
    | some offset => exact offset.property
  have hleap : t.leapSecond = t'.leapSecond := by
    unfold NaiveDateTime.leapSecond
    rw [htime]
  have hcases := t.leapSecond_cases
  apply NaiveDateTime.lt_of_clock
  unfold utcOf
  generalize o.offsetFrom.elim 0 Subtype.val = offset at hoffset ⊢
  cases hutc : t.checkedSubSigned (seconds offset) with
  | none =>
    cases hutc' : t'.checkedSubSigned (seconds offset) with
    | none =>
      rw [Option.getD_none, Option.getD_none]
      omega
    | some utc' =>
      have hutc' := (NaiveDateTime.checkedSubSigned_seconds hutc').1
      rw [Option.getD_none, Option.getD_some]
      split_ifs at hutc' <;> omega
  | some utc =>
    have hutc := (NaiveDateTime.checkedSubSigned_seconds hutc).1
    rw [Option.getD_some]
    cases hutc' : t'.checkedSubSigned (seconds offset) with
    | none =>
      rw [Option.getD_none]
      split_ifs at hutc <;> omega
    | some utc' =>
      have hutc' := (NaiveDateTime.checkedSubSigned_seconds hutc').1
      rw [Option.getD_some]
      split_ifs at hutc hutc' <;> omega

/-- What comes before an onset within the end of the rule is within it. -/
theorem untilAllows_of_lt {t' : NaiveDateTime} (htime : t.time = t'.time) (hlt : t < t')
    (hallowed : rule.untilAllows t' (utcOf o t') = true) : rule.untilAllows t (utcOf o t) = true := by
  unfold Rule.untilAllows at hallowed ⊢
  cases hbound : rule.bound with
  | none => rfl
  | some bound =>
    rw [hbound] at hallowed
    cases bound with
    | utc bound => exact decide_eq_true ((utcOf_lt htime hlt).le.trans (of_decide_eq_true hallowed))
    | wall bound => exact decide_eq_true (hlt.le.trans (of_decide_eq_true hallowed))
    | date bound => exact decide_eq_true (((lt_iff_day htime).mp hlt).le.trans (of_decide_eq_true hallowed))

/-- Onsets in order: the walk ends at the first that is past the local time or the end of the rule. -/
theorem isLast_visitAll {walls : List NaiveDateTime} (hsorted : walls.Pairwise (· < ·))
    (htime : ∀ t ∈ walls, t.time = start.time) (h : IsLast p wall last) :
    IsLast (fun t => p t ∨ (t ∈ walls ∧ rule.untilAllows t (utcOf o t) = true)) wall
      (visitAll (o.visitOnset rule wall) last walls).1 := by
  induction walls generalizing p last with
  | nil => exact h.congr fun t _ => ⟨Or.inl, fun ht => ht.elim id fun ht => absurd ht.1 List.not_mem_nil⟩
  | cons first rest ih =>
    obtain ⟨hfirst, hrest⟩ := List.pairwise_cons.mp hsorted
    rw [visitAll]
    have hvisit : o.visitOnset rule wall last first =
        if wall < first ∨ ¬rule.untilAllows first (utcOf o first) = true then (last, false)
        else (Observance.later last first, true) := rfl
    by_cases hends : wall < first ∨ ¬rule.untilAllows first (utcOf o first) = true
    · rw [hvisit, if_pos hends, if_neg Bool.false_ne_true]
      refine h.congr fun t hle => ⟨Or.inl, fun ht => ht.elim id fun hboth => ?_⟩
      obtain ⟨hmem, hallowed⟩ := hboth
      rcases List.mem_cons.mp hmem with rfl | hmem
      · exact absurd hends (not_or.mpr ⟨not_lt.mpr hle, not_not.mpr hallowed⟩)
      · have hlt := hfirst t hmem
        have hsame := (htime first List.mem_cons_self).trans (htime t (List.mem_cons_of_mem _ hmem)).symm
        exact absurd hends (not_or.mpr ⟨not_lt.mpr (hlt.le.trans hle), not_not.mpr (untilAllows_of_lt hsame hlt hallowed)⟩)
    · rw [hvisit, if_neg hends, if_pos rfl]
      obtain ⟨hle, hallowed⟩ := not_or.mp hends
      refine (ih hrest (fun t ht => htime t (List.mem_cons_of_mem _ ht)) (h.later (not_lt.mp hle))).congr fun t _ => ?_
      rw [List.mem_cons]
      constructor
      · rintro ((ht | rfl) | ⟨hmem, hallowed'⟩)
        · exact Or.inl ht
        · exact Or.inr ⟨Or.inl rfl, not_not.mp hallowed⟩
        · exact Or.inr ⟨Or.inr hmem, hallowed'⟩
      · rintro (ht | ⟨rfl | hmem, hallowed'⟩)
        · exact Or.inl (Or.inl ht)
        · exact Or.inl (Or.inr rfl)
        · exact Or.inr ⟨hmem, hallowed'⟩

/-- A walk goes through the start and the occurrences from its first period on. -/
theorem mem_visited_iff (after : Option NaiveDate) {stop : NaiveDateTime} (hle : t ≤ stop) :
    (t = start ∨ t ∈ visited rule start after stop) ↔
      t = start ∨ (t ∈ occurrences rule start ∧
        ¬(rule.firstPeriod start after ≠ 0 ∧ t.date.day < periodBegin rule start.date (rule.firstPeriod start after))) := by
  have hsorted := pairwise_occurrencesFrom rule start
  unfold visited occurrences upTo
  by_cases hfirst : rule.firstPeriod start after = 0
  · rw [if_pos hfirst, List.mem_cons, List.mem_cons, mem_takeWhile ((hsorted 0).sublist (limit_sublist rule 1 _))]
    simp [hfirst, hle]
  · obtain ⟨hcount, -⟩ := firstPeriod_pos hfirst
    have hlimit : ∀ produced walls, limit rule produced walls = walls := by
      intro produced walls
      unfold limit
      rw [hcount]
    obtain ⟨earlier, hsplit, hearlier⟩ := occurrencesFrom_split rule start 0 (rule.firstPeriod start after)
    rw [Nat.zero_add] at hsplit hearlier
    rw [if_neg hfirst, hlimit, hlimit, mem_takeWhile (hsorted _), hsplit, List.mem_cons, List.mem_append]
    constructor
    · rintro (rfl | ⟨hmem, -⟩)
      · exact Or.inl rfl
      · exact Or.inr ⟨Or.inr (Or.inr hmem), fun hskipped => absurd hskipped.2 (not_lt.mpr (mem_occurrencesFrom hmem).1)⟩
    · rintro (rfl | ⟨rfl | hmem | hmem, hfound⟩)
      · exact Or.inl rfl
      · exact Or.inl rfl
      · exact absurd ⟨hfirst, hearlier t hmem⟩ hfound
      · exact Or.inr ⟨hmem, hle⟩

/-- The last onset of an observance that a lookup comes to. -/
theorem isLast_plainLastOnset (hstart : o.start = some start) (hsorted : o.rdates.Pairwise (· ≤ ·)) (wall : NaiveDateTime) :
    IsLast (Found wall o) wall (plainLastOnset o wall) := by
  have hlisted := isLast_listed hsorted wall
  unfold plainLastOnset
  rw [hstart]
  dsimp only
  by_cases hlt : wall < start
  · rw [if_pos hlt]
    refine hlisted.congr fun t hle => ⟨.listed, fun ht => ?_⟩
    cases ht with
    | start hstart' =>
      rw [hstart] at hstart'
      cases hstart'
      exact absurd hle (not_le.mpr hlt)
    | listed hlisted => exact hlisted
    | rule hrule hstart' hoccurs hallowed hfound =>
      rw [hstart] at hstart'
      cases hstart'
      exact absurd ((time_occurrences hoccurs).2.trans hle) (not_le.mpr hlt)
  · rw [if_neg hlt]
    have hlater := hlisted.later (not_lt.mp hlt)
    cases hrule : o.rule with
    | none =>
      refine hlater.congr fun t hle => ⟨?_, fun ht => ?_⟩
      · rintro (ht | rfl)
        · exact .listed ht
        · exact .start hstart
      · cases ht with
        | start hstart' => exact Or.inr (Option.some.inj (hstart'.symm.trans hstart))
        | listed hlisted => exact Or.inl hlisted
        | rule hrule' =>
          rw [hrule] at hrule'
          cases hrule'
    | some rule =>
      have hsub := visited_sublist rule start (Observance.walkStart rule wall) wall
      have hwalk := @isLast_visitAll o rule start wall _ _ _ ((pairwise_occurrences rule start).sublist hsub)
        (fun t ht => (time_occurrences (hsub.subset ht)).1) hlater
      refine hwalk.congr fun t hle => ?_
      have hvisited := @mem_visited_iff rule start t (Observance.walkStart rule wall) wall hle
      constructor
      · rintro ((ht | rfl) | ⟨hmem, hallowed⟩)
        · exact .listed ht
        · exact .start hstart
        · rcases hvisited.mp (Or.inr hmem) with rfl | ⟨hoccurs, hfound⟩
          · exact .start hstart
          · exact .rule hrule hstart hoccurs hallowed hfound
      · intro ht
        cases ht with
        | start hstart' => exact Or.inl (Or.inr (Option.some.inj (hstart'.symm.trans hstart)))
        | listed hlisted => exact Or.inl (Or.inl hlisted)
        | rule hrule' hstart' hoccurs hallowed hfound =>
          rw [hrule] at hrule'
          rw [hstart] at hstart'
          cases hrule'
          cases hstart'
          rcases hvisited.mpr (Or.inr ⟨hoccurs, hfound⟩) with rfl | hmem
          · exact Or.inl (Or.inr rfl)
          · exact Or.inr ⟨hmem, hallowed⟩

/-! ## The latest onset -/

variable {wall : NaiveDateTime} {onset : Observance → NaiveDateTime → Prop}

/-- The first of a list that has a property. -/
inductive IsFirst {α : Type} (has : α → Prop) : List α → α → Prop
  | head {a : α} {rest : List α} (h : has a) : IsFirst has (a :: rest) a
  | tail {a first : α} {rest : List α} (hfirst : ¬has first) (h : IsFirst has rest a) : IsFirst has (first :: rest) a

theorem IsFirst.spec {α : Type} {has : α → Prop} {items : List α} {a : α} (h : IsFirst has items a) : a ∈ items ∧ has a := by
  induction h with
  | head h => exact ⟨List.mem_cons_self, h⟩
  | tail hfirst h ih => exact ⟨List.mem_cons_of_mem _ ih.1, ih.2⟩

theorem IsFirst.unique {α : Type} {has : α → Prop} {items : List α} {a b : α} (ha : IsFirst has items a)
    (hb : IsFirst has items b) : a = b := by
  induction ha with
  | head h =>
    cases hb with
    | head h' => rfl
    | tail hfirst h' => exact absurd h hfirst
  | tail hfirst h ih =>
    cases hb with
    | head h' => exact absurd h' hfirst
    | tail hfirst' h' => exact ih h'

theorem IsFirst.append {α : Type} {has : α → Prop} {items : List α} {a : α} (h : IsFirst has items a) (more : List α) :
    IsFirst has (items ++ more) a := by
  induction h with
  | head h => exact .head h
  | tail hfirst h ih => exact .tail hfirst ih

theorem isFirst_append {α : Type} {has : α → Prop} {items : List α} {a : α} (hnone : ∀ x ∈ items, ¬has x) (h : has a) :
    IsFirst has (items ++ [a]) a := by
  induction items with
  | nil => exact .head h
  | cons first rest ih =>
    exact .tail (hnone first List.mem_cons_self) (ih fun x hx => hnone x (List.mem_cons_of_mem _ hx))

/-- The latest onset up to a local time, with the offsets of the first observance that has it. -/
def IsLatest (onset : Observance → NaiveDateTime → Prop) (observances : List Observance) (wall : NaiveDateTime) :
    Option Latest → Prop
  | none => ∀ o ∈ observances, ∀ t, onset o t → wall < t
  | some (t, before, after) =>
    t ≤ wall ∧ (∀ o ∈ observances, ∀ t', onset o t' → t' ≤ wall → t' ≤ t) ∧
      ∃ o, IsFirst (fun o => onset o t) observances o ∧ o.offsetFrom = before ∧ o.offsetTo = some after

theorem IsLatest.unique {observances : List Observance} {latest latest' : Option Latest}
    (h : IsLatest onset observances wall latest) (h' : IsLatest onset observances wall latest') : latest = latest' := by
  cases latest with
  | none =>
    cases latest' with
    | none => rfl
    | some l' =>
      obtain ⟨hle, -, o, ho, -⟩ := h'
      exact absurd hle (not_le.mpr (h o ho.spec.1 _ ho.spec.2))
  | some l =>
    obtain ⟨hle, hall, o, ho, hbefore, hafter⟩ := h
    cases latest' with
    | none => exact absurd hle (not_le.mpr (h' o ho.spec.1 _ ho.spec.2))
    | some l' =>
      obtain ⟨t, before, after⟩ := l
      obtain ⟨t', before', after'⟩ := l'
      obtain ⟨hle', hall', o', ho', hbefore', hafter'⟩ := h'
      have hsame : t = t' := le_antisymm (hall' o ho.spec.1 t ho.spec.2 hle) (hall o' ho'.spec.1 t' ho'.spec.2 hle')
      subst hsame
      have hobservance := ho.unique ho'
      subst hobservance
      rw [hbefore] at hbefore'
      rw [hafter] at hafter'
      cases hbefore'
      cases hafter'
      rfl

/-- The latest of some observances and one more. -/
theorem IsLatest.step {observances : List Observance} {latest : Option Latest} {o : Observance} {last : Option NaiveDateTime}
    (h : IsLatest onset observances wall latest) (hlast : IsLast (onset o) wall last) (hoffset : o.offsetTo.isSome = true) :
    IsLatest onset (observances ++ [o]) wall (Zone.latestOf latest o last) := by
  obtain ⟨after, hafter⟩ := Option.isSome_iff_exists.mp hoffset
  cases last with
  | none =>
    -- The observance has no onset up to the local time.
    show IsLatest onset (observances ++ [o]) wall latest
    cases latest with
    | none =>
      intro o' ho' t ht
      rcases List.mem_append.mp ho' with ho' | ho'
      · exact h o' ho' t ht
      · rw [List.mem_singleton.mp ho'] at ht
        exact hlast t ht
    | some l =>
      obtain ⟨hle, hall, first, hfirst, hoffsets⟩ := h
      refine ⟨hle, fun o' ho' t ht hle' => ?_, first, hfirst.append [o], hoffsets⟩
      rcases List.mem_append.mp ho' with ho' | ho'
      · exact hall o' ho' t ht hle'
      · rw [List.mem_singleton.mp ho'] at ht
        exact absurd hle' (not_le.mpr (hlast t ht))
  | some last =>
    obtain ⟨honset, hle, hall⟩ := hlast
    unfold Zone.latestOf
    rw [hafter]
    dsimp only
    cases latest with
    | none =>
      rw [Option.all_none, if_pos rfl]
      refine ⟨hle, fun o' ho' t ht hle' => ?_, o, isFirst_append (fun o' ho' ht => ?_) honset, rfl, hafter⟩
      · rcases List.mem_append.mp ho' with ho' | ho'
        · exact absurd hle' (not_le.mpr (h o' ho' t ht))
        · rw [List.mem_singleton.mp ho'] at ht
          exact hall t ht hle'
      · exact absurd hle (not_le.mpr (h o' ho' last ht))
    | some l =>
      obtain ⟨hle', hall', first, hfirst, hoffsets⟩ := h
      rw [Option.all_some]
      by_cases hlt : l.1 < last
      · rw [if_pos (decide_eq_true hlt)]
        refine ⟨hle, fun o' ho' t ht hle'' => ?_, o, isFirst_append (fun o' ho' ht => ?_) honset, rfl, hafter⟩
        · rcases List.mem_append.mp ho' with ho' | ho'
          · exact (hall' o' ho' t ht hle'').trans hlt.le
          · rw [List.mem_singleton.mp ho'] at ht
            exact hall t ht hle''
        · exact absurd (hall' o' ho' last ht hle) (not_le.mpr hlt)
      · rw [if_neg (by simpa using hlt)]
        refine ⟨hle', fun o' ho' t ht hle'' => ?_, first, hfirst.append [o], hoffsets⟩
        rcases List.mem_append.mp ho' with ho' | ho'
        · exact hall' o' ho' t ht hle''
        · rw [List.mem_singleton.mp ho'] at ht
          exact (hall t ht hle'').trans (not_lt.mp hlt)

theorem isLatest_foldl {lastOf : Observance → Option NaiveDateTime} (observances : List Observance)
    (hlast : ∀ o ∈ observances, IsLast (onset o) wall (lastOf o) ∧ o.offsetTo.isSome = true) :
    IsLatest onset observances wall (observances.foldl (fun latest o => Zone.latestOf latest o (lastOf o)) none) := by
  induction observances using List.reverseRecOn with
  | nil => exact fun o ho => absurd ho List.not_mem_nil
  | append_singleton observances o ih =>
    obtain ⟨ho, hoffset⟩ := hlast o (List.mem_append_right _ (List.mem_singleton_self o))
    rw [List.foldl_append, List.foldl_cons, List.foldl_nil]
    exact (ih fun o' ho' => hlast o' (List.mem_append_left _ ho')).step ho hoffset

/-- All onsets of an observance. -/
def onsets (o : Observance) : List NaiveDateTime :=
  o.start.toList ++ o.rdates ++
    (o.start.bind fun start => o.rule.map fun rule =>
      (occurrences rule start).filter fun t => rule.untilAllows t (utcOf o t)).getD []

theorem mem_onsets (t : NaiveDateTime) : t ∈ onsets o ↔ Onset o t := by
  unfold onsets
  rw [List.mem_append, List.mem_append, Option.mem_toList]
  constructor
  · rintro ((hstart | hlisted) | hrule)
    · exact .start hstart
    · exact .listed hlisted
    · cases hstart : o.start with
      | none =>
        rw [hstart] at hrule
        cases hrule
      | some start =>
        cases hrule' : o.rule with
        | none =>
          rw [hstart, hrule'] at hrule
          cases hrule
        | some rule =>
          rw [hstart, hrule'] at hrule
          obtain ⟨hoccurs, hallowed⟩ := List.mem_filter.mp hrule
          exact .rule hrule' hstart hoccurs hallowed
  · intro h
    cases h with
    | start hstart => exact Or.inl (Or.inl hstart)
    | listed hlisted => exact Or.inl (Or.inr hlisted)
    | rule hrule hstart hoccurs hallowed =>
      right
      rw [hstart, hrule]
      exact List.mem_filter.mpr ⟨hoccurs, hallowed⟩

/-- The plain latest onset of a zone, which goes through all onsets. -/
def latestOf (zone : Zone) (wall : NaiveDateTime) : Option Latest :=
  zone.observances.foldl
    (fun latest o => Zone.latestOf latest o ((onsets o).filter fun t => t ≤ wall).max?) none

theorem isLatest_latestOf (zone : Zone) (wall : NaiveDateTime) :
    IsLatest Onset zone.observances wall (latestOf zone wall) :=
  isLatest_foldl zone.observances fun o ho =>
    ⟨(isLast_max (onsets o) wall).congr fun t _ => mem_onsets t, (zone.usable o ho).2.1⟩

theorem isLatest_plainLatest (zone : Zone) (wall : NaiveDateTime) :
    IsLatest (Found wall) zone.observances wall (plainLatest wall zone.observances none) := by
  refine isLatest_foldl zone.observances fun o ho => ?_
  obtain ⟨hstart, hoffset, hsorted⟩ := zone.usable o ho
  obtain ⟨start, hstart⟩ := Option.isSome_iff_exists.mp hstart
  exact ⟨isLast_plainLastOnset hstart hsorted wall, hoffset⟩

/-! ## The offset of a zone -/

/-- A lookup comes to the latest onset: the first observance that it finds it in has the offsets of the first that has it. -/
def Comes (zone : Zone) (wall : NaiveDateTime) : Prop :=
  ∀ t before after, IsLatest Onset zone.observances wall (some (t, before, after)) →
    ∃ o, IsFirst (fun o => Found wall o t) zone.observances o ∧ o.offsetFrom = before ∧ o.offsetTo = some after

theorem comes_iff {zone : Zone} {latest : Option Latest} (h : IsLatest Onset zone.observances wall latest) :
    Comes zone wall ↔ IsLatest (Found wall) zone.observances wall latest := by
  cases latest with
  | none =>
    refine iff_of_true (fun t before after h' => ?_) fun o ho t ht => h o ho t ht.onset
    cases h.unique h'
  | some l =>
    obtain ⟨t, before, after⟩ := l
    constructor
    · intro hcomes
      exact ⟨h.1, fun o ho t' ht' => h.2.1 o ho t' ht'.onset, hcomes t before after h⟩
    · rintro ⟨-, -, hfirst⟩ t' before' after' h'
      cases h.unique h'
      exact hfirst

/-- With any budget from some on. -/
def Enough (p : Nat → Prop) : Prop := ∃ cost, ∀ budget, cost ≤ budget → p budget

theorem enough_iff {α : Type} {f : Nat → α} {a b : α} (h : Enough fun budget => f budget = a) :
    (Enough fun budget => f budget = b) ↔ a = b := by
  obtain ⟨cost, hcost⟩ := h
  constructor
  · rintro ⟨cost', hcost'⟩
    exact (hcost (max cost cost') (le_max_left cost cost')).symm.trans (hcost' _ (le_max_right cost cost'))
  · rintro rfl
    exact ⟨cost, hcost⟩

theorem enough_latestOnset (zone : Zone) (wall : NaiveDateTime) :
    Enough fun budget =>
      (Zone.latestOnset wall zone.observances none budget).2 = some (plainLatest wall zone.observances none) := by
  obtain ⟨cost, hcost⟩ := latestOnset_enough wall zone.observances
  exact ⟨cost, fun budget hbudget => (hcost none budget hbudget).1⟩

theorem enough_offsetAt (zone : Zone) (wall : NaiveDateTime) :
    Enough fun budget =>
      (zone.offsetAt wall budget).2 = some (zone.offsetAfter wall (plainLatest wall zone.observances none)) := by
  obtain ⟨cost, hcost⟩ := enough_latestOnset zone wall
  refine ⟨cost, fun budget hbudget => ?_⟩
  unfold Zone.offsetAt
  dsimp only
  rw [hcost budget hbudget]
  rfl

theorem offsetAt_spec {zone : Zone} {budget : Nat} {offset : Option Offset}
    (h : (zone.offsetAt wall budget).2 = some offset) :
    zone.offsetAfter wall (plainLatest wall zone.observances none) = offset := by
  unfold Zone.offsetAt at h
  obtain ⟨latest, hlatest, rfl⟩ := Option.map_eq_some_iff.mp h
  rw [latestOnset_spec hlatest]

/-- With enough budget, the latest onset that a lookup finds is the latest of all if and only if it comes to that one. The
offset is right then, and else only where the latest onset that is found happens to give the same. -/
theorem offsetAt_exact_iff (zone : Zone) (wall : NaiveDateTime) :
    ∃ latest found : Option Latest,
      (∀ l, IsLatest Onset zone.observances wall l ↔ l = latest) ∧
      (∀ l, IsLatest (Found wall) zone.observances wall l ↔ l = found) ∧
      ((Enough fun budget => (Zone.latestOnset wall zone.observances none budget).2 = some latest) ↔ Comes zone wall) ∧
      ((Enough fun budget => (zone.offsetAt wall budget).2 = some (zone.offsetAfter wall latest)) ↔
        Comes zone wall ∨ zone.offsetAfter wall found = zone.offsetAfter wall latest) := by
  have hlatest := isLatest_latestOf zone wall
  have hfound := isLatest_plainLatest zone wall
  have hcomes : Comes zone wall ↔ plainLatest wall zone.observances none = latestOf zone wall := by
    rw [comes_iff hlatest]
    constructor
    · exact fun h => hfound.unique h
    · intro h
      rw [← h]
      exact hfound
  refine ⟨latestOf zone wall, plainLatest wall zone.observances none, fun l => ⟨fun h => h.unique hlatest, ?_⟩,
    fun l => ⟨fun h => h.unique hfound, ?_⟩, ?_, ?_⟩
  · rintro rfl
    exact hlatest
  · rintro rfl
    exact hfound
  · rw [enough_iff (enough_latestOnset zone wall), Option.some.injEq, hcomes]
  · rw [enough_iff (enough_offsetAt zone wall), Option.some.injEq, hcomes]
    constructor
    · exact Or.inr
    · rintro (h | h)
      · rw [h]
      · exact h

/-! ## The fifth Sunday of February -/

/-- Two in the morning. -/
def twoOClock (day : Int) (h : minDay ≤ day ∧ day ≤ maxDay) : NaiveDateTime :=
  ⟨⟨day, h⟩, ⟨⟨7200, by decide⟩, 0, fun h => absurd h (by decide)⟩⟩

/-- There is one in the years 1976 and 2004, and none in between. -/
def fifthSunday : Rule :=
  { Rule.initial with freq := .yearly, byMonth := [2], byDay := [(5, .sun)], byMonth_sorted := List.pairwise_singleton _ _ }

def fifthSundayRrule : RustText.Text := "FREQ=YEARLY;BYMONTH=2;BYDAY=5SU".toList

/-- The 29th of February of the years 1976 and 2004. -/
def firstSunday : NaiveDateTime := twoOClock (yearStart 1976 + 59) (by decide)

def nextSunday : NaiveDateTime := twoOClock (yearStart 2004 + 59) (by decide)

def anHour : Offset := ⟨3600, by decide⟩

def twoHours : Offset := ⟨7200, by decide⟩

/-- An hour east of UTC from each fifth Sunday of February on, and two hours from the year 1990 on. -/
def sundays : Observance :=
  { start := some firstSunday
    offsetFrom := some twoHours
    offsetTo := some anHour
    rule := some fifthSunday
    rdates := [] }

def nineties : Observance :=
  { start := some (twoOClock (yearStart 1990) (by decide))
    offsetFrom := some anHour
    offsetTo := some twoHours
    rule := none
    rdates := [] }

def sundayZone : Zone := (Zone.empty.add sundays).add nineties

/-- The 1st of January of the year 2010. -/
def newYear : NaiveDateTime := twoOClock (yearStart 2010) (by decide)

example :
    (Rule.parse ⟨fun _ => none, fun _ => none⟩ fifthSundayRrule).map (fun rule => (rule.freq, rule.byMonth, rule.byDay)) =
      some (.yearly, [2], [(5, .sun)]) := by
  decide +kernel

theorem visited_fifthSunday : visited fifthSunday firstSunday none newYear = [firstSunday, nextSunday] :=
  (@walk_collect fifthSunday firstSunday newYear none 1000 (by decide +kernel)).symm.trans (by decide +kernel)

theorem sundayZone_observances : sundayZone.observances = [sundays, nineties] := rfl

theorem onset_sundays {t : NaiveDateTime} (h : Onset sundays t) (hle : t ≤ newYear) : t ≤ nextSunday := by
  cases h with
  | start hstart =>
    cases hstart
    decide +kernel
  | listed hlisted => cases hlisted
  | rule hrule hstart hoccurs hallowed =>
    cases hrule
    cases hstart
    have hvisited := (@mem_visited_iff fifthSunday firstSunday t none newYear hle).mpr
      (Or.inr ⟨hoccurs, fun hskipped => hskipped.1 rfl⟩)
    rw [visited_fifthSunday] at hvisited
    rcases hvisited with rfl | hvisited
    · decide +kernel
    · rcases List.mem_cons.mp hvisited with rfl | hvisited
      · decide +kernel
      · exact (List.mem_singleton.mp hvisited).le

theorem isLatest_nextSunday : IsLatest Onset sundayZone.observances newYear (some (nextSunday, some twoHours, anHour)) := by
  rw [sundayZone_observances]
  refine ⟨by decide +kernel, fun o ho t ht hle => ?_, sundays, .head ?_, rfl, rfl⟩
  · rcases List.mem_cons.mp ho with rfl | ho
    · exact onset_sundays ht hle
    · rw [List.mem_singleton.mp ho] at ht
      cases ht with
      | start hstart =>
        cases hstart
        decide +kernel
      | listed hlisted => cases hlisted
      | rule hrule => cases hrule
  · refine .rule rfl rfl ((visited_sublist fifthSunday firstSunday none newYear).subset ?_) rfl
    rw [visited_fifthSunday]
    exact List.mem_cons_of_mem _ (List.mem_singleton_self nextSunday)

/-- The latest onset, an hour east of UTC, is of the year 2004; no lookup has that offset, and with a budget of a thousand
steps it is two hours. -/
theorem fifth_sunday_is_missed :
    IsLatest Onset sundayZone.observances newYear (some (nextSunday, some twoHours, anHour)) ∧
      sundayZone.offsetAfter newYear (some (nextSunday, some twoHours, anHour)) = some anHour ∧
      (sundayZone.offsetAt newYear 1000).2 = some (some twoHours) ∧
      ¬Enough fun budget => (sundayZone.offsetAt newYear budget).2 =
        some (sundayZone.offsetAfter newYear (some (nextSunday, some twoHours, anHour))) := by
  have hfound : (sundayZone.offsetAt newYear 1000).2 = some (some twoHours) := by decide +kernel
  refine ⟨isLatest_nextSunday, by decide +kernel, hfound, ?_⟩
  rw [enough_iff (enough_offsetAt sundayZone newYear), offsetAt_spec hfound]
  decide +kernel

end ZoneOnsets
