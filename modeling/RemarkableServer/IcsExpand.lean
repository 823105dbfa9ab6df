import RemarkableServer.IcsWalk

/-!
# The expansion of a series

An expansion that no budget cut short has found the plain occurrences of its series. Only
where the end of the window is so late that two days more are out of range does the walk stop
at that end, and may lack an occurrence whose local time is past it.
-/
namespace IcsExpand

open RustText Civil Chrono Recurrence RecurrenceWalk TimeZone ZoneLookup Ics IcsPlain IcsWalk

variable {series : Series} {w : Walking}

/-! ## Listed occurrences -/

variable {table : ZoneTable} {rdate : RDate} {found : NaiveDateTime × Int}

/-- How a listed occurrence lies to what is written of it: it starts within a day, and ends within a day of the reach. -/
theorem plainOccurrence_reach {length : Int} (hocc : plainOccurrence table length rdate = some found) :
    WithinDay rdate.start.written found.1 ∧
      found.1.nanos + found.2 ≤
        rdate.start.written.nanos + max (rdate.writtenLength length) length + dayNanos + 2000000000 := by
  obtain ⟨start, hstart, hocc⟩ := Option.bind_eq_some_iff.mp hocc
  have hnear := plainUtc_within hstart
  unfold RDate.writtenLength
  cases hperiod : rdate.period with
  | none =>
    rw [hperiod] at hocc
    cases hocc
    refine ⟨hnear, ?_⟩
    unfold WithinDay at hnear
    dsimp only [RDate.lengthOr, Option.filter_none, Option.getD_none]
    omega
  | some period =>
    rw [hperiod] at hocc
    cases period with
    | lasts lasting =>
      cases hocc
      refine ⟨hnear, ?_⟩
      unfold WithinDay at hnear
      dsimp only [RDate.lengthOr]
      rw [Option.filter_some]
      split
      · rw [Option.getD_some]
        omega
      · rw [Option.getD_none]
        omega
    | ends time =>
      obtain ⟨stop, hstop, hocc⟩ := Option.bind_eq_some_iff.mp hocc
      cases hocc
      refine ⟨hnear, ?_⟩
      have hnear' := plainUtc_within hstop
      have hsince := NaiveDateTime.nanos_since stop start
      have hwritten := NaiveDateTime.nanos_since time.written rdate.start.written
      unfold WithinDay at hnear hnear'
      dsimp only [RDate.lengthOr]
      rw [Option.filter_some]
      split
      · rw [Option.getD_some]
        omega
      · rw [Option.getD_none]
        omega

/-- An occurrence whose times as written are days outside the window is outside it. -/
theorem not_kept_of_misses (hlength : -2000000000 ≤ series.length)
    (hmisses : rdate.misses series.length series.windowStart series.windowEnd = true)
    (hocc : plainOccurrence table series.length rdate = some found) : kept series found = false := by
  obtain ⟨hnear, hreach⟩ := plainOccurrence_reach hocc
  unfold WithinDay at hnear
  unfold dayNanos at hnear hreach
  refine kept_of_not_inWindow ?_
  rcases Bool.or_eq_true_iff.mp hmisses with hafter | hbefore
  · cases hstop : series.windowEnd.checkedAddSigned (days 2) with
    | none =>
      rw [hstop] at hafter
      cases hafter
    | some stop =>
      rw [hstop] at hafter
      have hle := NaiveDateTime.nanos_lt_of_le (show stop ≤ rdate.start.written from of_decide_eq_true hafter)
      have hnanos := NaiveDateTime.nanos_checkedAddSigned hstop
      unfold days seconds at hnanos
      exact not_inWindow_of_after (by omega)
  · cases htime : (rdate.start.written.checkedAddSigned (max (rdate.writtenLength series.length) series.length)).bind
        fun time => time.checkedAddSigned (days 2) with
    | none =>
      rw [htime] at hbefore
      cases hbefore
    | some time =>
      rw [htime] at hbefore
      have hle := NaiveDateTime.nanos_lt_of_le (show time ≤ series.windowStart from of_decide_eq_true hbefore)
      obtain ⟨middle, hmiddle, hlast⟩ := Option.bind_eq_some_iff.mp htime
      have hnanos := NaiveDateTime.nanos_checkedAddSigned hmiddle
      have hnanos' := NaiveDateTime.nanos_checkedAddSigned hlast
      unfold days seconds at hnanos'
      exact not_inWindow_of_before (by omega)

theorem extends_addRDates (series : Series) (rdates : List RDate) (w : Walking) (seen : List Text) :
    Extends w (series.addRDates rdates w seen) := by
  induction rdates generalizing w seen with
  | nil => exact Extends.refl w
  | cons rdate rest ih =>
    unfold Series.addRDates
    split
    · exact ih w seen
    · have hconverts := converts_occurrence rdate series.length w.zones
      cases hocc : rdate.occurrence series.length w.zones with
      | mk zones found =>
        rw [hocc] at hconverts
        have hzones : Extends w { w with zones := zones } :=
          ⟨hconverts.byId, ⟨rfl, rfl⟩, fun h => ⟨h.1, (hconverts.result h.2).1⟩⟩
        cases found with
        | none => exact hzones.trans (ih _ seen)
        | some found =>
          dsimp only
          split
          · exact hzones.trans (ih _ seen)
          · have hpush := extends_push series { w with zones := zones } found.1 found.2
            split
            · exact hzones.trans (hpush.trans (ih _ _))
            · exact hzones.trans hpush

/-- The listed occurrences that are added: the first of each key that is kept. -/
theorem addRDates_spec (hlength : -2000000000 ≤ series.length) {rdates : List RDate} {seen : List Text}
    (hwhole : Whole (series.addRDates rdates w seen)) :
    (series.addRDates rdates w seen).starts = w.starts ++
      firstOfKey series seen ((rdates.filterMap (plainOccurrence w.zones.byId series.length)).filter (kept series)) := by
  induction rdates generalizing w seen with
  | nil => exact (List.append_nil _).symm
  | cons rdate rest ih =>
    unfold Series.addRDates at hwhole ⊢
    rw [List.filterMap_cons]
    split
    next hmisses =>
      rw [if_pos hmisses] at hwhole
      rw [ih hwhole]
      cases hocc : plainOccurrence w.zones.byId series.length rdate with
      | none => rfl
      | some found =>
        dsimp only
        rw [List.filter_cons, not_kept_of_misses hlength hmisses hocc]
        rfl
    next hmisses =>
      rw [if_neg hmisses] at hwhole
      have hconverts := converts_occurrence rdate series.length w.zones
      cases hocc : rdate.occurrence series.length w.zones with
      | mk zones found =>
        rw [hocc] at hconverts hwhole
        have hbyId : zones.byId = w.zones.byId := hconverts.byId
        cases found with
        | none =>
          dsimp only at hwhole ⊢
          have hzones := ((extends_addRDates series rest _ seen).whole hwhole).2
          rw [← (hconverts.result hzones).2, ih hwhole]
          dsimp only
          rw [hbyId]
        | some found =>
          obtain ⟨start, length⟩ := found
          dsimp only at hwhole ⊢
          have hzones : zones.exhausted = false := by
            split at hwhole
            · exact ((extends_addRDates series rest _ seen).whole hwhole).2
            · have hpush := extends_push series { w with zones := zones } start length
              split at hwhole
              · exact ((hpush.trans (extends_addRDates series rest _ _)).whole hwhole).2
              · exact (hpush.whole hwhole).2
          rw [← (hconverts.result hzones).2]
          dsimp only
          rw [List.filter_cons]
          by_cases hkept : kept series (start, length) = true
          · rw [if_pos hkept, firstOfKey]
            obtain ⟨hin, hskip⟩ := Bool.and_eq_true_iff.mp hkept
            have hskip : series.skip start = false := by simpa using hskip
            dsimp only at hin
            rw [hin, hskip, Bool.not_true, Bool.or_self, Bool.false_or] at hwhole ⊢
            unfold keyOf
            dsimp only
            split
            next hseen =>
              rw [if_pos hseen] at hwhole
              rw [ih hwhole]
              dsimp only
              rw [hbyId]
            next hseen =>
              rw [if_neg hseen] at hwhole
              have hpush : Whole (series.push { w with zones := zones } start length).1 := by
                split at hwhole
                · exact (extends_addRDates series rest _ _).whole hwhole
                · exact hwhole
              obtain ⟨htaken, hstarts⟩ := push_spec hpush
              rw [if_pos htaken] at hwhole ⊢
              rw [ih hwhole, hstarts, (extends_push series _ start length).byId]
              dsimp only
              rw [hbyId, List.append_assoc]
              rfl
          · rw [if_neg hkept]
            have hdropped : (!series.inWindow start length || series.skip start) = true := by
              unfold kept at hkept
              simpa [Bool.or_comm, Classical.or_iff_not_imp_left] using hkept
            rw [hdropped, Bool.true_or, if_pos rfl] at hwhole ⊢
            rw [ih hwhole]
            dsimp only
            rw [hbyId]

/-! ## The occurrences of a series -/

/-- The start of a series without a rule, else the occurrences of its rule that satisfy a test of their local time. -/
def startsThat (table : ZoneTable) (rule : Option Rule) (startTime : IcsTime) (start : NaiveDateTime)
    (test : NaiveDateTime → Bool) : List NaiveDateTime :=
  let anchor := VEventFields.anchorOf startTime
  match rule with
  | none => if test anchor.1 then [start] else []
  | some rule =>
    ((withinEnd rule (wallUtc table anchor.2) (occurrences rule anchor.1)).filter test).map (wallUtc table anchor.2)

/-- Those of them that are in the window, neither cancelled nor moved. -/
def keptThat (table : ZoneTable) (series : Series) (rule : Option Rule) (startTime : IcsTime) (start : NaiveDateTime)
    (test : NaiveDateTime → Bool) : List (NaiveDateTime × Int) :=
  ((startsThat table rule startTime start test).map fun utc => (utc, series.length)).filter (kept series)

/-- The occurrences whose local time is past the end of the walk, though they are in the window. -/
def lost (table : ZoneTable) (series : Series) (rule : Option Rule) (startTime : IcsTime) (start : NaiveDateTime) :
    List (NaiveDateTime × Int) :=
  keptThat table series rule startTime start (late series (VEventFields.anchorOf startTime).1)

def onTime (table : ZoneTable) (series : Series) (rule : Option Rule) (startTime : IcsTime) (start : NaiveDateTime) :
    List (NaiveDateTime × Int) :=
  keptThat table series rule startTime start fun wall => !late series (VEventFields.anchorOf startTime).1 wall

def listedKept (table : ZoneTable) (e : VEventFields) (series : Series) : List (NaiveDateTime × Int) :=
  (e.rdates.filterMap (plainOccurrence table series.length)).filter (kept series)

variable {startTime : IcsTime} {start : NaiveDateTime} {e : VEventFields} {rrule : Option Rule}

/-- In order, the conversions to UTC are non-decreasing on the occurrences of the rule. -/
def NonDecreasing (table : ZoneTable) (rule : Option Rule) (startTime : IcsTime) : Prop :=
  ∀ r, rule = some r →
    (plainRule table r (VEventFields.anchorOf startTime).1 (VEventFields.anchorOf startTime).2).Pairwise (· ≤ ·)

theorem late_anchor (series : Series) (anchor : NaiveDateTime) : late series anchor anchor = false := by
  unfold late
  simp

/-- What nothing cut short has found: the occurrences on time, and the listed ones whose keys are new. -/
theorem expandSeries_spec (hlength : -2000000000 ≤ series.length) (hmono : NonDecreasing w.zones.byId rrule startTime)
    (hstarts : w.starts = []) (hwhole : Whole (e.expandSeries series rrule startTime start w)) :
    (e.expandSeries series rrule startTime start w).starts =
      onTime w.zones.byId series rrule startTime start ++
        firstOfKey series ((onTime w.zones.byId series rrule startTime start).map (keyOf series))
          (listedKept w.zones.byId e series) := by
  unfold VEventFields.expandSeries at hwhole ⊢
  dsimp only at hwhole ⊢
  have hfirst := (extends_addRDates series e.rdates _ _).whole hwhole
  have hadded := addRDates_spec hlength hwhole
  rw [hadded]
  cases rrule with
  | none =>
    dsimp only at hfirst ⊢
    have honTime : onTime w.zones.byId series none startTime start = [(start, series.length)].filter (kept series) := by
      unfold onTime keptThat startsThat
      dsimp only
      rw [if_pos (by rw [late_anchor]; rfl)]
      rfl
    rw [honTime, List.filter_singleton]
    by_cases hkept : (series.inWindow start series.length && !series.skip start) = true
    · rw [if_pos hkept] at hfirst ⊢
      rw [(push_spec hfirst).2, hstarts]
      unfold kept
      dsimp only
      rw [hkept]
      rfl
    · rw [if_neg hkept, hstarts]
      unfold kept
      dsimp only
      rw [Bool.eq_false_iff.mpr hkept]
      rfl
  | some rule =>
    dsimp only at hfirst ⊢
    obtain ⟨hextends, hwalked⟩ := walkRule_spec hfirst
    have honTime : (series.walkRule rule (VEventFields.anchorOf startTime).1 (VEventFields.anchorOf startTime).2 w).starts =
        onTime w.zones.byId series (some rule) startTime start := by
      rw [hwalked, hstarts, visitedStarts_walk hlength (fun wall => wallUtc_within _ _ wall) (hmono rule rfl)]
      have hpairs : ∀ l : List NaiveDateTime,
          (l.filter fun utc => kept series (utc, series.length)).map (fun utc => (utc, series.length)) =
            (l.map fun utc => (utc, series.length)).filter (kept series) := by
        intro l
        rw [List.filter_map]
        rfl
      unfold onTime keptThat startsThat
      dsimp only
      rw [List.nil_append]
      exact hpairs _
    rw [honTime, hextends.byId]
    rfl

theorem extends_expandSeries (hwhole : Whole (e.expandSeries series rrule startTime start w)) :
    Extends w (e.expandSeries series rrule startTime start w) := by
  unfold VEventFields.expandSeries at hwhole ⊢
  dsimp only at hwhole ⊢
  refine Extends.trans ?_ (extends_addRDates series e.rdates _ _)
  have hfirst := (extends_addRDates series e.rdates _ _).whole hwhole
  cases rrule with
  | none =>
    dsimp only
    split
    · exact extends_push series w start series.length
    · exact Extends.refl w
  | some rule => exact (walkRule_spec hfirst).1

/-! ## The plain series -/

theorem firstOfKey_congr {seen seen' : List Text} (h : ∀ key, key ∈ seen ↔ key ∈ seen') (listed : List (NaiveDateTime × Int)) :
    firstOfKey series seen listed = firstOfKey series seen' listed := by
  induction listed generalizing seen seen' with
  | nil => rfl
  | cons found rest ih =>
    have hcontains : seen.contains (keyOf series found) = seen'.contains (keyOf series found) := by
      rw [Bool.eq_iff_iff, List.contains_iff_mem, List.contains_iff_mem]
      exact h _
    rw [firstOfKey, firstOfKey, hcontains, ih h]
    congr 2
    exact ih fun key => by rw [List.mem_cons, List.mem_cons, h key]

/-- More keys that are seen drop the occurrences with these keys. -/
theorem firstOfKey_append (seen more : List Text) (listed : List (NaiveDateTime × Int)) :
    firstOfKey series (seen ++ more) listed =
      (firstOfKey series seen listed).filter fun found => !more.contains (keyOf series found) := by
  induction listed generalizing seen with
  | nil => rfl
  | cons found rest ih =>
    rw [firstOfKey, firstOfKey]
    by_cases hseen : keyOf series found ∈ seen
    · rw [if_pos (by simp [hseen]), if_pos (by simp [hseen]), ih]
    · by_cases hmore : keyOf series found ∈ more
      · rw [if_pos (by simp [hmore]), if_neg (by simp [hseen]), List.filter_cons_of_neg (by simp [hmore]), ← ih]
        refine firstOfKey_congr (fun key => ?_) rest
        rw [List.cons_append, List.mem_cons]
        refine ⟨Or.inr, fun hkey => hkey.elim (fun heq => ?_) id⟩
        rw [heq]
        exact List.mem_append_right _ hmore
      · rw [if_neg (by simp [hseen, hmore]), if_neg (by simp [hseen]), List.filter_cons_of_pos (by simp [hmore]), ← ih]
        rfl

theorem plainStarts_eq (table : ZoneTable) (rrule : Option Rule) (startTime : IcsTime) (start : NaiveDateTime) :
    plainStarts table rrule startTime start = startsThat table rrule startTime start fun _ => true := by
  unfold plainStarts startsThat plainRule withinEnd
  cases rrule with
  | none => rfl
  | some rule =>
    dsimp only
    rw [List.filter_true]

/-- The plain occurrences are those on time and those that are lost. -/
theorem perm_onTime_lost (table : ZoneTable) (series : Series) (rrule : Option Rule) (startTime : IcsTime)
    (start : NaiveDateTime) :
    (((plainStarts table rrule startTime start).map fun utc => (utc, series.length)).filter (kept series)).Perm
      (onTime table series rrule startTime start ++ lost table series rrule startTime start) := by
  have hstarts : (plainStarts table rrule startTime start).Perm
      (startsThat table rrule startTime start (fun wall => !late series (VEventFields.anchorOf startTime).1 wall) ++
        startsThat table rrule startTime start (late series (VEventFields.anchorOf startTime).1)) := by
    rw [plainStarts_eq]
    unfold startsThat
    cases rrule with
    | none =>
      dsimp only
      rw [if_pos rfl, if_pos (by rw [late_anchor]; rfl), if_neg (by rw [late_anchor]; exact Bool.false_ne_true)]
      rfl
    | some rule =>
      dsimp only
      rw [← List.map_append, List.filter_true]
      refine (List.Perm.map _ ?_)
      refine (List.filter_append_perm (late series (VEventFields.anchorOf startTime).1) _).symm.trans ?_
      exact List.perm_append_comm
  unfold onTime lost keptThat
  rw [← List.filter_append, ← List.map_append]
  exact (hstarts.map _).filter _

theorem start_le_stopOf {allDay : Bool} {stop : Option NaiveDateTime} : start ≤ e.stopOf start stop allDay := by
  unfold VEventFields.stopOf
  cases hwritten : (stop.or (e.duration.bind start.checkedAddSigned)).filter fun stop => start ≤ stop with
  | some written =>
    have hle := (Option.filter_eq_some_iff.mp hwritten).2
    exact of_decide_eq_true hle
  | none =>
    rw [Option.none_or]
    cases hdefault : start.checkedAddSigned (VEventFields.defaultLength allDay) with
    | none => exact le_rfl
    | some stop =>
      have hnanos := NaiveDateTime.nanos_checkedAddSigned hdefault
      refine (NaiveDateTime.lt_of_nanos ?_).le
      rw [Option.getD_some]
      unfold VEventFields.defaultLength days hours seconds at hnanos
      split at hnanos <;> omega

theorem plainTimes_length {times : NaiveDateTime × NaiveDateTime × Bool} (h : plainTimes table e = some times) :
    -2000000000 ≤ times.2.1.since times.1 := by
  obtain ⟨startTime, -, h⟩ := Option.bind_eq_some_iff.mp h
  obtain ⟨start, -, h⟩ := Option.bind_eq_some_iff.mp h
  refine NaiveDateTime.since_ge ?_
  split at h
  · cases h
    exact start_le_stopOf
  · obtain ⟨stop, -, h⟩ := Option.bind_eq_some_iff.mp h
    cases h
    exact start_le_stopOf

/-! ## An expansion and its plain meaning -/

/-- The listed occurrences bring back what the walk lost: they have its times and lengths. -/
def BroughtBack (table : ZoneTable) (e : VEventFields) (rrule : Option Rule) (calendarId : Text) (etag : Option Text)
    (overridden : List Text) (expansion : Expansion) : Prop :=
  ∀ uid startTime times excluded, e.uid = some uid → e.start = some startTime → plainTimes table e = some times →
    plainAll table e.exdates = some excluded →
    let series := e.seriesOf uid calendarId etag overridden expansion times excluded
    let onTime := onTime table series rrule startTime times.1
    let lost := lost table series rrule startTime times.1
    let instead := (firstOfKey series (onTime.map (keyOf series)) (listedKept table e series)).filter fun found =>
      (lost.map (keyOf series)).contains (keyOf series found)
    (instead.map (e.eventOf uid calendarId etag series.allDay)).Perm (lost.map (e.eventOf uid calendarId etag series.allDay))

/-- With two days to spare after the window, the walk loses nothing. -/
theorem lost_eq_nil (hrange : (series.windowEnd.checkedAddSigned (days 2)).isSome = true) (rrule : Option Rule)
    (startTime : IcsTime) (start : NaiveDateTime) : lost table series rrule startTime start = [] := by
  unfold lost keptThat
  refine List.filter_eq_nil_iff.mpr fun found hfound => ?_
  obtain ⟨utc, hutc, rfl⟩ := List.mem_map.mp hfound
  unfold startsThat at hutc
  cases rrule with
  | none =>
    dsimp only at hutc
    rw [if_neg (by rw [late_anchor]; exact Bool.false_ne_true)] at hutc
    cases hutc
  | some rule =>
    dsimp only at hutc
    obtain ⟨wall, hwall, rfl⟩ := List.mem_map.mp hutc
    have hlate := (List.mem_filter.mp hwall).2
    unfold late at hlate
    have hpast : series.walkEnd < wall := of_decide_eq_true (Bool.and_eq_true_iff.mp hlate).1
    have hnear := wallUtc_within table (VEventFields.anchorOf startTime).2 wall
    have hnot := @not_inWindow_of_past series wall _ series.length hrange hpast hnear
    exact Bool.eq_false_iff.mp (@kept_of_not_inWindow series (_, series.length) hnot)

variable {rrule : Option Rule} {calendarId : Text} {etag : Option Text} {overridden : List Text} {zones : Zones}
  {expansion : Expansion}

/-- What an expansion that nothing cut short has found, when its times and EXDATEs have plain values. -/
theorem expand_eq (hwhole : (e.expand rrule calendarId etag overridden zones expansion).2.1.truncated = false)
    (hzones : (e.expand rrule calendarId etag overridden zones expansion).1.exhausted = false)
    (hmono : ∀ startTime, e.start = some startTime → NonDecreasing zones.byId rrule startTime) :
    (∃ uid startTime times excluded, e.uid = some uid ∧ e.start = some startTime ∧
      plainTimes zones.byId e = some times ∧ plainAll zones.byId e.exdates = some excluded ∧
      let series := e.seriesOf uid calendarId etag overridden expansion times excluded
      let onTime := onTime zones.byId series rrule startTime times.1
      (e.expand rrule calendarId etag overridden zones expansion).2.2 =
        (onTime ++ firstOfKey series (onTime.map (keyOf series)) (listedKept zones.byId e series)).map
          (e.eventOf uid calendarId etag series.allDay)) ∨
    ((e.expand rrule calendarId etag overridden zones expansion).2.2 = [] ∧
      (e.uid = none ∨ e.start = none ∨ plainTimes zones.byId e = none ∨ plainAll zones.byId e.exdates = none)) := by
  unfold VEventFields.expand at hwhole hzones ⊢
  have htimes := converts_times e zones
  cases hresult : e.times zones with
  | mk zones' times =>
    rw [hresult] at htimes hwhole hzones
    cases times with
    | none =>
      dsimp only at hzones ⊢
      exact Or.inr ⟨rfl, Or.inr (Or.inr (Or.inl (htimes.result hzones).2.symm))⟩
    | some times =>
      dsimp only at hwhole hzones ⊢
      cases huid : e.uid with
      | none => exact Or.inr ⟨rfl, Or.inl rfl⟩
      | some uid =>
        cases hstart : e.start with
        | none => exact Or.inr ⟨rfl, Or.inr (Or.inl rfl)⟩
        | some startTime =>
          rw [huid, hstart] at hwhole hzones
          dsimp only at hwhole hzones ⊢
          have hall := converts_convertAll zones' e.exdates
          cases hexcluded : e.excluded zones' with
          | mk zones'' excluded =>
            unfold VEventFields.excluded at hexcluded
            rw [hexcluded] at hall
            unfold VEventFields.excluded at hwhole hzones
            rw [hexcluded] at hwhole hzones
            have hbyId : zones''.byId = zones.byId := hall.byId.trans htimes.byId
            cases excluded with
            | none =>
              dsimp only at hzones ⊢
              have hplain := (hall.result hzones).2
              rw [htimes.byId] at hplain
              exact Or.inr ⟨rfl, Or.inr (Or.inr (Or.inr hplain.symm))⟩
            | some excluded =>
              dsimp only at hwhole hzones ⊢
              have hextends := @extends_expandSeries (e.seriesOf uid calendarId etag overridden expansion times excluded)
                ⟨zones'', expansion, []⟩ startTime times.1 e rrule ⟨hwhole, hzones⟩
              obtain ⟨hzones', hplain⟩ := hall.result (hextends.whole ⟨hwhole, hzones⟩).2
              have htimes' := (htimes.result hzones').2
              rw [htimes.byId] at hplain
              refine Or.inl ⟨uid, startTime, times, excluded, rfl, rfl, htimes'.symm, hplain.symm, ?_⟩
              have hspec := @expandSeries_spec (e.seriesOf uid calendarId etag overridden expansion times excluded)
                ⟨zones'', expansion, []⟩ startTime times.1 e rrule (plainTimes_length htimes'.symm)
                (by dsimp only; rw [hbyId]; exact hmono startTime hstart) rfl ⟨hwhole, hzones⟩
              rw [hspec, hbyId]

theorem plainExpand_eq {uid : Text} {startTime : IcsTime} {times : NaiveDateTime × NaiveDateTime × Bool}
    {excluded : List NaiveDateTime} (huid : e.uid = some uid) (hstart : e.start = some startTime)
    (htimes : plainTimes table e = some times) (hexcluded : plainAll table e.exdates = some excluded) :
    plainExpand table e rrule calendarId etag overridden expansion =
      (plainSeries table e (e.seriesOf uid calendarId etag overridden expansion times excluded) rrule startTime times.1).map
        (e.eventOf uid calendarId etag (e.seriesOf uid calendarId etag overridden expansion times excluded).allDay) := by
  unfold plainExpand
  rw [huid, hstart, htimes, hexcluded]

theorem plainExpand_eq_nil (h : e.uid = none ∨ e.start = none ∨ plainTimes table e = none ∨ plainAll table e.exdates = none) :
    plainExpand table e rrule calendarId etag overridden expansion = [] := by
  unfold plainExpand
  split
  next huid hstart htimes hexcluded =>
    rw [huid, hstart, htimes, hexcluded] at h
    simp at h
  · rfl

/-- What the walk found is what is plain, if and only if the listed occurrences make up for what it lost. -/
theorem perm_plainSeries_iff (table : ZoneTable) (e : VEventFields) (series : Series) (rrule : Option Rule)
    (startTime : IcsTime) (start : NaiveDateTime) {T : Type} (f : NaiveDateTime × Int → T) :
    let onTime := onTime table series rrule startTime start
    let lost := lost table series rrule startTime start
    let listed := firstOfKey series (onTime.map (keyOf series)) (listedKept table e series)
    ((onTime ++ listed).map f).Perm ((plainSeries table e series rrule startTime start).map f) ↔
      ((listed.filter fun found => (lost.map (keyOf series)).contains (keyOf series found)).map f).Perm (lost.map f) := by
  intro onTime' lost' listed
  have hperm := perm_onTime_lost table series rrule startTime start
  have hplain : (plainSeries table e series rrule startTime start).Perm
      (onTime' ++ lost' ++ listed.filter fun found => !(lost'.map (keyOf series)).contains (keyOf series found)) := by
    unfold plainSeries
    dsimp only
    refine List.Perm.append hperm ?_
    have hkeys : ∀ key, key ∈ List.map (keyOf series)
        (((plainStarts table rrule startTime start).map fun utc => (utc, series.length)).filter (kept series)) ↔
          key ∈ onTime'.map (keyOf series) ++ lost'.map (keyOf series) := by
      intro key
      rw [← List.map_append]
      exact (hperm.map _).mem_iff
    rw [← firstOfKey_append, firstOfKey_congr hkeys]
    rfl
  have hlisted := List.filter_append_perm (fun found => (lost'.map (keyOf series)).contains (keyOf series found)) listed
  rw [(hplain.map f).congr_right, List.map_append, List.map_append, List.map_append, List.append_assoc,
    List.perm_append_left_iff, (hlisted.map f).symm.congr_left, List.map_append, List.perm_append_right_iff]

theorem expand_perm_iff (hwhole : (e.expand rrule calendarId etag overridden zones expansion).2.1.truncated = false)
    (hzones : (e.expand rrule calendarId etag overridden zones expansion).1.exhausted = false)
    (hmono : ∀ startTime, e.start = some startTime → NonDecreasing zones.byId rrule startTime) :
    (e.expand rrule calendarId etag overridden zones expansion).2.2.Perm
        (plainExpand zones.byId e rrule calendarId etag overridden expansion) ↔
      BroughtBack zones.byId e rrule calendarId etag overridden expansion := by
  rcases expand_eq hwhole hzones hmono with hfound | ⟨hnil, hnone⟩
  · obtain ⟨uid, startTime, times, excluded, huid, hstart, htimes, hexcluded, hfound⟩ := hfound
    rw [hfound, plainExpand_eq huid hstart htimes hexcluded]
    refine (perm_plainSeries_iff _ _ _ _ _ _ _).trans ?_
    constructor
    · intro hperm uid' startTime' times' excluded' huid' hstart' htimes' hexcluded'
      cases huid.symm.trans huid'
      cases hstart.symm.trans hstart'
      cases htimes.symm.trans htimes'
      cases hexcluded.symm.trans hexcluded'
      exact hperm
    · intro hback
      exact hback uid startTime times excluded huid hstart htimes hexcluded
  · rw [hnil, plainExpand_eq_nil hnone]
    refine ⟨fun _ uid startTime times excluded huid hstart htimes hexcluded => ?_, fun _ => List.Perm.refl _⟩
    rw [huid, hstart, htimes, hexcluded] at hnone
    simp at hnone

theorem broughtBack_of_range (hrange : (expansion.stop.checkedAddSigned (days 2)).isSome = true) (table : ZoneTable)
    (e : VEventFields) (rrule : Option Rule) (calendarId : Text) (etag : Option Text) (overridden : List Text) :
    BroughtBack table e rrule calendarId etag overridden expansion := by
  intro uid startTime times excluded _ _ _ _
  have hlost := @lost_eq_nil (e.seriesOf uid calendarId etag overridden expansion times excluded) table hrange rrule
    startTime times.1
  dsimp only
  rw [hlost, List.map_nil, List.map_nil]
  rw [List.filter_eq_nil_iff.mpr fun found _ => by simp]
  exact List.Perm.refl _

/-- An expansion that was not cut short finds the plain occurrences of its series, if and only if the listed occurrences
make up for those the walk lost; it loses none if the window ends two days before the range does. -/
theorem expand_exact (hwhole : (e.expand rrule calendarId etag overridden zones expansion).2.1.truncated = false)
    (hzones : (e.expand rrule calendarId etag overridden zones expansion).1.exhausted = false)
    (hmono : ∀ startTime, e.start = some startTime → NonDecreasing zones.byId rrule startTime) :
    ((e.expand rrule calendarId etag overridden zones expansion).2.2.Perm
        (plainExpand zones.byId e rrule calendarId etag overridden expansion) ↔
      BroughtBack zones.byId e rrule calendarId etag overridden expansion) ∧
    ((expansion.stop.checkedAddSigned (days 2)).isSome = true →
      BroughtBack zones.byId e rrule calendarId etag overridden expansion) :=
  ⟨expand_perm_iff hwhole hzones hmono, fun hrange => broughtBack_of_range hrange _ _ _ _ _ _⟩

/-! ## A yearly event at the end of the range -/

/-- A zone ten hours east of UTC. -/
def eastern : Zone :=
  Zone.empty.add
    { start := some ⟨⟨yearStart 1970, by decide⟩, NaiveTime.midnight⟩
      offsetFrom := some ⟨36000, by decide⟩
      offsetTo := some ⟨36000, by decide⟩
      rule := none
      rdates := [] }

def easternZones : Zones := ⟨fun tzid => if tzid = "East".toList then some eastern else none, [], maxZoneSteps, false⟩

/-- A whole second is no leap second. -/
theorem whole_second {secs : Nat} : 1000000000 ≤ 0 → secs % 60 = 59 := fun h => absurd h (by decide)

/-- Every 252143 years. -/
def rareRule : Rule := { Rule.initial with freq := .yearly, interval := 252143, interval_pos := by decide }

def rareRrule : Text := "FREQ=YEARLY;INTERVAL=252143".toList

/-- An hour after 18:00 in the zone, on the last day of the year 9999. -/
def rareEvent : VEventFields where
  uid := some "rare".toList
  summary := none
  description := none
  location := none
  start := some (.wall ⟨⟨yearStart 10000 - 1, by decide⟩, ⟨⟨64800, by decide⟩, ⟨0, by decide⟩, whole_second⟩⟩ (some "East".toList))
  stop := none
  duration := none
  recurrenceId := none
  recurrenceIdRaw := none
  status := .confirmed
  rrule := some rareRrule
  rdates := []
  exdates := []

/-- The first twelve hours of a day. -/
def morningOf (date : NaiveDate) : Expansion := Expansion.new ⟨date, NaiveTime.midnight⟩ ⟨date, ⟨⟨43200, by decide⟩, ⟨0, by decide⟩, whole_second⟩⟩

example : (Rule.parse ⟨fun _ => none, fun _ => none⟩ rareRrule).map (fun rule => (rule.freq, rule.interval, rule.count)) =
    some (.yearly, 252143, none) := by
  decide +kernel

def lastDay : NaiveDate := ⟨maxDay, by decide⟩

def dayOf9999 : NaiveDate := ⟨yearStart 10000 - 1, by decide⟩

theorem nonDecreasing_rare : ∀ startTime, rareEvent.start = some startTime →
    NonDecreasing easternZones.byId (some rareRule) startTime := by
  rintro startTime hstart rule hrule
  cases hstart
  cases hrule
  decide +kernel

theorem morning_of_9999 :
    (rareEvent.expand (some rareRule) "cal".toList none [] easternZones (morningOf dayOf9999)).2.2.Perm
      (plainExpand easternZones.byId rareEvent (some rareRule) "cal".toList none [] (morningOf dayOf9999)) := by
  have hexact := expand_exact (show (rareEvent.expand (some rareRule) "cal".toList none [] easternZones
    (morningOf dayOf9999)).2.1.truncated = false by decide +kernel) (by decide +kernel) nonDecreasing_rare
  exact hexact.1.mpr (hexact.2 (by decide +kernel))

/-- On the last day of the range the event is lost: it begins at 08:00 in UTC, but the walk stops at 12:00, and its local
time is 18:00. -/
theorem rare_event_lost :
    (rareEvent.expand (some rareRule) "cal".toList none [] easternZones (morningOf lastDay)).2.1.truncated = false ∧
      (rareEvent.expand (some rareRule) "cal".toList none [] easternZones (morningOf lastDay)).1.exhausted = false ∧
      (∀ startTime, rareEvent.start = some startTime → NonDecreasing easternZones.byId (some rareRule) startTime) ∧
      ¬(rareEvent.expand (some rareRule) "cal".toList none [] easternZones (morningOf lastDay)).2.2.Perm
        (plainExpand easternZones.byId rareEvent (some rareRule) "cal".toList none [] (morningOf lastDay)) := by
  refine ⟨by decide +kernel, by decide +kernel, nonDecreasing_rare, by decide +kernel⟩

end IcsExpand