import RemarkableServer.IcsExpand

/-!
# Documents that were read whole

The budgets of a document are shared by its events. If none has run out when it has been
read, none had run out at any of its events, and the events of the document are, up to
order, what each VEVENT plainly means: a single event, the occurrences of a series in the
window, or the first occurrence of a series whose rule is not supported.
-/
namespace IcsDocuments

open RustText Civil Chrono Recurrence TimeZone Ics IcsPlain IcsWalk IcsExpand

/-! ## Plain events -/

variable {table : ZoneTable} {e : VEventFields} {rrule : Option Rule} {calendarId : Text} {etag : Option Text}
  {overridden : List Text} {zones : Zones} {expansion : Expansion}

def plainKey (table : ZoneTable) : IcsTime → Option Text
  | .date d => some (dateText d)
  | other => (plainUtc table other).bind fun utc => some (occurrenceKey false utc)

def plainRecurrenceKey (table : ZoneTable) (e : VEventFields) : Option (Option Text) :=
  match e.recurrenceId with
  | some rid => (plainKey table rid).bind fun key => some (some key)
  | none => some e.recurrenceIdRaw

def plainEvent (table : ZoneTable) (e : VEventFields) (calendarId : Text) : Option CalendarEvent :=
  match e.uid with
  | none => none
  | some uid =>
    (plainTimes table e).bind fun times =>
      (plainRecurrenceKey table e).bind fun rid =>
        let id := calendarId ++ [':'] ++ uid ++ rid.elim [] fun rid => ':' :: rid
        some (e.occurrence id uid calendarId none times.1 times.2.1 times.2.2)

def plainFirstOccurrence (table : ZoneTable) (e : VEventFields) (calendarId : Text) (overridden : List Text) :
    Option CalendarEvent :=
  (plainEvent table e calendarId).bind fun event =>
    (plainAll table e.exdates).bind fun excluded =>
      let moved := overridden.contains (occurrenceKey event.allDay event.start)
      if !excluded.contains event.start && !moved then some event else none

/-- The occurrences with an event of their own. -/
def plainOverrides (table : ZoneTable) : List VEventFields → Overrides → Overrides
  | [], overrides => overrides
  | e :: rest, overrides =>
    match e.uid, e.recurrenceId with
    | some uid, some rid =>
      match plainKey table rid with
      | some key => plainOverrides table rest { overrides with keys := overrides.keys ++ [(uid, key)] }
      | none => plainOverrides table rest { overrides with unresolved := uid :: overrides.unresolved }
    | _, _ => plainOverrides table rest overrides

def supported (formats : Formats) (e : VEventFields) : Bool := !(e.rrule.map (Rule.parse formats)).any Option.isNone

def ruleOf (formats : Formats) (e : VEventFields) : Option Rule := (e.rrule.map (Rule.parse formats)).getD none

/-- What an event of a document means. -/
def plainRead (formats : Formats) (table : ZoneTable) (calendarId : Text) (etag : Option Text) (overrides : Overrides)
    (expansion : Expansion) (e : VEventFields) : List CalendarEvent :=
  match e.seriesUid with
  | none => ((plainEvent table e calendarId).map fun event => { event with etag := etag }).toList
  | some uid =>
    if overrides.unresolved.contains uid then []
    else if supported formats e then
      plainExpand table e (ruleOf formats e) calendarId etag (overrides.of uid) expansion
    else
      ((plainFirstOccurrence table e calendarId (overrides.of uid)).map fun event => { event with etag := etag }).toList

def plainDocument (formats : Formats) (doc : Document) (calendarId : Text) (etag : Option Text)
    (expansion : Expansion) : List CalendarEvent :=
  let overrides := plainOverrides doc.zones.byId doc.events ⟨[], []⟩
  doc.events.flatMap (plainRead formats doc.zones.byId calendarId etag overrides expansion)

/-! ## Conversions -/

theorem converts_key (zones : Zones) (time : IcsTime) : Converts zones (time.key zones) (plainKey zones.byId time) := by
  unfold IcsTime.key plainKey
  cases time with
  | date d => exact Converts.done zones _
  | utc t => exact (converts_utc zones (.utc t)).andThen fun zones' _ _ => Converts.done zones' _
  | wall t zone => exact (converts_utc zones (.wall t zone)).andThen fun zones' _ _ => Converts.done zones' _

theorem converts_recurrenceKey (e : VEventFields) (zones : Zones) :
    Converts zones (e.recurrenceKey zones) (plainRecurrenceKey zones.byId e) := by
  unfold VEventFields.recurrenceKey plainRecurrenceKey
  cases e.recurrenceId with
  | none => exact Converts.done zones _
  | some rid => exact (converts_key zones rid).andThen fun zones' _ _ => Converts.done zones' _

theorem converts_event (e : VEventFields) (calendarId : Text) (zones : Zones) :
    Converts zones (e.event calendarId zones) (plainEvent zones.byId e calendarId) := by
  unfold VEventFields.event plainEvent
  cases e.uid with
  | none => exact Converts.done zones _
  | some uid =>
    refine (converts_times e zones).andThen fun zones' times hzones => ?_
    rw [← hzones]
    exact (converts_recurrenceKey e zones').andThen fun zones'' _ _ => Converts.done zones'' _

theorem converts_firstOccurrence (e : VEventFields) (calendarId : Text) (zones : Zones) (overridden : List Text) :
    Converts zones (e.firstOccurrence calendarId zones overridden)
      (plainFirstOccurrence zones.byId e calendarId overridden) := by
  unfold VEventFields.firstOccurrence plainFirstOccurrence
  refine (converts_event e calendarId zones).andThen fun zones' event hzones => ?_
  rw [← hzones]
  exact (converts_convertAll zones' e.exdates).andThen fun zones'' _ _ => Converts.done zones'' _

theorem converts_collectOverrides (events : List VEventFields) (zones : Zones) (overrides : Overrides) :
    (collectOverrides events zones overrides).1.byId = zones.byId ∧
      ((collectOverrides events zones overrides).1.exhausted = false → zones.exhausted = false ∧
        (collectOverrides events zones overrides).2 = plainOverrides zones.byId events overrides) := by
  induction events generalizing zones overrides with
  | nil => exact ⟨rfl, fun h => ⟨h, rfl⟩⟩
  | cons e rest ih =>
    unfold collectOverrides plainOverrides
    cases huid : e.uid with
    | none => exact ih zones overrides
    | some uid =>
      cases hrid : e.recurrenceId with
      | none => exact ih zones overrides
      | some rid =>
        have hkey := converts_key zones rid
        dsimp only
        cases hresult : rid.key zones with
        | mk zones' key =>
          rw [hresult] at hkey
          cases key with
          | none =>
            obtain ⟨hbyId, hrest⟩ := ih zones' { overrides with unresolved := uid :: overrides.unresolved }
            refine ⟨hbyId.trans hkey.byId, fun hdone => ?_⟩
            obtain ⟨hzones', heq⟩ := hrest hdone
            obtain ⟨hzones, hplain⟩ := hkey.result hzones'
            rw [← hplain]
            exact ⟨hzones, heq.trans (congrArg (fun table => plainOverrides table rest _) hkey.byId)⟩
          | some key =>
            obtain ⟨hbyId, hrest⟩ := ih zones' { overrides with keys := overrides.keys ++ [(uid, key)] }
            refine ⟨hbyId.trans hkey.byId, fun hdone => ?_⟩
            obtain ⟨hzones', heq⟩ := hrest hdone
            obtain ⟨hzones, hplain⟩ := hkey.result hzones'
            rw [← hplain]
            exact ⟨hzones, heq.trans (congrArg (fun table => plainOverrides table rest _) hkey.byId)⟩

/-! ## Events -/

/-- No budget has run out. -/
def WholeReading (r : Reading) : Prop := r.expansion.truncated = false ∧ r.zones.exhausted = false

/-- Reading goes on in the same zones and the same window, and the budgets do not come back. -/
structure CarriesOn (r r' : Reading) : Prop where
  byId : r'.zones.byId = r.zones.byId
  window : SameWindow r.expansion r'.expansion
  whole : WholeReading r' → WholeReading r

theorem CarriesOn.refl (r : Reading) : CarriesOn r r := ⟨rfl, ⟨rfl, rfl⟩, id⟩

theorem CarriesOn.trans {a b c : Reading} (h : CarriesOn a b) (h' : CarriesOn b c) : CarriesOn a c :=
  ⟨h'.byId.trans h.byId, h.window.trans h'.window, fun hc => h.whole (h'.whole hc)⟩

/-- Reading on has found these events, in some order, if no budget has run out. -/
structure Finds (r r' : Reading) (found : List CalendarEvent) : Prop extends CarriesOn r r' where
  events : WholeReading r' → r'.events.Perm (r.events ++ found)

theorem Finds.nothing (r : Reading) : Finds r r [] := ⟨CarriesOn.refl r, fun _ => by rw [List.append_nil]⟩

theorem Finds.trans {a b c : Reading} {found found' : List CalendarEvent} (h : Finds a b found)
    (h' : Finds b c found') : Finds a c (found ++ found') := by
  refine ⟨h.toCarriesOn.trans h'.toCarriesOn, fun hc => ?_⟩
  rw [← List.append_assoc]
  exact (h'.events hc).trans ((h.events (h'.whole hc)).append_right _)

theorem finds_add {r : Reading} {converted : Converted CalendarEvent} {plain : Option CalendarEvent}
    (h : Converts r.zones converted plain) :
    Finds r (r.add etag converted) (plain.map fun event => { event with etag := etag }).toList := by
  obtain ⟨zones', result⟩ := converted
  unfold Reading.add
  cases result with
  | none =>
    refine ⟨⟨h.byId, ⟨rfl, rfl⟩, fun hwhole => ⟨hwhole.1, (h.result hwhole.2).1⟩⟩, fun hwhole => ?_⟩
    rw [← (h.result hwhole.2).2, Option.map_none, Option.toList_none, List.append_nil]
  | some event =>
    refine ⟨⟨h.byId, window_take _ _, fun hwhole => ⟨(take_truncated hwhole.1).1, (h.result hwhole.2).1⟩⟩,
      fun hwhole => ?_⟩
    have htaken := (take_truncated hwhole.1).2
    rw [← (h.result hwhole.2).2, Option.map_some, Option.toList_some]
    unfold pushEvent
    dsimp only
    rw [htaken, if_pos rfl]

theorem finds_noteUnexpanded (r : Reading) (uid label : Text) :
    Finds r { r with expansion := r.expansion.noteUnexpanded uid label } [] := by
  unfold Expansion.noteUnexpanded
  split
  · exact Finds.nothing r
  · exact ⟨⟨rfl, ⟨rfl, rfl⟩, id⟩, fun _ => by rw [List.append_nil]⟩

/-- What an expansion that was not cut short keeps. -/
theorem expand_keeps (hwhole : (e.expand rrule calendarId etag overridden zones expansion).2.1.truncated = false)
    (hzones : (e.expand rrule calendarId etag overridden zones expansion).1.exhausted = false) :
    (e.expand rrule calendarId etag overridden zones expansion).1.byId = zones.byId ∧ zones.exhausted = false ∧
      SameWindow expansion (e.expand rrule calendarId etag overridden zones expansion).2.1 ∧
      expansion.truncated = false := by
  unfold VEventFields.expand at hwhole hzones ⊢
  have htimes := converts_times e zones
  cases hresult : e.times zones with
  | mk zones' times =>
    rw [hresult] at htimes hwhole hzones
    cases times with
    | none => exact ⟨htimes.byId, (htimes.result hzones).1, ⟨rfl, rfl⟩, hwhole⟩
    | some times =>
      dsimp only at hwhole hzones ⊢
      cases huid : e.uid with
      | none =>
        rw [huid] at hwhole hzones
        exact ⟨htimes.byId, (htimes.result hzones).1, ⟨rfl, rfl⟩, hwhole⟩
      | some uid =>
        cases hstart : e.start with
        | none =>
          rw [huid, hstart] at hwhole hzones
          exact ⟨htimes.byId, (htimes.result hzones).1, ⟨rfl, rfl⟩, hwhole⟩
        | some startTime =>
          rw [huid, hstart] at hwhole hzones
          dsimp only at hwhole hzones ⊢
          have hall := converts_convertAll zones' e.exdates
          change Converts zones' (e.excluded zones') _ at hall
          cases hexcluded : e.excluded zones' with
          | mk zones'' excluded =>
            rw [hexcluded] at hall hwhole hzones
            cases excluded with
            | none =>
              have hzones' := (hall.result hzones).1
              exact ⟨hall.byId.trans htimes.byId, (htimes.result hzones').1, ⟨rfl, rfl⟩, hwhole⟩
            | some excluded =>
              dsimp only at hwhole hzones ⊢
              have hextends := @extends_expandSeries (e.seriesOf uid calendarId etag overridden expansion times excluded)
                ⟨zones'', expansion, []⟩ startTime times.1 e rrule ⟨hwhole, hzones⟩
              have hbegun := hextends.whole ⟨hwhole, hzones⟩
              have hzones' := (hall.result hbegun.2).1
              exact ⟨hextends.byId.trans (hall.byId.trans htimes.byId), (htimes.result hzones').1, hextends.window,
                hbegun.1⟩

theorem plainExpand_congr {expansion' : Expansion} (h : SameWindow expansion expansion') (table : ZoneTable)
    (e : VEventFields) (rrule : Option Rule) (calendarId : Text) (etag : Option Text) (overridden : List Text) :
    plainExpand table e rrule calendarId etag overridden expansion' =
      plainExpand table e rrule calendarId etag overridden expansion := by
  unfold plainExpand VEventFields.seriesOf
  rw [h.1, h.2]

variable {formats : Formats} {overrides : Overrides}

theorem plainRead_congr {expansion' : Expansion} (h : SameWindow expansion expansion') (e : VEventFields) :
    plainRead formats table calendarId etag overrides expansion' e =
      plainRead formats table calendarId etag overrides expansion e := by
  unfold plainRead
  cases e.seriesUid with
  | none => rfl
  | some uid =>
    dsimp only
    rw [plainExpand_congr h]

/-- The conversions of a series that the document gives a rule for are non-decreasing. -/
def Steady (formats : Formats) (table : ZoneTable) (e : VEventFields) : Prop :=
  e.seriesUid.isSome = true → supported formats e = true →
    ∀ startTime, e.start = some startTime → NonDecreasing table (ruleOf formats e) startTime

/-- Two days past the window are still dates. -/
def Margin (expansion : Expansion) : Prop := (expansion.stop.checkedAddSigned (days 2)).isSome = true

/-- An event that was read whole finds what it means. -/
theorem readEvent_finds {r : Reading} {e : VEventFields}
    (hwhole : WholeReading (readEvent formats calendarId etag overrides r e)) :
    CarriesOn r (readEvent formats calendarId etag overrides r e) ∧
      (Margin r.expansion → Steady formats r.zones.byId e →
        (readEvent formats calendarId etag overrides r e).events.Perm
          (r.events ++ plainRead formats r.zones.byId calendarId etag overrides r.expansion e)) := by
  have hfound {r' : Reading} {found : List CalendarEvent} {steady : Prop} (h : Finds r r' found)
      (hr' : WholeReading r') :
      CarriesOn r r' ∧ (Margin r.expansion → steady → r'.events.Perm (r.events ++ found)) :=
    ⟨h.toCarriesOn, fun _ _ => h.events hr'⟩
  unfold Steady readEvent at *
  unfold plainRead
  cases huid : e.seriesUid with
  | none =>
    rw [huid] at hwhole
    exact hfound (finds_add (converts_event e calendarId r.zones)) hwhole
  | some uid =>
    rw [huid] at hwhole
    dsimp only at hwhole ⊢
    by_cases hunsupported : (e.rrule.map (Rule.parse formats)).any Option.isNone = true
    · have hnot : supported formats e = false := by rw [supported, hunsupported]; rfl
      rw [if_pos hunsupported, if_pos hunsupported] at hwhole ⊢
      rw [hnot, if_neg Bool.false_ne_true]
      have hnoted := finds_noteUnexpanded r uid e.label
      by_cases hunresolved : overrides.unresolved.contains uid = true
      · rw [if_pos hunresolved] at hwhole ⊢
        rw [if_pos hunresolved]
        exact hfound hnoted hwhole
      · rw [if_neg hunresolved] at hwhole ⊢
        rw [if_neg hunresolved, ← List.nil_append (Option.toList _)]
        exact hfound (hnoted.trans (finds_add (converts_firstOccurrence e calendarId _ _))) hwhole
    · have hsupported : supported formats e = true := by rw [supported, Bool.eq_false_iff.mpr hunsupported]; rfl
      rw [if_neg hunsupported, if_neg hunsupported] at hwhole ⊢
      by_cases hunresolved : overrides.unresolved.contains uid = true
      · rw [if_pos hunresolved] at hwhole ⊢
        rw [if_pos hunresolved]
        exact hfound (Finds.nothing r) hwhole
      · rw [if_neg hunresolved] at hwhole ⊢
        rw [if_neg hunresolved, if_pos hsupported]
        obtain ⟨hbyId, hzones, hwindow, htruncated⟩ := expand_keeps hwhole.1 hwhole.2
        refine ⟨⟨hbyId, hwindow, fun _ => ⟨htruncated, hzones⟩⟩, fun hmargin hsteady => ?_⟩
        refine List.Perm.append_left _ ?_
        exact (expand_perm_iff hwhole.1 hwhole.2 (hsteady rfl hsupported)).mpr
          (broughtBack_of_range hmargin _ _ _ _ _ _)

theorem carriesOn_readEvents {events : List VEventFields} {r : Reading}
    (hwhole : WholeReading (events.foldl (readEvent formats calendarId etag overrides) r)) :
    CarriesOn r (events.foldl (readEvent formats calendarId etag overrides) r) := by
  induction events generalizing r with
  | nil => exact CarriesOn.refl r
  | cons e rest ih =>
    have hrest := ih hwhole
    exact (readEvent_finds (hrest.whole hwhole)).1.trans hrest

/-- Events that were read whole find what they mean, one after the other. -/
theorem readEvents_find {events : List VEventFields} {r : Reading}
    (hwhole : WholeReading (events.foldl (readEvent formats calendarId etag overrides) r))
    (hmargin : Margin r.expansion) (hsteady : ∀ e ∈ events, Steady formats r.zones.byId e) :
    (events.foldl (readEvent formats calendarId etag overrides) r).events.Perm
      (r.events ++ events.flatMap (plainRead formats r.zones.byId calendarId etag overrides r.expansion)) := by
  induction events generalizing r with
  | nil => rw [List.flatMap_nil, List.append_nil]; rfl
  | cons e rest ih =>
    rw [List.foldl_cons] at hwhole ⊢
    obtain ⟨hcarries, hevent⟩ := readEvent_finds ((carriesOn_readEvents hwhole).whole hwhole)
    have hrest := ih hwhole
    unfold Margin at hrest hmargin
    rw [hcarries.byId, hcarries.window.2] at hrest
    have hfound := hrest hmargin fun e' he' => hsteady e' (List.mem_cons_of_mem e he')
    have hread := hevent hmargin (hsteady e List.mem_cons_self)
    have hlater : plainRead formats r.zones.byId calendarId etag overrides
        (readEvent formats calendarId etag overrides r e).expansion =
          plainRead formats r.zones.byId calendarId etag overrides r.expansion :=
      funext fun e' => plainRead_congr hcarries.window e'
    rw [hlater] at hfound
    rw [List.flatMap_cons, ← List.append_assoc]
    exact hfound.trans (hread.append_right _)

/-! ## Documents -/

/-- The events of a document that was read whole are what its VEVENTs mean. -/
theorem expandDocument_exact {doc : Document}
    (hwhole : (expandDocument formats doc calendarId etag expansion).2.truncated = false) (hmargin : Margin expansion)
    (hsteady : ∀ e ∈ doc.events, Steady formats doc.zones.byId e) :
    (expandDocument formats doc calendarId etag expansion).1.Perm
      (plainDocument formats doc calendarId etag expansion) := by
  obtain ⟨hbyId, hoverrides⟩ :=
    converts_collectOverrides doc.events { doc.zones with stepsLeft := expansion.zoneStepsLeft } ⟨[], []⟩
  unfold expandDocument at hwhole ⊢
  unfold plainDocument
  dsimp only at hwhole hbyId hoverrides ⊢
  generalize collectOverrides doc.events { doc.zones with stepsLeft := expansion.zoneStepsLeft } ⟨[], []⟩ = collected at *
  have hread := Bool.or_eq_false_iff.mp hwhole
  obtain ⟨-, hplain⟩ := hoverrides ((carriesOn_readEvents hread).whole hread).2
  have hevents := readEvents_find hread hmargin fun e he => hbyId ▸ hsteady e he
  rw [List.nil_append, hbyId, hplain] at hevents
  rw [hplain]
  exact hevents

/-- Midnight in the zone, on a day of 2026. -/
def midnightOf (day : Int) (hday : minDay ≤ yearStart 2026 + day ∧ yearStart 2026 + day ≤ maxDay) : IcsTime :=
  .wall ⟨⟨yearStart 2026 + day, hday⟩, NaiveTime.midnight⟩ (some "East".toList)

def backup : VEventFields :=
  { rareEvent with
    uid := some "backup".toList
    start := some (midnightOf 4 (by decide))
    rrule := some "FREQ=WEEKLY;COUNT=4".toList }

/-- The second of them is a day later. -/
def movedBackup : VEventFields :=
  { backup with
    rrule := none
    start := some (midnightOf 12 (by decide))
    recurrenceId := some (midnightOf 11 (by decide)) }

def release : VEventFields :=
  { rareEvent with uid := some "release".toList, start := some (midnightOf 20 (by decide)), rrule := none }

/-- A rule that is not supported. -/
def probes : VEventFields :=
  { rareEvent with
    uid := some "probes".toList
    start := some (midnightOf 5 (by decide))
    rrule := some "FREQ=HOURLY".toList }

def january : Document := ⟨[backup, release, movedBackup, probes], false, easternZones⟩

def januaryOf2026 : Expansion :=
  Expansion.new ⟨⟨yearStart 2026, by decide⟩, NaiveTime.midnight⟩ ⟨⟨yearStart 2026 + 31, by decide⟩, NaiveTime.midnight⟩

def noFormats : Formats := ⟨fun _ => none, fun _ => none⟩

theorem steady_backup : Steady noFormats easternZones.byId backup := by
  rintro - - startTime hstart rule hrule
  cases hstart
  have hall : (ruleOf noFormats backup).all (fun rule => decide ((plainRule easternZones.byId rule
      (VEventFields.anchorOf (midnightOf 4 (by decide))).1
      (VEventFields.anchorOf (midnightOf 4 (by decide))).2).Pairwise (· ≤ ·))) = true := by decide +kernel
  exact of_decide_eq_true ((Option.all_eq_true _ _).mp hall rule hrule)

theorem expandDocument_exact_january :
    (expandDocument noFormats january "cal".toList none januaryOf2026).1.Perm
        (plainDocument noFormats january "cal".toList none januaryOf2026) ∧
      (expandDocument noFormats january "cal".toList none januaryOf2026).1.length = 6 := by
  refine ⟨expandDocument_exact (by decide +kernel) (by unfold Margin; decide +kernel) ?_, by decide +kernel⟩
  intro e he
  obtain rfl | rfl | rfl | rfl : e = backup ∨ e = release ∨ e = movedBackup ∨ e = probes := by simpa [january] using he
  · exact steady_backup
  · exact fun h => absurd h (by decide)
  · exact fun h => absurd h (by decide)
  · exact fun _ h => absurd h (by decide +kernel)

end IcsDocuments
