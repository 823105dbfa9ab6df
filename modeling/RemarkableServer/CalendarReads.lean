import Mathlib.Data.List.Dedup
import RemarkableServer.CalendarRuns
import RemarkableServer.Lib.StableSort

/-!
# Reading what a sync brought

After a complete sync the events of its window are those of the answer, for as long as
nothing else is done to the calendar. The events of all calendars are merged from the
first few of each.
-/
namespace CalendarStore

open RustText Chrono StoredTimes Tables Unwinding
open CalDav (CalendarError Fetched)

/-! ## The rows of a snapshot -/

/-- The last event under each id. -/
def lastOfEach (events : List CalendarEvent) : List CalendarEvent :=
  (events.map (·.id)).dedup.filterMap fun id => events.reverse.find? (·.id = id)

theorem mem_lastOfEach {events : List CalendarEvent} {e : CalendarEvent} :
    e ∈ lastOfEach events ↔ events.reverse.find? (·.id = e.id) = some e := by
  rw [lastOfEach, List.mem_filterMap]
  constructor
  · rintro ⟨id, -, hfind⟩
    obtain rfl : e.id = id := by simpa using List.find?_some hfind
    exact hfind
  · intro hfind
    refine ⟨e.id, ?_, hfind⟩
    rw [List.mem_dedup]
    exact List.mem_map_of_mem (List.mem_reverse.mp (List.mem_of_find?_eq_some hfind))

theorem nodup_lastOfEach (events : List CalendarEvent) : (lastOfEach events).Nodup := by
  apply List.Nodup.filterMap _ (List.nodup_dedup _)
  intro a b e ha hb
  have hea : e.id = a := by simpa using List.find?_some ha
  have heb : e.id = b := by simpa using List.find?_some hb
  rw [← hea, ← heb]

theorem mem_of_mem_lastOfEach {events : List CalendarEvent} {e : CalendarEvent} (h : e ∈ lastOfEach events) : e ∈ events :=
  List.mem_reverse.mp (List.mem_of_find?_eq_some (mem_lastOfEach.mp h))

theorem inRange_stored {c : Text} {a b : NaiveDateTime} (ha : FourDigits a) (hb : FourDigits b) {e : CalendarEvent}
    (hcal : e.calendarId = c) (he : FourDigits e.start) :
    Manager.inRange c (stored a) (stored b) (eventRow e) = true ↔ a ≤ e.start ∧ e.start ≤ b := by
  have hbefore := TimeTest.notBefore.holds_stored he ha
  have hafter := TimeTest.notAfter.holds_stored he hb
  simp only [Manager.inRange, eventRow, hcal, hbefore, hafter]
  simp [TimeTest.holds]

/-- A part of a range is in it, whatever the rows hold. -/
theorem inRange_mono {c : Text} {start stop a b : NaiveDateTime} (hstart : FourDigits start) (hstop : FourDigits stop)
    (ha : FourDigits a) (hb : FourDigits b) (hle : start ≤ a) (hle' : b ≤ stop) {row : EventRow}
    (h : Manager.inRange c (stored a) (stored b) row = true) : Manager.inRange c (stored start) (stored stop) row = true := by
  have hbefore : ¬stored a < stored start := by
    rw [stored_lt_iff ha hstart]
    exact not_lt.mpr hle
  have hafter : ¬stored stop < stored b := by
    rw [stored_lt_iff hstop hb]
    exact not_lt.mpr hle'
  simp only [Manager.inRange, TimeTest.holds, Bool.and_eq_true, Bool.not_eq_true', decide_eq_false_iff_not] at h ⊢
  exact ⟨⟨h.1.1, fun hlt => hbefore (List.lt_of_le_of_lt h.1.2 hlt)⟩, fun hlt => h.2 (List.lt_of_le_of_lt hafter hlt)⟩

/-- After a snapshot, a part of its range has the events of it that start there, and no others. -/
theorem lookup_replaceRows {c : Text} {start stop a b : NaiveDateTime} (hstart : FourDigits start) (hstop : FourDigits stop)
    (ha : FourDigits a) (hb : FourDigits b) (hle : start ≤ a) (hle' : b ≤ stop) {snapshot : List CalendarEvent}
    (hsnapshot : ∀ e ∈ snapshot, e.calendarId = c ∧ Timely e) (events : Table Text EventRow) (k : Text) (row : EventRow) :
    ((Manager.replaceRows c start stop snapshot events).lookup k = some row ∧
        Manager.inRange c (stored a) (stored b) row = true) ↔
      ∃ e ∈ lastOfEach snapshot, e.id = k ∧ eventRow e = row ∧ a ≤ e.start ∧ e.start ≤ b := by
  rw [Manager.replaceRows, lookup_foldl_erase]
  constructor
  · rintro ⟨hrow, hrange⟩
    split at hrow
    · cases hrow
    next hstale =>
      have hupserted := hrow
      rw [lookup_foldl_upsert] at hrow
      cases hfind : snapshot.reverse.find? (·.id = k) with
      | some e =>
        obtain rfl : e.id = k := by simpa using List.find?_some hfind
        obtain rfl : eventRow e = row := by simpa [hfind] using hrow
        have hmem := mem_lastOfEach.mpr hfind
        obtain ⟨hcal, htimes⟩ := hsnapshot e (mem_of_mem_lastOfEach hmem)
        exact ⟨e, hmem, rfl, rfl, (inRange_stored ha hb hcal htimes.start).mp hrange⟩
      | none =>
        -- A row of the range that the snapshot lacks is stale.
        refine absurd ?_ hstale
        rw [Manager.staleIds, List.mem_filter]
        refine ⟨mem_idsInRange.mpr ⟨row, hupserted, inRange_mono hstart hstop ha hb hle hle' hrange⟩, ?_⟩
        have hnone : ∀ e ∈ snapshot, e.id ≠ k := by simpa using hfind
        simpa using hnone
  · rintro ⟨e, hmem, rfl, rfl, hrange⟩
    obtain ⟨hcal, htimes⟩ := hsnapshot e (mem_of_mem_lastOfEach hmem)
    refine ⟨?_, (inRange_stored ha hb hcal htimes.start).mpr hrange⟩
    rw [if_neg, lookup_foldl_upsert, mem_lastOfEach.mp hmem]
    · rfl
    · intro hstale
      have hlacks := (List.mem_filter.mp hstale).2
      simp [List.mem_map_of_mem (f := fun e : CalendarEvent => e.id) (mem_of_mem_lastOfEach hmem)] at hlacks

/-- What is read of a range after a snapshot: the events of it that start there, by their times. -/
structure ReadsSnapshot (snapshot : List CalendarEvent) (a b : NaiveDateTime) (full : List CalendarEvent) : Prop where
  perm : full.Perm ((lastOfEach snapshot).filter fun e => a ≤ e.start ∧ e.start ≤ b)
  sorted : full.Pairwise fun e f => e.start ≤ f.start

theorem byTime_sorted {R : Type} (rows : List (Timed R Bytes)) : (byTime rows).Pairwise fun r s => ¬s.time < r.time := by
  have htrans (r s t : Timed R Bytes) (hrs : (!decide (s.time < r.time)) = true) (hst : (!decide (t.time < s.time)) = true) :
      (!decide (t.time < r.time)) = true := by
    simp only [Bool.not_eq_true', decide_eq_false_iff_not] at *
    exact List.le_trans hrs hst
  have htotal (r s : Timed R Bytes) : ((!decide (s.time < r.time)) || !decide (r.time < s.time)) = true := by
    simp only [Bool.or_eq_true, Bool.not_eq_true', decide_eq_false_iff_not]
    exact List.le_total _ _
  exact (List.pairwise_mergeSort htrans htotal rows).imp fun h => by simpa using h

theorem readsSnapshot_replaceRows (reader : TimeReader) (now : NaiveDateTime) {c : Text} {start stop a b : NaiveDateTime}
    (hstart : FourDigits start) (hstop : FourDigits stop) (ha : FourDigits a) (hb : FourDigits b) (hle : start ≤ a) (hle' : b ≤ stop)
    {snapshot : List CalendarEvent} (hsnapshot : ∀ e ∈ snapshot, e.calendarId = c ∧ Timely e) {m : Manager}
    {events : Table Text EventRow} (hm : m.events = Manager.replaceRows c start stop snapshot events) :
    ReadsSnapshot snapshot a b (m.selectEvents reader now c a b) := by
  rw [Manager.selectEvents, hm]
  let rows := (Manager.replaceRows c start stop snapshot events).entries.filter fun e => Manager.inRange c (stored a) (stored b) e.2
  have hlookup := lookup_replaceRows hstart hstop ha hb hle hle' hsnapshot events
  have hrows : ∀ k row, (⟨k, row⟩ : Sigma fun _ : Text => EventRow) ∈ rows ↔
      ∃ e ∈ lastOfEach snapshot, e.id = k ∧ eventRow e = row ∧ a ≤ e.start ∧ e.start ≤ b := by
    intro k row
    rw [List.mem_filter, mem_entries_iff]
    exact hlookup k row
  have hevent : ∀ e ∈ lastOfEach snapshot, mapEvent reader now e.id (eventRow e) = e := fun e he =>
    mapEvent_eventRow reader now (hsnapshot e (mem_of_mem_lastOfEach he)).2
  have hperm : (byTime (rows.map fun e => Timed.mk e e.2.startTime)).Perm (rows.map fun e => Timed.mk e e.2.startTime) :=
    List.mergeSort_perm _ _
  have hmem : ∀ r ∈ byTime (rows.map fun e => Timed.mk e e.2.startTime), ∃ e ∈ lastOfEach snapshot,
      r = ⟨⟨e.id, eventRow e⟩, stored e.start⟩ := by
    intro r hr
    obtain ⟨⟨k, row⟩, hrow, rfl⟩ := List.mem_map.mp (hperm.subset hr)
    obtain ⟨e, he, rfl, rfl, -⟩ := (hrows k row).mp hrow
    exact ⟨e, he, rfl⟩
  constructor
  · refine (hperm.map _).trans ?_
    rw [List.map_map]
    apply (List.perm_ext_iff_of_nodup ?_ ((nodup_lastOfEach snapshot).filter _)).mpr
    · intro e
      simp only [List.mem_map, Function.comp_apply, List.mem_filter, decide_eq_true_eq]
      constructor
      · rintro ⟨⟨k, row⟩, hrow, rfl⟩
        obtain ⟨f, hf, rfl, rfl, hrange⟩ := (hrows k row).mp hrow
        rw [hevent f hf]
        exact ⟨hf, hrange⟩
      · rintro ⟨he, hrange⟩
        exact ⟨⟨e.id, eventRow e⟩, (hrows _ _).mpr ⟨e, he, rfl, rfl, hrange⟩, hevent e he⟩
    · have hkeys : (rows.map Sigma.fst).Nodup :=
        (Manager.replaceRows c start stop snapshot events).nodupKeys.sublist List.filter_sublist
      apply List.Nodup.of_map (fun e : CalendarEvent => e.id)
      rw [List.map_map]
      exact hkeys
  · have hsorted := byTime_sorted (rows.map fun e => Timed.mk e e.2.startTime)
    rw [List.pairwise_map]
    refine hsorted.imp_of_mem ?_
    intro r s hr hs hlt
    obtain ⟨e, he, rfl⟩ := hmem r hr
    obtain ⟨f, hf, rfl⟩ := hmem s hs
    rw [hevent e he, hevent f hf]
    have hte := (hsnapshot e (mem_of_mem_lastOfEach he)).2.start
    have htf := (hsnapshot f (mem_of_mem_lastOfEach hf)).2.start
    rw [stored_lt_iff htf hte] at hlt
    exact not_lt.mp hlt

/-! ## A sync and what is read after it -/

theorem errorText_eq_nil {α : Type} {prefixed : Text} {r : Except CalendarError α} (h : errorText prefixed r = []) :
    ∃ a, r = .ok a := by
  cases r with
  | ok a => exact ⟨a, rfl⟩
  | error e => cases h

theorem updateConfig_ok {m : Manager} {id : Text} {config : CalendarConfig} {failure : Option Text} {a : Unit}
    (h : (m.updateConfig id config failure).1 = .ok a) : failure = none := by
  cases failure with
  | none => rfl
  | some e => cases h

theorem setLastSync_ok {m : Manager} {id : Text} {time : NaiveDateTime} {failure : Option Text} {a : Unit}
    (h : (m.setLastSync id time failure).1 = .ok a) : failure = none := by
  cases failure with
  | none => rfl
  | some e => cases h

theorem replaceEventsInRange_ok {m : Manager} {id : Text} {start stop : NaiveDateTime} {events : List CalendarEvent}
    {failure : Option Text} {a : Nat × Nat} (h : (m.replaceEventsInRange id start stop events failure).1 = .ok a) :
    failure = none ∧ (m.cached.lookup id).isSome = true := by
  cases hcached : m.cached.lookup id with
  | none => simp [Manager.replaceEventsInRange, hcached] at h
  | some calendar =>
    cases failure with
    | none => exact ⟨rfl, rfl⟩
    | some e => simp [Manager.replaceEventsInRange, hcached] at h

/-- A complete sync that succeeds has saved its credentials, the events and the time. -/
theorem storeFetched_success (reader : TimeReader) {m : Manager} {calendar : Calendar} {config : CalendarConfig}
    {start stop now : NaiveDateTime} {snapshot : List CalendarEvent} {warnings : List Text} {failures : SyncFailures}
    (h : (storeFetched m calendar config start stop now (.ok ⟨snapshot, none, warnings⟩) failures).1.success = true) :
    ∃ before, (before = [] ∨ before = [.updateConfig calendar.id config none]) ∧
      ((run reader before m).cached.lookup calendar.id).isSome = true ∧
      (storeFetched m calendar config start stop now (.ok ⟨snapshot, none, warnings⟩) failures).2 =
        run reader (before ++ [.replaceEventsInRange calendar.id start stop snapshot none, .setLastSync calendar.id now none]) m := by
  obtain ⟨saved, hsaved⟩ : ∃ saved, saved =
      if config ≠ calendar.config then m.updateConfig calendar.id config failures.config else (.ok (), m) := ⟨_, rfl⟩
  simp only [storeFetched, storeEvents, ← hsaved, SyncResponse.new] at h ⊢
  have hnil : ∀ errors : List Text, (if errors.isEmpty then none else some (CalDav.intercalate "; ".toList errors)).isNone = true →
      errors = [] := by
    intro errors herrors
    cases errors <;> simp at herrors ⊢
  have herrors := hnil _ h
  simp only [List.append_eq_nil_iff] at herrors
  obtain ⟨⟨⟨hconfig, hreplace⟩, htime⟩, -⟩ := herrors
  simp only [hconfig, hreplace, List.append_nil, List.isEmpty_nil, if_true] at htime ⊢
  obtain ⟨⟨⟩, hconfig⟩ := errorText_eq_nil hconfig
  obtain ⟨counts, hreplace⟩ := errorText_eq_nil hreplace
  obtain ⟨⟨⟩, htime⟩ := errorText_eq_nil htime
  obtain ⟨hevents, hcached⟩ := replaceEventsInRange_ok hreplace
  rw [hevents, setLastSync_ok htime]
  by_cases hchanged : config ≠ calendar.config
  · rw [if_pos hchanged] at hsaved
    rw [hsaved] at hconfig
    have hsome := updateConfig_ok hconfig
    rw [hsome] at hsaved
    refine ⟨[.updateConfig calendar.id config none], .inr rfl, ?_, ?_⟩
    · simpa [run, step, hsaved] using hcached
    · simp [run, step, hsaved]
  · rw [if_neg hchanged] at hsaved
    refine ⟨[], .inl rfl, ?_, ?_⟩
    · simpa [run, hsaved] using hcached
    · simp [run, step, hsaved]

/-- Operations of others and restarts leave a calendar as it is. -/
theorem view_run_others (reader : TimeReader) {m : Manager} (howned : Owned m.events) (hmirrored : Mirrored reader m) {c : Text}
    {ops : List Op} (hproper : ∀ op ∈ ops, op.Proper) (htime : ∀ op ∈ ops, ∀ t ∈ op.syncTime, FourDigits t)
    (hothers : ∀ op ∈ ops, op.calendar ≠ some c) : view c (run reader ops m) = view c m := by
  induction ops generalizing m with
  | nil => rfl
  | cons op ops ih =>
    have hop := hproper op List.mem_cons_self
    have hrest : view c (run reader ops (step reader m op)) = view c (step reader m op) := by
      apply ih (owned_step reader howned hop) (mirrored_step reader hmirrored (htime op List.mem_cons_self))
      · exact fun op' hop' => hproper op' (List.mem_cons_of_mem op hop')
      · exact fun op' hop' => htime op' (List.mem_cons_of_mem op hop')
      · exact fun op' hop' => hothers op' (List.mem_cons_of_mem op hop')
    refine hrest.trans ?_
    cases hcalendar : op.calendar with
    | none =>
      cases op with
      | restart => exact view_restart hmirrored c
      | _ => cases hcalendar
    | some d =>
      apply view_step_other reader howned hop
      exact concerns_iff.mpr ⟨d, hcalendar, fun he => hothers op List.mem_cons_self (he ▸ hcalendar)⟩

theorem getEvents_eq {reader : TimeReader} {m : Manager} {c : Text} (hcached : (m.cached.lookup c).isSome = true)
    {now a b : NaiveDateTime} {query : EventQuery} (ha : query.start.getD now = a)
    (hb : query.stop.or (a.checkedAddSigned (days 30)) = some b) :
    m.getEvents reader now c query = some (.ok (query.truncate (m.selectEvents reader now c a b))) := by
  obtain ⟨calendar, hcalendar⟩ := Option.isSome_iff_exists.mp hcached
  simp only [Manager.getEvents, hcalendar, ha, hb, Option.map_some]

theorem run_append (reader : TimeReader) (ops ops' : List Op) (m : Manager) :
    run reader (ops ++ ops') m = run reader ops' (run reader ops m) := List.foldl_append

/-- The last two steps of a complete sync. -/
theorem run_snapshot (reader : TimeReader) {m : Manager} {c : Text} (hcached : (m.cached.lookup c).isSome = true)
    (start stop now : NaiveDateTime) (snapshot : List CalendarEvent) :
    (run reader [.replaceEventsInRange c start stop snapshot none, .setLastSync c now none] m).events =
        Manager.replaceRows c start stop snapshot m.events ∧
      ((run reader [.replaceEventsInRange c start stop snapshot none, .setLastSync c now none] m).cached.lookup c).isSome = true := by
  obtain ⟨held, hheld⟩ := Option.isSome_iff_exists.mp hcached
  simp [run, step, Manager.replaceEventsInRange, Manager.setLastSync, lookup_modify, hheld]

/-- The operations of a complete sync are like any others of its calendar. -/
theorem syncOps_proper {c : Text} (hid : ':' ∉ c) {config : CalendarConfig} (start stop : NaiveDateTime) {now : NaiveDateTime} (hnow : FourDigits now)
    {snapshot : List CalendarEvent} (hsnapshot : ∀ e ∈ snapshot, EventOf c e) {credentials : List Op}
    (hcredentials : credentials = [] ∨ credentials = [.updateConfig c config none]) :
    ∀ op ∈ credentials ++ [.replaceEventsInRange c start stop snapshot none, .setLastSync c now none],
      op.Proper ∧ ∀ t ∈ op.syncTime, FourDigits t := by
  have hconfig : (Op.updateConfig c config none).Proper := ⟨by simpa [Op.calendar] using hid, by simp [Op.events]⟩
  have hreplace : (Op.replaceEventsInRange c start stop snapshot none).Proper :=
    ⟨by simpa [Op.calendar] using hid, by simpa [Op.calendar, Op.events] using hsnapshot⟩
  have hsync : (Op.setLastSync c now none).Proper := ⟨by simpa [Op.calendar] using hid, by simp [Op.events]⟩
  rcases hcredentials with rfl | rfl
  · simp [hreplace, hsync, Op.syncTime, hnow]
  · simp [hconfig, hreplace, hsync, Op.syncTime, hnow]

/-- What a complete sync brought is read afterwards: every query of a part of its window gives the last events under each
id that start there, in the order of their times, whatever was done before it, and whatever is done to other
calendars or restarted after it. -/
theorem sync_then_read (reader : TimeReader) {before after : List Op} (hproper : ∀ op ∈ before ++ after, op.Proper)
    (htime : ∀ op ∈ before ++ after, ∀ t ∈ op.syncTime, FourDigits t)
    {calendar : Calendar} {config : CalendarConfig} {start stop now : NaiveDateTime} {snapshot : List CalendarEvent}
    {warnings : List Text} {failures : SyncFailures} (hid : ':' ∉ calendar.id)
    (hsnapshot : ∀ e ∈ snapshot, EventOf calendar.id e ∧ Timely e)
    (hstart : FourDigits start) (hstop : FourDigits stop) (hnow : FourDigits now)
    (hsync : (storeFetched (run reader before .empty) calendar config start stop now (.ok ⟨snapshot, none, warnings⟩)
      failures).1.success = true)
    (hothers : ∀ op ∈ after, op.calendar ≠ some calendar.id)
    {later a b : NaiveDateTime} {query : EventQuery} (hfrom : query.start.getD later = a)
    (hto : query.stop.or (a.checkedAddSigned (days 30)) = some b) (ha : FourDigits a) (hb : FourDigits b)
    (hle : start ≤ a) (hle' : b ≤ stop) :
    ∃ full, ReadsSnapshot snapshot a b full ∧
      (run reader after (storeFetched (run reader before .empty) calendar config start stop now (.ok ⟨snapshot, none, warnings⟩)
        failures).2).getEvents reader later calendar.id query = some (.ok (query.truncate full)) := by
  obtain ⟨credentials, hcredentials, hcached, heq⟩ := storeFetched_success reader hsync
  have hown := syncOps_proper hid start stop hnow (fun e he => (hsnapshot e he).1) hcredentials
  have howned := inv_foldl (unwinds reader calendar.id).keeps owned_empty fun op hop => hproper op (List.mem_append_left _ hop)
  have howned' := inv_foldl (unwinds reader calendar.id).keeps howned fun op hop => (hown op hop).1
  have hmirrored := mirrored_run reader (mirrored_empty reader) fun op hop => htime op (List.mem_append_left _ hop)
  have hmirrored' := mirrored_run reader hmirrored fun op hop => (hown op hop).2
  have hview := view_run_others reader howned' hmirrored' (fun op hop => hproper op (List.mem_append_right _ hop))
    (fun op hop => htime op (List.mem_append_right _ hop)) hothers
  obtain ⟨hrows, hheld⟩ := run_snapshot reader hcached start stop now snapshot
  rw [← run_append] at hrows hheld
  have hread := (getEvents_congr reader later hview query).trans (getEvents_eq hheld hfrom hto)
  rw [heq]
  refine ⟨_, ?_, hread⟩
  apply readsSnapshot_replaceRows reader later hstart hstop ha hb hle hle' _ hrows
  exact fun e he => ⟨(hsnapshot e he).1.calendar, (hsnapshot e he).2⟩

/-- The configuration of the calendar with another access token. -/
def renewed : CalendarConfig :=
  .google "primary".toList (some "renewed".toList) (some "refresh".toList) (some "client".toList) none none

def noFailures : SyncFailures := ⟨none, none, none⟩

def firstDay : NaiveDateTime := ⟨⟨736680, by decide⟩, .midnight⟩

def monthLater : NaiveDateTime := ⟨⟨736710, by decide⟩, .midnight⟩

theorem sync_then_read_team :
    ∃ full, ReadsSnapshot [standup] firstDay monthLater full ∧
      (run canonicalReader [.addCalendar home none, .restart] (storeFetched (run canonicalReader [.addCalendar team none] .empty)
        team renewed firstDay monthLater firstDay (.ok ⟨[standup], none, []⟩) noFailures).2).getEvents canonicalReader firstDay
          team.id ⟨none, none, none⟩ = some (.ok full) := by
  have hproper : ∀ op ∈ [Op.addCalendar team none] ++ [.addCalendar home none, .restart], op.Proper := by
    simp only [List.singleton_append, List.forall_mem_cons]
    exact ⟨proper_addCalendar (by decide) none, proper_addCalendar (by decide) none, ⟨by simp [Op.calendar], by simp [Op.events]⟩, by simp⟩
  have hsync : (storeFetched (run canonicalReader [.addCalendar team none] .empty) team renewed firstDay monthLater firstDay
      (.ok ⟨[standup], none, []⟩) noFailures).1.success = true := by decide +kernel
  exact sync_then_read canonicalReader hproper (by simp [Op.syncTime, team, home]) (by decide)
    (by simpa using ⟨eventOf_standup, timely_standup⟩) (by decide) (by decide) (by decide) hsync
    (by simp [Op.calendar]; decide) rfl (by decide +kernel) (by decide) (by decide) le_rfl le_rfl

/-! ## The events of all calendars -/

/-- A calendar of the list, and the time and the state of the manager when its events are read. -/
structure Reading where
  id : Text
  now : NaiveDateTime
  manager : Manager

def startsBy (a b : CalendarEvent) : Bool := decide (a.start ≤ b.start)

/-- The events of a calendar of the list; one that is gone has none. -/
def Reading.events (reader : TimeReader) (query : EventQuery) (r : Reading) : Option (List CalendarEvent) :=
  (r.manager.getEvents reader r.now r.id query).map fun answer => answer.toOption.getD []

def getUpcomingEvents (reader : TimeReader) (readings : List Reading) (query : EventQuery) : Option (List CalendarEvent) :=
  (readings.mapM (Reading.events reader query)).map fun events => query.truncate (events.flatten.mergeSort startsBy)

/-- Every row has a time that can be read. -/
def Readable (events : Table Text EventRow) : Prop :=
  ∀ id row, events.lookup id = some row → ∃ t, FourDigits t ∧ row.startTime = stored t

theorem readable_run (reader : TimeReader) {ops : List Op} (h : ∀ op ∈ ops, ∀ e ∈ op.events, FourDigits e.start) :
    Readable (run reader ops .empty).events := by
  have hempty : Readable Manager.empty.events := by
    intro id row hrow
    simp [Manager.empty] at hrow
  have hstep : ∀ m op, Readable m.events → (∀ e ∈ Op.events op, FourDigits e.start) → Readable (step reader m op).events := by
    intro m op hm hop id row hrow
    rcases lookup_step reader hrow with hold | ⟨e, he, -, rfl⟩
    · exact hm id row hold
    · exact ⟨e.start, hop e he, rfl⟩
  exact inv_foldl hstep hempty h

theorem selectEvents_sorted (reader : TimeReader) (now : NaiveDateTime) {m : Manager} (hm : Readable m.events) (id : Text)
    (start stop : NaiveDateTime) : (m.selectEvents reader now id start stop).Pairwise fun a b => startsBy a b = true := by
  rw [Manager.selectEvents, List.pairwise_map]
  refine (byTime_sorted _).imp_of_mem ?_
  have hread : ∀ r ∈ byTime ((m.events.entries.filter fun e => Manager.inRange id (stored start) (stored stop) e.2).map
      fun e => Timed.mk e e.2.startTime), ∃ t, FourDigits t ∧ r.time = stored t ∧ (mapEvent reader now r.row.1 r.row.2).start = t := by
    intro r hr
    obtain ⟨e, he, rfl⟩ := List.mem_map.mp ((List.mergeSort_perm _ _).subset hr)
    obtain ⟨t, ht, htime⟩ := hm e.1 e.2 (mem_entries_iff.mp (List.mem_filter.mp he).1)
    exact ⟨t, ht, htime, by simp [mapEvent, htime, reader.read_stored t ht]⟩
  intro r s hr hs hlt
  obtain ⟨t, ht, htime, hstarts⟩ := hread r hr
  obtain ⟨u, hu, htime', hstarts'⟩ := hread s hs
  rw [htime, htime', stored_lt_iff hu ht] at hlt
  simpa [startsBy, hstarts, hstarts'] using not_lt.mp hlt

theorem Reading.events_limit (reader : TimeReader) (r : Reading) (start stop : Option NaiveDateTime) (n : Nat) :
    r.events reader ⟨start, stop, some n⟩ = (r.events reader ⟨start, stop, none⟩).map (·.take n) := by
  simp only [Reading.events, Manager.getEvents]
  cases r.manager.cached.lookup r.id with
  | none => simp [Except.toOption]
  | some calendar =>
    cases stop.or ((start.getD r.now).checkedAddSigned (days 30)) with
    | none => rfl
    | some b => simp [Except.toOption, EventQuery.truncate]

theorem Reading.events_sorted (reader : TimeReader) {r : Reading} (hr : Readable r.manager.events)
    {start stop : Option NaiveDateTime} {events : List CalendarEvent} (h : r.events reader ⟨start, stop, none⟩ = some events) :
    events.Pairwise fun a b => startsBy a b = true := by
  simp only [Reading.events, Manager.getEvents] at h
  cases hcached : r.manager.cached.lookup r.id with
  | none =>
    obtain rfl : [] = events := by simpa [hcached, Except.toOption] using h
    exact .nil
  | some calendar =>
    cases hstop : stop.or ((start.getD r.now).checkedAddSigned (days 30)) with
    | none => simp [hcached, hstop] at h
    | some b =>
      obtain rfl : r.manager.selectEvents reader r.now r.id (start.getD r.now) b = events := by
        simpa [hcached, hstop, Except.toOption, EventQuery.truncate] using h
      exact selectEvents_sorted reader r.now hr r.id _ b

theorem mapM_events (reader : TimeReader) (start stop : Option NaiveDateTime) (n : Nat) (readings : List Reading) :
    readings.mapM (Reading.events reader ⟨start, stop, some n⟩) =
      (readings.mapM (Reading.events reader ⟨start, stop, none⟩)).map fun lists => lists.map (·.take n) := by
  induction readings with
  | nil => rfl
  | cons r readings ih =>
    rw [List.mapM_cons, List.mapM_cons, ih, r.events_limit]
    cases r.events reader ⟨start, stop, none⟩ with
    | none => rfl
    | some events => cases readings.mapM (Reading.events reader ⟨start, stop, none⟩) <;> rfl

theorem mapM_sorted (reader : TimeReader) {start stop : Option NaiveDateTime} {readings : List Reading}
    (hreadings : ∀ r ∈ readings, Readable r.manager.events) {lists : List (List CalendarEvent)}
    (h : readings.mapM (Reading.events reader ⟨start, stop, none⟩) = some lists) :
    ∀ l ∈ lists, l.Pairwise fun a b => startsBy a b = true := by
  induction readings generalizing lists with
  | nil =>
    cases h
    simp
  | cons r readings ih =>
    rw [List.mapM_cons] at h
    obtain ⟨events, hevents, h⟩ := Option.bind_eq_some_iff.mp h
    obtain ⟨rest, hrest, h⟩ := Option.bind_eq_some_iff.mp h
    cases h
    intro l hl
    rcases List.mem_cons.mp hl with rfl | hl
    · exact Reading.events_sorted reader (hreadings r List.mem_cons_self) hevents
    · exact ih (fun r' hr' => hreadings r' (List.mem_cons_of_mem r hr')) hrest l hl

/-- A limit gives the first events of all calendars, although only so many are read of each. -/
theorem getUpcomingEvents_limit (reader : TimeReader) {readings : List Reading}
    (hreadings : ∀ r ∈ readings, ∃ ops, (∀ op ∈ ops, ∀ e ∈ Op.events op, FourDigits e.start) ∧ r.manager = run reader ops .empty)
    (start stop : Option NaiveDateTime) (n : Nat) :
    getUpcomingEvents reader readings ⟨start, stop, some n⟩ =
      (getUpcomingEvents reader readings ⟨start, stop, none⟩).map (·.take n) := by
  have hreadable : ∀ r ∈ readings, Readable r.manager.events := by
    intro r hr
    obtain ⟨ops, hops, heq⟩ := hreadings r hr
    rw [heq]
    exact readable_run reader hops
  rw [getUpcomingEvents, getUpcomingEvents, mapM_events]
  cases hlists : readings.mapM (Reading.events reader ⟨start, stop, none⟩) with
  | none => rfl
  | some lists =>
    have htrans : ∀ a b c, startsBy a b → startsBy b c → startsBy a c := by
      intro a b c hab hbc
      simp only [startsBy, decide_eq_true_eq] at *
      exact hab.trans hbc
    have htotal : ∀ a b, startsBy a b || startsBy b a := by
      intro a b
      simpa [startsBy] using le_total a.start b.start
    exact congrArg some (StableSort.take_mergeSort_flatten htrans htotal (mapM_sorted reader hreadable hlists) n)

theorem getUpcomingEvents_limit_team :
    let readings := [⟨team.id, firstDay, run canonicalReader [.addCalendar team none, .upsertEvents team.id [standup] none] .empty⟩]
    getUpcomingEvents canonicalReader readings ⟨none, none, some 1⟩ =
      (getUpcomingEvents canonicalReader readings ⟨none, none, none⟩).map (·.take 1) := by
  intro readings
  apply getUpcomingEvents_limit
  intro r hr
  obtain rfl := List.mem_singleton.mp hr
  exact ⟨_, by simpa [Op.events] using timely_standup.start, rfl⟩

end CalendarStore
