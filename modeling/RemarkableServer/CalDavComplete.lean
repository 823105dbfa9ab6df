import RemarkableServer.CalDav

/-!
# What a complete CalDAV answer has read

An answer that is not marked incomplete lets the store remove events it does not list. It
has no resource that failed, and the calendar data of every resource was read: as it came,
or, where the server was asked to expand it and did not, from the answer to a second request.
-/
namespace CalDavComplete

open RustText CalDav

variable {Event Expansion : Type} {env : Env Event Expansion} {expanded : Bool}

/-! ## What a response delivers -/

/-- Whether the properties of a propstat are there. -/
def counts (propstat : Element) : Bool :=
  match statusCode propstat with
  | none => true
  | some code => code == some 200

def isData (p : Element) : Bool := p.isNamed caldav "calendar-data".toList && !(trim p.text).isEmpty

/-- The calendar data of a propstat that counts. -/
def dataIn (propstat : Element) : List Text :=
  if counts propstat then
    (((propstat.child dav "prop".toList).elim [] Element.children).filter isData).map Element.text
  else []

/-- The calendar data a response delivers: the last that is not blank, in a propstat that counts. -/
def deliveredData (response : Element) : Option Text :=
  ((response.childrenNamed dav "propstat".toList).flatMap dataIn).getLast?

/-- Neither the response nor one of its propstats has a status that says that the server failed. -/
def Answered (response : Element) : Prop :=
  responseFailure response = none ∧
    ∀ propstat ∈ response.childrenNamed dav "propstat".toList, ∀ code, statusCode propstat = some (some code) → code < 500

theorem getLast?_append_or (xs ys : List Text) (d : Option Text) :
    ((xs ++ ys).getLast?).or d = (ys.getLast?).or ((xs.getLast?).or d) := by
  rw [List.getLast?_append, Option.or_assoc]

theorem readProp_failure (base : Url) (r : Resource) (p : Element) : (readProp env base r p).failure = r.failure := by
  unfold readProp
  split_ifs <;> rfl

theorem readProps_failure (base : Url) (r : Resource) (props : List Element) :
    (props.foldl (readProp env base) r).failure = r.failure := by
  induction props generalizing r with
  | nil => rfl
  | cons p props ih => rw [List.foldl_cons, ih, readProp_failure]

theorem readProp_calendarData (base : Url) (r : Resource) (p : Element) :
    (readProp env base r p).calendarData = if isData p then some p.text else r.calendarData := by
  by_cases hdata : isData p = true
  · obtain ⟨hnamed, hblank⟩ := Bool.and_eq_true_iff.mp hdata
    obtain ⟨hns, hname⟩ := Bool.and_eq_true_iff.mp hnamed
    have hdav : ∀ name, p.isNamed dav name = false := by
      intro name
      unfold Element.isNamed
      rw [beq_iff_eq.mp hns, show (caldav == dav) = false by decide, Bool.false_and]
    have hother : ∀ name, ("calendar-data".toList == name) = false → p.isNamed caldav name = false := by
      intro name hne
      unfold Element.isNamed
      rw [beq_iff_eq.mp hname, hne, Bool.and_false]
    unfold readProp
    rw [hdav, hdav, hdav, hdav, hother _ (by decide), hother _ (by decide), hnamed, hblank, hdata]
    rfl
  · unfold readProp
    rw [if_neg hdata]
    unfold isData at hdata
    rw [if_neg hdata]
    split_ifs <;> rfl

theorem readProps_calendarData (base : Url) (r : Resource) (props : List Element) :
    (props.foldl (readProp env base) r).calendarData =
      (((props.filter isData).map Element.text).getLast?).or r.calendarData := by
  induction props generalizing r with
  | nil => rfl
  | cons p props ih =>
    rw [List.foldl_cons, ih, readProp_calendarData, List.filter_cons]
    split
    · rw [List.map_cons, List.getLast?_cons]
      cases ((props.filter isData).map Element.text).getLast? <;> rfl
    · rfl

theorem readPropstat_calendarData (base : Url) (r : Resource) (propstat : Element) :
    (readPropstat env base r propstat).calendarData = ((dataIn propstat).getLast?).or r.calendarData := by
  unfold readPropstat dataIn counts
  cases hstatus : statusCode propstat with
  | none =>
    cases hprop : propstat.child dav "prop".toList with
    | none => rfl
    | some prop => exact readProps_calendarData base r prop.children
  | some code =>
    cases code with
    | none => rfl
    | some code =>
      dsimp only
      by_cases hok : code = 200
      · rw [if_pos hok, hok]
        cases hprop : propstat.child dav "prop".toList with
        | none => rfl
        | some prop => exact readProps_calendarData base r prop.children
      · have hcounts : ¬(some code == some 200) = true := by simpa using hok
        rw [if_neg hok, if_neg hcounts]
        split <;> rfl

theorem readPropstats_calendarData (base : Url) (r : Resource) (propstats : List Element) :
    (propstats.foldl (readPropstat env base) r).calendarData = ((propstats.flatMap dataIn).getLast?).or r.calendarData := by
  induction propstats generalizing r with
  | nil => rfl
  | cons propstat propstats ih =>
    rw [List.foldl_cons, ih, readPropstat_calendarData, List.flatMap_cons, getLast?_append_or]

theorem calendarData_resourceOf (base : Url) (response : Element) :
    (resourceOf env base response).calendarData = deliveredData response := by
  unfold resourceOf deliveredData
  rw [readPropstats_calendarData, Option.or_none]

theorem readPropstat_failure {base : Url} {r : Resource} {propstat : Element}
    (hnone : (readPropstat env base r propstat).failure = none) :
    r.failure = none ∧ ∀ code, statusCode propstat = some (some code) → code < 500 := by
  unfold readPropstat at hnone
  cases hstatus : statusCode propstat with
  | none =>
    rw [hstatus] at hnone
    refine ⟨?_, fun code hcode => nomatch hcode⟩
    cases hprop : propstat.child dav "prop".toList with
    | none => rwa [hprop] at hnone
    | some prop =>
      rw [hprop] at hnone
      rwa [← @readProps_failure _ _ env base r prop.children]
  | some code =>
    rw [hstatus] at hnone
    cases code with
    | none => exact ⟨hnone, fun code hcode => nomatch hcode⟩
    | some code =>
      dsimp only at hnone
      by_cases hok : code = 200
      · rw [if_pos hok] at hnone
        refine ⟨?_, fun code' hcode => ?_⟩
        · cases hprop : propstat.child dav "prop".toList with
          | none => rwa [hprop] at hnone
          | some prop =>
            rw [hprop] at hnone
            rwa [← @readProps_failure _ _ env base r prop.children]
        · cases hcode
          omega
      · rw [if_neg hok] at hnone
        by_cases hserver : 500 ≤ code
        · rw [if_pos hserver] at hnone
          cases (Option.or_eq_none_iff.mp hnone).2
        · rw [if_neg hserver] at hnone
          refine ⟨hnone, fun code' hcode => ?_⟩
          cases hcode
          omega

theorem answered_of_failure {base : Url} {response : Element} (hnone : (resourceOf env base response).failure = none) :
    Answered response := by
  have hall : ∀ (propstats : List Element) (r : Resource), (propstats.foldl (readPropstat env base) r).failure = none →
      r.failure = none ∧ ∀ propstat ∈ propstats, ∀ code, statusCode propstat = some (some code) → code < 500 := by
    intro propstats
    induction propstats with
    | nil => exact fun r hr => ⟨hr, fun _ hmem => nomatch hmem⟩
    | cons propstat propstats ih =>
      intro r hr
      obtain ⟨hfirst, hrest⟩ := ih _ hr
      obtain ⟨hkept, hstatus⟩ := readPropstat_failure hfirst
      refine ⟨hkept, fun p hp => ?_⟩
      rcases List.mem_cons.mp hp with rfl | hp
      · exact hstatus
      · exact hrest p hp
  exact hall _ _ hnone

/-! ## The first answer -/

/-- What every step of the reading keeps: the reasons and the events. -/
structure Keeps (before after : Report Event Expansion) : Prop where
  url : after.url = before.url
  calendarId : after.calendarId = before.calendarId
  incomplete : after.incomplete = none → before.incomplete = none
  events : ∀ e ∈ before.events, e ∈ after.events

theorem Keeps.refl (report : Report Event Expansion) : Keeps report report := ⟨rfl, rfl, id, fun _ he => he⟩

theorem Keeps.trans {a b c : Report Event Expansion} (h : Keeps a b) (h' : Keeps b c) : Keeps a c where
  url := h'.url.trans h.url
  calendarId := h'.calendarId.trans h.calendarId
  incomplete := fun hc => h.incomplete (h'.incomplete hc)
  events := fun e he => h'.events e (h.events e he)

/-- While the first answer is read, no resource is forgotten that is to be fetched again. -/
structure Grows (before after : Report Event Expansion) : Prop extends Keeps before after where
  refetch : ∀ key ∈ before.refetch.map Prod.fst, key ∈ after.refetch.map Prod.fst

theorem Grows.refl (report : Report Event Expansion) : Grows report report := ⟨Keeps.refl report, fun _ hk => hk⟩

theorem Grows.trans {a b c : Report Event Expansion} (h : Grows a b) (h' : Grows b c) : Grows a c :=
  ⟨h.toKeeps.trans h'.toKeeps, fun key hk => h'.refetch key (h.refetch key hk)⟩

theorem mem_insertKey {key key' : Text} {href : Url} {refetch : List (Text × Url)} :
    key' ∈ (insertKey key href refetch).map Prod.fst ↔ key' = key ∨ key' ∈ refetch.map Prod.fst := by
  induction refetch with
  | nil => simp [insertKey]
  | cons e rest ih =>
    rw [insertKey]
    split
    · simp
    · split
      next heq =>
        rw [List.map_cons, List.map_cons, List.mem_cons, List.mem_cons, beq_iff_eq.mp heq]
        tauto
      · rw [List.map_cons, List.mem_cons, ih, List.map_cons, List.mem_cons]
        tauto

theorem grows_readWhole (report : Report Event Expansion) (data : Text) (etag : Option Text) :
    Grows report (report.readWhole env data etag) :=
  ⟨⟨rfl, rfl, id, fun _ he => List.mem_append_left _ he⟩, fun _ hk => hk⟩

theorem grows_refused (report : Report Event Expansion) (href : Option Url) : Grows report (report.refused href) := by
  unfold Report.refused
  split
  · exact ⟨⟨rfl, rfl, id, fun _ he => he⟩, fun _ hk => mem_insertKey.mpr (Or.inr hk)⟩
  · refine ⟨⟨rfl, rfl, fun hnone => ?_, fun _ he => he⟩, fun _ hk => hk⟩
    exact (Option.or_eq_none_iff.mp hnone).1

theorem grows_readResource (report : Report Event Expansion) (r : Resource) :
    Grows report (report.readResource env expanded r) := by
  unfold Report.readResource
  split
  · exact Grows.refl report
  next data hdata =>
    split
    · exact grows_readWhole report data r.etag
    · split
      · exact ⟨⟨rfl, rfl, id, fun _ he => List.mem_append_left _ he⟩, fun _ hk => hk⟩
      next expansion hparse =>
        have hsame : Grows report { report with expansion := expansion } :=
          ⟨⟨rfl, rfl, id, fun _ he => he⟩, fun _ hk => hk⟩
        exact hsame.trans (grows_refused _ r.href)

theorem grows_readResources (report : Report Event Expansion) (resources : List Resource) :
    Grows report (resources.foldl (Report.readResource env expanded) report) := by
  induction resources generalizing report with
  | nil => exact Grows.refl report
  | cons r resources ih => exact (grows_readResource report r).trans (ih _)

/-- The events of the calendar data of a resource, unless it is refused. -/
def readEvents (env : Env Event Expansion) (expanded : Bool) (report : Report Event Expansion) (data : Text)
    (etag : Option Text) : Option (List Event) :=
  if expanded then (env.parseIcsServerExpanded data report.calendarId etag report.expansion).1
  else some (env.parseIcsExpanded data report.calendarId etag report.expansion).1

/-- A resource with calendar data is read, or it is to be fetched again. -/
theorem readResource_reads (report : Report Event Expansion) {r : Resource} {data : Text} (hdata : r.calendarData = some data)
    (hcomplete : (report.readResource env expanded r).incomplete = none) :
    (∃ events, readEvents env expanded report data r.etag = some events ∧
      ∀ e ∈ events, e ∈ (report.readResource env expanded r).events) ∨
    (expanded = true ∧ readEvents env expanded report data r.etag = none ∧ ∃ href, r.href = some href ∧
      inside report.url href = true ∧ hrefKey href ∈ (report.readResource env expanded r).refetch.map Prod.fst) := by
  unfold Report.readResource at hcomplete ⊢
  rw [hdata] at hcomplete ⊢
  dsimp only at hcomplete ⊢
  cases expanded with
  | false => exact Or.inl ⟨_, rfl, fun e he => List.mem_append_right _ he⟩
  | true =>
    simp only [Bool.not_true, Bool.false_eq_true, if_false] at hcomplete ⊢
    unfold readEvents
    rw [if_pos rfl]
    split at hcomplete
    next events expansion hparse =>
      rw [hparse]
      exact Or.inl ⟨events, rfl, fun e he => List.mem_append_right _ he⟩
    next expansion hparse =>
      rw [hparse]
      refine Or.inr ⟨trivial, rfl, ?_⟩
      unfold Report.refused at hcomplete ⊢
      split at hcomplete
      next href hinside =>
        obtain ⟨hhref, hin⟩ := Option.filter_eq_some_iff.mp hinside
        refine ⟨href, hhref, hin, ?_⟩
        exact mem_insertKey.mpr (Or.inl rfl)
      · rw [Option.or_eq_none_iff] at hcomplete
        cases hcomplete.2

/-- A resource of the first answer, read after those before it: its events are in the whole answer, or it is to be
fetched again. -/
theorem readResources_reads (start : Report Event Expansion) {before after : List Resource} {r : Resource} {data : Text}
    (hdata : r.calendarData = some data)
    (hcomplete : ((before ++ r :: after).foldl (Report.readResource env expanded) start).incomplete = none) :
    (∃ events, readEvents env expanded (before.foldl (Report.readResource env expanded) start) data r.etag = some events ∧
      ∀ e ∈ events, e ∈ ((before ++ r :: after).foldl (Report.readResource env expanded) start).events) ∨
    (expanded = true ∧
      readEvents env expanded (before.foldl (Report.readResource env expanded) start) data r.etag = none ∧
      ∃ href, r.href = some href ∧ inside start.url href = true ∧
        hrefKey href ∈ ((before ++ r :: after).foldl (Report.readResource env expanded) start).refetch.map Prod.fst) := by
  rw [List.foldl_append, List.foldl_cons] at hcomplete ⊢
  have hbefore := @grows_readResources _ _ env expanded start before
  generalize before.foldl (Report.readResource env expanded) start = state at hcomplete hbefore ⊢
  have hafter := @grows_readResources _ _ env expanded (state.readResource env expanded r) after
  rcases readResource_reads state hdata (hafter.incomplete hcomplete) with hread | ⟨hexpanded, hrefused, href, h, hin, hkey⟩
  · obtain ⟨events, hevents, hmem⟩ := hread
    exact Or.inl ⟨events, hevents, fun e he => hafter.events e (hmem e he)⟩
  · rw [hbefore.url] at hin
    exact Or.inr ⟨hexpanded, hrefused, href, h, hin, hafter.refetch _ hkey⟩

/-! ## The second answer -/

theorem mem_removeKey {key key' : Text} {refetch : List (Text × Url)} :
    key' ∈ (removeKey key refetch).map Prod.fst ↔ key' ≠ key ∧ key' ∈ refetch.map Prod.fst := by
  unfold removeKey
  simp only [List.mem_map, List.mem_filter, bne_iff_ne]
  constructor
  · rintro ⟨e, ⟨he, hne⟩, rfl⟩
    exact ⟨hne, e, he, rfl⟩
  · rintro ⟨hne, e, he, rfl⟩
    exact ⟨e, ⟨he, hne⟩, rfl⟩

theorem keeps_readRefetchedOne (state : Report Event Expansion) (r : Resource) : Keeps state (readRefetchedOne env state r) := by
  unfold readRefetchedOne
  split
  · split
    · exact ⟨rfl, rfl, id, fun _ he => List.mem_append_left _ he⟩
    · exact Keeps.refl state
  · exact Keeps.refl state

theorem keeps_readRefetchedAll (state : Report Event Expansion) (resources : List Resource) :
    Keeps state (resources.foldl (readRefetchedOne env) state) := by
  induction resources generalizing state with
  | nil => exact Keeps.refl state
  | cons r resources ih => exact (keeps_readRefetchedOne state r).trans (ih _)

/-- A resource that is no longer to be fetched was read whole. -/
theorem readRefetchedOne_reads {state : Report Event Expansion} {r : Resource} {key : Text}
    (hasked : key ∈ state.refetch.map Prod.fst) (hread : key ∉ (readRefetchedOne env state r).refetch.map Prod.fst) :
    r.failure = none ∧ ∃ href data, r.href = some href ∧ hrefKey href = key ∧ r.calendarData = some data ∧
      ∀ e ∈ (env.parseIcsExpanded data state.calendarId r.etag state.expansion).1,
        e ∈ (readRefetchedOne env state r).events := by
  unfold readRefetchedOne at hread ⊢
  split at hread
  next href data hhref hfailure hdata =>
    split at hread
    next hany =>
      have hkey : hrefKey href = key := by
        by_contra hne
        exact hread (mem_removeKey.mpr ⟨Ne.symm hne, hasked⟩)
      refine ⟨hfailure, href, data, hhref, hkey, hdata, fun e he => ?_⟩
      rw [if_pos hany]
      exact List.mem_append_right _ he
    · exact absurd hasked hread
  · exact absurd hasked hread

theorem readRefetchedAll_reads {state : Report Event Expansion} {resources : List Resource} {key : Text}
    (hasked : key ∈ state.refetch.map Prod.fst)
    (hread : key ∉ (resources.foldl (readRefetchedOne env) state).refetch.map Prod.fst) :
    ∃ before r after, resources = before ++ r :: after ∧ r.failure = none ∧ ∃ href data, r.href = some href ∧
      hrefKey href = key ∧ r.calendarData = some data ∧
      ∀ e ∈ (env.parseIcsExpanded data state.calendarId r.etag (before.foldl (readRefetchedOne env) state).expansion).1,
        e ∈ (resources.foldl (readRefetchedOne env) state).events := by
  induction resources generalizing state with
  | nil => exact absurd hasked hread
  | cons r resources ih =>
    rw [List.foldl_cons] at hread
    by_cases hstays : key ∈ (readRefetchedOne env state r).refetch.map Prod.fst
    · obtain ⟨before, r', after, rfl, hfailure, href, data, hhref, hkey, hdata, hevents⟩ := ih hstays hread
      rw [(keeps_readRefetchedOne state r).calendarId] at hevents
      exact ⟨r :: before, r', after, rfl, hfailure, href, data, hhref, hkey, hdata, hevents⟩
    · obtain ⟨hfailure, href, data, hhref, hkey, hdata, hevents⟩ := readRefetchedOne_reads hasked hstays
      refine ⟨[], r, resources, rfl, hfailure, href, data, hhref, hkey, hdata, fun e he => ?_⟩
      exact (keeps_readRefetchedAll _ resources).events e (hevents e he)

/-! ## The whole answer -/

/-- The report before the first response is read. -/
def startOf (env : Env Event Expansion) (first : DavResponse) (calendarId : Text) (window : SyncWindow)
    (responses : List Element) : Report Event Expansion where
  url := first.url
  calendarId := calendarId
  expansion := env.newExpansion window
  events := []
  incomplete := (responses.map (resourceOf env first.url)).findSome? (failureMessage first.url)
  refetch := []

/-- The report after some responses of the first answer. -/
def readUpTo (env : Env Event Expansion) (expanded : Bool) (url : Url) (start : Report Event Expansion)
    (before : List Element) : Report Event Expansion :=
  (before.map (resourceOf env url)).foldl (Report.readResource env expanded) start

/-- The calendar data of a response gives events as it is, and these are in the whole answer. -/
def ReadDirectly (env : Env Event Expansion) (expanded : Bool) (state : Report Event Expansion) (data : Text)
    (etag : Option Text) (fetched : Fetched Event) : Prop :=
  ∃ events, readEvents env expanded state data etag = some events ∧ ∀ e ∈ events, e ∈ fetched.events

/-- The second answer has a response for the resource that did not fail, and the events of its calendar data, read
whole, are in the whole answer. -/
def ReadWhole (env : Env Event Expansion) (state : Report Event Expansion) (answer : Except CalendarError DavResponse)
    (href : Url) (fetched : Fetched Event) : Prop :=
  ∃ second responses, answer = .ok second ∧ second.status = multiStatus ∧
    responsesOf env second.url second.body = .ok responses ∧
    ∃ before response after, responses = before ++ response :: after ∧ Answered response ∧
      ∃ href' data, (resourceOf env second.url response).href = some href' ∧ hrefKey href' = hrefKey href ∧
        deliveredData response = some data ∧
        ∀ e ∈ (env.parseIcsExpanded data state.calendarId (resourceOf env second.url response).etag
            ((before.map (resourceOf env second.url)).foldl (readRefetchedOne env) state).expansion).1, e ∈ fetched.events

theorem failure_none_of_findSome {url : Url} {resources : List Resource}
    (hnone : resources.findSome? (failureMessage url) = none) {r : Resource} (hr : r ∈ resources) : r.failure = none := by
  have hmessage := List.findSome?_eq_none_iff.mp hnone r hr
  unfold failureMessage at hmessage
  exact Option.map_eq_none_iff.mp hmessage

theorem map_ok {α β : Type} {f : α → β} {x : Except CalendarError α} {y : β} (h : x.map f = .ok y) :
    ∃ a, x = .ok a ∧ f a = y := by
  cases x with
  | error e => cases h
  | ok a => exact ⟨a, rfl, Except.ok.inj h⟩

theorem refetchedResources_ok {answer : Except CalendarError DavResponse} {resources : List Resource}
    (hresources : refetchedResources env answer = .ok resources) :
    ∃ second responses, answer = .ok second ∧ second.status = multiStatus ∧
      responsesOf env second.url second.body = .ok responses ∧ resources = responses.map (resourceOf env second.url) := by
  unfold refetchedResources at hresources
  cases answer with
  | error e => cases hresources
  | ok second =>
    dsimp only at hresources
    split at hresources
    next hstatus =>
      cases hparsed : parseResources env second.url second.body with
      | error e =>
        rw [hparsed] at hresources
        cases hresources
      | ok parsed =>
        rw [hparsed] at hresources
        cases hresources
        obtain ⟨responses, hresponses, rfl⟩ := map_ok hparsed
        exact ⟨second, responses, rfl, beq_iff_eq.mp hstatus, hresponses, rfl⟩
    · cases hresources

/-- After the second answer, a complete report has read what was asked for again. -/
theorem readRefetched_reads {state : Report Event Expansion} {answer : Except CalendarError DavResponse} {href : Url}
    (hcomplete : (state.readRefetched env answer).incomplete = none) (hasked : hrefKey href ∈ state.refetch.map Prod.fst) :
    ReadWhole env state answer href ((state.readRefetched env answer).finish env) := by
  cases hresources : refetchedResources env answer with
  | error failure =>
    unfold Report.readRefetched at hcomplete
    rw [hresources] at hcomplete
    dsimp only at hcomplete
    split at hcomplete
    next hempty =>
      rw [List.isEmpty_iff.mp hempty] at hasked
      cases hasked
    · cases (Option.or_eq_none_iff.mp hcomplete).2
  | ok resources =>
    obtain ⟨second, responses, hanswer, hstatus, hresponses, rfl⟩ := refetchedResources_ok hresources
    unfold Report.readRefetched at hcomplete ⊢
    rw [hresources] at hcomplete ⊢
    dsimp only at hcomplete ⊢
    have hread : hrefKey href ∉
        ((responses.map (resourceOf env second.url)).foldl (readRefetchedOne env) state).refetch.map Prod.fst := by
      split at hcomplete
      next hempty =>
        rw [List.isEmpty_iff.mp hempty]
        exact List.not_mem_nil
      · cases (Option.or_eq_none_iff.mp hcomplete).2
    obtain ⟨before, r, after, hsplit, hfailure, href', data, hhref, hkey, hdata, hevents⟩ :=
      readRefetchedAll_reads hasked hread
    obtain ⟨xs, ys, rfl, rfl, hrest⟩ := List.map_eq_append_iff.mp hsplit
    obtain ⟨response, zs, rfl, rfl, rfl⟩ := List.map_eq_cons_iff.mp hrest
    rw [calendarData_resourceOf] at hdata
    exact ⟨second, _, hanswer, hstatus, hresponses, xs, response, zs, rfl, answered_of_failure hfailure, href', data,
      hhref, hkey, hdata, hevents⟩

theorem keeps_readRefetched (state : Report Event Expansion) (answer : Except CalendarError DavResponse) :
    Keeps state (state.readRefetched env answer) := by
  unfold Report.readRefetched
  cases refetchedResources env answer with
  | error failure =>
    refine ⟨rfl, rfl, fun hnone => ?_, fun _ he => he⟩
    dsimp only at hnone
    split at hnone
    · exact hnone
    · exact (Option.or_eq_none_iff.mp hnone).1
  | ok resources =>
    have hkeeps := @keeps_readRefetchedAll _ _ env state resources
    refine ⟨hkeeps.url, hkeeps.calendarId, fun hnone => ?_, hkeeps.events⟩
    dsimp only at hnone
    split at hnone
    · exact hkeeps.incomplete hnone
    · exact hkeeps.incomplete (Option.or_eq_none_iff.mp hnone).1

/-- The report after both answers. -/
def wholeReport (env : Env Event Expansion) (answers : Answers) (state : Report Event Expansion) : Report Event Expansion :=
  if state.refetch.isEmpty then state else state.readRefetched env (answers.multiget (state.refetch.map (·.2)))

theorem keeps_wholeReport (answers : Answers) (state : Report Event Expansion) : Keeps state (wholeReport env answers state) := by
  unfold wholeReport
  split
  · exact Keeps.refl state
  · exact keeps_readRefetched state _

theorem wholeReport_reads {answers : Answers} {state : Report Event Expansion} {href : Url}
    (hcomplete : (wholeReport env answers state).incomplete = none) (hasked : hrefKey href ∈ state.refetch.map Prod.fst) :
    ReadWhole env state (answers.multiget (state.refetch.map (·.2))) href ((wholeReport env answers state).finish env) := by
  have hsome : ¬state.refetch.isEmpty = true := by
    intro hempty
    rw [List.isEmpty_iff.mp hempty] at hasked
    cases hasked
  unfold wholeReport at hcomplete ⊢
  rw [if_neg hsome] at hcomplete ⊢
  exact readRefetched_reads hcomplete hasked

/-- A report that came back is made of the responses of the first answer, and of the second one. -/
theorem report_ok {calendarId : Text} {window : SyncWindow} {answers : Answers} {fetched : Fetched Event}
    (hreport : report env calendarId window answers = .ok fetched) :
    ∃ first expanded responses, firstAnswer answers = .ok (first, expanded) ∧ first.status = multiStatus ∧
      responsesOf env first.url first.body = .ok responses ∧
      fetched = (wholeReport env answers (readUpTo env expanded first.url (startOf env first calendarId window responses)
        responses)).finish env := by
  unfold report at hreport
  cases hfirst : firstAnswer answers with
  | error e =>
    rw [hfirst] at hreport
    cases hreport
  | ok answer =>
    obtain ⟨first, expanded⟩ := answer
    rw [hfirst] at hreport
    dsimp only [Except.bind] at hreport
    split at hreport
    · cases hreport
    next hstatus =>
      obtain ⟨state, hstate, rfl⟩ := map_ok hreport
      unfold readReport at hstate
      obtain ⟨resources, hresources, rfl⟩ := map_ok hstate
      obtain ⟨responses, hresponses, rfl⟩ := map_ok hresources
      exact ⟨first, expanded, responses, rfl, by simpa using hstatus, hresponses, rfl⟩

/-- The store removes what an answer lacks only if the answer is complete. -/
theorem storeFetched_replaces {result : Except CalendarError (Fetched Event)} {events : List Event} :
    storeFetched result = .replaceEventsInRange events ↔
      ∃ fetched, result = .ok fetched ∧ fetched.incomplete = none ∧ fetched.events = events := by
  unfold storeFetched
  cases result with
  | error e => exact ⟨fun h => (nomatch h), fun ⟨_, h, _⟩ => (nomatch h)⟩
  | ok fetched =>
    cases hincomplete : fetched.incomplete with
    | none =>
      simp only [hincomplete, Option.isNone_none, if_true, StoreOp.replaceEventsInRange.injEq, Except.ok.injEq]
      exact ⟨fun h => ⟨fetched, rfl, hincomplete, h⟩, fun ⟨_, h, _, h'⟩ => h ▸ h'⟩
    | some message =>
      refine ⟨fun h => ?_, fun ⟨_, h, hnone, _⟩ => ?_⟩
      · simp [hincomplete] at h
      · cases h
        rw [hincomplete] at hnone
        cases hnone

/-- A complete answer has no response with a failure, and the calendar data of each of its responses was read: as it
was, or, where the server was to expand it and its data was refused, from the answer to the second request. -/
theorem complete_answer_read {calendarId : Text} {window : SyncWindow} {answers : Answers} {fetched : Fetched Event}
    (hreport : report env calendarId window answers = .ok fetched) (hcomplete : fetched.incomplete = none) :
    ∃ first expanded responses, firstAnswer answers = .ok (first, expanded) ∧ first.status = multiStatus ∧
      responsesOf env first.url first.body = .ok responses ∧
      env.truncated (wholeReport env answers (readUpTo env expanded first.url
        (startOf env first calendarId window responses) responses)).expansion = false ∧
      ∀ before response after, responses = before ++ response :: after →
        Answered response ∧
        ∀ data, deliveredData response = some data →
          ReadDirectly env expanded
            (readUpTo env expanded first.url (startOf env first calendarId window responses) before) data
            (resourceOf env first.url response).etag fetched ∨
          (expanded = true ∧
            readEvents env expanded
              (readUpTo env expanded first.url (startOf env first calendarId window responses) before) data
              (resourceOf env first.url response).etag = none ∧
            ∃ href, (resourceOf env first.url response).href = some href ∧ inside first.url href = true ∧
              ReadWhole env
                (readUpTo env expanded first.url (startOf env first calendarId window responses) responses)
                (answers.multiget ((readUpTo env expanded first.url
                  (startOf env first calendarId window responses) responses).refetch.map (·.2))) href fetched) := by
  obtain ⟨first, expanded, responses, hfirst, hstatus, hresponses, rfl⟩ := report_ok hreport
  obtain ⟨hwhole, htruncated⟩ := Option.or_eq_none_iff.mp hcomplete
  refine ⟨first, expanded, responses, hfirst, hstatus, hresponses, by simpa using htruncated, ?_⟩
  intro before response after hsplit
  have hkeeps := @keeps_wholeReport _ _ env answers
    (readUpTo env expanded first.url (startOf env first calendarId window responses) responses)
  have hread : (readUpTo env expanded first.url (startOf env first calendarId window responses) responses).incomplete = none :=
    hkeeps.incomplete hwhole
  have hstart : (startOf env first calendarId window responses).incomplete = none :=
    (grows_readResources _ _).incomplete hread
  have hmem : response ∈ responses := by simp [hsplit]
  refine ⟨answered_of_failure (failure_none_of_findSome hstart (List.mem_map_of_mem hmem)), fun data hdata => ?_⟩
  rw [← @calendarData_resourceOf _ _ env first.url] at hdata
  have hresources : responses.map (resourceOf env first.url) =
      before.map (resourceOf env first.url) ++ resourceOf env first.url response ::
        after.map (resourceOf env first.url) := by
    rw [hsplit, List.map_append, List.map_cons]
  have hreads := readResources_reads (startOf env first calendarId window responses) hdata
    (by rw [← hresources]; exact hread)
  rw [← hresources] at hreads
  rcases hreads with ⟨events, hevents, hin⟩ | ⟨hexpanded, hrefused, href, hhref, hinside, hkey⟩
  · exact Or.inl ⟨events, hevents, fun e he => hkeeps.events e (hin e he)⟩
  · exact Or.inr ⟨hexpanded, hrefused, href, hhref, hinside, wholeReport_reads hwhole hkey⟩

/-! ## A calendar with a series -/

def textOf (parts : List String) : Text := parts.flatMap String.toList

def element (ns : Text) (name : String) (text : Text) (children : List Element) : Element :=
  .mk ns name.toList [] text children

def href (path : Text) : Element := element dav "href" path []

def propstat (status : String) (props : List Element) : Element :=
  element dav "propstat" [] [element dav "prop" [] props, element dav "status" status.toList []]

def multistatus (responses : List Element) : Element := element dav "multistatus" [] responses

def calendarDataOf (data : Text) : Element := element caldav "calendar-data" data []

def collection : Url := ⟨"https".toList, none, "dav.example".toList, none, "/cal/".toList⟩

def calendarWith (lines : List String) : Text :=
  textOf (["BEGIN:VCALENDAR\n", "BEGIN:VEVENT\n"] ++ lines ++ ["END:VEVENT\n", "END:VCALENDAR"])

def single : Text := calendarWith ["UID:lunch\n", "DTSTART:", "20260105T120000Z\n"]

def series : Text := calendarWith ["UID:standup\n", "DTSTART:", "20260105T090000Z\n", "RRULE:FREQ=WEEKLY;", "COUNT=2\n"]

/-- An environment that reads the answers of one server, and of an event its name; a series has to be whole. -/
def serverEnv (documents : List (Text × Element)) : Env Text Unit where
  parseXml := fun body =>
    match documents.find? (·.1 == body) with
    | some (_, root) => .ok root
    | none => .error "unexpected end of stream".toList
  join := fun base path => some { base with path := path }
  isInternal := fun _ => false
  newExpansion := fun _ => ()
  parseIcsExpanded := fun data _ _ _ =>
    (if data == single then ["lunch".toList]
      else if data == series then ["standup".toList, "standup".toList] else [], ())
  parseIcsServerExpanded := fun data _ _ _ =>
    (if data == single then some ["lunch".toList] else if data == series then none else some [], ())
  truncated := fun _ => false
  unexpanded := fun _ => []
  debug := id

theorem serverEnv_parseXml (xml : Text) (root : Element) (rest : List (Text × Element)) :
    (serverEnv ((xml, root) :: rest)).parseXml xml = .ok root := by
  have hfound : ((xml, root) :: rest).find? (·.1 == xml) = some (xml, root) := List.find?_cons_of_pos (beq_self_eq_true xml)
  unfold serverEnv
  dsimp only
  rw [hfound]

def multistatusXml (responses : Text) : Text :=
  textOf ["<multistatus", " xmlns=\"DAV:\"", " xmlns:C=\"urn:ietf:", "params:xml:ns:caldav\">"] ++ responses ++
    textOf ["</multistatus>"]

def responseXml (path propstats : Text) : Text :=
  textOf ["<response><href>"] ++ path ++ textOf ["</href>"] ++ propstats ++ textOf ["</response>"]

def propstatXml (status : String) (props : Text) : Text :=
  textOf ["<propstat><prop>"] ++ props ++ textOf ["</prop><status>", status, "</status></propstat>"]

/-- A resource that may not be read has its ETag, and no calendar data. -/
def unreadable : Element :=
  element dav "response" [] [href "/cal/a.ics".toList,
    propstat "HTTP/1.1 200 OK" [element dav "getetag" ['1'] []],
    propstat "HTTP/1.1 403 Forbidden" [calendarDataOf []]]

def unreadableXml : Text :=
  multistatusXml (responseXml "/cal/a.ics".toList
    (propstatXml "HTTP/1.1 200 OK" (textOf ["<getetag>1</getetag>"]) ++
      propstatXml "HTTP/1.1 403 Forbidden" (textOf ["<C:calendar-data/>"])))

def unreadableEnv : Env Text Unit := serverEnv [(unreadableXml, multistatus [unreadable])]

def unreadableAnswers : Answers where
  expanding := .ok ⟨collection, 207, unreadableXml⟩
  plain := .ok ⟨collection, 207, unreadableXml⟩
  multiget := fun _ => .ok ⟨collection, 207, unreadableXml⟩

/-- An answer is complete although one of its resources, which is not the collection, delivered no calendar data. -/
theorem unreadable_resource_skipped :
    report unreadableEnv "work".toList ⟨0, 1⟩ unreadableAnswers = .ok ⟨[], none, []⟩ ∧
      firstAnswer unreadableAnswers = .ok (⟨collection, 207, unreadableXml⟩, true) ∧
      responsesOf unreadableEnv collection unreadableXml = .ok [unreadable] ∧
      (resourceOf unreadableEnv collection unreadable).href = some { collection with path := "/cal/a.ics".toList } ∧
      inside collection { collection with path := "/cal/a.ics".toList } = true ∧
      deliveredData unreadable = none := by
  obtain ⟨hreport, hhref, hinside, hdata⟩ :
      report unreadableEnv "work".toList ⟨0, 1⟩ unreadableAnswers = .ok ⟨[], none, []⟩ ∧
      (resourceOf unreadableEnv collection unreadable).href = some { collection with path := "/cal/a.ics".toList } ∧
      inside collection { collection with path := "/cal/a.ics".toList } = true ∧ deliveredData unreadable = none := by
    decide +kernel
  refine ⟨hreport, rfl, ?_, hhref, hinside, hdata⟩
  unfold responsesOf unreadableEnv
  rw [serverEnv_parseXml unreadableXml (multistatus [unreadable]) []]
  rfl

def read (path data : Text) : Element :=
  element dav "response" [] [href path, propstat "HTTP/1.1 200 OK" [calendarDataOf data]]

def readXml (path data : Text) : Text :=
  responseXml path (propstatXml "HTTP/1.1 200 OK" (textOf ["<C:calendar-data>"] ++ data ++ textOf ["</C:calendar-data>"]))

def firstXml : Text := multistatusXml (readXml "/cal/a.ics".toList single ++ readXml "/cal/b%40c.ics".toList series)

def secondXml : Text := multistatusXml (readXml "/cal/b@c.ics".toList series)

def lunch : Element := read "/cal/a.ics".toList single

def standup : Element := read "/cal/b%40c.ics".toList series

def seriesEnv : Env Text Unit :=
  serverEnv [(firstXml, multistatus [lunch, standup]), (secondXml, multistatus [read "/cal/b@c.ics".toList series])]

def firstResponse : DavResponse := ⟨collection, 207, firstXml⟩

/-- A server that does not expand a series, and names it in the second answer without the encoding of the first. -/
def seriesAnswers : Answers where
  expanding := .ok firstResponse
  plain := .ok firstResponse
  multiget := fun _ => .ok ⟨collection, 207, secondXml⟩

def seriesFetched : Fetched Text := ⟨["lunch".toList, "standup".toList, "standup".toList], none, []⟩

theorem report_series : report seriesEnv "work".toList ⟨0, 1⟩ seriesAnswers = .ok seriesFetched := by
  decide +kernel

theorem responsesOf_first : responsesOf seriesEnv collection firstXml = .ok [lunch, standup] := by
  unfold responsesOf seriesEnv
  rw [serverEnv_parseXml firstXml (multistatus [lunch, standup])]
  rfl

/-- What was read of the first answer, up to some of its responses. -/
def seriesUpTo (responses : List Element) : Report Text Unit :=
  readUpTo seriesEnv true collection (startOf seriesEnv firstResponse "work".toList ⟨0, 1⟩ [lunch, standup]) responses

/-- The single event is read from the first answer, the series from the second. -/
theorem series_read_whole :
    Answered lunch ∧ Answered standup ∧ ReadDirectly seriesEnv true (seriesUpTo []) single none seriesFetched ∧
      ∃ href, (resourceOf seriesEnv collection standup).href = some href ∧ inside collection href = true ∧
        ReadWhole seriesEnv (seriesUpTo [lunch, standup]) (.ok ⟨collection, 207, secondXml⟩) href seriesFetched := by
  obtain ⟨first, expanded, responses, hfirst, -, hresponses, -, hread⟩ := complete_answer_read report_series rfl
  cases hfirst
  cases responsesOf_first.symm.trans hresponses
  obtain ⟨hlunch, hsingle⟩ := hread [] lunch [standup] rfl
  obtain ⟨hstandup, hseries⟩ := hread [lunch] standup [] rfl
  refine ⟨hlunch, hstandup, ?_, ?_⟩
  · rcases hsingle single (by decide +kernel) with hdirect | ⟨-, hrefused, -⟩
    · exact hdirect
    · exact absurd hrefused (by decide +kernel)
  · rcases hseries series (by decide +kernel) with ⟨events, hevents, -⟩ | ⟨-, -, hwhole⟩
    · have hrefused : readEvents seriesEnv true (seriesUpTo [lunch]) series
          (resourceOf seriesEnv collection standup).etag = none := by decide +kernel
      cases hrefused.symm.trans hevents
    · exact hwhole

end CalDavComplete
