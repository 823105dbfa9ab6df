import RemarkableServer.IcsParser

/-!
# Components within events

A balanced block of components leaves the parser of an event where it was. What a block
that is not balanced leaves behind ends with the event.
-/
namespace IcsNesting

open RustText Chrono Recurrence TimeZone Ics

variable {formats : Formats} {maxEvents nested : Nat} {doc : Document} {state : State} {fields : VEventFields}
  {l b e : Text} {ls before after block : List Text}

/-! ## Lines -/

/-- The first of some raw lines does not go on with a line before it. -/
def Starts (raws : List Text) : Prop := ∀ raw, raws.head? = some raw → continuation raw = none

theorem unfoldFrom_append (h : Starts after) (line : Text) (before : List Text) :
    unfoldFrom line (before ++ after) = unfoldFrom line before ++ unfoldLines after := by
  induction before generalizing line with
  | nil =>
    cases after with
    | nil => rfl
    | cons raw after =>
      show unfoldFrom line (raw :: after) = line :: unfoldLines (raw :: after)
      rw [unfoldFrom, h raw rfl]
      rfl
  | cons raw before ih =>
    rw [List.cons_append, unfoldFrom, unfoldFrom]
    cases continuation raw with
    | none => exact congrArg (line :: ·) (ih raw)
    | some more => exact ih (line ++ more)

theorem unfoldLines_append (h : Starts after) (before : List Text) :
    unfoldLines (before ++ after) = unfoldLines before ++ unfoldLines after := by
  cases before with
  | nil => rfl
  | cons raw before => exact unfoldFrom_append h raw before

theorem Starts.append (h : Starts before) (h' : Starts after) : Starts (before ++ after) := by
  cases before with
  | nil => exact h'
  | cons raw before => exact h

/-- BEGIN:VEVENT. -/
def beginsEvent (line : Text) : Bool := (readProperty line).any fun p => p.begins "VEVENT".toList

/-- END:VEVENT. -/
def endsEvent (line : Text) : Bool := (readProperty line).any fun p => p.ends "VEVENT".toList

/-- A BEGIN of another component. -/
def Begins (line : Text) : Prop :=
  ∃ p, readProperty line = some p ∧ p.name = "BEGIN".toList ∧ p.component ≠ "VEVENT".toList

/-- An END of another component. -/
def Ends (line : Text) : Prop :=
  ∃ p, readProperty line = some p ∧ p.name = "END".toList ∧ p.component ≠ "VEVENT".toList

/-- A property, or no line of content. -/
def Leaf (line : Text) : Prop := ∀ p, readProperty line = some p → p.name ≠ "BEGIN".toList ∧ p.name ≠ "END".toList

/-- What may stand in a component. -/
inductive Nested : List Text → Prop where
  | nil : Nested []
  | leaf {l : Text} {ls : List Text} (hl : Leaf l) (hrest : Nested ls) : Nested (l :: ls)
  | component {b e : Text} {body ls : List Text} (hb : Begins b) (hbody : Nested body) (he : Ends e) (hrest : Nested ls) :
    Nested (b :: (body ++ e :: ls))

/-- Components that are closed, whatever their names and what is in them. -/
inductive Balanced : List Text → Prop where
  | nil : Balanced []
  | component {b e : Text} {body ls : List Text} (hb : Begins b) (hbody : Nested body) (he : Ends e) (hrest : Balanced ls) :
    Balanced (b :: (body ++ e :: ls))

/-- No line begins or ends an event. -/
def WithinEvent (ls : List Text) : Prop := ∀ l ∈ ls, beginsEvent l = false ∧ endsEvent l = false

/-- After these lines the parser is in an event. -/
def InEvent (ls : List Text) : Prop :=
  ∃ before b inside, ls = before ++ b :: inside ∧ beginsEvent b = true ∧ WithinEvent inside

/-! ## The parser in an event -/

/-- A line that neither begins nor ends an event is the event's. -/
theorem parseLine_property {p : Property} (hp : readProperty l = some p) (hbegins : p.begins "VEVENT".toList = false)
    (hends : p.ends "VEVENT".toList = false) :
    parseLine formats maxEvents (doc, .event fields nested) l = (doc, eventProperty formats fields nested p) := by
  unfold parseLine
  rw [hp]
  simp only [parseProperty, hbegins, hends, Bool.false_eq_true, if_false]

theorem begins_of_ne {p : Property} (h : p.component ≠ "VEVENT".toList) :
    p.begins "VEVENT".toList = false ∧ p.ends "VEVENT".toList = false := by
  rw [Property.begins, Property.ends, beq_eq_false_iff_ne.mpr h, Bool.and_false, Bool.and_false]
  exact ⟨rfl, rfl⟩

theorem parseLine_begins (hb : Begins b) :
    parseLine formats maxEvents (doc, .event fields nested) b = (doc, .event fields (nested + 1)) := by
  obtain ⟨p, hp, hname, hcomponent⟩ := hb
  obtain ⟨hbegins, hends⟩ := begins_of_ne hcomponent
  rw [parseLine_property hp hbegins hends, eventProperty, if_pos hname]

theorem parseLine_ends (he : Ends e) :
    parseLine formats maxEvents (doc, .event fields nested) e = (doc, .event fields (nested - 1)) := by
  obtain ⟨p, hp, hname, hcomponent⟩ := he
  obtain ⟨hbegins, hends⟩ := begins_of_ne hcomponent
  rw [parseLine_property hp hbegins hends, eventProperty, if_neg (by rw [hname]; decide), if_pos hname]

theorem parseLine_leaf (hl : Leaf l) :
    parseLine formats maxEvents (doc, .event fields (nested + 1)) l = (doc, .event fields (nested + 1)) := by
  cases hp : readProperty l with
  | none => rw [parseLine, hp]
  | some p =>
    obtain ⟨hbegin, hend⟩ := hl p hp
    have hbegins : p.begins "VEVENT".toList = false := by
      rw [Property.begins, beq_eq_false_iff_ne.mpr hbegin, Bool.false_and]
    have hends : p.ends "VEVENT".toList = false := by
      rw [Property.ends, beq_eq_false_iff_ne.mpr hend, Bool.false_and]
    rw [parseLine_property hp hbegins hends, eventProperty, if_neg hbegin, if_neg hend, if_neg (Nat.succ_ne_zero nested)]

theorem run_nested (h : Nested ls) (nested : Nat) :
    ls.foldl (parseLine formats maxEvents) (doc, .event fields (nested + 1)) = (doc, .event fields (nested + 1)) := by
  induction h generalizing nested with
  | nil => rfl
  | leaf hl _ ih => rw [List.foldl_cons, parseLine_leaf hl, ih]
  | component hb _ he _ ihbody ihrest =>
    rw [List.foldl_cons, parseLine_begins hb, List.foldl_append, ihbody, List.foldl_cons, parseLine_ends he]
    exact ihrest nested

/-- A balanced block changes nothing. -/
theorem run_balanced (h : Balanced ls) :
    ls.foldl (parseLine formats maxEvents) (doc, .event fields nested) = (doc, .event fields nested) := by
  induction h with
  | nil => rfl
  | component hb hbody he _ ih =>
    rw [List.foldl_cons, parseLine_begins hb, List.foldl_append, run_nested hbody, List.foldl_cons, parseLine_ends he]
    exact ih

theorem eventProperty_event (p : Property) :
    ∃ fields' nested', eventProperty formats fields nested p = .event fields' nested' := by
  unfold eventProperty
  split
  · exact ⟨_, _, rfl⟩
  · split
    · exact ⟨_, _, rfl⟩
    · split
      · exact ⟨_, _, rfl⟩
      · exact ⟨_, _, rfl⟩

theorem parseLine_event (hbegins : beginsEvent l = false) (hends : endsEvent l = false) (fields : VEventFields) (nested : Nat) :
    ∃ fields' nested', ∀ maxEvents doc,
      parseLine formats maxEvents (doc, .event fields nested) l = (doc, .event fields' nested') := by
  cases hp : readProperty l with
  | none => exact ⟨fields, nested, fun _ _ => by rw [parseLine, hp]⟩
  | some p =>
    rw [beginsEvent, hp] at hbegins
    rw [endsEvent, hp] at hends
    obtain ⟨fields', nested', hevent⟩ := @eventProperty_event formats nested fields p
    exact ⟨fields', nested', fun _ _ => by rw [parseLine_property hp hbegins hends, hevent]⟩

theorem run_within (h : WithinEvent ls) (doc : Document) (fields : VEventFields) (nested : Nat) :
    ∃ fields' nested', ls.foldl (parseLine formats maxEvents) (doc, .event fields nested) = (doc, .event fields' nested') := by
  induction ls generalizing fields nested with
  | nil => exact ⟨fields, nested, rfl⟩
  | cons l ls ih =>
    obtain ⟨⟨hbegins, hends⟩, hrest⟩ := List.forall_mem_cons.mp h
    obtain ⟨fields', nested', hline⟩ := @parseLine_event formats l hbegins hends fields nested
    rw [List.foldl_cons, hline]
    exact ih hrest fields' nested'

theorem parseLine_beginsEvent (hb : beginsEvent b = true) (doc : Document) (state : State) :
    parseLine formats maxEvents (doc, state) b = (doc.finish state, .event .blank 0) := by
  obtain ⟨p, hp, hbegins⟩ := (Option.any_eq_true _ _).mp hb
  rw [parseLine, hp]
  exact if_pos hbegins

theorem run_inEvent (h : InEvent ls) (parsing : Document × State) :
    ∃ doc fields nested, ls.foldl (parseLine formats maxEvents) parsing = (doc, .event fields nested) := by
  obtain ⟨before, b, inside, rfl, hb, hinside⟩ := h
  rw [List.foldl_append, List.foldl_cons]
  obtain ⟨doc, state⟩ := before.foldl (parseLine formats maxEvents) parsing
  rw [parseLine_beginsEvent hb]
  obtain ⟨fields, nested, hrun⟩ := @run_within formats maxEvents inside hinside (doc.finish state) .blank 0
  exact ⟨_, fields, nested, hrun⟩

/-! ## Events on their own -/

/-- The lines of an event after its BEGIN, with its END, if it comes before another event. -/
def ownLines : List Text → List Text
  | [] => []
  | l :: ls => if beginsEvent l then [] else if endsEvent l then [l] else l :: ownLines ls

/-- The lines of each event. -/
def vevents : List Text → List (List Text)
  | [] => []
  | l :: ls => if beginsEvent l then (l :: ownLines ls) :: vevents ls else vevents ls

/-- The events, each parsed without the rest. -/
def eventsAlone (formats : Formats) (ls : List Text) : List VEventFields :=
  (vevents ls).flatMap fun own => (parseLines formats 1 own).events

/-- What becomes of the event that the parser is in. -/
def pending (formats : Formats) (state : State) (ls : List Text) : List VEventFields :=
  match state with
  | .event _ _ => ((ownLines ls).foldl (parseLine formats 1) (.blank, state)).1.events
  | _ => []

theorem finish_events (doc : Document) (state : State) : (doc.finish state).events = doc.events := by
  unfold Document.finish
  split
  · rfl
  · rfl

theorem timezoneProperty_timezone (tzid : Option Text) (zone : Zone) (observance : Option Observance) (p : Property) :
    ∃ tzid' zone' observance' nested',
      timezoneProperty formats tzid zone observance nested p = .timezone tzid' zone' observance' nested' := by
  unfold timezoneProperty
  repeat' split
  all_goals exact ⟨_, _, _, _, rfl⟩

theorem pending_begins (hb : beginsEvent l = true) : pending formats state (l :: ls) = [] := by
  cases state with
  | outside => rfl
  | timezone tzid zone observance nested => rfl
  | event fields nested => rw [pending, ownLines, if_pos hb]; rfl

theorem parseLine_endsEvent (hb : beginsEvent l = false) (he : endsEvent l = true) :
    parseLine formats maxEvents (doc, .event fields nested) l = (doc.addEvent maxEvents fields, .outside) := by
  obtain ⟨p, hp, hends⟩ := (Option.any_eq_true _ _).mp he
  rw [beginsEvent, hp] at hb
  have hb : p.begins "VEVENT".toList = false := hb
  unfold parseLine
  rw [hp]
  simp only [parseProperty, hb, hends, Bool.false_eq_true, if_false, if_true]

theorem pending_ends (hb : beginsEvent l = false) (he : endsEvent l = true) :
    pending formats (.event fields nested) (l :: ls) = [fields] := by
  rw [pending, ownLines, hb, he, if_neg Bool.false_ne_true, if_pos rfl, List.foldl_cons, parseLine_endsEvent hb he]
  rfl

theorem pending_event {fields' : VEventFields} {nested' : Nat} (hb : beginsEvent l = false) (he : endsEvent l = false)
    (hline : ∀ maxEvents doc, parseLine formats maxEvents (doc, .event fields nested) l = (doc, .event fields' nested')) :
    pending formats (.event fields nested) (l :: ls) = pending formats (.event fields' nested') ls := by
  rw [pending, ownLines, hb, he, if_neg Bool.false_ne_true, if_neg Bool.false_ne_true, List.foldl_cons, hline]
  rfl

/-- The first line of an event on its own begins it. -/
theorem events_alone (hb : beginsEvent l = true) (ls : List Text) :
    (parseLines formats 1 (l :: ownLines ls)).events = pending formats (.event .blank 0) ls := by
  unfold parseLines
  rw [List.foldl_cons, parseLine_beginsEvent hb]
  exact finish_events _ _

def NotEvent (state : State) : Prop := ∀ fields nested, state ≠ .event fields nested

theorem pending_notEvent (h : NotEvent state) (ls : List Text) : pending formats state ls = [] := by
  cases state with
  | outside => rfl
  | timezone tzid zone observance nested => rfl
  | event fields nested => exact absurd rfl (h fields nested)

theorem parseLine_notEvent (h : NotEvent state) (hb : beginsEvent l = false) :
    ∃ doc' state', parseLine formats maxEvents (doc, state) l = (doc', state') ∧ doc'.events = doc.events ∧ NotEvent state' := by
  unfold parseLine
  cases hp : readProperty l with
  | none => exact ⟨doc, state, rfl, rfl, h⟩
  | some p =>
    rw [beginsEvent, hp] at hb
    have hb : ¬ p.begins "VEVENT".toList = true := Bool.eq_false_iff.mp hb
    dsimp only [parseProperty]
    rw [if_neg hb]
    cases state with
    | event fields nested => exact absurd rfl (h fields nested)
    | outside =>
      dsimp only
      split
      · exact ⟨_, _, rfl, rfl, fun _ _ h => nomatch h⟩
      · exact ⟨_, _, rfl, rfl, fun _ _ h => nomatch h⟩
    | timezone tzid zone observance nested =>
      dsimp only
      split
      · exact ⟨_, _, rfl, finish_events doc _, fun _ _ h => nomatch h⟩
      · obtain ⟨_, _, _, _, hzone⟩ := @timezoneProperty_timezone formats nested tzid zone observance p
        rw [hzone]
        exact ⟨_, _, rfl, rfl, fun _ _ h => nomatch h⟩

/-- One more event, if there is room. -/
theorem addEvent_events (hdoc : doc.events.length ≤ maxEvents) (fields : VEventFields) (rest : List VEventFields) :
    (doc.addEvent maxEvents fields).events.length ≤ maxEvents ∧
      ((doc.addEvent maxEvents fields).events ++ rest).take maxEvents = (doc.events ++ fields :: rest).take maxEvents := by
  unfold Document.addEvent
  by_cases hroom : doc.events.length < maxEvents
  · rw [if_pos hroom, List.append_assoc]
    refine ⟨?_, rfl⟩
    rw [List.length_append]
    exact hroom
  · have hfull : doc.events.length = maxEvents := by omega
    rw [if_neg hroom]
    exact ⟨hdoc, by rw [← hfull, List.take_left, List.take_left]⟩

/-- The events found are those before, the one that the parser is in, and those of the lines, up to the most kept. -/
theorem run_events (ls : List Text) (doc : Document) (state : State) (hdoc : doc.events.length ≤ maxEvents) :
    (ls.foldl (parseLine formats maxEvents) (doc, state)).1.events =
      (doc.events ++ (pending formats state ls ++ eventsAlone formats ls)).take maxEvents := by
  induction ls generalizing doc state with
  | nil =>
    have hnil : pending formats state [] ++ eventsAlone formats [] = [] := by cases state <;> rfl
    rw [hnil, List.append_nil, List.take_of_length_le hdoc]
    rfl
  | cons l ls ih =>
    rw [List.foldl_cons, eventsAlone, vevents]
    by_cases hb : beginsEvent l = true
    · rw [parseLine_beginsEvent hb, pending_begins hb, if_pos hb, List.flatMap_cons, events_alone hb, List.nil_append,
        ih _ _ (by rw [finish_events]; exact hdoc), finish_events]
      rfl
    · have hb := Bool.eq_false_iff.mpr hb
      rw [hb, if_neg Bool.false_ne_true]
      by_cases hstate : ∃ fields nested, state = .event fields nested
      · obtain ⟨fields, nested, rfl⟩ := hstate
        by_cases he : endsEvent l = true
        · obtain ⟨hlength, htake⟩ := addEvent_events hdoc fields (eventsAlone formats ls)
          rw [parseLine_endsEvent hb he, pending_ends hb he, ih _ _ hlength]
          exact htake
        · have he := Bool.eq_false_iff.mpr he
          obtain ⟨fields', nested', hline⟩ := @parseLine_event formats l hb he fields nested
          rw [hline, pending_event hb he hline]
          exact ih doc _ hdoc
      · have hstate : NotEvent state := fun fields nested h => hstate ⟨fields, nested, h⟩
        obtain ⟨doc', state', hline, hevents, hstate'⟩ := @parseLine_notEvent formats maxEvents doc state l hstate hb
        rw [hline, ih doc' state' (by rw [hevents]; exact hdoc), hevents, pending_notEvent hstate, pending_notEvent hstate']
        rfl

/-- Every event is parsed as on its own. -/
theorem parseLines_events (formats : Formats) (maxEvents : Nat) (ls : List Text) :
    (parseLines formats maxEvents ls).events = (eventsAlone formats ls).take maxEvents := by
  unfold parseLines
  have hrun := @run_events formats maxEvents ls .blank .outside (Nat.zero_le _)
  exact (finish_events _ _).trans hrun

theorem beginsEvent_of_endsEvent (he : endsEvent e = true) : beginsEvent e = false := by
  obtain ⟨p, hp, hends⟩ := (Option.any_eq_true _ _).mp he
  have hname : p.name = "END".toList := beq_iff_eq.mp (Bool.and_eq_true _ _ ▸ hends).1
  have hne : p.name ≠ "BEGIN".toList := by
    rw [hname]
    decide
  rw [beginsEvent, hp, Option.any_some, Property.begins, beq_eq_false_iff_ne.mpr hne, Bool.false_and]

/-- An event ends with its END. -/
theorem ownLines_append (he : endsEvent e = true) (ls rest : List Text) : ownLines (ls ++ e :: rest) = ownLines (ls ++ [e]) := by
  induction ls with
  | nil =>
    rw [List.nil_append, List.nil_append, ownLines, ownLines, beginsEvent_of_endsEvent he, he]
    rfl
  | cons l ls ih => rw [List.cons_append, List.cons_append, ownLines, ownLines, ih]

theorem vevents_append (he : endsEvent e = true) (ls rest : List Text) :
    vevents (ls ++ e :: rest) = vevents (ls ++ [e]) ++ vevents rest := by
  induction ls with
  | nil =>
    rw [List.nil_append, List.nil_append, vevents, vevents, beginsEvent_of_endsEvent he]
    rfl
  | cons l ls ih =>
    rw [List.cons_append, List.cons_append, vevents, vevents, ih, ownLines_append he]
    split
    · rfl
    · rfl

/-- A balanced block within an event changes nothing, and after a block that is not balanced every event that begins
after the END of this one is parsed as on its own. -/
theorem nested_components_stay_inside (formats : Formats) (maxEvents : Nat) (content' : Text) (before block after : List Text)
    (hlines : lines content' = before ++ (block ++ after)) (hblock : Starts block) (hafter : Starts after)
    (hin : InEvent (unfoldLines before)) :
    (Balanced (unfoldLines block) → ∀ content, lines content = before ++ after →
      Document.parse formats content' maxEvents = Document.parse formats content maxEvents) ∧
    (WithinEvent (unfoldLines block) → ∀ inside e rest, unfoldLines after = inside ++ e :: rest → WithinEvent inside →
      endsEvent e = true →
      (Document.parse formats content' maxEvents).events =
        (eventsAlone formats (unfoldLines before ++ unfoldLines block ++ inside ++ [e]) ++ eventsAlone formats rest).take
          maxEvents) := by
  have hunfold : unfoldIcsLines content' = unfoldLines before ++ (unfoldLines block ++ unfoldLines after) := by
    rw [unfoldIcsLines, hlines, unfoldLines_append (hblock.append hafter), unfoldLines_append hafter]
  constructor
  · intro hbalanced content hcontent
    obtain ⟨doc, fields, nested, hrun⟩ := @run_inEvent formats maxEvents (unfoldLines before) hin (.blank, .outside)
    rw [Document.parse, Document.parse, hunfold, unfoldIcsLines, hcontent, unfoldLines_append hafter, parseLines, parseLines,
      List.foldl_append, List.foldl_append, List.foldl_append, hrun, run_balanced hbalanced]
  · intro _ inside e rest hrest _ he
    rw [Document.parse, hunfold, parseLines_events, hrest]
    congr 1
    have hsplit : unfoldLines before ++ (unfoldLines block ++ (inside ++ e :: rest)) =
        (unfoldLines before ++ unfoldLines block ++ inside) ++ e :: rest := by
      rw [List.append_assoc, List.append_assoc]
    rw [hsplit, eventsAlone, vevents_append he, List.flatMap_append]
    rfl

/-! ## A block in an event -/

def eventLines : List Text := ["BEGIN:VEVENT".toList, "UID:a".toList]

def blockLines : List Text := ["BEGIN:STANDARD".toList, "UID:b".toList, "END:VALARM".toList]

def sample (ls : List Text) : Text := ls.flatMap fun l => l ++ ['\n']

/-- A block that is not closed in its event. -/
def openLines : List Text := ["BEGIN:VALARM".toList, "UID:b".toList]

/-- The rest of the event, and another one. -/
def laterLines : List Text :=
  ["END:VEVENT".toList, "BEGIN:VEVENT".toList, "UID:c".toList, "END:VEVENT".toList]

/-- A reader of no times: there are none here. -/
def noTimes : Formats := ⟨fun _ => none, fun _ => none⟩

theorem inEvent_eventLines : InEvent (unfoldLines eventLines) :=
  ⟨[], "BEGIN:VEVENT".toList, ["UID:a".toList], rfl, by decide, List.forall_mem_singleton.mpr (by decide)⟩

theorem sample_block :
    Document.parse noTimes (sample (eventLines ++ (blockLines ++ ["END:VEVENT".toList]))) 1 =
        Document.parse noTimes (sample (eventLines ++ ["END:VEVENT".toList])) 1 ∧
      (Document.parse noTimes (sample (eventLines ++ (openLines ++ laterLines))) 2).events.map (·.uid) =
        [some "a".toList, some "c".toList] := by
  constructor
  · have hbalanced : Balanced (unfoldLines blockLines) :=
      .component ⟨⟨"BEGIN".toList, [], "STANDARD".toList⟩, by decide, rfl, by decide⟩
        (.leaf (fun p hp => by cases hp; decide) .nil) ⟨⟨"END".toList, [], "VALARM".toList⟩, by decide, rfl, by decide⟩ .nil
    exact (nested_components_stay_inside noTimes 1 _ eventLines blockLines ["END:VEVENT".toList] (by decide)
      (fun raw hraw => Option.some.inj hraw ▸ rfl) (fun raw hraw => Option.some.inj hraw ▸ rfl) inEvent_eventLines).1
      hbalanced _ (by decide)
  · have hwithin : WithinEvent (unfoldLines openLines) :=
      List.forall_mem_cons.mpr ⟨by decide, List.forall_mem_singleton.mpr (by decide)⟩
    rw [(nested_components_stay_inside noTimes 2 _ eventLines openLines laterLines (by decide)
      (fun raw hraw => Option.some.inj hraw ▸ rfl) (fun raw hraw => Option.some.inj hraw ▸ rfl) inEvent_eventLines).2
      hwithin [] "END:VEVENT".toList (laterLines.drop 1) rfl (fun _ hl => nomatch hl) (by decide)]
    decide +kernel

end IcsNesting
