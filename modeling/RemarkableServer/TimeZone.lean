import RemarkableServer.Recurrence

/-!
# Time zones of a calendar object

`calendar/timezone.rs`: the offset from UTC that the observances of a VTIMEZONE give at a local
time, looked up at the cost of a budget.
-/
namespace TimeZone

open RustText Chrono Recurrence

/-- Seconds east of UTC, under a day. -/
abbrev Offset := {n : Int // -86400 < n ∧ n < 86400}

/-- From each onset on, the zone is `offsetTo` from UTC. -/
structure Observance where
  start : Option NaiveDateTime
  offsetFrom : Option Offset
  offsetTo : Option Offset
  rule : Option Rule
  rdates : List NaiveDateTime

/-- The offset of the digits of hours, minutes and maybe seconds. -/
def offsetOf (negative : Bool) (digits : Text) : Option Offset :=
  let field := fun i => Nat.ofDigitChars 10 ((digits.drop i).take 2) 0
  if (digits.length = 4 ∨ digits.length = 6) ∧ digits.all Char.isDigit = true then
    let seconds := if digits.length = 6 then field 4 else 0
    if h : field 0 < 24 ∧ field 2 < 60 ∧ seconds < 60 then
      let east : Int := field 0 * 3600 + field 2 * 60 + seconds
      some (if negative then ⟨-east, by omega⟩ else ⟨east, by omega⟩)
    else none
  else none

/-- `+0100`, `-0500`, `+053000` and `+01:00`. -/
def parseOffset (value : Text) : Option Offset :=
  match (trim value).filter (· ≠ ':') with
  | '+' :: digits => offsetOf false digits
  | '-' :: digits => offsetOf true digits
  | _ => none

namespace Observance

/-- One property of the observance. -/
def set (formats : Formats) (o : Observance) (name value : Text) : Observance :=
  if name = "DTSTART".toList then { o with start := formats.parseDateTime (trim value) }
  else if name = "TZOFFSETFROM".toList then { o with offsetFrom := parseOffset value }
  else if name = "TZOFFSETTO".toList then { o with offsetTo := parseOffset value }
  else if name = "RRULE".toList then { o with rule := Rule.parse formats value }
  else if name = "RDATE".toList then
    { o with rdates := o.rdates ++ (split ',' value).filterMap fun v => formats.parseDateTime (trim v) }
  else o

/-- The later of a time that may be missing and another. -/
def later (last : Option NaiveDateTime) (onset : NaiveDateTime) : Option NaiveDateTime :=
  some (last.elim onset fun last => max last onset)

/-- An onset of the rule counts up to the local time that is looked up. -/
def visitOnset (o : Observance) (rule : Rule) (wall : NaiveDateTime) (last : Option NaiveDateTime)
    (onset : NaiveDateTime) : Option NaiveDateTime × Bool :=
  let utc := (onset.checkedSubSigned (seconds (o.offsetFrom.elim 0 Subtype.val))).getD onset
  if wall < onset ∨ ¬rule.untilAllows onset utc then (last, false) else (later last onset, true)

/-- Where the walk of the rule starts: two years before the local time, or before the end of the rule. -/
def walkStart (rule : Rule) (wall : NaiveDateTime) : Option NaiveDate :=
  ((rule.untilDate.filter fun date => date.day < wall.date.day).getD wall.date).checkedSubDays 800

/-- The last listed onset at or before a local time. -/
def listed (o : Observance) (wall : NaiveDateTime) : Option NaiveDateTime :=
  (o.rdates.takeWhile fun onset => onset ≤ wall).getLast?

/-- The budget left, and the latest onset at or before a local time, if the budget was enough. -/
def lastOnset (o : Observance) (wall : NaiveDateTime) (budget : Nat) : Nat × Option (Option NaiveDateTime) :=
  match o.start with
  | none => (budget, some none)
  | some start =>
    if wall < start then (budget, some (o.listed wall))
    else
      match o.rule with
      | none => (budget, some (later (o.listed wall) start))
      | some rule =>
        let walked := rule.walk (o.visitOnset rule wall) start (walkStart rule wall) wall (later (o.listed wall) start) budget
        (walked.budget, if walked.done then some walked.state else none)

end Observance

/-- The observances of a zone, each with its first onset and its offset, and the listed onsets sorted. -/
structure Zone where
  observances : List Observance
  usable : ∀ o ∈ observances, o.start.isSome = true ∧ o.offsetTo.isSome = true ∧ o.rdates.Pairwise (· ≤ ·)

/-- The latest onset, with the offsets it changes from and to. -/
abbrev Latest := NaiveDateTime × Option Offset × Offset

namespace Zone

def empty : Zone := ⟨[], fun _ h => nomatch h⟩

/-- An observance without an onset or an offset is not added. -/
def add (zone : Zone) (o : Observance) : Zone :=
  if h : o.start.isSome = true ∧ o.offsetTo.isSome = true then
    { observances := zone.observances ++ [{ o with rdates := o.rdates.insertionSort (· ≤ ·) }]
      usable := by
        intro o' ho'
        rcases List.mem_append.mp ho' with ho' | ho'
        · exact zone.usable o' ho'
        · rw [List.mem_singleton.mp ho']
          exact ⟨h.1, h.2, List.pairwise_insertionSort (· ≤ ·) o.rdates⟩ }
  else zone

/-- An observance counts if its onset is later than those before it. -/
def latestOf (latest : Option Latest) (o : Observance) (onset : Option NaiveDateTime) : Option Latest :=
  match onset, o.offsetTo with
  | some onset, some after => if latest.all fun l => l.1 < onset then some (onset, o.offsetFrom, after) else latest
  | _, _ => latest

/-- The latest onset of some observances. -/
def latestOnset (wall : NaiveDateTime) : List Observance → Option Latest → Nat → Nat × Option (Option Latest)
  | [], latest, budget => (budget, some latest)
  | o :: rest, latest, budget =>
    let paid := charge budget 1
    if !paid.2 then (paid.1, none)
    else
      match o.lastOnset wall paid.1 with
      | (budget, none) => (budget, none)
      | (budget, some onset) => latestOnset wall rest (latestOf latest o onset) budget

/-- Whether a local time is in the gap that a clock going forward leaves. -/
def skipped (wall onset : NaiveDateTime) (before after : Offset) : Bool :=
  before.val < after.val && (onset.checkedAddSigned (seconds (after.val - before.val))).any fun gapEnd => wall < gapEnd

/-- The order of first onsets, none before some. -/
def startsBefore (a b : Observance) : Bool :=
  match a.start, b.start with
  | none, _ => true
  | some _, none => false
  | some x, some y => x ≤ y

/-- The first of the observances that start earliest. -/
def earliest : List Observance → Option Observance
  | [] => none
  | o :: rest =>
    match earliest rest with
    | none => some o
    | some e => if startsBefore o e then some o else some e

/-- The offset after the latest onset, or before them all. -/
def offsetAfter (zone : Zone) (wall : NaiveDateTime) : Option Latest → Option Offset
  | some (onset, some before, after) => if skipped wall onset before after then some before else some after
  | some (_, none, after) => some after
  | none => (earliest zone.observances).bind fun o => o.offsetFrom.or o.offsetTo

/-- The seconds east of UTC at a local time; none without an observance. -/
def offsetAt (zone : Zone) (wall : NaiveDateTime) (budget : Nat) : Nat × Option (Option Offset) :=
  let found := latestOnset wall zone.observances none budget
  (found.1, found.2.map (zone.offsetAfter wall))

/-- A local time of the zone in UTC. -/
def toUtc (zone : Zone) (wall : NaiveDateTime) (budget : Nat) : Nat × Option (Option NaiveDateTime) :=
  let found := zone.offsetAt wall budget
  (found.1, found.2.map fun offset => offset.bind fun offset => wall.checkedSubSigned (seconds offset.val))

end Zone

end TimeZone
