import Mathlib.Data.Char
import Mathlib.Data.List.Lex
import RemarkableServer.Lib.RustText
import RemarkableServer.Lib.Utf8

/-!
# The answers of a CalDAV server

`calendar_providers/caldav.rs`: a multistatus answer is read into resources, and a REPORT
into the events of its calendar data. Data that a server was asked to expand and did not is
asked for again, whole. What XML, URLs and calendar data say is for other code to tell.
-/
namespace CalDav

open RustText

/-! ## XML -/

/-- An element with its namespace, name, attributes, text and children. -/
inductive Element where
  | mk (ns name : Text) (attrs : List (Text × Text)) (text : Text) (children : List Element)

namespace Element

def ns : Element → Text
  | .mk ns _ _ _ _ => ns

def name : Element → Text
  | .mk _ name _ _ _ => name

def attrs : Element → List (Text × Text)
  | .mk _ _ attrs _ _ => attrs

def text : Element → Text
  | .mk _ _ _ text _ => text

def children : Element → List Element
  | .mk _ _ _ _ children => children

def isNamed (e : Element) (ns name : Text) : Bool := e.ns == ns && e.name == name

def child (e : Element) (ns name : Text) : Option Element := e.children.find? (·.isNamed ns name)

def childrenNamed (e : Element) (ns name : Text) : List Element := e.children.filter (·.isNamed ns name)

def attr (e : Element) (name : Text) : Option Text := (e.attrs.find? (·.1 == name)).map (·.2)

end Element

def dav : Text := "DAV:".toList

def caldav : Text := "urn:ietf:params:xml:ns:caldav".toList

/-! ## URLs -/

/-- The userinfo is a user name, with a password if it holds one. -/
structure Url where
  scheme : Text
  userinfo : Option (Text × Option Text)
  host : Text
  port : Option Nat
  path : Text
  deriving DecidableEq, Repr

/-- The serialized origin. -/
def Url.origin (u : Url) : Text :=
  u.scheme ++ "://".toList ++ u.host ++ (u.port.map fun p => ':' :: showU64 p).getD []

/-- A URL without its credentials and its query. -/
def redact (u : Url) : Text := u.origin ++ u.path

def hexByte (b : UInt8) : Option Nat := hexValue (Char.ofNat b.toNat)

/-- The byte of the two digits after a percent sign. -/
def escaped : Bytes → Option UInt8
  | a :: b :: _ => (hexByte a).bind fun hi => (hexByte b).map fun lo => UInt8.ofNat (hi * 16 + lo)
  | _ => none

/-- Decoding after `skip` more bytes. -/
def decodeFrom : Nat → Bytes → Bytes
  | _, [] => []
  | skip + 1, _ :: rest => decodeFrom skip rest
  | 0, c :: rest =>
    match if c = 0x25 then escaped rest else none with
    | some b => b :: decodeFrom 2 rest
    | none => c :: decodeFrom 0 rest

/-- `urlencoding::decode_binary`: what is not a percent sign with two digits stays. -/
def decodeBinary (bytes : Bytes) : Bytes := decodeFrom 0 bytes

/-- `urlencoding::decode`. -/
def decodePath (path : Text) : Option Text := Utf8Codec.decode (decodeBinary (Utf8Codec.encode path))

/-- What names the resource, however its path is encoded. -/
def hrefKey (href : Url) : Text := href.origin ++ (decodePath href.path).getD href.path

def sameSegment (a b : Text) : Bool := decodeBinary (Utf8Codec.encode a) == decodeBinary (Utf8Codec.encode b)

/-- What is left of a path below a directory. -/
def below : List Text → List Text → Option (List Text)
  | [], path => some path
  | _ :: _, [] => none
  | dir :: dirs, segment :: path => if sameSegment segment dir then below dirs path else none

/-- Whether the resource is inside the collection, and not the collection itself. -/
def inside (collection href : Url) : Bool :=
  if href.origin != collection.origin then false
  else
    match below (split '/' (collection.path.rdropWhile (· == '/'))) (split '/' href.path) with
    | none | some [] | some [[]] => false
    | some _ => true

/-! ## The environment -/

/-- A window of time, in seconds. -/
structure SyncWindow where
  start : Int
  stop : Int
  deriving DecidableEq, Repr

/-- The XML parser, the joining of URLs, the calendar data parsers with what they keep of the window and the
budgets, and how a text is quoted. -/
structure Env (Event Expansion : Type) where
  parseXml : Text → Except Text Element
  join : Url → Text → Option Url
  isInternal : Url → Bool
  newExpansion : SyncWindow → Expansion
  parseIcsExpanded : Text → Text → Option Text → Expansion → List Event × Expansion
  parseIcsServerExpanded : Text → Text → Option Text → Expansion → Option (List Event) × Expansion
  truncated : Expansion → Bool
  unexpanded : Expansion → List Text
  debug : Text → Text

variable {Event Expansion : Type}

/-- A hop leaves its origin only for HTTPS, and not for an internal address of another host. -/
def follow (env : Env Event Expansion) (source : Url) (target : Text) : Option Url :=
  (env.join source target).filter fun next =>
    next.origin == source.origin ||
      (next.scheme == "https".toList && !(next.host != source.host && env.isInternal next))

inductive CalendarError where
  | notFound (message : Text)
  | backend (message : Text)
  | parse (message : Text)
  | authRequired (message : Text)
  | database (message : Text)
  | network (message : Text)
  | io (message : Text)
  deriving DecidableEq, Repr

def CalendarError.display : CalendarError → Text
  | .notFound message => "Calendar not found: ".toList ++ message
  | .backend message => "Backend error: ".toList ++ message
  | .parse message => "Parse error: ".toList ++ message
  | .authRequired message => "Auth required for ".toList ++ message
  | .database message => "Database error: ".toList ++ message
  | .network message => "Network error: ".toList ++ message
  | .io message => "IO error: ".toList ++ message

/-- The words of a text. -/
def splitWhitespace (t : Text) : List Text := (t.splitBy fun a b => isWhitespace a == isWhitespace b).filter
  fun word => !word.any isWhitespace

def intercalate (sep : Text) (parts : List Text) : Text := (parts.intersperse sep).flatten

/-- The start of a body, on one line. -/
def snippet (body : Text) : Text :=
  let collapsed := intercalate [' '] (splitWhitespace body)
  if 300 < collapsed.length then collapsed.take 300 ++ "...".toList else collapsed

structure DavResponse where
  url : Url
  status : Nat
  body : Text
  deriving DecidableEq, Repr

def multiStatus : Nat := 207

def davError (context : Text) (status : Nat) (body : Text) : CalendarError :=
  let message := context ++ " failed (HTTP ".toList ++ showU64 status ++ "): ".toList ++ snippet body
  if status == 401 || status == 403 then .authRequired message
  else if status == 404 then .notFound message
  else .backend message

/-! ## Resources -/

def maxEtagBytes : Nat := 1024

/-- The properties of a response. -/
structure Resource where
  failure : Option Nat
  href : Option Url
  isCalendar : Bool
  displayName : Option Text
  components : Option (List Text)
  principal : Option Url
  calendarHome : Option Url
  etag : Option Text
  calendarData : Option Text
  deriving DecidableEq, Repr

/-- `str::parse::<u16>`. -/
def parseU16 (t : Text) : Option Nat := (parseU64 t).filter (· < 65536)

/-- The code of a status, if there is a status, and if it has one. -/
def statusCode (e : Element) : Option (Option Nat) :=
  (e.child dav "status".toList).map fun status => ((splitWhitespace status.text)[1]?).bind parseU16

def hrefIn (env : Env Event Expansion) (e : Element) (base : Url) : Option Url :=
  (e.child dav "href".toList).bind fun href => follow env base (trim href.text)

/-- One property of a propstat that is there. -/
def readProp (env : Env Event Expansion) (base : Url) (r : Resource) (p : Element) : Resource :=
  if p.isNamed dav "resourcetype".toList then
    { r with isCalendar := r.isCalendar || (p.child caldav "calendar".toList).isSome }
  else if p.isNamed dav "displayname".toList then { r with displayName := some (trim p.text) }
  else if p.isNamed dav "current-user-principal".toList then { r with principal := hrefIn env p base }
  else if p.isNamed dav "getetag".toList then
    { r with etag := if byteLen (trim p.text) ≤ maxEtagBytes then some (trim p.text) else none }
  else if p.isNamed caldav "calendar-home-set".toList then { r with calendarHome := hrefIn env p base }
  else if p.isNamed caldav "supported-calendar-component-set".toList then
    { r with components := some ((p.childrenNamed caldav "comp".toList).filterMap (·.attr "name".toList)) }
  else if p.isNamed caldav "calendar-data".toList && !(trim p.text).isEmpty then { r with calendarData := some p.text }
  else r

/-- A propstat counts when its status is 200 or it has none; from 500 on the server could not answer. -/
def readPropstat (env : Env Event Expansion) (base : Url) (r : Resource) (propstat : Element) : Resource :=
  let props := fun (_ : Unit) => match propstat.child dav "prop".toList with
    | none => r
    | some prop => prop.children.foldl (readProp env base) r
  match statusCode propstat with
  | none => props ()
  | some none => r
  | some (some code) =>
    if code = 200 then props ()
    else if 500 ≤ code then { r with failure := r.failure.or (some code) }
    else r

/-- The status of a response as a whole; one that cannot be read is a failure too. -/
def responseFailure (response : Element) : Option Nat :=
  match statusCode response with
  | none => none
  | some code => if code.any fun c => 200 ≤ c && c < 300 then none else some (code.getD 0)

def resourceOf (env : Env Event Expansion) (base : Url) (response : Element) : Resource :=
  (response.childrenNamed dav "propstat".toList).foldl (readPropstat env base)
    { failure := responseFailure response
      href := hrefIn env response base
      isCalendar := false
      displayName := none
      components := none
      principal := none
      calendarHome := none
      etag := none
      calendarData := none }

/-- The responses of a multistatus body. -/
def responsesOf (env : Env Event Expansion) (base : Url) (body : Text) : Except CalendarError (List Element) :=
  match env.parseXml body with
  | .error e => .error (.parse ("caldav: bad multistatus from ".toList ++ redact base ++ ": ".toList ++ e))
  | .ok root =>
    if root.isNamed dav "multistatus".toList then .ok (root.childrenNamed dav "response".toList)
    else .error (.parse ("caldav: expected DAV:multistatus from ".toList ++ redact base ++ ", got ".toList ++ root.name))

def parseResources (env : Env Event Expansion) (base : Url) (body : Text) : Except CalendarError (List Resource) :=
  (responsesOf env base body).map fun responses => responses.map (resourceOf env base)

/-! ## A REPORT -/

/-- What a sync brings, and why it may lack events. -/
structure Fetched (Event : Type) where
  events : List Event
  incomplete : Option Text
  warnings : List Text
  deriving DecidableEq

/-- A REPORT answer read so far; `refetch` has the resources to fetch again, in the order of their keys. -/
structure Report (Event Expansion : Type) where
  url : Url
  calendarId : Text
  expansion : Expansion
  events : List Event
  incomplete : Option Text
  refetch : List (Text × Url)

/-- `BTreeMap::insert`. -/
def insertKey (key : Text) (href : Url) : List (Text × Url) → List (Text × Url)
  | [] => [(key, href)]
  | e :: rest =>
    if key < e.1 then (key, href) :: e :: rest
    else if key == e.1 then (key, href) :: rest
    else e :: insertKey key href rest

def removeKey (key : Text) (refetch : List (Text × Url)) : List (Text × Url) := refetch.filter (·.1 != key)

def failureMessage (url : Url) (r : Resource) : Option Text :=
  r.failure.map fun code =>
    "caldav: REPORT ".toList ++ redact url ++ " answered HTTP ".toList ++ showU64 code ++ " for ".toList ++
      (r.href.map redact).getD "a resource".toList ++
      ": results are incomplete, so stored events it did not list were kept".toList

def outsideMessage (url : Url) : Text :=
  "caldav: REPORT ".toList ++ redact url ++
    ": a recurring event the server did not expand has no href inside the collection to fetch it whole by, ".toList ++
    "so it was left out and stored events the answer did not list were kept".toList

def refetchMessage (url : Url) (left requested : Nat) (failure : Text) : Text :=
  "caldav: REPORT ".toList ++ redact url ++ ": ".toList ++ showU64 left ++ " of ".toList ++ showU64 requested ++
    " recurring event(s) the server did not expand could not be fetched whole with calendar-multiget (".toList ++
    failure ++ "), so they were left out and stored events the answer did not list were kept".toList

def truncatedMessage (url : Url) : Text :=
  "caldav: REPORT ".toList ++ redact url ++
    ": too many recurring event occurrences (or too much text in them) or time zone rules to go through ".toList ++
    "in one sync, so stored events it did not list were kept".toList

namespace Report

/-- The calendar data is read as it is. -/
def readWhole (env : Env Event Expansion) (report : Report Event Expansion) (data : Text) (etag : Option Text) :
    Report Event Expansion :=
  let (events, expansion) := env.parseIcsExpanded data report.calendarId etag report.expansion
  { report with events := report.events ++ events, expansion := expansion }

/-- Data that the server should have expanded and did not: the resource is to be fetched again. -/
def refused (report : Report Event Expansion) (href : Option Url) : Report Event Expansion :=
  match href.filter (inside report.url) with
  | some href => { report with refetch := insertKey (hrefKey href) href report.refetch }
  | none => { report with incomplete := report.incomplete.or (some (outsideMessage report.url)) }

/-- One resource of the answer; without calendar data there is nothing to read. -/
def readResource (env : Env Event Expansion) (expanded : Bool) (report : Report Event Expansion) (r : Resource) :
    Report Event Expansion :=
  match r.calendarData with
  | none => report
  | some data =>
    if !expanded then report.readWhole env data r.etag
    else
      match env.parseIcsServerExpanded data report.calendarId r.etag report.expansion with
      | (some events, expansion) => { report with events := report.events ++ events, expansion := expansion }
      | (none, expansion) => { report with expansion := expansion }.refused r.href

end Report

def readReport (env : Env Event Expansion) (response : DavResponse) (calendarId : Text) (window : SyncWindow)
    (expanded : Bool) : Except CalendarError (Report Event Expansion) :=
  (parseResources env response.url response.body).map fun resources =>
    resources.foldl (Report.readResource env expanded)
      { url := response.url
        calendarId := calendarId
        expansion := env.newExpansion window
        events := []
        incomplete := resources.findSome? (failureMessage response.url)
        refetch := [] }

/-- `calendar_multiget`: the resources are asked for by the paths the server named. -/
def calendarMultiget (hrefs : List Url) : Text :=
  let escape := fun c : Char => match c with
    | '&' => "&amp;".toList
    | '<' => "&lt;".toList
    | '>' => "&gt;".toList
    | c => [c]
  let asked := hrefs.flatMap fun href => "\n  <D:href>".toList ++ href.path.flatMap escape ++ "</D:href>".toList
  "<?xml version=\"1.0\" encoding=\"utf-8\"?>\n".toList ++
    "<C:calendar-multiget xmlns:D=\"DAV:\" xmlns:C=\"urn:ietf:params:xml:ns:caldav\">\n".toList ++
    "  <D:prop>\n    <D:getetag/>\n    <C:calendar-data/>\n  </D:prop>".toList ++ asked ++
    "\n</C:calendar-multiget>".toList

/-- One resource of the second answer is read if it was asked for and not read yet. -/
def readRefetchedOne (env : Env Event Expansion) (state : Report Event Expansion) (r : Resource) :
    Report Event Expansion :=
  match r.href, r.failure, r.calendarData with
  | some href, none, some data =>
    if state.refetch.any (·.1 == hrefKey href) then
      { state with refetch := removeKey (hrefKey href) state.refetch }.readWhole env data r.etag
    else state
  | _, _, _ => state

/-- The resources of the second answer, or why there are none. -/
def refetchedResources (env : Env Event Expansion) (answer : Except CalendarError DavResponse) :
    Except Text (List Resource) :=
  match answer with
  | .error e => .error e.display
  | .ok response =>
    if response.status == multiStatus then (parseResources env response.url response.body).mapError (·.display)
    else .error ("HTTP ".toList ++ showU64 response.status ++ ": ".toList ++ snippet response.body)

def Report.readRefetched (env : Env Event Expansion) (report : Report Event Expansion)
    (answer : Except CalendarError DavResponse) : Report Event Expansion :=
  let requested := report.refetch.length
  let (report, failure) := match refetchedResources env answer with
    | .ok resources => (resources.foldl (readRefetchedOne env) report, "the answer did not hold them".toList)
    | .error failure => (report, failure)
  let pending := report.refetch
  { report with
    refetch := []
    incomplete :=
      if pending.isEmpty then report.incomplete
      else report.incomplete.or (some (refetchMessage report.url pending.length requested failure)) }

def namedUnexpanded : Nat := 3

/-- Series of which only the first occurrence was stored. -/
def unexpandedWarnings (env : Env Event Expansion) (url : Url) (unexpanded : List Text) : List Text :=
  if unexpanded.isEmpty then []
  else
    let named := (unexpanded.take namedUnexpanded).map env.debug ++
      if namedUnexpanded < unexpanded.length then [showU64 (unexpanded.length - namedUnexpanded) ++ " more".toList]
      else []
    ["caldav: REPORT ".toList ++ redact url ++ ": ".toList ++ showU64 unexpanded.length ++
      " recurring event(s) (".toList ++ intercalate ", ".toList named ++
      ") use a recurrence rule that the CalDAV server did not expand and this server cannot, ".toList ++
      "so at most their first occurrence was stored".toList]

def Report.finish (env : Env Event Expansion) (report : Report Event Expansion) : Fetched Event where
  events := report.events
  incomplete := report.incomplete.or
    (if env.truncated report.expansion then some (truncatedMessage report.url) else none)
  warnings := unexpandedWarnings env report.url (env.unexpanded report.expansion)

/-- The answers of the server to the requests of one REPORT: with `expand`, without it, and to the
`calendar-multiget` for the resources that are asked for again. -/
structure Answers where
  expanding : Except CalendarError DavResponse
  plain : Except CalendarError DavResponse
  multiget : List Url → Except CalendarError DavResponse

/-- A server that does not know `expand` rejects the query. -/
def rejectsExpand (status : Nat) : Bool := [400, 403, 415, 422, 501].contains status

/-- The answer that is read, and whether it was to be expanded. -/
def firstAnswer (answers : Answers) : Except CalendarError (DavResponse × Bool) :=
  answers.expanding.bind fun response =>
    if rejectsExpand response.status then answers.plain.map (·, false) else .ok (response, true)

def report (env : Env Event Expansion) (calendarId : Text) (window : SyncWindow) (answers : Answers) :
    Except CalendarError (Fetched Event) :=
  (firstAnswer answers).bind fun (response, expanded) =>
    if response.status != multiStatus then
      .error (davError ("caldav: REPORT ".toList ++ redact response.url) response.status response.body)
    else
      (readReport env response calendarId window expanded).map fun report =>
        let report := if report.refetch.isEmpty then report
          else report.readRefetched env (answers.multiget (report.refetch.map (·.2)))
        report.finish env

/-- What the store is told to do with the events: those it lacks are removed only from a complete answer. -/
inductive StoreOp (Event : Type) where
  | replaceEventsInRange (events : List Event)
  | upsertEvents (events : List Event)
  | nothing

def storeFetched : Except CalendarError (Fetched Event) → StoreOp Event
  | .ok fetched => if fetched.incomplete.isNone then .replaceEventsInRange fetched.events else .upsertEvents fetched.events
  | .error _ => .nothing

end CalDav
