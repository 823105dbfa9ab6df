import RemarkableServer.CalDav
import RemarkableServer.InternalAddresses
import RemarkableServer.Lib.Effect

/-!
# The requests of a CalDAV sync

A sync sends PROPFIND and REPORT requests: to the configured URL, to what its
answers name as principals, homes and calendars, to where they redirect, and to
the collection an earlier sync found. The state of the computation is the list
of the requests that were sent, and the servers may answer each as they like.
-/
namespace CalDavRequests

open RustText CalDav InternalAddresses Effect

/-! ## Hosts -/

/-- What the URL parser does: it parses a text, writes a URL down, and tells which hosts are IP literals. -/
structure Urls where
  parse : Text → Option Url
  display : Url → Text
  ipLiteral : Text → Option IpAddr

/-- `Url::domain`. -/
def domain (urls : Urls) (u : Url) : Option Text :=
  if u.host.isEmpty || (urls.ipLiteral u.host).isSome then none else some u.host

def endsWith (t ending : Text) : Bool := ending.isSuffixOf t

/-- `localhost`, or an IP literal that is not a public unicast address. -/
def isInternal (urls : Urls) (u : Url) : Bool :=
  match domain urls u with
  | some name =>
    let name := name.rdropWhile (· == '.')
    eqIgnoreAsciiCase name "localhost".toList || endsWith name ".localhost".toList
  | none => (urls.ipLiteral u.host).elim true isInternalIp

/-- The last two labels of a name, or three under a two-letter country code with a short second level. -/
def site (domain : Text) : Option Text :=
  let labels := split '.' (domain.rdropWhile (· == '.'))
  match labels.reverse with
  | tld :: second :: rest =>
    let keep := if byteLen tld == 2 && byteLen second ≤ 3 && !rest.isEmpty then 3 else 2
    some (intercalate ['.'] (labels.drop (labels.length - keep)))
  | _ => none

/-- To the configured host always, otherwise only over HTTPS to a host of the same site. -/
def maySendCredentials (urls : Urls) (configured target : Url) : Bool :=
  if configured.host == target.host then true
  else
    match domain urls configured, domain urls target with
    | some a, some b => target.scheme == "https".toList && (site a).any fun s => site b == some s
    | _, _ => false

/-! ## Requests -/

structure Account where
  url : Text
  username : Text
  password : Option Text
  bearerToken : Option Text
  deriving DecidableEq, Repr

inductive Authorization where
  | bearer (token : Text)
  | basic (username : Text) (password : Option Text)
  deriving DecidableEq, Repr

def Account.hasCredentials (a : Account) : Bool := a.bearerToken.isSome || a.password.isSome || !a.username.isEmpty

/-- The `Authorization` header that `Dav::authorize` adds. -/
def Account.authorize (a : Account) : Option Authorization :=
  match a.bearerToken, a.password with
  | some token, _ => some (.bearer token)
  | none, some password => some (.basic a.username (some password))
  | none, none => if !a.username.isEmpty then some (.basic a.username none) else none

/-- `authorization` is what `Dav::authorize` added. -/
structure Request where
  method : Text
  url : Url
  depth : Option Text
  body : Text
  authorization : Option Authorization
  deriving DecidableEq, Repr

/-- How a request ends: without a response, or with its status, its `Location` header and its body as it was read. -/
inductive Outcome where
  | failed (message : Text)
  | response (status : Nat) (location : Option Text) (body : Except CalendarError Text)

/-- The code of others that every sync runs with, with its messages: of the HTTP client for a URL it does not
send to, and of the URL parser. `stamp` writes a time of the window. -/
structure Client (Event Expansion : Type) where
  env : Env Event Expansion
  urls : Urls
  unsupported : Url → Text
  parseError : Text → Text
  joinError : Url → Text → Text
  stamp : Int → Text

/-- `server` answers the newest of the requests that were sent. -/
structure Dav (Event Expansion : Type) extends Client Event Expansion where
  account : Account
  configured : Url
  server : List Request → Outcome

/-- A computation that sends requests; the newest is the first. -/
abbrev Net := EStateM CalendarError (List Request)

variable {Event Expansion : Type}

def ofExcept {α : Type} : Except CalendarError α → Net α
  | .ok a => pure a
  | .error e => throw e

namespace Dav

/-- The HTTP client sends to `http` and `https` URLs only. -/
def transport (dav : Dav Event Expansion) (context : Text) (r : Request) : Net Outcome := do
  if r.url.scheme == "http".toList || r.url.scheme == "https".toList then
    modify (r :: ·)
    return dav.server (← get)
  else throw (.network (context ++ ": ".toList ++ dav.unsupported r.url))

/-- Why a target is not followed. -/
def followError (dav : Dav Event Expansion) (source : Url) (target : Text) : CalendarError :=
  match dav.env.join source target with
  | none => .backend ("caldav: bad URL ".toList ++ dav.env.debug target ++ " from ".toList ++ redact source ++
      ": ".toList ++ dav.joinError source target)
  | some next =>
    if next.scheme != "https".toList then
      .backend ("caldav: refusing to follow ".toList ++ redact source ++ " to non-HTTPS ".toList ++ redact next)
    else
      .backend ("caldav: refusing to follow ".toList ++ redact source ++ " to internal address ".toList ++ redact next)

def hop (dav : Dav Event Expansion) (source : Url) (target : Text) : Net Url :=
  match follow dav.env source target with
  | some next => pure next
  | none => throw (dav.followError source target)

def maxRedirects : Nat := 5

def isRedirection (status : Nat) : Bool := 300 ≤ status && status < 400

/-- The rounds of `send` that are left. -/
def sendFrom (dav : Dav Event Expansion) (method : Text) (depth : Option Text) (body : Text) : Nat → Url → Net DavResponse
  | 0, url => throw (.backend ("caldav: more than ".toList ++ showU64 maxRedirects ++ " redirects from ".toList ++ redact url))
  | n + 1, url => do
    let context := "caldav: ".toList ++ method ++ ' ' :: redact url
    if dav.account.hasCredentials && !maySendCredentials dav.urls dav.configured url then
      throw (.backend (context ++ ": not sending the credentials for ".toList ++ dav.configured.host ++
        " to another site".toList))
    else
      match ← dav.transport context ⟨method, url, depth, body, dav.account.authorize⟩ with
      | .failed message => throw (.network (context ++ ": ".toList ++ message))
      | .response status location answer =>
        if isRedirection status then
          match location with
          | none => throw (.backend (context ++ ": HTTP ".toList ++ showU64 status ++ " without Location".toList))
          | some location => dav.sendFrom method depth body n (← dav.hop url location)
        else return ⟨url, status, ← ofExcept answer⟩

def send (dav : Dav Event Expansion) (method : Text) (url : Url) (depth : Option Text) (body : Text) : Net DavResponse :=
  dav.sendFrom method depth body (maxRedirects + 1) url

/-- The resources of a multistatus answer. -/
def resources (dav : Dav Event Expansion) (response : DavResponse) : Net (Option (Url × List Resource)) := do
  return some (response.url, ← ofExcept (parseResources dav.env response.url response.body))

def propfindContext (response : DavResponse) : Text := "caldav: PROPFIND ".toList ++ redact response.url

/-- `none` when the URL does not exist or is not a WebDAV resource. -/
def propfind (dav : Dav Event Expansion) (url : Url) (depth body : Text) : Net (Option (Url × List Resource)) := do
  let response ← dav.send "PROPFIND".toList url (some depth) body
  if response.status == multiStatus then dav.resources response
  else if response.status == 404 || response.status == 405 || response.status == 501 then return none
  else throw (davError (propfindContext response) response.status response.body)

end Dav

/-! ## Discovery -/

def propfindSelf : Text :=
  ("<?xml version=\"1.0\" encoding=\"utf-8\"?>\n<D:propfind xmlns:D=\"DAV:\" xmlns:C=\"urn:ietf:params:xml:ns:caldav\">\n" ++
    "  <D:prop>\n    <D:resourcetype/>\n    <D:displayname/>\n    <D:current-user-principal/>\n" ++
    "    <C:calendar-home-set/>\n    <C:supported-calendar-component-set/>\n  </D:prop>\n</D:propfind>").toList

def propfindCalendars : Text :=
  ("<?xml version=\"1.0\" encoding=\"utf-8\"?>\n<D:propfind xmlns:D=\"DAV:\" xmlns:C=\"urn:ietf:params:xml:ns:caldav\">\n" ++
    "  <D:prop>\n    <D:resourcetype/>\n    <D:displayname/>\n    <C:supported-calendar-component-set/>\n" ++
    "  </D:prop>\n</D:propfind>").toList

def holdsEvents (r : Resource) : Bool :=
  r.isCalendar && r.components.all fun c => c.any (eqIgnoreAsciiCase · "VEVENT".toList)

def sameResource (a b : Url) : Bool :=
  a.origin == b.origin && a.path.rdropWhile (· == '/') == b.path.rdropWhile (· == '/')

/-- The calendars that hold events under a home, with their names. -/
def calendarsOf (home : Url) (resources : List Resource) : List (Url × Option Text) :=
  ((resources.filter holdsEvents).filterMap fun r => r.href.map fun href => (href, r.displayName)).filter
    fun c => !sameResource c.1 home

namespace Dav

/-- A URL that only might be a DAV resource. -/
def probe (dav : Dav Event Expansion) (url : Url) : Net (Option (Url × List Resource)) := do
  let response ← dav.send "PROPFIND".toList url (some "0".toList) propfindSelf
  if response.status == multiStatus then dav.resources response
  else if response.status == 401 then throw (davError (propfindContext response) response.status response.body)
  else return none

def severalCalendars (dav : Dav Event Expansion) (home : Url) (name : Text) (calendars : List (Url × Option Text)) :
    CalendarError :=
  .backend ("caldav: ".toList ++ showU64 calendars.length ++ " calendars under ".toList ++ redact home ++
    " and none is named ".toList ++ dav.env.debug name ++
    "; name the calendar after one of them or use its URL: ".toList ++
    intercalate ", ".toList (calendars.map fun c => dav.env.debug (c.2.getD []) ++ ' ' :: redact c.1))

/-- The only calendar, or the one of the name. -/
def choose (dav : Dav Event Expansion) (home : Url) (name : Text) : List (Url × Option Text) → Net Url
  | [] => throw (.notFound ("caldav: no event calendars under ".toList ++ redact home))
  | [(only, _)] => pure only
  | calendars =>
    match calendars.find? fun c => c.2.any fun n => eqIgnoreAsciiCase (trim n) (trim name) with
    | some (url, _) => pure url
    | none => throw (dav.severalCalendars home name calendars)

def pickCalendar (dav : Dav Event Expansion) (home : Url) (name : Text) : Net Url := do
  match ← dav.propfind home "1".toList propfindCalendars with
  | none => throw (.notFound ("caldav: calendar home ".toList ++ redact home ++ " does not exist".toList))
  | some (home, resources) => dav.choose home name (calendarsOf home resources)

/-- The first request of a discovery; a guess is probed. -/
def look (dav : Dav Event Expansion) (start : Url) (guess : Bool) : Net (Option (Url × List Resource)) :=
  if guess then dav.probe start else dav.propfind start "0".toList propfindSelf

/-- Whatever leads nowhere is `none`. -/
def discoverFrom (dav : Dav Event Expansion) (start : Url) (name : Text) (guess : Bool) : Net (Option Url) := do
  match ← dav.look start guess with
  | none => return none
  | some (_, []) => return none
  | some (url, this :: _) =>
    if this.isCalendar then return some url
    else
      match this.calendarHome, this.principal with
      | some home, _ => return some (← dav.pickCalendar home name)
      | none, none => return none
      | none, some principal =>
        let found ← dav.propfind principal "0".toList propfindSelf
        match (found.bind (·.2.head?)).bind (·.calendarHome) with
        | some home => return some (← dav.pickCalendar home name)
        | none =>
          throw (.notFound ("caldav: principal ".toList ++ redact principal ++ " has no calendar-home-set".toList))

def nowhere (start : Url) : CalendarError :=
  .notFound ("caldav: ".toList ++ redact start ++
    " is not a calendar collection and names no calendar home or principal ".toList ++
    "(nor does its /.well-known/caldav for a bare server URL); configure the calendar collection URL".toList)

/-- What is found from the root, when the well-known location led nowhere or failed. -/
def afterWellKnown (start : Url) (wellKnown root : Except CalendarError (Option Url)) : Except CalendarError Url :=
  match root, wellKnown with
  | .ok (some found), _ => .ok found
  | _, .error e => .error e
  | .error e, .ok _ => .error e
  | .ok none, .ok _ => .error (nowhere start)

/-- A bare server URL is tried at its well-known location first and at its root second. -/
def discover (dav : Dav Event Expansion) (start : Url) (name : Text) : Net Url := do
  if start.path != [] && start.path != ['/'] then
    match ← dav.discoverFrom start name false with
    | some found => return found
    | none => throw (nowhere start)
  else
    let wellKnown ← dav.hop start "/.well-known/caldav".toList
    match ← caught (dav.discoverFrom wellKnown name true) with
    | .ok (some found) => return found
    | fromWellKnown => ofExcept (afterWellKnown start fromWellKnown (← caught (dav.discoverFrom start name true)))

/-! ## The REPORTs -/

def calendarQuery (dav : Dav Event Expansion) (window : SyncWindow) (expand : Bool) : Text :=
  let range := " start=\"".toList ++ dav.stamp window.start ++ "\" end=\"".toList ++ dav.stamp window.stop ++ "\"/>".toList
  let data := if expand then "<C:calendar-data><C:expand".toList ++ range ++ "</C:calendar-data>".toList
    else "<C:calendar-data/>".toList
  ("<?xml version=\"1.0\" encoding=\"utf-8\"?>\n" ++
    "<C:calendar-query xmlns:D=\"DAV:\" xmlns:C=\"urn:ietf:params:xml:ns:caldav\">\n" ++
    "  <D:prop>\n    <D:getetag/>\n    ").toList ++ data ++
    ("\n  </D:prop>\n  <C:filter>\n    <C:comp-filter name=\"VCALENDAR\">\n      <C:comp-filter name=\"VEVENT\">\n" ++
    "        <C:time-range").toList ++ range ++
    "\n      </C:comp-filter>\n    </C:comp-filter>\n  </C:filter>\n</C:calendar-query>".toList

/-- The REPORT with `expand`, and without it if the server rejects that. -/
def firstReport (dav : Dav Event Expansion) (collection : Url) (window : SyncWindow) : Net (DavResponse × Bool) := do
  let response ← dav.send "REPORT".toList collection (some "1".toList) (dav.calendarQuery window true)
  if rejectsExpand response.status then
    return (← dav.send "REPORT".toList collection (some "1".toList) (dav.calendarQuery window false), false)
  else return (response, true)

def refetch (dav : Dav Event Expansion) (report : Report Event Expansion) : Net (Report Event Expansion) := do
  if report.refetch.isEmpty then return report
  else
    let answer ← caught (dav.send "REPORT".toList report.url none (calendarMultiget (report.refetch.map (·.2))))
    return report.readRefetched dav.env answer

def report (dav : Dav Event Expansion) (collection : Url) (calendarId : Text) (window : SyncWindow) :
    Net (Fetched Event) := do
  let (response, expanded) ← dav.firstReport collection window
  if response.status != multiStatus then
    throw (davError ("caldav: REPORT ".toList ++ redact response.url) response.status response.body)
  else
    let report ← ofExcept (readReport dav.env response calendarId window expanded)
    return (← dav.refetch report).finish dav.env

end Dav

/-! ## Syncs -/

/-- What one sync is given besides the configuration. -/
structure Sync where
  calendarId : Text
  name : Text
  window : SyncWindow
  server : List Request → Outcome

def isNotFound {α : Type} : Except CalendarError α → Bool
  | .error (.notFound _) => true
  | _ => false

/-- `fetch`, once the configured URL is parsed: what it brings, and the collection that is stored. -/
def Dav.fetchFrom (dav : Dav Event Expansion) (collectionUrl : Option Text) (sync : Sync) :
    Net (Except CalendarError (Fetched Event) × Option Text) := do
  match collectionUrl.bind dav.urls.parse with
  | some remembered =>
    let result ← caught (dav.report remembered sync.calendarId sync.window)
    return (result, if isNotFound result then none else collectionUrl)
  | none =>
    match ← caught (dav.discover dav.configured sync.name) with
    | .error e => return (.error e, collectionUrl)
    | .ok found =>
      let result ← caught (dav.report found sync.calendarId sync.window)
      return (result, some (dav.urls.display found))

def fetch (client : Client Event Expansion) (account : Account) (collectionUrl : Option Text) (sync : Sync) :
    Net (Except CalendarError (Fetched Event) × Option Text) :=
  match client.urls.parse (trim account.url) with
  | none => return (.error (.backend ("caldav: invalid url ".toList ++ client.env.debug account.url ++ ": ".toList ++
      client.parseError account.url)), collectionUrl)
  | some start => { client with account := account, configured := start, server := sync.server : Dav _ _ }.fetchFrom
      collectionUrl sync

/-- Syncs of one configuration, one after the other; each is given the collection that the last one stored. -/
def syncs (client : Client Event Expansion) (account : Account) : Option Text → List Sync → Net (Option Text)
  | collectionUrl, [] => return collectionUrl
  | collectionUrl, sync :: rest => do
    let (_, stored) ← fetch client account collectionUrl sync
    syncs client account stored rest

end CalDavRequests
