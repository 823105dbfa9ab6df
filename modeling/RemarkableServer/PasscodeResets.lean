import RemarkableServer.Lib.Rfc3339
import RemarkableServer.Lib.RustText

/-!
# Passcode resets

`passcode.rs`, and the table of `device.rs` under it. A device asks for a reset under an
id of its own choice, and the admin or another device of the user approves or denies it.
Times are written as their texts and compared as texts. Every function of the table runs
under the connection's lock; a request is one or two of them, between which others run.
-/
namespace PasscodeResets

open RustText Chrono Rfc3339

/-- `RESET_TTL_HOURS`. -/
def resetTtl : Int := hours 24

structure PasscodeReset where
  deviceId : Text
  deviceName : Text
  requestId : Text
  created : Int
  expires : Int
  approved : Bool
  deriving DecidableEq

/-- A row of the table, whose key is the request's id. -/
structure Row where
  userId : Text
  reset : PasscodeReset
  deriving DecidableEq

abbrev Db := List Row

inductive Fault where
  | notFound (requestId : Text)
  | forbidden (message : Text)
  | internal
  deriving DecidableEq

/-! ## The table -/

/-- `expires < now`, on the texts. -/
def expired (now : Int) (r : Row) : Bool := decide (toRfc3339 r.reset.expires < toRfc3339 now)

/-- `parse_from_rfc3339` of the text of a time: years have four digits. -/
def parse (t : Int) : Except Fault Int := if 0 ≤ year t ∧ year t ≤ 9999 then .ok t else .error .internal

/-- Whether the request was stored. -/
def createPasscodeReset (reset : PasscodeReset) (userId : Text) (now : Int) (db : Db) : Db × Bool :=
  let db := db.filter fun r => !(r.userId == userId && expired now r)
  let db := db.filter fun r => !(r.reset.requestId == reset.requestId && expired now r)
  if db.any fun r => r.reset.requestId == reset.requestId then (db, false)
  else (⟨userId, { reset with approved := false }⟩ :: db, true)

def readPasscodeReset (requestId userId : Text) (now : Int) (db : Db) : Except Fault PasscodeReset :=
  match db.find? fun r => r.reset.requestId == requestId && r.userId == userId with
  | none => .error (.notFound requestId)
  | some r => do
    let created ← parse r.reset.created
    let expires ← parse r.reset.expires
    if expires < now then .error (.notFound requestId)
    else .ok { r.reset with created := created, expires := expires }

def getPasscodeReset (requestId userId : Text) (now : Int) (db : Db) : Except Fault PasscodeReset :=
  readPasscodeReset requestId userId now db

def passcodeResetMiss (requestId userId : Text) (callerDevice : Option Text) (now : Int) (db : Db) : Fault :=
  match readPasscodeReset requestId userId now db with
  | .ok r =>
    if callerDevice == some r.deviceId then
      .forbidden "a device cannot approve or deny its own passcode reset".toList
    else .notFound requestId
  | .error _ => .notFound requestId

/-- The rows that the update touches. -/
def approvable (requestId userId : Text) (callerDevice : Option Text) (now : Int) (r : Row) : Bool :=
  r.reset.requestId == requestId && r.userId == userId && !expired now r && callerDevice.all (r.reset.deviceId != ·)

def Row.approve (r : Row) : Row := { r with reset := { r.reset with approved := true } }

/-- `now` is when the update reads the clock, `later` when the row is read. -/
def approvePasscodeReset (requestId : Text) (owner callerDevice : Option Text) (now later : Int) (db : Db) :
    Db × Except Fault (Text × PasscodeReset) :=
  match db.find? fun r => r.reset.requestId == requestId with
  | none => (db, .error (.notFound requestId))
  | some found =>
    if owner.any (· != found.userId) then (db, .error (.notFound requestId))
    else if db.any (approvable requestId found.userId callerDevice now) then
      let db := db.map fun r => if approvable requestId found.userId callerDevice now r then r.approve else r
      (db, (readPasscodeReset requestId found.userId later db).map (found.userId, ·))
    else (db, .error (passcodeResetMiss requestId found.userId callerDevice later db))

/-- How many rows were dropped. -/
def purgeExpiredPasscodeResets (userId : Text) (now : Int) (db : Db) : Db × Nat :=
  (db.filter fun r => !(r.userId == userId && expired now r),
    (db.filter fun r => r.userId == userId && expired now r).length)

/-- The rows that the deletion drops. -/
def deniable (requestId userId callerDevice : Text) (r : Row) : Bool :=
  r.reset.requestId == requestId && r.userId == userId && r.reset.deviceId != callerDevice

def denyPasscodeReset (requestId userId callerDevice : Text) (later : Int) (db : Db) : Db × Except Fault Unit :=
  if db.any (deniable requestId userId callerDevice) then
    (db.filter fun r => !deniable requestId userId callerDevice r, .ok ())
  else (db, .error (passcodeResetMiss requestId userId (some callerDevice) later db))

/-! ## Requests -/

/-- What the bearer token tells about who is calling. -/
structure Caller where
  userId : Text
  deviceId : Text
  deviceDesc : Text

inductive Request where
  | create (caller : Caller) (requestId : Text) (now : Int)
  | get (caller : Caller) (requestId : Text)
  | approve (requestId : Text)
  | deviceApprove (caller : Caller) (requestId : Text)
  | deviceDeny (caller : Caller) (requestId : Text)

/-- A function of the table, with its arguments. -/
inductive Call where
  | create (userId : Text) (reset : PasscodeReset)
  | get (requestId userId : Text)
  | approve (requestId : Text) (caller : Option (Text × Text))
  | purge (userId : Text)
  | deny (requestId userId callerDevice : Text)
  deriving DecidableEq

def newReset (caller : Caller) (requestId : Text) (now : Int) : PasscodeReset where
  deviceId := caller.deviceId
  deviceName := if caller.deviceDesc.isEmpty then "reMarkable".toList else caller.deviceDesc
  requestId := requestId
  created := now
  expires := now + resetTtl
  approved := false

/-- What a request calls, one after the other. The sum of a new reset panics before the first call when it is not
a time. -/
def Request.calls : Request → List Call
  | .create caller requestId now =>
    if InRange (now + resetTtl) then [.create caller.userId (newReset caller requestId now), .get requestId caller.userId]
    else []
  | .get caller requestId => [.get requestId caller.userId]
  | .approve requestId => [.approve requestId none]
  | .deviceApprove caller requestId => [.purge caller.userId, .approve requestId (some (caller.userId, caller.deviceId))]
  | .deviceDeny caller requestId => [.purge caller.userId, .deny requestId caller.userId caller.deviceId]

inductive Answer where
  | stored (created : Bool)
  | reset (userId : Option Text) (reset : PasscodeReset)
  | dropped (rows : Nat)
  | denied
  | failed (fault : Fault)
  deriving DecidableEq

def answerOf {α : Type} (ok : α → Answer) : Except Fault α → Answer
  | .ok a => ok a
  | .error fault => .failed fault

/-- The clock shows `now` first, and `later` where it is read again. -/
def Call.exec (now later : Int) (db : Db) : Call → Db × Answer
  | .create userId reset =>
    let (db, created) := createPasscodeReset reset userId now db
    (db, .stored created)
  | .get requestId userId => (db, answerOf (.reset none) (getPasscodeReset requestId userId now db))
  | .approve requestId caller =>
    let (db, approved) := approvePasscodeReset requestId (caller.map Prod.fst) (caller.map Prod.snd) now later db
    (db, answerOf (fun (userId, reset) => .reset (some userId) reset) approved)
  | .purge userId =>
    let (db, rows) := purgeExpiredPasscodeResets userId now db
    (db, .dropped rows)
  | .deny requestId userId callerDevice =>
    let (db, denied) := denyPasscodeReset requestId userId callerDevice now db
    (db, answerOf (fun _ => .denied) denied)

/-! ## Runs -/

/-- A call that was made: the table before and after it, the clock, and the answer. -/
structure Entry where
  call : Call
  now : Int
  later : Int
  before : Db
  after : Db
  answer : Answer

/-- What each request in flight has still to call, and what was called, the last first. -/
structure Sys where
  db : Db
  inFlight : List (List Call)
  log : List Entry

def Sys.new : Sys := ⟨[], [], []⟩

inductive Action where
  | arrive (request : Request)
  /-- The next call of a request in flight. -/
  | serve (index : Nat) (now later : Int)

def step (s : Sys) : Action → Option Sys
  | .arrive request => some { s with inFlight := request.calls :: s.inFlight }
  | .serve index now later =>
    match s.inFlight[index]? with
    | some (call :: calls) =>
      let (db, answer) := call.exec now later s.db
      some ⟨db, s.inFlight.set index calls, ⟨call, now, later, s.db, db, answer⟩ :: s.log⟩
    | _ => none

end PasscodeResets
