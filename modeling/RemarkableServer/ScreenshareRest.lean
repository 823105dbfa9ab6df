import RemarkableServer.Devices
import RemarkableServer.Lib.Table

/-!
# Screen share rooms

`screenshare_rest.rs`: the rooms of the REST broker, each with its participants by device
id. Every function of the manager runs under the lock of the rooms and is one step. The
clock is in nanoseconds.
-/
namespace ScreenshareRest

open RustText Devices Tables

def roomTimeout : Nat := 60 * 1000000000

/-- `registration` is what a device joined under; an in-process client has none. -/
structure RoomClient where
  clientId : Text
  userId : Text
  isOwner : Bool
  registration : Option Claims
  deriving DecidableEq

/-- A device, as the registration its token was minted under. -/
def RoomClient.device (who : Claims) (isOwner : Bool) : RoomClient := ⟨who.deviceId, who.userId, isOwner, some who⟩

/-- A client of the server itself. -/
def RoomClient.inProcess (clientId userId : Text) : RoomClient := ⟨clientId, userId, false, none⟩

structure Room where
  createdAt : Int
  lastActivity : Nat
  ownerUserId : Text
  participants : Table Text RoomClient
  deriving DecidableEq

abbrev Rooms := Table Text Room

/-- Whether the sweep at this time keeps the room. -/
def Room.isLive (now : Nat) (r : Room) : Bool := now - r.lastActivity ≤ roomTimeout

def Room.touch (now : Nat) (r : Room) : Room := { r with lastActivity := now }

/-- A client joins unless its id is there. -/
def Room.join (client : RoomClient) (r : Room) : Room :=
  { r with participants := r.participants.orInsert client.clientId client }

def Room.leave (clientId : Text) (r : Room) : Room := { r with participants := r.participants.erase clientId }

def Room.ofOwner (now : Nat) (createdAt : Int) (owner : Claims) : Room where
  createdAt := createdAt
  lastActivity := now
  ownerUserId := owner.userId
  participants := AList.insert owner.deviceId (.device owner true) ∅

namespace Rooms

def sweep (now : Nat) (rooms : Rooms) : Rooms := rooms.retain fun _ r => r.isLive now

/-- `create`, with the id that is drawn for the room. -/
def create (now : Nat) (roomId : Text) (createdAt : Int) (owner : Claims) (rooms : Rooms) : Rooms :=
  (sweep now rooms).insert roomId (.ofOwner now createdAt owner)

/-- Whether `find_active` can answer this, in rooms that were swept: one of the newest rooms of the user's own, if
there are any. -/
def isActive (userId : Text) (found : Option Text) (rooms : Rooms) : Bool :=
  let owned := rooms.entries.filter fun e => e.2.ownerUserId == userId
  match found with
  | none => owned.isEmpty
  | some id => owned.any fun e => e.1 == id && owned.all fun other => decide (other.2.createdAt ≤ e.2.createdAt)

def addParticipant (roomId : Text) (who : Claims) (rooms : Rooms) : Rooms :=
  rooms.modify roomId (Room.join (.device who false))

/-- False if the room is gone or belongs to another account. -/
def keepalive (now : Nat) (roomId userId : Text) (rooms : Rooms) : Rooms × Bool :=
  let rooms := sweep now rooms
  if (rooms.lookup roomId).any (·.ownerUserId == userId) then (rooms.modify roomId (Room.touch now), true)
  else (rooms, false)

/-- The room goes away only when its owner leaves. -/
def leaveOrClose (roomId deviceId : Text) (rooms : Rooms) : Rooms :=
  match rooms.lookup roomId with
  | none => rooms
  | some room =>
    if (room.participants.lookup deviceId).any (·.isOwner) then rooms.erase roomId
    else rooms.modify roomId (Room.leave deviceId)

/-- Every device participant, as its room and the registration it joined under. -/
def registrations (rooms : Rooms) : List (Text × Claims) :=
  rooms.entries.flatMap fun e => e.2.participants.values.filterMap fun c => c.registration.map fun reg => (e.1, reg)

/-- Only that very registration goes. -/
def dropRegistration (rooms : Rooms) (ended : Text × Claims) : Rooms :=
  match rooms.lookup ended.1 with
  | none => rooms
  | some room =>
    match (room.participants.lookup ended.2.deviceId).filter (·.registration == some ended.2) with
    | none => rooms
    | some c => if c.isOwner then rooms.erase ended.1 else rooms.modify ended.1 (Room.leave ended.2.deviceId)

def dropRegistrations (ended : List (Text × Claims)) (rooms : Rooms) : Rooms := ended.foldl dropRegistration rooms

/-- `exists`, after its sweep. -/
def isThere (now : Nat) (roomId : Text) (rooms : Rooms) : Rooms × Bool :=
  (sweep now rooms, ((sweep now rooms).lookup roomId).isSome)

/-- False if the room is gone or belongs to another account. -/
def joinAs (now : Nat) (roomId : Text) (client : RoomClient) (rooms : Rooms) : Rooms × Bool :=
  let rooms := sweep now rooms
  if (rooms.lookup roomId).any (·.ownerUserId == client.userId) then
    (rooms.modify roomId fun r => (r.join client).touch now, true)
  else (rooms, false)

def leave (roomId clientId : Text) (rooms : Rooms) : Rooms := rooms.modify roomId (Room.leave clientId)

end Rooms

end ScreenshareRest
