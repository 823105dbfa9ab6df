import RemarkableServer.Lib.RustText

/-!
# Notifications

`notifications.rs`: the messages on the notification channel, and which of them a socket
forwards. Message ids and publish times, which no receiver reads, are left out.
-/
namespace Notifications

open RustText

structure NotificationAttributes where
  auth0UserId : Text
  event : Text
  sourceDeviceId : Text
  sourceDeviceDesc : Option Text
  roomId : Option Text
  targetClientId : Option Text
  deriving DecidableEq, Repr

structure WsMessage where
  attributes : NotificationAttributes
  data : Option Text
  deriving DecidableEq, Repr

def localServer : Text := "local-server".toList

/-- The account of events that belong to no account. -/
def serverUser : Text := "local-user".toList

def syncCompleteEvent : Text := "SyncComplete".toList
def roomCreatedEvent : Text := "ScreenshareRoomCreated".toList
def messageEvent : Text := "ScreenshareMessage".toList

namespace WsMessage

def syncComplete (_generation : Nat) (sourceDeviceId auth0UserId : Text) : WsMessage :=
  ⟨⟨auth0UserId, syncCompleteEvent, sourceDeviceId, some localServer, none, none⟩, none⟩

/-- Any event, attributed to a device. -/
def ofEvent (event sourceDeviceId auth0UserId : Text) : WsMessage :=
  let msg := syncComplete 0 sourceDeviceId auth0UserId
  { msg with attributes := { msg.attributes with event := event } }

def screenshareRoomCreated (auth0UserId sourceDeviceId roomId : Text) : WsMessage :=
  let msg := ofEvent roomCreatedEvent sourceDeviceId auth0UserId
  { msg with attributes := { msg.attributes with roomId := some roomId } }

def screenshareMessage (auth0UserId sourceDeviceId roomId : Text) (targetClientId : Option Text) (data : Text) :
    WsMessage :=
  let msg := ofEvent messageEvent sourceDeviceId auth0UserId
  { attributes := { msg.attributes with roomId := some roomId, targetClientId := targetClientId }
    data := some data }

def isSyncComplete (msg : WsMessage) : Bool := msg.attributes.event == syncCompleteEvent

/-- Another event than a screen share one. -/
def isShared (msg : WsMessage) : Bool := !("Screenshare".toList).isPrefixOf msg.attributes.event

end WsMessage

/-- Whether a notification belongs on the socket of a device and its user: screen share events are per account, and a
direct one goes to its target only. -/
def deliversTo (msg : WsMessage) (userId : Text) (deviceId : Option Text) : Bool :=
  if msg.isShared then true
  else
    let forDevice := match msg.attributes.targetClientId, deviceId with
      | some target, some device => target == device
      | _, _ => true
    msg.attributes.auth0UserId == userId && forDevice

variable {msg : WsMessage} {userId : Text} {deviceId : Option Text}

@[simp] theorem isSyncComplete_syncComplete (generation : Nat) (sourceDeviceId auth0UserId : Text) :
    (WsMessage.syncComplete generation sourceDeviceId auth0UserId).isSyncComplete = true := by
  simp [WsMessage.isSyncComplete, WsMessage.syncComplete]

/-- A SyncComplete is for every socket. -/
theorem deliversTo_of_isSyncComplete (h : msg.isSyncComplete = true) : deliversTo msg userId deviceId = true := by
  have hevent : msg.attributes.event = syncCompleteEvent := by simpa [WsMessage.isSyncComplete] using h
  have hshared : msg.isShared = true := by
    rw [WsMessage.isShared, hevent]
    decide
  simp [deliversTo, hshared]

/-- A screen share message is for the sockets of its account, and for its target if it has one. -/
theorem of_deliversTo (hmsg : msg.isShared = false) (h : deliversTo msg userId deviceId = true) :
    msg.attributes.auth0UserId = userId ∧
      ∀ target device, msg.attributes.targetClientId = some target → deviceId = some device → target = device := by
  simp only [deliversTo, hmsg, Bool.false_eq_true, if_false, Bool.and_eq_true, beq_iff_eq] at h
  refine ⟨h.1, fun target device htarget hdevice => ?_⟩
  simpa [htarget, hdevice] using h.2

end Notifications
