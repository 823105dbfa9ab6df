import RemarkableServer.Lib.Utf8
import RemarkableServer.Notifications

/-!
# MQTT over WebSocket

`mqtt_ws.rs`: the packets, and the session that answers them and pushes notifications.
Every index, slice and subtraction of the source is checked: a function whose value is
`none` has panicked, or has a loop that did not end within the rounds it was given.
-/
namespace Mqtt

open RustText Notifications

/-- No value after a panic. -/
abbrev Checked (α : Type) := Option α

def slice {α : Type} (xs : List α) (start stop : Nat) : Checked (List α) :=
  if start ≤ stop ∧ stop ≤ xs.length then some ((xs.drop start).take (stop - start)) else none

def sliceFrom {α : Type} (xs : List α) (start : Nat) : Checked (List α) :=
  if start ≤ xs.length then some (xs.drop start) else none

def sub (a b : Nat) : Checked Nat := if b ≤ a then some (a - b) else none

def maxSubscriptions : Nat := 64
def subackFailure : UInt8 := 0x80

/-! ## Reading packets -/

inductive PacketType where
  | connect | connack | publish | puback | pubrec | pubrel | pubcomp
  | subscribe | suback | unsubscribe | unsuback | pingreq | pingresp | disconnect
  deriving DecidableEq, Repr

def PacketType.ofByte (v : UInt8) : Option PacketType :=
  match v.toNat with
  | 1 => some .connect
  | 2 => some .connack
  | 3 => some .publish
  | 4 => some .puback
  | 5 => some .pubrec
  | 6 => some .pubrel
  | 7 => some .pubcomp
  | 8 => some .subscribe
  | 9 => some .suback
  | 10 => some .unsubscribe
  | 11 => some .unsuback
  | 12 => some .pingreq
  | 13 => some .pingresp
  | 14 => some .disconnect
  | _ => none

/-- The loop of `parse_remaining_length`. -/
def remainingLength (data : Bytes) : Nat → Nat → Nat → Nat → Checked (Option (Nat × Nat))
  | 0, _, _, _ => none
  | rounds + 1, multiplier, value, idx =>
    if data.length ≤ idx then some none
    else
      (data[idx]?).bind fun byte =>
        let value := value + (byte &&& 0x7F).toNat * multiplier
        let multiplier := multiplier * 128
        let idx := idx + 1
        if byte &&& 0x80 == 0 then some (some (value, idx))
        else if 128 * 128 * 128 < multiplier then some none
        else remainingLength data rounds multiplier value idx

/-- The length, and the number of bytes it is written in. -/
def parseRemainingLength (data : Bytes) : Checked (Option (Nat × Nat)) := remainingLength data (data.length + 1) 1 0 0

def packetBody (frame : Bytes) : Checked (Option Bytes) :=
  if frame.length < 1 then some none
  else
    (parseRemainingLength (frame.drop 1)).bind fun
      | none => some none
      | some (len, n) => do
        let after ← sub frame.length 1
        let rest ← sub after n
        if rest == len then (sliceFrom frame (1 + n)).map some else some none

/-- The bytes, and how many were read with their length. -/
def parseMqttBytes (data : Bytes) : Checked (Option (Bytes × Nat)) :=
  if data.length < 2 then some none
  else do
    let high ← data[0]?
    let low ← data[1]?
    let len := high.toNat * 256 + low.toNat
    if data.length < 2 + len then some none
    else (slice data 2 (2 + len)).map fun b => some (b, 2 + len)

def parseMqttString (data : Bytes) : Checked (Option (Text × Nat)) :=
  (parseMqttBytes data).map fun parsed => parsed.bind fun (b, n) => (Utf8Codec.decode b).map (·, n)

inductive ConnectError where
  | malformed
  | unsupportedLevel
  deriving DecidableEq, Repr

/-- A result, an error, or a panic. -/
abbrev Parse := ExceptT ConnectError Option

/-- A field of the payload, and where the next one is. -/
def field (body : Bytes) (pos : Nat) (string : Bool) : Parse (Bytes × Nat) :=
  if body.length < pos then throw .malformed
  else do
    match ← ExceptT.lift (parseMqttBytes (body.drop pos)) with
    | none => throw .malformed
    | some (b, n) => if string && (Utf8Codec.decode b).isNone then throw .malformed else pure (b, pos + n)

/-- The protocol's name and level. -/
def checkLevel (protocol : Text) (level : UInt8) : Parse Unit :=
  let mqtt := protocol == "MQTT".toList
  let mqisdp := protocol == "MQIsdp".toList
  if (mqtt && level == 4) || (mqisdp && level == 3) then pure ()
  else if mqtt || mqisdp then throw .unsupportedLevel
  else throw .malformed

def optionalField (declared : Bool) (body : Bytes) (pos : Nat) (string : Bool) : Parse (Option Bytes × Nat) :=
  if declared then do
    let (b, pos) ← field body pos string
    pure (some b, pos)
  else pure (none, pos)

/-- The fields after the flags: the client id, the will, and the credentials. -/
def payloadToken (body : Bytes) (pos : Nat) (will usernameFlag passwordFlag : Bool) : Parse (Option Text) := do
  let (_, pos) ← field body pos true
  let (_, pos) ← optionalField will body pos true
  let (_, pos) ← optionalField will body pos false
  let (username, pos) ← optionalField usernameFlag body pos true
  let (password, pos) ← optionalField passwordFlag body pos false
  if pos != body.length then throw .malformed
  else
    let token := (password.filter fun p => !p.isEmpty).or username
    pure (token.bind Utf8Codec.decode)

def connectToken (body : Bytes) : Parse (Option Text) := do
  match ← ExceptT.lift (parseMqttString body) with
  | none => throw .malformed
  | some (protocol, pos) =>
    match (body.drop pos).take 4 with
    | [level, flags, _, _] => do
      checkLevel protocol level
      let will := flags &&& 0x04 != 0
      let usernameFlag := flags &&& 0x80 != 0
      let passwordFlag := flags &&& 0x40 != 0
      if flags &&& 0x01 != 0 || (!will && flags &&& 0x38 != 0) || (passwordFlag && !usernameFlag) then throw .malformed
      else payloadToken body (pos + 4) will usernameFlag passwordFlag
    | _ => throw .malformed

/-! ## Writing packets -/

/-- A notification with its ids and times, which go into its text. -/
structure Stamped extends WsMessage where
  rest : List (Text × Text)
  deriving DecidableEq

inductive Packet where
  | connack (sessionPresent : Bool) (returnCode : UInt8)
  | suback (packetId : Nat) (codes : List UInt8)
  | pingresp
  | publish (topic : Text) (msg : Stamped) (payload : Bytes)
  deriving DecidableEq

/-- The digits of the length in base 128, from the lowest; `digits` of them are enough. -/
def pushRemainingLength : Nat → Nat → Bytes
  | 0, _ => []
  | digits + 1, len =>
    let byte := UInt8.ofNat (len % 128)
    if len / 128 = 0 then [byte] else (byte ||| 0x80) :: pushRemainingLength digits (len / 128)

def toBeBytes (n : Nat) : Bytes := [UInt8.ofNat (n / 256), UInt8.ofNat n]

/-- `build_connack`, `build_suback`, `build_pingresp` and `build_publish` for QoS 0. -/
def Packet.build : Packet → Bytes
  | .connack sessionPresent returnCode => [0x20, 0x02, if sessionPresent then 0x01 else 0x00, returnCode]
  | .suback packetId codes =>
    let len := 2 + codes.length
    0x90 :: pushRemainingLength (len + 1) len ++ toBeBytes packetId ++ codes
  | .pingresp => [0xD0, 0x00]
  | .publish topic _ payload =>
    let topicBytes := Utf8Codec.encode topic
    let len := 2 + topicBytes.length + payload.length
    0x30 :: pushRemainingLength (len + 1) len ++ toBeBytes topicBytes.length ++ topicBytes ++ payload

/-! ## The session -/

/-- What the session calls: the user of a CONNECT's token, and JSON. -/
structure Env where
  authenticate : Option Text → Option Text
  toVec : Stamped → Option Bytes

structure Session where
  connected : Bool
  userId : Text
  subscriptions : List Text
  notificationsOpen : Bool
  deriving DecidableEq

def Session.start : Session := ⟨false, [], [], true⟩

def isConcrete (filter : Text) : Bool := !filter.isEmpty && !filter.any fun c => c == '+' || c == '#'

/-- Each topic once, those in `seen` not. -/
def unseen (seen : List Text) : List Text → List Text
  | [] => []
  | topic :: topics => if seen.contains topic then unseen seen topics else topic :: unseen (topic :: seen) topics

def notificationPublishes (env : Env) (msg : Stamped) (subscriptions : List Text) (userId : Text) : List Packet :=
  let a := msg.attributes
  if "Screenshare".toList.isPrefixOf a.event || (a.auth0UserId != userId && a.auth0UserId != serverUser) then []
  else
    match env.toVec msg with
    | none => []
    | some payload => (unseen [] (subscriptions.filter isConcrete)).map (Packet.publish · msg payload)

/-- One filter of a SUBSCRIBE: its code, and whether it is stored. -/
def subscribeOne (state : List Text × List UInt8) (filter : Text) (qos : UInt8) : List Text × List UInt8 :=
  let (subscriptions, codes) := state
  if !isConcrete filter then (subscriptions, codes ++ [subackFailure])
  else if subscriptions.contains filter then (subscriptions, codes ++ [qos])
  else if maxSubscriptions ≤ subscriptions.length then (subscriptions, codes ++ [subackFailure])
  else (subscriptions ++ [filter], codes ++ [qos])

/-- The loop over the filters, up to `limit`. -/
def subscribeLoop (data : Bytes) (limit : Nat) : Nat → Nat → List Text × List UInt8 → Checked (List Text × List UInt8)
  | 0, _, _ => none
  | rounds + 1, offset, state =>
    if offset < limit then
      (sliceFrom data offset).bind fun rest =>
        (parseMqttString rest).bind fun
          | none => some state
          | some (topic, topicLen) =>
            let offset := offset + topicLen
            if offset < data.length then
              (data[offset]?).bind fun byte =>
                subscribeLoop data limit rounds (offset + 1) (subscribeOne state topic (byte &&& 0x03))
            else subscribeLoop data limit rounds offset state
    else some state

inductive Frame where
  | binary (data : Bytes)
  | text
  | ping
  | pong
  | close
  | failed
  deriving DecidableEq

/-- What the loop of the session selects; `rest` goes into a catch-up message. -/
inductive Input where
  | frame (frame : Frame) (rest : List (Text × Text))
  | endOfStream
  | connectDeadline
  | revoked
  | notification (msg : Stamped)
  | lagged (rest : List (Text × Text))
  | notificationsClosed
  deriving DecidableEq

inductive Out where
  | packet (p : Packet)
  | close (frame : Option (Nat × Text))
  deriving DecidableEq

/-- The session after an input, what is sent, and whether the loop is left. -/
structure Reply where
  session : Session
  outs : List Out
  ends : Bool

def catchUp (env : Env) (s : Session) (topics : List Text) (rest : List (Text × Text)) : List Out :=
  (notificationPublishes env ⟨.syncComplete 0 localServer s.userId, rest⟩ topics s.userId).map .packet

def readConnect : Option Bytes → Checked (Except ConnectError (Option Text))
  | none => some (.error .malformed)
  | some body => (connectToken body).run

def handleConnect (env : Env) (s : Session) (data : Bytes) : Checked Reply :=
  if s.connected then some ⟨s, [], true⟩
  else
    (packetBody data).bind fun body => (readConnect body).bind fun
      | .error .malformed => some ⟨s, [], true⟩
      | .error .unsupportedLevel => some ⟨s, [.packet (.connack false 1)], true⟩
      | .ok token =>
        match env.authenticate token with
        | none => some ⟨s, [.packet (.connack false 5)], true⟩
        | some userId => some ⟨{ s with connected := true, userId := userId }, [.packet (.connack false 0)], false⟩

def handleSubscribe (env : Env) (s : Session) (data : Bytes) (rest : List (Text × Text)) : Checked Reply :=
  (sliceFrom data 1).bind fun tail => (parseRemainingLength tail).bind fun
    | none => some ⟨s, [], false⟩
    | some (remainingLen, lenBytes) =>
      let payloadStart := 1 + lenBytes
      if payloadStart + 2 ≤ data.length then do
        let high ← data[payloadStart]?
        let low ← data[payloadStart + 1]?
        let (subscriptions, codes) ←
          subscribeLoop data (payloadStart + remainingLen) (data.length + 1) (payloadStart + 2) (s.subscriptions, [])
        let fresh ← sliceFrom subscriptions s.subscriptions.length
        let suback := Packet.suback (high.toNat * 256 + low.toNat) codes
        let s := { s with subscriptions := subscriptions }
        some ⟨s, .packet suback :: catchUp env s fresh rest, false⟩
      else some ⟨s, [], false⟩

/-- The upper half of the first byte. -/
def packetTypeOf (data : Bytes) : Option PacketType := data.head?.bind fun b : UInt8 => PacketType.ofByte (b >>> 4)

def handleBinary (env : Env) (s : Session) (data : Bytes) (rest : List (Text × Text)) : Checked Reply :=
  let packetType := packetTypeOf data
  if !s.connected && packetType != some .connect then some ⟨s, [], true⟩
  else
    match packetType with
    | some .connect => handleConnect env s data
    | some .subscribe => handleSubscribe env s data rest
    | some .pingreq => some ⟨s, [.packet .pingresp], false⟩
    | some .disconnect => some ⟨s, [], true⟩
    | _ => some ⟨s, [], false⟩

/-- The close code for a frame that is not binary. -/
def unsupported : Nat := 1003

def handle (env : Env) (s : Session) : Input → Checked Reply
  | .frame (.binary data) rest => handleBinary env s data rest
  | .frame .text _ => some ⟨s, [.close (some (unsupported, "MQTT needs binary frames".toList))], true⟩
  | .frame .ping _ | .frame .pong _ => some ⟨s, [], false⟩
  | .frame .close _ | .frame .failed _ | .endOfStream => some ⟨s, [], true⟩
  | .connectDeadline => if s.connected then some ⟨s, [], false⟩ else some ⟨s, [.close none], true⟩
  | .revoked => if s.connected then some ⟨s, [.close none], true⟩ else some ⟨s, [], false⟩
  | .notification msg =>
    if s.notificationsOpen && s.connected then
      some ⟨s, (notificationPublishes env msg s.subscriptions s.userId).map .packet, false⟩
    else some ⟨s, [], false⟩
  | .lagged rest =>
    if s.notificationsOpen && s.connected then some ⟨s, catchUp env s s.subscriptions rest, false⟩
    else some ⟨s, [], false⟩
  | .notificationsClosed => some ⟨{ s with notificationsOpen := false }, [], false⟩

/-- An input, what was sent for it, and the session before and after. -/
structure Entry where
  before : Session
  input : Input
  outs : List Out
  after : Session

structure Sys where
  session : Session
  running : Bool
  log : List Entry

def Sys.start : Sys := ⟨.start, true, []⟩

/-- An input, and how many messages the socket takes before it fails. -/
structure Action where
  input : Input
  sent : Nat

def step (env : Env) (s : Sys) (a : Action) : Option Sys :=
  if s.running then
    (handle env s.session a.input).map fun reply =>
      { session := reply.session
        running := !reply.ends && decide (reply.outs.length ≤ a.sent)
        log := ⟨s.session, a.input, reply.outs.take a.sent, reply.session⟩ :: s.log }
  else some s

end Mqtt
