import RemarkableServer.Lib.Json
import RemarkableServer.Lib.Table
import RemarkableServer.Lib.Transition

/-!
# The broker of screen share signalling

`screenshare.rs`: clients subscribe and publish, and the signals among what they
publish make rooms, join them and reach their other participants. Clients and rooms
are under a lock each. A session handles one packet after another, every section
under a lock is one step of it, and what it still has to do is a list of sections.
The clock is in nanoseconds, and the queues of the clients never fill.
-/
namespace ScreenshareBroker

open RustText Tables

def roomTimeout : Nat := 60 * 1000000000

def signalingPrefix : Text := "remarkable/screenshare/signaling/user/".toList

inductive QoS where
  | atMostOnce
  | atLeastOnce
  | exactlyOnce
  deriving DecidableEq

def QoS.level : QoS → Nat
  | .atMostOnce => 0
  | .atLeastOnce => 1
  | .exactlyOnce => 2

structure Publish where
  topic : Text
  qos : QoS
  payload : Bytes
  deriving DecidableEq

structure Signal where
  kind : Text
  room : Text
  roomId : Text
  clientId : Text
  payload : List (Text × Json)

/-- The crates, and the configured ICE servers. -/
structure Env where
  /-- Whether a topic is one of a filter's. -/
  topicMatches : Text → Text → Bool
  fromSlice : Bytes → Option Signal
  iceServers : Json

structure Reply where
  kind : Text
  room : Text
  roomId : Text
  iceServers : Option Json
  message : Text

/-- Empty texts are left out. -/
def Reply.toJson (r : Reply) : Json :=
  let text (key : Text) (value : Text) : List (Text × Json) := if value.isEmpty then [] else [(key, .str value)]
  .obj (("type".toList, .str r.kind) :: (text "room".toList r.room ++ text "roomId".toList r.roomId ++
    (match r.iceServers with
      | none => []
      | some servers => [("iceServers".toList, servers)]) ++ text "message".toList r.message))

/-! ## Who may read and write what -/

def userTopics (userId : Text) : Text := "user/".toList ++ userId ++ ['/']

def signalingTopics (userId : Text) : Text := signalingPrefix ++ userId ++ ['/']

def aclAllows (userId topic : Text) (write : Bool) : Bool :=
  (userTopics userId).isPrefixOf topic || (signalingTopics userId).isPrefixOf topic ||
    (!write && topic == "remarkable/screenshare/signaling".toList)

/-- A filter is checked with its wildcards filled in. -/
def maySubscribe (userId filter : Text) : Bool :=
  aclAllows userId (filter.map fun c => if c == '+' || c == '#' then 'x' else c) false ||
    (userTopics userId).isPrefixOf filter

/-! ## Clients -/

structure Client where
  session : Nat
  userId : Text
  subscriptions : List (Text × QoS)
  deriving DecidableEq

abbrev Clients := Table Text Client

/-- A message in the queue of a client. -/
structure Delivery where
  userId : Text
  clientId : Text
  session : Nat
  message : Publish
  deriving DecidableEq

def maxQos : List QoS → Option QoS
  | [] => none
  | q :: qs => match maxQos qs with
    | none => some q
    | some best => if q.level ≤ best.level then some best else some q

/-- What a client gets of a message. -/
def deliver (env : Env) (p : Publish) (clientId : Text) (c : Client) : Option Delivery :=
  (maxQos ((c.subscriptions.filter fun f => env.topicMatches p.topic f.1).map (·.2))).bind fun subQos =>
    if aclAllows c.userId p.topic false then
      some ⟨c.userId, clientId, c.session, { p with qos := if p.qos.level < subQos.level then p.qos else subQos }⟩
    else none

namespace Clients

def publish (env : Env) (p : Publish) (clients : Clients) : List Delivery :=
  clients.entries.filterMap fun e => deliver env p e.1 e.2

/-- Only the session that is registered under the id changes its subscriptions. -/
def subscribe (clientId : Text) (session : Nat) (change : List (Text × QoS) → List (Text × QoS)) (clients : Clients) :
    Clients :=
  if (clients.lookup clientId).any (·.session = session) then
    clients.modify clientId fun c => { c with subscriptions := change c.subscriptions }
  else clients

end Clients

/-! ## Rooms -/

structure Room where
  userId : Text
  participants : List Text
  created : Nat
  lastActivity : Nat
  deriving DecidableEq

def Room.touch (now : Nat) (r : Room) : Room := { r with lastActivity := now }

def Room.join (now : Nat) (clientId : Text) (r : Room) : Room :=
  { r with
    participants := if r.participants.contains clientId then r.participants else r.participants ++ [clientId]
    lastActivity := now }

def Room.leave (clientId : Text) (r : Room) : Room := { r with participants := r.participants.filter (· != clientId) }

abbrev Rooms := Table Text Room

namespace Rooms

/-- Whether `active_room` can answer this: one of the newest rooms of the user, if there are any. -/
def isActive (userId : Text) (found : Option Text) (rooms : Rooms) : Bool :=
  let owned := rooms.entries.filter fun e => e.2.userId == userId
  match found with
  | none => owned.isEmpty
  | some id => owned.any fun e => e.1 == id && owned.all fun other => decide (other.2.created ≤ e.2.created)

/-- False if the room is gone. -/
def join (now : Nat) (roomId clientId : Text) (rooms : Rooms) : Rooms × Bool :=
  match rooms.lookup roomId with
  | none => (rooms, false)
  | some _ => (rooms.modify roomId (Room.join now clientId), true)

def peers (roomId sender : Text) (rooms : Rooms) : List Text :=
  match rooms.lookup roomId with
  | none => []
  | some r => r.participants.filter (· != sender)

/-- The client leaves every room, and the rooms that are empty close. -/
def leave (clientId : Text) (rooms : Rooms) : Rooms :=
  (rooms.mapValues (Room.leave clientId)).retain fun _ r => !r.participants.isEmpty

/-- Rooms stay while a participant is connected or for their timeout. -/
def sweep (now : Nat) (connected : List Text) (rooms : Rooms) : Rooms :=
  rooms.retain fun _ r => r.participants.any connected.contains || decide (now - r.lastActivity < roomTimeout)

end Rooms

/-! ## What a session has to do -/

/-- What follows on `active_room`. -/
inductive Lookup where
  | touch
  | create (sender room : Text) (qos : QoS)
  | join (sender : Text) (qos : QoS)
  | broadcast (sender : Text) (body : Bytes) (qos : QoS)
  | direct (target : Text) (body : Bytes) (qos : QoS)
  deriving DecidableEq

/-- One section under a lock. A reply to a signal is to its sender. -/
inductive Op where
  | activeRoom (userId : Text) (next : Lookup)
  | touch (roomId : Text)
  | createJoin (userId sender room existing : Text) (qos : QoS)
  | insert (userId sender room : Text) (qos : QoS)
  | join (userId sender roomId : Text) (qos : QoS)
  | peers (userId sender roomId : Text) (body : Bytes) (qos : QoS)
  | roomCreated (userId sender room roomId : Text) (qos : QoS)
  | roomJoined (userId sender roomId : Text) (qos : QoS)
  | roomNotFound (userId sender roomId : Text) (qos : QoS)
  | publish (p : Publish)
  | subscribe (filter : Text) (qos : QoS)
  | unsubscribe (topics : List Text)
  | leave
  deriving DecidableEq

def joinRoom (userId sender roomId : Text) (qos : QoS) : Op :=
  if roomId.isEmpty then .roomNotFound userId sender roomId qos else .join userId sender roomId qos

/-- The topic that a client of a room listens on. -/
def clientTopic (userId clientId roomId : Text) : Text :=
  userTopics userId ++ "client/".toList ++ clientId ++ "/signaling/".toList ++ roomId

def Lookup.found (userId : Text) (found : Option Text) : Lookup → List Op
  | .touch => match found with
    | none => []
    | some roomId => [.touch roomId]
  | .create sender room qos => match found with
    | some existing => [.createJoin userId sender room existing qos]
    | none => [.insert userId sender room qos]
  | .join sender qos => [joinRoom userId sender (found.getD []) qos]
  | .broadcast sender body qos => [.peers userId sender (found.getD []) body qos]
  | .direct target body qos => [.publish ⟨clientTopic userId target (found.getD []), qos, body⟩]

/-- The lookups that a signal may spare by naming its room. -/
def Lookup.spared : Lookup → Bool
  | .touch | .create _ _ _ => false
  | .join _ _ | .broadcast _ _ _ | .direct _ _ _ => true

/-- The body that is relayed. -/
def relayed (kind sender : Text) (payload : List (Text × Json)) : Bytes :=
  Json.toVec (.obj [("clientId".toList, .str sender), ("payload".toList, .obj payload), ("type".toList, .str kind)])

/-- A signal that names no room is about the active one. -/
def inRoom (userId : Text) (roomId : Text) (next : Lookup) : List Op :=
  if roomId.isEmpty then [.activeRoom userId next] else next.found userId (some roomId)

def handleSignal (userId sender : Text) (msg : Signal) (qos : QoS) : List Op :=
  if msg.kind = "create-room".toList then [.activeRoom userId (.create sender msg.room qos)]
  else if msg.kind = "join-auth-room".toList ∨ msg.kind = "join-active-room".toList then
    inRoom userId msg.roomId (.join sender qos)
  else if msg.kind = "broadcast".toList then
    inRoom userId msg.roomId (.broadcast sender (relayed "broadcast".toList sender msg.payload) qos)
  else if msg.kind = "direct".toList then
    if msg.clientId.isEmpty then []
    else inRoom userId msg.roomId (.direct msg.clientId (relayed "direct".toList sender msg.payload) qos)
  else []

/-- `remarkable/screenshare/signaling/user/{uid}/client/{cid}`, written without its braces `uid` and `cid`. -/
def signalOps (env : Env) (p : Publish) : List Op :=
  if signalingPrefix.isPrefixOf p.topic then
    match split '/' (p.topic.drop signalingPrefix.length) with
    | userId :: client :: sender :: _ =>
      if client = "client".toList then
        match env.fromSlice p.payload with
        | some msg => handleSignal userId sender msg p.qos
        | none => []
      else []
    | _ => []
  else []

def onPublish (env : Env) (userId : Text) (p : Publish) : List Op :=
  .activeRoom userId .touch :: (signalOps env p ++ [.publish p])

/-- A session also ends by an error or a revocation. -/
inductive Packet where
  | publish (p : Publish)
  | subscribe (filters : List (Text × QoS))
  | unsubscribe (topics : List Text)
  | pingReq
  | disconnect
  deriving DecidableEq

/-- A session, and what it has to do for the packet it has read. -/
structure Conn where
  userId : Text
  clientId : Text
  inProcess : Bool
  ops : List Op
  deriving DecidableEq

def subscribeOp (userId : Text) (f : Text × QoS) : Option Op :=
  if maySubscribe userId f.1 then some (.subscribe f.1 (if f.2 = .exactlyOnce then .atLeastOnce else f.2)) else none

/-- A client of the server itself publishes, and leaves. -/
def Conn.handle (env : Env) (c : Conn) : Packet → Option (List Op)
  | .publish p =>
    if aclAllows c.userId p.topic true then
      some (onPublish env c.userId (if c.inProcess then { p with qos := .atLeastOnce } else p))
    else if c.inProcess then some [] else some [.leave]
  | .subscribe filters => if c.inProcess then none else some (filters.filterMap (subscribeOp c.userId))
  | .unsubscribe topics => if c.inProcess then none else some [.unsubscribe topics]
  | .pingReq => if c.inProcess then none else some [.activeRoom c.userId .touch]
  | .disconnect => some [.leave]

/-! ## What packets ask for -/

section

variable {P : Op → Prop} {userId : Text}

theorem forall_inRoom (hactive : ∀ next, P (.activeRoom userId next))
    (hfound : ∀ (next : Lookup) found, next.spared = true → ∀ op ∈ next.found userId found, P op) (roomId : Text)
    {next : Lookup} (hnext : next.spared = true) : ∀ op ∈ inRoom userId roomId next, P op := by
  intro op hop
  rw [inRoom] at hop
  split at hop
  · obtain rfl := List.mem_singleton.mp hop
    exact hactive next
  · exact hfound next _ hnext op hop

/-- A signal looks for the active room, or begins with what follows on it. -/
theorem forall_handleSignal (hactive : ∀ next, P (.activeRoom userId next))
    (hfound : ∀ (next : Lookup) found, next.spared = true → ∀ op ∈ next.found userId found, P op) (sender : Text)
    (msg : Signal) (qos : QoS) : ∀ op ∈ handleSignal userId sender msg qos, P op := by
  intro op hop
  unfold handleSignal at hop
  split at hop
  · obtain rfl := List.mem_singleton.mp hop
    exact hactive _
  · split at hop
    · exact forall_inRoom hactive hfound _ rfl op hop
    · split at hop
      · exact forall_inRoom hactive hfound _ rfl op hop
      · split at hop
        · split at hop
          · cases hop
          · exact forall_inRoom hactive hfound _ rfl op hop
        · cases hop

/-- The topic is for signals, and this user stands in it. -/
def SignalOf (userId : Text) (p : Publish) : Prop :=
  signalingPrefix.isPrefixOf p.topic = true ∧ ∃ rest, split '/' (p.topic.drop signalingPrefix.length) = userId :: rest

theorem forall_signalOps (env : Env) (p : Publish) (hactive : ∀ userId next, SignalOf userId p → P (.activeRoom userId next))
    (hfound : ∀ userId (next : Lookup) found, SignalOf userId p → next.spared = true →
      ∀ op ∈ next.found userId found, P op) : ∀ op ∈ signalOps env p, P op := by
  intro op hop
  unfold signalOps at hop
  split at hop
  · next htopic =>
    split at hop
    · next userId client sender rest hsplit =>
      have hof : SignalOf userId p := ⟨htopic, _, hsplit⟩
      split at hop
      · split at hop
        · exact forall_handleSignal (fun next => hactive userId next hof) (fun next found => hfound userId next found hof)
            _ _ _ op hop
        · cases hop
      · cases hop
    · cases hop
  · cases hop

/-- The user of a lookup is the session's own, or that of a topic it may write. -/
def Named (c : Conn) (userId : Text) : Prop :=
  userId = c.userId ∨ ∃ p, aclAllows c.userId p.topic true = true ∧ SignalOf userId p

/-- What a packet asks for: lookups and what follows on them, messages on topics that the session may write, changes of
its subscriptions, or the end of the session. -/
theorem forall_handle {env : Env} {c : Conn} {packet : Packet} {ops : List Op} (h : c.handle env packet = some ops)
    (hactive : ∀ userId next, Named c userId → P (.activeRoom userId next))
    (hfound : ∀ userId (next : Lookup) found, Named c userId → next.spared = true → ∀ op ∈ next.found userId found, P op)
    (hpublish : ∀ p, aclAllows c.userId p.topic true = true → P (.publish p))
    (hsubscribe : ∀ filter qos, P (.subscribe filter qos)) (hunsubscribe : ∀ topics, P (.unsubscribe topics))
    (hleave : P .leave) : ∀ op ∈ ops, P op := by
  intro op hop
  cases packet with
  | publish p =>
    simp only [Conn.handle] at h
    split at h
    · next hallowed =>
      have hwritten : ∀ q : Publish, q.topic = p.topic → ∀ op ∈ onPublish env c.userId q, P op := by
        intro q htopic op hop
        have hq : aclAllows c.userId q.topic true = true := htopic ▸ hallowed
        rcases List.mem_cons.mp hop with rfl | hop
        · exact hactive _ _ (.inl rfl)
        · rcases List.mem_append.mp hop with hop | hop
          · exact forall_signalOps env q (fun userId next hof => hactive userId next (.inr ⟨q, hq, hof⟩))
              (fun userId next found hof => hfound userId next found (.inr ⟨q, hq, hof⟩)) op hop
          · obtain rfl := List.mem_singleton.mp hop
            exact hpublish q hq
      obtain rfl := Option.some.inj h
      refine hwritten _ ?_ op hop
      split <;> rfl
    · split at h
      · obtain rfl := Option.some.inj h
        cases hop
      · obtain rfl := Option.some.inj h
        obtain rfl := List.mem_singleton.mp hop
        exact hleave
  | subscribe filters =>
    simp only [Conn.handle, Option.ite_none_left_eq_some] at h
    obtain ⟨-, h⟩ := h
    obtain rfl := Option.some.inj h
    obtain ⟨f, -, hf⟩ := List.mem_filterMap.mp hop
    rw [subscribeOp, Option.ite_none_right_eq_some, Option.some.injEq] at hf
    rw [← hf.2]
    exact hsubscribe _ _
  | unsubscribe topics =>
    simp only [Conn.handle, Option.ite_none_left_eq_some] at h
    obtain ⟨-, h⟩ := h
    obtain rfl := Option.some.inj h
    obtain rfl := List.mem_singleton.mp hop
    exact hunsubscribe topics
  | pingReq =>
    simp only [Conn.handle, Option.ite_none_left_eq_some] at h
    obtain ⟨-, h⟩ := h
    obtain rfl := Option.some.inj h
    obtain rfl := List.mem_singleton.mp hop
    exact hactive _ _ (.inl rfl)
  | disconnect =>
    obtain rfl := Option.some.inj h
    obtain rfl := List.mem_singleton.mp hop
    exact hleave

end

/-! ## The broker -/

/-- `issued` has every room that ever was, with its user. A sweep holds the client ids that it found connected; whose
they are is recorded beside them. -/
structure Sys where
  clients : Clients
  rooms : Rooms
  issued : Table Text Text
  conns : Table Nat Conn
  sweeping : Option (List (Text × Text))
  deliveries : List Delivery

def Sys.empty : Sys := ⟨∅, ∅, ∅, ∅, none, []⟩

inductive Step where
  /-- A session is authenticated and registered. -/
  | connect (clientId : Text)
  /-- `local_client`. -/
  | attach (clientId : Text) (filters : List Text)
  | receive (packet : Packet)
  /-- The next section, with the room that it finds or makes if it does. -/
  | run (now : Nat) (found : Option Text) (fresh : Text)
  deriving DecidableEq

inductive Action where
  | client (userId : Text) (session : Nat) (does : Step)
  | collect
  | sweep (now : Nat)
  deriving DecidableEq

namespace Sys

def register (s : Sys) (session : Nat) (c : Conn) (subscriptions : List (Text × QoS)) : Option Sys :=
  if (s.conns.lookup session).isNone then
    some { s with
      clients := s.clients.insert c.clientId ⟨session, c.userId, subscriptions⟩
      conns := s.conns.insert session c }
  else none

/-- The session has this to do. -/
def goOn (s : Sys) (session : Nat) (c : Conn) (ops : List Op) : Sys :=
  { s with conns := s.conns.insert session { c with ops := ops } }

def publish (env : Env) (s : Sys) (p : Publish) : Sys :=
  { s with deliveries := s.deliveries ++ s.clients.publish env p }

def reply (env : Env) (s : Sys) (topic : Text) (r : Reply) (qos : QoS) : Sys :=
  s.publish env ⟨topic, qos, Json.toVec r.toJson⟩

/-- `remove_client`: only the session that is registered under the id. -/
def removeClient (s : Sys) (clientId : Text) (session : Nat) : Sys :=
  if (s.clients.lookup clientId).any (·.session = session) then
    { s with clients := s.clients.erase clientId, rooms := s.rooms.leave clientId }
  else s

def runOp (env : Env) (s : Sys) (session : Nat) (c : Conn) (rest : List Op) (now : Nat) (found : Option Text)
    (fresh : Text) : Op → Option Sys
  | .activeRoom userId next =>
    if s.rooms.isActive userId found then some (s.goOn session c (next.found userId found ++ rest)) else none
  | .touch roomId => some { s.goOn session c rest with rooms := s.rooms.modify roomId (Room.touch now) }
  | .createJoin userId sender room existing qos =>
    some { s.goOn session c (.roomCreated userId sender room existing qos :: rest) with
      rooms := (s.rooms.join now existing sender).1 }
  | .insert userId sender room qos =>
    if (s.issued.lookup fresh).isNone then
      some { s.goOn session c (.roomCreated userId sender room fresh qos :: rest) with
        rooms := s.rooms.insert fresh ⟨userId, [sender], now, now⟩
        issued := s.issued.insert fresh userId }
    else none
  | .join userId sender roomId qos =>
    match s.rooms.join now roomId sender with
    | (rooms, true) => some { s.goOn session c (.roomJoined userId sender roomId qos :: rest) with rooms := rooms }
    | (rooms, false) => some { s.goOn session c (.roomNotFound userId sender roomId qos :: rest) with rooms := rooms }
  | .peers userId sender roomId body qos =>
    some (s.goOn session c
      ((s.rooms.peers roomId sender).map (fun peer => .publish ⟨clientTopic userId peer roomId, qos, body⟩) ++ rest))
  | .roomCreated userId _ room roomId qos =>
    some ((s.goOn session c rest).reply env (userTopics userId ++ "signaling".toList)
      ⟨"room-created".toList, room, roomId, none, []⟩ qos)
  | .roomJoined userId sender roomId qos =>
    some ((s.goOn session c rest).reply env (clientTopic userId sender ("room/".toList ++ roomId))
      ⟨"room-joined".toList, [], roomId, some (.obj [("ice_servers".toList, env.iceServers)]), []⟩ qos)
  | .roomNotFound userId sender roomId qos =>
    some ((s.goOn session c rest).reply env (clientTopic userId sender roomId)
      ⟨"room-not-found".toList, [], [], none, "no active screen share room".toList⟩ qos)
  | .publish p => some ((s.goOn session c rest).publish env p)
  | .subscribe filter qos =>
    some { s.goOn session c rest with
      clients := s.clients.subscribe c.clientId session fun fs => fs.filter (·.1 != filter) ++ [(filter, qos)] }
  | .unsubscribe topics =>
    some { s.goOn session c rest with
      clients := s.clients.subscribe c.clientId session fun fs => fs.filter fun f => !topics.contains f.1 }
  | .leave => some { s.removeClient c.clientId session with conns := s.conns.erase session }

/-- A step of a session that is registered. -/
def act (env : Env) (s : Sys) (session : Nat) (c : Conn) : Step → Option Sys
  | .receive packet =>
    match c.ops with
    | [] => (c.handle env packet).map (s.goOn session c)
    | _ :: _ => none
  | .run now found fresh =>
    match c.ops with
    | [] => none
    | op :: rest => s.runOp env session c rest now found fresh op
  | _ => none

end Sys

def step (env : Env) (s : Sys) : Action → Option Sys
  | .client userId session (.connect clientId) => s.register session ⟨userId, clientId, false, []⟩ []
  | .client userId session (.attach clientId filters) =>
    s.register session ⟨userId, clientId, true, []⟩ ((filters.filter (maySubscribe userId)).map (·, .atLeastOnce))
  | .client userId session does =>
    ((s.conns.lookup session).filter (·.userId = userId)).bind fun c => s.act env session c does
  | .collect =>
    match s.sweeping with
    | none => some { s with sweeping := some (s.clients.entries.map fun e => (e.1, e.2.userId)) }
    | some _ => none
  | .sweep now =>
    match s.sweeping with
    | none => none
    | some connected => some { s with rooms := s.rooms.sweep now (connected.map (·.1)), sweeping := none }

/-- The next section of a session. -/
def nextOp (s : Sys) (session : Nat) : Option Op := (s.conns.lookup session).bind (·.ops.head?)

/-! ## What a step is -/

section

variable {env : Env} {s s' : Sys} {userId : Text} {session : Nat}

theorem nextOp_eq {c : Conn} {op : Op} {rest : List Op} (hc : s.conns.lookup session = some c) (hops : c.ops = op :: rest) :
    nextOp s session = some op := by
  rw [nextOp, hc, Option.bind_some, hops, List.head?_cons]

theorem register_eq_some {c : Conn} {subscriptions : List (Text × QoS)} (h : s.register session c subscriptions = some s') :
    s.conns.lookup session = none ∧
      s' = { s with
        clients := s.clients.insert c.clientId ⟨session, c.userId, subscriptions⟩
        conns := s.conns.insert session c } := by
  rw [Sys.register, Option.ite_none_right_eq_some, Option.isNone_iff_eq_none, Option.some.injEq] at h
  exact ⟨h.1, h.2.symm⟩

theorem receive_eq_some {packet : Packet} (h : step env s (.client userId session (.receive packet)) = some s') :
    ∃ c ops, s.conns.lookup session = some c ∧ c.userId = userId ∧ c.ops = [] ∧ c.handle env packet = some ops ∧
      s' = s.goOn session c ops := by
  obtain ⟨c, hc, hact⟩ := Option.bind_eq_some_iff.mp h
  obtain ⟨hc, huser⟩ := Option.filter_eq_some_iff.mp hc
  simp only [Sys.act] at hact
  split at hact
  · next hops =>
    obtain ⟨ops, hhandle, rfl⟩ := Option.map_eq_some_iff.mp hact
    exact ⟨c, ops, hc, of_decide_eq_true huser, hops, hhandle, rfl⟩
  · cases hact

theorem run_eq_some {now : Nat} {found : Option Text} {fresh : Text}
    (h : step env s (.client userId session (.run now found fresh)) = some s') :
    ∃ c op rest, s.conns.lookup session = some c ∧ c.userId = userId ∧ c.ops = op :: rest ∧
      s.runOp env session c rest now found fresh op = some s' := by
  obtain ⟨c, hc, hact⟩ := Option.bind_eq_some_iff.mp h
  obtain ⟨hc, huser⟩ := Option.filter_eq_some_iff.mp hc
  simp only [Sys.act] at hact
  split at hact
  · cases hact
  · next op rest hops => exact ⟨c, op, rest, hc, of_decide_eq_true huser, hops, hact⟩

theorem collect_eq_some (h : step env s .collect = some s') :
    s.sweeping = none ∧ s' = { s with sweeping := some (s.clients.entries.map fun e => (e.1, e.2.userId)) } := by
  simp only [step] at h
  split at h
  · next hnone => exact ⟨hnone, (Option.some.inj h).symm⟩
  · cases h

theorem sweep_eq_some {now : Nat} (h : step env s (.sweep now) = some s') :
    ∃ connected, s.sweeping = some connected ∧
      s' = { s with rooms := s.rooms.sweep now (connected.map (·.1)), sweeping := none } := by
  simp only [step] at h
  split at h
  · cases h
  · next connected hconnected => exact ⟨connected, hconnected, (Option.some.inj h).symm⟩

theorem step_receive {packet : Packet} {c : Conn} {ops : List Op} (hc : s.conns.lookup session = some c)
    (huser : c.userId = userId) (hops : c.ops = []) (hhandle : c.handle env packet = some ops) :
    step env s (.client userId session (.receive packet)) = some (s.goOn session c ops) := by
  simp only [step, hc, Option.filter_some, huser, decide_true, if_true, Option.bind_some, Sys.act, hops, hhandle,
    Option.map_some]

theorem step_run {now : Nat} {found : Option Text} {fresh : Text} {c : Conn} {op : Op} {rest : List Op}
    (hc : s.conns.lookup session = some c) (huser : c.userId = userId) (hops : c.ops = op :: rest) :
    step env s (.client userId session (.run now found fresh)) = s.runOp env session c rest now found fresh op := by
  simp only [step, hc, Option.filter_some, huser, decide_true, if_true, Option.bind_some, Sys.act, hops]

/-- A join finds its room or leaves the rooms as they are. -/
theorem join_eq_true {rooms rooms' : Rooms} {now : Nat} {roomId clientId : Text}
    (h : rooms.join now roomId clientId = (rooms', true)) :
    (∃ r, rooms.lookup roomId = some r) ∧ rooms' = rooms.modify roomId (Room.join now clientId) := by
  unfold Rooms.join at h
  split at h
  · cases h
  · next r hr => exact ⟨⟨r, hr⟩, (Prod.mk.inj h).1.symm⟩

theorem join_eq_false {rooms rooms' : Rooms} {now : Nat} {roomId clientId : Text}
    (h : rooms.join now roomId clientId = (rooms', false)) : rooms.lookup roomId = none ∧ rooms' = rooms := by
  unfold Rooms.join at h
  split at h
  · next hnone => exact ⟨hnone, (Prod.mk.inj h).1.symm⟩
  · cases h

/-- A room that is gone has nothing to change. -/
theorem join_fst (rooms : Rooms) (now : Nat) (roomId clientId : Text) :
    (rooms.join now roomId clientId).1 = rooms.modify roomId (Room.join now clientId) := by
  unfold Rooms.join
  split
  · next hnone => rw [modify_eq_self hnone]
  · rfl

/-! ## What a step leaves of the rooms -/

/-- The rooms are rooms of before, of the same users, with participants that they had or that were added. -/
def ComesFrom (added : Text → Text → Prop) (rooms rooms' : Rooms) : Prop :=
  ∀ id r', rooms'.lookup id = some r' → ∃ r, rooms.lookup id = some r ∧ r'.userId = r.userId ∧
    (r.participants ≠ [] → r'.participants ≠ []) ∧ ∀ p ∈ r'.participants, p ∈ r.participants ∨ added id p

theorem comesFrom_modify {rooms : Rooms} {roomId : Text} {f : Room → Room} {added : Text → Prop}
    (huser : ∀ r, (f r).userId = r.userId) (hne : ∀ r, r.participants ≠ [] → (f r).participants ≠ [])
    (hadded : ∀ r, ∀ p ∈ (f r).participants, p ∈ r.participants ∨ added p) :
    ComesFrom (fun id p => id = roomId ∧ added p) rooms (rooms.modify roomId f) := by
  intro id r' hr'
  rw [lookup_modify] at hr'
  split at hr'
  · next hid =>
    subst hid
    obtain ⟨r, hr, rfl⟩ := Option.map_eq_some_iff.mp hr'
    exact ⟨r, hr, huser r, hne r, fun p hp => (hadded r p hp).imp_right fun h => ⟨rfl, h⟩⟩
  · exact ⟨r', hr', rfl, fun hne => hne, fun p hp => .inl hp⟩

theorem comesFrom_touch (rooms : Rooms) (roomId : Text) (now : Nat) :
    ComesFrom (fun id _ => id = roomId ∧ False) rooms (rooms.modify roomId (Room.touch now)) :=
  comesFrom_modify (fun _ => rfl) (fun _ hne => hne) fun _ _ hp => .inl hp

theorem mem_join {r : Room} {now : Nat} {clientId p : Text} :
    p ∈ (r.join now clientId).participants ↔ p ∈ r.participants ∨ p = clientId := by
  unfold Room.join
  dsimp only
  split
  · next hin =>
    constructor
    · exact .inl
    · rintro (hp | rfl)
      · exact hp
      · exact List.contains_iff_mem.mp hin
  · rw [List.mem_append, List.mem_singleton]

theorem comesFrom_join (rooms : Rooms) (roomId sender : Text) (now : Nat) :
    ComesFrom (fun id p => id = roomId ∧ p = sender) rooms (rooms.modify roomId (Room.join now sender)) :=
  comesFrom_modify (fun _ => rfl) (fun _ _ => List.ne_nil_of_mem (mem_join.mpr (.inr rfl))) fun _ _ hp => mem_join.mp hp

theorem comesFrom_leave (rooms : Rooms) (clientId : Text) : ComesFrom (fun _ _ => False) rooms (rooms.leave clientId) := by
  intro id r' hr'
  rw [Rooms.leave, lookup_retain, lookup_mapValues, Option.filter_eq_some_iff] at hr'
  obtain ⟨hr', hne⟩ := hr'
  obtain ⟨r, hr, rfl⟩ := Option.map_eq_some_iff.mp hr'
  refine ⟨r, hr, rfl, fun _ hnil => ?_, fun p hp => .inl (List.mem_of_mem_filter hp)⟩
  rw [hnil] at hne
  cases hne

theorem comesFrom_sweep (rooms : Rooms) (now : Nat) (connected : List Text) :
    ComesFrom (fun _ _ => False) rooms (rooms.sweep now connected) := by
  intro id r hr
  rw [Rooms.sweep, lookup_retain, Option.filter_eq_some_iff] at hr
  exact ⟨r, hr.1, rfl, fun hne => hne, fun _ hp => .inl hp⟩

end

/-! ## Concrete sessions -/

def createRoomText : Bytes := Utf8Codec.encode "\x7b\"type\":\"create-room\"\x7d".toList

def joinRoomText : Bytes := Utf8Codec.encode "\x7b\"type\":\"join-auth-room\",\"roomId\":\"r\"\x7d".toList

/-- Filters without wildcards, and the texts of two signals. -/
def plainEnv : Env where
  topicMatches topic filter := topic == filter
  fromSlice payload :=
    if payload = createRoomText then some ⟨"create-room".toList, [], [], [], []⟩
    else if payload = joinRoomText then some ⟨"join-auth-room".toList, [], "r".toList, [], []⟩
    else none
  iceServers := .arr []

/-- A client signals on its own topic. -/
def signals (userId clientId : Text) (session : Nat) (text : Bytes) : Action :=
  .client userId session (.receive (.publish ⟨signalingTopics userId ++ "client/".toList ++ clientId, .atLeastOnce, text⟩))

/-- The next sections of a session, with the rooms that they find. -/
def runs (userId : Text) (session : Nat) (founds : List (Option Text)) (fresh : Text) : List Action :=
  founds.map fun found => .client userId session (.run 0 found fresh)

/-- A client makes a room and is told so. -/
def creates (userId clientId : Text) (session : Nat) (fresh : Text) : List Action :=
  signals userId clientId session createRoomText :: runs userId session [none, none, none, none, none] fresh

end ScreenshareBroker
