import RemarkableServer.Lib.Base64
import RemarkableServer.Lib.Broadcast
import RemarkableServer.Lib.Json
import RemarkableServer.Lib.Processes
import RemarkableServer.Lib.Transition
import RemarkableServer.Notifications
import RemarkableServer.ScreenshareRest

/-!
# Screen share signalling

Devices post messages to rooms, and every message goes on the one notification
channel. The notification sockets of the devices and the server's own viewers
receive all of them, and each forwards or returns what it takes to be its own.
A post checks that the room is there and sends the message in two steps.
-/
namespace ScreenshareSignalling

open RustText Notifications Broadcast ScreenshareRest Transition

/-! ## Bodies -/

/-- The crates: JSON texts, base64, and the messages of peers. -/
structure Codec (Peer : Type) where
  toVec : Json → Bytes
  encode : Bytes → Text
  decode : Text → Option Bytes
  fromSlice : Bytes → Option Peer
  peerToVec : Peer → Bytes

variable {Peer : Type}

/-- Senders wrap the signalling body. -/
def innerBody (codec : Codec Peer) (body : Json) : Bytes := codec.toVec ((body.get "payload".toList).getD body)

def targetClientId (body : Json) : Option Text := (body.get "targetClientId".toList).bind Json.asStr

/-! ## Receivers -/

/-- A message on the channel, and the account it was posted from. -/
structure Posted where
  userId : Text
  msg : WsMessage
  deriving DecidableEq

/-- The notification socket of a device. -/
structure Socket where
  userId : Text
  deviceId : Text
  position : Nat

/-- Where a viewer is in `join_rest`, or that it is in its room. -/
inductive Phase where
  | found
  | subscribed (position : Nat)
  | joined (position : Nat)

/-- The membership of an in-process viewer. -/
structure Viewer where
  clientId : Text
  roomId : Text
  phase : Phase

def Viewer.position (v : Viewer) : Option Nat :=
  match v.phase with
  | .found => none
  | .subscribed position => some position
  | .joined position => some position

/-- The attributes that `Channel::recv` looks at before it decodes the data. -/
def addressedTo (clientId roomId : Text) (msg : WsMessage) : Bool :=
  msg.attributes.event == messageEvent && msg.attributes.sourceDeviceId != clientId &&
    msg.attributes.targetClientId.all (· == clientId) && msg.attributes.roomId == some roomId

/-- What `Channel::recv` returns of a message, if it does not pass over it. -/
def received (codec : Codec Peer) (clientId roomId : Text) (msg : WsMessage) : Option (Text × Peer) :=
  if addressedTo clientId roomId msg then
    (((msg.data.bind codec.decode).bind codec.fromSlice)).map fun payload => (msg.attributes.sourceDeviceId, payload)
  else none

/-- A message that a socket forwarded or a viewer returned, to the client of an account. -/
structure Delivery where
  userId : Text
  clientId : Text
  posted : Posted
  deriving DecidableEq

/-! ## The system -/

/-- The viewers are all of one account, the configured one. `posts` are messages whose rooms were found. -/
structure Sys where
  rooms : Rooms
  channel : Channel Posted
  viewerUserId : Text
  posts : List Posted
  sockets : List Socket
  viewers : List Viewer
  deliveries : List Delivery

def Sys.start (viewerUserId : Text) (capacity : Nat) (positive : 0 < capacity) : Sys :=
  ⟨∅, .new capacity positive, viewerUserId, [], [], [], []⟩

/-- Requests carry who their token authenticates. -/
inductive Action (Peer : Type) where
  | create (now : Nat) (roomId : Text) (createdAt : Int) (who : Devices.Claims)
  | findActive (now : Nat)
  | addParticipant (roomId : Text) (who : Devices.Claims)
  | join (now : Nat) (roomId : Text) (who : Devices.Claims)
  | delete (roomId deviceId : Text)
  | keepalive (now : Nat) (roomId userId : Text)
  | dropRegistrations (ended : List (Text × Devices.Claims))
  | broadcast (now : Nat) (roomId userId deviceId : Text) (body : Json)
  | direct (now : Nat) (roomId userId deviceId : Text) (body : Json)
  /-- A post whose room was found is sent. -/
  | send (post : Nat)
  /-- Any other event. -/
  | notify (userId : Text) (msg : WsMessage)
  | connect (userId deviceId : Text)
  | forward (socket : Nat)
  | viewerFinds (now : Nat) (clientId roomId : Text)
  | viewerSubscribes (viewer : Nat)
  | viewerJoins (now : Nat) (viewer : Nat)
  | viewerPosts (viewer : Nat) (target : Option Text) (payload : Peer)
  | viewerReceives (viewer : Nat)
  | viewerLeaves (viewer : Nat)

/-- The room is looked for, and the message is to be sent if it is there. -/
def Sys.post (s : Sys) (now : Nat) (roomId userId deviceId : Text) (target : Option Text) (data : Text) : Sys :=
  let (rooms, found) := s.rooms.isThere now roomId
  { s with
    rooms := rooms
    posts := if found then ⟨userId, .screenshareMessage userId deviceId roomId target data⟩ :: s.posts else s.posts }

/-- One round of a socket. -/
def Sys.forward (s : Sys) (n : Nat) (socket : Socket) : Option Sys :=
  match s.channel.recv socket.position with
  | (.waiting, _) => none
  | (.lagged _, position) => some { s with sockets := s.sockets.set n { socket with position := position } }
  | (.message p, position) =>
    let s := { s with sockets := s.sockets.set n { socket with position := position } }
    if deliversTo p.msg socket.userId (some socket.deviceId) then
      some { s with deliveries := ⟨socket.userId, socket.deviceId, p⟩ :: s.deliveries }
    else some s

/-- One round of `Channel::recv`. -/
def Sys.viewerReceives (codec : Codec Peer) (s : Sys) (n : Nat) (v : Viewer) (position : Nat) : Option Sys :=
  match s.channel.recv position with
  | (.waiting, _) => none
  | (.lagged _, position) => some { s with viewers := s.viewers.set n { v with phase := .joined position } }
  | (.message p, position) =>
    let s := { s with viewers := s.viewers.set n { v with phase := .joined position } }
    match received codec v.clientId v.roomId p.msg with
    | some _ => some { s with deliveries := ⟨s.viewerUserId, v.clientId, p⟩ :: s.deliveries }
    | none => some s

def step (codec : Codec Peer) (s : Sys) : Action Peer → Option Sys
  | .create now roomId createdAt who => some { s with rooms := s.rooms.create now roomId createdAt who }
  | .findActive now => some { s with rooms := s.rooms.sweep now }
  | .addParticipant roomId who => some { s with rooms := s.rooms.addParticipant roomId who }
  | .join now roomId who => some { s with rooms := (s.rooms.joinAs now roomId (.device who false)).1 }
  | .delete roomId deviceId => some { s with rooms := s.rooms.leaveOrClose roomId deviceId }
  | .keepalive now roomId userId => some { s with rooms := (s.rooms.keepalive now roomId userId).1 }
  | .dropRegistrations ended => some { s with rooms := s.rooms.dropRegistrations ended }
  | .broadcast now roomId userId deviceId body =>
    some (s.post now roomId userId deviceId none (codec.encode (innerBody codec body)))
  | .direct now roomId userId deviceId body =>
    some (s.post now roomId userId deviceId (targetClientId body) (codec.encode (innerBody codec body)))
  | .send n => s.posts[n]?.map fun p => { s with channel := s.channel.send p, posts := s.posts.eraseIdx n }
  | .notify userId msg =>
    if msg.attributes.event == messageEvent then none else some { s with channel := s.channel.send ⟨userId, msg⟩ }
  | .connect userId deviceId => some { s with sockets := ⟨userId, deviceId, s.channel.subscribe⟩ :: s.sockets }
  | .forward n => s.sockets[n]?.bind (s.forward n)
  | .viewerFinds now clientId roomId =>
    let rooms := s.rooms.sweep now
    if rooms.isActive s.viewerUserId (some roomId) then
      some { s with rooms := rooms, viewers := ⟨clientId, roomId, .found⟩ :: s.viewers }
    else none
  | .viewerSubscribes n => s.viewers[n]?.bind fun v =>
    match v.phase with
    | .found => some { s with viewers := s.viewers.set n { v with phase := .subscribed s.channel.subscribe } }
    | _ => none
  | .viewerJoins now n => s.viewers[n]?.bind fun v =>
    match v.phase with
    | .subscribed position =>
      match s.rooms.joinAs now v.roomId (.inProcess v.clientId s.viewerUserId) with
      | (rooms, true) => some { s with rooms := rooms, viewers := s.viewers.set n { v with phase := .joined position } }
      | (rooms, false) => some { s with rooms := rooms, viewers := s.viewers.eraseIdx n }
    | _ => none
  | .viewerPosts n target payload => s.viewers[n]?.bind fun v =>
    match v.phase with
    | .joined _ =>
      let data := codec.encode (codec.peerToVec payload)
      let msg := WsMessage.screenshareMessage s.viewerUserId v.clientId v.roomId target data
      some { s with channel := s.channel.send ⟨s.viewerUserId, msg⟩ }
    | _ => none
  | .viewerReceives n => s.viewers[n]?.bind fun v =>
    match v.phase with
    | .joined position => s.viewerReceives codec n v position
    | _ => none
  | .viewerLeaves n => s.viewers[n]?.bind fun v =>
    match v.phase with
    | .joined _ => some { s with rooms := s.rooms.leave v.roomId v.clientId, viewers := s.viewers.eraseIdx n }
    | _ => none

/-- A message of another account is not sent while a viewer that would return it is subscribed: one that names the
viewer's room, no other client and no sender by the viewer's id, with the message of a peer. -/
def good (codec : Codec Peer) (s : Sys) : Action Peer → Bool
  | .send n => s.posts[n]?.all fun p =>
    p.userId == s.viewerUserId ||
      !s.viewers.any fun v => v.position.isSome && (received codec v.clientId v.roomId p.msg).isSome
  | _ => true

/-! ## The invariant -/

variable {codec : Codec Peer}

/-- A message is of the account it was posted from, and for the client it names if it names one. -/
def Delivery.Within (d : Delivery) : Prop :=
  d.posted.msg.attributes.event = messageEvent →
    d.posted.userId = d.userId ∧ ∀ target, d.posted.msg.attributes.targetClientId = some target → target = d.clientId

/-- The message names the account it was posted from. -/
def Posted.Signed (p : Posted) : Prop := p.msg.attributes.event = messageEvent → p.msg.attributes.auth0UserId = p.userId

structure Inv (codec : Codec Peer) (s : Sys) : Prop where
  posts : ∀ p ∈ s.posts, p.Signed
  sent : ∀ p ∈ s.channel.sent, p.Signed
  deliveries : ∀ d ∈ s.deliveries, d.Within
  ahead : ∀ v ∈ s.viewers, ∀ position ∈ v.position, ∀ i ≥ position, ∀ p, s.channel.sent[i]? = some p →
    (received codec v.clientId v.roomId p.msg).isSome → p.userId = s.viewerUserId

theorem signed_screenshareMessage (userId deviceId roomId : Text) (target : Option Text) (data : Text) :
    (⟨userId, .screenshareMessage userId deviceId roomId target data⟩ : Posted).Signed := fun _ => rfl

theorem signed_of_other {p : Posted} (h : p.msg.attributes.event ≠ messageEvent) : p.Signed := fun hp => absurd hp h

theorem addressed_of_received {clientId roomId : Text} {msg : WsMessage} (h : (received codec clientId roomId msg).isSome) :
    addressedTo clientId roomId msg = true := by
  unfold received at h
  split at h
  · next haddressed => exact haddressed
  · cases h

/-- A message that a socket forwards stays within the account. -/
theorem within_forward {p : Posted} (hp : p.Signed) {userId deviceId : Text}
    (h : deliversTo p.msg userId (some deviceId) = true) : (⟨userId, deviceId, p⟩ : Delivery).Within := by
  intro hevent
  have hshared : p.msg.isShared = false := by
    rw [WsMessage.isShared, hevent]
    decide
  obtain ⟨huser, htarget⟩ := of_deliversTo hshared h
  exact ⟨(hp hevent).symm.trans huser, fun target ht => htarget target deviceId ht rfl⟩

/-- A message that a viewer returns stays within the account if it was posted there. -/
theorem within_received {p : Posted} {clientId roomId userId : Text} (huser : p.userId = userId)
    (h : (received codec clientId roomId p.msg).isSome) : (⟨userId, clientId, p⟩ : Delivery).Within := by
  intro _
  refine ⟨huser, fun target ht => ?_⟩
  have haddressed := addressed_of_received h
  simp only [addressedTo, Bool.and_eq_true, Option.all_eq_true, beq_iff_eq] at haddressed
  exact haddressed.1.2 target ht

/-- Nothing is sent or received. -/
theorem Inv.quiet {s : Sys} (h : Inv codec s) (rooms : Rooms) : Inv codec { s with rooms := rooms } :=
  ⟨h.posts, h.sent, h.deliveries, h.ahead⟩

theorem Inv.post {s : Sys} (h : Inv codec s) (now : Nat) (roomId userId deviceId : Text) (target : Option Text)
    (data : Text) : Inv codec (s.post now roomId userId deviceId target data) := by
  refine ⟨fun p hp => ?_, h.sent, h.deliveries, h.ahead⟩
  simp only [Sys.post] at hp
  split at hp
  · rcases List.mem_cons.mp hp with rfl | hp
    · exact signed_screenshareMessage userId deviceId roomId target data
    · exact h.posts p hp
  · exact h.posts p hp

/-- A message is sent that no viewer returns unless it is of its account. -/
theorem Inv.send {s : Sys} (h : Inv codec s) {p : Posted} (hp : p.Signed)
    (hgood : ∀ v ∈ s.viewers, v.position.isSome → (received codec v.clientId v.roomId p.msg).isSome →
      p.userId = s.viewerUserId) {posts : List Posted} (hposts : ∀ q ∈ posts, q ∈ s.posts) :
    Inv codec { s with channel := s.channel.send p, posts := posts } := by
  refine ⟨fun q hq => h.posts q (hposts q hq), fun q hq => ?_, h.deliveries, ?_⟩
  · rcases List.mem_append.mp hq with hq | hq
    · exact h.sent q hq
    · rwa [List.mem_singleton.mp hq]
  · intro v hv position hposition i hi q hq hreceived
    rcases Nat.lt_trichotomy i s.channel.sent.length with hlt | heq | hgt
    · rw [Channel.send_sent, List.getElem?_append_left hlt] at hq
      exact h.ahead v hv position hposition i hi q hq hreceived
    · rw [Channel.send_sent, heq, List.getElem?_concat_length] at hq
      obtain rfl := Option.some.inj hq
      exact hgood v hv (Option.isSome_of_mem hposition) hreceived
    · rw [Channel.send_sent, List.getElem?_eq_none (by simp; omega)] at hq
      cases hq

/-- A viewer goes on in its room, no further back than before. -/
theorem Inv.moveViewer {s : Sys} (h : Inv codec s) {n : Nat} {v : Viewer} (hn : s.viewers[n]? = some v) {phase : Phase}
    (hahead : ∀ position ∈ ({ v with phase := phase } : Viewer).position,
      (∃ before ∈ v.position, before ≤ position) ∨ s.channel.sent.length ≤ position) :
    Inv codec { s with viewers := s.viewers.set n { v with phase := phase } } := by
  refine ⟨h.posts, h.sent, h.deliveries, Processes.forall_set h.ahead fun position hposition i hi p hp hreceived => ?_⟩
  rcases hahead position hposition with ⟨before, hbefore, hle⟩ | hle
  · exact h.ahead v (List.mem_of_getElem? hn) before hbefore i (hle.trans hi) p hp hreceived
  · rw [List.getElem?_eq_none (hle.trans hi)] at hp
    cases hp

theorem Inv.dropViewer {s : Sys} (h : Inv codec s) (n : Nat) (rooms : Rooms) :
    Inv codec { s with rooms := rooms, viewers := s.viewers.eraseIdx n } :=
  ⟨h.posts, h.sent, h.deliveries, Processes.forall_eraseIdx h.ahead⟩

theorem Inv.deliver {s : Sys} (h : Inv codec s) {d : Delivery} (hd : d.Within) :
    Inv codec { s with deliveries := d :: s.deliveries } :=
  ⟨h.posts, h.sent, List.forall_mem_cons.mpr ⟨hd, h.deliveries⟩, h.ahead⟩

theorem inv_forward {s s' : Sys} (h : Inv codec s) {n : Nat} {socket : Socket} (hstep : s.forward n socket = some s') :
    Inv codec s' := by
  have hmoved : ∀ position, Inv codec { s with sockets := s.sockets.set n { socket with position := position } } :=
    fun _ => ⟨h.posts, h.sent, h.deliveries, h.ahead⟩
  unfold Sys.forward at hstep
  obtain ⟨hrecv, -⟩ | ⟨lost, hrecv, -⟩ | ⟨p, hrecv, hp⟩ := Channel.recv_cases s.channel socket.position
  · rw [hrecv] at hstep
    cases hstep
  · rw [hrecv] at hstep
    cases hstep
    exact hmoved _
  · rw [hrecv] at hstep
    simp only at hstep
    split at hstep
    · next hdelivers =>
      cases hstep
      exact (hmoved (socket.position + 1)).deliver (within_forward (h.sent p (List.mem_of_getElem? hp)) hdelivers)
    · cases hstep
      exact hmoved _

theorem inv_viewerReceives {s s' : Sys} (h : Inv codec s) {n : Nat} {v : Viewer} (hn : s.viewers[n]? = some v)
    {position : Nat} (hphase : v.phase = .joined position) (hstep : s.viewerReceives codec n v position = some s') :
    Inv codec s' := by
  have hposition : v.position = some position := by rw [Viewer.position, hphase]
  have hmoved : ∀ next, position ≤ next →
      Inv codec { s with viewers := s.viewers.set n { v with phase := .joined next } } := by
    intro next hnext
    refine h.moveViewer hn fun q hq => .inl ⟨position, hposition, ?_⟩
    rwa [← Option.some.inj hq]
  unfold Sys.viewerReceives at hstep
  obtain ⟨hrecv, -⟩ | ⟨lost, hrecv, hbehind⟩ | ⟨p, hrecv, hp⟩ := Channel.recv_cases s.channel position
  · rw [hrecv] at hstep
    cases hstep
  · rw [hrecv] at hstep
    cases hstep
    exact hmoved _ hbehind.le
  · rw [hrecv] at hstep
    simp only at hstep
    split at hstep
    · next payload hreceived =>
      cases hstep
      have hsome : (received codec v.clientId v.roomId p.msg).isSome := by rw [hreceived]; rfl
      have huser := h.ahead v (List.mem_of_getElem? hn) position hposition position le_rfl p hp hsome
      exact (hmoved _ (Nat.le_succ position)).deliver (within_received huser hsome)
    · cases hstep
      exact hmoved _ (Nat.le_succ position)

theorem inv_step (s : Sys) (a : Action Peer) (s' : Sys) (h : Inv codec s) (hgood : good codec s a = true)
    (hstep : step codec s a = some s') : Inv codec s' := by
  cases a with
  | create now roomId createdAt who => cases hstep; exact h.quiet _
  | findActive now => cases hstep; exact h.quiet _
  | addParticipant roomId who => cases hstep; exact h.quiet _
  | join now roomId who => cases hstep; exact h.quiet _
  | delete roomId deviceId => cases hstep; exact h.quiet _
  | keepalive now roomId userId => cases hstep; exact h.quiet _
  | dropRegistrations ended => cases hstep; exact h.quiet _
  | broadcast now roomId userId deviceId body => cases hstep; exact h.post _ _ _ _ _ _
  | direct now roomId userId deviceId body => cases hstep; exact h.post _ _ _ _ _ _
  | send n =>
    obtain ⟨p, hn, rfl⟩ := Option.map_eq_some_iff.mp hstep
    refine h.send (h.posts p (List.mem_of_getElem? hn)) (fun v hv hposition hreceived => ?_)
      fun q hq => List.mem_of_mem_eraseIdx hq
    simp only [good, hn, Option.all_some, Bool.or_eq_true, beq_iff_eq, Bool.not_eq_true', List.any_eq_false,
      Bool.and_eq_true] at hgood
    exact hgood.resolve_right fun hnone => hnone v hv ⟨hposition, hreceived⟩
  | notify userId msg =>
    simp only [step] at hstep
    split at hstep
    · cases hstep
    · next hother =>
      cases hstep
      have hne : msg.attributes.event ≠ messageEvent := fun heq => hother (beq_iff_eq.mpr heq)
      refine h.send (signed_of_other hne) (fun v _ _ hreceived => absurd ?_ hne) fun q hq => hq
      have haddressed := addressed_of_received hreceived
      simp only [addressedTo, Bool.and_eq_true, beq_iff_eq] at haddressed
      exact haddressed.1.1.1
  | connect userId deviceId => cases hstep; exact ⟨h.posts, h.sent, h.deliveries, h.ahead⟩
  | forward n =>
    obtain ⟨socket, -, hstep⟩ := Option.bind_eq_some_iff.mp hstep
    exact inv_forward h hstep
  | viewerFinds now clientId roomId =>
    simp only [step] at hstep
    split at hstep
    · cases hstep
      refine ⟨h.posts, h.sent, h.deliveries, List.forall_mem_cons.mpr ⟨fun position hposition => ?_, h.ahead⟩⟩
      cases hposition
    · cases hstep
  | viewerSubscribes n =>
    obtain ⟨v, hn, hstep⟩ := Option.bind_eq_some_iff.mp hstep
    split at hstep
    · cases hstep
      exact h.moveViewer hn fun position hposition => .inr (Option.some.inj hposition).le
    · cases hstep
  | viewerJoins now n =>
    obtain ⟨v, hn, hstep⟩ := Option.bind_eq_some_iff.mp hstep
    split at hstep
    · next position hphase =>
      split at hstep
      · cases hstep
        have hposition : v.position = some position := by rw [Viewer.position, hphase]
        refine Inv.quiet (h.moveViewer hn fun q hq => .inl ⟨position, hposition, ?_⟩) _
        obtain rfl : position = q := Option.some.inj hq
        exact le_rfl
      · cases hstep
        exact h.dropViewer n _
    · cases hstep
  | viewerPosts n target payload =>
    obtain ⟨v, hn, hstep⟩ := Option.bind_eq_some_iff.mp hstep
    split at hstep
    · cases hstep
      exact h.send (signed_screenshareMessage _ _ _ _ _) (fun _ _ _ _ => rfl) fun q hq => hq
    · cases hstep
  | viewerReceives n =>
    obtain ⟨v, hn, hstep⟩ := Option.bind_eq_some_iff.mp hstep
    split at hstep
    · next position hphase => exact inv_viewerReceives h hn hphase hstep
    · cases hstep
  | viewerLeaves n =>
    obtain ⟨v, hn, hstep⟩ := Option.bind_eq_some_iff.mp hstep
    split at hstep
    · cases hstep
      exact h.dropViewer n _
    · cases hstep

/-- In every run whose steps are all good, every screen share message that a socket forwards or a viewer returns was
posted from the account it goes to, and one that names a client goes to that client. -/
theorem signalling_within_account (codec : Codec Peer) (viewerUserId : Text) (capacity : Nat) (positive : 0 < capacity)
    (as : List (Action Peer)) (s : Sys)
    (hgood : AllGood (step codec) (fun s a => good codec s a = true) (.start viewerUserId capacity positive) as)
    (hrun : run (step codec) (.start viewerUserId capacity positive) as = some s) :
    ∀ d ∈ s.deliveries, d.posted.msg.attributes.event = messageEvent → d.posted.userId = d.userId ∧
      ∀ target, d.posted.msg.attributes.targetClientId = some target → target = d.clientId := by
  have hstart : Inv codec (.start viewerUserId capacity positive) := by
    constructor <;> intro x hx <;> cases hx
  exact (invariant_of_allGood inv_step hstart hgood hrun).deliveries

/-! ## Concrete runs -/

def requestOffer : Json := .obj [("type".toList, .str "request-offer".toList)]

/-- An object with one text. -/
def objectToVec : Json → Bytes
  | .obj [(key, .str text)] =>
    Utf8Codec.encode (Char.ofNat 0x7B :: Json.quote key ++ ':' :: Json.quote text ++ [Char.ofNat 0x7D])
  | _ => []

/-- The only message of peers is the request for an offer. -/
def offerCodec : Codec Unit where
  toVec := objectToVec
  encode := fun bytes => (Base64.encode bytes).map fun b => Char.ofNat b.toNat
  decode := fun t => Base64.decode (Utf8Codec.encode t)
  fromSlice := fun bytes => if bytes = objectToVec requestOffer then some () else none
  peerToVec := fun _ => objectToVec requestOffer

def tablet : Devices.Claims := ⟨"tablet".toList, "rm2".toList, "u".toList, 0⟩

/-- A tablet shares, and the viewer joins its room. -/
def viewed : List (Action Unit) :=
  [.create 0 "r".toList 0 tablet, .viewerFinds 1 "viewer".toList "r".toList, .viewerSubscribes 0, .viewerJoins 2 0]

/-- A device of another account posts to the room. -/
def intruded : List (Action Unit) :=
  viewed ++ [.broadcast 3 "r".toList "v".toList "phone".toList (.obj [("payload".toList, requestOffer)]), .send 0,
    .viewerReceives 0]

theorem viewer_returns_message_of_another_account :
    ∃ s, run (step offerCodec) (.start "u".toList 16 (by decide)) intruded = some s ∧
      ∃ d ∈ s.deliveries, d.posted.msg.attributes.event = messageEvent ∧ d.userId = "u".toList ∧
        d.posted.userId = "v".toList := by
  have hrun : (run (step offerCodec) (.start "u".toList 16 (by decide)) intruded).map (fun s =>
      s.deliveries.map fun d => (d.posted.msg.attributes.event, d.userId, d.posted.userId)) =
        some [(messageEvent, "u".toList, "v".toList)] := by decide +kernel
  obtain ⟨s, hs, hfacts⟩ := Option.map_eq_some_iff.mp hrun
  obtain ⟨d, hd, hdf⟩ := List.mem_map.mp (hfacts ▸ List.mem_singleton_self _)
  obtain ⟨hevent, huser, hposter⟩ : _ ∧ _ ∧ _ := by simpa only [Prod.mk.injEq] using hdf
  exact ⟨s, hs, d, hd, hevent, huser, hposter⟩

/-- The tablet posts to all and to the viewer, and another account to a client of its own. -/
def undisturbed : List (Action Unit) :=
  viewed ++ [.connect "u".toList "phone".toList,
    .broadcast 3 "r".toList "u".toList "tablet".toList (.obj [("payload".toList, requestOffer)]), .send 0,
    .direct 4 "r".toList "v".toList "other".toList
      (.obj [("targetClientId".toList, .str "phone".toList), ("payload".toList, requestOffer)]), .send 0,
    .viewerReceives 0, .viewerReceives 0, .forward 0, .forward 0]

theorem undisturbed_within_account : ∃ s, run (step offerCodec) (.start "u".toList 16 (by decide)) undisturbed = some s ∧
    s.deliveries.length = 2 ∧
    ∀ d ∈ s.deliveries, d.posted.msg.attributes.event = messageEvent → d.posted.userId = d.userId ∧
      ∀ target, d.posted.msg.attributes.targetClientId = some target → target = d.clientId := by
  have hrun : (run (step offerCodec) (.start "u".toList 16 (by decide)) undisturbed).map (·.deliveries.length) = some 2 := by
    decide +kernel
  obtain ⟨s, hs, hlen⟩ := Option.map_eq_some_iff.mp hrun
  exact ⟨s, hs, hlen, signalling_within_account offerCodec "u".toList 16 (by decide) undisturbed s (by decide +kernel) hs⟩

end ScreenshareSignalling
