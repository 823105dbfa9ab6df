import RemarkableServer.Lib.Purge
import RemarkableServer.ScreenshareBroker

/-!
# Users of one broker

Topics say whose they are, and a client reads and writes those of its own user. Client
ids, rooms and the senders of signals do not: all users share the tables of clients and
rooms. What concerns a user is a part of the broker, and it is the same without the
steps of another user's clients as long as those keep away from it.
-/
namespace ScreenshareBrokerIsolation

open RustText Tables ScreenshareBroker Transition

/-! ## What concerns a user -/

def clientsOf (u : Text) (clients : Clients) : Clients := clients.retain fun _ c => c.userId == u

def roomsOf (u : Text) (rooms : Rooms) : Rooms := rooms.retain fun _ r => r.userId == u

def deliveriesTo (u : Text) (s : Sys) : List Delivery := s.deliveries.filter (·.userId == u)

/-- The broker with nothing of other users. -/
def view (u : Text) (s : Sys) : Sys where
  clients := clientsOf u s.clients
  rooms := roomsOf u s.rooms
  issued := s.issued.retain fun _ owner => owner == u
  conns := s.conns.retain fun _ c => c.userId == u
  sweeping := s.sweeping.map (·.filter (·.2 == u))
  deliveries := deliveriesTo u s

/-- The user whose client takes the step, if it is not the broker's own. -/
def userOf : Action → Option Text
  | .client userId _ _ => some userId
  | _ => none

/-! ## The good steps -/

/-- No room of the user has a participant by this name. -/
def unnamed (u clientId : Text) (s : Sys) : Bool :=
  s.rooms.entries.all fun e => e.2.userId != u || !e.2.participants.contains clientId

/-- No client of another user is registered under this name. -/
def unregistered (u sender : Text) (s : Sys) : Bool := (s.clients.lookup sender).all (·.userId == u)

/-- The user's signals name none of the others' rooms, and no sender that is a client of another user; and the others
join none of the user's rooms. -/
def apartOp (u : Text) (s : Sys) (userId : Text) : Op → Bool
  | .insert _ sender _ _ => userId != u || unregistered u sender s
  | .createJoin _ sender _ roomId _ => userId != u || (s.rooms.lookup roomId).isNone || unregistered u sender s
  | .join _ sender roomId _ =>
    if userId = u then (s.rooms.lookup roomId).all fun r => r.userId == u && unregistered u sender s
    else (s.rooms.lookup roomId).all (·.userId != u)
  | .peers _ _ roomId _ _ => userId != u || (s.rooms.lookup roomId).all (·.userId == u)
  | _ => true

/-- Others register no client id that one of the user's clients has or that is in one of the user's rooms. -/
def apartId (u : Text) (s : Sys) (userId clientId : Text) : Bool :=
  userId == u || ((s.clients.lookup clientId).all (·.userId != u) && unnamed u clientId s)

/-- The other users keep away from what concerns this user, and this user from what concerns the others. -/
def apart (u : Text) (s : Sys) : Action → Bool
  | .client userId _ (.connect clientId) => apartId u s userId clientId
  | .client userId _ (.attach clientId _) => apartId u s userId clientId
  | .client userId session (.run _ _ _) => (nextOp s session).all (apartOp u s userId)
  | .client _ _ (.receive _) => true
  | .collect => true
  | .sweep _ => s.sweeping.all fun connected => connected.all fun e => e.2 == u || unnamed u e.1 s

/-! ## Topics -/

section

variable {u w topic : Text}

/-- What stands before the first separator of a text. -/
theorem eq_of_append_sep {a b s t : Text} (ha : '/' ∉ a) (hb : '/' ∉ b) (h : a ++ '/' :: s = b ++ '/' :: t) : a = b := by
  have hsplit := congrArg (fun x => (x.splitOn '/').head?) h
  simpa [splitOn_append_sep _ _ _ ha, splitOn_append_sep _ _ _ hb] using hsplit

theorem userTopics_eq {rest rest' : Text} (hu : '/' ∉ u) (hw : '/' ∉ w)
    (h : userTopics w ++ rest = userTopics u ++ rest') : w = u := by
  simp only [userTopics, List.append_assoc, List.singleton_append, List.append_cancel_left_eq] at h
  exact eq_of_append_sep hw hu h

theorem signalingTopics_append (rest : Text) : signalingTopics u ++ rest = signalingPrefix ++ (u ++ '/' :: rest) := by
  rw [signalingTopics, List.append_assoc, List.append_assoc, List.singleton_append]

theorem signalingTopics_eq {rest rest' : Text} (hu : '/' ∉ u) (hw : '/' ∉ w)
    (h : signalingTopics w ++ rest = signalingTopics u ++ rest') : w = u := by
  rw [signalingTopics_append, signalingTopics_append] at h
  exact eq_of_append_sep hw hu (List.append_cancel_left h)

theorem head_userTopics (rest : Text) : (userTopics w ++ rest).head? = some 'u' := by
  have hhead : "user/".toList.head? = some 'u' := by decide
  rw [userTopics, List.append_assoc, List.append_assoc, List.head?_append, hhead, Option.some_or]

theorem head_signalingPrefix (rest : Text) : (signalingPrefix ++ rest).head? = some 'r' := by
  have hhead : signalingPrefix.head? = some 'r' := by decide
  rw [List.head?_append, hhead, Option.some_or]

theorem topics_ne {rest rest' : Text} : userTopics w ++ rest ≠ signalingPrefix ++ rest' := by
  intro h
  have hhead := congrArg List.head? h
  rw [head_userTopics, head_signalingPrefix] at hhead
  exact absurd hhead (by decide)

/-- The topic that every user may read is no user's own. -/
theorem topics_ne_signaling (rest : Text) : userTopics w ++ rest ≠ "remarkable/screenshare/signaling".toList ∧
    signalingPrefix ++ rest ≠ "remarkable/screenshare/signaling".toList := by
  constructor
  · intro h
    have hhead := congrArg List.head? h
    rw [head_userTopics] at hhead
    exact absurd hhead (by decide)
  · intro h
    have hshorter : "remarkable/screenshare/signaling".toList.length < signalingPrefix.length := by decide
    have hlen := congrArg List.length h
    rw [List.length_append] at hlen
    omega

/-- What one user may write, another may not read. -/
theorem not_allowed (hu : '/' ∉ u) (hw : '/' ∉ w) (hne : w ≠ u) (h : aclAllows w topic true = true) :
    aclAllows u topic false = false := by
  simp only [aclAllows, Bool.not_true, Bool.false_and, Bool.or_false, Bool.or_eq_true, List.isPrefixOf_iff_prefix] at h
  simp only [aclAllows, Bool.not_false, Bool.true_and, Bool.or_eq_false_iff]
  rcases h with ⟨rest, rfl⟩ | ⟨rest, rfl⟩
  · refine ⟨⟨?_, ?_⟩, ?_⟩
    · rw [← Bool.not_eq_true, List.isPrefixOf_iff_prefix]
      rintro ⟨rest', heq⟩
      exact hne (userTopics_eq hu hw heq.symm)
    · rw [← Bool.not_eq_true, List.isPrefixOf_iff_prefix]
      rintro ⟨rest', heq⟩
      exact topics_ne (heq.symm.trans (signalingTopics_append rest'))
    · exact beq_eq_false_iff_ne.mpr (topics_ne_signaling rest).1
  · refine ⟨⟨?_, ?_⟩, ?_⟩
    · rw [← Bool.not_eq_true, List.isPrefixOf_iff_prefix]
      rintro ⟨rest', heq⟩
      exact topics_ne (heq.trans (signalingTopics_append rest))
    · rw [← Bool.not_eq_true, List.isPrefixOf_iff_prefix]
      rintro ⟨rest', heq⟩
      exact hne (signalingTopics_eq hu hw heq.symm)
    · rw [signalingTopics_append]
      exact beq_eq_false_iff_ne.mpr (@topics_ne_signaling w _).2

theorem allowed_userTopics (userId rest : Text) : aclAllows userId (userTopics userId ++ rest) true = true := by
  have hhead : (userTopics userId).isPrefixOf (userTopics userId ++ rest) = true :=
    List.isPrefixOf_iff_prefix.mpr (List.prefix_append _ _)
  rw [aclAllows, hhead, Bool.true_or, Bool.true_or]

/-- A user without a separator in its id signals on topics of its own. -/
theorem named_eq {c : Conn} (hc : '/' ∉ c.userId) {userId : Text} (h : Named c userId) : userId = c.userId := by
  rcases h with rfl | ⟨p, hallowed, hsignal, rest, hsplit⟩
  · rfl
  · rw [List.isPrefixOf_iff_prefix] at hsignal
    obtain ⟨tail, htail⟩ := hsignal
    simp only [aclAllows, Bool.not_true, Bool.false_and, Bool.or_false, Bool.or_eq_true, List.isPrefixOf_iff_prefix]
      at hallowed
    rcases hallowed with ⟨t, ht⟩ | ⟨t, ht⟩
    · exact absurd (ht.trans htail.symm) topics_ne
    · rw [← ht, signalingTopics_append, List.drop_left, split, splitOn_append_sep _ _ _ hc] at hsplit
      exact (List.cons.inj hsplit).1.symm

end

/-! ## The invariant -/

/-- A section of this user's session is about its own rooms and topics. -/
def OpOk (issued : Table Text Text) (w : Text) : Op → Prop
  | .activeRoom userId _ => userId = w
  | .touch roomId => issued.lookup roomId = some w
  | .createJoin userId _ _ roomId _ => userId = w ∧ issued.lookup roomId = some w
  | .insert userId _ _ _ | .join userId _ _ _ | .peers userId _ _ _ _ => userId = w
  | .roomCreated userId _ _ _ _ | .roomJoined userId _ _ _ | .roomNotFound userId _ _ _ => userId = w
  | .publish p => aclAllows w p.topic true = true
  | .subscribe _ _ | .unsubscribe _ | .leave => True

structure ConnsOk (u v : Text) (issued : Table Text Text) (conns : Table Nat Conn) : Prop where
  users : ∀ n c, conns.lookup n = some c → c.userId = u ∨ c.userId = v
  ops : ∀ n c, conns.lookup n = some c → ∀ op ∈ c.ops, OpOk issued c.userId op

/-- Every client that is registered has its session. -/
def ClientsOk (clients : Clients) (conns : Table Nat Conn) : Prop :=
  ∀ id c, clients.lookup id = some c → ∃ k, conns.lookup c.session = some k ∧ k.userId = c.userId ∧ k.clientId = id

structure RoomsOk (u : Text) (issued : Table Text Text) (clients : Clients) (rooms : Rooms) : Prop where
  issued : ∀ id r, rooms.lookup id = some r → issued.lookup id = some r.userId
  nonempty : ∀ id r, rooms.lookup id = some r → r.participants ≠ []
  apart : ∀ clientId c, clients.lookup clientId = some c → c.userId ≠ u → ∀ id r, rooms.lookup id = some r →
    r.userId = u → clientId ∉ r.participants

structure Inv (u v : Text) (s : Sys) : Prop where
  conns : ConnsOk u v s.issued s.conns
  clients : ClientsOk s.clients s.conns
  rooms : RoomsOk u s.issued s.clients s.rooms

section

variable {u v w : Text} {issued : Table Text Text} {conns : Table Nat Conn} {clients : Clients} {rooms rooms' : Rooms}
  {session : Nat} {c : Conn}

theorem OpOk.issue {op : Op} (h : OpOk issued w op) {fresh : Text} (hfresh : issued.lookup fresh = none) (owner : Text) :
    OpOk (issued.insert fresh owner) w op := by
  have hkept : ∀ {roomId}, issued.lookup roomId = some w → AList.lookup roomId (issued.insert fresh owner) = some w := by
    intro roomId hroom
    rw [lookup_insert, if_neg]
    · exact hroom
    · rintro rfl
      rw [hfresh] at hroom
      cases hroom
  cases op with
  | touch roomId => exact hkept h
  | createJoin userId sender room roomId qos => exact ⟨h.1, hkept h.2⟩
  | _ => exact h

theorem ConnsOk.issue (h : ConnsOk u v issued conns) {fresh : Text} (hfresh : issued.lookup fresh = none) (owner : Text) :
    ConnsOk u v (issued.insert fresh owner) conns :=
  ⟨h.users, fun n c hc op hop => (h.ops n c hc op hop).issue hfresh owner⟩

theorem ConnsOk.insert (h : ConnsOk u v issued conns) (huser : c.userId = u ∨ c.userId = v)
    (hops : ∀ op ∈ c.ops, OpOk issued c.userId op) : ConnsOk u v issued (conns.insert session c) := by
  constructor
  · intro n k hk
    rw [lookup_insert] at hk
    split at hk
    · obtain rfl := Option.some.inj hk
      exact huser
    · exact h.users n k hk
  · intro n k hk
    rw [lookup_insert] at hk
    split at hk
    · obtain rfl := Option.some.inj hk
      exact hops
    · exact h.ops n k hk

theorem ConnsOk.erase (h : ConnsOk u v issued conns) (session : Nat) : ConnsOk u v issued (conns.erase session) := by
  constructor
  · intro n k hk
    rw [lookup_erase] at hk
    split at hk
    · cases hk
    · exact h.users n k hk
  · intro n k hk
    rw [lookup_erase] at hk
    split at hk
    · cases hk
    · exact h.ops n k hk

/-- A session goes on with other sections. -/
theorem ClientsOk.goOn (h : ClientsOk clients conns) (hc : conns.lookup session = some c) (ops : List Op) :
    ClientsOk clients (conns.insert session { c with ops := ops }) := by
  intro id k hk
  obtain ⟨k', hk', huser, hid⟩ := h id k hk
  by_cases hsession : k.session = session
  · rw [hsession, hc] at hk'
    obtain rfl := Option.some.inj hk'
    exact ⟨{ c with ops := ops }, by rw [lookup_insert, if_pos hsession], huser, hid⟩
  · exact ⟨k', by rw [lookup_insert, if_neg hsession]; exact hk', huser, hid⟩

theorem ClientsOk.register (h : ClientsOk clients conns) (hfresh : conns.lookup session = none)
    (subscriptions : List (Text × QoS)) :
    ClientsOk (clients.insert c.clientId ⟨session, c.userId, subscriptions⟩) (conns.insert session c) := by
  intro id k hk
  rw [lookup_insert] at hk
  split at hk
  · next hid =>
    obtain rfl := Option.some.inj hk
    exact ⟨c, by rw [lookup_insert, if_pos rfl], rfl, hid.symm⟩
  · obtain ⟨k', hk', huser, hid⟩ := h id k hk
    have hne : k.session ≠ session := by
      rintro heq
      rw [heq, hfresh] at hk'
      cases hk'
    exact ⟨k', by rw [lookup_insert, if_neg hne]; exact hk', huser, hid⟩

/-- A change of subscriptions keeps whose the clients are. -/
theorem lookup_subscribe {clientId id : Text} {change : List (Text × QoS) → List (Text × QoS)} {k : Client}
    (h : (clients.subscribe clientId session change).lookup id = some k) :
    ∃ k', clients.lookup id = some k' ∧ k.userId = k'.userId ∧ k.session = k'.session := by
  unfold Clients.subscribe at h
  split at h
  · rw [lookup_modify] at h
    split at h
    · next hid =>
      subst hid
      obtain ⟨k', hk', rfl⟩ := Option.map_eq_some_iff.mp h
      exact ⟨k', hk', rfl, rfl⟩
    · exact ⟨k, h, rfl, rfl⟩
  · exact ⟨k, h, rfl, rfl⟩

theorem ClientsOk.subscribe (h : ClientsOk clients conns) (clientId : Text) (session : Nat)
    (change : List (Text × QoS) → List (Text × QoS)) : ClientsOk (clients.subscribe clientId session change) conns := by
  intro id k hk
  obtain ⟨k', hk', huser, hsession⟩ := lookup_subscribe hk
  rw [huser, hsession]
  exact h id k' hk'

/-- A session that ends takes its client with it. -/
theorem ClientsOk.leave (h : ClientsOk clients conns) (hc : conns.lookup session = some c) {clients' : Clients}
    (hsub : ∀ id k, clients'.lookup id = some k → clients.lookup id = some k)
    (hgone : ∀ k, clients'.lookup c.clientId = some k → k.session ≠ session) :
    ClientsOk clients' (conns.erase session) := by
  intro id k hk
  obtain ⟨k', hk', huser, hid⟩ := h id k (hsub id k hk)
  have hne : k.session ≠ session := by
    intro heq
    rw [heq, hc] at hk'
    obtain rfl := Option.some.inj hk'
    subst hid
    exact hgone k hk heq
  exact ⟨k', by rw [lookup_erase, if_neg hne]; exact hk', huser, hid⟩

/-- Whoever is added to a room of the user is no client of another one. -/
theorem RoomsOk.change (h : RoomsOk u issued clients rooms) {added : Text → Text → Prop}
    (hrooms : ComesFrom added rooms rooms')
    (hadded : ∀ id r p, rooms.lookup id = some r → r.userId = u → added id p →
      ∀ c, clients.lookup p = some c → c.userId = u) : RoomsOk u issued clients rooms' := by
  constructor
  · intro id r' hr'
    obtain ⟨r, hr, huser, -⟩ := hrooms id r' hr'
    rw [huser]
    exact h.issued id r hr
  · intro id r' hr'
    obtain ⟨r, hr, -, hne, -⟩ := hrooms id r' hr'
    exact hne (h.nonempty id r hr)
  · intro clientId c hc hother id r' hr' huser hin
    obtain ⟨r, hr, hsame, -, hcases⟩ := hrooms id r' hr'
    rw [hsame] at huser
    rcases hcases clientId hin with hold | hnew
    · exact h.apart clientId c hc hother id r hr huser hold
    · exact hother (hadded id r clientId hr huser hnew c hc)

theorem RoomsOk.insert (h : RoomsOk u issued clients rooms) {fresh owner sender : Text}
    (hsender : owner = u → ∀ c, clients.lookup sender = some c → c.userId = u) (now : Nat) :
    RoomsOk u (issued.insert fresh owner) clients (rooms.insert fresh ⟨owner, [sender], now, now⟩) := by
  constructor
  · intro id r hr
    rw [lookup_insert] at hr ⊢
    split at hr
    · next hid =>
      obtain rfl := Option.some.inj hr
      rw [if_pos hid]
    · next hid =>
      rw [if_neg hid]
      exact h.issued id r hr
  · intro id r hr
    rw [lookup_insert] at hr
    split at hr
    · obtain rfl := Option.some.inj hr
      exact List.cons_ne_nil _ _
    · exact h.nonempty id r hr
  · intro clientId c hc hother id r hr huser hin
    rw [lookup_insert] at hr
    split at hr
    · obtain rfl := Option.some.inj hr
      obtain rfl := List.mem_singleton.mp hin
      exact hother (hsender huser c hc)
    · exact h.apart clientId c hc hother id r hr huser hin

/-- The clients of other users are clients of before. -/
theorem RoomsOk.ofClients {clients clients' : Clients} (h : RoomsOk u issued clients rooms)
    (hclients : ∀ id k, clients'.lookup id = some k → k.userId ≠ u → (∃ k', clients.lookup id = some k' ∧ k'.userId ≠ u) ∨
      ∀ rid r, rooms.lookup rid = some r → r.userId = u → id ∉ r.participants) : RoomsOk u issued clients' rooms := by
  refine ⟨h.issued, h.nonempty, fun clientId c hc hother => ?_⟩
  rcases hclients clientId c hc hother with ⟨c', hc', hother'⟩ | hfree
  · exact h.apart clientId c' hc' hother'
  · exact hfree

theorem isActive_some {userId roomId : Text} (h : rooms.isActive userId (some roomId) = true) :
    ∃ r, rooms.lookup roomId = some r ∧ r.userId = userId := by
  obtain ⟨⟨id, r⟩, hmem, hpick⟩ := List.any_eq_true.mp h
  obtain ⟨hmem, huser⟩ := List.mem_filter.mp hmem
  rw [Bool.and_eq_true, beq_iff_eq] at hpick
  obtain rfl : id = roomId := hpick.1
  exact ⟨r, mem_entries_iff.mp hmem, beq_iff_eq.mp huser⟩

theorem allowed_clientTopic (userId clientId roomId : Text) : aclAllows userId (clientTopic userId clientId roomId) true = true := by
  rw [clientTopic, List.append_assoc, List.append_assoc, List.append_assoc]
  exact allowed_userTopics userId _

theorem opOk_spared {next : Lookup} (hnext : next.spared = true) (userId : Text) (found : Option Text) :
    ∀ op ∈ next.found userId found, OpOk issued userId op := by
  intro op hop
  cases next with
  | touch => cases hnext
  | create sender room qos => cases hnext
  | join sender qos =>
    obtain rfl := List.mem_singleton.mp hop
    rw [joinRoom]
    split
    · rfl
    · rfl
  | broadcast sender body qos =>
    obtain rfl := List.mem_singleton.mp hop
    rfl
  | direct target body qos =>
    obtain rfl := List.mem_singleton.mp hop
    exact allowed_clientTopic _ _ _

/-- A room that was found is the user's. -/
theorem opOk_found (next : Lookup) {userId : Text} {found : Option Text}
    (hfound : ∀ id ∈ found, issued.lookup id = some userId) : ∀ op ∈ next.found userId found, OpOk issued userId op := by
  intro op hop
  cases next with
  | touch =>
    cases found with
    | none => cases hop
    | some roomId =>
      obtain rfl := List.mem_singleton.mp hop
      exact hfound roomId rfl
  | create sender room qos =>
    cases found with
    | none =>
      obtain rfl := List.mem_singleton.mp hop
      rfl
    | some roomId =>
      obtain rfl := List.mem_singleton.mp hop
      exact ⟨rfl, hfound roomId rfl⟩
  | join sender qos => exact opOk_spared rfl userId found op hop
  | broadcast sender body qos => exact opOk_spared rfl userId found op hop
  | direct target body qos => exact opOk_spared rfl userId found op hop

theorem opOk_handle {env : Env} {packet : Packet} {ops : List Op} (hc : '/' ∉ c.userId)
    (h : c.handle env packet = some ops) : ∀ op ∈ ops, OpOk issued c.userId op :=
  forall_handle h (fun _ _ hnamed => named_eq hc hnamed)
    (fun _ _ found hnamed hspared => named_eq hc hnamed ▸ opOk_spared hspared _ found) (fun _ hallowed => hallowed)
    (fun _ _ => trivial) (fun _ => trivial) trivial

end

/-! ## The steps keep the invariant -/

section

variable {env : Env} {u v : Text} {s s' : Sys} {session : Nat} {c : Conn} {op : Op} {rest : List Op}
  {now : Nat} {found : Option Text} {fresh : Text}

theorem ConnsOk.goOn (h : ConnsOk u v s.issued s.conns) (hc : s.conns.lookup session = some c) (hops : c.ops = op :: rest)
    (new : List Op) (hnew : ∀ o ∈ new, OpOk s.issued c.userId o) : ConnsOk u v s.issued (s.goOn session c (new ++ rest)).conns := by
  refine h.insert (h.users session c hc) fun o ho => ?_
  rcases List.mem_append.mp ho with ho | ho
  · exact hnew o ho
  · exact h.ops session c hc o (hops ▸ List.mem_cons_of_mem _ ho)

theorem unregistered_iff {sender : Text} :
    unregistered u sender s = true ↔ ∀ c, s.clients.lookup sender = some c → c.userId = u := by
  rw [unregistered]
  cases s.clients.lookup sender with
  | none => simp
  | some c => simp

theorem unnamed_iff {clientId : Text} : unnamed u clientId s = true ↔
    ∀ id r, s.rooms.lookup id = some r → r.userId = u → clientId ∉ r.participants := by
  rw [unnamed, List.all_eq_true]
  constructor
  · intro h id r hr huser hin
    have hroom := h ⟨id, r⟩ (mem_entries_iff.mpr hr)
    simp [huser, hin] at hroom
  · rintro h ⟨id, r⟩ hmem
    have hroom := h id r (mem_entries_iff.mp hmem)
    simpa [imp_iff_not_or] using hroom

theorem lookup_removeClient {clientId id : Text} {k : Client} (h : (s.removeClient clientId session).clients.lookup id = some k) :
    s.clients.lookup id = some k := by
  unfold Sys.removeClient at h
  split at h
  · dsimp only at h
    rw [lookup_erase] at h
    split at h
    · cases h
    · exact h
  · exact h

theorem removeClient_gone {clientId : Text} {k : Client}
    (h : (s.removeClient clientId session).clients.lookup clientId = some k) : k.session ≠ session := by
  unfold Sys.removeClient at h
  split at h
  · dsimp only at h
    rw [lookup_erase, if_pos rfl] at h
    cases h
  · next hother =>
    rw [h, Option.any_some] at hother
    exact fun heq => hother (decide_eq_true heq)

theorem inv_leave (h : Inv u v s) (hc : s.conns.lookup session = some c) :
    Inv u v { s.removeClient c.clientId session with conns := s.conns.erase session } := by
  have hissued : (s.removeClient c.clientId session).issued = s.issued := by
    unfold Sys.removeClient
    split <;> rfl
  constructor
  · exact hissued ▸ h.conns.erase session
  · exact h.clients.leave hc (fun _ _ hk => lookup_removeClient hk) fun _ hk => removeClient_gone hk
  · dsimp only
    rw [hissued]
    refine RoomsOk.ofClients (?_ : RoomsOk u s.issued s.clients _) fun id k hk hother => .inl ⟨k, lookup_removeClient hk, hother⟩
    unfold Sys.removeClient
    split
    · exact h.rooms.change (comesFrom_leave _ c.clientId) fun _ _ _ _ _ hnone => hnone.elim
    · exact h.rooms

theorem inv_subscribe (h : Inv u v s) (hc : s.conns.lookup session = some c) (hops : c.ops = op :: rest)
    (change : List (Text × QoS) → List (Text × QoS)) :
    Inv u v { s.goOn session c rest with clients := s.clients.subscribe c.clientId session change } := by
  refine ⟨h.conns.goOn hc hops [] (fun o ho => by cases ho), (h.clients.goOn hc rest).subscribe _ _ _, ?_⟩
  refine h.rooms.ofClients fun id k hk hother => .inl ?_
  obtain ⟨k', hk', huser, -⟩ := lookup_subscribe hk
  exact ⟨k', hk', huser ▸ hother⟩

/-- A section on the rooms. -/
theorem inv_rooms (h : Inv u v s) (hc : s.conns.lookup session = some c) (hops : c.ops = op :: rest) (new : List Op)
    (hnew : ∀ o ∈ new, OpOk s.issued c.userId o) {rooms : Rooms} (hrooms : RoomsOk u s.issued s.clients rooms) :
    Inv u v { s.goOn session c (new ++ rest) with rooms := rooms } :=
  ⟨h.conns.goOn hc hops new hnew, h.clients.goOn hc _, hrooms⟩

/-- A section that only delivers. -/
theorem inv_publish (h : Inv u v s) (hc : s.conns.lookup session = some c) (hops : c.ops = op :: rest)
    (deliveries : List Delivery) : Inv u v { s.goOn session c rest with deliveries := deliveries } :=
  ⟨h.conns.goOn hc hops [] (fun o ho => by cases ho), h.clients.goOn hc rest, h.rooms⟩

theorem inv_runOp (h : Inv u v s) (hc : s.conns.lookup session = some c) (hops : c.ops = op :: rest)
    (hgood : apartOp u s c.userId op = true) (hrun : s.runOp env session c rest now found fresh op = some s') : Inv u v s' := by
  have hop : OpOk s.issued c.userId op := h.conns.ops session c hc op (hops ▸ List.mem_cons_self)
  cases op with
  | activeRoom userId next =>
    rw [Sys.runOp, Option.ite_none_right_eq_some, Option.some.injEq] at hrun
    obtain ⟨hactive, rfl⟩ := hrun
    obtain rfl : userId = c.userId := hop
    refine inv_rooms h hc hops _ (opOk_found next fun id hid => ?_) h.rooms
    obtain rfl : found = some id := hid
    obtain ⟨r, hr, huser⟩ := isActive_some hactive
    exact huser ▸ h.rooms.issued id r hr
  | touch roomId =>
    obtain rfl := Option.some.inj hrun
    exact inv_rooms h hc hops [] (fun o ho => by cases ho)
      (h.rooms.change (comesFrom_touch _ roomId now) fun _ _ _ _ _ hnone => hnone.2.elim)
  | createJoin userId sender room roomId qos =>
    obtain rfl := Option.some.inj hrun
    rw [join_fst]
    refine inv_rooms h hc hops [_] (fun o ho => ?_) (h.rooms.change (comesFrom_join _ roomId sender now) ?_)
    · obtain rfl := List.mem_singleton.mp ho
      exact hop.1
    · rintro id r p hr huser ⟨rfl, rfl⟩
      have howner : c.userId = u := by
        have hissued := h.rooms.issued id r hr
        rw [hop.2, Option.some.injEq] at hissued
        exact hissued.trans huser
      simp only [apartOp, howner, hr, bne_self_eq_false, Option.isNone_some, Bool.false_or] at hgood
      exact unregistered_iff.mp hgood
  | insert userId sender room qos =>
    rw [Sys.runOp, Option.ite_none_right_eq_some, Option.isNone_iff_eq_none, Option.some.injEq] at hrun
    obtain ⟨hfresh, rfl⟩ := hrun
    obtain rfl : userId = c.userId := hop
    refine ⟨(h.conns.goOn hc hops [_] fun o ho => ?_).issue hfresh _, h.clients.goOn hc _,
      h.rooms.insert (fun howner => ?_) now⟩
    · obtain rfl := List.mem_singleton.mp ho
      rfl
    · simp only [apartOp, howner, bne_self_eq_false, Bool.false_or] at hgood
      exact unregistered_iff.mp hgood
  | join userId sender roomId qos =>
    simp only [Sys.runOp] at hrun
    split at hrun
    · next rooms hjoin =>
      obtain rfl := Option.some.inj hrun
      obtain ⟨⟨r, hr⟩, rfl⟩ := join_eq_true hjoin
      refine inv_rooms h hc hops [_] (fun o ho => ?_) (h.rooms.change (comesFrom_join _ roomId sender now) ?_)
      · obtain rfl := List.mem_singleton.mp ho
        exact hop
      · rintro id r' p hr' huser ⟨rfl, rfl⟩
        simp only [apartOp, hr', Option.all_some] at hgood
        split at hgood
        · exact unregistered_iff.mp (Bool.and_eq_true_iff.mp hgood).2
        · simp [huser] at hgood
    · next rooms hjoin =>
      obtain rfl := Option.some.inj hrun
      obtain ⟨-, rfl⟩ := join_eq_false hjoin
      refine inv_rooms h hc hops [_] (fun o ho => ?_) h.rooms
      obtain rfl := List.mem_singleton.mp ho
      exact hop
  | peers userId sender roomId body qos =>
    obtain rfl := Option.some.inj hrun
    obtain rfl : userId = c.userId := hop
    refine inv_rooms h hc hops _ (fun o ho => ?_) h.rooms
    obtain ⟨peer, -, rfl⟩ := List.mem_map.mp ho
    exact allowed_clientTopic _ _ _
  | roomCreated userId sender room roomId qos =>
    obtain rfl := Option.some.inj hrun
    exact inv_publish h hc hops _
  | roomJoined userId sender roomId qos =>
    obtain rfl := Option.some.inj hrun
    exact inv_publish h hc hops _
  | roomNotFound userId sender roomId qos =>
    obtain rfl := Option.some.inj hrun
    exact inv_publish h hc hops _
  | publish p =>
    obtain rfl := Option.some.inj hrun
    exact inv_publish h hc hops _
  | subscribe filter qos =>
    obtain rfl := Option.some.inj hrun
    exact inv_subscribe h hc hops _
  | unsubscribe topics =>
    obtain rfl := Option.some.inj hrun
    exact inv_subscribe h hc hops _
  | leave =>
    obtain rfl := Option.some.inj hrun
    exact inv_leave h hc

theorem inv_register (h : Inv u v s) (huser : c.userId = u ∨ c.userId = v) (hops : c.ops = [])
    (hgood : apartId u s c.userId c.clientId = true) {subscriptions : List (Text × QoS)}
    (hregister : s.register session c subscriptions = some s') : Inv u v s' := by
  obtain ⟨hfresh, rfl⟩ := register_eq_some hregister
  refine ⟨h.conns.insert huser fun o ho => ?_, h.clients.register hfresh subscriptions, h.rooms.ofClients fun id k hk hother => ?_⟩
  · rw [hops] at ho
    cases ho
  · rw [lookup_insert] at hk
    split at hk
    · next hid =>
      subst hid
      obtain rfl := Option.some.inj hk
      rw [apartId, beq_eq_false_iff_ne.mpr hother, Bool.false_or, Bool.and_eq_true] at hgood
      exact .inr (unnamed_iff.mp hgood.2)
    · exact .inl ⟨k, hk, hother⟩

theorem inv_step {a : Action} (hu : '/' ∉ u) (hv : '/' ∉ v) (h : Inv u v s) (huser : ∀ w ∈ userOf a, w = u ∨ w = v)
    (hgood : apart u s a = true) (hstep : step env s a = some s') : Inv u v s' := by
  cases a with
  | client userId session does =>
    have hparty := huser userId rfl
    clear huser
    cases does with
    | connect clientId => exact inv_register (c := ⟨userId, clientId, false, []⟩) h hparty rfl hgood hstep
    | attach clientId filters => exact inv_register (c := ⟨userId, clientId, true, []⟩) h hparty rfl hgood hstep
    | receive packet =>
      obtain ⟨c, ops, hc, rfl, -, hhandle, rfl⟩ := receive_eq_some hstep
      have hslash : '/' ∉ c.userId := by
        rcases hparty with heq | heq
        · exact heq ▸ hu
        · exact heq ▸ hv
      exact ⟨h.conns.insert hparty (opOk_handle hslash hhandle), h.clients.goOn hc ops, h.rooms⟩
    | run now found fresh =>
      obtain ⟨c, op, rest, hc, rfl, hops, hrun⟩ := run_eq_some hstep
      rw [apart, nextOp_eq hc hops, Option.all_some] at hgood
      exact inv_runOp h hc hops hgood hrun
  | collect =>
    obtain ⟨-, rfl⟩ := collect_eq_some hstep
    exact ⟨h.conns, h.clients, h.rooms⟩
  | sweep now =>
    obtain ⟨connected, -, rfl⟩ := sweep_eq_some hstep
    exact ⟨h.conns, h.clients, h.rooms.change (comesFrom_sweep _ now _) fun _ _ _ _ _ hnone => hnone.elim⟩

end

/-! ## What a view keeps -/

section

variable {env : Env} {u v : Text} {s : Sys} {session : Nat} {c : Conn} {clients : Clients} {rooms : Rooms}

theorem lookup_view_conn (n : Nat) : (view u s).conns.lookup n = (s.conns.lookup n).filter (·.userId == u) :=
  lookup_retain _ _ _

theorem conn_own (hc : s.conns.lookup session = some c) (hown : c.userId = u) : (view u s).conns.lookup session = some c := by
  rw [lookup_view_conn, hc, Option.filter_some, if_pos (beq_iff_eq.mpr hown)]

theorem conn_other (hc : s.conns.lookup session = some c) (hother : c.userId ≠ u) :
    (view u s).conns.lookup session = none := by
  rw [lookup_view_conn, hc, Option.filter_some, if_neg fun heq => hother (beq_iff_eq.mp heq)]

theorem view_goOn_own (hown : c.userId = u) (ops : List Op) :
    view u (s.goOn session c ops) = (view u s).goOn session c ops := by
  have hconns : Table.retain (fun _ c => c.userId == u) (s.conns.insert session { c with ops := ops }) =
      (view u s).conns.insert session { c with ops := ops } := retain_insert_of_keep _ (beq_iff_eq.mpr hown)
  simp only [view, Sys.goOn, hconns]
  rfl

theorem conns_goOn_other (hc : s.conns.lookup session = some c) (hother : c.userId ≠ u) (ops : List Op) :
    Table.retain (fun _ c => c.userId == u) (s.goOn session c ops).conns = (view u s).conns := by
  have hconns : Table.retain (fun _ c => c.userId == u) (s.conns.insert session { c with ops := ops }) =
      (view u s).conns.erase session := retain_insert_of_not _ (beq_eq_false_iff_ne.mpr hother)
  exact hconns.trans (erase_eq_self (conn_other hc hother))

/-- Of the deliveries of a message, a user's clients get their own. -/
theorem publish_clientsOf (p : Publish) :
    (clients.publish env p).filter (·.userId == u) = (clientsOf u clients).publish env p := by
  rw [Clients.publish, Clients.publish, List.filter_filterMap, clientsOf, entries_retain, List.filterMap_filter]
  refine List.filterMap_congr fun e _ => ?_
  cases hdeliver : deliver env p e.1 e.2 with
  | none => simp
  | some d =>
    have huser : d.userId = e.2.userId := by
      obtain ⟨q, -, hq⟩ := Option.bind_eq_some_iff.mp hdeliver
      rw [Option.ite_none_right_eq_some, Option.some.injEq] at hq
      rw [← hq.2]
    rw [Option.filter_some, huser]

theorem isActive_roomsOf (found : Option Text) : (roomsOf u rooms).isActive u found = rooms.isActive u found := by
  simp only [Rooms.isActive, roomsOf, entries_retain, List.filter_filter, Bool.and_self]

theorem lookup_roomsOf {roomId : Text} (h : (rooms.lookup roomId).all (·.userId == u) = true) :
    (roomsOf u rooms).lookup roomId = rooms.lookup roomId := by
  rw [roomsOf, lookup_retain]
  cases hr : rooms.lookup roomId with
  | none => rfl
  | some r =>
    rw [hr, Option.all_some] at h
    rw [Option.filter_some, if_pos h]

theorem lookup_roomsOf_none {roomId : Text} (h : ∀ r, rooms.lookup roomId = some r → r.userId ≠ u) :
    (roomsOf u rooms).lookup roomId = none := by
  rw [roomsOf, lookup_retain]
  cases hr : rooms.lookup roomId with
  | none => rfl
  | some r => rw [Option.filter_some, if_neg fun heq => h r hr (beq_iff_eq.mp heq)]

/-- A change of a room that keeps its user. -/
theorem roomsOf_modify (roomId : Text) (f : Room → Room) (hf : ∀ r, (f r).userId = r.userId) :
    roomsOf u (rooms.modify roomId f) = (roomsOf u rooms).modify roomId f :=
  retain_modify _ _ fun r => by rw [hf r]

theorem roomsOf_modify_other {roomId : Text} (h : ∀ r, rooms.lookup roomId = some r → r.userId ≠ u)
    (f : Room → Room) (hf : ∀ r, (f r).userId = r.userId) : roomsOf u (rooms.modify roomId f) = roomsOf u rooms := by
  rw [roomsOf_modify roomId f hf, modify_eq_self (lookup_roomsOf_none h)]

theorem roomsOf_leave (clientId : Text) : roomsOf u (rooms.leave clientId) = (roomsOf u rooms).leave clientId := by
  rw [Rooms.leave, Rooms.leave, roomsOf, retain_retain, retain_mapValues]
  · rfl
  · exact fun _ _ => rfl

/-- A client that is in none of the user's rooms leaves them as they are. -/
theorem roomsOf_leave_other {clientId : Text}
    (h : ∀ id r, rooms.lookup id = some r → r.userId = u → r.participants ≠ [] ∧ clientId ∉ r.participants) :
    roomsOf u (rooms.leave clientId) = roomsOf u rooms := by
  have hown : ∀ id r, (roomsOf u rooms).lookup id = some r → r.participants ≠ [] ∧ clientId ∉ r.participants := by
    intro id r hr
    rw [roomsOf, lookup_retain, Option.filter_eq_some_iff, beq_iff_eq] at hr
    exact h id r hr.1 hr.2
  rw [roomsOf_leave, Rooms.leave, mapValues_eq_self]
  · refine retain_eq_self fun id r hr => ?_
    rw [Bool.not_eq_true', List.isEmpty_eq_false_iff]
    exact (hown id r hr).1
  · intro id r hr
    have hsame : r.participants.filter (· != clientId) = r.participants := by
      refine List.filter_eq_self.mpr fun p hp => bne_iff_ne.mpr ?_
      rintro rfl
      exact (hown id r hr).2 hp
    rw [Room.leave, hsame]

/-- A client of another user is erased from nothing that is kept. -/
theorem clientsOf_erase_other {clientId : Text} (h : ∀ k, clients.lookup clientId = some k → k.userId ≠ u) :
    clientsOf u (clients.erase clientId) = clientsOf u clients := by
  rw [clientsOf, retain_erase]
  refine erase_eq_self ?_
  rw [lookup_retain]
  cases hk : clients.lookup clientId with
  | none => rfl
  | some k => rw [Option.filter_some, if_neg fun heq => h k hk (beq_iff_eq.mp heq)]

/-- The client that is registered for a session is of the session's user. -/
theorem userId_of_session (h : Inv u v s) (hc : s.conns.lookup session = some c) {id : Text} {k : Client}
    (hk : s.clients.lookup id = some k) (hsession : k.session = session) : k.userId = c.userId := by
  obtain ⟨k', hk', huser, -⟩ := h.clients id k hk
  rw [hsession, hc] at hk'
  rw [← huser, Option.some.inj hk']

/-- Whether a session is registered under an id, in what is kept of the clients. -/
theorem any_session_own {id : Text} (h : ∀ k, clients.lookup id = some k → k.session = session → k.userId = u) :
    ((clientsOf u clients).lookup id).any (·.session = session) = (clients.lookup id).any (·.session = session) := by
  rw [clientsOf, lookup_retain]
  cases hk : clients.lookup id with
  | none => rfl
  | some k =>
    rw [Option.filter_some, Option.any_some]
    split
    · rw [Option.any_some]
    · next hother =>
      rw [Option.any_none, eq_comm, decide_eq_false_iff_not]
      exact fun hsession => hother (beq_iff_eq.mpr (h k hk hsession))

theorem clientsOf_modify (id : Text) {f : Client → Client} (hf : ∀ k, (f k).userId = k.userId) :
    clientsOf u (clients.modify id f) = (clientsOf u clients).modify id f := retain_modify _ _ fun k => by rw [hf k]

theorem clientsOf_subscribe_own {id : Text} (h : ∀ k, clients.lookup id = some k → k.session = session → k.userId = u)
    (change : List (Text × QoS) → List (Text × QoS)) :
    clientsOf u (clients.subscribe id session change) = (clientsOf u clients).subscribe id session change := by
  rw [Clients.subscribe, Clients.subscribe, any_session_own h]
  split
  · exact clientsOf_modify id fun _ => rfl
  · rfl

theorem clientsOf_subscribe_other {id : Text} (h : ∀ k, clients.lookup id = some k → k.session = session → k.userId ≠ u)
    (change : List (Text × QoS) → List (Text × QoS)) : clientsOf u (clients.subscribe id session change) = clientsOf u clients := by
  rw [Clients.subscribe]
  split
  · next hany =>
    obtain ⟨k, hk, hsession⟩ := Option.any_eq_true .. |>.mp hany
    have hnone : (clientsOf u clients).lookup id = none := by
      rw [clientsOf, lookup_retain, hk, Option.filter_some, if_neg]
      exact fun heq => h k hk (of_decide_eq_true hsession) (beq_iff_eq.mp heq)
    refine (clientsOf_modify id ?_).trans (modify_eq_self hnone _)
    exact fun _ => rfl
  · rfl

/-! ## The user's own steps -/

theorem view_rooms_own (hown : c.userId = u) (ops : List Op) (rooms : Rooms) :
    view u { s.goOn session c ops with rooms := rooms } = { (view u s).goOn session c ops with rooms := roomsOf u rooms } := by
  have hview : view u (s.goOn session c ops) = (view u s).goOn session c ops := view_goOn_own hown ops
  exact congrArg (fun t : Sys => { t with rooms := roomsOf u rooms }) hview

theorem view_clients_own (hown : c.userId = u) (ops : List Op) (clients : Clients) :
    view u { s.goOn session c ops with clients := clients } =
      { (view u s).goOn session c ops with clients := clientsOf u clients } := by
  have hview : view u (s.goOn session c ops) = (view u s).goOn session c ops := view_goOn_own hown ops
  exact congrArg (fun t : Sys => { t with clients := clientsOf u clients }) hview

theorem view_publish (p : Publish) : view u (s.publish env p) = (view u s).publish env p := by
  have hdeliveries : deliveriesTo u (s.publish env p) = deliveriesTo u s ++ (clientsOf u s.clients).publish env p := by
    rw [deliveriesTo, Sys.publish, List.filter_append, publish_clientsOf]
    rfl
  simp only [view, hdeliveries]
  rfl

theorem view_publish_own (hown : c.userId = u) (ops : List Op) (p : Publish) :
    view u ((s.goOn session c ops).publish env p) = ((view u s).goOn session c ops).publish env p := by
  rw [view_publish, view_goOn_own hown]

theorem view_removeClient_own (h : Inv u v s) (hc : s.conns.lookup session = some c) (hown : c.userId = u) :
    view u { s.removeClient c.clientId session with conns := s.conns.erase session } =
      { (view u s).removeClient c.clientId session with conns := (view u s).conns.erase session } := by
  have hany : ((view u s).clients.lookup c.clientId).any (·.session = session) =
      (s.clients.lookup c.clientId).any (·.session = session) :=
    any_session_own fun k hk hsession => (userId_of_session h hc hk hsession).trans hown
  have hconns : Table.retain (fun _ c => c.userId == u) (s.conns.erase session) = (view u s).conns.erase session :=
    retain_erase _ _ _
  unfold Sys.removeClient
  rw [hany]
  split
  · have hclients : clientsOf u (s.clients.erase c.clientId) = (view u s).clients.erase c.clientId := retain_erase _ _ _
    simp only [view, hconns, hclients, roomsOf_leave]
    rfl
  · simp only [view, hconns]
    rfl

theorem own_runOp {op : Op} {rest : List Op} {now : Nat} {found : Option Text} {fresh : Text} {s' : Sys} (h : Inv u v s)
    (hc : s.conns.lookup session = some c) (hops : c.ops = op :: rest) (hown : c.userId = u)
    (hgood : apartOp u s c.userId op = true) (hrun : s.runOp env session c rest now found fresh op = some s') :
    (view u s).runOp env session c rest now found fresh op = some (view u s') := by
  have hop : OpOk s.issued c.userId op := h.conns.ops session c hc op (hops ▸ List.mem_cons_self)
  rw [hown] at hop hgood
  cases op with
  | activeRoom userId next =>
    rw [Sys.runOp, Option.ite_none_right_eq_some, Option.some.injEq] at hrun
    obtain ⟨hactive, rfl⟩ := hrun
    obtain rfl : userId = u := hop
    rw [Sys.runOp, if_pos, view_goOn_own hown]
    exact (isActive_roomsOf found).trans hactive
  | touch roomId =>
    obtain rfl := Option.some.inj hrun
    rw [view_rooms_own hown, roomsOf_modify roomId (Room.touch now) fun _ => rfl]
    rfl
  | createJoin userId sender room roomId qos =>
    obtain rfl := Option.some.inj hrun
    rw [view_rooms_own hown, join_fst, roomsOf_modify roomId (Room.join now sender) fun _ => rfl, ← join_fst]
    rfl
  | insert userId sender room qos =>
    rw [Sys.runOp, Option.ite_none_right_eq_some, Option.isNone_iff_eq_none, Option.some.injEq] at hrun
    obtain ⟨hfresh, rfl⟩ := hrun
    obtain rfl : userId = u := hop
    have hnone : (view userId s).issued.lookup fresh = none := by
      rw [view, lookup_retain, hfresh, Option.filter_none]
    have hrooms : roomsOf userId (s.rooms.insert fresh ⟨userId, [sender], now, now⟩) =
        (view userId s).rooms.insert fresh ⟨userId, [sender], now, now⟩ := retain_insert_of_keep _ (beq_self_eq_true _)
    have hissued : Table.retain (fun _ owner => owner == userId) (s.issued.insert fresh userId) =
        (view userId s).issued.insert fresh userId := retain_insert_of_keep _ (beq_self_eq_true _)
    rw [Sys.runOp, if_pos (by rw [hnone]; rfl)]
    refine congrArg some ?_
    rw [← view_goOn_own hown]
    simp only [view, hrooms, hissued]
    rfl
  | join userId sender roomId qos =>
    rw [apartOp, if_pos rfl] at hgood
    have hsame : (view u s).rooms.lookup roomId = s.rooms.lookup roomId := by
      refine lookup_roomsOf ?_
      cases hr : s.rooms.lookup roomId with
      | none => rfl
      | some r =>
        rw [hr, Option.all_some, Bool.and_eq_true] at hgood
        exact hgood.1
    simp only [Sys.runOp, Rooms.join, hsame] at hrun ⊢
    cases hr : s.rooms.lookup roomId with
    | none =>
      simp only [hr] at hrun ⊢
      obtain rfl := Option.some.inj hrun
      rw [view_rooms_own hown]
      rfl
    | some r =>
      simp only [hr] at hrun ⊢
      obtain rfl := Option.some.inj hrun
      rw [view_rooms_own hown, roomsOf_modify roomId (Room.join now sender) fun _ => rfl]
      rfl
  | peers userId sender roomId body qos =>
    obtain rfl := Option.some.inj hrun
    have hsame : (view u s).rooms.lookup roomId = s.rooms.lookup roomId := by
      refine lookup_roomsOf ?_
      simpa [apartOp] using hgood
    rw [view_goOn_own hown, Sys.runOp, Rooms.peers, hsame]
    rfl
  | roomCreated userId sender room roomId qos =>
    obtain rfl := Option.some.inj hrun
    exact congrArg some (view_publish_own hown rest _).symm
  | roomJoined userId sender roomId qos =>
    obtain rfl := Option.some.inj hrun
    exact congrArg some (view_publish_own hown rest _).symm
  | roomNotFound userId sender roomId qos =>
    obtain rfl := Option.some.inj hrun
    exact congrArg some (view_publish_own hown rest _).symm
  | publish p =>
    obtain rfl := Option.some.inj hrun
    exact congrArg some (view_publish_own hown rest p).symm
  | subscribe filter qos =>
    obtain rfl := Option.some.inj hrun
    rw [view_clients_own hown, clientsOf_subscribe_own fun k hk hsession => (userId_of_session h hc hk hsession).trans hown]
    rfl
  | unsubscribe topics =>
    obtain rfl := Option.some.inj hrun
    rw [view_clients_own hown, clientsOf_subscribe_own fun k hk hsession => (userId_of_session h hc hk hsession).trans hown]
    rfl
  | leave =>
    obtain rfl := Option.some.inj hrun
    rw [view_removeClient_own h hc hown]
    rfl

/-! ## The steps of others -/

theorem view_goOn_other (hc : s.conns.lookup session = some c) (hother : c.userId ≠ u) (ops : List Op) :
    view u (s.goOn session c ops) = view u s :=
  congrArg (fun conns => { view u s with conns := conns }) (conns_goOn_other hc hother ops)

theorem view_rooms_other (hc : s.conns.lookup session = some c) (hother : c.userId ≠ u) (ops : List Op) {rooms : Rooms}
    (hrooms : roomsOf u rooms = roomsOf u s.rooms) : view u { s.goOn session c ops with rooms := rooms } = view u s := by
  have hview : view u (s.goOn session c ops) = view u s := view_goOn_other hc hother ops
  refine (congrArg (fun t : Sys => { t with rooms := roomsOf u rooms }) hview).trans ?_
  rw [hrooms]
  rfl

theorem view_clients_other (hc : s.conns.lookup session = some c) (hother : c.userId ≠ u) (ops : List Op)
    {clients : Clients} (hclients : clientsOf u clients = clientsOf u s.clients) :
    view u { s.goOn session c ops with clients := clients } = view u s := by
  have hview : view u (s.goOn session c ops) = view u s := view_goOn_other hc hother ops
  refine (congrArg (fun t : Sys => { t with clients := clientsOf u clients }) hview).trans ?_
  rw [hclients]
  rfl

/-- A message that a user may not read is not delivered to it. -/
theorem publish_unread {p : Publish} (h : aclAllows u p.topic false = false) : (clientsOf u clients).publish env p = [] := by
  rw [Clients.publish, clientsOf, entries_retain, List.filterMap_eq_nil_iff]
  intro e he
  have huser : e.2.userId = u := beq_iff_eq.mp (List.mem_filter.mp he).2
  rw [deliver, huser, h]
  exact Option.bind_fun_none _

theorem view_publish_other (hc : s.conns.lookup session = some c) (hother : c.userId ≠ u) (ops : List Op) {p : Publish}
    (h : aclAllows u p.topic false = false) : view u ((s.goOn session c ops).publish env p) = view u s := by
  rw [view_publish, view_goOn_other hc hother, Sys.publish]
  have hnone : (view u s).clients.publish env p = [] := publish_unread h
  rw [hnone, List.append_nil]

theorem view_removeClient_other (h : Inv u v s) (hc : s.conns.lookup session = some c) (hother : c.userId ≠ u) :
    view u { s.removeClient c.clientId session with conns := s.conns.erase session } = view u s := by
  have hconns : Table.retain (fun _ c => c.userId == u) (s.conns.erase session) = (view u s).conns :=
    (retain_erase _ _ _).trans (erase_eq_self (conn_other hc hother))
  unfold Sys.removeClient
  split
  · next hany =>
    obtain ⟨k, hk, hsession⟩ := Option.any_eq_true .. |>.mp hany
    have huser : k.userId = c.userId := userId_of_session h hc hk (of_decide_eq_true hsession)
    have hclients : clientsOf u (s.clients.erase c.clientId) = clientsOf u s.clients := by
      refine clientsOf_erase_other fun k' hk' => ?_
      rw [hk, Option.some.injEq] at hk'
      subst hk'
      exact huser ▸ hother
    have hrooms : roomsOf u (s.rooms.leave c.clientId) = roomsOf u s.rooms := roomsOf_leave_other fun id r hr howner =>
      ⟨h.rooms.nonempty id r hr, h.rooms.apart c.clientId k hk (huser ▸ hother) id r hr howner⟩
    simp only [view, hconns, hclients, hrooms]
    rfl
  · simp only [view, hconns]
    rfl

/-- A room of a session's own user is no room of this one. -/
theorem other_of_issued (h : Inv u v s) (hother : c.userId ≠ u) {roomId : Text}
    (hissued : s.issued.lookup roomId = some c.userId) : ∀ r, s.rooms.lookup roomId = some r → r.userId ≠ u := by
  intro r hr heq
  have howner := h.rooms.issued roomId r hr
  rw [hissued, Option.some.injEq] at howner
  exact hother (howner.trans heq)

theorem other_runOp {op : Op} {rest : List Op} {now : Nat} {found : Option Text} {fresh : Text} {s' : Sys} (hu : '/' ∉ u)
    (h : Inv u v s) (hc : s.conns.lookup session = some c) (hops : c.ops = op :: rest) (hother : c.userId ≠ u)
    (hslash : '/' ∉ c.userId) (hgood : apartOp u s c.userId op = true)
    (hrun : s.runOp env session c rest now found fresh op = some s') : view u s' = view u s := by
  have hop : OpOk s.issued c.userId op := h.conns.ops session c hc op (hops ▸ List.mem_cons_self)
  have hunread : ∀ {topic}, aclAllows c.userId topic true = true → aclAllows u topic false = false :=
    fun hallowed => not_allowed hu hslash hother hallowed
  cases op with
  | activeRoom userId next =>
    rw [Sys.runOp, Option.ite_none_right_eq_some, Option.some.injEq] at hrun
    obtain ⟨-, rfl⟩ := hrun
    exact view_goOn_other hc hother _
  | touch roomId =>
    obtain rfl := Option.some.inj hrun
    exact view_rooms_other hc hother rest (roomsOf_modify_other (other_of_issued h hother hop) _ fun _ => rfl)
  | createJoin userId sender room roomId qos =>
    obtain rfl := Option.some.inj hrun
    rw [join_fst]
    exact view_rooms_other hc hother _ (roomsOf_modify_other (other_of_issued h hother hop.2) _ fun _ => rfl)
  | insert userId sender room qos =>
    rw [Sys.runOp, Option.ite_none_right_eq_some, Option.isNone_iff_eq_none, Option.some.injEq] at hrun
    obtain ⟨hfresh, rfl⟩ := hrun
    obtain rfl : userId = c.userId := hop
    have hnew : (roomsOf u s.rooms).lookup fresh = none := by
      refine lookup_roomsOf_none fun r hr => ?_
      rw [h.rooms.issued fresh r hr] at hfresh
      cases hfresh
    have hrooms : roomsOf u (s.rooms.insert fresh ⟨c.userId, [sender], now, now⟩) = (roomsOf u s.rooms).erase fresh :=
      retain_insert_of_not _ (beq_eq_false_iff_ne.mpr hother)
    have hunissued : AList.lookup fresh (Table.retain (fun _ owner => owner == u) s.issued) = none := by
      rw [lookup_retain, hfresh, Option.filter_none]
    have hissued : Table.retain (fun _ owner => owner == u) (s.issued.insert fresh c.userId) =
        (Table.retain (fun _ owner => owner == u) s.issued).erase fresh :=
      retain_insert_of_not _ (beq_eq_false_iff_ne.mpr hother)
    rw [erase_eq_self hnew] at hrooms
    rw [erase_eq_self hunissued] at hissued
    rw [← view_goOn_other hc hother (.roomCreated c.userId sender room fresh qos :: rest)]
    simp only [view, hrooms, hissued]
    rfl
  | join userId sender roomId qos =>
    rw [apartOp, if_neg hother] at hgood
    have hnot : ∀ r, s.rooms.lookup roomId = some r → r.userId ≠ u := by
      intro r hr
      rw [hr, Option.all_some] at hgood
      exact bne_iff_ne.mp hgood
    simp only [Sys.runOp] at hrun
    split at hrun
    · next rooms hjoin =>
      obtain rfl := Option.some.inj hrun
      obtain ⟨-, rfl⟩ := join_eq_true hjoin
      exact view_rooms_other hc hother _ (roomsOf_modify_other hnot _ fun _ => rfl)
    · next rooms hjoin =>
      obtain rfl := Option.some.inj hrun
      obtain ⟨-, rfl⟩ := join_eq_false hjoin
      exact view_rooms_other hc hother _ rfl
  | peers userId sender roomId body qos =>
    obtain rfl := Option.some.inj hrun
    exact view_goOn_other hc hother _
  | roomCreated userId sender room roomId qos =>
    obtain rfl := Option.some.inj hrun
    obtain rfl : userId = c.userId := hop
    exact view_publish_other hc hother rest (hunread (allowed_userTopics _ _))
  | roomJoined userId sender roomId qos =>
    obtain rfl := Option.some.inj hrun
    obtain rfl : userId = c.userId := hop
    exact view_publish_other hc hother rest (hunread (allowed_clientTopic _ _ _))
  | roomNotFound userId sender roomId qos =>
    obtain rfl := Option.some.inj hrun
    obtain rfl : userId = c.userId := hop
    exact view_publish_other hc hother rest (hunread (allowed_clientTopic _ _ _))
  | publish p =>
    obtain rfl := Option.some.inj hrun
    exact view_publish_other hc hother rest (hunread hop)
  | subscribe filter qos =>
    obtain rfl := Option.some.inj hrun
    exact view_clients_other hc hother rest
      (clientsOf_subscribe_other (fun k hk hsession => userId_of_session h hc hk hsession ▸ hother) _)
  | unsubscribe topics =>
    obtain rfl := Option.some.inj hrun
    exact view_clients_other hc hother rest
      (clientsOf_subscribe_other (fun k hk hsession => userId_of_session h hc hk hsession ▸ hother) _)
  | leave =>
    obtain rfl := Option.some.inj hrun
    exact view_removeClient_other h hc hother

/-! ## Steps of the broker -/

theorem own_register {clientId : Text} {inProcess : Bool} {subscriptions : List (Text × QoS)} {s' : Sys}
    (hregister : s.register session ⟨u, clientId, inProcess, []⟩ subscriptions = some s') :
    (view u s).register session ⟨u, clientId, inProcess, []⟩ subscriptions = some (view u s') := by
  obtain ⟨hfresh, rfl⟩ := register_eq_some hregister
  have hnone : (view u s).conns.lookup session = none := by rw [lookup_view_conn, hfresh, Option.filter_none]
  have hclients : clientsOf u (s.clients.insert clientId ⟨session, u, subscriptions⟩) =
      (view u s).clients.insert clientId ⟨session, u, subscriptions⟩ := retain_insert_of_keep _ (beq_self_eq_true _)
  have hconns : Table.retain (fun _ c => c.userId == u) (s.conns.insert session ⟨u, clientId, inProcess, []⟩) =
      (view u s).conns.insert session ⟨u, clientId, inProcess, []⟩ := retain_insert_of_keep _ (beq_self_eq_true _)
  rw [Sys.register, if_pos (by rw [hnone]; rfl)]
  refine congrArg some ?_
  simp only [view, hclients, hconns]
  rfl

theorem other_register {subscriptions : List (Text × QoS)} {s' : Sys} (hother : c.userId ≠ u)
    (hgood : apartId u s c.userId c.clientId = true) (hregister : s.register session c subscriptions = some s') :
    view u s' = view u s := by
  obtain ⟨hfresh, rfl⟩ := register_eq_some hregister
  rw [apartId, beq_eq_false_iff_ne.mpr hother, Bool.false_or, Bool.and_eq_true] at hgood
  have hnone : (view u s).conns.lookup session = none := by rw [lookup_view_conn, hfresh, Option.filter_none]
  have hfree : (clientsOf u s.clients).lookup c.clientId = none := by
    rw [clientsOf, lookup_retain]
    cases hk : s.clients.lookup c.clientId with
    | none => rfl
    | some k =>
      rw [hk, Option.all_some] at hgood
      rw [Option.filter_some, if_neg fun heq => bne_iff_ne.mp hgood.1 (beq_iff_eq.mp heq)]
  have hclients : clientsOf u (s.clients.insert c.clientId ⟨session, c.userId, subscriptions⟩) =
      (clientsOf u s.clients).erase c.clientId := retain_insert_of_not _ (beq_eq_false_iff_ne.mpr hother)
  have hconns : Table.retain (fun _ c => c.userId == u) (s.conns.insert session c) = (view u s).conns.erase session :=
    retain_insert_of_not _ (beq_eq_false_iff_ne.mpr hother)
  rw [erase_eq_self hfree] at hclients
  rw [erase_eq_self hnone] at hconns
  simp only [view, hclients, hconns]
  rfl

/-- A sweep keeps a room of the user for its own clients, since none of the others is in it. -/
theorem roomsOf_sweep {connected : List (Text × Text)} (now : Nat)
    (h : ∀ e ∈ connected, e.2 = u ∨ ∀ id r, rooms.lookup id = some r → r.userId = u → e.1 ∉ r.participants) :
    roomsOf u (rooms.sweep now (connected.map (·.1))) =
      (roomsOf u rooms).sweep now ((connected.filter (·.2 == u)).map (·.1)) := by
  rw [Rooms.sweep, Rooms.sweep, roomsOf, retain_retain]
  refine retain_congr fun id r hr => ?_
  rw [lookup_retain, Option.filter_eq_some_iff, beq_iff_eq] at hr
  refine congrArg (· || decide (now - r.lastActivity < roomTimeout)) ?_
  rw [Bool.eq_iff_iff, List.any_eq_true, List.any_eq_true]
  constructor
  · rintro ⟨p, hp, hconnected⟩
    obtain ⟨e, he, rfl⟩ := List.mem_map.mp (List.contains_iff_mem.mp hconnected)
    refine ⟨e.1, hp, List.contains_iff_mem.mpr (List.mem_map.mpr ⟨e, List.mem_filter.mpr ⟨he, ?_⟩, rfl⟩)⟩
    exact beq_iff_eq.mpr ((h e he).resolve_right fun hfree => hfree id r hr.1 hr.2 hp)
  · rintro ⟨p, hp, hconnected⟩
    obtain ⟨e, he, rfl⟩ := List.mem_map.mp (List.contains_iff_mem.mp hconnected)
    exact ⟨e.1, hp, List.contains_iff_mem.mpr (List.mem_map.mpr ⟨e, (List.mem_filter.mp he).1, rfl⟩)⟩

theorem own_step {a : Action} {s' : Sys} (h : Inv u v s) (hown : ∀ w ∈ userOf a, w = u) (hgood : apart u s a = true)
    (hstep : step env s a = some s') : step env (view u s) a = some (view u s') := by
  cases a with
  | client userId session does =>
    obtain rfl : userId = u := hown userId rfl
    clear hown
    cases does with
    | connect clientId => exact own_register hstep
    | attach clientId filters => exact own_register hstep
    | receive packet =>
      obtain ⟨c, ops, hc, huser, hops, hhandle, rfl⟩ := receive_eq_some hstep
      rw [view_goOn_own huser]
      exact step_receive (conn_own hc huser) huser hops hhandle
    | run now found fresh =>
      obtain ⟨c, op, rest, hc, huser, hops, hrun⟩ := run_eq_some hstep
      rw [apart, nextOp_eq hc hops, Option.all_some, ← huser] at hgood
      subst huser
      rw [step_run (conn_own hc rfl) rfl hops]
      exact own_runOp h hc hops rfl hgood hrun
  | collect =>
    obtain ⟨hnone, rfl⟩ := collect_eq_some hstep
    have hconnected : (s.clients.entries.map fun e => (e.1, e.2.userId)).filter (·.2 == u) =
        (view u s).clients.entries.map fun e => (e.1, e.2.userId) := List.filter_map
    simp only [step, view, hnone, Option.map_none, Option.map_some, hconnected]
    rfl
  | sweep now =>
    obtain ⟨connected, hconnected, rfl⟩ := sweep_eq_some hstep
    rw [apart, hconnected, Option.all_some, List.all_eq_true] at hgood
    have hfree : ∀ e ∈ connected, e.2 = u ∨ ∀ id r, s.rooms.lookup id = some r → r.userId = u → e.1 ∉ r.participants := by
      intro e he
      have happart := hgood e he
      rw [Bool.or_eq_true, beq_iff_eq] at happart
      exact happart.imp_right unnamed_iff.mp
    simp only [step, view, hconnected, Option.map_some, Option.map_none, roomsOf_sweep now hfree]
    rfl

theorem other_step {a : Action} {s' : Sys} (hu : '/' ∉ u) (hv : '/' ∉ v) (huv : u ≠ v) (h : Inv u v s)
    (hother : userOf a = some v) (hgood : apart u s a = true) (hstep : step env s a = some s') : view u s' = view u s := by
  cases a with
  | client userId session does =>
    obtain rfl : userId = v := Option.some.inj hother
    clear hother
    cases does with
    | connect clientId => exact other_register (c := ⟨userId, clientId, false, []⟩) huv.symm hgood hstep
    | attach clientId filters => exact other_register (c := ⟨userId, clientId, true, []⟩) huv.symm hgood hstep
    | receive packet =>
      obtain ⟨c, ops, hc, rfl, -, -, rfl⟩ := receive_eq_some hstep
      exact view_goOn_other hc huv.symm ops
    | run now found fresh =>
      obtain ⟨c, op, rest, hc, rfl, hops, hrun⟩ := run_eq_some hstep
      rw [apart, nextOp_eq hc hops, Option.all_some] at hgood
      exact other_runOp hu h hc hops huv.symm hv hgood hrun
  | collect => cases hother
  | sweep now => cases hother

end

/-! ## Runs -/

theorem inv_empty (u v : Text) : Inv u v .empty := by
  constructor
  · exact ⟨fun n c hc => (by cases hc), fun n c hc => (by cases hc)⟩
  · exact fun id c hc => by cases hc
  · exact ⟨fun id r hr => (by cases hr), fun id r hr => (by cases hr), fun id c hc => (by cases hc)⟩

/-- Two users whose clients keep apart: one of them has the same rooms and the same deliveries as without the other. -/
theorem isolated_of_apart (env : Env) (u v : Text) (hu : '/' ∉ u) (hv : '/' ∉ v) (huv : u ≠ v) (as : List Action)
    (husers : ∀ a ∈ as, ∀ w ∈ userOf a, w = u ∨ w = v) (s : Sys)
    (hgood : AllGood (step env) (fun s a => apart u s a = true) .empty as) (hrun : run (step env) .empty as = some s) :
    ∃ s', run (step env) .empty (as.filter fun a => userOf a != some v) = some s' ∧
      deliveriesTo u s' = deliveriesTo u s ∧ roomsOf u s'.rooms = roomsOf u s.rooms := by
  have hkept : ∀ s a s', Inv u v s → (apart u s a = true ∧ ∀ w ∈ userOf a, w = u ∨ w = v) → step env s a = some s' →
      Inv u v s' := fun s a s' h hgood hstep => inv_step hu hv h hgood.2 hgood.1 hstep
  have hown : ∀ s a s', Inv u v s → (apart u s a = true ∧ ∀ w ∈ userOf a, w = u ∨ w = v) → (userOf a != some v) = true →
      step env s a = some s' → step env (view u s) a = some (view u s') := by
    intro s a s' h hgood hmine hstep
    refine own_step h (fun w hw => (hgood.2 w hw).resolve_right ?_) hgood.1 hstep
    rintro rfl
    exact bne_iff_ne.mp hmine hw
  have hother : ∀ s a s', Inv u v s → (apart u s a = true ∧ ∀ w ∈ userOf a, w = u ∨ w = v) → (userOf a != some v) = false →
      step env s a = some s' → view u s' = view u s := fun s a s' h hgood htheirs hstep =>
    other_step hu hv huv h (by simpa using htheirs) hgood.1 hstep
  have hview := Purge.run_filter hkept hown hother (inv_empty u v) (hgood.and (allGood_of_forall husers)) hrun
  refine ⟨view u s, hview, ?_, ?_⟩
  · simp only [view, deliveriesTo, List.filter_filter, Bool.and_self]
  · exact AList.ext (by simp only [view, roomsOf, entries_retain, List.filter_filter, Bool.and_self])

/-- The user's tablet listens for its rooms. -/
def tabletListens : List Action :=
  [.client "u".toList 1 (.connect "tablet".toList),
   .client "u".toList 1 (.receive (.subscribe [("user/u/signaling".toList, .atLeastOnce)])), .client "u".toList 1 (.run 0 none [])]

/-- A client of another user makes a room of its own and leaves, while the tablet shares. -/
def besideEachOther : List Action :=
  tabletListens ++ .client "v".toList 2 (.connect "other".toList) ::
    signals "v".toList "other".toList 2 createRoomText :: runs "v".toList 2 [none, none] [] ++
    creates "u".toList "tablet".toList 1 "r".toList ++ [.collect] ++ runs "v".toList 2 [none, none, none] "q".toList ++
    [.client "v".toList 2 (.receive .disconnect), .client "v".toList 2 (.run 0 none []), .sweep (70 * 1000000000)]

theorem besideEachOther_isolated : ∃ s, run (step plainEnv) .empty besideEachOther = some s ∧
    (deliveriesTo "u".toList s).length = 1 ∧
    ∃ s', run (step plainEnv) .empty (besideEachOther.filter fun a => userOf a != some "v".toList) = some s' ∧
      deliveriesTo "u".toList s' = deliveriesTo "u".toList s ∧ roomsOf "u".toList s'.rooms = roomsOf "u".toList s.rooms := by
  have hend : (run (step plainEnv) .empty besideEachOther).map (fun s => (deliveriesTo "u".toList s).length) = some 1 := by
    decide +kernel
  have hgood : AllGood (step plainEnv) (fun s a => apart "u".toList s a = true) .empty besideEachOther := by decide +kernel
  obtain ⟨s, hrun, hlength⟩ := Option.map_eq_some_iff.mp hend
  exact ⟨s, hrun, hlength, isolated_of_apart plainEnv "u".toList "v".toList (by decide) (by decide) (by decide)
    besideEachOther (by decide +kernel) s hgood hrun⟩

/-- The other user's client registers under the tablet's id, and the tablet is not told of its room. -/
def replaced : List Action :=
  tabletListens ++ [.client "v".toList 2 (.connect "tablet".toList)] ++ creates "u".toList "tablet".toList 1 "r".toList

/-- The other user's client names the tablet's room. -/
def intruded : List Action :=
  tabletListens ++ creates "u".toList "tablet".toList 1 "r".toList ++ .client "v".toList 2 (.connect "other".toList) ::
    signals "v".toList "other".toList 2 joinRoomText :: runs "v".toList 2 [none, none] []

/-- What the tablet's user finds: how many messages, and who is in its room. -/
def found (s : Sys) : Nat × Option (List Text) :=
  ((deliveriesTo "u".toList s).length, ((roomsOf "u".toList s.rooms).lookup "r".toList).map (·.participants))

/-- The tablet's user finds something else than without the other user. -/
def Disturbed (as : List Action) : Prop :=
  ∃ s s', run (step plainEnv) .empty as = some s ∧
    run (step plainEnv) .empty (as.filter fun a => userOf a != some "v".toList) = some s' ∧
    ¬(deliveriesTo "u".toList s' = deliveriesTo "u".toList s ∧ roomsOf "u".toList s'.rooms = roomsOf "u".toList s.rooms)

theorem disturbed_of_found {as : List Action} (a b : Nat × Option (List Text))
    (ha : (run (step plainEnv) .empty as).map found = some a)
    (hb : (run (step plainEnv) .empty (as.filter fun a => userOf a != some "v".toList)).map found = some b) (hne : b ≠ a) :
    Disturbed as := by
  obtain ⟨s, hs, rfl⟩ := Option.map_eq_some_iff.mp ha
  obtain ⟨s', hs', rfl⟩ := Option.map_eq_some_iff.mp hb
  refine ⟨s, s', hs, hs', fun hsame => hne ?_⟩
  rw [found, found, hsame.1, hsame.2]

theorem not_isolated : Disturbed replaced ∧ Disturbed intruded := by
  constructor
  · exact disturbed_of_found (0, some ["tablet".toList]) (1, some ["tablet".toList]) (by decide +kernel) (by decide +kernel)
      (by decide)
  · exact disturbed_of_found (1, some ["tablet".toList, "other".toList]) (1, some ["tablet".toList]) (by decide +kernel)
      (by decide +kernel) (by decide)

end ScreenshareBrokerIsolation
