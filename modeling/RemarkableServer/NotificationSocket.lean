import RemarkableServer.Lib.Broadcast
import RemarkableServer.Lib.Transition
import RemarkableServer.Notifications
import RemarkableServer.Store

/-!
# A notifications socket and the root commits

A socket greets its client with a SyncComplete, subscribes to the notification channel and
then forwards what it receives there; news that it lost messages is replaced by a SyncComplete.
A root commit that broadcasts sets the root first and sends its SyncComplete second. One that
sends it between the greeting and the subscription is announced to nobody.
-/
namespace NotificationSocket

open RustText Notifications Broadcast Transition

def notificationCapacity : Nat := 64

inductive Socket where
  | opened
  | greeted
  | forwarding (position : Nat)
  | closed
  deriving DecidableEq, Repr

inductive Event where
  | committed (call : Nat)
  | broadcast (call : Nat)
  | forwarded (msg : WsMessage)
  deriving DecidableEq, Repr

/-- A `put_root` that has set the root and has yet to send its message. -/
structure PutRoot where
  call : Nat
  msg : WsMessage

structure PutRootRequest where
  generation : Nat
  hash : Text
  broadcast : Bool

/-- The calls that broadcast are numbered; the log has the newest event first. -/
structure Sys where
  store : Store.State
  channel : Channel WsMessage
  calls : Nat
  putRoots : List PutRoot
  userId : Text
  deviceId : Option Text
  socket : Socket
  log : List Event

def Sys.start (store : Store.State) (userId : Text) (deviceId : Option Text) : Sys :=
  ⟨store, .new notificationCapacity (by decide), 0, [], userId, deviceId, .opened, []⟩

inductive Action where
  /-- `put_root` up to `set_root_if`. -/
  | setRoot (req : PutRootRequest) (userId deviceId : Text)
  /-- The send of a `put_root`. -/
  | send (call : Nat)
  /-- Anything else that is sent on the channel. -/
  | notify (msg : WsMessage)
  | greet (readable : Bool)
  | subscribe
  | receive (readable : Bool)
  | close

namespace Sys

/-- A fresh SyncComplete for the client, with the current root. -/
def announce (readable : Bool) (s : Sys) : Sys :=
  let root := s.store.getRoot readable
  { s with
    store := root.1
    log := .forwarded (.syncComplete root.2.generation localServer serverUser) :: s.log }

def putRoot (req : PutRootRequest) (userId deviceId : Text) (s : Sys) : Sys :=
  if s.store.blobExists req.hash then
    match s.store.setRootIf req.hash (some req.generation) with
    | (store, .error _) => { s with store := store }
    | (store, .ok root) =>
      if req.broadcast then
        { s with
          store := store
          calls := s.calls + 1
          putRoots := ⟨s.calls, .syncComplete root.generation deviceId userId⟩ :: s.putRoots
          log := .committed s.calls :: s.log }
      else { s with store := store }
  else s

def broadcast (p : PutRoot) (s : Sys) : Sys :=
  { s with
    channel := s.channel.send p.msg
    putRoots := s.putRoots.filter (·.call != p.call)
    log := .broadcast p.call :: s.log }

/-- One round of the forwarding task. -/
def receive (position : Nat) (readable : Bool) (s : Sys) : Option Sys :=
  match s.channel.recv position with
  | (.waiting, _) => none
  | (.lagged _, position) => some (announce readable { s with socket := .forwarding position })
  | (.message msg, position) =>
    if deliversTo msg s.userId s.deviceId then
      some { s with socket := .forwarding position, log := .forwarded msg :: s.log }
    else some { s with socket := .forwarding position }

end Sys

def step (s : Sys) : Action → Option Sys
  | .setRoot req userId deviceId => some (s.putRoot req userId deviceId)
  | .send call => (s.putRoots.find? (·.call == call)).map fun p => s.broadcast p
  | .notify msg => some { s with channel := s.channel.send msg }
  | .greet readable => if s.socket = .opened then some (Sys.announce readable { s with socket := .greeted }) else none
  | .subscribe => if s.socket = .greeted then some { s with socket := .forwarding s.channel.subscribe } else none
  | .receive readable =>
    match s.socket with
    | .forwarding position => s.receive position readable
    | _ => none
  | .close => some { s with socket := .closed }

/-! ## What the client was told -/

def Event.isForwarded : Event → Bool
  | .forwarded _ => true
  | _ => false

def Event.tells : Event → Bool
  | .forwarded msg => msg.isSyncComplete
  | _ => false

/-- The commit was made after the client was greeted. -/
def afterGreeting (call : Nat) (log : List Event) : Bool :=
  (log.dropWhile (· != .committed call)).any Event.isForwarded

/-- The client was sent a SyncComplete after the commit. -/
def informed (call : Nat) (log : List Event) : Bool := (log.takeWhile (· != .committed call)).any Event.tells

variable {call : Nat} {e : Event} {log : List Event}

theorem afterGreeting_cons (h : e ≠ .committed call) : afterGreeting call (e :: log) = afterGreeting call log := by
  simp [afterGreeting, h]

theorem informed_cons (h : e ≠ .committed call) : informed call (e :: log) = (e.tells || informed call log) := by
  simp [informed, h]

theorem afterGreeting_of_none (h : ∀ e ∈ log, e.isForwarded = false) : afterGreeting call log = false := by
  simp only [afterGreeting, List.any_eq_false]
  intro e he
  simp [h e ((List.dropWhile_suffix _).subset he)]

/-! ## The invariant -/

/-- What a receiver at a position is still to be told of a commit: the message is ahead of it in the channel. -/
def Ahead (channel : Channel WsMessage) (position : Nat) : Prop :=
  ∃ i msg, position ≤ i ∧ channel.sent[i]? = some msg ∧ msg.isSyncComplete = true

structure Inv (s : Sys) : Prop where
  numbered : ∀ call, .committed call ∈ s.log → call < s.calls
  putRoots : ∀ p ∈ s.putRoots, p.msg.isSyncComplete = true ∧ .committed p.call ∈ s.log
  committed : ∀ call, .broadcast call ∈ s.log → .committed call ∈ s.log
  opened : s.socket = .opened → ∀ e ∈ s.log, e.isForwarded = false
  greeted : s.socket = .greeted → ∀ call, .broadcast call ∈ s.log → afterGreeting call s.log = false
  within : ∀ position, s.socket = .forwarding position → position ≤ s.channel.sent.length
  forwarding : ∀ position, s.socket = .forwarding position → ∀ call, .broadcast call ∈ s.log →
    afterGreeting call s.log = true → informed call s.log = true ∨ Ahead s.channel position

/-- No commit that was made after the greeting sends its message before the subscription. -/
def announced (s : Sys) : Action → Bool
  | .send call => s.socket != .greeted || !afterGreeting call s.log
  | _ => true

variable {s s' : Sys} {a : Action} {channel : Channel WsMessage} {position : Nat}

theorem Ahead.send (h : Ahead channel position) (msg : WsMessage) : Ahead (channel.send msg) position := by
  obtain ⟨i, m, hi, hm, hsync⟩ := h
  exact ⟨i, m, hi, Channel.getElem?_send hm, hsync⟩

theorem ahead_send {msg : WsMessage} (h : position ≤ channel.sent.length) (hmsg : msg.isSyncComplete = true) :
    Ahead (channel.send msg) position :=
  ⟨channel.sent.length, msg, h, by simp, hmsg⟩

theorem inv_start (store : Store.State) (userId : Text) (deviceId : Option Text) : Inv (.start store userId deviceId) := by
  constructor <;> simp [Sys.start]

theorem inv_store (h : Inv s) (store : Store.State) : Inv { s with store := store } :=
  ⟨h.numbered, h.putRoots, h.committed, h.opened, h.greeted, h.within, h.forwarding⟩

theorem inv_putRoot (h : Inv s) (req : PutRootRequest) (userId deviceId : Text) : Inv (s.putRoot req userId deviceId) := by
  simp only [Sys.putRoot]
  split
  · split
    · exact inv_store h _
    · split
      · -- The call is new, so nothing is known of it but its commit.
        have hnew : ∀ call, Event.committed call ∈ s.log → Event.committed s.calls ≠ .committed call := by
          intro call hcall heq
          have hlt := h.numbered call hcall
          simp only [Event.committed.injEq] at heq
          omega
        constructor
        · intro call hcall
          rcases List.mem_cons.mp hcall with heq | hcall
          · cases heq
            exact Nat.lt_succ_self _
          · exact Nat.lt_succ_of_lt (h.numbered call hcall)
        · intro p hp
          rcases List.mem_cons.mp hp with rfl | hp
          · simp
          · exact ⟨(h.putRoots p hp).1, List.mem_cons_of_mem _ (h.putRoots p hp).2⟩
        · intro call hcall
          exact List.mem_cons_of_mem _ (h.committed call (by simpa using hcall))
        · intro hsocket e he
          rcases List.mem_cons.mp he with rfl | he
          · rfl
          · exact h.opened hsocket e he
        · intro hsocket call hcall
          have hcall : .broadcast call ∈ s.log := by simpa using hcall
          rw [afterGreeting_cons (hnew call (h.committed call hcall))]
          exact h.greeted hsocket call hcall
        · exact h.within
        · intro position hsocket call hcall hafter
          have hcall : .broadcast call ∈ s.log := by simpa using hcall
          have hne := hnew call (h.committed call hcall)
          rw [afterGreeting_cons hne] at hafter
          rw [informed_cons hne, Bool.or_eq_true]
          exact (h.forwarding position hsocket call hcall hafter).imp_left Or.inr
      · exact inv_store h _
  · exact h

theorem inv_broadcast (h : Inv s) {p : PutRoot} (hp : p ∈ s.putRoots)
    (hgood : s.socket = .greeted → afterGreeting p.call s.log = false) : Inv (s.broadcast p) := by
  obtain ⟨hmsg, hcommitted⟩ := h.putRoots p hp
  constructor
  · intro call hcall
    exact h.numbered call (by simpa [Sys.broadcast] using hcall)
  · intro q hq
    have hq := h.putRoots q (List.mem_of_mem_filter hq)
    exact ⟨hq.1, List.mem_cons_of_mem _ hq.2⟩
  · intro call hcall
    rcases List.mem_cons.mp hcall with heq | hcall
    · cases heq
      exact List.mem_cons_of_mem _ hcommitted
    · exact List.mem_cons_of_mem _ (h.committed call hcall)
  · intro hsocket e he
    rcases List.mem_cons.mp he with rfl | he
    · rfl
    · exact h.opened hsocket e he
  · intro hsocket call hcall
    rw [Sys.broadcast, afterGreeting_cons (by simp)]
    rcases List.mem_cons.mp hcall with heq | hcall
    · cases heq
      exact hgood hsocket
    · exact h.greeted hsocket call hcall
  · intro position hsocket
    have hle := h.within position hsocket
    simp only [Sys.broadcast, Channel.send_sent, List.length_append]
    omega
  · intro position hsocket call hcall hafter
    rw [Sys.broadcast, afterGreeting_cons (by simp)] at hafter
    rw [Sys.broadcast, informed_cons (by simp), Bool.or_eq_true]
    rcases List.mem_cons.mp hcall with heq | hcall
    · exact Or.inr (ahead_send (h.within position hsocket) hmsg)
    · exact (h.forwarding position hsocket call hcall hafter).imp Or.inr fun hahead => hahead.send p.msg

theorem inv_notify (h : Inv s) (msg : WsMessage) : Inv { s with channel := s.channel.send msg } where
  numbered := h.numbered
  putRoots := h.putRoots
  committed := h.committed
  opened := h.opened
  greeted := h.greeted
  within := by
    intro position hsocket
    have hle := h.within position hsocket
    simp only [Channel.send_sent, List.length_append]
    omega
  forwarding := fun position hsocket call hcall hafter =>
    (h.forwarding position hsocket call hcall hafter).imp_right fun hahead => hahead.send msg

/-- A message was forwarded and the socket went on: what it was still to tell of a commit, it has told or is ahead. -/
theorem inv_forward (h : Inv s) {msg : WsMessage} (socket : Socket) (hopened : socket ≠ .opened)
    (hgreeted : socket = .greeted → s.socket = .opened)
    (hwithin : ∀ position, socket = .forwarding position → position ≤ s.channel.sent.length)
    (hahead : ∀ position, socket = .forwarding position → ∀ call, .broadcast call ∈ s.log →
      afterGreeting call s.log = true → msg.isSyncComplete = true ∨ informed call s.log = true ∨ Ahead s.channel position) :
    Inv { s with socket := socket, log := .forwarded msg :: s.log } := by
  have hmem : ∀ {e}, (∀ m, e ≠ .forwarded m) → (e ∈ Event.forwarded msg :: s.log ↔ e ∈ s.log) := by
    intro e he
    simp [he msg]
  constructor
  · exact fun call hcall => h.numbered call ((hmem (by simp)).mp hcall)
  · exact fun p hp => ⟨(h.putRoots p hp).1, List.mem_cons_of_mem _ (h.putRoots p hp).2⟩
  · exact fun call hcall => List.mem_cons_of_mem _ (h.committed call ((hmem (by simp)).mp hcall))
  · exact fun hsocket => absurd hsocket hopened
  · intro hsocket call _
    rw [afterGreeting_cons (by simp)]
    exact afterGreeting_of_none (h.opened (hgreeted hsocket))
  · exact hwithin
  · intro position hsocket call hcall hafter
    rw [afterGreeting_cons (by simp)] at hafter
    rw [informed_cons (by simp), Bool.or_eq_true, or_assoc]
    exact hahead position hsocket call ((hmem (by simp)).mp hcall) hafter

theorem inv_receive (h : Inv s) {readable : Bool} (hsocket : s.socket = .forwarding position)
    (hreceive : s.receive position readable = some s') : Inv s' := by
  have hwithin := h.within position hsocket
  simp only [Sys.receive] at hreceive
  obtain ⟨hrecv, -⟩ | ⟨lost, hrecv, -⟩ | ⟨msg, hrecv, hmsg⟩ := Channel.recv_cases s.channel position
  · simp [hrecv] at hreceive
  · simp only [hrecv, Option.some.injEq] at hreceive
    subst hreceive
    refine inv_store (inv_forward h (.forwarding s.channel.dropped) (by simp) (by simp) ?_ ?_) _
    · intro position hposition
      cases hposition
      exact Nat.sub_le _ _
    · intro position hposition call hcall hafter
      exact Or.inl (by simp)
  · have hlt := (List.getElem?_eq_some_iff.mp hmsg).1
    -- A SyncComplete that was ahead is further ahead, or it is the message that was received.
    have hahead : ∀ call, .broadcast call ∈ s.log → afterGreeting call s.log = true →
        msg.isSyncComplete = true ∨ informed call s.log = true ∨ Ahead s.channel (position + 1) := by
      intro call hcall hafter
      rcases h.forwarding position hsocket call hcall hafter with hinformed | ⟨i, m, hi, hm, hsync⟩
      · exact Or.inr (Or.inl hinformed)
      · by_cases heq : i = position
        · subst heq
          rw [hm] at hmsg
          cases hmsg
          exact Or.inl hsync
        · exact Or.inr (Or.inr ⟨i, m, by omega, hm, hsync⟩)
    simp only [hrecv] at hreceive
    split at hreceive
    · cases hreceive
      refine inv_forward h _ (by simp) (by simp) ?_ ?_
      · rintro _ ⟨⟩
        omega
      · rintro _ ⟨⟩
        exact hahead
    next hdelivers =>
      cases hreceive
      have hother : msg.isSyncComplete = false := by
        by_contra hsync
        exact hdelivers (deliversTo_of_isSyncComplete (by simpa using hsync))
      refine ⟨h.numbered, h.putRoots, h.committed, by simp, by simp, ?_, ?_⟩
      · rintro _ ⟨⟩
        exact hlt
      · rintro _ ⟨⟩ call hcall hafter
        simpa [hother] using hahead call hcall hafter

theorem inv_step (h : Inv s) (hgood : announced s a = true) (hstep : step s a = some s') : Inv s' := by
  cases a with
  | setRoot req userId deviceId =>
    cases hstep
    exact inv_putRoot h req userId deviceId
  | send call =>
    obtain ⟨p, hp, rfl⟩ := Option.map_eq_some_iff.mp hstep
    have hcall : p.call = call := by simpa using List.find?_some hp
    refine inv_broadcast h (List.mem_of_find?_eq_some hp) fun hsocket => ?_
    simpa [announced, hsocket, hcall] using hgood
  | notify msg =>
    cases hstep
    exact inv_notify h msg
  | greet readable =>
    simp only [step] at hstep
    split at hstep
    next hsocket =>
      cases hstep
      exact inv_store (inv_forward h .greeted (by simp) (fun _ => hsocket) (by simp) (by simp)) _
    · cases hstep
  | subscribe =>
    simp only [step] at hstep
    split at hstep
    next hsocket =>
      cases hstep
      refine ⟨h.numbered, h.putRoots, h.committed, by simp, by simp, ?_, ?_⟩
      · rintro _ ⟨⟩
        exact Nat.le_refl _
      · rintro _ ⟨⟩ call hcall hafter
        simp [h.greeted hsocket call hcall] at hafter
    · cases hstep
  | receive readable =>
    simp only [step] at hstep
    split at hstep
    next position hsocket => exact inv_receive h hsocket hstep
    · cases hstep
  | close =>
    cases hstep
    exact ⟨h.numbered, h.putRoots, h.committed, by simp, by simp, by simp, by simp⟩

/-- In every run in which no commit made after the greeting sends its message before the subscription: once the socket
has received everything queued for it, its client was sent a SyncComplete after every such commit. -/
theorem no_commit_missed (store : Store.State) (userId : Text) (deviceId : Option Text) (as : List Action) (s : Sys)
    (hrun : run step (.start store userId deviceId) as = some s)
    (hgood : AllGood step (fun s a => announced s a = true) (.start store userId deviceId) as)
    (call position : Nat) (hsent : .broadcast call ∈ s.log) (hafter : afterGreeting call s.log = true)
    (hsocket : s.socket = .forwarding position) (hall : (s.channel.recv position).1 = .waiting) :
    informed call s.log = true := by
  have hinv := invariant_of_allGood (fun _ _ _ h hgood hstep => inv_step h hgood hstep) (inv_start store userId deviceId)
    hgood hrun
  rcases hinv.forwarding position hsocket call hsent hafter with hinformed | ⟨i, msg, hi, hmsg, -⟩
  · exact hinformed
  · have hlt := (List.getElem?_eq_some_iff.mp hmsg).1
    have hle := Channel.length_le_of_waiting hall
    omega

/-- A server with one blob, and a socket that is about to greet its client. -/
def oneBlob : Sys :=
  .start (.new ((∅ : Store.Table Store.BlobFile).insert (List.replicate 64 'b') ⟨[], 0⟩) none []) serverUser (some "desktop".toList)

def commitBlob : Action := .setRoot ⟨0, List.replicate 64 'b', true⟩ serverUser "tablet".toList

theorem commit_after_subscription : ∃ s, run step oneBlob [.greet true, commitBlob, .subscribe, .send 0, .receive true] = some s ∧
    informed 0 s.log = true := by
  obtain ⟨s, hs⟩ := Option.isSome_iff_exists.mp
    (show (run step oneBlob [.greet true, commitBlob, .subscribe, .send 0, .receive true]).isSome = true by decide +kernel)
  have hfacts : ((run step oneBlob [.greet true, commitBlob, .subscribe, .send 0, .receive true]).map fun s =>
      (s.log.contains (.broadcast 0), afterGreeting 0 s.log, s.socket, (s.channel.recv 1).1)) =
        some (true, true, .forwarding 1, .waiting) := by
    decide +kernel
  rw [hs] at hfacts
  simp only [Option.map_some, Option.some.injEq, Prod.mk.injEq, List.contains_iff_mem] at hfacts
  obtain ⟨hsent, hafter, hsocket, hall⟩ := hfacts
  exact ⟨s, hs, no_commit_missed _ _ _ _ s hs (by decide +kernel) 0 1 hsent hafter hsocket hall⟩

/-- A commit between the greeting and the subscription is announced to nobody. -/
theorem commit_in_the_gap_missed : ∃ s, run step oneBlob [.greet true, commitBlob, .send 0, .subscribe] = some s ∧
    .broadcast 0 ∈ s.log ∧ afterGreeting 0 s.log = true ∧ s.socket = .forwarding 1 ∧
      (s.channel.recv 1).1 = .waiting ∧ informed 0 s.log = false := by
  obtain ⟨s, hs⟩ := Option.isSome_iff_exists.mp
    (show (run step oneBlob [.greet true, commitBlob, .send 0, .subscribe]).isSome = true by decide +kernel)
  have hfacts : ((run step oneBlob [.greet true, commitBlob, .send 0, .subscribe]).map fun s =>
      (s.log.contains (.broadcast 0), afterGreeting 0 s.log, s.socket, (s.channel.recv 1).1, informed 0 s.log)) =
        some (true, true, .forwarding 1, .waiting, false) := by
    decide +kernel
  rw [hs] at hfacts
  simp only [Option.map_some, Option.some.injEq, Prod.mk.injEq, List.contains_iff_mem] at hfacts
  exact ⟨s, hs, hfacts⟩

end NotificationSocket
