import RemarkableServer.DeviceSessions
import RemarkableServer.DeviceTokens
import RemarkableServer.Lib.Processes
import RemarkableServer.Lib.Transition
import RemarkableServer.ScreenshareRest

/-!
# Who is in a screen share room

Requests authenticate, and then each section under the lock of the rooms is one
step: a `join-active` looks for the room in one and joins it in another. Devices
are revoked and paired again at any time, and the cleanup asks the database for
every registration it found in the rooms before it takes the ended ones out.
-/
namespace ScreenshareMembers

open RustText Devices Tables ScreenshareRest Transition

/-- The same device, paired to the same user at the same time. -/
def sameRegistration (a b : Claims) : Bool := a.deviceId == b.deviceId && a.userId == b.userId && a.epoch == b.epoch

/-- The client is a device under this registration. -/
def isUnder (who : Claims) (c : RoomClient) : Bool := c.registration.any (sameRegistration who)

/-- The room holds the device under its registration. -/
def holds (rooms : Rooms) (room : Text) (who : Claims) : Bool :=
  (rooms.lookup room).any fun r => (r.participants.lookup who.deviceId).any (isUnder who)

def heldRooms (rooms : Rooms) (who : Claims) : List Text :=
  (rooms.entries.filter fun e => holds rooms e.1 who).map (·.1)

/-! ## The system -/

/-- Where a request is: before a section under the lock, or before its answer. -/
inductive Phase where
  | create
  | findActive
  | addParticipant (room : Text)
  | join (room : Text)
  | answer (room : Text)
  | delete (room : Text)
  | keepalive (room : Text)
  deriving DecidableEq

/-- A handler begins with one of these. -/
def Phase.begins : Phase → Bool
  | .create | .findActive | .join _ | .delete _ | .keepalive _ => true
  | .addParticipant _ | .answer _ => false

/-- `heldIn` are the rooms that held the device under its registration at some moment of the request. -/
structure Call where
  who : Claims
  phase : Phase
  heldIn : List Text
  deriving DecidableEq

/-- The registrations that a cleanup found and did not ask for yet, and the ended ones. -/
structure Cleanup where
  todo : List (Text × Claims)
  ended : List (Text × Claims)
  deriving DecidableEq

/-- What happens to the rooms. A join that answers 200 is recorded with what held its device in the meantime. -/
inductive Event where
  | created (room : Text) (owner : Claims)
  | admitted (who : Claims) (room : Text)
  | answered (who : Claims) (room : Text) (heldIn : List Text)
  | deleted (caller : Claims) (room : Text)
  | timedOut (room : Text)
  deriving DecidableEq

/-- The newest events are the first. -/
structure Sys where
  db : Db
  rooms : Rooms
  calls : List Call
  cleanups : List Cleanup
  log : List Event

def Sys.empty : Sys := ⟨.empty, ∅, [], [], []⟩

inductive Action where
  | register (deviceId deviceDesc userId : Text) (now : Int)
  | unregister (deviceId : Text) (owner : Option Text)
  | request (token : Token) (now : Int) (phase : Phase)
  | create (call now : Nat) (room : Text) (createdAt : Int)
  | findActive (call now : Nat) (found : Option Text)
  | addParticipant (call : Nat)
  | join (call now : Nat)
  | answer (call : Nat)
  | delete (call : Nat)
  | keepalive (call now : Nat)
  | sweep (now : Nat)
  | cleanup (device : Option DeviceRevoked)
  | check (cleanup : Nat) (databaseError : Bool)
  | drop (cleanup : Nat)

namespace Sys

/-- The rooms that a sweep takes away. -/
def timeouts (now : Nat) (s : Sys) : List Event :=
  (s.rooms.entries.filter fun e => !e.2.isLive now).map fun e => .timedOut e.1

/-- No room had this id. -/
def isFresh (room : Text) (s : Sys) : Bool :=
  !s.log.any fun e => match e with
    | .created r _ => r == room
    | _ => false

/-- A request has joined the room, and is to answer. -/
def joined (n : Nat) (c : Call) (room : Text) (rooms : Rooms) (events : List Event) (s : Sys) : Sys :=
  { s with
    rooms := rooms
    calls := s.calls.set n { c with phase := .answer room }
    log := if holds rooms room c.who then .admitted c.who room :: (events ++ s.log) else events ++ s.log }

/-- Which registrations are asked for: all, or those of a revoked device. -/
def found (device : Option DeviceRevoked) (s : Sys) : List (Text × Claims) :=
  s.rooms.registrations.filter fun p => device.all fun d => d.userId == p.2.userId && d.deviceId == p.2.deviceId

/-- The registration is asked for; a database error keeps it. -/
def check (k : Cleanup) (databaseError : Bool) (s : Sys) : Option Cleanup :=
  match k.todo with
  | [] => none
  | p :: todo =>
    if databaseError || sessionStillValid p.2 s.db then some { k with todo := todo }
    else some ⟨todo, p :: k.ended⟩

def actCall (n : Nat) (c : Call) (s : Sys) : Action → Option Sys
  | .create _ now room createdAt =>
    if c.phase = .create ∧ s.isFresh room then
      some { s with
        rooms := s.rooms.create now room createdAt c.who
        calls := s.calls.eraseIdx n
        log := .created room c.who :: (s.timeouts now ++ s.log) }
    else none
  | .findActive _ now found =>
    if c.phase = .findActive ∧ (s.rooms.sweep now).isActive c.who.userId found then
      some { s with
        rooms := s.rooms.sweep now
        calls := match found with
          | none => s.calls.eraseIdx n
          | some room => s.calls.set n { c with phase := .addParticipant room }
        log := s.timeouts now ++ s.log }
    else none
  | .addParticipant _ =>
    match c.phase with
    | .addParticipant room => some (s.joined n c room (s.rooms.addParticipant room c.who) [])
    | _ => none
  | .join _ now =>
    match c.phase with
    | .join room =>
      match s.rooms.joinAs now room (.device c.who false) with
      | (rooms, true) => some (s.joined n c room rooms (s.timeouts now))
      | (rooms, false) =>
        some { s with rooms := rooms, calls := s.calls.eraseIdx n, log := s.timeouts now ++ s.log }
    | _ => none
  | .answer _ =>
    match c.phase with
    | .answer room => some { s with calls := s.calls.eraseIdx n, log := .answered c.who room c.heldIn :: s.log }
    | _ => none
  | .delete _ =>
    match c.phase with
    | .delete room =>
      some { s with
        rooms := s.rooms.leaveOrClose room c.who.deviceId
        calls := s.calls.eraseIdx n
        log := .deleted c.who room :: s.log }
    | _ => none
  | .keepalive _ now =>
    match c.phase with
    | .keepalive room =>
      some { s with
        rooms := (s.rooms.keepalive now room c.who.userId).1
        calls := s.calls.eraseIdx n
        log := s.timeouts now ++ s.log }
    | _ => none
  | _ => none

def act (env : Env) (s : Sys) : Action → Option Sys
  | .register deviceId deviceDesc userId now =>
    match s.db.register env deviceId deviceDesc userId now with
    | .ok (db, _, _) => some { s with db := db }
    | .error _ => some s
  | .unregister deviceId owner => some { s with db := (s.db.unregister deviceId owner).1 }
  | .request token now phase =>
    match sessionIdentity env token now s.db with
    | .ok who => if phase.begins then some { s with calls := ⟨who, phase, []⟩ :: s.calls } else none
    | .error _ => none
  | .sweep now => some { s with rooms := s.rooms.sweep now, log := s.timeouts now ++ s.log }
  | .cleanup device => some { s with cleanups := ⟨s.found device, []⟩ :: s.cleanups }
  | .check n databaseError => (s.cleanups[n]?).bind fun k =>
    (s.check k databaseError).map fun k => { s with cleanups := s.cleanups.set n k }
  | .drop n => (s.cleanups[n]?).bind fun k =>
    if k.todo.isEmpty then
      some { s with rooms := s.rooms.dropRegistrations k.ended, cleanups := s.cleanups.eraseIdx n }
    else none
  | .create n now room createdAt => (s.calls[n]?).bind fun c => s.actCall n c (.create n now room createdAt)
  | .findActive n now found => (s.calls[n]?).bind fun c => s.actCall n c (.findActive n now found)
  | .addParticipant n => (s.calls[n]?).bind fun c => s.actCall n c (.addParticipant n)
  | .join n now => (s.calls[n]?).bind fun c => s.actCall n c (.join n now)
  | .answer n => (s.calls[n]?).bind fun c => s.actCall n c (.answer n)
  | .delete n => (s.calls[n]?).bind fun c => s.actCall n c (.delete n)
  | .keepalive n now => (s.calls[n]?).bind fun c => s.actCall n c (.keepalive n now)

/-- Every request sees what the rooms hold after a step. -/
def observe (s : Sys) : Sys :=
  { s with calls := s.calls.map fun c => { c with heldIn := heldRooms s.rooms c.who ++ c.heldIn } }

end Sys

def step (env : Env) (s : Sys) (a : Action) : Option Sys := (s.act env a).map Sys.observe

/-! ## The good steps -/

/-- A join finds no entry of the device id, or one under the registration it joins with. -/
def noOther (who : Claims) (r : Room) : Bool := (r.participants.lookup who.deviceId).all (isUnder who)

/-- A room that was found is still there when it is joined, and a room is joined where the device has no entry under
another registration. -/
def good (s : Sys) : Action → Bool
  | .addParticipant n => (s.calls[n]?).all fun c =>
    match c.phase with
    | .addParticipant room => (s.rooms.lookup room).any (noOther c.who)
    | _ => true
  | .join n now => (s.calls[n]?).all fun c =>
    match c.phase with
    | .join room => ((s.rooms.sweep now).lookup room).all fun r => r.ownerUserId != c.who.userId || noOther c.who r
    | _ => true
  | _ => true

/-! ## Registrations -/

/-- A registration that is in the table, or that is older than the epoch of the device. -/
def Known (db : Db) (g : Claims) : Prop :=
  g.deviceId = adminDeviceId ∨
    (g.epoch ≤ db.epochOf g.deviceId ∧ (db.epochOf g.deviceId = g.epoch → db.userOf g.deviceId = some g.userId))

/-- The registration has ended. -/
def Dead (db : Db) (g : Claims) : Prop := sessionStillValid g db = false

theorem dead_iff {db : Db} {g : Claims} (h : Known db g) :
    Dead db g ↔ g.deviceId ≠ adminDeviceId ∧ g.epoch < db.epochOf g.deviceId := by
  simp only [Dead, sessionStillValid, Bool.or_eq_false_iff, beq_eq_false_iff_ne, Db.checkClaims]
  refine and_congr_right fun hadmin => ?_
  obtain ⟨hle, huser⟩ := h.resolve_left hadmin
  rw [← Bool.not_eq_true, checkRegistration_iff, not_and]
  constructor
  · intro hnot
    refine lt_of_le_of_ne hle fun heq => ?_
    exact hnot (huser heq.symm) heq.symm
  · exact fun hlt _ heq => absurd heq hlt.ne'

theorem Known.advances {db db' : Db} {g : Claims} (h : Known db g) (hdb : Advances db db') : Known db' g := by
  rcases h with hadmin | ⟨hle, huser⟩
  · exact .inl hadmin
  · have hepoch := hdb.epoch_le g.deviceId
    refine .inr ⟨hle.trans hepoch, fun heq => ?_⟩
    have hsame : db.epochOf g.deviceId = g.epoch := le_antisymm (heq ▸ hepoch) hle
    exact hdb.user_eq g.deviceId (heq.trans hsame.symm) g.userId (huser hsame)

/-- An ended registration never comes back. -/
theorem Dead.advances {db db' : Db} {g : Claims} (h : Dead db g) (hknown : Known db g) (hdb : Advances db db') :
    Dead db' g := by
  obtain ⟨hadmin, hlt⟩ := (dead_iff hknown).mp h
  exact (dead_iff (hknown.advances hdb)).mpr ⟨hadmin, hlt.trans_le (hdb.epoch_le g.deviceId)⟩

theorem known_of_checkClaims {db : Db} {g : Claims} (h : db.checkClaims g = true) : Known db g := by
  obtain ⟨huser, hepoch⟩ := checkRegistration_iff.mp h
  exact .inr ⟨hepoch.ge, fun _ => huser⟩

/-- Whoever is authenticated is registered. -/
theorem known_of_sessionIdentity {env : Env} {token : Token} {now : Int} {db : Db} {who : Claims}
    (h : sessionIdentity env token now db = .ok who) : Known db who := by
  unfold sessionIdentity at h
  split at h
  · next c hdevice =>
    cases h
    cases token with
    | device c =>
      simp only [decodeDeviceToken] at hdevice
      split at hdevice
      · next hcheck =>
        cases hdevice
        exact known_of_checkClaims hcheck
      · cases hdevice
    | user c exp => cases hdevice
  · cases token with
    | device c => cases h
    | user c exp =>
      simp only [decodeUserToken] at h
      split at h
      · cases h
      · split at h
        · next hcheck =>
          cases h
          rcases Bool.or_eq_true_iff.mp hcheck with hadmin | hcheck
          · exact .inl (beq_iff_eq.mp hadmin)
          · exact known_of_checkClaims hcheck
        · cases h

theorem sameRegistration_iff {a b : Claims} :
    sameRegistration a b = true ↔ a.deviceId = b.deviceId ∧ a.userId = b.userId ∧ a.epoch = b.epoch := by
  simp [sameRegistration, and_assoc]

theorem Dead.of_same {db : Db} {a b : Claims} (h : Dead db a) (hsame : sameRegistration b a = true) : Dead db b := by
  obtain ⟨hdevice, huser, hepoch⟩ := sameRegistration_iff.mp hsame
  simpa [Dead, sessionStillValid, Db.checkClaims, hdevice, huser, hepoch] using h

/-! ## Rooms -/

theorem holds_iff {rooms : Rooms} {room : Text} {who : Claims} : holds rooms room who = true ↔
    ∃ r, rooms.lookup room = some r ∧ ∃ c, r.participants.lookup who.deviceId = some c ∧
      ∃ w, c.registration = some w ∧ sameRegistration who w = true := by
  simp only [holds, isUnder, Option.any_eq_true]

theorem mem_heldRooms {rooms : Rooms} {room : Text} {who : Claims} (h : holds rooms room who = true) :
    room ∈ heldRooms rooms who := by
  obtain ⟨r, hr, -⟩ := holds_iff.mp h
  exact List.mem_map.mpr ⟨⟨room, r⟩, List.mem_filter.mpr ⟨mem_entries_iff.mpr hr, h⟩, rfl⟩

/-- The devices of a room are the ones they say they are, and the owner is the one who created it. -/
def RoomOk (db : Db) (log : List Event) (room : Text) (r : Room) : Prop :=
  ∃ owner, .created room owner ∈ log ∧ Known db owner ∧ ∀ d c, r.participants.lookup d = some c →
    ∃ w, c.registration = some w ∧ w.deviceId = d ∧ Known db w ∧ (c.isOwner = true → w = owner)

def RoomsOk (db : Db) (log : List Event) (rooms : Rooms) : Prop :=
  ∀ room r, rooms.lookup room = some r → RoomOk db log room r

theorem RoomOk.mono {db db' : Db} {log log' : List Event} {room : Text} {r : Room} (h : RoomOk db log room r)
    (hdb : Advances db db') (hlog : log ⊆ log') : RoomOk db' log' room r := by
  obtain ⟨owner, hcreated, hknown, hall⟩ := h
  refine ⟨owner, hlog hcreated, hknown.advances hdb, fun d c hc => ?_⟩
  obtain ⟨w, hw, hd, hknown, howner⟩ := hall d c hc
  exact ⟨w, hw, hd, hknown.advances hdb, howner⟩

/-- Fewer participants. -/
theorem RoomOk.sub {db : Db} {log : List Event} {room : Text} {r r' : Room} (h : RoomOk db log room r)
    (hsub : ∀ d c, r'.participants.lookup d = some c → r.participants.lookup d = some c) : RoomOk db log room r' := by
  obtain ⟨owner, hcreated, hknown, hall⟩ := h
  exact ⟨owner, hcreated, hknown, fun d c hc => hall d c (hsub d c hc)⟩

theorem RoomOk.join {db : Db} {log : List Event} {room : Text} {r : Room} (h : RoomOk db log room r) {who : Claims}
    (hwho : Known db who) : RoomOk db log room (r.join (.device who false)) := by
  obtain ⟨owner, hcreated, hknown, hall⟩ := h
  refine ⟨owner, hcreated, hknown, fun d c hc => ?_⟩
  simp only [Room.join, RoomClient.device, lookup_orInsert] at hc
  split at hc
  · next hd =>
    subst hd
    cases hold : r.participants.lookup who.deviceId with
    | some c' =>
      obtain rfl : c' = c := by simpa [hold] using hc
      exact hall _ _ hold
    | none =>
      obtain rfl : RoomClient.device who false = c := by simpa [hold, RoomClient.device] using hc
      exact ⟨who, rfl, rfl, hwho, fun hfalse => by cases hfalse⟩
  · exact hall d c hc

/-! ## What the operations leave of the rooms -/

section

variable {db : Db} {log : List Event} {rooms : Rooms}

theorem lookup_sweep {now : Nat} {room : Text} {r : Room} (h : (rooms.sweep now).lookup room = some r) :
    rooms.lookup room = some r := by
  rw [Rooms.sweep, lookup_retain, Option.filter_eq_some_iff] at h
  exact h.1

theorem roomsOk_sweep (h : RoomsOk db log rooms) (now : Nat) : RoomsOk db log (rooms.sweep now) :=
  fun room r hr => h room r (lookup_sweep hr)

/-- One room is changed in place. -/
theorem roomsOk_modify (h : RoomsOk db log rooms) {room : Text} {f : Room → Room}
    (hf : ∀ r, RoomOk db log room r → RoomOk db log room (f r)) : RoomsOk db log (rooms.modify room f) := by
  intro id r hr
  rw [lookup_modify] at hr
  split at hr
  · next hid =>
    subst hid
    obtain ⟨r, hold, rfl⟩ := Option.map_eq_some_iff.mp hr
    exact hf r (h id r hold)
  · exact h id r hr

theorem roomsOk_erase (h : RoomsOk db log rooms) (room : Text) : RoomsOk db log (rooms.erase room) := by
  intro id r hr
  rw [lookup_erase] at hr
  split at hr
  · cases hr
  · exact h id r hr

theorem RoomOk.leave {room : Text} {r : Room} (h : RoomOk db log room r) (d : Text) : RoomOk db log room (r.leave d) := by
  refine h.sub fun d' c hc => ?_
  rw [Room.leave, lookup_erase] at hc
  split at hc
  · cases hc
  · exact hc

theorem roomsOk_leaveOrClose (h : RoomsOk db log rooms) (room d : Text) : RoomsOk db log (rooms.leaveOrClose room d) := by
  unfold Rooms.leaveOrClose
  split
  · exact h
  · split
    · exact roomsOk_erase h room
    · exact roomsOk_modify h fun r hr => hr.leave d

theorem roomsOk_keepalive (h : RoomsOk db log rooms) (now : Nat) (room user : Text) :
    RoomsOk db log (rooms.keepalive now room user).1 := by
  unfold Rooms.keepalive
  dsimp only
  split
  · exact roomsOk_modify (roomsOk_sweep h now) fun r hr => hr
  · exact roomsOk_sweep h now

theorem roomsOk_joinAs (h : RoomsOk db log rooms) (now : Nat) (room : Text) {who : Claims} (hwho : Known db who) :
    RoomsOk db log (rooms.joinAs now room (.device who false)).1 := by
  unfold Rooms.joinAs
  dsimp only
  split
  · exact roomsOk_modify (roomsOk_sweep h now) fun r hr => hr.join hwho
  · exact roomsOk_sweep h now

theorem roomsOk_addParticipant (h : RoomsOk db log rooms) (room : Text) {who : Claims} (hwho : Known db who) :
    RoomsOk db log (rooms.addParticipant room who) := roomsOk_modify h fun _ hr => hr.join hwho

theorem roomsOk_dropRegistration (h : RoomsOk db log rooms) (p : Text × Claims) :
    RoomsOk db log (rooms.dropRegistration p) := by
  unfold Rooms.dropRegistration
  split
  · exact h
  · split
    · exact h
    · split
      · exact roomsOk_erase h _
      · exact roomsOk_modify h fun r hr => hr.leave _

theorem roomsOk_create (h : RoomsOk db log rooms) (now : Nat) (room : Text) (createdAt : Int) {owner : Claims}
    (howner : Known db owner) (hcreated : .created room owner ∈ log) :
    RoomsOk db log (rooms.create now room createdAt owner) := by
  intro id r hr
  rw [Rooms.create, lookup_insert] at hr
  split at hr
  · next hid =>
    subst hid
    obtain rfl := Option.some.inj hr
    refine ⟨owner, hcreated, howner, fun d c hc => ?_⟩
    simp only [Room.ofOwner, lookup_insert, lookup_empty] at hc
    split at hc
    · next hd =>
      obtain rfl := Option.some.inj hc
      exact ⟨owner, rfl, hd.symm, howner, fun _ => rfl⟩
    · cases hc
  · exact h id r (lookup_sweep hr)

/-- The registrations that a cleanup asks for are known. -/
theorem known_registrations (h : RoomsOk db log rooms) : ∀ p ∈ rooms.registrations, Known db p.2 := by
  rintro p hp
  obtain ⟨⟨room, r⟩, he, hp⟩ := List.mem_flatMap.mp hp
  obtain ⟨c, hc, hreg⟩ := List.mem_filterMap.mp hp
  obtain ⟨reg, hc', rfl⟩ := Option.map_eq_some_iff.mp hreg
  obtain ⟨d, hd⟩ := mem_values_iff.mp hc
  obtain ⟨owner, -, -, hall⟩ := h room r (mem_entries_iff.mp he)
  obtain ⟨w, hw, -, hknown, -⟩ := hall d c hd
  rw [hc'] at hw
  exact Option.some.inj hw ▸ hknown

/-- What a change of one room leaves of who is in the rooms. -/
theorem holds_modify {room : Text} {who : Claims} (h : holds rooms room who = true) (other : Text) {f : Room → Room}
    (hf : ∀ r, (r.participants.lookup who.deviceId).any (isUnder who) = true →
      ((f r).participants.lookup who.deviceId).any (isUnder who) = true) :
    holds (rooms.modify other f) room who = true := by
  unfold holds at h ⊢
  rw [lookup_modify]
  split
  · next heq =>
    subst heq
    obtain ⟨r, hr, hany⟩ := Option.any_eq_true .. |>.mp h
    rw [hr]
    exact hf r hany
  · exact h

theorem holds_join {room : Text} {who : Claims} (h : holds rooms room who = true) (other : Text) (client : RoomClient) :
    holds (rooms.modify other (Room.join client)) room who = true := by
  refine holds_modify h other fun r hany => ?_
  obtain ⟨c, hc, hunder⟩ := Option.any_eq_true .. |>.mp hany
  rw [Room.join, lookup_orInsert]
  split
  · next heq =>
    rw [← heq, hc]
    exact hunder
  · rw [hc]
    exact hunder

theorem holds_sweep {room : Text} {who : Claims} (h : holds rooms room who = true) (now : Nat) :
    holds (rooms.sweep now) room who = true ∨
      ∃ r, (⟨room, r⟩ : Sigma fun _ : Text => Room) ∈ rooms.entries ∧ r.isLive now = false := by
  obtain ⟨r, hr, hany⟩ := Option.any_eq_true .. |>.mp h
  cases hlive : r.isLive now with
  | false => exact .inr ⟨r, mem_entries_iff.mpr hr, hlive⟩
  | true =>
    refine .inl (Option.any_eq_true .. |>.mpr ⟨r, ?_, hany⟩)
    rw [Rooms.sweep, lookup_retain, hr, Option.filter_some, if_pos hlive]

theorem holds_leave {room : Text} {who : Claims} (h : holds rooms room who = true) (other d : Text) :
    holds (rooms.modify other (Room.leave d)) room who = true ∨ (room = other ∧ d = who.deviceId) := by
  by_cases hroom : room = other
  · by_cases hd : d = who.deviceId
    · exact .inr ⟨hroom, hd⟩
    · refine .inl (holds_modify h other fun r hany => ?_)
      rw [Room.leave, lookup_erase, if_neg fun heq => hd heq.symm]
      exact hany
  · refine .inl ?_
    unfold holds at h ⊢
    rw [lookup_modify, if_neg hroom]
    exact h

theorem holds_erase {room : Text} {who : Claims} (h : holds rooms room who = true) {other : Text} (hne : room ≠ other) :
    holds (rooms.erase other) room who = true := by
  unfold holds at h ⊢
  rw [lookup_erase, if_neg hne]
  exact h

/-- The client that owns a room is the device that created it. -/
theorem owner_of_isOwner (hrooms : RoomsOk db log rooms) {room : Text} {r : Room} (hr : rooms.lookup room = some r)
    {d : Text} {c : RoomClient} (hc : r.participants.lookup d = some c) (howner : c.isOwner = true) :
    ∃ owner, .created room owner ∈ log ∧ owner.deviceId = d ∧ c.registration = some owner := by
  obtain ⟨owner, hcreated, -, hall⟩ := hrooms room r hr
  obtain ⟨w, hw, hd, -, hisOwner⟩ := hall d c hc
  obtain rfl := hisOwner howner
  exact ⟨w, hcreated, hd, hw⟩

/-- A device leaves, or the room closes when it is the owner's. -/
theorem holds_leaveOrClose (hrooms : RoomsOk db log rooms) {room : Text} {who : Claims}
    (h : holds rooms room who = true) (other d : Text) :
    holds (rooms.leaveOrClose other d) room who = true ∨
      (room = other ∧ (d = who.deviceId ∨ ∃ owner, .created room owner ∈ log ∧ d = owner.deviceId)) := by
  unfold Rooms.leaveOrClose
  split
  · exact .inl h
  · next r hr =>
    split
    · next hany =>
      by_cases hroom : room = other
      · subst hroom
        obtain ⟨c, hc, howner⟩ := Option.any_eq_true .. |>.mp hany
        obtain ⟨owner, hcreated, hd, -⟩ := owner_of_isOwner hrooms hr hc howner
        exact .inr ⟨rfl, .inr ⟨owner, hcreated, hd.symm⟩⟩
      · exact .inl (holds_erase h hroom)
    · rcases holds_leave h other d with hkept | ⟨hroom, hd⟩
      · exact .inl hkept
      · exact .inr ⟨hroom, .inl hd⟩

/-- A cleanup takes out a registration that has ended, and with an owner its room. -/
theorem holds_dropRegistration (hrooms : RoomsOk db log rooms) {room : Text} {who : Claims}
    (h : holds rooms room who = true) {p : Text × Claims} (hdead : Dead db p.2) :
    holds (rooms.dropRegistration p) room who = true ∨ Dead db who ∨ ∃ owner, .created room owner ∈ log ∧ Dead db owner := by
  unfold Rooms.dropRegistration
  split
  · exact .inl h
  · next r hr =>
    split
    · exact .inl h
    · next c hfilter =>
      obtain ⟨hc, hreg⟩ := Option.filter_eq_some_iff.mp hfilter
      have hreg : c.registration = some p.2 := beq_iff_eq.mp hreg
      split
      · next howner =>
        by_cases hroom : room = p.1
        · subst hroom
          obtain ⟨owner, hcreated, -, hregistration⟩ := owner_of_isOwner hrooms hr hc howner
          rw [hreg] at hregistration
          exact .inr (.inr ⟨owner, hcreated, Option.some.inj hregistration ▸ hdead⟩)
        · exact .inl (holds_erase h hroom)
      · rcases holds_leave h p.1 p.2.deviceId with hkept | ⟨hroom, hd⟩
        · exact .inl hkept
        · -- the entry of the device is the one that is dropped, so it is under this registration
          subst hroom
          obtain ⟨r', hr', c', hc', w, hw, hsame⟩ := holds_iff.mp h
          rw [hr] at hr'
          obtain rfl := Option.some.inj hr'
          rw [← hd, hc] at hc'
          obtain rfl := Option.some.inj hc'
          rw [hreg] at hw
          exact .inr (.inl (hdead.of_same (Option.some.inj hw ▸ hsame)))

theorem dropRegistrations_ok (hrooms : RoomsOk db log rooms) (ended : List (Text × Claims)) :
    RoomsOk db log (rooms.dropRegistrations ended) := by
  induction ended generalizing rooms with
  | nil => exact hrooms
  | cons p ended ih => exact ih (roomsOk_dropRegistration hrooms p)

theorem holds_dropRegistrations (hrooms : RoomsOk db log rooms) {room : Text} {who : Claims}
    (h : holds rooms room who = true) {ended : List (Text × Claims)} (hdead : ∀ p ∈ ended, Dead db p.2) :
    holds (rooms.dropRegistrations ended) room who = true ∨ Dead db who ∨
      ∃ owner, .created room owner ∈ log ∧ Dead db owner := by
  induction ended generalizing rooms with
  | nil => exact .inl h
  | cons p ended ih =>
    rcases holds_dropRegistration hrooms h (hdead p List.mem_cons_self) with hkept | hover
    · exact ih (roomsOk_dropRegistration hrooms p) hkept fun q hq => hdead q (List.mem_cons_of_mem _ hq)
    · exact .inr hover

end

/-! ## The invariant -/

/-- Among the later events, the room timed out, or was deleted by the device or its owner; or the registration of the
device or of the owner has ended. -/
def Over (db : Db) (log : List Event) (who : Claims) (room : Text) (later : List Event) : Prop :=
  .timedOut room ∈ later ∨
    (∃ caller, .deleted caller room ∈ later ∧
      (caller.deviceId = who.deviceId ∨ ∃ owner, .created room owner ∈ log ∧ caller.deviceId = owner.deviceId)) ∨
    Dead db who ∨ ∃ owner, .created room owner ∈ log ∧ Dead db owner

structure Core (s : Sys) : Prop where
  rooms : RoomsOk s.db s.log s.rooms
  calls : ∀ c ∈ s.calls, Known s.db c.who
  cleanups : ∀ k ∈ s.cleanups, (∀ p ∈ k.todo, Known s.db p.2) ∧ ∀ p ∈ k.ended, Known s.db p.2 ∧ Dead s.db p.2
  admitted : ∀ who room, .admitted who room ∈ s.log → Known s.db who
  created : ∀ room owner, .created room owner ∈ s.log → Known s.db owner
  answers : ∀ later who room heldIn earlier, s.log = later ++ .answered who room heldIn :: earlier →
    room ∈ heldIn ∧ .admitted who room ∈ earlier
  stays : ∀ later who room earlier, s.log = later ++ .admitted who room :: earlier →
    holds s.rooms room who = true ∨ Over s.db s.log who room later

/-- A request that is to answer was admitted, and its room has held it. -/
def Answering (s : Sys) : Prop :=
  ∀ c ∈ s.calls, ∀ room, c.phase = .answer room → room ∈ c.heldIn ∧ .admitted c.who room ∈ s.log

/-- The same before the requests saw what the rooms hold. -/
def Answered (s : Sys) : Prop :=
  ∀ c ∈ s.calls, ∀ room, c.phase = .answer room →
    (room ∈ c.heldIn ∨ holds s.rooms room c.who = true) ∧ .admitted c.who room ∈ s.log

/-- An event of a log that has grown is an old one or a new one. -/
theorem split_append {α : Type} {later earlier events log : List α} {e : α}
    (h : events ++ log = later ++ e :: earlier) :
    (∃ between, later = events ++ between ∧ log = between ++ e :: earlier) ∨
      (e ∈ events ∧ ∃ rest, earlier = rest ++ log) := by
  rcases List.append_eq_append_iff.mp h with ⟨between, hlater, hlog⟩ | ⟨rest, hevents, hrest⟩
  · exact .inl ⟨between, hlater, hlog⟩
  · cases rest with
    | nil => exact .inl ⟨[], by simpa using hevents.symm, by simpa using hrest.symm⟩
    | cons e' rest =>
      obtain ⟨rfl, hearlier⟩ := List.cons.inj hrest
      exact .inr ⟨hevents ▸ List.mem_append_right _ List.mem_cons_self, rest, hearlier⟩

theorem Over.mono {db db' : Db} {log log' : List Event} {who : Claims} {room : Text} {later later' : List Event}
    (h : Over db log who room later) (hwho : Known db who) (hcreated : ∀ room owner, .created room owner ∈ log → Known db owner)
    (hdb : Advances db db') (hlog : log ⊆ log') (hlater : later ⊆ later') : Over db' log' who room later' := by
  rcases h with htimeout | ⟨caller, hdeleted, hcaller⟩ | hdead | ⟨owner, howner, hdead⟩
  · exact .inl (hlater htimeout)
  · refine .inr (.inl ⟨caller, hlater hdeleted, hcaller.imp_right ?_⟩)
    exact fun ⟨owner, howner, heq⟩ => ⟨owner, hlog howner, heq⟩
  · exact .inr (.inr (.inl (hdead.advances hwho hdb)))
  · exact .inr (.inr (.inr ⟨owner, hlog howner, hdead.advances (hcreated room owner howner) hdb⟩))

/-- What a step has to show: who was in a room is there after it, unless that is over. -/
theorem Core.change {s s' : Sys} (h : Core s) (events : List Event) (hlog : s'.log = events ++ s.log)
    (hdb : Advances s.db s'.db) (hrooms : RoomsOk s'.db s'.log s'.rooms) (hcalls : ∀ c ∈ s'.calls, Known s'.db c.who)
    (hcleanups : ∀ k ∈ s'.cleanups, (∀ p ∈ k.todo, Known s'.db p.2) ∧ ∀ p ∈ k.ended, Known s'.db p.2 ∧ Dead s'.db p.2)
    (hadmitted : ∀ who room, .admitted who room ∈ events → Known s'.db who ∧ holds s'.rooms room who = true)
    (hcreated : ∀ room owner, .created room owner ∈ events → Known s'.db owner)
    (hanswers : ∀ who room heldIn, .answered who room heldIn ∈ events → room ∈ heldIn ∧ .admitted who room ∈ s.log)
    (hkeep : ∀ who room, Known s.db who → holds s.rooms room who = true →
      holds s'.rooms room who = true ∨ Over s'.db s'.log who room events) : Core s' := by
  have hsub : s.log ⊆ s'.log := fun e he => hlog ▸ List.mem_append_right _ he
  have howners : ∀ room owner, .created room owner ∈ s'.log → Known s'.db owner := by
    intro room owner hmem
    rw [hlog] at hmem
    rcases List.mem_append.mp hmem with hmem | hmem
    · exact hcreated room owner hmem
    · exact (h.created room owner hmem).advances hdb
  constructor
  · exact hrooms
  · exact hcalls
  · exact hcleanups
  · intro who room hmem
    rw [hlog] at hmem
    rcases List.mem_append.mp hmem with hmem | hmem
    · exact (hadmitted who room hmem).1
    · exact (h.admitted who room hmem).advances hdb
  · exact howners
  · intro later who room heldIn earlier hsplit
    rw [hlog] at hsplit
    rcases split_append hsplit with ⟨between, -, hold⟩ | ⟨hnew, rest, rfl⟩
    · exact h.answers between who room heldIn earlier hold
    · obtain ⟨hheld, hwas⟩ := hanswers who room heldIn hnew
      exact ⟨hheld, List.mem_append_right _ hwas⟩
  · intro later who room earlier hsplit
    rw [hlog] at hsplit
    rcases split_append hsplit with ⟨between, rfl, hold⟩ | ⟨hnew, -⟩
    · have hwho : Known s.db who := h.admitted who room (hold ▸ List.mem_append_right _ List.mem_cons_self)
      rcases h.stays between who room earlier hold with hholds | hover
      · refine (hkeep who room hwho hholds).imp_right fun hover => ?_
        exact hover.mono (hwho.advances hdb) howners (Advances.refl _) (fun _ he => he)
          fun _ he => List.mem_append_left _ he
      · exact .inr (hover.mono hwho h.created hdb hsub fun _ he => List.mem_append_right _ he)
    · exact .inl (hadmitted who room hnew).2

theorem Answering.answered {s s' : Sys} (h : Answering s) (hlog : s.log ⊆ s'.log)
    (hcalls : ∀ c ∈ s'.calls, c ∈ s.calls ∨ ∀ room, c.phase = .answer room →
      holds s'.rooms room c.who = true ∧ .admitted c.who room ∈ s'.log) : Answered s' := by
  intro c hc room hphase
  rcases hcalls c hc with hold | hnew
  · obtain ⟨hheld, hadmitted⟩ := h c hold room hphase
    exact ⟨.inl hheld, hlog hadmitted⟩
  · obtain ⟨hholds, hadmitted⟩ := hnew room hphase
    exact ⟨.inr hholds, hadmitted⟩

/-! ## The steps -/

section

variable {env : Env} {s s' : Sys} {n : Nat} {c : Call}

theorem mem_timeouts {now : Nat} {e : Event} (h : e ∈ s.timeouts now) : ∃ room, e = .timedOut room := by
  obtain ⟨⟨room, r⟩, -, rfl⟩ := List.mem_map.mp h
  exact ⟨room, rfl⟩

theorem holds_or_timedOut {room : Text} {who : Claims} (h : holds s.rooms room who = true) (now : Nat) :
    holds (s.rooms.sweep now) room who = true ∨ .timedOut room ∈ s.timeouts now := by
  rcases holds_sweep h now with hkept | ⟨r, hr, hdead⟩
  · exact .inl hkept
  · exact .inr (List.mem_map.mpr ⟨⟨room, r⟩, List.mem_filter.mpr ⟨hr, by rw [hdead]; rfl⟩, rfl⟩)

/-- A step on the table of devices. -/
theorem kept_db (h : Core s) (ha : Answering s) {db : Db} (hdb : Advances s.db db) :
    Core { s with db := db } ∧ Answered { s with db := db } := by
  constructor
  · refine h.change [] rfl hdb (fun room r hr => (h.rooms room r hr).mono hdb fun _ he => he)
      (fun c hc => (h.calls c hc).advances hdb) (fun k hk => ?_) (fun _ _ he => by cases he) (fun _ _ he => by cases he)
      (fun _ _ _ he => by cases he) fun _ _ _ hholds => .inl hholds
    obtain ⟨htodo, hended⟩ := h.cleanups k hk
    exact ⟨fun p hp => (htodo p hp).advances hdb,
      fun p hp => ⟨(hended p hp).1.advances hdb, (hended p hp).2.advances (hended p hp).1 hdb⟩⟩
  · exact ha.answered (fun _ he => he) fun c hc => .inl hc

/-- A step on the cleanups. -/
theorem kept_cleanups (h : Core s) (ha : Answering s) {cleanups : List Cleanup}
    (hcleanups : ∀ k ∈ cleanups, (∀ p ∈ k.todo, Known s.db p.2) ∧ ∀ p ∈ k.ended, Known s.db p.2 ∧ Dead s.db p.2) :
    Core { s with cleanups := cleanups } ∧ Answered { s with cleanups := cleanups } := by
  constructor
  · exact h.change [] rfl (Advances.refl _) h.rooms h.calls hcleanups (fun _ _ he => by cases he)
      (fun _ _ he => by cases he) (fun _ _ _ he => by cases he) fun _ _ _ hholds => .inl hholds
  · exact ha.answered (fun _ he => he) fun c hc => .inl hc

/-- A step of the requests on the rooms. -/
theorem kept_rooms (h : Core s) (ha : Answering s) {rooms : Rooms} {calls : List Call} (events : List Event)
    (hrooms : RoomsOk s.db (events ++ s.log) rooms)
    (hcalls : ∀ c ∈ calls, c ∈ s.calls ∨ (Known s.db c.who ∧ ∀ room, c.phase = .answer room →
      holds rooms room c.who = true ∧ .admitted c.who room ∈ events))
    (hadmitted : ∀ who room, .admitted who room ∈ events → Known s.db who ∧ holds rooms room who = true)
    (hcreated : ∀ room owner, .created room owner ∈ events → Known s.db owner)
    (hanswers : ∀ who room heldIn, .answered who room heldIn ∈ events → room ∈ heldIn ∧ .admitted who room ∈ s.log)
    (hkeep : ∀ who room, holds s.rooms room who = true →
      holds rooms room who = true ∨ Over s.db (events ++ s.log) who room events) :
    Core { s with rooms := rooms, calls := calls, log := events ++ s.log } ∧
      Answered { s with rooms := rooms, calls := calls, log := events ++ s.log } := by
  constructor
  · refine h.change events rfl (Advances.refl _) hrooms (fun c hc => ?_) h.cleanups hadmitted hcreated hanswers
      fun who room _ => hkeep who room
    rcases hcalls c hc with hold | ⟨hknown, -⟩
    · exact h.calls c hold
    · exact hknown
  · refine ha.answered (fun _ he => List.mem_append_right _ he) fun c hc => (hcalls c hc).imp_right fun hnew room hphase => ?_
    obtain ⟨hholds, hmem⟩ := hnew.2 room hphase
    exact ⟨hholds, List.mem_append_left _ hmem⟩

theorem roomsOk_log (h : Core s) (events : List Event) : RoomsOk s.db (events ++ s.log) s.rooms :=
  fun room r hr => (h.rooms room r hr).mono (Advances.refl _) fun _ he => List.mem_append_right _ he

/-- A step whose events are those of a sweep, and in which no one is admitted. -/
theorem kept_swept (h : Core s) (ha : Answering s) {now : Nat} {rooms : Rooms} {calls : List Call}
    (hrooms : RoomsOk s.db (s.timeouts now ++ s.log) rooms)
    (hcalls : ∀ c ∈ calls, c ∈ s.calls ∨ (Known s.db c.who ∧ ∀ room, c.phase ≠ .answer room))
    (hkeep : ∀ who room, holds (s.rooms.sweep now) room who = true → holds rooms room who = true) :
    Core { s with rooms := rooms, calls := calls, log := s.timeouts now ++ s.log } ∧
      Answered { s with rooms := rooms, calls := calls, log := s.timeouts now ++ s.log } := by
  refine kept_rooms h ha _ hrooms (fun c hc => (hcalls c hc).imp_right ?_) (fun _ _ he => ?_) (fun _ _ he => ?_)
    (fun _ _ _ he => ?_) fun who room hholds => ?_
  · exact fun ⟨hknown, hphase⟩ => ⟨hknown, fun room heq => absurd heq (hphase room)⟩
  · obtain ⟨_, heq⟩ := mem_timeouts he
    cases heq
  · obtain ⟨_, heq⟩ := mem_timeouts he
    cases heq
  · obtain ⟨_, heq⟩ := mem_timeouts he
    cases heq
  · rcases holds_or_timedOut hholds now with hkept | htimeout
    · exact .inl (hkeep who room hkept)
    · exact .inr (.inl htimeout)

/-- A request has joined a room that holds its device. -/
theorem kept_joined (h : Core s) (ha : Answering s) (hn : s.calls[n]? = some c) {room : Text} {rooms : Rooms}
    {events : List Event} (htimeouts : ∀ e ∈ events, ∃ room, e = .timedOut room)
    (hrooms : RoomsOk s.db (events ++ s.log) rooms) (hholds : holds rooms room c.who = true)
    (hkeep : ∀ who room, holds s.rooms room who = true → holds rooms room who = true ∨ .timedOut room ∈ events) :
    Core (s.joined n c room rooms events) ∧ Answered (s.joined n c room rooms events) := by
  have hknown : Known s.db c.who := h.calls c (List.mem_of_getElem? hn)
  rw [Sys.joined, if_pos hholds]
  refine kept_rooms h ha (.admitted c.who room :: events) ?_ ?_ (fun who room' he => ?_) (fun room' owner he => ?_)
    (fun who room' heldIn he => ?_) fun who room' hwas => ?_
  · exact fun id r hr => (hrooms id r hr).mono (Advances.refl _) fun _ he => List.mem_cons_of_mem _ he
  · refine Processes.forall_set (fun q hq => .inl hq) (.inr ⟨hknown, fun room' hphase => ?_⟩)
    obtain rfl := Phase.answer.inj hphase
    exact ⟨hholds, List.mem_cons_self⟩
  · rcases List.mem_cons.mp he with heq | he
    · obtain ⟨rfl, rfl⟩ := Event.admitted.inj heq
      exact ⟨hknown, hholds⟩
    · obtain ⟨_, heq⟩ := htimeouts _ he
      cases heq
  · rcases List.mem_cons.mp he with heq | he
    · cases heq
    · obtain ⟨_, heq⟩ := htimeouts _ he
      cases heq
  · rcases List.mem_cons.mp he with heq | he
    · cases heq
    · obtain ⟨_, heq⟩ := htimeouts _ he
      cases heq
  · exact (hkeep who room' hwas).imp_right fun htimeout => .inl (List.mem_cons_of_mem _ htimeout)

theorem erased (c' : Call) (hc : c' ∈ s.calls.eraseIdx n) (P : Prop) : c' ∈ s.calls ∨ P :=
  .inl (List.mem_of_mem_eraseIdx hc)

theorem kept_create (h : Core s) (ha : Answering s) (hn : s.calls[n]? = some c) {now : Nat} {room : Text} {createdAt : Int}
    (hact : s.actCall n c (.create n now room createdAt) = some s') : Core s' ∧ Answered s' := by
  simp only [Sys.actCall, Option.ite_none_right_eq_some, Option.some.injEq] at hact
  obtain ⟨⟨-, hfresh⟩, rfl⟩ := hact
  have hknown : Known s.db c.who := h.calls c (List.mem_of_getElem? hn)
  refine kept_rooms h ha (.created room c.who :: s.timeouts now) ?_ (fun q hq => erased q hq _)
    (fun who room' he => ?_) (fun room' owner he => ?_) (fun who room' heldIn he => ?_) fun who room' hholds => ?_
  · exact roomsOk_create (roomsOk_log h _) now room createdAt hknown (List.mem_append_left _ List.mem_cons_self)
  · rcases List.mem_cons.mp he with heq | he
    · cases heq
    · obtain ⟨_, heq⟩ := mem_timeouts he
      cases heq
  · rcases List.mem_cons.mp he with heq | he
    · obtain ⟨rfl, rfl⟩ := Event.created.inj heq
      exact hknown
    · obtain ⟨_, heq⟩ := mem_timeouts he
      cases heq
  · rcases List.mem_cons.mp he with heq | he
    · cases heq
    · obtain ⟨_, heq⟩ := mem_timeouts he
      cases heq
  · -- the room that held the device was created before, so it is another one
    have hne : room' ≠ room := by
      rintro rfl
      obtain ⟨r, hr, -⟩ := holds_iff.mp hholds
      obtain ⟨owner, hcreated, -⟩ := h.rooms room' r hr
      rw [Sys.isFresh, Bool.not_eq_true', List.any_eq_false] at hfresh
      exact hfresh _ hcreated (beq_self_eq_true _)
    rcases holds_or_timedOut hholds now with hkept | htimeout
    · refine .inl ?_
      unfold holds at hkept ⊢
      rw [Rooms.create, lookup_insert, if_neg hne]
      exact hkept
    · exact .inr (.inl (List.mem_cons_of_mem _ htimeout))

theorem kept_findActive (h : Core s) (ha : Answering s) (hn : s.calls[n]? = some c) {now : Nat} {found : Option Text}
    (hact : s.actCall n c (.findActive n now found) = some s') : Core s' ∧ Answered s' := by
  simp only [Sys.actCall, Option.ite_none_right_eq_some, Option.some.injEq] at hact
  obtain ⟨-, rfl⟩ := hact
  refine kept_swept h ha (roomsOk_sweep (roomsOk_log h _) now) (fun q hq => ?_) fun _ _ hkept => hkept
  cases found with
  | none => exact erased q hq _
  | some room =>
    rcases List.mem_or_eq_of_mem_set hq with hq | rfl
    · exact .inl hq
    · exact .inr ⟨h.calls c (List.mem_of_getElem? hn), fun room hphase => by cases hphase⟩

theorem holds_self {rooms : Rooms} {room : Text} {r : Room} (hr : rooms.lookup room = some r) {who : Claims}
    (hother : noOther who r = true) : holds (rooms.modify room (Room.join (.device who false))) room who = true := by
  unfold holds
  rw [lookup_modify, if_pos rfl, hr, Option.map_some, Option.any_some, Room.join, RoomClient.device, lookup_orInsert,
    if_pos rfl, Option.any_some]
  unfold noOther at hother
  cases hentry : r.participants.lookup who.deviceId with
  | some c =>
    rw [hentry, Option.all_some] at hother
    exact hother
  | none => simp [isUnder, sameRegistration]

theorem kept_addParticipant (h : Core s) (ha : Answering s) (hn : s.calls[n]? = some c)
    (hgood : good s (.addParticipant n) = true) (hact : s.actCall n c (.addParticipant n) = some s') :
    Core s' ∧ Answered s' := by
  simp only [good, hn, Option.all_some] at hgood
  cases hphase : c.phase with
  | addParticipant room =>
    simp only [hphase] at hgood
    obtain ⟨r, hr, hother⟩ := Option.any_eq_true .. |>.mp hgood
    simp only [Sys.actCall, hphase, Option.some.injEq] at hact
    subst hact
    refine kept_joined h ha hn (fun e he => by cases he) ?_ (holds_self hr hother) fun who room' hholds => .inl ?_
    · exact roomsOk_addParticipant (roomsOk_log h []) room (h.calls c (List.mem_of_getElem? hn))
    · exact holds_join hholds room _
  | _ =>
    simp only [Sys.actCall, hphase] at hact
    cases hact

theorem holds_touch {rooms : Rooms} {room : Text} {who : Claims} (h : holds rooms room who = true) (other : Text)
    (now : Nat) : holds (rooms.modify other (Room.touch now)) room who = true :=
  holds_modify h other fun _ hany => hany

/-- Only what a change does to the participants matters. -/
theorem holds_modify_congr {rooms : Rooms} {room other : Text} {who : Claims} {f g : Room → Room}
    (hfg : ∀ r, (f r).participants = (g r).participants) :
    holds (rooms.modify other f) room who = holds (rooms.modify other g) room who := by
  unfold holds
  rw [lookup_modify, lookup_modify]
  split
  · cases rooms.lookup other with
    | none => rfl
    | some r => simp only [Option.map_some, Option.any_some, hfg]
  · rfl

theorem joinAs_eq_true {rooms rooms' : Rooms} {now : Nat} {room : Text} {client : RoomClient}
    (h : rooms.joinAs now room client = (rooms', true)) :
    ∃ r, (rooms.sweep now).lookup room = some r ∧ r.ownerUserId = client.userId ∧
      rooms' = (rooms.sweep now).modify room fun r => (r.join client).touch now := by
  unfold Rooms.joinAs at h
  dsimp only at h
  split at h
  · next howner =>
    obtain ⟨r, hr, hmine⟩ := Option.any_eq_true .. |>.mp howner
    exact ⟨r, hr, beq_iff_eq.mp hmine, (Prod.mk.inj h).1.symm⟩
  · cases h

theorem joinAs_eq_false {rooms rooms' : Rooms} {now : Nat} {room : Text} {client : RoomClient}
    (h : rooms.joinAs now room client = (rooms', false)) : rooms' = rooms.sweep now := by
  unfold Rooms.joinAs at h
  dsimp only at h
  split at h
  · cases h
  · exact (Prod.mk.inj h).1.symm

theorem kept_join (h : Core s) (ha : Answering s) (hn : s.calls[n]? = some c) {now : Nat}
    (hgood : good s (.join n now) = true) (hact : s.actCall n c (.join n now) = some s') : Core s' ∧ Answered s' := by
  have hknown : Known s.db c.who := h.calls c (List.mem_of_getElem? hn)
  simp only [good, hn, Option.all_some] at hgood
  cases hphase : c.phase with
  | join room =>
    simp only [hphase] at hgood
    have hrooms := roomsOk_joinAs (roomsOk_log h (s.timeouts now)) now room hknown
    simp only [Sys.actCall, hphase] at hact
    split at hact
    · next rooms heq =>
      obtain rfl := Option.some.inj hact
      rw [heq] at hrooms
      obtain ⟨r, hr, howner, rfl⟩ := joinAs_eq_true heq
      have hother : noOther c.who r = true := by
        rw [hr, Option.all_some, howner] at hgood
        simpa [RoomClient.device] using hgood
      have hjoin : ∀ room' who, holds ((s.rooms.sweep now).modify room fun r => (r.join (.device c.who false)).touch now)
          room' who = holds ((s.rooms.sweep now).modify room (Room.join (.device c.who false))) room' who :=
        fun _ _ => holds_modify_congr fun _ => rfl
      refine kept_joined h ha hn (fun e he => mem_timeouts he) hrooms ?_ fun who room' hholds => ?_
      · rw [hjoin]
        exact holds_self hr hother
      · rw [hjoin]
        exact (holds_or_timedOut hholds now).imp_left fun hkept => holds_join hkept room _
    · next rooms heq =>
      obtain rfl := Option.some.inj hact
      rw [heq] at hrooms
      obtain rfl := joinAs_eq_false heq
      exact kept_swept h ha hrooms (fun q hq => erased q hq _) fun _ _ hkept => hkept
  | _ =>
    simp only [Sys.actCall, hphase] at hact
    cases hact

theorem kept_answer (h : Core s) (ha : Answering s) (hn : s.calls[n]? = some c)
    (hact : s.actCall n c (.answer n) = some s') : Core s' ∧ Answered s' := by
  cases hphase : c.phase with
  | answer room =>
    simp only [Sys.actCall, hphase, Option.some.injEq] at hact
    subst hact
    obtain ⟨hheld, hadmitted⟩ := ha c (List.mem_of_getElem? hn) room hphase
    refine kept_rooms h ha [.answered c.who room c.heldIn] (roomsOk_log h _) (fun q hq => erased q hq _)
      (fun who room' he => ?_) (fun room' owner he => ?_) (fun who room' heldIn he => ?_) fun _ _ hholds => .inl hholds
    · cases List.mem_singleton.mp he
    · cases List.mem_singleton.mp he
    · obtain ⟨rfl, rfl, rfl⟩ := Event.answered.inj (List.mem_singleton.mp he)
      exact ⟨hheld, hadmitted⟩
  | _ =>
    simp only [Sys.actCall, hphase] at hact
    cases hact

theorem kept_delete (h : Core s) (ha : Answering s) (hact : s.actCall n c (.delete n) = some s') :
    Core s' ∧ Answered s' := by
  cases hphase : c.phase with
  | delete room =>
    simp only [Sys.actCall, hphase, Option.some.injEq] at hact
    subst hact
    refine kept_rooms h ha [.deleted c.who room] (roomsOk_leaveOrClose (roomsOk_log h _) room _)
      (fun q hq => erased q hq _) (fun who room' he => ?_) (fun room' owner he => ?_) (fun who room' heldIn he => ?_)
      fun who room' hholds => ?_
    · cases List.mem_singleton.mp he
    · cases List.mem_singleton.mp he
    · cases List.mem_singleton.mp he
    · rcases holds_leaveOrClose (roomsOk_log h [.deleted c.who room]) hholds room c.who.deviceId with hkept | ⟨rfl, hcaller⟩
      · exact .inl hkept
      · exact .inr (.inr (.inl ⟨c.who, List.mem_cons_self, hcaller⟩))
  | _ =>
    simp only [Sys.actCall, hphase] at hact
    cases hact

theorem kept_keepalive (h : Core s) (ha : Answering s) {now : Nat}
    (hact : s.actCall n c (.keepalive n now) = some s') : Core s' ∧ Answered s' := by
  cases hphase : c.phase with
  | keepalive room =>
    simp only [Sys.actCall, hphase, Option.some.injEq] at hact
    subst hact
    refine kept_swept h ha (roomsOk_keepalive (roomsOk_log h _) now room _) (fun q hq => erased q hq _) fun who room' hkept => ?_
    unfold Rooms.keepalive
    dsimp only
    split
    · exact holds_touch hkept room now
    · exact hkept
  | _ =>
    simp only [Sys.actCall, hphase] at hact
    cases hact

theorem kept_check (h : Core s) (ha : Answering s) {k k' : Cleanup} (hn : s.cleanups[n]? = some k) {databaseError : Bool}
    (hcheck : s.check k databaseError = some k') :
    Core { s with cleanups := s.cleanups.set n k' } ∧ Answered { s with cleanups := s.cleanups.set n k' } := by
  refine kept_cleanups h ha (Processes.forall_set h.cleanups ?_)
  obtain ⟨htodo, hended⟩ := h.cleanups k (List.mem_of_getElem? hn)
  unfold Sys.check at hcheck
  split at hcheck
  · cases hcheck
  · next p todo heq =>
    rw [heq] at htodo
    have htodo' : ∀ q ∈ todo, Known s.db q.2 := fun q hq => htodo q (List.mem_cons_of_mem _ hq)
    split at hcheck
    · cases hcheck
      exact ⟨htodo', hended⟩
    · next hinvalid =>
      cases hcheck
      refine ⟨htodo', fun q hq => ?_⟩
      rcases List.mem_cons.mp hq with rfl | hq
      · rw [Bool.not_eq_true, Bool.or_eq_false_iff] at hinvalid
        exact ⟨htodo _ List.mem_cons_self, hinvalid.2⟩
      · exact hended q hq

theorem kept_drop (h : Core s) (ha : Answering s) {k : Cleanup} (hn : s.cleanups[n]? = some k) :
    Core { s with rooms := s.rooms.dropRegistrations k.ended, cleanups := s.cleanups.eraseIdx n } ∧
      Answered { s with rooms := s.rooms.dropRegistrations k.ended, cleanups := s.cleanups.eraseIdx n } := by
  obtain ⟨-, hended⟩ := h.cleanups k (List.mem_of_getElem? hn)
  have hdropped := kept_rooms h ha [] (dropRegistrations_ok (roomsOk_log h []) k.ended) (fun q hq => .inl hq)
    (fun _ _ he => by cases he) (fun _ _ he => by cases he) (fun _ _ _ he => by cases he) fun who room hholds =>
      (holds_dropRegistrations h.rooms hholds fun p hp => (hended p hp).2).imp_right fun hover => .inr (.inr hover)
  have herased := Processes.forall_eraseIdx (n := n) h.cleanups
  have hcore : Core { s with rooms := s.rooms.dropRegistrations k.ended, cleanups := s.cleanups.eraseIdx n } :=
    { hdropped.1 with cleanups := herased }
  exact ⟨hcore, hdropped.2⟩

theorem kept_request (h : Core s) (ha : Answering s) {token : Token} {now : Int} {phase : Phase}
    (hact : s.act env (.request token now phase) = some s') : Core s' ∧ Answered s' := by
  simp only [Sys.act] at hact
  split at hact
  · next who hwho =>
    rw [Option.ite_none_right_eq_some, Option.some.injEq] at hact
    obtain ⟨hbegins, rfl⟩ := hact
    refine kept_rooms h ha [] (roomsOk_log h []) (fun q hq => ?_) (fun _ _ he => by cases he)
      (fun _ _ he => by cases he) (fun _ _ _ he => by cases he) fun _ _ hholds => .inl hholds
    rcases List.mem_cons.mp hq with rfl | hq
    · refine .inr ⟨known_of_sessionIdentity hwho, fun room hphase => ?_⟩
      obtain rfl : phase = .answer room := hphase
      cases hbegins
    · exact .inl hq
  · cases hact

theorem kept_act (h : Core s) (ha : Answering s) {a : Action} (hgood : good s a = true) (hact : s.act env a = some s') :
    Core s' ∧ Answered s' := by
  cases a with
  | register deviceId deviceDesc userId now =>
    simp only [Sys.act] at hact
    split at hact
    · next db _ _ hregister =>
      obtain rfl := Option.some.inj hact
      exact kept_db h ha (register_advances hregister)
    · obtain rfl := Option.some.inj hact
      exact kept_db h ha (Advances.refl _)
  | unregister deviceId owner =>
    obtain rfl := Option.some.inj hact
    exact kept_db h ha (DeviceTokens.unregister_advances deviceId owner)
  | request token now phase => exact kept_request h ha hact
  | create n now room createdAt =>
    obtain ⟨c, hn, hact⟩ := Option.bind_eq_some_iff.mp hact
    exact kept_create h ha hn hact
  | findActive n now found =>
    obtain ⟨c, hn, hact⟩ := Option.bind_eq_some_iff.mp hact
    exact kept_findActive h ha hn hact
  | addParticipant n =>
    obtain ⟨c, hn, hact⟩ := Option.bind_eq_some_iff.mp hact
    exact kept_addParticipant h ha hn hgood hact
  | join n now =>
    obtain ⟨c, hn, hact⟩ := Option.bind_eq_some_iff.mp hact
    exact kept_join h ha hn hgood hact
  | answer n =>
    obtain ⟨c, hn, hact⟩ := Option.bind_eq_some_iff.mp hact
    exact kept_answer h ha hn hact
  | delete n =>
    obtain ⟨c, -, hact⟩ := Option.bind_eq_some_iff.mp hact
    exact kept_delete h ha hact
  | keepalive n now =>
    obtain ⟨c, -, hact⟩ := Option.bind_eq_some_iff.mp hact
    exact kept_keepalive h ha hact
  | sweep now =>
    obtain rfl := Option.some.inj hact
    exact kept_swept h ha (roomsOk_sweep (roomsOk_log h _) now) (fun q hq => .inl hq) fun _ _ hkept => hkept
  | cleanup device =>
    obtain rfl := Option.some.inj hact
    refine kept_cleanups h ha fun k hk => ?_
    rcases List.mem_cons.mp hk with rfl | hk
    · exact ⟨fun p hp => known_registrations h.rooms p (List.mem_of_mem_filter hp), fun p hp => by cases hp⟩
    · exact h.cleanups k hk
  | check n databaseError =>
    obtain ⟨k, hn, hact⟩ := Option.bind_eq_some_iff.mp hact
    obtain ⟨k', hcheck, rfl⟩ := Option.map_eq_some_iff.mp hact
    exact kept_check h ha hn hcheck
  | drop n =>
    obtain ⟨k, hn, hact⟩ := Option.bind_eq_some_iff.mp hact
    rw [Option.ite_none_right_eq_some, Option.some.injEq] at hact
    obtain ⟨-, rfl⟩ := hact
    exact kept_drop h ha hn

theorem Core.observe (h : Core s) : Core s.observe := by
  refine h.change [] rfl (Advances.refl _) h.rooms (fun c hc => ?_) h.cleanups (fun _ _ he => by cases he)
    (fun _ _ he => by cases he) (fun _ _ _ he => by cases he) fun _ _ _ hholds => .inl hholds
  obtain ⟨c, hmem, rfl⟩ := List.mem_map.mp hc
  exact h.calls c hmem

theorem Answered.observe (h : Answered s) : Answering s.observe := by
  intro c hc room hphase
  obtain ⟨c, hmem, rfl⟩ := List.mem_map.mp hc
  obtain ⟨hheld, hadmitted⟩ := h c hmem room hphase
  refine ⟨?_, hadmitted⟩
  rcases hheld with hheld | hholds
  · exact List.mem_append_right _ hheld
  · exact List.mem_append_left _ (mem_heldRooms hholds)

theorem kept_step {a : Action} (h : Core s ∧ Answering s) (hgood : good s a = true) (hstep : step env s a = some s') :
    Core s' ∧ Answering s' := by
  obtain ⟨s₁, hact, rfl⟩ := Option.map_eq_some_iff.mp hstep
  obtain ⟨hcore, hanswered⟩ := kept_act h.1 h.2 hgood hact
  exact ⟨hcore.observe, hanswered.observe⟩

theorem kept_empty : Core .empty ∧ Answering .empty := by
  constructor
  · constructor
    · exact fun room r hr => by cases hr
    · exact fun c hc => by cases hc
    · exact fun k hk => by cases hk
    · exact fun who room he => by cases he
    · exact fun room owner he => by cases he
    · exact fun later who room heldIn earlier heq => absurd heq.symm (List.append_ne_nil_of_right_ne_nil _ (List.cons_ne_nil _ _))
    · exact fun later who room earlier heq => absurd heq.symm (List.append_ne_nil_of_right_ne_nil _ (List.cons_ne_nil _ _))
  · exact fun c hc => by cases hc

end

/-! ## Runs -/

/-- Of every request that was answered, the room held the device under its registration while it was served; and who was
admitted to a room is in it until that is over. -/
def Kept (s : Sys) : Prop :=
  (∀ later who room heldIn earlier, s.log = later ++ .answered who room heldIn :: earlier →
    room ∈ heldIn ∧ .admitted who room ∈ earlier) ∧
  ∀ later who room earlier, s.log = later ++ .admitted who room :: earlier →
    holds s.rooms room who = true ∨ Over s.db s.log who room later

/-- In every run whose joins go into a room that is there, and that has no entry of the device under another
registration, the rooms keep whom they admitted. -/
theorem kept_of_good (env : Env) (as : List Action) (s : Sys)
    (hgood : AllGood (step env) (fun s a => good s a = true) .empty as) (hrun : run (step env) .empty as = some s) : Kept s := by
  have hkept : Core s ∧ Answering s :=
    invariant_of_allGood (fun _ _ _ hs hgood hstep => kept_step hs hgood hstep) kept_empty hgood hrun
  exact ⟨hkept.1.answers, hkept.1.stays⟩

/-- The tablet and the desktop are paired, and the tablet makes a room. -/
def tablet : Claims := ⟨"tablet".toList, "remarkable".toList, "u".toList, 0⟩

def desktop (epoch : Nat) : Claims := ⟨"desktop".toList, "desktop".toList, "u".toList, epoch⟩

def pairDesktop : Action := .register "desktop".toList "desktop".toList "u".toList 0

def sharing : List Action :=
  [.register "tablet".toList "remarkable".toList "u".toList 0, pairDesktop,
   .request (.device tablet) 0 .create, .create 0 0 "r".toList 0]

def joins (epoch : Nat) : List Action :=
  [.request (.device (desktop epoch)) 0 (.join "r".toList), .join 0 0, .answer 0]

def pairAgain : List Action := [.unregister "desktop".toList none, pairDesktop]

/-- A cleanup of every room, with two participants to ask for. -/
def cleansUp : List Action := [.cleanup none, .check 0 false, .check 0 false, .drop 0]

/-- The desktop is paired again after the cleanup has taken it out of the room, and the room times out later. -/
def joinsAgain : List Action :=
  sharing ++ joins 0 ++ [.unregister "desktop".toList none] ++ cleansUp ++ [pairDesktop] ++ joins 1 ++
    [.request (.device tablet) 0 (.keepalive "r".toList), .keepalive 0 (30 * 1000000000), .sweep (91 * 1000000000)]

theorem kept_of_good_joinsAgain : ∃ s, run (step DeviceSessions.midnightEnv) .empty joinsAgain = some s ∧ Kept s := by
  have hgood : AllGood (step DeviceSessions.midnightEnv) (fun s a => good s a = true) .empty joinsAgain := by decide +kernel
  have hend : (run (step DeviceSessions.midnightEnv) .empty joinsAgain).isSome = true := by decide +kernel
  obtain ⟨s, hrun⟩ := Option.isSome_iff_exists.mp hend
  exact ⟨s, hrun, kept_of_good _ joinsAgain s hgood hrun⟩

/-- The tablet closes the room after the desktop found it and before it joins. -/
def joinsClosed : List Action :=
  sharing ++ [.request (.device (desktop 0)) 0 .findActive, .findActive 0 0 (some "r".toList),
    .request (.device tablet) 0 (.delete "r".toList), .delete 0, .addParticipant 0, .answer 0]

/-- The desktop is paired again and joins before the cleanup. -/
def inherits : List Action := sharing ++ joins 0 ++ pairAgain ++ joins 1 ++ cleansUp

/-- One desktop is told that it joined a room that is closed, and the other that it joined a room that had only the entry
of its ended registration, and has none of it after the cleanup. -/
theorem joined_not_held :
    (∃ s, run (step DeviceSessions.midnightEnv) .empty joinsClosed = some s ∧ ¬Kept s) ∧
    ∃ s, run (step DeviceSessions.midnightEnv) .empty inherits = some s ∧ ¬Kept s ∧
      (s.rooms.lookup "r".toList).map (fun r => (r.participants.lookup "desktop".toList).isSome) = some false := by
  constructor
  · have hend : (run (step DeviceSessions.midnightEnv) .empty joinsClosed).map (·.log) =
        some [.answered (desktop 0) "r".toList [], .deleted tablet "r".toList, .created "r".toList tablet] := by
      decide +kernel
    obtain ⟨s, hrun, hlog⟩ := Option.map_eq_some_iff.mp hend
    refine ⟨s, hrun, fun h => ?_⟩
    obtain ⟨hheld, -⟩ := h.1 [] _ _ _ _ hlog
    cases hheld
  · have hend : (run (step DeviceSessions.midnightEnv) .empty inherits).map (fun s => (s.log,
        (s.rooms.lookup "r".toList).map fun r => (r.participants.lookup "desktop".toList).isSome)) =
        some ([.answered (desktop 1) "r".toList [], .answered (desktop 0) "r".toList ["r".toList],
          .admitted (desktop 0) "r".toList, .created "r".toList tablet], some false) := by
      decide +kernel
    obtain ⟨s, hrun, hs⟩ := Option.map_eq_some_iff.mp hend
    obtain ⟨hlog, hgone⟩ := Prod.mk.inj hs
    refine ⟨s, hrun, fun h => ?_, hgone⟩
    obtain ⟨hheld, -⟩ := h.1 [] _ _ _ _ hlog
    cases hheld

end ScreenshareMembers
