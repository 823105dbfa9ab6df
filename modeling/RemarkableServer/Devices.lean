import Mathlib.Data.Char
import Mathlib.Data.List.AList
import Mathlib.Data.List.Lex
import RemarkableServer.Lib.RustText

/-!
# Device registrations, tokens and sessions

`device.rs`: the table of registered devices, the revocation epochs kept beside it,
and what is checked against them. Every function of the database runs under the
connection mutex and is one step; tokens are minted after it was released. A token
is its claims: the signature is not modelled, and only minted tokens are presented.
-/
namespace Devices

open RustText

/-- The crates the manager calls: RFC 3339 texts of UTC times, and whether a token with an expiry has expired. -/
structure Env where
  rfc3339 : Int → Text
  parseRfc3339 : Text → Option Int
  expired : Int → Int → Bool

def adminDeviceId : Text := "admin".toList

/-- Seconds, and nanoseconds. -/
def userTokenLifetime : Int := 10800
def codeLifetime : Int := 600 * 1000000000

/-- The integers of SQLite. -/
def maxInteger : Nat := 9223372036854775807

/-! ## The database -/

structure Device where
  deviceDesc : Text
  registeredAt : Text
  lastRefresh : Text
  userId : Text
  deriving DecidableEq

structure PairingCode where
  userId : Text
  expiresAt : Text
  deriving DecidableEq

structure Db where
  devices : AList fun _ : Text => Device
  pendingCodes : AList fun _ : Text => PairingCode
  epochs : AList fun _ : Text => Nat

def Db.empty : Db := ⟨∅, ∅, ∅⟩

structure DeviceRevoked where
  userId : Text
  deviceId : Text
  deriving DecidableEq

inductive DeviceError where
  | reserved
  | database
  | codeNotFound
  | invalidExpiry
  | codeExpired
  | invalidToken
  deriving DecidableEq, Repr

namespace Db

def epochOf (deviceId : Text) (db : Db) : Nat := (db.epochs.lookup deviceId).getD 0

def userOf (deviceId : Text) (db : Db) : Option Text := (db.devices.lookup deviceId).map (·.userId)

def bumpEpoch (deviceId : Text) (db : Db) : Db :=
  { db with epochs := db.epochs.insert deviceId (db.epochOf deviceId + 1) }

/-- The registration that ended, if there was one and it was the owner's. -/
def unregister (deviceId : Text) (owner : Option Text) (db : Db) : Db × Option DeviceRevoked :=
  match (db.userOf deviceId).filter fun user => owner.all (· == user) with
  | some userId =>
    ({ db with devices := db.devices.erase deviceId }.bumpEpoch deviceId, some ⟨userId, deviceId⟩)
  | none => (db, none)

/-- `UPSERT_DEVICE`. -/
def upsert (deviceId deviceDesc userId now : Text) (db : Db) : Db :=
  let registeredAt := ((db.devices.lookup deviceId).map (·.registeredAt)).getD now
  { db with devices := db.devices.insert deviceId ⟨deviceDesc, registeredAt, now, userId⟩ }

/-- The epoch to mint tokens with, and the registration of another user that ended. The transaction is rolled
back when the epoch is not an integer of SQLite any more. -/
def register (env : Env) (deviceId deviceDesc userId : Text) (now : Int) (db : Db) :
    Except DeviceError (Db × Nat × Option DeviceRevoked) :=
  if deviceId == adminDeviceId then .error .reserved
  else
    let revoked := (db.userOf deviceId).filter (· != userId)
    let bumped := if revoked.isSome then db.bumpEpoch deviceId else db
    let epoch := bumped.epochOf deviceId
    if epoch ≤ maxInteger then
      .ok (bumped.upsert deviceId deviceDesc userId (env.rfc3339 now), epoch, revoked.map (⟨·, deviceId⟩))
    else .error .database

def createPairingCode (env : Env) (code userId : Text) (now : Int) (db : Db) : Db :=
  let expired := db.pendingCodes.entries.filter fun e => decide (e.2.expiresAt < env.rfc3339 now)
  let pendingCodes := (expired.map (·.1)).foldl (fun codes code => codes.erase code) db.pendingCodes
  if (pendingCodes.lookup code).isSome then { db with pendingCodes := pendingCodes }
  else { db with pendingCodes := pendingCodes.insert code ⟨userId, env.rfc3339 (now + codeLifetime)⟩ }

/-- The user the code was made for; it is gone when it was found. -/
def takeCode (env : Env) (code : Text) (now : Int) (db : Db) : Db × Except DeviceError Text :=
  match db.pendingCodes.lookup code with
  | none => (db, .error .codeNotFound)
  | some pending =>
    match env.parseRfc3339 pending.expiresAt with
    | none => (db, .error .invalidExpiry)
    | some expires =>
      ({ db with pendingCodes := db.pendingCodes.erase code },
        if now > expires then .error .codeExpired else .ok pending.userId)

/-- The device is registered to the user, at the epoch. -/
def checkRegistration (deviceId userId : Text) (epoch : Nat) (db : Db) : Bool :=
  db.userOf deviceId == some userId && db.epochOf deviceId == epoch

end Db

/-! ## Tokens -/

/-- What the tokens of a device say about it. -/
structure Claims where
  deviceId : Text
  deviceDesc : Text
  userId : Text
  epoch : Nat
  deriving DecidableEq

inductive Token where
  | device (claims : Claims)
  | user (claims : Claims) (exp : Int)
  deriving DecidableEq

def Token.claims : Token → Claims
  | .device claims => claims
  | .user claims _ => claims

def Db.checkClaims (c : Claims) (db : Db) : Bool := db.checkRegistration c.deviceId c.userId c.epoch

def decodeDeviceToken (token : Token) (db : Db) : Except DeviceError Claims :=
  match token with
  | .device c => if db.checkClaims c then .ok c else .error .invalidToken
  | .user .. => .error .invalidToken

/-- A token of the admin is tied to no registration. -/
def decodeUserToken (env : Env) (token : Token) (now : Int) (db : Db) : Except DeviceError Claims :=
  match token with
  | .device _ => .error .invalidToken
  | .user c exp =>
    if env.expired exp now then .error .invalidToken
    else if c.deviceId == adminDeviceId || db.checkClaims c then .ok c
    else .error .invalidToken

/-- `session_identity`, for a bearer token. -/
def sessionIdentity (env : Env) (token : Token) (now : Int) (db : Db) : Except DeviceError Claims :=
  match decodeDeviceToken token db with
  | .ok c => .ok c
  | .error _ => decodeUserToken env token now db

/-- The token's registration is checked and its refresh recorded under one lock. -/
def touchDeviceToken (env : Env) (token : Token) (now : Int) (db : Db) : Except DeviceError (Db × Claims) :=
  match decodeDeviceToken token db with
  | .error e => .error e
  | .ok c =>
    match db.devices.lookup c.deviceId with
    | none => .ok (db, c)
    | some device =>
      .ok ({ db with devices := db.devices.insert c.deviceId { device with lastRefresh := env.rfc3339 now } }, c)

def revokeDeviceToken (token : Token) (db : Db) : Db × Option DeviceRevoked :=
  match decodeDeviceToken token db with
  | .error _ => (db, none)
  | .ok c => db.unregister c.deviceId (some c.userId)

/-- `session_still_valid`, without database errors. -/
def sessionStillValid (c : Claims) (db : Db) : Bool := c.deviceId == adminDeviceId || db.checkClaims c

/-! ## What the functions of the database do -/

variable {env : Env} {db db' : Db} {deviceId : Text}

theorem checkRegistration_iff {userId : Text} {epoch : Nat} : db.checkRegistration deviceId userId epoch = true ↔
    db.userOf deviceId = some userId ∧ db.epochOf deviceId = epoch := by
  simp [Db.checkRegistration]

/-- Another registration of the device, or none, and a higher epoch; or all is as it was. -/
structure Advances (db db' : Db) : Prop where
  epoch_le : ∀ d, db.epochOf d ≤ db'.epochOf d
  user_eq : ∀ d, db'.epochOf d = db.epochOf d → ∀ u, db.userOf d = some u → db'.userOf d = some u

theorem Advances.refl (db : Db) : Advances db db := ⟨fun _ => Nat.le_refl _, fun _ _ _ hu => hu⟩

theorem userOf_erase (d : Text) : ({ db with devices := db.devices.erase deviceId } : Db).userOf d =
    if d = deviceId then none else db.userOf d := by
  unfold Db.userOf
  split
  case isTrue h =>
    subst h
    rw [AList.lookup_erase]
    rfl
  case isFalse h => rw [AList.lookup_erase_ne h]

theorem userOf_upsert (deviceDesc userId now : Text) (d : Text) :
    (db.upsert deviceId deviceDesc userId now).userOf d = if d = deviceId then some userId else db.userOf d := by
  unfold Db.userOf Db.upsert
  split
  case isTrue h =>
    subst h
    rw [AList.lookup_insert]
    rfl
  case isFalse h => rw [AList.lookup_insert_ne h]

theorem epochOf_bumpEpoch (d : Text) : (db.bumpEpoch deviceId).epochOf d =
    if d = deviceId then db.epochOf d + 1 else db.epochOf d := by
  unfold Db.epochOf Db.bumpEpoch
  split
  case isTrue h =>
    subst h
    rw [AList.lookup_insert]
    rfl
  case isFalse h => rw [AList.lookup_insert_ne h]

/-- What it means that a registration ended. -/
structure Ended (db db' : Db) (deviceId userId : Text) : Prop where
  before : db.userOf deviceId = some userId
  after : db'.userOf deviceId ≠ some userId
  epoch : ∀ d, db'.epochOf d = if d = deviceId then db.epochOf d + 1 else db.epochOf d
  others : ∀ d, d ≠ deviceId → db'.userOf d = db.userOf d

theorem Ended.advances {userId : Text} (h : Ended db db' deviceId userId) : Advances db db' := by
  refine ⟨fun d => ?_, fun d he u hu => ?_⟩
  · rw [h.epoch d]
    split <;> omega
  · by_cases hd : d = deviceId
    · rw [h.epoch d, if_pos hd] at he
      omega
    · rw [h.others d hd]
      exact hu

theorem unregister_cases (owner : Option Text) :
    db.unregister deviceId owner = (db, none) ∨
    ∃ userId, db.unregister deviceId owner = ((db.unregister deviceId owner).1, some ⟨userId, deviceId⟩) ∧
      Ended db (db.unregister deviceId owner).1 deviceId userId := by
  cases hfilter : (db.userOf deviceId).filter fun user => owner.all (· == user) with
  | none => exact .inl (by simp [Db.unregister, hfilter])
  | some userId =>
    have heq : db.unregister deviceId owner =
        ({ db with devices := db.devices.erase deviceId }.bumpEpoch deviceId, some ⟨userId, deviceId⟩) := by
      simp [Db.unregister, hfilter]
    rw [heq]
    refine .inr ⟨userId, rfl, (Option.filter_eq_some_iff.mp hfilter).1, ?_, fun d => epochOf_bumpEpoch d, fun d hd => ?_⟩
    · intro hafter
      have hnone : ({ db with devices := db.devices.erase deviceId } : Db).userOf deviceId = none :=
        (userOf_erase deviceId).trans (if_pos rfl)
      exact absurd (hnone.symm.trans hafter) (by simp)
    · exact (userOf_erase d).trans (if_neg hd)

/-- A registration starts or goes on, and one of another user ends. -/
theorem register_cases {deviceDesc userId : Text} {now : Int} {epoch : Nat} {revoked : Option DeviceRevoked}
    (h : db.register env deviceId deviceDesc userId now = .ok (db', epoch, revoked)) :
    deviceId ≠ adminDeviceId ∧ db'.userOf deviceId = some userId ∧ epoch = db'.epochOf deviceId ∧
      ((revoked = none ∧ (∀ d, db'.epochOf d = db.epochOf d) ∧ (∀ d, d ≠ deviceId → db'.userOf d = db.userOf d) ∧
        ∀ u, db.userOf deviceId = some u → u = userId) ∨
      ∃ other, revoked = some ⟨other, deviceId⟩ ∧ other ≠ userId ∧ Ended db db' deviceId other) := by
  by_cases hadmin : deviceId = adminDeviceId
  · simp [Db.register, hadmin] at h
  cases hfilter : (db.userOf deviceId).filter (· != userId) with
  | none =>
    simp only [Db.register, beq_iff_eq, hadmin, hfilter, Option.isSome_none, Bool.false_eq_true, if_false,
      Option.map_none] at h
    split at h
    case isFalse => exact nomatch h
    case isTrue =>
      cases h
      refine ⟨hadmin, by rw [userOf_upsert, if_pos rfl], rfl, .inl ⟨rfl, fun d => rfl, fun d hd => ?_, fun u hu => ?_⟩⟩
      · rw [userOf_upsert, if_neg hd]
      · rw [hu] at hfilter
        simpa [Option.filter] using hfilter
  | some other =>
    simp only [Db.register, beq_iff_eq, hadmin, hfilter, Option.isSome_some, if_true, if_false, Option.map_some] at h
    split at h
    case isFalse => exact nomatch h
    case isTrue =>
      cases h
      obtain ⟨hbefore, hne⟩ := Option.filter_eq_some_iff.mp hfilter
      have hother : other ≠ userId := by simpa using hne
      refine ⟨hadmin, by rw [userOf_upsert, if_pos rfl], rfl,
        .inr ⟨other, rfl, hother, hbefore, ?_, fun d => epochOf_bumpEpoch d, fun d hd => ?_⟩⟩
      · rw [userOf_upsert, if_pos rfl]
        exact fun h => hother (Option.some.inj h).symm
      · rw [userOf_upsert, if_neg hd]
        rfl

theorem register_advances {deviceDesc userId : Text} {now : Int} {epoch : Nat} {revoked : Option DeviceRevoked}
    (h : db.register env deviceId deviceDesc userId now = .ok (db', epoch, revoked)) : Advances db db' := by
  obtain ⟨-, huser, -, ⟨-, hepoch, hothers, hsame⟩ | ⟨other, -, -, hended⟩⟩ := register_cases h
  · refine ⟨fun d => (hepoch d).ge, fun d _ u hu => ?_⟩
    by_cases hd : d = deviceId
    · subst hd
      rw [huser, hsame u hu]
    · rw [hothers d hd]
      exact hu
  · exact hended.advances

end Devices
