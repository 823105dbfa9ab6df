import RemarkableServer.Devices
import RemarkableServer.Lib.Transition

/-!
# Open sessions of a revoked device

A session resolves its token, subscribes to the revocations and then checks that
its registration stands. A registration ends in one step with its announcement, so
a session that subscribed before is sent the event, and one that subscribed after
finds the registration gone. A receiver that is slow loses its oldest events and is
told so, and then checks again.
-/
namespace DeviceSessions

open RustText Devices Transition

/-- The events a receiver can be behind by. -/
def revocationCapacity : Nat := 64

inductive Phase where
  /-- The token was resolved. -/
  | resolved
  /-- Subscribed; the first check is to come. -/
  | subscribed
  | running
  | ended
  deriving DecidableEq

/-- `lost` says that the registration has not stood all the time since the token was resolved. -/
structure Session where
  claims : Claims
  phase : Phase
  queue : List DeviceRevoked
  lagged : Nat
  lost : Bool
  deriving DecidableEq

structure Sys where
  db : Db
  sessions : List Session

def Sys.empty : Sys := ⟨.empty, []⟩

namespace Session

def isFor (ev : DeviceRevoked) (session : Session) : Bool :=
  ev.userId == session.claims.userId && ev.deviceId == session.claims.deviceId

def listens (session : Session) : Bool := session.phase == .subscribed || session.phase == .running

/-- The broadcast channel keeps the last events for a receiver. -/
def push (ev : DeviceRevoked) (session : Session) : Session :=
  if session.queue.length < revocationCapacity then { session with queue := session.queue ++ [ev] }
  else { session with queue := session.queue.tail ++ [ev], lagged := session.lagged + 1 }

/-- The database has changed, and a registration may have ended. -/
def change (db : Db) (revoked : Option DeviceRevoked) (session : Session) : Session :=
  let lost := session.lost ||
    (session.claims.deviceId != adminDeviceId && db.userOf session.claims.deviceId != some session.claims.userId)
  match revoked with
  | some ev => if session.listens then { session with lost := lost }.push ev else { session with lost := lost }
  | none => { session with lost := lost }

/-- A check ends the session, or it goes on. -/
def check (db : Db) (session : Session) : Session :=
  { session with phase := if sessionStillValid session.claims db then .running else .ended }

/-- One event, or the lag, and what is done about it. -/
def receive (db : Db) (session : Session) : Option Session :=
  if session.phase == .running then
    if 0 < session.lagged then some ({ session with lagged := 0 }.check db)
    else
      match session.queue with
      | [] => none
      | ev :: queue =>
        some (if session.isFor ev then { session with queue := queue, phase := .ended }
          else { session with queue := queue })
  else none

end Session

inductive Action where
  | register (deviceId deviceDesc userId : Text) (now : Int)
  | unregister (deviceId : Text) (owner : Option Text)
  | resolve (token : Token) (now : Int)
  | subscribe (session : Nat)
  | check (session : Nat)
  | receive (session : Nat)
  | tick (session : Nat)

/-- The session at the position changes, where that is enabled. -/
def Sys.update (session : Nat) (f : Session → Option Session) (s : Sys) : Option Sys :=
  (s.sessions[session]?).bind fun old => (f old).map fun new => { s with sessions := s.sessions.set session new }

def Sys.change (db : Db) (revoked : Option DeviceRevoked) (s : Sys) : Sys :=
  ⟨db, s.sessions.map (Session.change db revoked)⟩

def step (env : Env) (s : Sys) : Action → Option Sys
  | .register deviceId deviceDesc userId now =>
    match s.db.register env deviceId deviceDesc userId now with
    | .ok (db, _, revoked) => some (s.change db revoked)
    | .error _ => some s
  | .unregister deviceId owner =>
    let unregistered := s.db.unregister deviceId owner
    some (s.change unregistered.1 unregistered.2)
  | .resolve token now =>
    match sessionIdentity env token now s.db with
    | .ok claims => some { s with sessions := ⟨claims, .resolved, [], 0, false⟩ :: s.sessions }
    | .error _ => none
  | .subscribe session => s.update session fun old =>
    if old.phase == .resolved then some { old with phase := .subscribed } else none
  | .check session => s.update session fun old =>
    if old.phase == .subscribed then some (old.check s.db) else none
  | .receive session => s.update session (Session.receive s.db)
  | .tick session => s.update session fun old => if old.phase == .running then some (old.check s.db) else none

/-! ## What holds of a session -/

variable {env : Env} {db db' : Db} {c : Claims} {lost : Bool} {session : Session} {s s' : Sys}

/-- The session is the admin's, or of the current epoch and registered, or of an epoch that has passed. -/
inductive Standing (db : Db) (c : Claims) : Bool → Prop
  | admin : c.deviceId = adminDeviceId → Standing db c false
  | stands : c.deviceId ≠ adminDeviceId → c.epoch = db.epochOf c.deviceId → db.userOf c.deviceId = some c.userId →
    Standing db c false
  | passed : c.deviceId ≠ adminDeviceId → c.epoch < db.epochOf c.deviceId → Standing db c true

theorem Standing.valid (h : Standing db c lost) : sessionStillValid c db = !lost := by
  cases h with
  | admin hadmin => simp [sessionStillValid, hadmin]
  | stands hadmin hepoch huser =>
    have hcheck : db.checkClaims c = true := checkRegistration_iff.mpr ⟨huser, hepoch.symm⟩
    simp [sessionStillValid, hcheck]
  | passed hadmin hepoch =>
    have hcheck : db.checkClaims c = false := by
      rw [← Bool.not_eq_true]
      intro hcheck
      have := (checkRegistration_iff.mp hcheck).2
      omega
    simp [sessionStillValid, hadmin, hcheck]

/-- The flag after the database has changed. -/
def lostAfter (db : Db) (c : Claims) (lost : Bool) : Bool :=
  lost || (c.deviceId != adminDeviceId && db.userOf c.deviceId != some c.userId)

/-- No registration ended. -/
theorem Standing.same (h : Standing db c lost) (hdb : Advances db db') (hepoch : ∀ d, db'.epochOf d = db.epochOf d) :
    lostAfter db' c lost = lost ∧ Standing db' c lost := by
  cases h with
  | admin hadmin => exact ⟨by simp [lostAfter, hadmin], .admin hadmin⟩
  | stands hadmin he huser =>
    have huser' := hdb.user_eq _ (hepoch _) _ huser
    exact ⟨by simp [lostAfter, huser'], .stands hadmin (he.trans (hepoch _).symm) huser'⟩
  | passed hadmin he => exact ⟨rfl, .passed hadmin ((hepoch _).symm ▸ he)⟩

/-- A registration ended: the session's own, or another. -/
theorem Standing.afterEnd (h : Standing db c lost) {deviceId userId : Text} (hended : Ended db db' deviceId userId)
    (hadmin : deviceId ≠ adminDeviceId) :
    Standing db' c (lostAfter db' c lost) ∧
      (lostAfter db' c lost = true → lost = true ∨ (deviceId = c.deviceId ∧ userId = c.userId)) ∧
      (deviceId = c.deviceId ∧ userId = c.userId → lostAfter db' c lost = true) := by
  cases h with
  | admin hc =>
    have hlost : lostAfter db' c false = false := by simp [lostAfter, hc]
    rw [hlost]
    exact ⟨.admin hc, fun h => (nomatch h), fun h => absurd (h.1.trans hc) hadmin⟩
  | stands hc he huser =>
    by_cases hd : deviceId = c.deviceId
    · subst hd
      have huserid : userId = c.userId := Option.some.inj (hended.before.symm.trans huser)
      subst huserid
      have hlost : lostAfter db' c false = true := by simpa [lostAfter, hc] using hended.after
      rw [hlost]
      refine ⟨.passed hc ?_, fun _ => .inr ⟨rfl, rfl⟩, fun _ => rfl⟩
      rw [hended.epoch, if_pos rfl]
      omega
    · have huser' : db'.userOf c.deviceId = some c.userId := (hended.others _ (Ne.symm hd)).trans huser
      have hlost : lostAfter db' c false = false := by simp [lostAfter, huser']
      rw [hlost]
      refine ⟨.stands hc ?_ huser', fun h => (nomatch h), fun h => absurd h.1 hd⟩
      rw [hended.epoch, if_neg (Ne.symm hd)]
      exact he
  | passed hc he =>
    have hle := hended.advances.epoch_le c.deviceId
    exact ⟨.passed hc (by omega), fun _ => .inl rfl, fun _ => rfl⟩

structure Fits (db : Db) (session : Session) : Prop where
  standing : Standing db session.claims session.lost
  queue : ∀ ev ∈ session.queue, session.isFor ev = true → session.lost = true
  told : session.phase = .running → session.lost = true →
    (∃ ev ∈ session.queue, session.isFor ev = true) ∨ 0 < session.lagged
  ended : session.phase = .ended → session.lost = true

theorem isFor_iff {ev : DeviceRevoked} : session.isFor ev = true ↔
    ev.deviceId = session.claims.deviceId ∧ ev.userId = session.claims.userId := by
  simp [Session.isFor, and_comm]

/-- An event that is sent is at the end of the queue. -/
theorem push_queue (session : Session) (ev : DeviceRevoked) : ∃ kept, (session.push ev).queue = kept ++ [ev] ∧
    (∀ e ∈ kept, e ∈ session.queue) ∧ ((∀ e ∈ session.queue, e ∈ kept) ∧ (session.push ev).lagged = session.lagged ∨
      0 < (session.push ev).lagged) := by
  unfold Session.push
  split
  · exact ⟨session.queue, rfl, fun _ h => h, .inl ⟨fun _ h => h, rfl⟩⟩
  · exact ⟨session.queue.tail, rfl, fun _ h => List.mem_of_mem_tail h, .inr (Nat.succ_pos _)⟩

theorem push_rest (session : Session) (ev : DeviceRevoked) : (session.push ev).claims = session.claims ∧
    (session.push ev).phase = session.phase ∧ (session.push ev).lost = session.lost := by
  unfold Session.push
  split
  · exact ⟨rfl, rfl, rfl⟩
  · exact ⟨rfl, rfl, rfl⟩

/-- What a session holds does not depend on its queue, apart from what it was told. -/
theorem fits_push {ev : DeviceRevoked} (hstanding : Standing db session.claims session.lost)
    (hqueue : ∀ e ∈ session.queue, session.isFor e = true → session.lost = true)
    (hev : session.isFor ev = true → session.lost = true)
    (htold : session.phase = .running → session.lost = true →
      session.isFor ev = true ∨ (∃ e ∈ session.queue, session.isFor e = true) ∨ 0 < session.lagged)
    (hended : session.phase = .ended → session.lost = true) : Fits db (session.push ev) := by
  obtain ⟨kept, hpushed, hsub, hall⟩ := push_queue session ev
  obtain ⟨hclaims, hphase, hlost⟩ := push_rest session ev
  have hfor : ∀ e, (session.push ev).isFor e = session.isFor e := fun e => by rw [Session.isFor, hclaims]; rfl
  refine ⟨?_, fun e he hfore => ?_, fun hrunning hlostp => ?_, fun hend => ?_⟩
  · rw [hclaims, hlost]
    exact hstanding
  · rw [hpushed, List.mem_append, List.mem_singleton] at he
    rw [hfor] at hfore
    rw [hlost]
    rcases he with he | rfl
    · exact hqueue e (hsub e he) hfore
    · exact hev hfore
  · rw [hphase] at hrunning
    rw [hlost] at hlostp
    simp only [hfor, hpushed]
    rcases htold hrunning hlostp with hmine | ⟨e, he, hfore⟩ | hlag
    · exact .inl ⟨ev, by simp, hmine⟩
    · rcases hall with ⟨hkept, -⟩ | hlag
      · exact .inl ⟨e, by simp [hkept e he], hfore⟩
      · exact .inr hlag
    · rcases hall with ⟨-, hsame⟩ | hlag'
      · exact .inr (hsame ▸ hlag)
      · exact .inr hlag'
  · rw [hphase] at hend
    rw [hlost]
    exact hended hend

theorem Fits.changeNone (h : Fits db session) (hdb : Advances db db') (hepoch : ∀ d, db'.epochOf d = db.epochOf d) :
    Fits db' (session.change db' none) := by
  obtain ⟨hlost, hstanding⟩ := h.standing.same hdb hepoch
  have heq : session.change db' none = session := by
    change { session with lost := lostAfter db' session.claims session.lost } = session
    rw [hlost]
  rw [heq]
  exact ⟨hstanding, h.queue, h.told, h.ended⟩

theorem Fits.changeSome (h : Fits db session) {ev : DeviceRevoked} (hended : Ended db db' ev.deviceId ev.userId)
    (hadmin : ev.deviceId ≠ adminDeviceId) : Fits db' (session.change db' (some ev)) := by
  obtain ⟨hstanding, honly, hmine⟩ := h.standing.afterEnd hended hadmin
  have hkeeps : session.lost = true → lostAfter db' session.claims session.lost = true := fun hlost => by
    simp [lostAfter, hlost]
  change Fits db' (if session.listens then
    ({ session with lost := lostAfter db' session.claims session.lost } : Session).push ev
    else { session with lost := lostAfter db' session.claims session.lost })
  split
  case isTrue hlistens =>
    refine fits_push hstanding (fun e he hfore => hkeeps (h.queue e he hfore)) (fun hfor => hmine (isFor_iff.mp hfor))
      (fun hrunning hlost => ?_) (fun hend => hkeeps (h.ended hend))
    rcases honly hlost with hlost | hfor
    · exact .inr (h.told hrunning hlost)
    · exact .inl (isFor_iff.mpr hfor)
  case isFalse hlistens =>
    have hphase : session.phase ≠ .running := by
      intro hrunning
      simp [Session.listens, hrunning] at hlistens
    exact ⟨hstanding, fun e he hfore => hkeeps (h.queue e he hfore), fun hrunning => absurd hrunning hphase,
      fun hend => hkeeps (h.ended hend)⟩

/-- A check goes by whether the registration stands. -/
theorem Fits.check (hstanding : Standing db session.claims session.lost)
    (hqueue : ∀ ev ∈ session.queue, session.isFor ev = true → session.lost = true) : Fits db (session.check db) := by
  unfold Session.check
  rw [hstanding.valid]
  refine ⟨hstanding, hqueue, fun hrunning hlost => ?_, fun hend => ?_⟩
  · have hlost : session.lost = true := hlost
    simp [hlost] at hrunning
  · change session.lost = true
    by_contra hlost
    simp [hlost] at hend

theorem Fits.receive (h : Fits db session) {session' : Session} (hreceive : session.receive db = some session') :
    Fits db session' := by
  unfold Session.receive at hreceive
  split at hreceive
  case isFalse => exact nomatch hreceive
  case isTrue hrunning =>
    split at hreceive
    case isTrue hlag =>
      cases hreceive
      exact Fits.check h.standing h.queue
    case isFalse hlag =>
      split at hreceive
      case h_1 => exact nomatch hreceive
      case h_2 ev queue hqueue =>
        cases hreceive
        split
        case isTrue hfor =>
          have hlost : session.lost = true := h.queue ev (hqueue ▸ List.mem_cons_self) hfor
          exact ⟨h.standing, fun e he hfore => hlost, fun hphase => (nomatch hphase), fun _ => hlost⟩
        case isFalse hfor =>
          refine ⟨h.standing, fun e he hfore => ?_, fun hphase hlost => ?_, h.ended⟩
          · exact h.queue e (hqueue ▸ List.mem_cons_of_mem _ he) hfore
          · rcases h.told hphase hlost with ⟨e, he, hfore⟩ | hlag'
            · rw [hqueue] at he
              rcases List.mem_cons.mp he with rfl | he
              · exact absurd hfore hfor
              · exact .inl ⟨e, he, hfore⟩
            · exact absurd hlag' hlag

/-! ## Runs -/

structure Inv (s : Sys) : Prop where
  noAdmin : s.db.userOf adminDeviceId = none
  sessions : ∀ session ∈ s.sessions, Fits s.db session

theorem inv_empty : Inv .empty := ⟨rfl, by simp [Sys.empty]⟩

theorem Inv.update (h : Inv s) {i : Nat} {f : Session → Option Session}
    (hf : ∀ old new, Fits s.db old → f old = some new → Fits s.db new) (hstep : s.update i f = some s') : Inv s' := by
  obtain ⟨old, hold, hmap⟩ := Option.bind_eq_some_iff.mp hstep
  obtain ⟨new, hnew, rfl⟩ := Option.map_eq_some_iff.mp hmap
  refine ⟨h.noAdmin, fun session hs => ?_⟩
  rcases List.mem_or_eq_of_mem_set hs with hs | rfl
  · exact h.sessions session hs
  · exact hf old session (h.sessions old (List.mem_of_getElem? hold)) hnew

/-- A registration ends, with its event. -/
theorem Inv.changeSome (h : Inv s) {ev : DeviceRevoked} (hended : Ended s.db db ev.deviceId ev.userId)
    (hadmin : db.userOf adminDeviceId = none) : Inv (s.change db (some ev)) := by
  have hne : ev.deviceId ≠ adminDeviceId := by
    intro heq
    have hbefore := hended.before
    rw [heq, h.noAdmin] at hbefore
    exact nomatch hbefore
  refine ⟨hadmin, fun session hs => ?_⟩
  obtain ⟨old, hold, rfl⟩ := List.mem_map.mp hs
  exact (h.sessions old hold).changeSome hended hne

theorem inv_register (h : Inv s) {deviceId deviceDesc userId : Text} {now : Int} {epoch : Nat}
    {revoked : Option DeviceRevoked}
    (hregister : s.db.register env deviceId deviceDesc userId now = .ok (db, epoch, revoked)) :
    Inv (s.change db revoked) := by
  obtain ⟨hadmin, -, -, ⟨rfl, hepochs, hothers, -⟩ | ⟨other, rfl, -, hended⟩⟩ := register_cases hregister
  · refine ⟨(hothers _ (Ne.symm hadmin)).trans h.noAdmin, fun session hs => ?_⟩
    obtain ⟨old, hold, rfl⟩ := List.mem_map.mp hs
    exact (h.sessions old hold).changeNone (register_advances hregister) hepochs
  · exact h.changeSome hended ((hended.others _ (Ne.symm hadmin)).trans h.noAdmin)

theorem inv_unregister (h : Inv s) (deviceId : Text) (owner : Option Text) :
    Inv (s.change (s.db.unregister deviceId owner).1 (s.db.unregister deviceId owner).2) := by
  rcases @unregister_cases s.db deviceId owner with heq | ⟨userId, heq, hended⟩
  · rw [heq]
    refine ⟨h.noAdmin, fun session hs => ?_⟩
    obtain ⟨old, hold, rfl⟩ := List.mem_map.mp hs
    exact (h.sessions old hold).changeNone (.refl _) fun _ => rfl
  · have hadmin : deviceId ≠ adminDeviceId := by
      rintro rfl
      exact absurd (h.noAdmin.symm.trans hended.before) (by simp)
    rw [heq]
    exact @Inv.changeSome _ _ h ⟨userId, deviceId⟩ hended ((hended.others _ (Ne.symm hadmin)).trans h.noAdmin)

theorem standing_of_check (hnone : db.userOf adminDeviceId = none) (hcheck : db.checkClaims c = true) :
    Standing db c false := by
  obtain ⟨huser, hepoch⟩ := checkRegistration_iff.mp hcheck
  refine .stands (fun hadmin => ?_) hepoch.symm huser
  rw [hadmin, hnone] at huser
  exact nomatch huser

/-- A token that is accepted is the admin's, or of a registration that stands. -/
theorem standing_of_identity (hnone : db.userOf adminDeviceId = none) {token : Token} {now : Int}
    (h : sessionIdentity env token now db = .ok c) : Standing db c false := by
  cases token with
  | device c' =>
    dsimp only [sessionIdentity, decodeDeviceToken] at h
    by_cases hcheck : db.checkClaims c'
    · rw [if_pos hcheck] at h
      cases h
      exact standing_of_check hnone hcheck
    · rw [if_neg hcheck] at h
      exact nomatch h
  | user c' exp =>
    dsimp only [sessionIdentity, decodeDeviceToken, decodeUserToken] at h
    split at h
    case isTrue => exact nomatch h
    case isFalse =>
      split at h
      case isFalse => exact nomatch h
      case isTrue hok =>
        cases h
        rcases Bool.or_eq_true_iff.mp hok with hadmin | hcheck
        · exact .admin (by simpa using hadmin)
        · exact standing_of_check hnone hcheck

theorem inv_step {a : Action} (h : Inv s) (hstep : step env s a = some s') : Inv s' := by
  cases a with
  | register deviceId deviceDesc userId now =>
    dsimp only [step] at hstep
    split at hstep
    case h_1 hregister =>
      cases hstep
      exact inv_register h hregister
    case h_2 =>
      cases hstep
      exact h
  | unregister deviceId owner =>
    cases hstep
    exact inv_unregister h deviceId owner
  | resolve token now =>
    dsimp only [step] at hstep
    split at hstep
    case h_1 claims hidentity =>
      cases hstep
      refine ⟨h.noAdmin, fun session hs => ?_⟩
      rcases List.mem_cons.mp hs with rfl | hs
      · exact ⟨standing_of_identity h.noAdmin hidentity, by simp, by simp, by simp⟩
      · exact h.sessions session hs
    case h_2 => exact nomatch hstep
  | subscribe i =>
    refine h.update (fun old new hold hnew => ?_) hstep
    obtain ⟨-, hnew⟩ := Option.ite_none_right_eq_some.mp hnew
    cases hnew
    exact ⟨hold.standing, hold.queue, by simp, by simp⟩
  | check i =>
    refine h.update (fun old new hold hnew => ?_) hstep
    obtain ⟨-, hnew⟩ := Option.ite_none_right_eq_some.mp hnew
    cases hnew
    exact Fits.check hold.standing hold.queue
  | receive i => exact h.update (fun old new hold hnew => hold.receive hnew) hstep
  | tick i =>
    refine h.update (fun old new hold hnew => ?_) hstep
    obtain ⟨-, hnew⟩ := Option.ite_none_right_eq_some.mp hnew
    cases hnew
    exact Fits.check hold.standing hold.queue

/-- A listening session whose registration has ended is yet to make its first check, or has its event or a lag
before it; a session that ended has lost its registration, and a check answers whether it has. -/
theorem revoked_sessions_told (env : Env) (actions : List Action) (hrun : run (step env) .empty actions = some s) :
    ∀ session ∈ s.sessions,
      (session.listens = true → session.lost = true →
        session.phase = .subscribed ∨ (∃ ev ∈ session.queue, session.isFor ev = true) ∨ 0 < session.lagged) ∧
      (session.phase = .ended → session.lost = true) ∧
      sessionStillValid session.claims s.db = !session.lost := by
  intro session hs
  have hinv : Inv s := invariant_of_step (fun _ _ _ h hstep => inv_step h hstep) inv_empty hrun
  have hfits := hinv.sessions session hs
  refine ⟨fun hlistens hlost => ?_, hfits.ended, hfits.standing.valid⟩
  rcases Bool.or_eq_true_iff.mp hlistens with hphase | hphase
  · exact .inl (by simpa using hphase)
  · exact .inr (hfits.told (by simpa using hphase) hlost)

/-- Texts of one time, and a leeway of a minute for tokens. -/
def midnightEnv : Env where
  rfc3339 _ := "1970-01-01T00:00:00+00:00".toList
  parseRfc3339 text := if text == "1970-01-01T00:00:00+00:00".toList then some 0 else none
  expired exp now := decide (exp < now - 60)

def tabletOf (epoch : Nat) : Claims := ⟨"RM110".toList, "remarkable".toList, "u".toList, epoch⟩

/-- The tablet is deleted and paired again, with a session of each pairing. -/
def pairedTwice : List Action :=
  [.register "RM110".toList "remarkable".toList "u".toList 0, .resolve (.device (tabletOf 0)) 0, .subscribe 0, .check 0,
   .unregister "RM110".toList none, .register "RM110".toList "remarkable".toList "u".toList 0,
   .resolve (.device (tabletOf 1)) 0, .subscribe 0, .check 0]

theorem session_of_first_pairing_told : ∃ s, run (step midnightEnv) .empty pairedTwice = some s ∧
    s.sessions = [⟨tabletOf 1, .running, [], 0, false⟩,
      ⟨tabletOf 0, .running, [⟨"u".toList, "RM110".toList⟩], 0, true⟩] ∧
    ∀ session ∈ s.sessions, session.listens = true → session.lost = true →
      session.phase = .subscribed ∨ (∃ ev ∈ session.queue, session.isFor ev = true) ∨ 0 < session.lagged := by
  have hend : (run (step midnightEnv) .empty pairedTwice).map (·.sessions) =
      some [⟨tabletOf 1, .running, [], 0, false⟩,
        ⟨tabletOf 0, .running, [⟨"u".toList, "RM110".toList⟩], 0, true⟩] := by decide +kernel
  obtain ⟨s, hrun, hs⟩ := Option.map_eq_some_iff.mp hend
  exact ⟨s, hrun, hs, fun session hin => (revoked_sessions_told midnightEnv pairedTwice hrun session hin).1⟩

end DeviceSessions
