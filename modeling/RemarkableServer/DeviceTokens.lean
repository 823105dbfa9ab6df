import RemarkableServer.Devices
import RemarkableServer.Lib.Transition

/-!
# Tokens end with their registration

A call that mints tokens reads a registration under the lock and mints after it.
From then on the registration may end, and the device be paired again, before the
tokens exist and after it. The epoch of the device rises with every end, so the
tokens of a registration that ended are of an epoch that does not come back.
-/
namespace DeviceTokens

open RustText Devices Transition

/-- A call that has read a registration and not minted its tokens yet, or a minted token. `ended` says that the
registration has not stood all the time since it was read. -/
structure Minting where
  claims : Claims
  /-- A device token too, not only a user token. -/
  device : Bool
  ended : Bool
  deriving DecidableEq

structure Issued where
  token : Token
  ended : Bool
  deriving DecidableEq

structure Sys where
  db : Db
  minting : List Minting
  tokens : List Issued

def Sys.empty : Sys := ⟨.empty, [], []⟩

/-- The device is not registered to the user of the claims. -/
def hasEnded (db : Db) (c : Claims) : Bool := db.userOf c.deviceId != some c.userId

/-- The database changes, and with it the registrations that still stand. -/
def Sys.setDb (db : Db) (s : Sys) : Sys where
  db := db
  minting := s.minting.map fun m => { m with ended := m.ended || hasEnded db m.claims }
  tokens := s.tokens.map fun t => { t with ended := t.ended || hasEnded db t.token.claims }

def Sys.begin (claims : Claims) (device : Bool) (s : Sys) : Sys :=
  { s with minting := ⟨claims, device, false⟩ :: s.minting }

/-- `gen_user_token` and `gen_device_token`. -/
def mint (now : Int) (m : Minting) : List Issued :=
  ⟨.user m.claims (now + userTokenLifetime), m.ended⟩ :: if m.device then [⟨.device m.claims, m.ended⟩] else []

inductive Action where
  | createPairingCode (code userId : Text) (now : Int)
  | exchangeCode (code deviceId deviceDesc : Text) (now : Int)
  | oauthBundle (userId deviceId deviceDesc : Text) (now : Int)
  | refreshUserToken (token : Token) (now : Int)
  | refreshOauth (token : Token) (now : Int)
  | exchangeDeviceToken (token : Token) (now : Int)
  /-- The call at the position mints its tokens, at a time in seconds. -/
  | mint (call : Nat) (now : Int)
  | revokeDeviceToken (token : Token)
  | deleteDevice (deviceId : Text) (owner : Option Text)

/-- A device is registered for the user and its tokens are to be minted. -/
def Sys.registerThenMint (env : Env) (deviceId deviceDesc userId : Text) (now : Int) (s : Sys) : Sys :=
  match s.db.register env deviceId deviceDesc userId now with
  | .ok (db, epoch, _) => (s.setDb db).begin ⟨deviceId, deviceDesc, userId, epoch⟩ true
  | .error _ => s

/-- A minted device token is presented for new tokens. -/
def Sys.touchThenMint (env : Env) (token : Token) (device : Bool) (now : Int) (s : Sys) : Sys :=
  match touchDeviceToken env token now s.db with
  | .ok (db, c) => (s.setDb db).begin c device
  | .error _ => s

def Sys.minted (token : Token) (s : Sys) : Bool := s.tokens.any (·.token == token)

def step (env : Env) (s : Sys) : Action → Option Sys
  | .createPairingCode code userId now => some (s.setDb (s.db.createPairingCode env code userId now))
  | .exchangeCode code deviceId deviceDesc now =>
    let taken := s.db.takeCode env code now
    match taken.2 with
    | .ok userId => some ((s.setDb taken.1).registerThenMint env deviceId deviceDesc userId now)
    | .error _ => some (s.setDb taken.1)
  | .oauthBundle userId deviceId deviceDesc now => some (s.registerThenMint env deviceId deviceDesc userId now)
  | .refreshUserToken token now => if s.minted token then some (s.touchThenMint env token false now) else none
  | .refreshOauth token now => if s.minted token then some (s.touchThenMint env token true now) else none
  | .exchangeDeviceToken token now => if s.minted token then some (s.touchThenMint env token true now) else none
  | .mint call now =>
    (s.minting[call]?).map fun m => { s with
      minting := s.minting.eraseIdx call
      tokens := mint now m ++ s.tokens }
  | .revokeDeviceToken token =>
    if s.minted token then some (s.setDb (Devices.revokeDeviceToken token s.db).1) else none
  | .deleteDevice deviceId owner => some (s.setDb (s.db.unregister deviceId owner).1)

/-! ## Epochs -/

/-- The claims are of an epoch that has passed, or of a registration that stands and has since they were made. -/
structure Current (db : Db) (c : Claims) (ended : Bool) : Prop where
  notAdmin : c.deviceId ≠ adminDeviceId
  epoch_le : c.epoch ≤ db.epochOf c.deviceId
  stands : c.epoch = db.epochOf c.deviceId → db.userOf c.deviceId = some c.userId ∧ ended = false

variable {env : Env} {db db' : Db} {c : Claims} {ended : Bool} {s s' : Sys}

theorem Current.advances (h : Current db c ended) (hdb : Advances db db') :
    Current db' c (ended || hasEnded db' c) := by
  refine ⟨h.notAdmin, h.epoch_le.trans (hdb.epoch_le _), fun he => ?_⟩
  have hle := h.epoch_le
  have hle' := hdb.epoch_le c.deviceId
  have hsame : db'.epochOf c.deviceId = db.epochOf c.deviceId := by omega
  obtain ⟨huser, hended⟩ := h.stands (by omega)
  have huser' := hdb.user_eq c.deviceId hsame c.userId huser
  exact ⟨huser', by simp [hended, hasEnded, huser']⟩

structure Inv (s : Sys) : Prop where
  minting : ∀ m ∈ s.minting, Current s.db m.claims m.ended
  tokens : ∀ t ∈ s.tokens, Current s.db t.token.claims t.ended

theorem inv_empty : Inv .empty := ⟨by simp [Sys.empty], by simp [Sys.empty]⟩

theorem Inv.setDb (h : Inv s) (hdb : Advances s.db db) : Inv (s.setDb db) := by
  refine ⟨fun m hm => ?_, fun t ht => ?_⟩
  · obtain ⟨m, hold, rfl⟩ := List.mem_map.mp hm
    exact (h.minting m hold).advances hdb
  · obtain ⟨t, hold, rfl⟩ := List.mem_map.mp ht
    exact (h.tokens t hold).advances hdb

theorem Inv.begin (h : Inv s) (device : Bool) (hc : Current s.db c false) : Inv (s.begin c device) := by
  refine ⟨fun m hm => ?_, h.tokens⟩
  rcases List.mem_cons.mp hm with rfl | hm
  · exact hc
  · exact h.minting m hm

theorem decodeDeviceToken_ok {token : Token} (h : decodeDeviceToken token db = .ok c) :
    token = .device c ∧ db.userOf c.deviceId = some c.userId ∧ db.epochOf c.deviceId = c.epoch := by
  cases token with
  | user c' exp => exact nomatch h
  | device c' =>
    dsimp only [decodeDeviceToken] at h
    split at h
    case isFalse => exact nomatch h
    case isTrue hcheck =>
      cases h
      exact ⟨rfl, checkRegistration_iff.mp hcheck⟩

/-- Pairing codes have no part in registrations. -/
theorem advances_of_same (hdevices : db'.devices = db.devices) (hepochs : db'.epochs = db.epochs) :
    Advances db db' := by
  refine ⟨fun d => ?_, fun d _ u hu => ?_⟩
  · unfold Db.epochOf
    rw [hepochs]
  · unfold Db.userOf at hu ⊢
    rw [hdevices]
    exact hu

theorem createPairingCode_advances (code userId : Text) (now : Int) :
    Advances db (db.createPairingCode env code userId now) := by
  dsimp only [Db.createPairingCode]
  split
  · exact advances_of_same rfl rfl
  · exact advances_of_same rfl rfl

theorem takeCode_advances (code : Text) (now : Int) : Advances db (db.takeCode env code now).1 := by
  unfold Db.takeCode
  split
  · exact .refl db
  · split
    · exact .refl db
    · exact advances_of_same rfl rfl

theorem inv_registerThenMint (h : Inv s) (deviceId deviceDesc userId : Text) (now : Int) :
    Inv (s.registerThenMint env deviceId deviceDesc userId now) := by
  unfold Sys.registerThenMint
  split
  case h_2 => exact h
  case h_1 db epoch revoked hregister =>
    obtain ⟨hadmin, huser, hepoch, -⟩ := register_cases hregister
    refine (h.setDb (register_advances hregister)).begin true ⟨hadmin, hepoch.le, fun _ => ⟨huser, rfl⟩⟩

/-- A refresh is recorded for the device and changes nothing else. -/
theorem touch_same {token : Token} {now : Int} (h : touchDeviceToken env token now db = .ok (db', c)) :
    token = .device c ∧ (∀ d, db'.userOf d = db.userOf d) ∧ (∀ d, db'.epochOf d = db.epochOf d) ∧
      db.userOf c.deviceId = some c.userId ∧ db.epochOf c.deviceId = c.epoch := by
  unfold touchDeviceToken at h
  split at h
  case h_1 => exact nomatch h
  case h_2 c' hdecode =>
    obtain ⟨htoken, huser, hepoch⟩ := decodeDeviceToken_ok hdecode
    split at h
    case h_1 =>
      cases h
      exact ⟨htoken, fun _ => rfl, fun _ => rfl, huser, hepoch⟩
    case h_2 device hdevice =>
      cases h
      refine ⟨htoken, fun d => ?_, fun _ => rfl, huser, hepoch⟩
      unfold Db.userOf
      by_cases hd : d = c.deviceId
      · subst hd
        rw [AList.lookup_insert, hdevice]
        rfl
      · rw [AList.lookup_insert_ne hd]

theorem inv_touchThenMint (h : Inv s) {token : Token} (device : Bool) (now : Int) (hminted : s.minted token = true) :
    Inv (s.touchThenMint env token device now) := by
  unfold Sys.touchThenMint
  split
  case h_2 => exact h
  case h_1 db c htouch =>
    obtain ⟨rfl, husers, hepochs, huser, hepoch⟩ := touch_same htouch
    obtain ⟨t, ht, htoken⟩ := List.any_eq_true.mp hminted
    have hadmin := (h.tokens t ht).notAdmin
    rw [beq_iff_eq.mp htoken] at hadmin
    have hdb : Advances s.db db := ⟨fun d => (hepochs d).ge, fun d _ u hu => (husers d).trans hu⟩
    refine (h.setDb hdb).begin device ⟨hadmin, ?_, fun _ => ⟨(husers _).trans huser, rfl⟩⟩
    exact ((hepochs _).trans hepoch).ge

theorem mem_mint {now : Int} {m : Minting} {t : Issued} (h : t ∈ mint now m) :
    t.token.claims = m.claims ∧ t.ended = m.ended := by
  unfold mint at h
  rcases List.mem_cons.mp h with rfl | h
  · exact ⟨rfl, rfl⟩
  · split at h
    · obtain rfl := List.mem_singleton.mp h
      exact ⟨rfl, rfl⟩
    · exact nomatch h

theorem unregister_advances (deviceId : Text) (owner : Option Text) : Advances db (db.unregister deviceId owner).1 := by
  rcases @unregister_cases db deviceId owner with heq | ⟨userId, -, hended⟩
  · rw [heq]
    exact .refl db
  · exact hended.advances

theorem revoke_advances (token : Token) : Advances db (Devices.revokeDeviceToken token db).1 := by
  unfold Devices.revokeDeviceToken
  split
  · exact .refl db
  · exact unregister_advances _ _

theorem inv_step {a : Action} (h : Inv s) (hstep : step env s a = some s') : Inv s' := by
  cases a with
  | createPairingCode code userId now =>
    cases hstep
    exact h.setDb (createPairingCode_advances code userId now)
  | exchangeCode code deviceId deviceDesc now =>
    have htaken : Inv (s.setDb (s.db.takeCode env code now).1) := h.setDb (takeCode_advances code now)
    dsimp only [step] at hstep
    split at hstep
    · cases hstep
      exact inv_registerThenMint htaken deviceId deviceDesc _ now
    · cases hstep
      exact htaken
  | oauthBundle userId deviceId deviceDesc now =>
    cases hstep
    exact inv_registerThenMint h deviceId deviceDesc userId now
  | refreshUserToken token now =>
    obtain ⟨hminted, hstep⟩ := Option.ite_none_right_eq_some.mp hstep
    cases hstep
    exact inv_touchThenMint h false now hminted
  | refreshOauth token now =>
    obtain ⟨hminted, hstep⟩ := Option.ite_none_right_eq_some.mp hstep
    cases hstep
    exact inv_touchThenMint h true now hminted
  | exchangeDeviceToken token now =>
    obtain ⟨hminted, hstep⟩ := Option.ite_none_right_eq_some.mp hstep
    cases hstep
    exact inv_touchThenMint h true now hminted
  | mint call now =>
    obtain ⟨m, hm, rfl⟩ := Option.map_eq_some_iff.mp hstep
    have hmem : m ∈ s.minting := List.mem_of_getElem? hm
    refine ⟨fun m' hm' => h.minting m' (List.mem_of_mem_eraseIdx hm'), fun t ht => ?_⟩
    rcases List.mem_append.mp ht with ht | ht
    · obtain ⟨hclaims, hended⟩ := mem_mint ht
      rw [hclaims, hended]
      exact h.minting m hmem
    · exact h.tokens t ht
  | revokeDeviceToken token =>
    obtain ⟨-, hstep⟩ := Option.ite_none_right_eq_some.mp hstep
    cases hstep
    exact h.setDb (revoke_advances token)
  | deleteDevice deviceId owner =>
    cases hstep
    exact h.setDb (unregister_advances deviceId owner)

/-! ## Tokens that are refused -/

theorem Current.not_checked (h : Current db c true) : db.checkClaims c = false := by
  rw [← Bool.not_eq_true]
  intro hcheck
  obtain ⟨-, hepoch⟩ := checkRegistration_iff.mp hcheck
  exact absurd (h.stands hepoch.symm).2 (by simp)

/-- Once the registration that a token's minting call read has ended, the token is refused for good. -/
theorem ended_tokens_refused (env : Env) (actions : List Action) (hrun : run (step env) .empty actions = some s) :
    ∀ t ∈ s.tokens, t.ended = true → ∀ now,
      decodeDeviceToken t.token s.db = .error .invalidToken ∧
      decodeUserToken env t.token now s.db = .error .invalidToken ∧
      sessionIdentity env t.token now s.db = .error .invalidToken := by
  intro t ht hended now
  have hinv : Inv s := invariant_of_step (fun _ _ _ h hstep => inv_step h hstep) inv_empty hrun
  have hcurrent := hinv.tokens t ht
  rw [hended] at hcurrent
  have hcheck := hcurrent.not_checked
  have hadmin : (t.token.claims.deviceId == adminDeviceId) = false := by simpa using hcurrent.notAdmin
  have hdevice : decodeDeviceToken t.token s.db = .error .invalidToken := by
    cases htoken : t.token with
    | user c exp => rfl
    | device c =>
      rw [htoken] at hcheck
      exact if_neg (by simpa [Token.claims] using hcheck)
  have huser : decodeUserToken env t.token now s.db = .error .invalidToken := by
    cases htoken : t.token with
    | device c => rfl
    | user c exp =>
      rw [htoken] at hcheck hadmin
      simp only [Token.claims] at hcheck hadmin
      simp [decodeUserToken, hcheck, hadmin]
  refine ⟨hdevice, huser, ?_⟩
  rw [sessionIdentity, hdevice]
  exact huser

def midnight : Text := "1970-01-01T00:00:00+00:00".toList
def tenPast : Text := "1970-01-01T00:10:00+00:00".toList

/-- The times a code is made at and expires at, and a leeway of a minute for tokens. -/
def plainEnv : Env where
  rfc3339 t := if t == codeLifetime then tenPast else midnight
  parseRfc3339 text := if text == tenPast then some codeLifetime else if text == midnight then some 0 else none
  expired exp now := decide (exp < now - 60)

def tablet : Text := "RM110".toList

/-- The device is deleted and paired again before the tokens of the first pairing are minted. -/
def repairedRun : List Action :=
  [.createPairingCode "code1".toList "u".toList 0, .exchangeCode "code1".toList tablet "remarkable".toList 0,
   .deleteDevice tablet none, .createPairingCode "code2".toList "u".toList 0,
   .exchangeCode "code2".toList tablet "remarkable".toList 0, .mint 1 0, .mint 0 0]

theorem first_pairing_refused : ∃ s, run (step plainEnv) .empty repairedRun = some s ∧
    s.tokens.map (fun t => (t.token.claims.epoch, t.ended)) = [(1, false), (1, false), (0, true), (0, true)] ∧
    ∀ t ∈ s.tokens, t.ended = true → sessionIdentity plainEnv t.token 0 s.db = .error .invalidToken := by
  have hend : (run (step plainEnv) .empty repairedRun).map (fun s =>
      s.tokens.map fun t => (t.token.claims.epoch, t.ended)) =
      some [(1, false), (1, false), (0, true), (0, true)] := by decide +kernel
  obtain ⟨s, hrun, hs⟩ := Option.map_eq_some_iff.mp hend
  exact ⟨s, hrun, hs, fun t ht hended => (ended_tokens_refused plainEnv repairedRun hrun t ht hended 0).2.2⟩

end DeviceTokens
