import RemarkableServer.CalDav
import RemarkableServer.Lib.Chrono
import RemarkableServer.Lib.RustText
import RemarkableServer.SingleFlight

/-!
# Refresh tokens of calendars

A sync works on a copy of a calendar's tokens and saves them when it is over. The
provider may rotate the refresh token at every refresh, and a token it has replaced
is worthless. Syncs of one calendar are one task at a time and read the stored
tokens when they start, so a replaced token is presented only after an answer was
lost, a save failed or a sync panicked, or where two calendars were given one token.
-/
namespace CalendarTokens

open RustText Chrono Transition SingleFlight
open CalDav (CalendarError)

/-- Seconds before the recorded expiry at which a token is refreshed. -/
def expiryMarginSecs : Int := 60

structure Client where
  provider : Text
  tokenUrl : Text
  clientId : Option Text
  clientSecret : Option Text
  scope : Option Text
  deriving DecidableEq, Repr

/-- Times are in seconds. -/
structure Tokens where
  accessToken : Option Text
  refreshToken : Option Text
  expiresAt : Option Int
  deriving DecidableEq, Repr

structure Session where
  client : Client
  tokens : Tokens
  refreshed : Bool
  deriving DecidableEq, Repr

/-- What the token endpoint answered, decoded. -/
inductive TokenReply where
  | failed (e : Text)
  | refused (status : Nat) (reason : Text)
  | malformed (e : Text)
  | granted (accessToken : Text) (refreshToken : Option Text) (expiresIn : Option Int)

/-- A time some seconds later, where `try_seconds` and `checked_add_signed` have it. -/
def checkedAdd (now secs : Int) : Option Int :=
  if secs.natAbs ≤ 9223372036854775 ∧ minDay ≤ (now + secs) / 86400 ∧ (now + secs) / 86400 ≤ maxDay then some (now + secs)
  else none

namespace Session

def new (client : Client) (tokens : Tokens) : Session := ⟨client, tokens, false⟩

def refreshToken (s : Session) : Option Text := s.tokens.refreshToken.filter fun t => !(trim t).isEmpty

def clientId (s : Session) : Option Text := s.client.clientId.filter fun t => !(trim t).isEmpty

def canRefresh (s : Session) : Bool := !s.refreshed && s.refreshToken.isSome && s.clientId.isSome

/-- The stored access token, unless it is missing or about to expire. -/
def usable (s : Session) (now : Int) : Option Text :=
  let expiring := s.tokens.expiresAt.any (· ≤ now + expiryMarginSecs)
  s.tokens.accessToken.filter fun token => !token.isEmpty && !(expiring && s.canRefresh)

/-- The refresh token to present and the form it is sent in. -/
def form (s : Session) : Except CalendarError (Text × List (Text × Text)) :=
  match s.refreshToken with
  | none => .error (.authRequired (s.client.provider ++ ": no usable access token and no refresh_token configured".toList))
  | some refreshToken =>
    match s.clientId with
    | none => .error (.authRequired (s.client.provider ++ ": client_id is required to refresh the access token".toList))
    | some clientId => .ok (refreshToken,
        [("grant_type".toList, "refresh_token".toList), ("refresh_token".toList, refreshToken), ("client_id".toList, clientId)] ++
          (s.client.clientSecret.map fun secret => ("client_secret".toList, secret)).toList ++
          (s.client.scope.map fun scope => ("scope".toList, scope)).toList)

/-- The answer to a refresh, recorded. -/
def record (s : Session) (now : Int) (reply : TokenReply) : Session × Except CalendarError Text :=
  let context := s.client.provider ++ ": token refresh".toList
  match reply with
  | .failed e => (s, .error (.network (context ++ ": ".toList ++ e)))
  | .refused status reason =>
    (s, .error (.authRequired (context ++ " failed (HTTP ".toList ++ showU64 status ++ "): ".toList ++ reason)))
  | .malformed e => (s, .error (.parse (context ++ " response: ".toList ++ e)))
  | .granted accessToken rotated expiresIn =>
    ({ s with tokens :=
        { accessToken := some accessToken
          refreshToken := match rotated.filter fun t => !t.isEmpty with
            | some rotated => some rotated
            | none => s.tokens.refreshToken
          expiresAt := expiresIn.bind (checkedAdd now) } }, .ok accessToken)

end Session

/-! ## Syncs -/

/-- The part of a calendar that its syncs read and change. -/
structure Config where
  client : Client
  tokens : Tokens
  deriving DecidableEq, Repr

/-- A refresh token that was sent to the provider, and whether it was one it had replaced. -/
structure Presented where
  calendar : Text
  token : Text
  superseded : Bool
  deriving DecidableEq, Repr

/-- The stored calendars, the refresh tokens that the providers have replaced, and records of the past:
the calendars there ever were, what was presented, and the calendars of which an answer with a new
refresh token was lost, a save failed, or a sync panicked with something to save. -/
structure World where
  calendars : Text → Option Config
  superseded : List Text
  known : List Text
  presented : List Presented
  tainted : Text → Bool

/-- `asking`: a refresh is sent, of this token; `calling`: a request with an access token is sent. -/
inductive Phase where
  | idle
  | asking (token : Text)
  | calling

/-- A sync that has read its calendar has a copy of it, and a session that goes on from there. -/
inductive Task where
  | begun
  | syncing (stored : Config) (session : Session) (phase : Phase)

inductive Op where
  | read
  /-- `Session::send` begins. -/
  | send (now : Int)
  /-- The endpoint deals with the refresh, and its answer arrives or not. -/
  | token (now : Int) (reply : TokenReply) (arrives : Bool)
  | response (status : Nat)
  | responseFailed
  /-- The fetch is over, and what it brought is saved. -/
  | store (saved : Bool)
  | panic

inductive Event where
  | add (id : Text) (config : Config)
  | remove (id : Text)

/-- A refresh is sent, if there is a token to present and a client to present it for. -/
def World.ask (w : World) (id : Text) (stored : Config) (session : Session) : World × (Task ⊕ Option Unit) :=
  match session.form with
  | .error _ => (w, .inl (.syncing stored session .idle))
  | .ok (token, _) =>
    ({ w with presented := ⟨id, token, decide (token ∈ w.superseded)⟩ :: w.presented },
      .inl (.syncing stored { session with refreshed := true } (.asking token)))

def World.taint (w : World) (id : Text) : World := { w with tainted := Function.update w.tainted id true }

/-- The answer has another refresh token than the one that was presented. -/
def TokenReply.rotates (token : Text) : TokenReply → Bool
  | .granted _ rotated _ => (rotated.filter fun t => !t.isEmpty).any (· ≠ token)
  | _ => false

/-- The provider honours no token that it has replaced, and issues none. -/
def World.mayAnswer (w : World) (token : Text) : TokenReply → Bool
  | .granted _ rotated _ => decide (token ∉ w.superseded) && rotated.all fun t => decide (t ∉ w.superseded)
  | _ => true

/-- A new token replaces the one that was presented. -/
def World.answered (w : World) (token : Text) (reply : TokenReply) : World :=
  { w with superseded := if reply.rotates token then token :: w.superseded else w.superseded }

/-- `update_config`, which finds no calendar that was removed in the meantime. -/
def World.updateConfig (w : World) (id : Text) (config : Config) : World :=
  { w with calendars := Function.update w.calendars id ((w.calendars id).map fun _ => config) }

/-- The request goes out with the new token, or `send` has failed. -/
def afterRefresh : Except CalendarError Text → Phase
  | .ok _ => .calling
  | .error _ => .idle

def act (w : World) (id : Text) : Task → Op → Option (World × (Task ⊕ Option Unit))
  | .begun, .read =>
    match w.calendars id with
    | none => some (w, .inr (some ()))
    | some config => some (w, .inl (.syncing config (.new config.client config.tokens) .idle))
  | .syncing stored session .idle, .send now =>
    match session.usable now with
    | some _ => some (w, .inl (.syncing stored session .calling))
    | none => some (w.ask id stored session)
  | .syncing stored session (.asking token), .token now reply arrives =>
    if w.mayAnswer token reply then
      let w' := w.answered token reply
      if arrives then
        let (session, result) := session.record now reply
        some (w', .inl (.syncing stored session (afterRefresh result)))
      else some (if reply.rotates token then w'.taint id else w', .inl (.syncing stored session .idle))
    else none
  | .syncing stored session .calling, .response status =>
    -- a session that has refreshed cannot again, so this is not taken for the request that is resent
    if status == 401 && session.canRefresh then some (w.ask id stored session)
    else some (w, .inl (.syncing stored session .idle))
  | .syncing stored session .calling, .responseFailed => some (w, .inl (.syncing stored session .idle))
  | .syncing stored session .idle, .store saved =>
    if session.tokens = stored.tokens then some (w, .inr (some ()))
    else if saved then some (w.updateConfig id { stored with tokens := session.tokens }, .inr (some ()))
    else some (w.taint id, .inr (some ()))
  | .begun, .panic => some (w, .inr none)
  | .syncing stored session _, .panic =>
    some (if session.tokens = stored.tokens then w else w.taint id, .inr none)
  | _, _ => none

def outside (w : World) : Event → Option World
  | .add id config =>
    if id ∈ w.known then none
    else some { w with calendars := Function.update w.calendars id (some config), known := id :: w.known }
  | .remove id => some { w with calendars := Function.update w.calendars id none }

def program : Program Text World Task Unit Op Event := ⟨fun _ => .begun, act, outside⟩

def World.empty : World := ⟨fun _ => none, [], [], [], fun _ => false⟩

/-! ## No replaced token is presented -/

variable {w w' : World} {id : Text}

/-- The sync of another calendar has presented the token. -/
def Shared (presented : List Presented) (id token : Text) : Prop := ∃ q ∈ presented, q.calendar ≠ id ∧ q.token = token

/-- Not one of the tokens that the provider has replaced, or one that another calendar has too. -/
def Live (w : World) (id : Text) (tokens : Tokens) : Prop :=
  ∀ t, tokens.refreshToken = some t → t ∈ w.superseded → Shared w.presented id t

/-- Of a calendar and its sync: between syncs the stored token is live, and a sync has the stored
calendar and a live token. -/
structure Owned (id : Text) (w : World) (o : Option Task) : Prop where
  unknown : id ∉ w.known → w.calendars id = none ∧ ∀ q ∈ w.presented, q.calendar ≠ id
  replaced : ∀ t ∈ w.superseded, ∃ q ∈ w.presented, q.token = t
  past : ∀ p older, p :: older <:+ w.presented → p.calendar = id → p.superseded = true →
    w.tainted id = true ∨ Shared older id p.token
  stored : (∀ stored session phase, o ≠ some (.syncing stored session phase)) → w.tainted id = false →
    ∀ config, w.calendars id = some config → Live w id config.tokens
  syncing : ∀ stored session phase, o = some (.syncing stored session phase) → id ∈ w.known ∧
    (∀ config, w.calendars id = some config → config = stored) ∧
    (w.tainted id = false → Live w id session.tokens) ∧
    ∀ token, phase = .asking token → session.tokens.refreshToken = some token ∧
      ∃ q ∈ w.presented, q.calendar = id ∧ q.token = token

theorem Shared.mono {presented presented' : List Presented} {token : Text} (h : Shared presented id token)
    (hsub : presented ⊆ presented') : Shared presented' id token := by
  obtain ⟨q, hq, hrest⟩ := h
  exact ⟨q, hsub hq, hrest⟩

theorem refreshToken_of_form {session : Session} {token : Text} {form : List (Text × Text)}
    (h : session.form = .ok (token, form)) : session.tokens.refreshToken = some token := by
  rw [Session.form] at h
  cases hr : session.refreshToken with
  | none =>
    rw [hr] at h
    cases h
  | some t =>
    rw [hr] at h
    cases hc : session.clientId with
    | none =>
      rw [hc] at h
      cases h
    | some c =>
      rw [hc] at h
      cases h
      exact (Option.filter_eq_some_iff.mp hr).1

theorem Owned.ask {stored : Config} {session : Session} {phase : Phase} (h : Owned id w (some (.syncing stored session phase))) :
    Owned id (w.ask id stored session).1 ((w.ask id stored session).2.elim some fun _ => none) := by
  obtain ⟨hknown, hcopy, hlive, -⟩ := h.syncing _ _ _ rfl
  rw [World.ask]
  cases hform : session.form with
  | error e =>
    refine ⟨h.unknown, h.replaced, h.past, fun hne => absurd rfl (hne _ _ _), fun _ _ _ he => ?_⟩
    cases he
    exact ⟨hknown, hcopy, hlive, fun _ ht => by cases ht⟩
  | ok r =>
    obtain ⟨token, form⟩ := r
    have htoken := refreshToken_of_form hform
    refine ⟨fun hnot => absurd hknown hnot, fun t ht => ?_, fun p older hp hid hsup => ?_,
      fun hne => absurd rfl (hne _ _ _), fun _ _ _ he => ?_⟩
    · obtain ⟨q, hq, he⟩ := h.replaced t ht
      exact ⟨q, List.mem_cons_of_mem _ hq, he⟩
    · rcases List.suffix_cons_iff.mp hp with he | hp
      · cases he
        -- a live token is not one that was replaced, unless it is another calendar's too
        by_cases hclean : w.tainted id = true
        · exact .inl hclean
        · exact .inr (hlive (Bool.eq_false_iff.mpr hclean) token htoken (of_decide_eq_true hsup))
      · exact h.past p older hp hid hsup
    · cases he
      refine ⟨hknown, hcopy, fun hclean t ht hsup => ?_, fun t ht => ?_⟩
      · exact (hlive hclean t ht hsup).mono (List.subset_cons_self _ _)
      · cases ht
        exact ⟨htoken, _, List.mem_cons_self, rfl, rfl⟩

/-- Nothing has changed for a calendar, but for tokens that another one has too. -/
structure Agree (id : Text) (w w' : World) : Prop where
  calendars : w'.calendars id = w.calendars id
  superseded : ∀ t ∈ w'.superseded, t ∈ w.superseded ∨ Shared w'.presented id t
  known : w'.known = w.known
  tainted : w'.tainted id = w.tainted id
  grows : w.presented ⊆ w'.presented
  presented : ∀ p older, p :: older <:+ w'.presented → p.calendar = id → p :: older <:+ w.presented

theorem Agree.refl (id : Text) (w : World) : Agree id w w :=
  ⟨rfl, fun _ ht => .inl ht, rfl, rfl, fun _ hp => hp, fun _ _ hp _ => hp⟩

theorem Agree.trans {w'' : World} (h : Agree id w w') (h' : Agree id w' w'') : Agree id w w'' := by
  refine ⟨h'.calendars.trans h.calendars, fun t ht => ?_, h'.known.trans h.known, h'.tainted.trans h.tainted,
    fun p hp => h'.grows (h.grows hp), fun p older hp hid => h.presented p older (h'.presented p older hp hid) hid⟩
  rcases h'.superseded t ht with ht | hshared
  · exact (h.superseded t ht).imp_right fun hshared => hshared.mono h'.grows
  · exact .inr hshared

theorem Owned.congr {o : Option Task} (h : Owned id w o) (ha : Agree id w w') : Owned id w' o := by
  have hlive : ∀ tokens, Live w id tokens → Live w' id tokens := by
    intro tokens hl t ht hsup
    rcases ha.superseded t hsup with hsup | hshared
    · exact (hl t ht hsup).mono ha.grows
    · exact hshared
  refine ⟨fun hnot => ?_, fun t ht => ?_, fun p older hp hid hsup => ?_, fun hne hclean config hc => ?_,
    fun stored session phase ho => ?_⟩
  · rw [ha.known] at hnot
    obtain ⟨hnone, hothers⟩ := h.unknown hnot
    refine ⟨ha.calendars.trans hnone, fun q hq hid => ?_⟩
    obtain ⟨newer, older, he⟩ := List.append_of_mem hq
    have hold := ha.presented q older ⟨newer, he.symm⟩ hid
    exact hothers q (hold.subset List.mem_cons_self) hid
  · rcases ha.superseded t ht with ht | ⟨q, hq, -, he⟩
    · obtain ⟨q, hq, he⟩ := h.replaced t ht
      exact ⟨q, ha.grows hq, he⟩
    · exact ⟨q, hq, he⟩
  · rw [ha.tainted]
    exact h.past p older (ha.presented p older hp hid) hid hsup
  · rw [ha.tainted] at hclean
    rw [ha.calendars] at hc
    exact hlive _ (h.stored hne hclean config hc)
  · obtain ⟨hknown, hcopy, hsession, hasking⟩ := h.syncing stored session phase ho
    rw [ha.known, ha.calendars, ha.tainted]
    refine ⟨hknown, hcopy, fun hclean => hlive _ (hsession hclean), fun token ht => ?_⟩
    obtain ⟨htoken, q, hq, hrest⟩ := hasking token ht
    exact ⟨htoken, q, ha.grows hq, hrest⟩

theorem agree_ask {k : Text} (hk : k ≠ id) (w : World) (stored : Config) (session : Session) :
    Agree k w (w.ask id stored session).1 := by
  rw [World.ask]
  cases session.form with
  | error e => exact .refl k w
  | ok r =>
    refine ⟨rfl, fun _ ht => .inl ht, rfl, rfl, List.subset_cons_self _ _, fun p older hp hid => ?_⟩
    rcases List.suffix_cons_iff.mp hp with he | hp
    · cases he
      exact absurd hid.symm hk
    · exact hp

theorem agree_taint {k : Text} (hk : k ≠ id) (w : World) : Agree k w (w.taint id) :=
  ⟨rfl, fun _ ht => .inl ht, rfl, Function.update_of_ne hk _ _, fun _ hp => hp, fun _ _ hp _ => hp⟩

/-- A token that another calendar's sync has presented is replaced. -/
theorem agree_answered {k : Text} {token : Text} (h : Shared w.presented k token) (reply : TokenReply) :
    Agree k w (w.answered token reply) := by
  refine ⟨rfl, fun t ht => ?_, rfl, rfl, fun _ hp => hp, fun _ _ hp _ => hp⟩
  rw [World.answered] at ht
  split at ht
  · rcases List.mem_cons.mp ht with rfl | ht
    · exact .inr h
    · exact .inl ht
  · exact .inl ht

theorem agree_updateConfig {k : Text} (hk : k ≠ id) (w : World) (config : Config) : Agree k w (w.updateConfig id config) :=
  ⟨Function.update_of_ne hk _ _, fun _ ht => .inl ht, rfl, rfl, fun _ hp => hp, fun _ _ hp _ => hp⟩

/-- A sync changes nothing for other calendars. -/
theorem agree_act {k : Text} (hk : k ≠ id) {t : Task} (ht : Owned id w (some t)) {op : Op} {r : Task ⊕ Option Unit}
    (h : act w id t op = some (w', r)) : Agree k w w' := by
  have hshared : ∀ stored session token, t = .syncing stored session (.asking token) → Shared w.presented k token := by
    intro stored session token he
    obtain ⟨-, -, -, hasking⟩ := ht.syncing stored session (.asking token) (congrArg some he)
    obtain ⟨-, q, hq, hid, htoken⟩ := hasking token rfl
    exact ⟨q, hq, fun he => hk (he.symm.trans hid), htoken⟩
  revert h
  fun_cases act w id t op <;> intro h <;> simp only [Option.some_inj, Prod.mk.injEq, reduceCtorEq] at h
  case case4 stored session now _ =>
    have hask := agree_ask hk w stored session
    rwa [h] at hask
  case case8 stored session status _ =>
    have hask := agree_ask hk w stored session
    rwa [h] at hask
  case case5 reply _ _ _ _ _ => exact h.1 ▸ agree_answered (hshared _ _ _ rfl) reply
  case case6 reply _ _ _ _ =>
    rw [← h.1]
    have hanswered := agree_answered (hshared _ _ _ rfl) reply
    split
    · exact hanswered.trans (agree_taint hk _)
    · exact hanswered
  case case12 => exact h.1 ▸ agree_updateConfig hk w _
  case case13 => exact h.1 ▸ agree_taint hk w
  case case15 =>
    rw [← h.1]
    split
    · exact .refl k w
    · exact agree_taint hk w
  all_goals exact h.1 ▸ .refl k w

/-- What is taken from a sync's calendar when its sync is over. -/
theorem Owned.over {o : Option Task} (h : Owned id w o) {stored : Config} {session : Session} {phase : Phase}
    (ho : o = some (.syncing stored session phase)) (hsame : session.tokens = stored.tokens) : Owned id w none := by
  obtain ⟨-, hcopy, hlive, -⟩ := h.syncing stored session phase ho
  refine ⟨h.unknown, h.replaced, h.past, fun _ hclean config hc => ?_, fun _ _ _ he => by cases he⟩
  rw [hcopy config hc, ← hsame]
  exact hlive hclean

/-- Of a calendar that was tainted, and that is not being synced, nothing more is known. -/
theorem owned_of_tainted {o : Option Task} (htainted : w.tainted id = true)
    (hunknown : id ∉ w.known → w.calendars id = none ∧ ∀ q ∈ w.presented, q.calendar ≠ id)
    (hreplaced : ∀ t ∈ w.superseded, ∃ q ∈ w.presented, q.token = t)
    (hnone : ∀ stored session phase, o ≠ some (.syncing stored session phase)) : Owned id w o := by
  refine ⟨hunknown, hreplaced, fun _ _ _ _ _ => .inl htainted, fun _ hclean => ?_,
    fun stored session phase ho => absurd ho (hnone stored session phase)⟩
  rw [htainted] at hclean
  cases hclean

@[simp] theorem tainted_taint (w : World) (id : Text) : (w.taint id).tainted id = true := by simp [World.taint]

/-- The answer that arrives keeps the token, or has one that replaces it. -/
theorem refreshToken_record (session : Session) (now : Int) (reply : TokenReply) {token : Text}
    (htoken : session.tokens.refreshToken = some token) :
    (session.record now reply).1.tokens.refreshToken = some token ∧ reply.rotates token = false ∨
      ∃ rotated, (session.record now reply).1.tokens.refreshToken = some rotated ∧ rotated ≠ token ∧
        ∃ access expiry, reply = .granted access (some rotated) expiry := by
  cases reply with
  | granted access rotated expiry =>
    cases hr : rotated.filter fun t => !t.isEmpty with
    | none => exact .inl ⟨by simp [Session.record, hr, htoken], by simp [TokenReply.rotates, hr]⟩
    | some t =>
      by_cases ht : t = token
      · exact .inl ⟨by simp [Session.record, hr, ht], by simp [TokenReply.rotates, hr, ht]⟩
      · refine .inr ⟨t, by simp [Session.record, hr], ht, access, expiry, ?_⟩
        rw [(Option.filter_eq_some_iff.mp hr).1]
  | failed e | refused status reason | malformed e => exact .inl ⟨htoken, rfl⟩

/-- The sync of a calendar goes on, from a state of the world with the same calendars. -/
theorem Owned.goOn {stored : Config} {session session' : Session} {phase phase' : Phase}
    (h : Owned id w (some (.syncing stored session phase))) (hcalendars : w'.calendars = w.calendars)
    (hknown : w'.known = w.known) (hpresented : w'.presented = w.presented)
    (hreplaced : ∀ t ∈ w'.superseded, ∃ q ∈ w.presented, q.token = t)
    (htainted : w.tainted id = true → w'.tainted id = true)
    (hlive : w'.tainted id = false → Live w' id session'.tokens) (hphase : ∀ token, phase' ≠ .asking token) :
    Owned id w' (some (.syncing stored session' phase')) := by
  obtain ⟨hmem, hcopy, -, -⟩ := h.syncing _ _ _ rfl
  refine ⟨fun hnot => absurd hmem (hknown ▸ hnot), hpresented ▸ hreplaced, fun p older hp hid hsup => ?_,
    fun hne => absurd rfl (hne _ _ _), fun _ _ _ he => ?_⟩
  · exact (h.past p older (hpresented ▸ hp) hid hsup).imp_left htainted
  · cases he
    exact ⟨hknown ▸ hmem, hcalendars ▸ hcopy, hlive, fun token ht => absurd ht (hphase token)⟩

/-- A replaced token was presented. -/
theorem Owned.replaced_answered {stored : Config} {session : Session} {token : Text}
    (h : Owned id w (some (.syncing stored session (.asking token)))) (reply : TokenReply) :
    ∀ t ∈ (w.answered token reply).superseded, ∃ q ∈ w.presented, q.token = t := by
  intro t ht
  rw [World.answered] at ht
  split at ht
  · rcases List.mem_cons.mp ht with rfl | ht
    · obtain ⟨-, q, hq, -, he⟩ := (h.syncing _ _ _ rfl).2.2.2 _ rfl
      exact ⟨q, hq, he⟩
    · exact h.replaced t ht
  · exact h.replaced t ht

/-- An answer to a refresh that does not arrive. -/
theorem Owned.lost {stored : Config} {session : Session} {token : Text}
    (h : Owned id w (some (.syncing stored session (.asking token)))) (reply : TokenReply) :
    Owned id (if reply.rotates token then (w.answered token reply).taint id else w.answered token reply)
      (some (.syncing stored session .idle)) := by
  obtain ⟨-, -, hlive, -⟩ := h.syncing _ _ _ rfl
  have hreplaced := h.replaced_answered reply
  split
  · refine h.goOn rfl rfl rfl hreplaced (fun _ => tainted_taint _ id) (fun hclean => ?_) nofun
    rw [tainted_taint] at hclean
    cases hclean
  next hnot =>
    refine h.goOn rfl rfl rfl hreplaced (fun ht => ht) (fun hclean t ht hsup => ?_) nofun
    rw [World.answered, if_neg hnot] at hsup
    exact hlive hclean t ht hsup

/-- An answer to a refresh that arrives: a new token is live, and the one it replaced is gone. -/
theorem Owned.arrived {stored : Config} {session : Session} {token : Text} {reply : TokenReply} {phase : Phase}
    (h : Owned id w (some (.syncing stored session (.asking token)))) (hmay : w.mayAnswer token reply = true) (now : Int)
    (hphase : ∀ t, phase ≠ .asking t) :
    Owned id (w.answered token reply) (some (.syncing stored (session.record now reply).1 phase)) := by
  obtain ⟨-, -, hlive, hasking⟩ := h.syncing _ _ _ rfl
  have htoken := (hasking token rfl).1
  refine h.goOn rfl rfl rfl (h.replaced_answered reply) (fun ht => ht) (fun hclean t ht hsup => ?_) hphase
  obtain ⟨hkept, hnot⟩ | ⟨rotated, hnew, hne, access, expiry, rfl⟩ := refreshToken_record session now reply htoken
  · rw [World.answered, if_neg (Bool.eq_false_iff.mp hnot)] at hsup
    rw [hkept] at ht
    exact hlive hclean t (htoken.trans ht) hsup
  · rw [hnew, Option.some_inj] at ht
    subst ht
    have hissued : rotated ∉ w.superseded := by
      simp only [World.mayAnswer, Option.all_some, Bool.and_eq_true, decide_eq_true_eq] at hmay
      exact hmay.2
    rw [World.answered] at hsup
    split at hsup
    · exact absurd ((List.mem_cons.mp hsup).resolve_left hne) hissued
    · exact absurd hsup hissued

theorem Owned.of_begun (h : Owned id w (some .begun)) : Owned id w none :=
  ⟨h.unknown, h.replaced, h.past, fun _ => h.stored (fun _ _ _ he => by cases he), fun _ _ _ he => by cases he⟩

/-- A sync reads its calendar. -/
theorem Owned.read (h : Owned id w (some .begun)) {config : Config} (hconfig : w.calendars id = some config) :
    Owned id w (some (.syncing config (.new config.client config.tokens) .idle)) := by
  refine ⟨h.unknown, h.replaced, h.past, fun hne => absurd rfl (hne _ _ _), fun _ _ _ he => ?_⟩
  cases he
  refine ⟨?_, fun c hc => Option.some.inj (hc.symm.trans hconfig), fun hclean => ?_, fun _ ht => by cases ht⟩
  · by_contra hnot
    rw [(h.unknown hnot).1] at hconfig
    cases hconfig
  · exact h.stored (fun _ _ _ he => by cases he) hclean config hconfig

/-- The new tokens are saved. -/
theorem Owned.save {stored : Config} {session : Session} {phase : Phase}
    (h : Owned id w (some (.syncing stored session phase))) :
    Owned id (w.updateConfig id { stored with tokens := session.tokens }) none := by
  obtain ⟨hknown, -, hlive, -⟩ := h.syncing _ _ _ rfl
  refine ⟨fun hnot => absurd hknown hnot, h.replaced, h.past, fun _ hclean config hc => ?_,
    fun _ _ _ he => by cases he⟩
  simp only [World.updateConfig, Function.update_self, Option.map_eq_some_iff] at hc
  obtain ⟨_, -, rfl⟩ := hc
  exact hlive hclean

/-- What the tokens of a calendar are worth is kept by every step of its sync. -/
theorem Owned.act {t : Task} {op : Op} {r : Task ⊕ Option Unit} (h : Owned id w (some t)) (hact : act w id t op = some (w', r)) :
    Owned id w' (r.elim some fun _ => none) := by
  revert hact
  fun_cases CalendarTokens.act w id t op <;> intro hact <;> simp only [Option.some_inj, Prod.mk.injEq, reduceCtorEq] at hact
  case case1 => exact hact.2 ▸ hact.1 ▸ h.of_begun
  case case2 config hconfig => exact hact.2 ▸ hact.1 ▸ h.read hconfig
  case case3 | case9 | case10 =>
    obtain ⟨rfl, rfl⟩ := hact
    exact h.goOn rfl rfl rfl h.replaced (fun ht => ht) (h.syncing _ _ _ rfl).2.2.1 nofun
  case case4 | case8 =>
    have hask := h.ask
    rw [hact] at hask
    exact hask
  case case5 stored session token now reply hmay w₁ session' result hrecord =>
    obtain ⟨rfl, rfl⟩ := hact
    have hphase : ∀ t, afterRefresh result ≠ .asking t := by cases result <;> simp [afterRefresh]
    have harrived := h.arrived hmay now hphase
    rw [hrecord] at harrived
    exact harrived
  case case6 token _ reply _ _ _ _ => exact hact.2 ▸ hact.1 ▸ h.lost reply
  case case11 hsame => exact hact.2 ▸ hact.1 ▸ h.over rfl hsame
  case case12 => exact hact.2 ▸ hact.1 ▸ h.save
  case case13 =>
    obtain ⟨rfl, rfl⟩ := hact
    exact owned_of_tainted (tainted_taint _ id) h.unknown h.replaced fun _ _ _ he => by cases he
  case case14 => exact hact.2 ▸ hact.1 ▸ h.of_begun
  case case15 =>
    obtain ⟨rfl, rfl⟩ := hact
    split
    next hsame => exact h.over rfl hsame
    · exact owned_of_tainted (tainted_taint _ id) h.unknown h.replaced fun _ _ _ he => by cases he

/-- Calendars come and go: a new one has tokens of its own. -/
theorem Owned.outside {e : Event} {o : Option Task} (h : Owned id w o) (hout : outside w e = some w') : Owned id w' o := by
  cases e with
  | add k config =>
    simp only [CalendarTokens.outside] at hout
    split at hout
    · cases hout
    next hk =>
      cases hout
      by_cases hid : id = k
      · subst hid
        obtain ⟨-, hothers⟩ := h.unknown hk
        refine ⟨fun hnot => absurd List.mem_cons_self hnot, h.replaced, h.past, fun _ _ c _ t _ hsup => ?_,
          fun stored session phase ho => ?_⟩
        · obtain ⟨q, hq, he⟩ := h.replaced t hsup
          exact ⟨q, hq, hothers q hq, he⟩
        · exact absurd (h.syncing stored session phase ho).1 hk
      · have hget : Function.update w.calendars k (some config) id = w.calendars id := Function.update_of_ne hid _ _
        refine ⟨fun hnot => ?_, h.replaced, h.past, fun hne hclean c hc => h.stored hne hclean c (hget.symm.trans hc),
          fun stored session phase ho => ?_⟩
        · obtain ⟨hnone, hothers⟩ := h.unknown fun hmem => hnot (List.mem_cons_of_mem _ hmem)
          exact ⟨hget.trans hnone, hothers⟩
        · obtain ⟨hknown, hcopy, hrest⟩ := h.syncing stored session phase ho
          exact ⟨List.mem_cons_of_mem _ hknown, fun c hc => hcopy c (hget.symm.trans hc), hrest⟩
  | remove k =>
    cases hout
    have hsub : ∀ c, Function.update w.calendars k none id = some c → w.calendars id = some c := by
      intro c hc
      by_cases hid : id = k
      · subst hid
        simp at hc
      · rwa [Function.update_of_ne hid] at hc
    refine ⟨fun hnot => ⟨?_, (h.unknown hnot).2⟩, h.replaced, h.past,
      fun hne hclean c hc => h.stored hne hclean c (hsub c hc), fun stored session phase ho => ?_⟩
    · by_contra hsome
      obtain ⟨c, hc⟩ := Option.ne_none_iff_exists'.mp hsome
      have := hsub c hc
      rw [(h.unknown hnot).1] at this
      cases this
    · obtain ⟨hknown, hcopy, hrest⟩ := h.syncing stored session phase ho
      exact ⟨hknown, fun c hc => hcopy c (hsub c hc), hrest⟩

theorem owned_empty (id : Text) : Owned id .empty none := by
  refine ⟨fun _ => ⟨rfl, nofun⟩, nofun, ?_, ?_, ?_⟩
  · intro p older hp
    cases List.suffix_nil.mp hp
  · intro _ _ config hconfig
    cases hconfig
  · intro _ _ _ ho
    cases ho

/-- A sync that has started knows nothing yet. -/
theorem Owned.begin (h : Owned id w none) : Owned id w (some .begun) :=
  ⟨h.unknown, h.replaced, h.past, fun _ => h.stored (fun _ _ _ he => by cases he), fun _ _ _ he => by cases he⟩

theorem keeps_owned : Keeps program Owned where
  begin _ _ := Owned.begin
  act _ _ _ _ _ _ := Owned.act
  other _ _ _ _ _ _ _ _ hk ht hJ hact := hJ.congr (agree_act hk ht hact)
  outside _ _ _ _ _ := Owned.outside

theorem owned_run {s : Sys Text World Task Unit} {as : List (Action Text Op Event)}
    (h : run (step program) (start .empty) as = some s) (id : Text) : Owned id s.world (s.task id) :=
  keeps_owned.run owned_empty h id

/-- Every token that was presented was live, and a calendar that is not being synced has a live one, but
for the calendars of which an answer was lost, a save failed or a sync panicked, and for the tokens that
another calendar's sync had presented before. -/
theorem presented_live {s : Sys Text World Task Unit} {as : List (Action Text Op Event)}
    (h : run (step program) (start .empty) as = some s) :
    (∀ p older, p :: older <:+ s.world.presented → p.superseded = true →
      s.world.tainted p.calendar = true ∨ Shared older p.calendar p.token) ∧
      ∀ id config, s.task id = none → s.world.tainted id = false → s.world.calendars id = some config →
        Live s.world id config.tokens := by
  refine ⟨fun p older hp hsup => (owned_run h p.calendar).past p older hp rfl hsup,
    fun id config hnone hclean hconfig => ?_⟩
  have howned := owned_run h id
  rw [hnone] at howned
  exact howned.stored (fun _ _ _ he => by cases he) hclean config hconfig

/-- Two syncs of a calendar: the first refreshes and is given a new token, which the second presents
after its access token is rejected. Then one of a calendar that was added with the first token. -/
def threeSyncs : List (Action Text Op Event) :=
  [.outside (.add ['c'] ⟨⟨"google".toList, [], some ['i'], none, none⟩, none, some ['r'], none⟩),
    .joinOrStart ['c'], .act 0 .read, .act 0 (.send 0), .act 0 (.token 0 (.granted ['a'] (some ['s']) none) true),
    .joinOrStart ['c'], .act 0 (.response 200), .act 0 (.store true), .land 0, .answer 0, .answer 1,
    .joinOrStart ['c'], .act 1 .read, .act 1 (.send 9), .act 1 (.response 401),
    .outside (.add ['d'] ⟨⟨"google".toList, [], some ['i'], none, none⟩, none, some ['r'], none⟩),
    .joinOrStart ['d'], .act 2 .read, .act 2 (.send 9)]

theorem threeSyncs_presented : (run (step program) (start .empty) threeSyncs).map (fun s => s.world.presented) =
    some [⟨['d'], ['r'], true⟩, ⟨['c'], ['s'], false⟩, ⟨['c'], ['r'], false⟩] := by decide +kernel

theorem presented_live_threeSyncs : ∃ s, run (step program) (start .empty) threeSyncs = some s ∧
    (∀ p older, p :: older <:+ s.world.presented → p.superseded = true →
      s.world.tainted p.calendar = true ∨ Shared older p.calendar p.token) ∧
      ∀ id config, s.task id = none → s.world.tainted id = false → s.world.calendars id = some config →
        Live s.world id config.tokens := by
  obtain ⟨s, hs, -⟩ := Option.map_eq_some_iff.mp threeSyncs_presented
  exact ⟨s, hs, presented_live hs⟩

end CalendarTokens
