import RemarkableServer.Lib.Transition
import RemarkableServer.Mqtt

/-!
# What an MQTT session sends

Whatever bytes the client sends, no index is out of bounds and every loop ends. The
session keeps at most `maxSubscriptions` distinct topics; a SUBACK answers the filters
of its SUBSCRIBE one by one, and a notification goes to subscribed topics only.
-/
namespace MqttSession

open RustText Mqtt Notifications Transition

variable {env : Env} {data : Bytes} {s : Session}

/-! ## Reading stays within the data -/

theorem remainingLength_spec {rounds multiplier value idx : Nat} (hidx : idx ≤ data.length)
    (hrounds : data.length - idx < rounds) :
    ∃ r, remainingLength data rounds multiplier value idx = some r ∧ ∀ len n, r = some (len, n) → n ≤ data.length := by
  induction rounds generalizing multiplier value idx with
  | zero => omega
  | succ rounds ih =>
    rw [remainingLength]
    split
    case isTrue => exact ⟨none, rfl, fun _ _ h => nomatch h⟩
    case isFalse hlt =>
      rw [List.getElem?_eq_getElem (by omega), Option.bind_some]
      dsimp only
      split
      · refine ⟨_, rfl, fun len n h => ?_⟩
        cases h
        omega
      · split
        · exact ⟨none, rfl, fun _ _ h => nomatch h⟩
        · exact ih (by omega) (by omega)

theorem parseRemainingLength_spec (data : Bytes) :
    ∃ r, parseRemainingLength data = some r ∧ ∀ len n, r = some (len, n) → n ≤ data.length :=
  remainingLength_spec (Nat.zero_le _) (by omega)

theorem parseMqttBytes_spec (data : Bytes) :
    ∃ r, parseMqttBytes data = some r ∧ ∀ b n, r = some (b, n) → 2 ≤ n ∧ n ≤ data.length := by
  unfold parseMqttBytes
  split
  case isTrue => exact ⟨none, rfl, fun _ _ h => nomatch h⟩
  case isFalse hlen =>
    rw [List.getElem?_eq_getElem (show 0 < data.length by omega),
      List.getElem?_eq_getElem (show 1 < data.length by omega)]
    simp only [Option.bind_eq_bind, Option.bind_some]
    split
    case isTrue => exact ⟨none, rfl, fun _ _ h => nomatch h⟩
    case isFalse hfits =>
      rw [slice, if_pos (by omega)]
      refine ⟨_, rfl, fun b n h => ?_⟩
      cases h
      omega

theorem parseMqttString_spec (data : Bytes) :
    ∃ r, parseMqttString data = some r ∧ ∀ t n, r = some (t, n) → 2 ≤ n ∧ n ≤ data.length := by
  obtain ⟨r, hr, hspec⟩ := parseMqttBytes_spec data
  unfold parseMqttString
  rw [hr]
  refine ⟨_, rfl, fun t n h => ?_⟩
  obtain ⟨⟨b, n'⟩, hb, ht⟩ := Option.bind_eq_some_iff.mp h
  obtain ⟨t', -, heq⟩ := Option.map_eq_some_iff.mp ht
  cases heq
  exact hspec b n hb

theorem sliceFrom_eq {α : Type} {xs : List α} {start : Nat} (h : start ≤ xs.length) :
    sliceFrom xs start = some (xs.drop start) := if_pos h

theorem packetBody_safe (frame : Bytes) : ∃ r, packetBody frame = some r := by
  unfold packetBody
  split
  case isTrue => exact ⟨none, rfl⟩
  case isFalse hlen =>
    obtain ⟨r, hr, hspec⟩ := parseRemainingLength_spec (frame.drop 1)
    rw [hr, Option.bind_some]
    cases r with
    | none => exact ⟨none, rfl⟩
    | some p =>
      have hle := hspec p.1 p.2 rfl
      rw [List.length_drop] at hle
      simp only [sub, Option.bind_eq_bind]
      rw [if_pos (by omega), Option.bind_some, if_pos hle, Option.bind_some]
      split
      · rw [sliceFrom_eq (by omega)]
        exact ⟨_, rfl⟩
      · exact ⟨none, rfl⟩

/-- No panic. -/
def Safe {α : Type} (x : Parse α) : Prop := ∃ r, x.run = some r

theorem safe_pure {α : Type} (a : α) : Safe (pure a : Parse α) := ⟨.ok a, rfl⟩

theorem safe_throw {α : Type} (e : ConnectError) : Safe (throw e : Parse α) := ⟨.error e, rfl⟩

theorem safe_bind {α β : Type} {x : Parse α} {f : α → Parse β} (hx : Safe x) (hf : ∀ a, Safe (f a)) :
    Safe (x >>= f) := by
  obtain ⟨r, hr⟩ := hx
  cases r with
  | error e =>
    refine ⟨.error e, ?_⟩
    rw [ExceptT.run_bind, hr]
    rfl
  | ok a =>
    obtain ⟨r, hr'⟩ := hf a
    refine ⟨r, ?_⟩
    rw [ExceptT.run_bind, hr]
    exact hr'

theorem safe_lift {α : Type} {x : Option α} (h : ∃ r, x = some r) : Safe (ExceptT.lift x : Parse α) := by
  obtain ⟨r, rfl⟩ := h
  exact ⟨.ok r, rfl⟩

theorem safe_ite {α : Type} {p : Prop} [Decidable p] {x y : Parse α} (hx : Safe x) (hy : Safe y) :
    Safe (if p then x else y) := by
  split
  · exact hx
  · exact hy

theorem field_safe (body : Bytes) (pos : Nat) (string : Bool) : Safe (field body pos string) := by
  unfold field
  refine safe_ite (safe_throw _) ?_
  obtain ⟨r, hr, -⟩ := parseMqttBytes_spec (body.drop pos)
  refine safe_bind (safe_lift ⟨r, hr⟩) fun parsed => ?_
  cases parsed with
  | none => exact safe_throw _
  | some p => exact safe_ite (safe_throw _) (safe_pure _)

theorem optionalField_safe (declared : Bool) (body : Bytes) (pos : Nat) (string : Bool) :
    Safe (optionalField declared body pos string) := by
  unfold optionalField
  exact safe_ite (safe_bind (field_safe body pos string) fun _ => safe_pure _) (safe_pure _)

theorem payloadToken_safe (body : Bytes) (pos : Nat) (will usernameFlag passwordFlag : Bool) :
    Safe (payloadToken body pos will usernameFlag passwordFlag) := by
  unfold payloadToken
  exact safe_bind (field_safe ..) fun _ => safe_bind (optionalField_safe ..) fun _ =>
    safe_bind (optionalField_safe ..) fun _ => safe_bind (optionalField_safe ..) fun _ =>
    safe_bind (optionalField_safe ..) fun _ => safe_ite (safe_throw _) (safe_pure _)

theorem connectToken_safe (body : Bytes) : Safe (connectToken body) := by
  unfold connectToken
  obtain ⟨r, hr, -⟩ := parseMqttString_spec body
  refine safe_bind (safe_lift ⟨r, hr⟩) fun parsed => ?_
  cases parsed with
  | none => exact safe_throw _
  | some p =>
    dsimp only
    split
    · refine safe_bind ?_ fun _ => safe_ite (safe_throw _) (payloadToken_safe ..)
      exact safe_ite (safe_pure _) (safe_ite (safe_throw _) (safe_throw _))
    · exact safe_throw _

theorem readConnect_safe (body : Option Bytes) : ∃ r, readConnect body = some r := by
  cases body with
  | none => exact ⟨_, rfl⟩
  | some body => exact connectToken_safe body

/-! ## The filters of a SUBSCRIBE -/

/-- The filters that are there with their QoS, up to `limit`. -/
def filtersFrom (data : Bytes) (limit : Nat) : Nat → Nat → List (Text × UInt8)
  | 0, _ => []
  | rounds + 1, offset =>
    if offset < limit then
      match (parseMqttString (data.drop offset)).join with
      | none => []
      | some (topic, n) =>
        match data[offset + n]? with
        | none => []
        | some byte => (topic, byte &&& 0x03) :: filtersFrom data limit rounds (offset + n + 1)
    else []

/-- The filters of a packet, behind its fixed header and its packet identifier. -/
def filtersOf (data : Bytes) : List (Text × UInt8) :=
  match (parseRemainingLength (data.drop 1)).join with
  | none => []
  | some (len, n) => filtersFrom data (1 + n + len) (data.length + 1) (1 + n + 2)

def answer (state : List Text × List UInt8) (filters : List (Text × UInt8)) : List Text × List UInt8 :=
  filters.foldl (fun state f => subscribeOne state f.1 f.2) state

theorem subscribeLoop_end {limit rounds : Nat} (h : 0 < rounds) (state : List Text × List UInt8) :
    subscribeLoop data limit rounds data.length state = some state := by
  obtain ⟨rounds, rfl⟩ := Nat.exists_eq_succ_of_ne_zero (Nat.ne_of_gt h)
  rw [subscribeLoop]
  split
  · rw [sliceFrom_eq (Nat.le_refl _), List.drop_length]
    rfl
  · rfl

/-- Each round reads at least the length of a filter, so the rounds are enough. -/
theorem subscribeLoop_eq {limit rounds offset : Nat} (state : List Text × List UInt8) (hoff : offset ≤ data.length)
    (hrounds : data.length - offset < rounds) :
    subscribeLoop data limit rounds offset state = some (answer state (filtersFrom data limit rounds offset)) := by
  induction rounds generalizing offset state with
  | zero => omega
  | succ rounds ih =>
    rw [subscribeLoop, filtersFrom]
    split
    case isFalse => rfl
    case isTrue =>
      rw [sliceFrom_eq hoff, Option.bind_some]
      obtain ⟨r, hr, hspec⟩ := parseMqttString_spec (data.drop offset)
      rw [hr, Option.bind_some, Option.join_some]
      cases r with
      | none => rfl
      | some p =>
        obtain ⟨topic, n⟩ := p
        have hn := hspec topic n rfl
        rw [List.length_drop] at hn
        dsimp only
        split
        case isTrue hlt =>
          rw [List.getElem?_eq_getElem hlt, Option.bind_some]
          exact ih _ (by omega) (by omega)
        case isFalse hge =>
          have hend : offset + n = data.length := by omega
          rw [hend, List.getElem?_eq_none (Nat.le_refl _)]
          exact subscribeLoop_end (by omega) state

theorem qos_lt (byte : UInt8) : byte &&& 0x03 < 0x80 := by
  have h : byte.toNat &&& 3 ≤ 3 := Nat.and_le_right
  rw [UInt8.lt_iff_toNat_lt, UInt8.toNat_and]
  exact Nat.lt_of_le_of_lt h (by decide)

theorem filtersFrom_qos {limit rounds offset : Nat} : ∀ f ∈ filtersFrom data limit rounds offset, f.2 < 0x80 := by
  induction rounds generalizing offset with
  | zero => exact fun f hf => nomatch hf
  | succ rounds ih =>
    intro f hf
    rw [filtersFrom] at hf
    split at hf
    case isFalse => exact nomatch hf
    case isTrue =>
      split at hf
      · exact nomatch hf
      · split at hf
        · exact nomatch hf
        · rcases List.mem_cons.mp hf with rfl | hf
          · exact qos_lt _
          · exact ih f hf

/-! ## The subscriptions -/

structure SubscriptionsOk (subscriptions : List Text) : Prop where
  distinct : subscriptions.Nodup
  concrete : ∀ t ∈ subscriptions, t ≠ [] ∧ '+' ∉ t ∧ '#' ∉ t
  bounded : subscriptions.length ≤ maxSubscriptions

theorem isConcrete_iff {t : Text} : isConcrete t = true ↔ t ≠ [] ∧ '+' ∉ t ∧ '#' ∉ t := by
  cases t with
  | nil => simp [isConcrete]
  | cons c t => simp [isConcrete, List.any_eq_false]; grind

/-- The filter is not stored, and no later filter changes that. -/
def Refused (subscriptions : List Text) (filter : Text) : Prop :=
  filter ∉ subscriptions ∧ (isConcrete filter = false ∨ maxSubscriptions ≤ subscriptions.length)

/-- How a filter was answered; with the subscriptions after it. -/
def Answered (subscriptions : List Text) (filter : Text) (code : UInt8) : Prop :=
  (code < 0x80 ∧ filter ∈ subscriptions) ∨ (¬ code < 0x80 ∧ Refused subscriptions filter)

/-- Stored, stored before, or refused. -/
theorem subscribeOne_cases (subs : List Text) (codes : List UInt8) (filter : Text) (qos : UInt8) :
    (isConcrete filter = true ∧ filter ∉ subs ∧ subs.length < maxSubscriptions ∧
      subscribeOne (subs, codes) filter qos = (subs ++ [filter], codes ++ [qos])) ∨
    (filter ∈ subs ∧ subscribeOne (subs, codes) filter qos = (subs, codes ++ [qos])) ∨
    ((isConcrete filter = false ∨ maxSubscriptions ≤ subs.length ∧ filter ∉ subs) ∧
      subscribeOne (subs, codes) filter qos = (subs, codes ++ [subackFailure])) := by
  by_cases hc : isConcrete filter = true
  · by_cases hm : filter ∈ subs
    · exact .inr (.inl ⟨hm, by simp [subscribeOne, hc, hm]⟩)
    · by_cases hl : maxSubscriptions ≤ subs.length
      · exact .inr (.inr ⟨.inr ⟨hl, hm⟩, by simp [subscribeOne, hc, hm, hl]⟩)
      · exact .inl ⟨hc, hm, Nat.lt_of_not_le hl, by simp [subscribeOne, hc, hm, hl]⟩
  · exact .inr (.inr ⟨.inl (by simpa using hc), by simp [subscribeOne, hc]⟩)

theorem subscribeOne_ok {subs : List Text} (h : SubscriptionsOk subs) (codes : List UInt8) (filter : Text) (qos : UInt8) :
    SubscriptionsOk (subscribeOne (subs, codes) filter qos).1 := by
  obtain ⟨hc, hm, hl, heq⟩ | ⟨-, heq⟩ | ⟨-, heq⟩ := subscribeOne_cases subs codes filter qos
  · rw [heq]
    refine ⟨List.nodup_append.mpr ⟨h.distinct, List.nodup_singleton _, ?_⟩, fun t ht => ?_, ?_⟩
    · intro a ha b hb hab
      rw [hab, List.mem_singleton.mp hb] at ha
      exact hm ha
    · rcases List.mem_append.mp ht with ht | ht
      · exact h.concrete t ht
      · exact isConcrete_iff.mp (List.mem_singleton.mp ht ▸ hc)
    · rw [List.length_append]
      exact hl
  · rw [heq]
    exact h
  · rw [heq]
    exact h

theorem subscribeOne_keeps (subs : List Text) (codes : List UInt8) (filter : Text) (qos : UInt8) :
    subs <+: (subscribeOne (subs, codes) filter qos).1 := by
  obtain ⟨-, -, -, heq⟩ | ⟨-, heq⟩ | ⟨-, heq⟩ := subscribeOne_cases subs codes filter qos
  · exact heq ▸ List.prefix_append _ _
  · exact heq ▸ List.prefix_refl _
  · exact heq ▸ List.prefix_refl _

theorem subscribeOne_refused {subs : List Text} {filter : Text} (h : Refused subs filter) (codes : List UInt8)
    (other : Text) (qos : UInt8) : Refused (subscribeOne (subs, codes) other qos).1 filter := by
  obtain ⟨hc, -, hl, heq⟩ | ⟨-, heq⟩ | ⟨-, heq⟩ := subscribeOne_cases subs codes other qos
  · have hconc : isConcrete filter = false := h.2.resolve_right (Nat.not_le.mpr hl)
    rw [heq]
    refine ⟨fun hm => ?_, .inl hconc⟩
    rcases List.mem_append.mp hm with hm | hm
    · exact h.1 hm
    · rw [List.mem_singleton.mp hm, hc] at hconc
      exact nomatch hconc
  · rw [heq]
    exact h
  · rw [heq]
    exact h

theorem subscribeOne_answered {subs : List Text} (h : SubscriptionsOk subs) (codes : List UInt8) (filter : Text)
    {qos : UInt8} (hqos : qos < 0x80) :
    ∃ code, (subscribeOne (subs, codes) filter qos).2 = codes ++ [code] ∧
      Answered (subscribeOne (subs, codes) filter qos).1 filter code := by
  obtain ⟨-, -, -, heq⟩ | ⟨hm, heq⟩ | ⟨href, heq⟩ := subscribeOne_cases subs codes filter qos
  · rw [heq]
    exact ⟨qos, rfl, .inl ⟨hqos, List.mem_append_right _ (List.mem_singleton.mpr rfl)⟩⟩
  · rw [heq]
    exact ⟨qos, rfl, .inl ⟨hqos, hm⟩⟩
  · rw [heq]
    refine ⟨subackFailure, rfl, .inr ⟨by decide, ?_⟩⟩
    rcases href with hc | ⟨hl, hm⟩
    · refine ⟨fun hm => ?_, .inl hc⟩
      rw [isConcrete_iff.mpr (h.concrete filter hm)] at hc
      exact nomatch hc
    · exact ⟨hm, .inr hl⟩

theorem answer_ok {subs : List Text} (h : SubscriptionsOk subs) (codes : List UInt8) (filters : List (Text × UInt8)) :
    SubscriptionsOk (answer (subs, codes) filters).1 := by
  induction filters generalizing subs codes with
  | nil => exact h
  | cons f filters ih => exact ih (subscribeOne_ok h codes f.1 f.2) _

theorem answer_keeps (subs : List Text) (codes : List UInt8) (filters : List (Text × UInt8)) :
    subs <+: (answer (subs, codes) filters).1 := by
  induction filters generalizing subs codes with
  | nil => exact List.prefix_refl _
  | cons f filters ih => exact (subscribeOne_keeps subs codes f.1 f.2).trans (ih _ _)

theorem answer_refused {subs : List Text} {filter : Text} (h : Refused subs filter) (codes : List UInt8)
    (filters : List (Text × UInt8)) : Refused (answer (subs, codes) filters).1 filter := by
  induction filters generalizing subs codes with
  | nil => exact h
  | cons f filters ih => exact ih (subscribeOne_refused h codes f.1 f.2) _

theorem Answered.later {subs : List Text} {filter : Text} {code : UInt8} (h : Answered subs filter code)
    (codes : List UInt8) (filters : List (Text × UInt8)) :
    code < 0x80 ↔ filter ∈ (answer (subs, codes) filters).1 := by
  rcases h with ⟨hlt, hm⟩ | ⟨hlt, href⟩
  · exact iff_of_true hlt ((answer_keeps subs codes filters).subset hm)
  · exact iff_of_false hlt (answer_refused href codes filters).1

/-- One code for each filter, which tells whether it is subscribed in the end. -/
theorem answer_codes {subs : List Text} (h : SubscriptionsOk subs) (codes : List UInt8) {filters : List (Text × UInt8)}
    (hqos : ∀ f ∈ filters, f.2 < 0x80) :
    ∃ new, (answer (subs, codes) filters).2 = codes ++ new ∧
      List.Forall₂ (fun f code => code < 0x80 ↔ f.1 ∈ (answer (subs, codes) filters).1) filters new := by
  induction filters generalizing subs codes with
  | nil => exact ⟨[], (List.append_nil _).symm, .nil⟩
  | cons f filters ih =>
    obtain ⟨code, hcode, hans⟩ := subscribeOne_answered h codes f.1 (hqos f List.mem_cons_self)
    obtain ⟨new, hnew, hall⟩ := ih (subscribeOne_ok h codes f.1 f.2) (subscribeOne (subs, codes) f.1 f.2).2
      fun g hg => hqos g (List.mem_cons_of_mem _ hg)
    refine ⟨code :: new, hnew.trans ?_, .cons (hans.later _ filters) hall⟩
    rw [hcode, List.append_assoc]
    rfl

/-! ## What is sent -/

/-- The text of a message goes out on a topic of the session, to its user. -/
def PublishOk (env : Env) (s : Session) (topic : Text) (msg : Stamped) (payload : Bytes) : Prop :=
  topic ∈ s.subscriptions ∧ ¬ "Screenshare".toList <+: msg.attributes.event ∧
    (msg.attributes.auth0UserId = s.userId ∨ msg.attributes.auth0UserId = serverUser) ∧ env.toVec msg = some payload

/-- What the packet may be when the session is `s` after it, and `filters` were asked for. -/
def PacketOk (env : Env) (s : Session) (filters : List (Text × UInt8)) : Packet → Prop
  | .publish topic msg payload => PublishOk env s topic msg payload
  | .suback _ codes => List.Forall₂ (fun f code => code < 0x80 ↔ f.1 ∈ s.subscriptions) filters codes
  | .connack _ _ | .pingresp => True

/-- A CONNACK or a Close. -/
def Quiet : Out → Prop
  | .packet (.connack _ _) | .close _ => True
  | .packet _ => False

/-- The filters that an input asks for. -/
def filtersAsked : Input → List (Text × UInt8)
  | .frame (.binary data) _ => filtersOf data
  | _ => []

def OutOk (env : Env) (input : Input) (s : Session) : Out → Prop
  | .packet p => PacketOk env s (filtersAsked input) p
  | .close _ => True

/-- A CONNECT with a token of a user. -/
def Accepts (env : Env) (input : Input) : Prop :=
  ∃ data rest body token user, input = .frame (.binary data) rest ∧ packetTypeOf data = some .connect ∧
    packetBody data = some (some body) ∧ (connectToken body).run = some (.ok token) ∧
    env.authenticate token = some user

theorem mem_unseen {seen topics : List Text} {t : Text} (h : t ∈ unseen seen topics) : t ∈ topics := by
  induction topics generalizing seen with
  | nil => exact h
  | cons topic topics ih =>
    rw [unseen] at h
    split at h
    · exact List.mem_cons_of_mem _ (ih h)
    · rcases List.mem_cons.mp h with rfl | h
      · exact List.mem_cons_self
      · exact List.mem_cons_of_mem _ (ih h)

theorem publishes_ok {msg : Stamped} {topics : List Text} (htopics : ∀ t ∈ topics, t ∈ s.subscriptions)
    (input : Input) : ∀ o ∈ (notificationPublishes env msg topics s.userId).map Out.packet, OutOk env input s o := by
  intro o ho
  obtain ⟨p, hp, rfl⟩ := List.mem_map.mp ho
  unfold notificationPublishes at hp
  dsimp only at hp
  split at hp
  case isTrue => exact nomatch hp
  case isFalse hpass =>
    split at hp
    case h_1 => exact nomatch hp
    case h_2 payload hpayload =>
      obtain ⟨t, ht, rfl⟩ := List.mem_map.mp hp
      have hpass : ¬ "Screenshare".toList <+: msg.attributes.event ∧
          (msg.attributes.auth0UserId ≠ s.userId → msg.attributes.auth0UserId = serverUser) := by
        simpa using hpass
      refine ⟨htopics t (List.mem_filter.mp (mem_unseen ht)).1, hpass.1, ?_, hpayload⟩
      by_cases huser : msg.attributes.auth0UserId = s.userId
      · exact .inl huser
      · exact .inr (hpass.2 huser)

/-- What holds of the reply to an input. -/
structure ReplyOk (env : Env) (s : Session) (input : Input) (reply : Reply) : Prop where
  subscriptions : SubscriptionsOk reply.session.subscriptions
  outs : ∀ o ∈ reply.outs, OutOk env input reply.session o
  quiet : s.connected = false → ∀ o ∈ reply.outs, Quiet o
  accepted : reply.session.connected = true → s.connected = true ∨ Accepts env input

variable {input : Input}

theorem replyOk_silent (h : SubscriptionsOk s.subscriptions) (ends : Bool) : ReplyOk env s input ⟨s, [], ends⟩ :=
  ⟨h, fun _ ho => (nomatch ho), fun _ _ ho => (nomatch ho), .inl⟩

theorem Quiet.outOk {o : Out} (h : Quiet o) : OutOk env input s o := by
  rcases o with (_ | _ | _ | _) | _
  · trivial
  · exact h.elim
  · exact h.elim
  · exact h.elim
  · trivial

theorem replyOk_quiet (h : SubscriptionsOk s.subscriptions) {o : Out} (hq : Quiet o) (ends : Bool) :
    ReplyOk env s input ⟨s, [o], ends⟩ := by
  have hout : ∀ o' ∈ [o], Quiet o' := fun o' ho' => List.mem_singleton.mp ho' ▸ hq
  exact ⟨h, fun o' ho' => (hout o' ho').outOk, fun _ => hout, .inl⟩

theorem replyOk_connected (h : SubscriptionsOk s.subscriptions) (hconn : s.connected = true) {outs : List Out}
    (houts : ∀ o ∈ outs, OutOk env input s o) (ends : Bool) : ReplyOk env s input ⟨s, outs, ends⟩ :=
  ⟨h, houts, fun hc => absurd hconn (by rw [hc]; decide), .inl⟩

theorem handleConnect_ok (h : SubscriptionsOk s.subscriptions) {rest : List (Text × Text)}
    (htype : packetTypeOf data = some .connect) :
    ∃ reply, handleConnect env s data = some reply ∧ ReplyOk env s (.frame (.binary data) rest) reply := by
  unfold handleConnect
  split
  case isTrue => exact ⟨_, rfl, replyOk_silent h true⟩
  case isFalse =>
    obtain ⟨body, hbody⟩ := packetBody_safe data
    obtain ⟨r, hr⟩ := readConnect_safe body
    rw [hbody, Option.bind_some, hr, Option.bind_some]
    rcases r with (_ | _) | token
    · exact ⟨_, rfl, replyOk_silent h true⟩
    · exact ⟨_, rfl, replyOk_quiet h (by trivial) true⟩
    · dsimp only
      split
      · exact ⟨_, rfl, replyOk_quiet h (by trivial) true⟩
      · rename_i user huser
        refine ⟨_, rfl, h, fun o ho => ?_, fun _ o ho => ?_, fun _ => .inr ?_⟩
        · rw [List.mem_singleton.mp ho]
          trivial
        · rw [List.mem_singleton.mp ho]
          trivial
        · cases body with
          | none => exact nomatch hr
          | some body => exact ⟨data, rest, body, token, user, rfl, htype, hbody, hr, huser⟩

theorem filtersOf_eq {len n : Nat} (h : parseRemainingLength (data.drop 1) = some (some (len, n))) :
    filtersOf data = filtersFrom data (1 + n + len) (data.length + 1) (1 + n + 2) := by
  rw [filtersOf, h]
  rfl

theorem handleSubscribe_ok (h : SubscriptionsOk s.subscriptions) (hconn : s.connected = true)
    (hdata : data ≠ []) (rest : List (Text × Text)) :
    ∃ reply, handleSubscribe env s data rest = some reply ∧ ReplyOk env s (.frame (.binary data) rest) reply := by
  have hlen : 1 ≤ data.length := List.length_pos_iff.mpr hdata
  obtain ⟨r, hr, -⟩ := parseRemainingLength_spec (data.drop 1)
  unfold handleSubscribe
  rw [sliceFrom_eq hlen, Option.bind_some, hr, Option.bind_some]
  cases r with
  | none => exact ⟨_, rfl, replyOk_silent h false⟩
  | some p =>
    obtain ⟨len, n⟩ := p
    dsimp only
    split
    case isFalse => exact ⟨_, rfl, replyOk_silent h false⟩
    case isTrue hfits =>
      have hkeeps := answer_keeps s.subscriptions [] (filtersOf data)
      have hqos : ∀ f ∈ filtersOf data, f.2 < 0x80 := filtersOf_eq hr ▸ filtersFrom_qos
      obtain ⟨codes, hcodes, hall⟩ := answer_codes h [] hqos
      rw [List.getElem?_eq_getElem (show 1 + n < data.length by omega),
        List.getElem?_eq_getElem (show 1 + n + 1 < data.length by omega), subscribeLoop_eq _ hfits (by omega),
        ← filtersOf_eq hr]
      simp only [Option.bind_eq_bind, Option.bind_some]
      rw [sliceFrom_eq hkeeps.length_le, Option.bind_some]
      refine ⟨_, rfl, answer_ok h [] _, fun o ho => ?_, fun hc => absurd hconn (by rw [hc]; decide), .inl⟩
      rcases List.mem_cons.mp ho with rfl | ho
      · rw [hcodes]
        exact hall
      · exact publishes_ok (fun t ht => List.mem_of_mem_drop ht) _ o ho

theorem packetTypeOf_nil : packetTypeOf [] = none := rfl

theorem handleBinary_ok (h : SubscriptionsOk s.subscriptions) (data : Bytes) (rest : List (Text × Text)) :
    ∃ reply, handleBinary env s data rest = some reply ∧ ReplyOk env s (.frame (.binary data) rest) reply := by
  unfold handleBinary
  dsimp only
  split
  case isTrue => exact ⟨_, rfl, replyOk_silent h true⟩
  case isFalse hfirst =>
    split
    case h_1 htype => exact handleConnect_ok h htype
    case h_2 htype =>
      have hconn : s.connected = true := by simpa [htype] using hfirst
      refine handleSubscribe_ok h hconn (fun hnil => ?_) rest
      rw [hnil, packetTypeOf_nil] at htype
      exact nomatch htype
    case h_3 htype =>
      have hconn : s.connected = true := by simpa [htype] using hfirst
      refine ⟨_, rfl, replyOk_connected h hconn (fun o ho => ?_) false⟩
      rw [List.mem_singleton.mp ho]
      trivial
    case h_4 => exact ⟨_, rfl, replyOk_silent h true⟩
    case h_5 => exact ⟨_, rfl, replyOk_silent h false⟩

/-- Every input is answered, and the answer is in order. -/
theorem handle_ok (env : Env) (h : SubscriptionsOk s.subscriptions) (input : Input) :
    ∃ reply, handle env s input = some reply ∧ ReplyOk env s input reply := by
  cases input with
  | frame frame rest =>
    cases frame with
    | binary data => exact handleBinary_ok h data rest
    | text =>
      exact ⟨_, rfl, replyOk_quiet h (by trivial) true⟩
    | ping => exact ⟨_, rfl, replyOk_silent h false⟩
    | pong => exact ⟨_, rfl, replyOk_silent h false⟩
    | close => exact ⟨_, rfl, replyOk_silent h true⟩
    | failed => exact ⟨_, rfl, replyOk_silent h true⟩
  | endOfStream => exact ⟨_, rfl, replyOk_silent h true⟩
  | connectDeadline =>
    rw [handle]
    split
    · exact ⟨_, rfl, replyOk_silent h false⟩
    · exact ⟨_, rfl, replyOk_quiet h (by trivial) true⟩
  | revoked =>
    rw [handle]
    split
    · exact ⟨_, rfl, replyOk_quiet h (by trivial) true⟩
    · exact ⟨_, rfl, replyOk_silent h false⟩
  | notification msg =>
    rw [handle]
    split
    case isTrue hconn =>
      exact ⟨_, rfl, replyOk_connected h (Bool.and_eq_true_iff.mp hconn).2 (publishes_ok (fun _ ht => ht) _) false⟩
    case isFalse => exact ⟨_, rfl, replyOk_silent h false⟩
  | lagged rest =>
    rw [handle]
    split
    case isTrue hconn =>
      exact ⟨_, rfl, replyOk_connected h (Bool.and_eq_true_iff.mp hconn).2 (publishes_ok (fun _ ht => ht) _) false⟩
    case isFalse => exact ⟨_, rfl, replyOk_silent h false⟩
  | notificationsClosed => exact ⟨_, rfl, h, fun _ ho => (nomatch ho), fun _ _ ho => (nomatch ho), .inl⟩

/-! ## Runs -/

/-- Of each entry of the log, newest first: what was sent is in order, and before an accepted CONNECT it is quiet. -/
def LogOk (env : Env) : List Entry → Prop
  | [] => True
  | e :: older =>
    (∀ o ∈ e.outs, OutOk env e.input e.after o) ∧ ((∀ a ∈ older, ¬ Accepts env a.input) → ∀ o ∈ e.outs, Quiet o) ∧
      LogOk env older

structure Inv (env : Env) (s : Sys) : Prop where
  subscriptions : SubscriptionsOk s.session.subscriptions
  accepted : s.session.connected = true → ∃ a ∈ s.log, Accepts env a.input
  log : LogOk env s.log

theorem inv_start (env : Env) : Inv env .start :=
  ⟨⟨.nil, fun _ ht => (nomatch ht), by decide⟩, fun h => (nomatch h), trivial⟩

theorem inv_step {sys : Sys} (h : Inv env sys) (a : Action) : ∃ sys', step env sys a = some sys' ∧ Inv env sys' := by
  unfold step
  split
  case isFalse => exact ⟨sys, rfl, h⟩
  case isTrue =>
    obtain ⟨reply, hreply, hok⟩ := handle_ok env h.subscriptions a.input
    rw [hreply]
    refine ⟨_, rfl, hok.subscriptions, fun hconn => ?_, fun o ho => hok.outs o (List.mem_of_mem_take ho), ?_, h.log⟩
    · rcases hok.accepted hconn with hconn | hacc
      · obtain ⟨e, he, hacc⟩ := h.accepted hconn
        exact ⟨e, List.mem_cons_of_mem _ he, hacc⟩
      · exact ⟨_, List.mem_cons_self, hacc⟩
    · intro hnone o ho
      refine hok.quiet (Bool.eq_false_iff.mpr fun hconn => ?_) o (List.mem_of_mem_take ho)
      obtain ⟨e, he, hacc⟩ := h.accepted hconn
      exact hnone e he hacc

theorem run_inv {sys : Sys} (h : Inv env sys) (actions : List Action) :
    ∃ sys', run (step env) sys actions = some sys' ∧ Inv env sys' := by
  induction actions generalizing sys with
  | nil => exact ⟨sys, rfl, h⟩
  | cons a actions ih =>
    obtain ⟨sys₁, hstep, h₁⟩ := inv_step h a
    obtain ⟨sys', hrun, h'⟩ := ih h₁
    exact ⟨sys', run_cons_eq_some.mpr ⟨sys₁, hstep, hrun⟩, h'⟩

theorem LogOk.entry {e : Entry} {newer older : List Entry} (h : LogOk env (newer ++ e :: older)) :
    LogOk env (e :: older) := by
  induction newer with
  | nil => exact h
  | cons _ newer ih => exact ih h.2.2

/-- Whatever comes in, the session goes on without a panic, and what it sends is in order. -/
theorem session_safe (env : Env) (actions : List Action) :
    ∃ sys, run (step env) .start actions = some sys ∧ SubscriptionsOk sys.session.subscriptions ∧
      ∀ newer e older, sys.log = newer ++ e :: older →
        (∀ o ∈ e.outs, OutOk env e.input e.after o) ∧
        ((∀ a ∈ older, ¬ Accepts env a.input) → ∀ o ∈ e.outs, Quiet o) := by
  obtain ⟨sys, hrun, hinv⟩ := run_inv (inv_start env) actions
  refine ⟨sys, hrun, hinv.subscriptions, fun newer e older hlog => ?_⟩
  have hentry : LogOk env (e :: older) := (hlog ▸ hinv.log).entry
  exact ⟨hentry.1, hentry.2.1⟩

end MqttSession
