import RemarkableServer.MqttSession

/-!
# The CONNECT packets that are accepted

A CONNECT is a protocol name and level, flags, a keep-alive and the fields that the
flags declare, each after its length. The parser takes exactly the well-formed ones,
and reads the token from the credentials and from no other field.
-/
namespace MqttConnect

open RustText Mqtt MqttSession

/-- A field after its length. -/
def lengthPrefixed (b : Bytes) : Bytes := toBeBytes b.length ++ b

/-- A field that may be missing. -/
def optional (o : Option Bytes) : Bytes := o.elim [] lengthPrefixed

/-- The fields that flags declare, after the client id. -/
structure Payload where
  clientId : Bytes
  will : Option (Bytes × Bytes)
  username : Option Bytes
  password : Option Bytes

namespace Payload

variable (p : Payload)

def willTopic : Option Bytes := p.will.map Prod.fst

def willMessage : Option Bytes := p.will.map Prod.snd

def payload : Bytes :=
  lengthPrefixed p.clientId ++ optional p.willTopic ++ optional p.willMessage ++ optional p.username ++
    optional p.password

/-- The fields that are text. -/
def texts : List Bytes := p.clientId :: (p.willTopic.toList ++ p.username.toList)

def fields : List Bytes := p.texts ++ p.willMessage.toList ++ p.password.toList

/-- The password, or the username where there is no password or an empty one. -/
def token : Option Text := ((p.password.filter fun p => !p.isEmpty).or p.username).bind Utf8Codec.decode

/-- Fields that their two bytes can give the length of, and text where it is declared. -/
def WellFormed : Prop :=
  (∀ f ∈ p.fields, f.length < 65536) ∧ ∀ f ∈ p.texts, (Utf8Codec.decode f).isSome = true

end Payload

/-- What a CONNECT is put together from. -/
structure Connect extends Payload where
  name : Text
  level : UInt8
  flags : UInt8
  keepAlive : UInt8 × UInt8

def Connect.bytes (c : Connect) : Bytes :=
  lengthPrefixed (Utf8Codec.encode c.name) ++ [c.level, c.flags, c.keepAlive.1, c.keepAlive.2] ++ c.payload

/-- The level that belongs to the name of a protocol. -/
def levelOf (name : Text) : Option UInt8 :=
  if name = "MQTT".toList then some 4 else if name = "MQIsdp".toList then some 3 else none

/-- Flags that declare the fields and contradict neither each other nor the standard. -/
structure Valid (c : Connect) : Prop where
  level : levelOf c.name = some c.level
  reserved : c.flags &&& 0x01 = 0
  will : c.will.isSome = (c.flags &&& 0x04 != 0)
  willBits : c.will = none → c.flags &&& 0x38 = 0
  username : c.username.isSome = (c.flags &&& 0x80 != 0)
  password : c.password.isSome = (c.flags &&& 0x40 != 0)
  usernameFirst : c.password.isSome = true → c.username.isSome = true
  wellFormed : c.WellFormed

variable {body data : Bytes} {pos pos' : Nat} {α β : Type}

/-! ## Results of a parse -/

theorem bind_ok_iff {x : Parse α} {f : α → Parse β} {b : β} :
    (x >>= f).run = some (.ok b) ↔ ∃ a, x.run = some (.ok a) ∧ (f a).run = some (.ok b) := by
  rw [ExceptT.run_bind]
  cases h : x.run with
  | none => simp
  | some r => cases r <;> simp

theorem bind_error_iff {x : Parse α} {f : α → Parse β} {e : ConnectError} :
    (x >>= f).run = some (.error e) ↔
      x.run = some (.error e) ∨ ∃ a, x.run = some (.ok a) ∧ (f a).run = some (.error e) := by
  rw [ExceptT.run_bind]
  cases h : x.run with
  | none => simp
  | some r => cases r <;> simp

theorem pure_ok_iff {a b : α} : (pure a : Parse α).run = some (.ok b) ↔ a = b := by
  simp [ExceptT.run_pure]

theorem throw_ok {e : ConnectError} {b : α} : (throw e : Parse α).run ≠ some (.ok b) := by
  simp

theorem throw_error_iff {e e' : ConnectError} : (throw e : Parse α).run = some (.error e') ↔ e = e' := by
  simp

theorem lift_ok_iff {x : Option α} {a : α} : (ExceptT.lift x : Parse α).run = some (.ok a) ↔ x = some a := by
  simp [ExceptT.run_lift]

theorem lift_error {x : Option α} {e : ConnectError} : (ExceptT.lift x : Parse α).run ≠ some (.error e) := by
  simp [ExceptT.run_lift]

variable {b : Bytes} {o : Option Bytes} {string declared : Bool}

@[simp] theorem lengthPrefixed_length (b : Bytes) : (lengthPrefixed b).length = 2 + b.length := by
  simp only [lengthPrefixed, toBeBytes, List.length_append, List.length_cons, List.length_nil]

theorem toBeBytes_eq {n : Nat} {high low : UInt8} (hn : n = high.toNat * 256 + low.toNat) : toBeBytes n = [high, low] := by
  have hlow := low.toNat_lt
  have hquot : n / 256 = high.toNat := by omega
  rw [toBeBytes, Utf8Codec.ofNat_eq hquot]
  congr 2
  apply UInt8.toNat_inj.mp
  rw [UInt8.toNat_ofNat']
  omega

/-- Its two bytes give the length back where it fits into them. -/
theorem toNat_toBeBytes {n : Nat} (hn : n < 65536) :
    (UInt8.ofNat (n / 256)).toNat * 256 + (UInt8.ofNat n).toNat = n := by
  rw [UInt8.toNat_ofNat', UInt8.toNat_ofNat']
  omega

theorem parseMqttBytes_iff {n : Nat} :
    parseMqttBytes data = some (some (b, n)) ↔
      ∃ rest, data = lengthPrefixed b ++ rest ∧ b.length < 65536 ∧ n = (lengthPrefixed b).length := by
  constructor
  · intro h
    match data with
    | [] => simp [parseMqttBytes] at h
    | [_] => simp [parseMqttBytes] at h
    | high :: low :: rest =>
      have hhigh := high.toNat_lt
      have hlow := low.toNat_lt
      simp only [parseMqttBytes, slice, List.length_cons, List.getElem?_cons_zero, List.getElem?_cons_succ,
        Option.bind_eq_bind, Option.bind_some] at h
      rw [if_neg (by omega)] at h
      split at h
      case isTrue => simp at h
      case isFalse hlen =>
        rw [if_pos (by omega), Option.map_some, Option.some.injEq, Option.some.injEq, Prod.mk.injEq] at h
        obtain ⟨hb, rfl⟩ := h
        have hb : rest.take (high.toNat * 256 + low.toNat) = b := by
          rw [← hb, List.drop_succ_cons, List.drop_succ_cons, List.drop_zero]
          congr 1
          omega
        have hlength : b.length = high.toNat * 256 + low.toNat := by
          rw [← hb, List.length_take]
          omega
        refine ⟨rest.drop b.length, ?_, by omega, by rw [lengthPrefixed_length, hlength]⟩
        rw [lengthPrefixed, toBeBytes_eq hlength, hlength]
        nth_rewrite 1 [← hb]
        simp only [List.cons_append, List.nil_append, List.take_append_drop]
  · rintro ⟨rest, rfl, hb, rfl⟩
    simp only [parseMqttBytes, slice, lengthPrefixed, toBeBytes, List.cons_append, List.nil_append, List.length_cons,
      List.length_append, List.getElem?_cons_zero, List.getElem?_cons_succ, Option.bind_eq_bind, Option.bind_some]
    rw [toNat_toBeBytes hb, if_neg (by omega), if_neg (by omega), if_pos (by omega)]
    simp only [List.drop_succ_cons, List.drop_zero, Nat.add_sub_cancel_left, List.take_left', Option.map_some]
    rw [Nat.add_comm 2]

/-- From `pos` to `pos'` the body is `out`. -/
def Reads (body : Bytes) (pos : Nat) (out : Bytes) (pos' : Nat) : Prop :=
  body.drop pos = out ++ body.drop pos' ∧ pos' = pos + out.length

theorem reads_of_drop {out rest : Bytes} (h : body.drop pos = out ++ rest) : Reads body pos out (pos + out.length) := by
  refine ⟨?_, rfl⟩
  have hrest : body.drop (pos + out.length) = rest := by rw [← List.drop_drop, h, List.drop_left]
  rw [hrest, h]

theorem Reads.append {out out' : Bytes} {pos'' : Nat} (h : Reads body pos out pos') (h' : Reads body pos' out' pos'') :
    Reads body pos (out ++ out') pos'' := by
  obtain ⟨h₁, h₂⟩ := h
  obtain ⟨h₃, h₄⟩ := h'
  refine ⟨by rw [h₁, h₃, List.append_assoc], ?_⟩
  rw [h₄, h₂, List.length_append, Nat.add_assoc]

theorem Reads.split {out out' : Bytes} (h : Reads body pos (out ++ out') pos') :
    ∃ middle, Reads body pos out middle ∧ Reads body middle out' pos' := by
  obtain ⟨hdrop, hpos⟩ := h
  rw [List.append_assoc] at hdrop
  have hfirst := reads_of_drop hdrop
  refine ⟨_, hfirst, List.append_cancel_left (hfirst.1.symm.trans hdrop), ?_⟩
  rw [hpos, List.length_append, Nat.add_assoc]

/-- A field that its two bytes can give the length of, and that is text where it has to be. -/
def Fits (string : Bool) (b : Bytes) : Prop := b.length < 65536 ∧ (string = true → (Utf8Codec.decode b).isSome = true)

theorem field_ok_iff :
    (field body pos string).run = some (.ok (b, pos')) ↔ Reads body pos (lengthPrefixed b) pos' ∧ Fits string b := by
  constructor
  · intro h
    rw [field] at h
    split at h
    case isTrue => exact absurd h throw_ok
    case isFalse =>
      obtain ⟨parsed, hparsed, h⟩ := bind_ok_iff.mp h
      have hparsed := lift_ok_iff.mp hparsed
      match parsed with
      | none => exact absurd h throw_ok
      | some (b', n) =>
        obtain ⟨rest, hdrop, hlength, rfl⟩ := parseMqttBytes_iff.mp hparsed
        dsimp only at h
        split at h
        case isTrue => exact absurd h throw_ok
        case isFalse htext =>
          have heq := pure_ok_iff.mp h
          cases heq
          refine ⟨reads_of_drop hdrop, hlength, fun hs => ?_⟩
          simpa [hs, Option.isSome_iff_ne_none] using htext
  · rintro ⟨⟨hdrop, hpos⟩, hlength, htext⟩
    have hin : ¬ body.length < pos := by
      intro hlt
      rw [List.drop_eq_nil_of_le (by omega)] at hdrop
      have hzero := congrArg List.length hdrop
      rw [List.length_append, lengthPrefixed_length, List.length_nil] at hzero
      omega
    rw [field, if_neg hin]
    refine bind_ok_iff.mpr ⟨some (b, _), lift_ok_iff.mpr (parseMqttBytes_iff.mpr ⟨_, hdrop, hlength, rfl⟩), ?_⟩
    have hvalid : (string && (Utf8Codec.decode b).isNone) = false := by
      cases string with
      | false => rfl
      | true => simpa using htext rfl
    simp only [hvalid, hpos]
    rfl

theorem optionalField_ok_iff :
    (optionalField declared body pos string).run = some (.ok (o, pos')) ↔
      o.isSome = declared ∧ Reads body pos (optional o) pos' ∧ ∀ b ∈ o, Fits string b := by
  cases declared with
  | false =>
    rw [optionalField, if_neg Bool.false_ne_true, pure_ok_iff, Prod.mk.injEq]
    constructor
    · rintro ⟨rfl, rfl⟩
      exact ⟨rfl, ⟨rfl, rfl⟩, by simp⟩
    · rintro ⟨hnone, ⟨-, hpos⟩, -⟩
      cases o with
      | none => exact ⟨rfl, hpos.symm⟩
      | some b => simp at hnone
  | true =>
    rw [optionalField, if_pos rfl, bind_ok_iff]
    constructor
    · rintro ⟨⟨b, pos₁⟩, hfield, hpure⟩
      obtain ⟨hreads, hfits⟩ := field_ok_iff.mp hfield
      have heq := pure_ok_iff.mp hpure
      cases heq
      exact ⟨rfl, hreads, fun b' hb => by cases hb; exact hfits⟩
    · rintro ⟨hsome, hreads, hfits⟩
      cases o with
      | none => simp at hsome
      | some b => exact ⟨(b, pos'), field_ok_iff.mpr ⟨hreads, hfits b rfl⟩, pure_ok_iff.mpr rfl⟩

theorem wellFormed_iff {p : Payload} :
    p.WellFormed ↔ Fits true p.clientId ∧ (∀ b ∈ p.willTopic, Fits true b) ∧ (∀ b ∈ p.willMessage, Fits false b) ∧
      (∀ b ∈ p.username, Fits true b) ∧ ∀ b ∈ p.password, Fits false b := by
  simp only [Payload.WellFormed, Payload.fields, Payload.texts, Fits, List.cons_append, List.mem_cons, List.mem_append,
    Option.mem_toList, Option.mem_def]
  grind

/-- A will is a topic and a message. -/
theorem exists_will {topic message : Option Bytes} (h : topic.isSome = message.isSome) :
    ∃ will : Option (Bytes × Bytes), will.map Prod.fst = topic ∧ will.map Prod.snd = message := by
  cases topic with
  | none =>
    cases message with
    | none => exact ⟨none, rfl, rfl⟩
    | some m => simp at h
  | some t =>
    cases message with
    | none => simp at h
    | some m => exact ⟨some (t, m), rfl, rfl⟩

/-- Every field is there, in its place, and nothing follows the last one. -/
theorem payloadToken_ok_iff {will usernameFlag passwordFlag : Bool} {token : Option Text} :
    (payloadToken body pos will usernameFlag passwordFlag).run = some (.ok token) ↔
      ∃ p : Payload, body.drop pos = p.payload ∧ p.WellFormed ∧ p.will.isSome = will ∧
        p.username.isSome = usernameFlag ∧ p.password.isSome = passwordFlag ∧ p.token = token := by
  constructor
  · intro h
    rw [payloadToken] at h
    obtain ⟨⟨clientId, pos₁⟩, h₁, h⟩ := bind_ok_iff.mp h
    obtain ⟨⟨willTopic, pos₂⟩, h₂, h⟩ := bind_ok_iff.mp h
    obtain ⟨⟨willMessage, pos₃⟩, h₃, h⟩ := bind_ok_iff.mp h
    obtain ⟨⟨username, pos₄⟩, h₄, h⟩ := bind_ok_iff.mp h
    obtain ⟨⟨password, pos₅⟩, h₅, h⟩ := bind_ok_iff.mp h
    obtain ⟨reads₁, fits₁⟩ := field_ok_iff.mp h₁
    obtain ⟨some₂, reads₂, fits₂⟩ := optionalField_ok_iff.mp h₂
    obtain ⟨some₃, reads₃, fits₃⟩ := optionalField_ok_iff.mp h₃
    obtain ⟨some₄, reads₄, fits₄⟩ := optionalField_ok_iff.mp h₄
    obtain ⟨some₅, reads₅, fits₅⟩ := optionalField_ok_iff.mp h₅
    dsimp only at h
    split at h
    case isTrue => exact absurd h throw_ok
    case isFalse hend =>
      have hend : pos₅ = body.length := by simpa using hend
      have hall := (((reads₁.append reads₂).append reads₃).append reads₄).append reads₅
      have hdrop := hall.1
      rw [hend, List.drop_length, List.append_nil] at hdrop
      have htoken := pure_ok_iff.mp h
      obtain ⟨willPair, rfl, rfl⟩ := exists_will (some₂.trans some₃.symm)
      refine ⟨⟨clientId, willPair, username, password⟩, hdrop, ?_, ?_, some₄, some₅, htoken⟩
      · exact wellFormed_iff.mpr ⟨fits₁, fits₂, fits₃, fits₄, fits₅⟩
      · rw [← some₂, Option.isSome_map]
  · rintro ⟨p, hdrop, hformed, hwill, husername, hpassword, rfl⟩
    obtain ⟨fits₁, fits₂, fits₃, fits₄, fits₅⟩ := wellFormed_iff.mp hformed
    have hwhole : body.length = pos + p.payload.length := by
      have hlength := congrArg List.length hdrop
      have hpos : 2 ≤ p.payload.length := by
        simp only [Payload.payload, List.length_append, lengthPrefixed_length]
        omega
      rw [List.length_drop] at hlength
      omega
    have hall : Reads body pos p.payload body.length := by
      refine ⟨?_, hwhole⟩
      rw [hdrop, List.drop_length, List.append_nil]
    obtain ⟨pos₄, hall, reads₅⟩ := hall.split
    obtain ⟨pos₃, hall, reads₄⟩ := hall.split
    obtain ⟨pos₂, hall, reads₃⟩ := hall.split
    obtain ⟨pos₁, reads₁, reads₂⟩ := hall.split
    rw [payloadToken]
    refine bind_ok_iff.mpr ⟨(p.clientId, pos₁), field_ok_iff.mpr ⟨reads₁, fits₁⟩, ?_⟩
    refine bind_ok_iff.mpr ⟨(p.willTopic, pos₂), optionalField_ok_iff.mpr ⟨?_, reads₂, fits₂⟩, ?_⟩
    · rw [Payload.willTopic, Option.isSome_map, hwill]
    refine bind_ok_iff.mpr ⟨(p.willMessage, pos₃), optionalField_ok_iff.mpr ⟨?_, reads₃, fits₃⟩, ?_⟩
    · rw [Payload.willMessage, Option.isSome_map, hwill]
    refine bind_ok_iff.mpr ⟨(p.username, pos₄), optionalField_ok_iff.mpr ⟨husername, reads₄, fits₄⟩, ?_⟩
    refine bind_ok_iff.mpr ⟨(p.password, body.length), optionalField_ok_iff.mpr ⟨hpassword, reads₅, fits₅⟩, ?_⟩
    dsimp only
    rw [if_neg (by simp)]
    rfl

/-! ## The name and the level -/

theorem checkLevel_eq (name : Text) (level : UInt8) :
    checkLevel name level = match levelOf name with
      | none => throw .malformed
      | some l => if level = l then pure () else throw .unsupportedLevel := by
  have hdistinct : "MQIsdp".toList ≠ "MQTT".toList := by decide
  simp only [checkLevel, levelOf]
  generalize "MQTT".toList = mqtt at hdistinct ⊢
  generalize "MQIsdp".toList = mqisdp at hdistinct ⊢
  by_cases h₁ : name = mqtt
  · subst h₁
    simp [hdistinct.symm]
  · by_cases h₂ : name = mqisdp
    · subst h₂
      simp [hdistinct]
    · simp [h₁, h₂]

theorem checkLevel_ok_iff {name : Text} {level : UInt8} :
    (checkLevel name level).run = some (.ok ()) ↔ levelOf name = some level := by
  rw [checkLevel_eq]
  cases levelOf name with
  | none => simp
  | some l =>
    by_cases h : level = l
    · simp [h]
    · simp [h, Ne.symm h]

theorem checkLevel_unsupported_iff {name : Text} {level : UInt8} :
    (checkLevel name level).run = some (.error .unsupportedLevel) ↔ levelOf name ≠ none ∧ levelOf name ≠ some level := by
  rw [checkLevel_eq]
  cases levelOf name with
  | none => simp
  | some l =>
    by_cases h : level = l
    · simp [h]
    · simp [h, Ne.symm h]

/-- Nothing after the level is an unsupported level. -/
def NotLevel {α : Type} (x : Parse α) : Prop := x.run ≠ some (.error .unsupportedLevel)

theorem notLevel_bind {x : Parse α} {f : α → Parse β} (hx : NotLevel x) (hf : ∀ a, NotLevel (f a)) : NotLevel (x >>= f) := by
  intro h
  obtain hx' | ⟨a, -, ha⟩ := bind_error_iff.mp h
  · exact hx hx'
  · exact hf a ha

theorem notLevel_malformed : NotLevel (throw .malformed : Parse α) := fun h => nomatch throw_error_iff.mp h

theorem notLevel_pure (a : α) : NotLevel (pure a : Parse α) := by
  intro h
  cases h

theorem notLevel_ite {p : Prop} [Decidable p] {x y : Parse α} (hx : NotLevel x) (hy : NotLevel y) :
    NotLevel (if p then x else y) := by
  split
  · exact hx
  · exact hy

theorem notLevel_field : NotLevel (field body pos string) := by
  apply notLevel_ite notLevel_malformed
  apply notLevel_bind (fun h => lift_error h)
  intro parsed
  cases parsed with
  | none => exact notLevel_malformed
  | some p => exact notLevel_ite notLevel_malformed (notLevel_pure _)

theorem notLevel_optionalField : NotLevel (optionalField declared body pos string) :=
  notLevel_ite (notLevel_bind notLevel_field fun _ => notLevel_pure _) (notLevel_pure _)

theorem notLevel_payloadToken {will usernameFlag passwordFlag : Bool} :
    NotLevel (payloadToken body pos will usernameFlag passwordFlag) := by
  apply notLevel_bind notLevel_field
  intro _
  apply notLevel_bind notLevel_optionalField
  intro _
  apply notLevel_bind notLevel_optionalField
  intro _
  apply notLevel_bind notLevel_optionalField
  intro _
  apply notLevel_bind notLevel_optionalField
  intro _
  exact notLevel_ite notLevel_malformed (notLevel_pure _)

/-! ## The whole packet -/

/-- The flags, and the payload that they declare. -/
def afterLevel (body : Bytes) (pos : Nat) (flags : UInt8) : Parse (Option Text) :=
  if flags &&& 0x01 != 0 || (!(flags &&& 0x04 != 0) && flags &&& 0x38 != 0) ||
    (flags &&& 0x40 != 0 && !(flags &&& 0x80 != 0)) then throw .malformed
  else payloadToken body pos (flags &&& 0x04 != 0) (flags &&& 0x80 != 0) (flags &&& 0x40 != 0)

theorem lift_some_bind (a : α) (f : α → Parse β) : ExceptT.lift (some a) >>= f = f a := rfl

theorem connectToken_header {name : Text} {level flags k₁ k₂ : UInt8} {rest : Bytes}
    (hname : (Utf8Codec.encode name).length < 65536)
    (hbody : body = lengthPrefixed (Utf8Codec.encode name) ++ level :: flags :: k₁ :: k₂ :: rest) :
    ∃ pos, body.drop pos = rest ∧
      connectToken body = (do checkLevel name level; afterLevel body pos flags) := by
  have hbytes := parseMqttBytes_iff.mpr ⟨_, hbody, hname, rfl⟩
  have hstring : parseMqttString body = some (some (name, (lengthPrefixed (Utf8Codec.encode name)).length)) := by
    rw [parseMqttString, hbytes, Option.map_some, Option.bind_some]
    dsimp only
    rw [Utf8Codec.decode_encode, Option.map_some]
  have hdrop : body.drop (lengthPrefixed (Utf8Codec.encode name)).length = level :: flags :: k₁ :: k₂ :: rest := by
    rw [hbody, List.drop_left]
  refine ⟨(lengthPrefixed (Utf8Codec.encode name)).length + 4, ?_, ?_⟩
  · rw [← List.drop_drop, hdrop]
    rfl
  · rw [connectToken, hstring, lift_some_bind]
    dsimp only
    rw [hdrop]
    rfl

theorem levelOf_short {name : Text} {level : UInt8} (h : levelOf name = some level) :
    (Utf8Codec.encode name).length < 65536 := by
  rw [levelOf] at h
  split at h
  case isTrue hmqtt =>
    rw [hmqtt]
    decide
  case isFalse =>
    split at h
    case isTrue hmqisdp =>
      rw [hmqisdp]
      decide
    case isFalse => cases h

/-- A body with no name, level, flags and keep-alive is malformed. -/
theorem connectToken_cases (body : Bytes) :
    (connectToken body).run = some (.error .malformed) ∨
      ∃ name level flags k₁ k₂ rest, (Utf8Codec.encode name).length < 65536 ∧
        body = lengthPrefixed (Utf8Codec.encode name) ++ level :: flags :: k₁ :: k₂ :: rest := by
  obtain ⟨parsed, hparsed, -⟩ := parseMqttString_spec body
  cases parsed with
  | none =>
    left
    rw [connectToken, hparsed]
    rfl
  | some p =>
    obtain ⟨name, pos⟩ := p
    obtain ⟨bytes, hbytes, hname⟩ := Option.map_eq_some_iff.mp hparsed
    cases bytes with
    | none => cases hname
    | some found =>
      obtain ⟨b, n⟩ := found
      obtain ⟨name', hdecode, heq⟩ := Option.map_eq_some_iff.mp hname
      cases heq
      obtain rfl := Utf8Codec.decode_iff.mp hdecode
      obtain ⟨rest, rfl, hlength, rfl⟩ := parseMqttBytes_iff.mp hbytes
      rw [connectToken, hparsed, lift_some_bind]
      dsimp only
      rw [List.drop_left]
      rcases rest with _ | ⟨level, _ | ⟨flags, _ | ⟨k₁, _ | ⟨k₂, rest⟩⟩⟩⟩
      · exact .inl rfl
      · exact .inl rfl
      · exact .inl rfl
      · exact .inl rfl
      · exact .inr ⟨name, level, flags, k₁, k₂, rest, hlength, rfl⟩

theorem afterLevel_ok_iff {flags : UInt8} {token : Option Text} :
    (afterLevel body pos flags).run = some (.ok token) ↔
      ∃ p : Payload, body.drop pos = p.payload ∧ p.WellFormed ∧ flags &&& 0x01 = 0 ∧
        p.will.isSome = (flags &&& 0x04 != 0) ∧ (p.will = none → flags &&& 0x38 = 0) ∧
        p.username.isSome = (flags &&& 0x80 != 0) ∧ p.password.isSome = (flags &&& 0x40 != 0) ∧
        (p.password.isSome = true → p.username.isSome = true) ∧ p.token = token := by
  rw [afterLevel]
  split
  case isTrue hbad =>
    constructor
    · intro h
      exact absurd h throw_ok
    · rintro ⟨p, -, -, hreserved, hwill, hbits, husername, hpassword, hfirst, -⟩
      rw [← hwill, ← husername, ← hpassword] at hbad
      simp only [hreserved, Bool.or_eq_true, Bool.and_eq_true, bne_self_eq_false, Bool.not_eq_true'] at hbad
      obtain (hbad | ⟨hnone, hset⟩) | ⟨hsome, hnone⟩ := hbad
      · exact absurd hbad Bool.false_ne_true
      · rw [hbits (Option.isNone_iff_eq_none.mp (by simpa using hnone))] at hset
        exact absurd hset Bool.false_ne_true
      · rw [hfirst hsome] at hnone
        exact absurd hnone.symm Bool.false_ne_true
  case isFalse hgood =>
    simp only [Bool.not_eq_true, Bool.or_eq_false_iff, Bool.and_eq_false_iff, bne_eq_false_iff_eq, Bool.not_eq_false',
      bne_iff_ne] at hgood
    obtain ⟨⟨hreserved, hbits⟩, hfirst⟩ := hgood
    rw [payloadToken_ok_iff]
    constructor
    · rintro ⟨p, hdrop, hformed, hwill, husername, hpassword, htoken⟩
      refine ⟨p, hdrop, hformed, hreserved, hwill, ?_, husername, hpassword, ?_, htoken⟩
      · intro hnone
        rw [hnone] at hwill
        exact hbits.resolve_left fun hset => by simp [hset] at hwill
      · intro hsome
        rw [hpassword] at hsome
        rw [husername]
        exact bne_iff_ne.mpr (hfirst.resolve_left fun hclear => by simp [hclear] at hsome)
    · rintro ⟨p, hdrop, hformed, -, hwill, -, husername, hpassword, -, htoken⟩
      exact ⟨p, hdrop, hformed, hwill, husername, hpassword, htoken⟩

theorem notLevel_afterLevel {flags : UInt8} : NotLevel (afterLevel body pos flags) :=
  notLevel_ite notLevel_malformed notLevel_payloadToken

/-- The body has a protocol's name and the four bytes after it, and they have `level` as the level. -/
def Header (name : Text) (level : UInt8) (body : Bytes) : Prop :=
  ∃ flags k₁ k₂ rest, body = lengthPrefixed (Utf8Codec.encode name) ++ level :: flags :: k₁ :: k₂ :: rest

theorem connectToken_ok_iff {token : Option Text} :
    (connectToken body).run = some (.ok token) ↔ ∃ c : Connect, Valid c ∧ c.bytes = body ∧ c.token = token := by
  constructor
  · intro h
    obtain hmalformed | ⟨name, level, flags, k₁, k₂, rest, hname, hbody⟩ := connectToken_cases body
    · rw [hmalformed] at h
      cases h
    · obtain ⟨pos, hdrop, hrun⟩ := connectToken_header hname hbody
      rw [hrun] at h
      obtain ⟨⟨⟩, hlevel, hafter⟩ := bind_ok_iff.mp h
      obtain ⟨p, hpayload, hformed, hreserved, hwill, hbits, husername, hpassword, hfirst, htoken⟩ :=
        afterLevel_ok_iff.mp hafter
      refine ⟨⟨p, name, level, flags, (k₁, k₂)⟩, ?_, ?_, htoken⟩
      · exact ⟨checkLevel_ok_iff.mp hlevel, hreserved, hwill, hbits, husername, hpassword, hfirst, hformed⟩
      · rw [hbody, Connect.bytes, ← hpayload, hdrop, List.append_assoc]
        rfl
  · rintro ⟨c, hvalid, rfl, rfl⟩
    have hbody : c.bytes = lengthPrefixed (Utf8Codec.encode c.name) ++
        c.level :: c.flags :: c.keepAlive.1 :: c.keepAlive.2 :: c.payload := by
      rw [Connect.bytes, List.append_assoc]
      rfl
    obtain ⟨pos, hdrop, hrun⟩ := connectToken_header (levelOf_short hvalid.level) hbody
    rw [hrun]
    refine bind_ok_iff.mpr ⟨(), checkLevel_ok_iff.mpr hvalid.level, afterLevel_ok_iff.mpr ⟨c.toPayload, hdrop, ?_⟩⟩
    exact ⟨hvalid.wellFormed, hvalid.reserved, hvalid.will, hvalid.willBits, hvalid.username, hvalid.password,
      hvalid.usernameFirst, rfl⟩

theorem connectToken_unsupported_iff :
    (connectToken body).run = some (.error .unsupportedLevel) ↔
      ∃ name level, levelOf name ≠ none ∧ levelOf name ≠ some level ∧ Header name level body := by
  constructor
  · intro h
    obtain hmalformed | ⟨name, level, flags, k₁, k₂, rest, hname, hbody⟩ := connectToken_cases body
    · rw [hmalformed] at h
      cases h
    · obtain ⟨pos, -, hrun⟩ := connectToken_header hname hbody
      rw [hrun] at h
      obtain hlevel | ⟨-, -, hafter⟩ := bind_error_iff.mp h
      · obtain ⟨hknown, hother⟩ := checkLevel_unsupported_iff.mp hlevel
        exact ⟨name, level, hknown, hother, flags, k₁, k₂, rest, hbody⟩
      · exact absurd hafter notLevel_afterLevel
  · rintro ⟨name, level, hknown, hother, flags, k₁, k₂, rest, hbody⟩
    obtain ⟨l, hl⟩ := Option.ne_none_iff_exists'.mp hknown
    obtain ⟨pos, -, hrun⟩ := connectToken_header (levelOf_short hl) hbody
    rw [hrun]
    exact bind_error_iff.mpr (.inl (checkLevel_unsupported_iff.mpr ⟨hknown, hother⟩))

/-- The well-formed packets are accepted, and give their token; a known protocol of
another level is told so; every other body is malformed. -/
theorem connectToken_exact (body : Bytes) :
    (∀ token, (connectToken body).run = some (.ok token) ↔ ∃ c : Connect, Valid c ∧ c.bytes = body ∧ c.token = token) ∧
      ((connectToken body).run = some (.error .unsupportedLevel) ↔
        ∃ name level, levelOf name ≠ none ∧ levelOf name ≠ some level ∧ Header name level body) ∧
      ((connectToken body).run = some (.error .malformed) ↔
        (¬ ∃ c : Connect, Valid c ∧ c.bytes = body) ∧
          ¬ ∃ name level, levelOf name ≠ none ∧ levelOf name ≠ some level ∧ Header name level body) := by
  refine ⟨fun token => connectToken_ok_iff, connectToken_unsupported_iff, ?_⟩
  rw [← connectToken_unsupported_iff]
  have haccepted : (∃ c : Connect, Valid c ∧ c.bytes = body) ↔ ∃ token, (connectToken body).run = some (.ok token) := by
    constructor
    · rintro ⟨c, hvalid, hbytes⟩
      exact ⟨c.token, connectToken_ok_iff.mpr ⟨c, hvalid, hbytes, rfl⟩⟩
    · rintro ⟨token, h⟩
      obtain ⟨c, hvalid, hbytes, -⟩ := connectToken_ok_iff.mp h
      exact ⟨c, hvalid, hbytes⟩
  rw [haccepted]
  obtain ⟨r, hr⟩ := connectToken_safe body
  rw [hr]
  match r with
  | .ok token => simp
  | .error .malformed => simp
  | .error .unsupportedLevel => simp

end MqttConnect
