import Mathlib.Tactic.Ring
import RemarkableServer.MqttConnect

/-!
# The framing of packets

The writer and the reader of the remaining length are two loops: base 128 digits on the one side,
a multiplier with a cutoff of its own on the other. They agree on every length that has four digits
or fewer, and a packet whose length does is read back as it was built.
-/
namespace MqttFraming

open RustText Mqtt MqttConnect

/-! ## One digit -/

/-- The last digit has its upper bit clear. -/
theorem last_digit (d : Fin 128) :
    (UInt8.ofNat d &&& 0x7F).toNat = d ∧ (UInt8.ofNat d &&& 0x80 == 0) = true := by
  revert d
  decide

theorem digit_continues (d : Fin 128) :
    ((UInt8.ofNat d ||| 0x80) &&& 0x7F).toNat = d ∧ ((UInt8.ofNat d ||| 0x80) &&& 0x80 == 0) = false := by
  revert d
  decide

theorem last_digit_of_lt {d : Nat} (h : d < 128) :
    (UInt8.ofNat d &&& 0x7F).toNat = d ∧ (UInt8.ofNat d &&& 0x80 == 0) = true :=
  last_digit ⟨d, h⟩

theorem digit_continues_of_lt {d : Nat} (h : d < 128) :
    ((UInt8.ofNat d ||| 0x80) &&& 0x7F).toNat = d ∧ ((UInt8.ofNat d ||| 0x80) &&& 0x80 == 0) = false :=
  digit_continues ⟨d, h⟩

/-! ## The loops -/

theorem getElem?_append_cons (pre rest : Bytes) (byte : UInt8) : (pre ++ byte :: rest)[pre.length]? = some byte := by
  rw [List.getElem?_append_right (le_refl _), Nat.sub_self, List.getElem?_cons_zero]

/-- One round of the reader. -/
theorem remainingLength_cons (pre rest : Bytes) (byte : UInt8) (rounds multiplier value : Nat) :
    remainingLength (pre ++ byte :: rest) (rounds + 1) multiplier value pre.length =
      if byte &&& 0x80 == 0 then some (some (value + (byte &&& 0x7F).toNat * multiplier, pre.length + 1))
      else if 128 * 128 * 128 < multiplier * 128 then some none
      else
        remainingLength (pre ++ byte :: rest) rounds (multiplier * 128) (value + (byte &&& 0x7F).toNat * multiplier)
          (pre.length + 1) := by
  have hin : ¬ (pre ++ byte :: rest).length ≤ pre.length := by simp
  rw [remainingLength, if_neg hin, getElem?_append_cons, Option.bind_some]

theorem pushRemainingLength_ne_nil {digits : Nat} (hpos : 0 < digits) (len : Nat) : pushRemainingLength digits len ≠ [] := by
  cases digits with
  | zero => omega
  | succ digits =>
    rw [pushRemainingLength]
    split <;> exact List.cons_ne_nil _ _

/-- From any digit on, the reader takes the digits that the writer wrote, `n` of them at most. -/
theorem remainingLength_push (suffix pre : Bytes) (multiplier value : Nat) {n digits rounds len : Nat}
    (hdigits : len < 128 ^ digits) (hpos : 0 < digits) (hn : len < 128 ^ n) (hmultiplier : multiplier * 128 ^ n ≤ 128 ^ 4)
    (hrounds : (pushRemainingLength digits len).length ≤ rounds) :
    remainingLength (pre ++ (pushRemainingLength digits len ++ suffix)) rounds multiplier value pre.length =
      some (some (value + len * multiplier, pre.length + (pushRemainingLength digits len).length)) := by
  induction rounds generalizing n digits len multiplier value pre with
  | zero =>
    have := List.length_pos_of_ne_nil (pushRemainingLength_ne_nil hpos len)
    omega
  | succ rounds ih =>
    obtain ⟨digits, rfl⟩ := Nat.exists_eq_add_of_le' hpos
    rw [pushRemainingLength] at hrounds ⊢
    by_cases hlast : len / 128 = 0
    · have hlen : len % 128 = len := Nat.mod_eq_of_lt (by omega)
      obtain ⟨hvalue, hbit⟩ := last_digit_of_lt (Nat.mod_lt len (show 0 < 128 by decide))
      rw [if_pos hlast, List.cons_append, List.nil_append, remainingLength_cons, if_pos hbit, hvalue, hlen]
      rfl
    · obtain ⟨hvalue, hbit⟩ := digit_continues_of_lt (Nat.mod_lt len (show 0 < 128 by decide))
      have hnpos : n ≠ 0 := by
        rintro rfl
        omega
      obtain ⟨n, rfl⟩ := Nat.exists_eq_succ_of_ne_zero hnpos
      have hdigits' : len / 128 < 128 ^ digits := Nat.div_lt_of_lt_mul (by rwa [Nat.pow_succ, Nat.mul_comm] at hdigits)
      have hn' : len / 128 < 128 ^ n := Nat.div_lt_of_lt_mul (by rwa [Nat.succ_eq_add_one, Nat.pow_succ, Nat.mul_comm] at hn)
      have hpos' : 0 < digits := by
        by_contra hzero
        rw [Nat.eq_zero_of_not_pos hzero] at hdigits'
        omega
      have hmultiplier' : multiplier * 128 * 128 ^ n ≤ 128 ^ 4 := by
        rwa [Nat.mul_assoc, Nat.mul_comm 128, ← Nat.pow_succ]
      -- another digit follows, so that the cutoff is not reached
      have hcutoff : ¬ 128 * 128 * 128 < multiplier * 128 := by
        have hn1 : n ≠ 0 := by
          rintro rfl
          omega
        have hle : 128 ^ 1 ≤ 128 ^ n := Nat.pow_le_pow_right (by decide) (Nat.one_le_iff_ne_zero.mpr hn1)
        have := (Nat.mul_le_mul_left (multiplier * 128) hle).trans hmultiplier'
        omega
      rw [if_neg hlast, List.length_cons] at hrounds
      rw [if_neg hlast, List.cons_append, remainingLength_cons, if_neg (by rw [hbit]; exact Bool.false_ne_true),
        if_neg hcutoff, hvalue]
      have hnext := ih (pre ++ [UInt8.ofNat (len % 128) ||| 0x80]) (multiplier * 128)
        (value + len % 128 * multiplier) hdigits' hpos' hn' hmultiplier' (by omega)
      rw [List.append_assoc, List.singleton_append, List.length_append, List.length_singleton] at hnext
      rw [hnext, List.length_cons]
      have hsum : value + len % 128 * multiplier + len / 128 * (multiplier * 128) = value + len * multiplier :=
        calc value + len % 128 * multiplier + len / 128 * (multiplier * 128)
            = value + (128 * (len / 128) + len % 128) * multiplier := by ring
          _ = value + len * multiplier := by rw [Nat.div_add_mod]
      rw [hsum, Nat.add_assoc, Nat.add_comm 1]

/-- The length that was written is read, whatever follows. -/
theorem parse_push {len : Nat} (hlen : len < 2 ^ 28) (suffix : Bytes) :
    parseRemainingLength (pushRemainingLength (len + 1) len ++ suffix) =
      some (some (len, (pushRemainingLength (len + 1) len).length)) := by
  have hdigits : len < 128 ^ (len + 1) := (Nat.lt_pow_self (by decide)).trans (Nat.pow_lt_pow_succ (by decide))
  have hfour : len < 128 ^ 4 := hlen.trans_eq (by decide)
  have hrounds : (pushRemainingLength (len + 1) len).length ≤ (pushRemainingLength (len + 1) len ++ suffix).length + 1 := by
    rw [List.length_append]
    omega
  have hread := remainingLength_push suffix [] 1 0 hdigits (Nat.succ_pos len) hfour (by decide) hrounds
  rw [List.nil_append, List.length_nil, Nat.zero_add, Nat.zero_add, Nat.mul_one] at hread
  exact hread

/-- A fifth byte is not read: the multiplier is `128 ^ idx`, and the cutoff ends the loop. -/
theorem remainingLength_le_four (data : Bytes) {rounds value idx len n : Nat} (hidx : idx ≤ 3)
    (h : remainingLength data rounds (128 ^ idx) value idx = some (some (len, n))) : n ≤ 4 := by
  induction rounds generalizing value idx with
  | zero => cases h
  | succ rounds ih =>
    rw [remainingLength] at h
    split at h
    · cases h
    obtain ⟨byte, -, h⟩ := Option.bind_eq_some_iff.mp h
    dsimp only at h
    split at h
    · cases h
      omega
    split at h
    · cases h
    next hcutoff =>
      rw [← Nat.pow_succ] at h hcutoff
      have hnext : idx + 1 ≤ 3 := (Nat.pow_le_pow_iff_right (a := 128) (by decide)).mp (not_lt.mp hcutoff)
      exact ih hnext h

theorem parse_le_four {data : Bytes} {len n : Nat} (h : parseRemainingLength data = some (some (len, n))) : n ≤ 4 :=
  remainingLength_le_four data (Nat.zero_le 3) h

/-! ## Packets -/

/-- A packet of a type, the length of its body and the body. -/
theorem packetBody_frame (first : UInt8) (body : Bytes) (hbody : body.length < 2 ^ 28) :
    packetBody (first :: (pushRemainingLength (body.length + 1) body.length ++ body)) = some (some body) := by
  rw [packetBody, if_neg (by rw [List.length_cons]; omega), List.drop_succ_cons, List.drop_zero, parse_push hbody,
    Option.bind_some]
  generalize pushRemainingLength (body.length + 1) body.length = digits
  have hafter : Mqtt.sub (first :: (digits ++ body)).length 1 = some (digits.length + body.length) := by simp [Mqtt.sub]
  have hrest : Mqtt.sub (digits.length + body.length) digits.length = some body.length := by simp [Mqtt.sub]
  have hslice : sliceFrom (first :: (digits ++ body)) (1 + digits.length) = some body := by
    rw [sliceFrom, Nat.add_comm 1, List.drop_succ_cons, List.drop_left, if_pos (by simp)]
  dsimp only
  rw [hafter, Option.bind_eq_bind, Option.bind_some, hrest, Option.bind_some, if_pos (beq_self_eq_true _),
    hslice, Option.map_some]

def publishBody (topic : Text) (payload : Bytes) : Bytes := lengthPrefixed (Utf8Codec.encode topic) ++ payload

def subackBody (packetId : Nat) (codes : List UInt8) : Bytes := toBeBytes packetId ++ codes

theorem packetBody_publish {topic : Text} {payload : Bytes} (msg : Stamped)
    (h : 2 + (Utf8Codec.encode topic).length + payload.length < 2 ^ 28) :
    packetBody (Packet.publish topic msg payload).build = some (some (publishBody topic payload)) := by
  have hlength : (publishBody topic payload).length = 2 + (Utf8Codec.encode topic).length + payload.length := by
    rw [publishBody, List.length_append, lengthPrefixed_length]
  have hframe := packetBody_frame 0x30 (publishBody topic payload) (by rw [hlength]; exact h)
  rw [hlength] at hframe
  rw [← hframe, Packet.build, publishBody, lengthPrefixed]
  simp only [List.cons_append, List.append_assoc]

theorem packetBody_suback {codes : List UInt8} (packetId : Nat) (h : 2 + codes.length < 2 ^ 28) :
    packetBody (Packet.suback packetId codes).build = some (some (subackBody packetId codes)) := by
  have hlength : (subackBody packetId codes).length = 2 + codes.length := by
    rw [subackBody, List.length_append, toBeBytes]
    rfl
  have hframe := packetBody_frame 0x90 (subackBody packetId codes) (by rw [hlength]; exact h)
  rw [hlength] at hframe
  rw [← hframe, Packet.build, subackBody]
  simp only [List.cons_append, List.append_assoc]

/-- The topic is read from the front of the body, and the payload is what is left. -/
theorem parse_publishBody {topic : Text} (payload : Bytes) (h : (Utf8Codec.encode topic).length ≤ 65535) :
    ∃ n, parseMqttString (publishBody topic payload) = some (some (topic, n)) ∧
      (publishBody topic payload).drop n = payload := by
  have hbytes := parseMqttBytes_iff.mpr ⟨payload, show publishBody topic payload = _ from rfl, by omega, rfl⟩
  refine ⟨(lengthPrefixed (Utf8Codec.encode topic)).length, ?_, ?_⟩
  · rw [parseMqttString, hbytes, Option.map_some, Option.bind_some]
    dsimp only
    rw [Utf8Codec.decode_encode, Option.map_some]
  · rw [publishBody, List.drop_left]

/-- The packet id is the first two bytes of the body, and the codes are what is left. -/
theorem read_subackBody {packetId : Nat} (codes : List UInt8) (h : packetId < 65536) :
    ∃ high low, subackBody packetId codes = high :: low :: codes ∧ high.toNat * 256 + low.toNat = packetId :=
  ⟨UInt8.ofNat (packetId / 256), UInt8.ofNat packetId, rfl, toNat_toBeBytes h⟩

/-- What the writers frame the reader takes apart again: every length below 2^28, read in four bytes
at most, and every packet with such a length. -/
theorem framing_round_trips :
    (∀ (len : Nat) (suffix : Bytes), len < 2 ^ 28 →
      parseRemainingLength (pushRemainingLength (len + 1) len ++ suffix) =
        some (some (len, (pushRemainingLength (len + 1) len).length))) ∧
    (∀ (data : Bytes) (len n : Nat), parseRemainingLength data = some (some (len, n)) → n ≤ 4) ∧
    (∀ (topic : Text) (msg : Stamped) (payload : Bytes), (Utf8Codec.encode topic).length ≤ 65535 →
      2 + (Utf8Codec.encode topic).length + payload.length < 2 ^ 28 →
      packetBody (Packet.publish topic msg payload).build = some (some (publishBody topic payload)) ∧
        ∃ n, parseMqttString (publishBody topic payload) = some (some (topic, n)) ∧
          (publishBody topic payload).drop n = payload) ∧
    (∀ (packetId : Nat) (codes : List UInt8), packetId < 65536 → 2 + codes.length < 2 ^ 28 →
      packetBody (Packet.suback packetId codes).build = some (some (subackBody packetId codes)) ∧
        ∃ high low, subackBody packetId codes = high :: low :: codes ∧ high.toNat * 256 + low.toNat = packetId) := by
  refine ⟨?_, ?_, ?_, ?_⟩
  · intro len suffix hlen
    exact parse_push hlen suffix
  · intro data len n h
    exact parse_le_four h
  · intro topic msg payload htopic hlen
    exact ⟨packetBody_publish msg hlen, parse_publishBody payload htopic⟩
  · intro packetId codes hid hlen
    exact ⟨packetBody_suback packetId hlen, read_subackBody codes hid⟩

/-- The first length of two digits, and a SUBACK of one code. -/
theorem framing_round_trips_128 :
    parseRemainingLength [0x80, 0x01, 0xAA] = some (some (128, 2)) ∧
      packetBody [0x90, 0x03, 0x01, 0x02, 0x80] = some (some [0x01, 0x02, 0x80]) :=
  ⟨framing_round_trips.1 128 [0xAA] (by decide), (framing_round_trips.2.2.2 258 [0x80] (by decide) (by decide)).1⟩

end MqttFraming
