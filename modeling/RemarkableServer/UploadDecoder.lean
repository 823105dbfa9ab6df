import RemarkableServer.Lib.Base64

/-!
# Base64 as it arrives

`Base64Decoder` decodes an upload a step of whole quads at a time. Here it is compared
with the decoding of the whole input.
-/
namespace UploadDecoder

open Base64

structure Base64Decoder where
  step : Nat
  /-- Input that is not decoded yet. -/
  pending : Bytes
  /-- What the last `push` or `finish` decoded. -/
  decoded : Bytes
  padSeen : Bool
  valid : Bool
  deriving DecidableEq, Repr

namespace Base64Decoder

def new (step : Nat) : Base64Decoder := ⟨step, [], [], false, true⟩

def invalid (d : Base64Decoder) : Base64Decoder × Bytes :=
  ({ d with valid := false, pending := [], decoded := [] }, [])

/-- The loop over the whole steps of `chars`: what is decoded, and the rest. As a step is not empty, the length
of the input is fuel enough. -/
def decodeSteps (step : Nat) : Nat → Bytes → Bytes → Option (Bytes × Bytes)
  | 0, decoded, chars => some (decoded, chars)
  | fuel + 1, decoded, chars =>
    if step ≤ chars.length then
      (decode (chars.take step)).bind fun out => decodeSteps step fuel (decoded ++ out) (chars.drop step)
    else some (decoded, chars)

/-- The steps of `chars` are decoded behind what the pending input gave, the rest waits. -/
def pushSteps (d : Base64Decoder) (chars : Bytes) : Base64Decoder × Bytes :=
  match decodeSteps d.step chars.length d.decoded chars with
  | none => d.invalid
  | some (decoded, rest) => ({ d with decoded, pending := d.pending ++ rest }, decoded)

/-- The pending input is filled up to a step first. -/
def pushPending (d : Base64Decoder) (chars : Bytes) : Base64Decoder × Bytes :=
  if d.pending ≠ [] then
    let take := min (d.step - d.pending.length) chars.length
    let pending := d.pending ++ chars.take take
    let d := { d with pending }
    if pending.length < d.step then (d, [])
    else match decode pending with
    | none => d.invalid
    | some out => { d with pending := [], decoded := d.decoded ++ out }.pushSteps (chars.drop take)
  else d.pushSteps chars

/-- Where only pads may follow: after the first one. -/
def padFrom (d : Base64Decoder) (chars : Bytes) : Option Nat :=
  if d.padSeen then some 0 else chars.findIdx? (· = pad)

def push (d : Base64Decoder) (chars : Bytes) : Base64Decoder × Bytes :=
  let d := { d with decoded := [] }
  if !d.valid then (d, [])
  else
    match d.padFrom chars with
    | some p =>
      let d := { d with padSeen := true }
      if (chars.drop p).any (· ≠ pad) then d.invalid else d.pushPending chars
    | none => d.pushPending chars

def finish (d : Base64Decoder) : Base64Decoder × Option Bytes :=
  let d := { d with decoded := [] }
  if d.valid then
    match decode d.pending with
    | none => (d.invalid.1, none)
    | some out => ({ d with decoded := out }, some out)
  else (d, none)

/-- The pushes one after the other, with all that they return. -/
def pushAll (d : Base64Decoder) : List Bytes → Base64Decoder × Bytes
  | [] => (d, [])
  | chars :: pushes =>
    let (d, out) := d.push chars
    let (d, more) := d.pushAll pushes
    (d, out ++ more)

/-- What the decoder makes of an input that comes in pieces: all its output, or nothing. -/
def decodeInPieces (step : Nat) (pushes : List Bytes) : Option Bytes :=
  let (d, out) := (new step).pushAll pushes
  d.finish.2.map (out ++ ·)

end Base64Decoder

/-! ## One piece more -/

open Base64Decoder

variable {step : Nat} {done chars before : Bytes}

/-- Behind whole quads that are decoded, the next piece may be decoded on its own as long as only pads follow
a pad. -/
theorem decode_done {out : Bytes} (hdone : 4 ∣ done.length) (hd : decode done = some out)
    (hpads : PadsLast (done ++ chars)) : decode (done ++ chars) = (decode chars).map (out ++ ·) := by
  by_cases hpad : pad ∈ done
  · have hall : ∀ c ∈ chars, c = pad := (padsLast_append.mp hpads).2.2 hpad
    by_cases hne : chars = []
    · simp [hne, hd, decode]
    · rw [decode_append_of_pad hdone hpad hne, decode_pads hne hall]
      rfl
  · rw [decode_append hdone hpad, hd]
    rfl

/-- A pad with something else behind it is never decoded. -/
theorem decode_of_not_padsLast {x : Bytes} (h : ¬PadsLast x) (rest : Bytes) : decode (x ++ rest) = none := by
  cases hd : decode (x ++ rest) with
  | none => rfl
  | some out => exact absurd (padsLast_append.mp (decode_padsLast hd)).1 h

section
variable (hquads : 4 ∣ step)
include hquads

theorem decodeSteps_some (hstep : 0 < step) {fuel : Nat} (hfuel : chars.length ≤ fuel) {decoded decoded' rest : Bytes}
    (hdone : step ∣ done.length) (hd : decode done = some (before ++ decoded)) (hpads : PadsLast (done ++ chars))
    (h : decodeSteps step fuel decoded chars = some (decoded', rest)) :
    ∃ steps, chars = steps ++ rest ∧ rest.length < step ∧ step ∣ (done ++ steps).length ∧
      decode (done ++ steps) = some (before ++ decoded') := by
  induction fuel generalizing done chars decoded with
  | zero =>
    have hnil : chars = [] := List.length_eq_zero_iff.mp (by omega)
    simp only [decodeSteps, Option.some.injEq, Prod.mk.injEq] at h
    refine ⟨[], ?_⟩
    simp [← h.1, ← h.2, hnil, hstep, hdone, hd]
  | succ fuel ih =>
    by_cases hlen : step ≤ chars.length
    · rw [decodeSteps, if_pos hlen, Option.bind_eq_some_iff] at h
      obtain ⟨out, hout, h⟩ := h
      have htake : (chars.take step).length = step := by simp [hlen]
      have hsplit : done ++ chars = (done ++ chars.take step) ++ chars.drop step := by simp
      have hdone' : step ∣ (done ++ chars.take step).length := by
        rw [List.length_append, htake]
        exact Nat.dvd_add hdone (Nat.dvd_refl step)
      have hd' : decode (done ++ chars.take step) = some (before ++ (decoded ++ out)) := by
        rw [hsplit] at hpads
        rw [decode_done (Nat.dvd_trans hquads hdone) hd (padsLast_append.mp hpads).1, hout]
        simp
      obtain ⟨steps, hchars, hrest, hsteps, hall⟩ :=
        ih (by simp; omega) hdone' hd' (hsplit ▸ hpads) h
      refine ⟨chars.take step ++ steps, ?_, hrest, ?_, ?_⟩
      · rw [List.append_assoc, ← hchars, List.take_append_drop]
      · simpa [Nat.add_assoc] using hsteps
      · simpa using hall
    · rw [decodeSteps, if_neg hlen] at h
      simp only [Option.some.injEq, Prod.mk.injEq] at h
      refine ⟨[], ?_⟩
      simp [← h.1, ← h.2, hdone, hd]
      omega

theorem decodeSteps_none {fuel : Nat} {decoded : Bytes} (hdone : step ∣ done.length)
    (hd : decode done = some (before ++ decoded)) (hpads : PadsLast (done ++ chars))
    (h : decodeSteps step fuel decoded chars = none) (more : Bytes) : decode (done ++ chars ++ more) = none := by
  induction fuel generalizing done chars decoded with
  | zero => simp [decodeSteps] at h
  | succ fuel ih =>
    by_cases hlen : step ≤ chars.length
    · have htake : (chars.take step).length = step := by simp [hlen]
      have hsplit : done ++ chars = (done ++ chars.take step) ++ chars.drop step := by simp
      have hdone' : step ∣ (done ++ chars.take step).length := by
        rw [List.length_append, htake]
        exact Nat.dvd_add hdone (Nat.dvd_refl step)
      have hpads' : PadsLast (done ++ chars.take step) := by
        rw [hsplit] at hpads
        exact (padsLast_append.mp hpads).1
      have hpiece := decode_done (Nat.dvd_trans hquads hdone) hd hpads'
      rw [decodeSteps, if_pos hlen] at h
      cases hout : decode (chars.take step) with
      | none =>
        rw [hout] at hpiece
        rw [hsplit, List.append_assoc]
        exact decode_append_of_none (Nat.dvd_trans hquads hdone') hpiece _
      | some out =>
        rw [hout] at h hpiece
        have hd' : decode (done ++ chars.take step) = some (before ++ (decoded ++ out)) := by simpa using hpiece
        rw [hsplit]
        exact ih hdone' hd' (hsplit ▸ hpads) h
    · simp [decodeSteps, hlen] at h

end

/-! ## What has been decoded -/

/-- After an input `x`, with output `out`: the input up to the pending part is decoded, or no input that
starts this way can be. -/
structure Decoded (step : Nat) (x out : Bytes) (d : Base64Decoder) : Prop where
  step_eq : d.step = step
  done : d.valid = true → ∃ done, x = done ++ d.pending ∧ d.pending.length < step ∧ step ∣ done.length ∧
    decode done = some out ∧ PadsLast x ∧ (d.padSeen = true ↔ pad ∈ x)
  never : d.valid = false → ∀ rest, decode (x ++ rest) = none

theorem decoded_invalid {d : Base64Decoder} {x out : Bytes} (hd : d.step = step)
    (h : ∀ rest, decode (x ++ rest) = none) : Decoded step x out d.invalid.1 where
  step_eq := hd
  done hv := by simp [invalid] at hv
  never _ := h

section
variable (hstep : 0 < step) (hquads : 4 ∣ step)
include hstep hquads

theorem pushSteps_decoded {d : Base64Decoder} (hd : d.step = step) (hvalid : d.valid = true) (hpending : d.pending = [])
    (hdone : step ∣ done.length) (hdec : decode done = some (before ++ d.decoded)) (hpads : PadsLast (done ++ chars))
    (hseen : d.padSeen = true ↔ pad ∈ done ++ chars) :
    Decoded step (done ++ chars) (before ++ (d.pushSteps chars).2) (d.pushSteps chars).1 := by
  cases hs : decodeSteps d.step chars.length d.decoded chars with
  | none =>
    have hnone := decodeSteps_none hquads hdone hdec hpads (hd ▸ hs)
    simp only [pushSteps, hs]
    exact decoded_invalid hd hnone
  | some p =>
    obtain ⟨decoded, rest⟩ := p
    obtain ⟨steps, hchars, hrest, hsteps, hall⟩ :=
      decodeSteps_some hquads hstep (Nat.le_refl _) hdone hdec hpads (hd ▸ hs)
    simp only [pushSteps, hs]
    constructor
    · exact hd
    · intro _
      refine ⟨done ++ steps, ?_, ?_, hsteps, hall, hpads, hseen⟩
      · simp [hpending, hchars]
      · simpa [hpending] using hrest
    · intro hv
      simp [hvalid] at hv

theorem pushPending_decoded {d : Base64Decoder} (hd : d.step = step) (hvalid : d.valid = true) (hdecoded : d.decoded = [])
    (hpending : d.pending.length < step) (hdone : step ∣ done.length) (hdec : decode done = some before)
    (hpads : PadsLast (done ++ d.pending ++ chars)) (hseen : d.padSeen = true ↔ pad ∈ done ++ d.pending ++ chars) :
    Decoded step (done ++ d.pending ++ chars) (before ++ (d.pushPending chars).2) (d.pushPending chars).1 := by
  by_cases hne : d.pending = []
  · simp only [pushPending, hne, ne_eq, not_true_eq_false, if_false, List.append_nil] at hpads hseen ⊢
    exact pushSteps_decoded hstep hquads hd hvalid hne hdone (by simpa [hdecoded] using hdec) hpads hseen
  · set take := min (d.step - d.pending.length) chars.length with htake
    have hsplit : done ++ d.pending ++ chars = done ++ (d.pending ++ chars.take take) ++ chars.drop take := by simp
    by_cases hshort : (d.pending ++ chars.take take).length < d.step
    · have hall : take = chars.length := by
        simp only [List.length_append, List.length_take] at hshort
        omega
      simp only [pushPending, ne_eq, hne, not_false_eq_true, if_true, ← htake, hshort]
      constructor
      · exact hd
      · intro _
        refine ⟨done, ?_, ?_, hdone, by simpa using hdec, hpads, hseen⟩
        · simp [hall]
        · exact hd ▸ hshort
      · intro hv
        simp [hvalid] at hv
    · have hfull : (d.pending ++ chars.take take).length = step := by
        simp only [List.length_append, List.length_take] at hshort ⊢
        omega
      have hdone' : step ∣ (done ++ (d.pending ++ chars.take take)).length := by
        rw [List.length_append, hfull]
        exact Nat.dvd_add hdone (Nat.dvd_refl step)
      have hpads' : PadsLast (done ++ (d.pending ++ chars.take take)) := by
        rw [hsplit] at hpads
        exact (padsLast_append.mp hpads).1
      have hpiece := decode_done (Nat.dvd_trans hquads hdone) hdec hpads'
      simp only [pushPending, ne_eq, hne, not_false_eq_true, if_true, ← htake, hshort, if_false]
      cases hout : decode (d.pending ++ chars.take take) with
      | none =>
        rw [hout] at hpiece
        apply decoded_invalid hd
        intro rest
        rw [hsplit, List.append_assoc]
        exact decode_append_of_none (Nat.dvd_trans hquads hdone') hpiece _
      | some out =>
        rw [hout] at hpiece
        rw [hsplit] at hpads hseen ⊢
        exact pushSteps_decoded hstep hquads hd hvalid rfl hdone' (by simpa [hdecoded] using hpiece) hpads hseen

omit hstep hquads in
theorem padFrom_none {d : Base64Decoder} {x : Bytes} (hseen : d.padSeen = true ↔ pad ∈ x) (h : d.padFrom chars = none) :
    pad ∉ x ++ chars ∧ d.padSeen = false := by
  by_cases hs : d.padSeen = true
  · simp [padFrom, hs] at h
  · have hchars : pad ∉ chars := by
      intro hmem
      simp only [padFrom, hs, Bool.false_eq_true, if_false, List.findIdx?_eq_none_iff] at h
      simpa using h pad hmem
    have hx : pad ∉ x := fun hmem => hs (hseen.mpr hmem)
    simp_all

omit hstep hquads in
theorem padFrom_some {d : Base64Decoder} {x : Bytes} (hseen : d.padSeen = true ↔ pad ∈ x) (hpads : PadsLast x) {p : Nat}
    (h : d.padFrom chars = some p) :
    pad ∈ x ++ chars ∧ (PadsLast (x ++ chars) ↔ ∀ c ∈ chars.drop p, c = pad) := by
  by_cases hs : d.padSeen = true
  · have hx : pad ∈ x := hseen.mp hs
    obtain rfl : 0 = p := by simpa [padFrom, hs] using h
    refine ⟨by simp [hx], ?_⟩
    rw [padsLast_append, List.drop_zero]
    exact ⟨fun hall => hall.2.2 hx, fun hall => ⟨hpads, padsLast_of_all hall, fun _ => hall⟩⟩
  · have hx : pad ∉ x := fun hmem => hs (hseen.mpr hmem)
    simp only [padFrom, hs, Bool.false_eq_true, if_false, List.findIdx?_eq_some_iff_getElem] at h
    obtain ⟨hp, hat, hbefore⟩ := h
    have hat : chars[p] = pad := by simpa using hat
    have htake : pad ∉ chars.take p := by
      intro hmem
      obtain ⟨i, hi, hget⟩ := List.getElem_of_mem hmem
      simp only [List.length_take] at hi
      have := hbefore i (by omega)
      simp_all
    have hdrop : chars.drop p = pad :: chars.drop (p + 1) := by rw [List.drop_eq_getElem_cons hp, hat]
    have hmem : pad ∈ chars := List.mem_of_mem_drop (hdrop ▸ List.mem_cons_self)
    refine ⟨by simp [hmem], ?_⟩
    have hsplit : PadsLast (x ++ chars) ↔ PadsLast (chars.drop p) := by
      have hclean : pad ∉ x ++ chars.take p := by simp [hx, htake]
      have happ : x ++ chars = (x ++ chars.take p) ++ chars.drop p := by simp
      rw [happ, padsLast_append]
      simp [padsLast_of_not_mem hclean, hclean]
    rw [hsplit]
    constructor
    · intro hlast c hc
      rw [hdrop] at hlast hc
      rcases List.mem_cons.mp hc with rfl | hc
      · rfl
      · exact (List.pairwise_cons.mp hlast).1 c hc rfl
    · exact padsLast_of_all

/-- One push more. -/
theorem push_decoded {x out : Bytes} {d : Base64Decoder} (h : Decoded step x out d) (chars : Bytes) :
    Decoded step (x ++ chars) (out ++ (d.push chars).2) (d.push chars).1 := by
  obtain ⟨s, pending, decoded, padSeen, valid⟩ := d
  have hstep_eq : s = step := h.step_eq
  by_cases hvalid : valid = true
  · subst hvalid
    obtain ⟨done, hx, hpending, hdone, hdec, hpads, hseen⟩ := h.done rfl
    dsimp only at hx hpending hseen
    subst hx
    have hnext : ∀ seen, (seen = true ↔ pad ∈ done ++ pending ++ chars) → PadsLast (done ++ pending ++ chars) →
        Decoded step (done ++ pending ++ chars) (out ++ (pushPending ⟨s, pending, [], seen, true⟩ chars).2)
          (pushPending ⟨s, pending, [], seen, true⟩ chars).1 := fun seen hseen hlast =>
      pushPending_decoded (d := ⟨s, pending, [], seen, true⟩) hstep hquads hstep_eq rfl rfl hpending hdone hdec hlast hseen
    cases hfrom : padFrom ⟨s, pending, [], padSeen, true⟩ chars with
    | none =>
      obtain ⟨hno, hfalse⟩ := padFrom_none (d := ⟨s, pending, [], padSeen, true⟩) hseen hfrom
      have hpush : push ⟨s, pending, decoded, padSeen, true⟩ chars = pushPending ⟨s, pending, [], padSeen, true⟩ chars := by
        simp [push, hfrom]
      rw [hpush]
      exact hnext padSeen (iff_of_false (by simpa using hfalse) hno) (padsLast_of_not_mem hno)
    | some p =>
      obtain ⟨hmem, hiff⟩ := padFrom_some (d := ⟨s, pending, [], padSeen, true⟩) hseen hpads hfrom
      by_cases hclean : ∀ c ∈ chars.drop p, c = pad
      · have hpush : push ⟨s, pending, decoded, padSeen, true⟩ chars = pushPending ⟨s, pending, [], true, true⟩ chars := by
          have hany : ¬∃ c ∈ chars.drop p, ¬c = pad := by simpa using hclean
          simp [push, hfrom, hany]
        rw [hpush]
        exact hnext true (iff_of_true rfl hmem) (hiff.mpr hclean)
      · have hpush : push ⟨s, pending, decoded, padSeen, true⟩ chars = invalid ⟨s, pending, [], true, true⟩ := by
          have hany : ∃ c ∈ chars.drop p, ¬c = pad := by simpa using hclean
          simp [push, hfrom, hany]
        rw [hpush]
        exact decoded_invalid hstep_eq (decode_of_not_padsLast (fun hlast => hclean (hiff.mp hlast)))
  · have hfalse : valid = false := by simpa using hvalid
    subst hfalse
    constructor
    · exact hstep_eq
    · intro hv
      simp [push] at hv
    · intro _ rest
      rw [List.append_assoc]
      exact h.never rfl _

/-- All pushes. -/
theorem pushAll_decoded {x out : Bytes} {d : Base64Decoder} (h : Decoded step x out d) (pushes : List Bytes) :
    Decoded step (x ++ pushes.flatten) (out ++ (d.pushAll pushes).2) (d.pushAll pushes).1 := by
  induction pushes generalizing d x out with
  | nil => simpa [pushAll] using h
  | cons chars pushes ih => simpa [pushAll] using ih (push_decoded hstep hquads h chars)

omit hquads in
theorem new_decoded : Decoded step [] [] (new step) where
  step_eq := rfl
  done _ := ⟨[], by simp [new, decode, PadsLast, hstep]⟩
  never hv := by simp [new] at hv

end

/-- The end of the input. -/
theorem finish_decoded (hquads : 4 ∣ step) {x out : Bytes} {d : Base64Decoder} (h : Decoded step x out d) :
    d.finish.2.map (out ++ ·) = decode x := by
  by_cases hvalid : d.valid = true
  · obtain ⟨done, hx, -, hdone, hdec, hpads, -⟩ := h.done hvalid
    rw [hx] at hpads ⊢
    rw [decode_done (Nat.dvd_trans hquads hdone) hdec hpads]
    cases hout : decode d.pending <;> simp [finish, hvalid, hout]
  · have hfalse : d.valid = false := by simpa using hvalid
    have hnever := h.never hfalse []
    rw [List.append_nil] at hnever
    simp [finish, hfalse, hnever]

/-- The decoder gives what decoding the whole input gives, however the input comes. -/
theorem decodeInPieces_eq (hstep : 0 < step) (hquads : 4 ∣ step) (pushes : List Bytes) :
    decodeInPieces step pushes = decode pushes.flatten := by
  have hall := pushAll_decoded hstep hquads (new_decoded hstep) pushes
  simp only [List.nil_append] at hall
  exact finish_decoded hquads hall

theorem decodeInPieces_four : decodeInPieces 4 [[90, 103], [61], [], [61]] = some [102] := by
  rw [decodeInPieces_eq (by decide) (by decide)]
  decide

end UploadDecoder
