import Mathlib.Data.List.Basic

/-!
# UTF-8 decoding into chunks

A byte string is cut into maximal chunks, each one encoded character or one
ill-formed sequence. Strict decoding asks for characters only; lossy decoding
puts one U+FFFD for every ill-formed chunk. Both readings share the cut, so
they agree wherever the strict one succeeds.
-/
namespace Utf8Codec

/-- Continuation bytes owed by a lead byte above 0x7F and the range of the first. -/
def window (b : UInt8) : Option (Nat × Nat × Nat) :=
  if 0xC2 ≤ b.toNat ∧ b.toNat ≤ 0xDF then some (1, 0x80, 0xBF)
  else if b.toNat = 0xE0 then some (2, 0xA0, 0xBF)
  else if 0xE1 ≤ b.toNat ∧ b.toNat ≤ 0xEC then some (2, 0x80, 0xBF)
  else if b.toNat = 0xED then some (2, 0x80, 0x9F)
  else if 0xEE ≤ b.toNat ∧ b.toNat ≤ 0xEF then some (2, 0x80, 0xBF)
  else if b.toNat = 0xF0 then some (3, 0x90, 0xBF)
  else if 0xF1 ≤ b.toNat ∧ b.toNat ≤ 0xF3 then some (3, 0x80, 0xBF)
  else if b.toNat = 0xF4 then some (3, 0x80, 0x8F)
  else none

def inRange (lo hi : Nat) (b : UInt8) : Bool := lo ≤ b.toNat && b.toNat ≤ hi

/-- The character of two, three or four bytes whose ranges were checked. -/
def join2 (b₀ b₁ : UInt8) : Char :=
  Char.ofNat ((b₀.toNat - 0xC0) * 64 + (b₁.toNat - 0x80))

def join3 (b₀ b₁ b₂ : UInt8) : Char :=
  Char.ofNat ((b₀.toNat - 0xE0) * 4096 + (b₁.toNat - 0x80) * 64 + (b₂.toNat - 0x80))

def join4 (b₀ b₁ b₂ b₃ : UInt8) : Char :=
  Char.ofNat ((b₀.toNat - 0xF0) * 262144 + (b₁.toNat - 0x80) * 4096 +
    (b₂.toNat - 0x80) * 64 + (b₃.toNat - 0x80))

/-- Characters of a byte string in order, `none` for each ill-formed chunk. A byte that
breaks off a sequence starts the next chunk. -/
def chunks : List UInt8 → List (Option Char)
  | [] => []
  | b₀ :: t₀ =>
    if b₀.toNat < 0x80 then some (Char.ofNat b₀.toNat) :: chunks t₀
    else match window b₀ with
    | none => none :: chunks t₀
    | some (need, lo, hi) =>
      match t₀ with
      | [] => [none]
      | b₁ :: t₁ =>
        if !inRange lo hi b₁ then none :: chunks (b₁ :: t₁)
        else if need = 1 then some (join2 b₀ b₁) :: chunks t₁
        else match t₁ with
        | [] => [none]
        | b₂ :: t₂ =>
          if !inRange 0x80 0xBF b₂ then none :: chunks (b₂ :: t₂)
          else if need = 2 then some (join3 b₀ b₁ b₂) :: chunks t₂
          else match t₂ with
          | [] => [none]
          | b₃ :: t₃ =>
            if !inRange 0x80 0xBF b₃ then none :: chunks (b₃ :: t₃)
            else some (join4 b₀ b₁ b₂ b₃) :: chunks t₃

/-- The text of a byte string that is UTF-8 throughout. -/
def decode (bytes : List UInt8) : Option (List Char) := (chunks bytes).mapM id

/-- The text of any byte string, with U+FFFD for each ill-formed chunk. -/
def decodeLossy (bytes : List UInt8) : List Char :=
  (chunks bytes).map fun c => c.getD (Char.ofNat 0xFFFD)

def encode (text : List Char) : List UInt8 := text.flatMap String.utf8EncodeChar

theorem mapM_id_eq_some {α : Type} {xs : List (Option α)} {ys : List α} :
    xs.mapM id = some ys ↔ xs = ys.map some := by
  induction xs generalizing ys with
  | nil => cases ys <;> simp
  | cons x xs ih =>
    cases x with
    | none => cases ys <;> simp
    | some x =>
      simp only [List.mapM_cons, id_eq, Option.bind_eq_bind, Option.bind_some]
      cases ys with
      | nil => cases List.mapM id xs <;> simp
      | cons y ys =>
        rw [List.map_cons, List.cons.injEq, Option.some.injEq, ← ih]
        cases List.mapM id xs <;> simp [and_comm]

theorem decode_eq_some {bytes : List UInt8} {text : List Char} :
    decode bytes = some text ↔ chunks bytes = text.map some :=
  mapM_id_eq_some

/-- Lossy decoding loses nothing where strict decoding succeeds. -/
theorem decodeLossy_of_decode {bytes : List UInt8} {text : List Char}
    (h : decode bytes = some text) : decodeLossy bytes = text := by
  rw [decode_eq_some] at h
  simp [decodeLossy, h, Function.comp_def]

theorem toNat_bound (c : Char) : c.toNat < 0xD800 ∨ 0xDFFF < c.toNat ∧ c.toNat < 0x110000 :=
  c.valid

theorem encode_cons (c : Char) (text : List Char) :
    encode (c :: text) = String.utf8EncodeChar c ++ encode text := rfl

theorem encode_append (a b : List Char) : encode (a ++ b) = encode a ++ encode b := by
  simp [encode]

theorem chunks_one {b₀ : UInt8} (t : List UInt8) (h : b₀.toNat < 0x80) :
    chunks (b₀ :: t) = some (Char.ofNat b₀.toNat) :: chunks t := by
  rw [chunks, if_pos h]

theorem chunks_two {b₀ b₁ : UInt8} {lo hi : Nat} (t : List UInt8) (h : ¬ b₀.toNat < 0x80)
    (hw : window b₀ = some (1, lo, hi)) (h₁ : inRange lo hi b₁ = true) :
    chunks (b₀ :: b₁ :: t) = some (join2 b₀ b₁) :: chunks t := by
  rw [chunks.eq_def]
  simp only [if_neg h, hw, h₁, Bool.not_true, Bool.false_eq_true, ↓reduceIte]

theorem chunks_three {b₀ b₁ b₂ : UInt8} {lo hi : Nat} (t : List UInt8) (h : ¬ b₀.toNat < 0x80)
    (hw : window b₀ = some (2, lo, hi)) (h₁ : inRange lo hi b₁ = true)
    (h₂ : inRange 0x80 0xBF b₂ = true) :
    chunks (b₀ :: b₁ :: b₂ :: t) = some (join3 b₀ b₁ b₂) :: chunks t := by
  rw [chunks.eq_def]
  simp only [if_neg h, hw, h₁, h₂, Bool.not_true, Bool.false_eq_true, ↓reduceIte,
    show (2 : Nat) ≠ 1 by decide]

theorem chunks_four {b₀ b₁ b₂ b₃ : UInt8} {lo hi : Nat} (t : List UInt8)
    (h : ¬ b₀.toNat < 0x80) (hw : window b₀ = some (3, lo, hi)) (h₁ : inRange lo hi b₁ = true)
    (h₂ : inRange 0x80 0xBF b₂ = true) (h₃ : inRange 0x80 0xBF b₃ = true) :
    chunks (b₀ :: b₁ :: b₂ :: b₃ :: t) = some (join4 b₀ b₁ b₂ b₃) :: chunks t := by
  rw [chunks.eq_def]
  simp only [if_neg h, hw, h₁, h₂, h₃, Bool.not_true, Bool.false_eq_true, ↓reduceIte,
    show (3 : Nat) ≠ 1 by decide, show (3 : Nat) ≠ 2 by decide]

theorem inRange_iff {lo hi : Nat} {b : UInt8} : inRange lo hi b = true ↔ lo ≤ b.toNat ∧ b.toNat ≤ hi := by
  simp [inRange]

theorem toNat_ofNat_small {n : Nat} (h : n < 256) : (UInt8.ofNat n).toNat = n := by
  rw [UInt8.toNat_ofNat', Nat.mod_eq_of_lt h]

/-- A lead byte of a three-byte character leaves room exactly for the scalar values. -/
theorem window_three {b : UInt8} {n : Nat} (hb : b.toNat = n / 4096 + 0xE0)
    (hlo : 0x800 ≤ n) (hhi : n < 0x10000) (hn : n < 0xD800 ∨ 0xDFFF < n) :
    ∃ lo hi, window b = some (2, lo, hi) ∧ lo ≤ n / 64 % 64 + 0x80 ∧ n / 64 % 64 + 0x80 ≤ hi := by
  simp only [window, hb]
  rw [if_neg (by omega)]
  split
  · exact ⟨_, _, rfl, by omega, by omega⟩
  · split
    · exact ⟨_, _, rfl, by omega, by omega⟩
    · split
      · exact ⟨_, _, rfl, by omega, by omega⟩
      · rw [if_pos (by omega)]
        exact ⟨_, _, rfl, by omega, by omega⟩

theorem window_four {b : UInt8} {n : Nat} (hb : b.toNat = n / 262144 + 0xF0)
    (hlo : 0x10000 ≤ n) (hhi : n < 0x110000) :
    ∃ lo hi, window b = some (3, lo, hi) ∧ lo ≤ n / 4096 % 64 + 0x80 ∧
      n / 4096 % 64 + 0x80 ≤ hi := by
  simp only [window, hb]
  rw [if_neg (by omega), if_neg (by omega), if_neg (by omega), if_neg (by omega), if_neg (by omega)]
  split
  · exact ⟨_, _, rfl, by omega, by omega⟩
  · split
    · exact ⟨_, _, rfl, by omega, by omega⟩
    · rw [if_pos (by omega)]
      exact ⟨_, _, rfl, by omega, by omega⟩

/-- One encoded character is cut off whole, whatever follows it. -/
theorem chunks_encodeChar (c : Char) (rest : List UInt8) :
    chunks (String.utf8EncodeChar c ++ rest) = some c :: chunks rest := by
  have hb := toNat_bound c
  have hc : Char.ofNat c.toNat = c := Char.ofNat_toNat c
  unfold String.utf8EncodeChar
  simp only [show c.val.toNat = c.toNat from rfl]
  generalize c.toNat = n at hb hc
  split
  next h =>
    have h₀ := toNat_ofNat_small (n := n) (by omega)
    rw [List.cons_append, List.nil_append, chunks_one _ (by omega), h₀, hc]
  next h =>
  split
  next h' =>
    have h₀ := toNat_ofNat_small (n := n / 64 % 0x20 + 0xc0) (by omega)
    have h₁ := toNat_ofNat_small (n := n % 0x40 + 0x80) (by omega)
    have hw : window (UInt8.ofNat (n / 64 % 0x20 + 0xc0)) = some (1, 0x80, 0xBF) := by
      rw [window, if_pos (by omega)]
    simp only [List.cons_append, List.nil_append]
    rw [chunks_two rest (by omega) hw (inRange_iff.mpr (by omega)), join2, h₀, h₁]
    rw [show (n / 64 % 0x20 + 0xc0 - 0xC0) * 64 + (n % 0x40 + 0x80 - 0x80) = n by omega, hc]
  next h' =>
  split
  next h'' =>
    have h₀ := toNat_ofNat_small (n := n / 4096 % 0x10 + 0xe0) (by omega)
    have h₁ := toNat_ofNat_small (n := n / 64 % 0x40 + 0x80) (by omega)
    have h₂ := toNat_ofNat_small (n := n % 0x40 + 0x80) (by omega)
    obtain ⟨lo, hi, hw, hlo, hhi⟩ := window_three (n := n) (b := UInt8.ofNat (n / 4096 % 0x10 + 0xe0))
      (by omega) (by omega) (by omega) (by omega)
    simp only [List.cons_append, List.nil_append]
    rw [chunks_three rest (by omega) hw (inRange_iff.mpr (by omega)) (inRange_iff.mpr (by omega)),
      join3, h₀, h₁, h₂]
    rw [show (n / 4096 % 0x10 + 0xe0 - 0xE0) * 4096 + (n / 64 % 0x40 + 0x80 - 0x80) * 64 +
      (n % 0x40 + 0x80 - 0x80) = n by omega, hc]
  next h'' =>
    have h₀ := toNat_ofNat_small (n := n / 262144 % 0x08 + 0xf0) (by omega)
    have h₁ := toNat_ofNat_small (n := n / 4096 % 0x40 + 0x80) (by omega)
    have h₂ := toNat_ofNat_small (n := n / 64 % 0x40 + 0x80) (by omega)
    have h₃ := toNat_ofNat_small (n := n % 0x40 + 0x80) (by omega)
    obtain ⟨lo, hi, hw, hlo, hhi⟩ := window_four (n := n) (b := UInt8.ofNat (n / 262144 % 0x08 + 0xf0))
      (by omega) (by omega) (by omega)
    simp only [List.cons_append, List.nil_append]
    rw [chunks_four rest (by omega) hw (inRange_iff.mpr (by omega)) (inRange_iff.mpr (by omega))
      (inRange_iff.mpr (by omega)), join4, h₀, h₁, h₂, h₃]
    rw [show (n / 262144 % 0x08 + 0xf0 - 0xF0) * 262144 + (n / 4096 % 0x40 + 0x80 - 0x80) * 4096 +
      (n / 64 % 0x40 + 0x80 - 0x80) * 64 + (n % 0x40 + 0x80 - 0x80) = n by omega, hc]

theorem chunks_encode (text : List Char) : chunks (encode text) = text.map some := by
  induction text with
  | nil => rfl
  | cons c text ih => rw [encode_cons, chunks_encodeChar, ih, List.map_cons]

/-- Every text is read back from its own encoding. -/
theorem decode_encode (text : List Char) : decode (encode text) = some text :=
  decode_eq_some.mpr (chunks_encode text)

theorem toNat_ofNat {n : Nat} (h : n < 0xD800 ∨ 0xDFFF < n ∧ n < 0x110000) : (Char.ofNat n).toNat = n := by
  have hvalid : n.isValidChar := h
  unfold Char.ofNat
  rw [dif_pos hvalid]
  rfl

/-- What a lead byte asks of the bytes after it. -/
theorem window_cases {b : UInt8} {need lo hi : Nat} (h : window b = some (need, lo, hi)) :
    (need = 1 ∧ 0xC2 ≤ b.toNat ∧ b.toNat ≤ 0xDF ∨ need = 2 ∧ 0xE0 ≤ b.toNat ∧ b.toNat ≤ 0xEF ∨
      need = 3 ∧ 0xF0 ≤ b.toNat ∧ b.toNat ≤ 0xF4) ∧
      0x80 ≤ lo ∧ hi ≤ 0xBF ∧ (b.toNat = 0xE0 → 0xA0 ≤ lo) ∧ (b.toNat = 0xED → hi ≤ 0x9F) ∧
      (b.toNat = 0xF0 → 0x90 ≤ lo) ∧ (b.toNat = 0xF4 → hi ≤ 0x8F) := by
  unfold window at h
  repeat' split at h
  all_goals
    simp only [Option.some.injEq, Prod.mk.injEq, reduceCtorEq] at h
  all_goals
    obtain ⟨rfl, rfl, rfl⟩ := h
    omega

/-- A character is encoded by its number. -/
theorem encodeChar_ofNat {n : Nat} (h : n < 0xD800 ∨ 0xDFFF < n ∧ n < 0x110000) :
    String.utf8EncodeChar (Char.ofNat n) =
      if n ≤ 0x7f then [UInt8.ofNat n]
      else if n ≤ 0x7ff then [UInt8.ofNat (n / 64 % 0x20 + 0xc0), UInt8.ofNat (n % 0x40 + 0x80)]
      else if n ≤ 0xffff then
        [UInt8.ofNat (n / 4096 % 0x10 + 0xe0), UInt8.ofNat (n / 64 % 0x40 + 0x80), UInt8.ofNat (n % 0x40 + 0x80)]
      else
        [UInt8.ofNat (n / 262144 % 0x08 + 0xf0), UInt8.ofNat (n / 4096 % 0x40 + 0x80),
          UInt8.ofNat (n / 64 % 0x40 + 0x80), UInt8.ofNat (n % 0x40 + 0x80)] := by
  unfold String.utf8EncodeChar
  simp only [show (Char.ofNat n).val.toNat = n from toNat_ofNat h]

theorem ofNat_eq {b : UInt8} {n : Nat} (h : n = b.toNat) : UInt8.ofNat n = b := by
  rw [h, UInt8.ofNat_toNat]

theorem encode_join2 {b₀ b₁ : UInt8} {lo hi : Nat} (hw : window b₀ = some (1, lo, hi)) (h₁ : inRange lo hi b₁ = true) :
    String.utf8EncodeChar (join2 b₀ b₁) = [b₀, b₁] := by
  obtain ⟨hneed, hlo, hhi, -⟩ := window_cases hw
  have hlead : 0xC2 ≤ b₀.toNat ∧ b₀.toNat ≤ 0xDF := by omega
  have hr₁ := inRange_iff.mp h₁
  clear hneed
  rw [join2, encodeChar_ofNat (by omega), if_neg (by omega), if_pos (by omega), ofNat_eq (b := b₀) (by omega),
    ofNat_eq (b := b₁) (by omega)]

theorem encode_join3 {b₀ b₁ b₂ : UInt8} {lo hi : Nat} (hw : window b₀ = some (2, lo, hi)) (h₁ : inRange lo hi b₁ = true)
    (h₂ : inRange 0x80 0xBF b₂ = true) : String.utf8EncodeChar (join3 b₀ b₁ b₂) = [b₀, b₁, b₂] := by
  obtain ⟨hneed, hlo, hhi, hlong, hsurrogate, -⟩ := window_cases hw
  have hlead : 0xE0 ≤ b₀.toNat ∧ b₀.toNat ≤ 0xEF := by omega
  have hr₁ := inRange_iff.mp h₁
  have hr₂ := inRange_iff.mp h₂
  clear hneed
  rw [join3, encodeChar_ofNat (by omega), if_neg (by omega), if_neg (by omega), if_pos (by omega),
    ofNat_eq (b := b₀) (by omega), ofNat_eq (b := b₁) (by omega), ofNat_eq (b := b₂) (by omega)]

theorem encode_join4 {b₀ b₁ b₂ b₃ : UInt8} {lo hi : Nat} (hw : window b₀ = some (3, lo, hi))
    (h₁ : inRange lo hi b₁ = true) (h₂ : inRange 0x80 0xBF b₂ = true) (h₃ : inRange 0x80 0xBF b₃ = true) :
    String.utf8EncodeChar (join4 b₀ b₁ b₂ b₃) = [b₀, b₁, b₂, b₃] := by
  obtain ⟨hneed, hlo, hhi, -, -, hlong, hlast⟩ := window_cases hw
  have hlead : 0xF0 ≤ b₀.toNat ∧ b₀.toNat ≤ 0xF4 := by omega
  have hr₁ := inRange_iff.mp h₁
  have hr₂ := inRange_iff.mp h₂
  have hr₃ := inRange_iff.mp h₃
  clear hneed
  rw [join4, encodeChar_ofNat (by omega), if_neg (by omega), if_neg (by omega), if_neg (by omega),
    ofNat_eq (b := b₀) (by omega), ofNat_eq (b := b₁) (by omega), ofNat_eq (b := b₂) (by omega),
    ofNat_eq (b := b₃) (by omega)]

/-- Bytes that are characters throughout are the encoding of these. -/
theorem encode_of_chunks {bytes : List UInt8} {text : List Char} (h : chunks bytes = text.map some) :
    bytes = encode text := by
  have hcons : ∀ {c : Char} {rest : List (Option Char)} {tail lead : List UInt8} {text : List Char},
      some c :: rest = text.map some → String.utf8EncodeChar c = lead →
      (∀ text, rest = text.map some → tail = encode text) → lead ++ tail = encode text := by
    intro c rest tail lead text heq hlead htail
    obtain ⟨c', text', rfl, hc, hrest⟩ := List.map_eq_cons_iff.mp heq.symm
    cases hc
    rw [encode_cons, hlead, htail text' hrest.symm]
  have hnone : ∀ {rest : List (Option Char)} {text : List Char}, none :: rest = text.map some → False := by
    intro rest text heq
    obtain ⟨c', text', rfl, hc, -⟩ := List.map_eq_cons_iff.mp heq.symm
    cases hc
  induction bytes using chunks.induct generalizing text with
  | case1 =>
    rw [chunks] at h
    rw [List.map_eq_nil_iff.mp h.symm]
    rfl
  | case2 b₀ t₀ hb ih =>
    rw [chunks_one t₀ hb] at h
    have henc : String.utf8EncodeChar (Char.ofNat b₀.toNat) = [b₀] := by
      rw [encodeChar_ofNat (by omega), if_pos (by omega), UInt8.ofNat_toNat]
    exact hcons h henc fun _ => ih
  | case6 b₀ hb lo hi b₁ t₁ h₁ hw ih =>
    have hr₁ : inRange lo hi b₁ = true := by simpa using h₁
    rw [chunks_two t₁ hb hw hr₁] at h
    exact hcons h (encode_join2 hw hr₁) fun _ => ih
  | case9 b₀ hb lo hi b₁ h₁ b₂ t₂ h₂ hw _ ih =>
    have hr₁ : inRange lo hi b₁ = true := by simpa using h₁
    have hr₂ : inRange 0x80 0xBF b₂ = true := by simpa using h₂
    rw [chunks_three t₂ hb hw hr₁ hr₂] at h
    exact hcons h (encode_join3 hw hr₁ hr₂) fun _ => ih
  | case12 b₀ hb need lo hi hw b₁ h₁ hn₁ b₂ h₂ hn₂ b₃ t₃ h₃ ih =>
    have hneed : need = 3 := by
      obtain ⟨hcases, -⟩ := window_cases hw
      omega
    subst hneed
    have hr₁ : inRange lo hi b₁ = true := by simpa using h₁
    have hr₂ : inRange 0x80 0xBF b₂ = true := by simpa using h₂
    have hr₃ : inRange 0x80 0xBF b₃ = true := by simpa using h₃
    rw [chunks_four t₃ hb hw hr₁ hr₂ hr₃] at h
    exact hcons h (encode_join4 hw hr₁ hr₂ hr₃) fun _ => ih
  | case3 b₀ t₀ hb hw =>
    rw [chunks, if_neg hb, hw] at h
    exact (hnone h).elim
  | case4 b₀ hb need lo hi hw =>
    rw [chunks.eq_def] at h
    simp only [if_neg hb, hw] at h
    exact (hnone h).elim
  | case5 b₀ hb need lo hi hw b₁ t₁ h₁ =>
    rw [chunks.eq_def] at h
    simp only [if_neg hb, hw, if_pos h₁] at h
    exact (hnone h).elim
  | case7 b₀ hb need lo hi hw b₁ h₁ hn₁ =>
    rw [chunks.eq_def] at h
    simp only [if_neg hb, hw, if_neg h₁, if_neg hn₁] at h
    exact (hnone h).elim
  | case8 b₀ hb need lo hi hw b₁ h₁ hn₁ b₂ t₂ h₂ =>
    rw [chunks.eq_def] at h
    simp only [if_neg hb, hw, if_neg h₁, if_neg hn₁, if_pos h₂] at h
    exact (hnone h).elim
  | case10 b₀ hb need lo hi hw b₁ h₁ hn₁ b₂ h₂ hn₂ =>
    rw [chunks.eq_def] at h
    simp only [if_neg hb, hw, if_neg h₁, if_neg hn₁, if_neg h₂, if_neg hn₂] at h
    exact (hnone h).elim
  | case11 b₀ hb need lo hi hw b₁ h₁ hn₁ b₂ h₂ hn₂ b₃ t₃ h₃ =>
    rw [chunks.eq_def] at h
    simp only [if_neg hb, hw, if_neg h₁, if_neg hn₁, if_neg h₂, if_neg hn₂, if_pos h₃] at h
    exact (hnone h).elim

/-- Decoding reads back exactly the encoding of the text. -/
theorem decode_iff {bytes : List UInt8} {text : List Char} : decode bytes = some text ↔ bytes = encode text := by
  constructor
  · exact fun h => encode_of_chunks (decode_eq_some.mp h)
  · rintro rfl
    exact decode_encode text

/-- A byte below 0x80 encodes its own character only. -/
theorem toNat_of_mem_encodeChar {c : Char} {b : UInt8} (h : b ∈ String.utf8EncodeChar c) (hb : b.toNat < 0x80) :
    c.toNat = b.toNat := by
  have hc := toNat_bound c
  have hbyte : ∀ n, b = UInt8.ofNat n → n < 256 → b.toNat = n := fun n he hn => he ▸ toNat_ofNat_small hn
  simp only [String.utf8EncodeChar, show c.val.toNat = c.toNat from rfl] at h
  split at h
  next hsmall =>
    simp only [List.mem_cons, List.not_mem_nil, or_false] at h
    exact (hbyte _ h (by omega)).symm
  next =>
    split at h
    next =>
      simp only [List.mem_cons, List.not_mem_nil, or_false] at h
      rcases h with h | h <;> have := hbyte _ h (by omega) <;> omega
    next =>
      split at h
      next =>
        simp only [List.mem_cons, List.not_mem_nil, or_false] at h
        rcases h with h | h | h <;> have := hbyte _ h (by omega) <;> omega
      next =>
        simp only [List.mem_cons, List.not_mem_nil, or_false] at h
        rcases h with h | h | h | h <;> have := hbyte _ h (by omega) <;> omega

/-- The encoded text has a byte below 0x80 only where the text has its character. -/
theorem mem_of_mem_encode {text : List Char} {b : UInt8} (h : b ∈ encode text) (hb : b.toNat < 0x80) :
    ∃ c ∈ text, c.toNat = b.toNat := by
  obtain ⟨c, hc, hmem⟩ := List.mem_flatMap.mp h
  exact ⟨c, hc, toNat_of_mem_encodeChar hmem hb⟩

end Utf8Codec
