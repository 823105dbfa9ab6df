import Mathlib.Data.List.Basic
import Mathlib.Tactic.Common

/-!
# Base64

The strict, padded decoding of RFC 4648: quads of symbols, padding in the last quad
only, and the bits that the padding leaves over are zero. The lemmas say when an input
may be decoded piece by piece.
-/
namespace Base64

abbrev Bytes := List UInt8

def pad : UInt8 := 61

/-- The six bits of a symbol of the standard alphabet. -/
def value (b : UInt8) : Option Nat :=
  let n := b.toNat
  if 65 ≤ n ∧ n ≤ 90 then some (n - 65)
  else if 97 ≤ n ∧ n ≤ 122 then some (n - 71)
  else if 48 ≤ n ∧ n ≤ 57 then some (n + 4)
  else if n = 43 then some 62
  else if n = 47 then some 63
  else none

def byte (n : Nat) : UInt8 := UInt8.ofNat n

/-- Four symbols are three bytes. -/
def quad (a b c d : UInt8) : Option Bytes := do
  let a ← value a
  let b ← value b
  let c ← value c
  let d ← value d
  return [byte (a * 4 + b / 16), byte (b % 16 * 16 + c / 4), byte (c % 4 * 64 + d)]

/-- The last quad may end in one or two pads. -/
def lastQuad (a b c d : UInt8) : Option Bytes :=
  if d ≠ pad then quad a b c d
  else if c ≠ pad then do
    let a ← value a
    let b ← value b
    let c ← value c
    if c % 4 = 0 then return [byte (a * 4 + b / 16), byte (b % 16 * 16 + c / 4)] else none
  else do
    let a ← value a
    let b ← value b
    if b % 16 = 0 then return [byte (a * 4 + b / 16)] else none

def decode : Bytes → Option Bytes
  | [] => some []
  | [a, b, c, d] => lastQuad a b c d
  | a :: b :: c :: d :: rest => do
    let out ← quad a b c d
    let more ← decode rest
    return out ++ more
  | _ => none

theorem decode_nil : decode [] = some [] := rfl

theorem decode_last (a b c d : UInt8) : decode [a, b, c, d] = lastQuad a b c d := rfl

/-- The symbol of six bits. -/
def symbol (n : Nat) : UInt8 :=
  if n < 26 then byte (n + 65)
  else if n < 52 then byte (n + 71)
  else if n < 62 then byte (n - 4)
  else if n = 62 then 43
  else 47

/-- Three bytes are four symbols; what is left at the end is padded. -/
def encode : Bytes → Bytes
  | [] => []
  | [a] => [symbol (a.toNat / 4), symbol (a.toNat % 4 * 16), pad, pad]
  | [a, b] => [symbol (a.toNat / 4), symbol (a.toNat % 4 * 16 + b.toNat / 16), symbol (b.toNat % 16 * 4), pad]
  | a :: b :: c :: rest =>
    symbol (a.toNat / 4) :: symbol (a.toNat % 4 * 16 + b.toNat / 16) :: symbol (b.toNat % 16 * 4 + c.toNat / 64) ::
      symbol (c.toNat % 64) :: encode rest

example : decode [90, 109, 57, 118, 89, 103, 61, 61] = some [102, 111, 111, 98] := by decide
example : decode [90, 109, 57, 118, 89, 104, 61, 61] = none := by decide

/-! ## Padding -/

theorem value_pad : value pad = none := by decide

theorem quad_of_pad {a b c d : UInt8} (h : pad ∈ [a, b, c, d]) : quad a b c d = none := by
  cases hq : quad a b c d with
  | none => rfl
  | some out =>
    simp only [quad, Option.bind_eq_bind, Option.bind_eq_some_iff] at hq
    obtain ⟨va, ha, vb, hb, vc, hc, vd, hd, -⟩ := hq
    simp only [List.mem_cons, List.not_mem_nil, or_false] at h
    rcases h with rfl | rfl | rfl | rfl <;> simp_all [value_pad]

theorem lastQuad_of_not_pad {a b c d : UInt8} (h : pad ∉ [a, b, c, d]) : lastQuad a b c d = quad a b c d := by
  have hd : d ≠ pad := by
    intro hd
    simp [hd] at h
  rw [lastQuad, if_pos hd]

/-- What follows a pad is padding. -/
def PadsLast (s : Bytes) : Prop := s.Pairwise fun a c => a = pad → c = pad

theorem padsLast_append {s t : Bytes} :
    PadsLast (s ++ t) ↔ PadsLast s ∧ PadsLast t ∧ (pad ∈ s → ∀ c ∈ t, c = pad) := by
  simp only [PadsLast, List.pairwise_append]
  constructor
  · intro ⟨hs, ht, h⟩
    exact ⟨hs, ht, fun hmem c hc => h pad hmem c hc rfl⟩
  · intro ⟨hs, ht, h⟩
    exact ⟨hs, ht, fun a ha c hc he => h (he ▸ ha) c hc⟩

theorem padsLast_of_not_mem {s : Bytes} (h : pad ∉ s) : PadsLast s := by
  induction s with
  | nil => simp [PadsLast]
  | cons a s ih =>
    simp only [List.mem_cons, not_or] at h
    exact List.pairwise_cons.mpr ⟨fun c _ ha => absurd ha.symm h.1, ih h.2⟩

theorem padsLast_of_all {s : Bytes} (h : ∀ c ∈ s, c = pad) : PadsLast s := by
  apply List.pairwise_of_forall_mem_list
  intro a _ c hc _
  exact h c hc

theorem ne_pad_of_value {x : UInt8} {v : Nat} (h : value x = some v) : x ≠ pad := by
  intro hx
  rw [hx, value_pad] at h
  exact absurd h (by simp)

theorem quad_no_pad {a b c d : UInt8} {out : Bytes} (h : quad a b c d = some out) : pad ∉ [a, b, c, d] := by
  intro hmem
  rw [quad_of_pad hmem] at h
  exact absurd h (by simp)

/-- The last quad has its padding at its end. -/
theorem lastQuad_padsLast {a b c d : UInt8} {out : Bytes} (h : lastQuad a b c d = some out) :
    PadsLast [a, b, c, d] := by
  by_cases hd : d ≠ pad
  · rw [lastQuad, if_pos hd] at h
    exact padsLast_of_not_mem (quad_no_pad h)
  · by_cases hc : c ≠ pad
    · rw [lastQuad, if_neg hd, if_pos hc] at h
      simp only [Option.bind_eq_bind, Option.bind_eq_some_iff] at h
      obtain ⟨va, ha, vb, hb, -⟩ := h
      simp [PadsLast, ne_pad_of_value ha, ne_pad_of_value hb, hc]
    · rw [lastQuad, if_neg hd, if_neg hc] at h
      simp only [Option.bind_eq_bind, Option.bind_eq_some_iff] at h
      obtain ⟨va, ha, vb, hb, -⟩ := h
      have hdpad : d = pad := not_not.mp hd
      simp [PadsLast, ne_pad_of_value ha, ne_pad_of_value hb, hdpad]

/-! ## Decoding in pieces -/

theorem decode_quad_cons (a b c d : UInt8) {rest : Bytes} (h : rest ≠ []) :
    decode (a :: b :: c :: d :: rest) = (quad a b c d).bind fun out => (decode rest).map (out ++ ·) := by
  cases rest with
  | nil => exact absurd rfl h
  | cons e rest =>
    change ((quad a b c d).bind fun out => (decode (e :: rest)).bind fun more => some (out ++ more)) = _
    cases quad a b c d with
    | none => rfl
    | some out => cases decode (e :: rest) <;> rfl

/-- A quad without padding may be decoded on its own. -/
theorem decode_quad {a b c d : UInt8} (h : pad ∉ [a, b, c, d]) (rest : Bytes) :
    decode (a :: b :: c :: d :: rest) = (quad a b c d).bind fun out => (decode rest).map (out ++ ·) := by
  by_cases hrest : rest = []
  · subst hrest
    cases hq : quad a b c d <;> simp [decode_last, decode_nil, lastQuad_of_not_pad h, hq]
  · exact decode_quad_cons a b c d hrest

/-- A piece of whole quads without padding may be decoded on its own. -/
theorem eq_nil_or_quad {s : Bytes} (hs : 4 ∣ s.length) : s = [] ∨ ∃ a b c d rest, s = a :: b :: c :: d :: rest := by
  rcases s with _ | ⟨a, _ | ⟨b, _ | ⟨c, _ | ⟨d, rest⟩⟩⟩⟩
  · exact .inl rfl
  · simp at hs
  · simp at hs
  · simp at hs
  · exact .inr ⟨a, b, c, d, rest, rfl⟩

theorem decode_append {s : Bytes} (hs : 4 ∣ s.length) (h : pad ∉ s) (t : Bytes) :
    decode (s ++ t) = (decode s).bind fun out => (decode t).map (out ++ ·) := by
  induction s using decode.induct with
  | case1 => simp [decode_nil]
  | case2 a b c d =>
    rw [decode_quad h []]
    simpa [decode_nil] using decode_quad h t
  | case3 a b c d rest hrest ih =>
    have hmem : pad ∉ [a, b, c, d] ∧ pad ∉ rest := by simp_all
    have hlen : 4 ∣ rest.length := by simp at hs; omega
    simp only [List.cons_append, decode_quad hmem.1, ih hlen hmem.2]
    cases quad a b c d <;> cases decode rest <;> cases decode t <;> simp
  | case4 s h1 h2 h3 =>
    obtain rfl | ⟨a, b, c, d, rest, rfl⟩ := eq_nil_or_quad hs
    · exact absurd rfl h1
    · exact absurd rfl (h3 a b c d rest)

/-- A piece of whole quads with padding ends the input. -/
theorem decode_append_of_pad {s t : Bytes} (hs : 4 ∣ s.length) (h : pad ∈ s) (ht : t ≠ []) : decode (s ++ t) = none := by
  induction s using decode.induct with
  | case1 => simp at h
  | case2 a b c d =>
    rw [List.cons_append, List.cons_append, List.cons_append, List.cons_append, List.nil_append,
      decode_quad_cons a b c d ht, quad_of_pad h]
    rfl
  | case3 a b c d rest hrest ih =>
    have hlen : 4 ∣ rest.length := by simp at hs; omega
    simp only [List.cons_append]
    rw [decode_quad_cons a b c d (by simp [ht])]
    by_cases hq : pad ∈ [a, b, c, d]
    · rw [quad_of_pad hq]
      rfl
    · have hmem : pad ∈ rest := by simp_all
      rw [ih hlen hmem]
      cases quad a b c d <;> rfl
  | case4 s h1 h2 h3 =>
    obtain rfl | ⟨a, b, c, d, rest, rfl⟩ := eq_nil_or_quad hs
    · exact absurd rfl h1
    · exact absurd rfl (h3 a b c d rest)

/-- What is wrong in a piece of whole quads is wrong in the input. -/
theorem decode_append_of_none {s : Bytes} (hs : 4 ∣ s.length) (h : decode s = none) (t : Bytes) :
    decode (s ++ t) = none := by
  by_cases hpad : pad ∈ s
  · by_cases ht : t = []
    · simp [ht, h]
    · exact decode_append_of_pad hs hpad ht
  · rw [decode_append hs hpad, h]
    rfl

/-- Padding alone decodes to nothing. -/
theorem decode_pads {s : Bytes} (hne : s ≠ []) (h : ∀ c ∈ s, c = pad) : decode s = none := by
  match s with
  | [] => exact absurd rfl hne
  | [_] | [_, _] | [_, _, _] => rfl
  | [a, b, c, d] => simp [decode_last, lastQuad, h a (by simp), h c (by simp), h d (by simp), value_pad]
  | a :: b :: c :: d :: e :: rest =>
    rw [decode_quad_cons a b c d (by simp), quad_of_pad (by simp [h a (by simp)])]
    rfl

theorem decode_padsLast {s out : Bytes} (h : decode s = some out) : PadsLast s := by
  induction s using decode.induct generalizing out with
  | case1 => simp [PadsLast]
  | case2 a b c d => exact lastQuad_padsLast h
  | case3 a b c d rest hrest ih =>
    rw [decode_quad_cons a b c d (by simpa using hrest)] at h
    simp only [Option.bind_eq_some_iff, Option.map_eq_some_iff] at h
    obtain ⟨first, hq, more, hmore, -⟩ := h
    have hclean := quad_no_pad hq
    exact padsLast_append (s := [a, b, c, d]).mpr
      ⟨padsLast_of_not_mem hclean, ih hmore, fun hmem => absurd hmem hclean⟩
  | case4 s h1 h2 h3 => simp [decode] at h

/-! ## Round trip -/

theorem value_symbol_fin (n : Fin 64) : value (symbol n) = some n.val ∧ symbol n ≠ pad := by
  revert n
  decide

theorem value_symbol {n : Nat} (h : n < 64) : value (symbol n) = some n := (value_symbol_fin ⟨n, h⟩).1

theorem symbol_ne_pad {n : Nat} (h : n < 64) : symbol n ≠ pad := (value_symbol_fin ⟨n, h⟩).2

theorem byte_eq {n : Nat} {b : UInt8} (h : n % 256 = b.toNat) : byte n = b := by
  apply UInt8.toNat_inj.mp
  rw [byte, UInt8.toNat_ofNat', h]

/-- What is encoded is decoded again. -/
theorem decode_encode (s : Bytes) : decode (encode s) = some s := by
  fun_induction encode s with
  | case1 => rfl
  | case2 a =>
    have ha := a.toNat_lt
    have hfirst : value (symbol (a.toNat / 4)) = some (a.toNat / 4) := value_symbol (by omega)
    have hsecond : value (symbol (a.toNat % 4 * 16)) = some (a.toNat % 4 * 16) := value_symbol (by omega)
    have hbyte : byte (a.toNat / 4 * 4 + a.toNat % 4 * 16 / 16) = a := byte_eq (by omega)
    have hrest : a.toNat % 4 * 16 % 16 = 0 := by omega
    rw [decode_last, lastQuad, if_neg (not_not.mpr rfl), if_neg (not_not.mpr rfl), hfirst, hsecond]
    simp only [Option.bind_eq_bind, Option.bind_some, hrest, if_true, hbyte]
    rfl
  | case3 a b =>
    have ha := a.toNat_lt
    have hb := b.toNat_lt
    have hfirst : value (symbol (a.toNat / 4)) = some (a.toNat / 4) := value_symbol (by omega)
    have hsecond : value (symbol (a.toNat % 4 * 16 + b.toNat / 16)) = some (a.toNat % 4 * 16 + b.toNat / 16) :=
      value_symbol (by omega)
    have hthird : value (symbol (b.toNat % 16 * 4)) = some (b.toNat % 16 * 4) := value_symbol (by omega)
    have hthirdPad : symbol (b.toNat % 16 * 4) ≠ pad := symbol_ne_pad (by omega)
    have hbyte : byte (a.toNat / 4 * 4 + (a.toNat % 4 * 16 + b.toNat / 16) / 16) = a := byte_eq (by omega)
    have hbyte' : byte ((a.toNat % 4 * 16 + b.toNat / 16) % 16 * 16 + b.toNat % 16 * 4 / 4) = b := byte_eq (by omega)
    have hrest : b.toNat % 16 * 4 % 4 = 0 := by omega
    rw [decode_last, lastQuad, if_neg (not_not.mpr rfl), if_pos hthirdPad, hfirst, hsecond, hthird]
    simp only [Option.bind_eq_bind, Option.bind_some, hrest, if_true, hbyte, hbyte']
    rfl
  | case4 a b c rest ih =>
    have ha := a.toNat_lt
    have hb := b.toNat_lt
    have hc := c.toNat_lt
    have hfourth : symbol (c.toNat % 64) ≠ pad := symbol_ne_pad (by omega)
    have hbyte : byte (a.toNat / 4 * 4 + (a.toNat % 4 * 16 + b.toNat / 16) / 16) = a := byte_eq (by omega)
    have hbyte' : byte ((a.toNat % 4 * 16 + b.toNat / 16) % 16 * 16 + (b.toNat % 16 * 4 + c.toNat / 64) / 4) = b :=
      byte_eq (by omega)
    have hbyte'' : byte ((b.toNat % 16 * 4 + c.toNat / 64) % 4 * 64 + c.toNat % 64) = c := byte_eq (by omega)
    have hquad : quad (symbol (a.toNat / 4)) (symbol (a.toNat % 4 * 16 + b.toNat / 16))
        (symbol (b.toNat % 16 * 4 + c.toNat / 64)) (symbol (c.toNat % 64)) = some [a, b, c] := by
      rw [quad, value_symbol (by omega), value_symbol (by omega), value_symbol (by omega), value_symbol (by omega)]
      simp only [Option.bind_eq_bind, Option.bind_some, hbyte, hbyte', hbyte'']
      rfl
    cases hrest : encode rest with
    | nil =>
      rw [hrest] at ih
      cases ih
      rw [decode_last, lastQuad, if_pos hfourth, hquad]
    | cons s ss =>
      rw [← hrest, decode_quad_cons _ _ _ _ (by rw [hrest]; exact List.cons_ne_nil _ _), hquad, ih]
      rfl

end Base64
