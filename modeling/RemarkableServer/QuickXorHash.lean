import RemarkableServer.Lib.Base64

/-!
# OneDrive's hash

`quick_xor_hash` goes over the content byte by byte and XORs each into the one or two bytes of the
hash that it falls on. The hash is defined on 160 bits: the bytes of the content, each rotated by 11
bits more than the one before, and the length in the upper 64 bits.
-/
namespace QuickXorHash

open Base64 (Bytes)

/-! ## The code -/

def bits : Nat := 160

/-- A hash as bytes, the lowest first. -/
abbrev Hash := Vector (BitVec 8) 20

/-- The bit that byte `i` of the content starts at. -/
def start (i : Nat) : Nat := i % bits * 11 % bits

theorem start_lt (i : Nat) : start i < bits := Nat.mod_lt _ (by decide)

/-- One byte of the content, in the loop over them. -/
def xorByte (hash : Hash) (i : Nat) (b : BitVec 8) : Hash :=
  have hbyte : start i / 8 < 20 := Nat.div_lt_of_lt_mul (start_lt i)
  have hnext : (start i / 8 + 1) % 20 < 20 := Nat.mod_lt _ (by decide)
  let hash := hash.set (start i / 8) (hash[start i / 8] ^^^ b <<< (start i % 8))
  if 0 < start i % 8 then
    hash.set ((start i / 8 + 1) % 20) (hash[(start i / 8 + 1) % 20] ^^^ b >>> (8 - start i % 8))
  else hash

/-- The loop, from byte `i` on. -/
def xorBytes (hash : Hash) : Nat → Bytes → Hash
  | _, [] => hash
  | i, b :: content => xorBytes (xorByte hash i b.toBitVec) (i + 1) content

/-- `to_le_bytes` of a 64-bit number. -/
def toLeBytes (n : BitVec 64) : Vector (BitVec 8) 8 := Vector.ofFn fun j => n.extractLsb' (8 * j) 8

/-- The length, into the last bytes. -/
def xorLength (hash : Hash) (len : BitVec 64) : Hash :=
  Vector.ofFn fun j : Fin 20 => if h : 12 ≤ j.val then hash[j] ^^^ (toLeBytes len)[j.val - 12] else hash[j]

/-- The 20 bytes before they are encoded. -/
def quickXorBytes (content : Bytes) : Bytes :=
  ((xorLength (xorBytes (Vector.replicate 20 0) 0 content) (BitVec.ofNat 64 content.length)).toList).map UInt8.ofBitVec

/-- `quick_xor_hash`. -/
def quickXorHash (content : Bytes) : Bytes := Base64.encode (quickXorBytes content)

/-! ## The definition -/

/-- A byte at a bit position, its upper bits round the end. -/
def rotated (i : Nat) (b : BitVec 8) : BitVec bits := (b.setWidth bits).rotateLeft (11 * i % bits)

/-- The XOR over the bytes from `i` on. -/
def accumulated : Nat → Bytes → BitVec bits
  | _, [] => BitVec.ofNat bits 0
  | i, b :: content => rotated i b.toBitVec ^^^ accumulated (i + 1) content

def reference (content : Bytes) : BitVec bits :=
  accumulated 0 content ^^^ (BitVec.ofNat 64 content.length).setWidth bits <<< (bits - 64)

/-- The bytes of 160 bits, the lowest first. -/
def bytesOf (x : BitVec bits) : Hash := Vector.ofFn fun j => x.extractLsb' (8 * j) 8

/-! ## Bit by bit -/

/-- Bit `k` of byte `j` of the hash of `x` is bit `8 * j + k`. -/
theorem getLsbD_bytesOf (x : BitVec bits) {j k : Nat} (hj : j < 20) (hk : k < 8) :
    (bytesOf x)[j].getLsbD k = x.getLsbD (8 * j + k) := by
  rw [bytesOf, Vector.getElem_ofFn, BitVec.getLsbD_extractLsb']
  simp [hk]

/-- Two hashes with the same bits. -/
theorem ext_bits {h h' : Hash} (hbits : ∀ j k, (hj : j < 20) → k < 8 → h[j].getLsbD k = h'[j].getLsbD k) : h = h' := by
  apply Vector.ext
  intro j hj
  apply BitVec.eq_of_getLsbD_eq
  intro k hk
  exact hbits j k hj hk

theorem start_eq (i : Nat) : 11 * i % bits = start i := by
  rw [start, Nat.mul_comm, Nat.mul_mod, Nat.mod_eq_of_lt (show 11 < bits by decide)]

/-- The bits of a rotated byte: from its start on, or those that went round the end. -/
theorem getLsbD_rotated (i : Nat) (b : BitVec 8) {n : Nat} (hn : n < bits) :
    (rotated i b).getLsbD n = if n < start i then b.getLsbD (bits - start i + n) else b.getLsbD (n - start i) := by
  have hstart := start_lt i
  rw [rotated, start_eq, BitVec.getLsbD_rotateLeft_of_le hstart]
  by_cases hlow : n < start i
  · have hin : bits - start i + n < bits := by omega
    simp [hlow, hin]
  · have hin : n - start i < bits := by omega
    simp [hlow, hn, hin]

/-- The byte at a place is changed by the part of `b` that falls on it. -/
theorem getElem_xorByte (hash : Hash) (i : Nat) (b : BitVec 8) {j : Nat} (hj : j < 20) :
    (xorByte hash i b)[j] = hash[j] ^^^
      (if start i / 8 = j then b <<< (start i % 8)
      else if (start i / 8 + 1) % 20 = j ∧ 0 < start i % 8 then b >>> (8 - start i % 8) else 0) := by
  have hbyte : start i / 8 < 20 := Nat.div_lt_of_lt_mul (start_lt i)
  have hother : (start i / 8 + 1) % 20 ≠ start i / 8 := by omega
  unfold xorByte
  by_cases hshift : 0 < start i % 8
  · rw [if_pos hshift]
    simp only [Vector.getElem_set]
    by_cases hfirst : start i / 8 = j
    · subst hfirst
      simp [hother]
    · by_cases hnext : (start i / 8 + 1) % 20 = j
      · subst hnext
        simp [hfirst, hshift]
      · simp [hfirst, hnext]
  · rw [if_neg hshift]
    simp only [Vector.getElem_set]
    by_cases hfirst : start i / 8 = j
    · subst hfirst
      simp
    · simp [hfirst, hshift]

/-- The part of a byte that falls on byte `j` of the hash, bit by bit. -/
theorem getLsbD_part (i : Nat) (b : BitVec 8) {j k : Nat} (hj : j < 20) (hk : k < 8) :
    (if start i / 8 = j then b <<< (start i % 8)
      else if (start i / 8 + 1) % 20 = j ∧ 0 < start i % 8 then b >>> (8 - start i % 8) else 0).getLsbD k =
      (rotated i b).getLsbD (8 * j + k) := by
  have hstart : start i < 160 := start_lt i
  rw [getLsbD_rotated _ _ (show 8 * j + k < 160 by omega)]
  unfold bits
  by_cases hfirst : start i / 8 = j
  · rw [if_pos hfirst, BitVec.getLsbD_shiftLeft]
    by_cases hlow : k < start i % 8
    · have hpast : 8 ≤ 160 - start i + (8 * j + k) := by omega
      rw [if_pos (show 8 * j + k < start i by omega), BitVec.getLsbD_of_ge _ _ hpast]
      simp [hlow]
    · have hindex : 8 * j + k - start i = k - start i % 8 := by omega
      rw [if_neg (show ¬ 8 * j + k < start i by omega), hindex]
      simp [hk, hlow]
  rw [if_neg hfirst]
  by_cases hnext : (start i / 8 + 1) % 20 = j ∧ 0 < start i % 8
  · rw [if_pos hnext, BitVec.getLsbD_ushiftRight]
    by_cases hwraps : start i / 8 = 19
    -- the upper bits of the byte go to the first byte of the hash
    · have hindex : 160 - start i + (8 * j + k) = 8 - start i % 8 + k := by omega
      rw [if_pos (show 8 * j + k < start i by omega), hindex]
    · have hindex : 8 * j + k - start i = 8 - start i % 8 + k := by omega
      rw [if_neg (show ¬ 8 * j + k < start i by omega), hindex]
  · rw [if_neg hnext]
    have hzero : (0 : BitVec 8).getLsbD k = false := BitVec.getLsbD_zero
    rw [hzero]
    split
    · rw [BitVec.getLsbD_of_ge _ _ (by omega)]
    · rw [BitVec.getLsbD_of_ge _ _ (by omega)]

/-- One byte of the loop is one byte of the definition. -/
theorem xorByte_bytesOf (x : BitVec bits) (i : Nat) (b : BitVec 8) :
    xorByte (bytesOf x) i b = bytesOf (x ^^^ rotated i b) := by
  apply ext_bits
  intro j k hj hk
  rw [getElem_xorByte _ _ _ hj, BitVec.getLsbD_xor, getLsbD_bytesOf _ hj hk, getLsbD_bytesOf _ hj hk, BitVec.getLsbD_xor,
    getLsbD_part i b hj hk]

theorem xorBytes_bytesOf (x : BitVec bits) (i : Nat) (content : Bytes) :
    xorBytes (bytesOf x) i content = bytesOf (x ^^^ accumulated i content) := by
  induction content generalizing x i with
  | nil => rw [xorBytes, accumulated, BitVec.xor_zero]
  | cons b content ih => rw [xorBytes, accumulated, xorByte_bytesOf, ih, BitVec.xor_assoc]

theorem bytesOf_zero : bytesOf (BitVec.ofNat bits 0) = Vector.replicate 20 0 := by decide

theorem xorLength_bytesOf (x : BitVec bits) (len : BitVec 64) :
    xorLength (bytesOf x) len = bytesOf (x ^^^ len.setWidth bits <<< (bits - 64)) := by
  apply ext_bits
  intro j k hj hk
  rw [getLsbD_bytesOf _ hj hk, BitVec.getLsbD_xor, BitVec.getLsbD_shiftLeft, BitVec.getLsbD_setWidth, xorLength,
    Vector.getElem_ofFn]
  unfold bits
  by_cases hlast : 12 ≤ j
  · have hin : 8 * j + k < 160 := by omega
    have hhigh : ¬ 8 * j + k < 96 := by omega
    have hindex : 8 * (j - 12) + k = 8 * j + k - 96 := by omega
    rw [dif_pos hlast, BitVec.getLsbD_xor, Fin.getElem_fin, getLsbD_bytesOf _ hj hk, toLeBytes, Vector.getElem_ofFn,
      BitVec.getLsbD_extractLsb', hindex]
    have hin' : 8 * j + k - 96 < 160 := by omega
    simp [hin, hin', hhigh, hk]
    rfl
  · have hlow : 8 * j + k < 96 := by omega
    rw [dif_neg hlast, Fin.getElem_fin, getLsbD_bytesOf _ hj hk]
    simp [hlow]
    rfl

/-- The 20 bytes are those of the definition, and they are what the text that is returned encodes. -/
theorem quickXorHash_eq (content : Bytes) :
    quickXorBytes content = ((bytesOf (reference content)).toList).map UInt8.ofBitVec ∧
      Base64.decode (quickXorHash content) = some (((bytesOf (reference content)).toList).map UInt8.ofBitVec) := by
  have hbytes : quickXorBytes content = ((bytesOf (reference content)).toList).map UInt8.ofBitVec := by
    rw [quickXorBytes, ← bytesOf_zero, xorBytes_bytesOf, xorLength_bytesOf, reference, BitVec.zero_xor]
  refine ⟨hbytes, ?_⟩
  rw [quickXorHash, Base64.decode_encode, hbytes]

-- the known values of the tests
example : quickXorBytes [] = List.replicate 20 0 := by decide
example : quickXorBytes [0xb5, 0xb4] = [0xb5, 0xa0, 0x05, 0, 0, 0, 0, 0, 0, 0, 0, 0, 2, 0, 0, 0, 0, 0, 0, 0] := by decide

end QuickXorHash
