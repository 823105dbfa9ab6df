import Mathlib.Data.List.Basic

/-!
# SHA-256

The hash function on byte strings, with 32-bit words as numbers below 2^32. It
is computed the way the standard describes it: padding to whole blocks, a
schedule of 64 words for each block, and 64 rounds over eight working words.
-/
namespace Sha256

def wordSize : Nat := 4294967296

def rotr (n x : Nat) : Nat := (x >>> n) ||| ((x <<< (32 - n)) % wordSize)

def roundConstants : List Nat :=
  [0x428a2f98, 0x71374491, 0xb5c0fbcf, 0xe9b5dba5, 0x3956c25b, 0x59f111f1, 0x923f82a4, 0xab1c5ed5,
    0xd807aa98, 0x12835b01, 0x243185be, 0x550c7dc3, 0x72be5d74, 0x80deb1fe, 0x9bdc06a7, 0xc19bf174,
    0xe49b69c1, 0xefbe4786, 0x0fc19dc6, 0x240ca1cc, 0x2de92c6f, 0x4a7484aa, 0x5cb0a9dc, 0x76f988da,
    0x983e5152, 0xa831c66d, 0xb00327c8, 0xbf597fc7, 0xc6e00bf3, 0xd5a79147, 0x06ca6351, 0x14292967,
    0x27b70a85, 0x2e1b2138, 0x4d2c6dfc, 0x53380d13, 0x650a7354, 0x766a0abb, 0x81c2c92e, 0x92722c85,
    0xa2bfe8a1, 0xa81a664b, 0xc24b8b70, 0xc76c51a3, 0xd192e819, 0xd6990624, 0xf40e3585, 0x106aa070,
    0x19a4c116, 0x1e376c08, 0x2748774c, 0x34b0bcb5, 0x391c0cb3, 0x4ed8aa4a, 0x5b9cca4f, 0x682e6ff3,
    0x748f82ee, 0x78a5636f, 0x84c87814, 0x8cc70208, 0x90befffa, 0xa4506ceb, 0xbef9a3f7, 0xc67178f2]

/-- The eight working words. -/
structure Work where
  a : Nat
  b : Nat
  c : Nat
  d : Nat
  e : Nat
  f : Nat
  g : Nat
  h : Nat

def Work.initial : Work :=
  ⟨0x6a09e667, 0xbb67ae85, 0x3c6ef372, 0xa54ff53a, 0x510e527f, 0x9b05688c, 0x1f83d9ab, 0x5be0cd19⟩

def Work.add (u v : Work) : Work :=
  ⟨(u.a + v.a) % wordSize, (u.b + v.b) % wordSize, (u.c + v.c) % wordSize, (u.d + v.d) % wordSize,
    (u.e + v.e) % wordSize, (u.f + v.f) % wordSize, (u.g + v.g) % wordSize, (u.h + v.h) % wordSize⟩

def Work.words (v : Work) : List Nat := [v.a, v.b, v.c, v.d, v.e, v.f, v.g, v.h]

def round (v : Work) (k w : Nat) : Work :=
  let s₁ := rotr 6 v.e ^^^ rotr 11 v.e ^^^ rotr 25 v.e
  let choice := (v.e &&& v.f) ^^^ ((v.e ^^^ (wordSize - 1)) &&& v.g)
  let t₁ := v.h + s₁ + choice + k + w
  let s₀ := rotr 2 v.a ^^^ rotr 13 v.a ^^^ rotr 22 v.a
  let majority := (v.a &&& v.b) ^^^ (v.a &&& v.c) ^^^ (v.b &&& v.c)
  ⟨(t₁ + s₀ + majority) % wordSize, v.a, v.b, v.c, (v.d + t₁) % wordSize, v.e, v.f, v.g⟩

/-- The word after those given, which are listed newest first. -/
def nextWord (ws : List Nat) : Nat :=
  let w₂ := ws.getD 1 0
  let w₁₅ := ws.getD 14 0
  let s₀ := rotr 7 w₁₅ ^^^ rotr 18 w₁₅ ^^^ (w₁₅ >>> 3)
  let s₁ := rotr 17 w₂ ^^^ rotr 19 w₂ ^^^ (w₂ >>> 10)
  (ws.getD 15 0 + s₀ + ws.getD 6 0 + s₁) % wordSize

/-- `n` more words, then all of them oldest first. -/
def schedule : Nat → List Nat → List Nat
  | 0, ws => ws.reverse
  | n + 1, ws => schedule n (nextWord ws :: ws)

def compress (v : Work) (block : List Nat) : Work :=
  v.add ((roundConstants.zip (schedule 48 block.reverse)).foldl (fun v p => round v p.1 p.2) v)

/-- The low `k` bytes of a number, most significant first. -/
def bigEndian (n : Nat) : Nat → List UInt8
  | 0 => []
  | k + 1 => UInt8.ofNat ((n >>> (8 * k)) % 256) :: bigEndian n k

def pad (data : List UInt8) : List UInt8 :=
  data ++ 0x80 :: List.replicate ((119 - data.length % 64) % 64) 0 ++ bigEndian (8 * data.length) 8

def wordsOf : List UInt8 → List Nat
  | a :: b :: c :: d :: t => (((a.toNat * 256 + b.toNat) * 256 + c.toNat) * 256 + d.toNat) :: wordsOf t
  | _ => []

def compressBlocks : Nat → List Nat → Work → Work
  | 0, _, v => v
  | n + 1, ws, v => compressBlocks n (ws.drop 16) (compress v (ws.take 16))

def digest (data : List UInt8) : List UInt8 :=
  (compressBlocks ((pad data).length / 64) (wordsOf (pad data)) .initial).words.flatMap (bigEndian · 4)

theorem bigEndian_length (n k : Nat) : (bigEndian n k).length = k := by
  induction k with
  | zero => rfl
  | succ k ih => rw [bigEndian, List.length_cons, ih]

theorem digest_length (data : List UInt8) : (digest data).length = 32 := by
  simp [digest, Work.words, bigEndian_length]

end Sha256
