import Mathlib.Data.BitVec
import Mathlib.Tactic.Common

/-!
# Cyclic redundancy checks

The reflected register of any width: a bit is added at the low end, and a shift
that pushes out a one adds the polynomial. A shift is linear, and one to one when
the polynomial has its top bit, so a burst of errors no longer than the register
never goes unseen.
-/
namespace Crc

variable {w : Nat}

/-- One shift of the register. -/
def shift (poly r : BitVec w) : BitVec w := if r.getLsbD 0 then (r >>> 1) ^^^ poly else r >>> 1

/-- A bit of the message. -/
def bit (poly r : BitVec w) (b : Bool) : BitVec w := shift poly (r ^^^ (BitVec.ofBool b).setWidth w)

def bits (poly r : BitVec w) (bs : List Bool) : BitVec w := bs.foldl (bit poly) r

/-- The bits of a byte, low end first. -/
def byteBits (b : UInt8) : List Bool := (List.range 8).map b.toNat.testBit

def bytesBits (bytes : List UInt8) : List Bool := bytes.flatMap byteBits

/-- A further piece of a message, the register complemented before and after. -/
def append (poly crc : BitVec w) (bytes : List UInt8) : BitVec w := ~~~bits poly (~~~crc) (bytesBits bytes)

/-- The CRC-32C (Castagnoli) polynomial, reflected. -/
def castagnoli : BitVec 32 := 0x82F63B78

example : append castagnoli 0 [49, 50, 51, 52, 53, 54, 55, 56, 57] = 0xE3069283 := by decide +kernel

@[simp] theorem bits_nil (poly r : BitVec w) : bits poly r [] = r := rfl

@[simp] theorem bits_cons (poly r : BitVec w) (b : Bool) (bs : List Bool) :
    bits poly r (b :: bs) = bits poly (bit poly r b) bs := rfl

theorem bits_append (poly r : BitVec w) (bs cs : List Bool) :
    bits poly r (bs ++ cs) = bits poly (bits poly r bs) cs := by simp [bits]

@[simp] theorem bytesBits_append (a b : List UInt8) : bytesBits (a ++ b) = bytesBits a ++ bytesBits b := by
  simp [bytesBits]

@[simp] theorem append_nil (poly crc : BitVec w) : append poly crc [] = crc := by simp [append, bytesBits]

/-- A message in pieces has the check value of the whole. -/
theorem append_append (poly crc : BitVec w) (a b : List UInt8) :
    append poly crc (a ++ b) = append poly (append poly crc a) b := by
  simp [append, bits_append]

theorem append_flatten (poly crc : BitVec w) (pieces : List (List UInt8)) :
    append poly crc pieces.flatten = pieces.foldl (append poly) crc := by
  induction pieces generalizing crc with
  | nil => simp
  | cons piece pieces ih => simp [append_append, ih]

/-! ## The shift -/

theorem shift_xor (poly a b : BitVec w) : shift poly (a ^^^ b) = shift poly a ^^^ shift poly b := by
  apply BitVec.eq_of_getLsbD_eq
  intro i _
  cases ha : a.getLsbD 0 <;> cases hb : b.getLsbD 0 <;> simp [shift, ha, hb, Bool.xor_comm, Bool.xor_left_comm]

@[simp] theorem shift_zero (poly : BitVec w) : shift poly 0 = 0 := by simp [shift]

/-- The bit that was pushed out is the top bit of what the polynomial was added to. -/
theorem getLsbD_top_shift {poly : BitVec w} (hp : poly.getLsbD (w - 1) = true) (r : BitVec w) :
    (shift poly r).getLsbD (w - 1) = r.getLsbD 0 := by
  have hw : 0 < w := by
    have := BitVec.lt_of_getLsbD hp
    omega
  have htop : r.getLsbD (1 + (w - 1)) = false := BitVec.getLsbD_of_ge r _ (by omega)
  cases h : r.getLsbD 0 <;> simp [shift, h, hp, htop]

theorem eq_zero_of_shift {poly : BitVec w} (hp : poly.getLsbD (w - 1) = true) {r : BitVec w} (h : shift poly r = 0) :
    r = 0 := by
  have hlow : r.getLsbD 0 = false := by
    rw [← getLsbD_top_shift hp r, h]
    simp
  have hrest : r >>> 1 = 0 := by simpa [shift, hlow] using h
  apply BitVec.eq_of_getLsbD_eq
  intro i _
  cases i with
  | zero => simp [hlow]
  | succ i =>
    have hi : (r >>> 1).getLsbD i = (0 : BitVec w).getLsbD i := by rw [hrest]
    simpa [Nat.add_comm] using hi

theorem shift_injective {poly : BitVec w} (hp : poly.getLsbD (w - 1) = true) : Function.Injective (shift poly) := by
  intro a b h
  have hz : shift poly (a ^^^ b) = 0 := by 
    rw [shift_xor, h, BitVec.xor_self]
    rfl
  have := eq_zero_of_shift hp hz
  exact BitVec.xor_eq_zero_iff.mp this

theorem bit_injective {poly : BitVec w} (hp : poly.getLsbD (w - 1) = true) (b : Bool) :
    Function.Injective fun r => bit poly r b := by
  intro r r' h
  exact BitVec.xor_left_inj _ |>.mp (shift_injective hp h)

/-- What follows a difference does not undo it. -/
theorem bits_injective {poly : BitVec w} (hp : poly.getLsbD (w - 1) = true) (bs : List Bool) :
    Function.Injective fun r => bits poly r bs := by
  induction bs with
  | nil =>
    intro r r' h
    exact h
  | cons b bs ih =>
    intro r r' h
    exact bit_injective hp b (ih h)

/-! ## Bursts -/

/-- As many bits as the register has, added at once. -/
def loaded (w : Nat) : List Bool → BitVec w
  | [] => 0
  | b :: bs => (BitVec.ofBool b).setWidth w ^^^ (loaded w bs <<< 1)

theorem getLsbD_loaded (bs : List Bool) {i : Nat} (hi : i < w) : (loaded w bs).getLsbD i = bs.getD i false := by
  induction bs generalizing i with
  | nil => simp [loaded]
  | cons b bs ih =>
    cases i with
    | zero => simp [loaded, hi]
    | succ i =>
      have hrest := ih (i := i) (by omega)
      rw [BitVec.getLsbD_eq_getElem (by omega)] at hrest
      simp [loaded, hi, hrest]

/-- The low bit goes in with the shift, and the others move down. -/
theorem shift_loaded_cons (poly : BitVec w) (b : Bool) (bs : List Bool) (hlen : bs.length < w) :
    shift poly (loaded w (b :: bs)) = shift poly ((BitVec.ofBool b).setWidth w) ^^^ loaded w bs := by
  have hdown : shift poly (loaded w bs <<< 1) = loaded w bs := by
    have hlow : (loaded w bs <<< 1).getLsbD 0 = false := by simp
    rw [shift, if_neg (by simp [hlow])]
    apply BitVec.eq_of_getLsbD_eq
    intro i hi
    by_cases htop : 1 + i < w
    · simp [htop, BitVec.getLsbD_eq_getElem hi]
    · have hnone : bs[i]? = none := List.getElem?_eq_none (by omega)
      simp [htop, getLsbD_loaded bs hi, hnone]
  rw [loaded, shift_xor, hdown]

theorem bits_eq_shifts (poly r : BitVec w) (bs : List Bool) (hlen : bs.length ≤ w) :
    bits poly r bs = (shift poly)^[bs.length] (r ^^^ loaded w bs) := by
  induction bs generalizing r with
  | nil => simp [loaded]
  | cons b bs ih =>
    have hlt : bs.length < w := hlen
    rw [bits_cons, ih (bit poly r b) hlt.le, List.length_cons, Function.iterate_succ_apply, shift_xor,
      shift_loaded_cons poly b bs hlt, bit, shift_xor, BitVec.xor_assoc]

/-- Bits that fit into the register and leave it the same are the same. -/
theorem eq_of_bits_eq {poly : BitVec w} (hp : poly.getLsbD (w - 1) = true) {r : BitVec w} {bs cs : List Bool}
    (hlen : bs.length = cs.length) (hw : bs.length ≤ w) (h : bits poly r bs = bits poly r cs) : bs = cs := by
  rw [bits_eq_shifts poly r bs hw, bits_eq_shifts poly r cs (hlen ▸ hw), ← hlen] at h
  have hloaded : loaded w bs = loaded w cs := (BitVec.xor_right_inj r).mp ((shift_injective hp).iterate _ h)
  apply List.ext_getElem hlen
  intro i hi hi'
  have hb := getLsbD_loaded (w := w) bs (i := i) (by omega)
  have hc := getLsbD_loaded (w := w) cs (i := i) (by omega)
  rw [hloaded, hc] at hb
  simpa [hi, hi'] using hb.symm

/-- The bits of two messages differ at most within a stretch of `n` bits. -/
def Burst (n : Nat) (a b : List UInt8) : Prop :=
  ∃ before x y after : List Bool, bytesBits a = before ++ x ++ after ∧ bytesBits b = before ++ y ++ after ∧
    x.length = y.length ∧ x.length ≤ n

theorem byteBits_injective : Function.Injective byteBits := by
  intro a b h
  apply UInt8.toNat_inj.mp
  apply Nat.eq_of_testBit_eq
  intro i
  by_cases hi : i < 8
  · have := List.map_inj_left.mp h i (List.mem_range.mpr hi)
    exact this
  · have hpow : 2 ^ 8 ≤ 2 ^ i := Nat.pow_le_pow_right (by omega) (by omega)
    rw [Nat.testBit_lt_two_pow (by have := a.toNat_lt; omega), Nat.testBit_lt_two_pow (by have := b.toNat_lt; omega)]

@[simp] theorem length_byteBits (b : UInt8) : (byteBits b).length = 8 := by simp [byteBits]

theorem bytesBits_injective : Function.Injective bytesBits := by
  intro a
  induction a with
  | nil =>
    intro b h
    cases b with
    | nil => rfl
    | cons c b =>
      have := congrArg List.length h
      simp [bytesBits] at this
      omega
  | cons x a ih =>
    intro b h
    cases b with
    | nil =>
      have := congrArg List.length h
      simp [bytesBits] at this
    | cons y b =>
      obtain ⟨hxy, hab⟩ := List.append_inj h (by simp)
      rw [byteBits_injective hxy, ih hab]

/-- A burst that the register can hold does not go unseen. -/
theorem append_ne_of_burst {poly : BitVec w} (hp : poly.getLsbD (w - 1) = true) (crc : BitVec w) {a b : List UInt8}
    (hburst : Burst w a b) (hne : a ≠ b) : append poly crc a ≠ append poly crc b := by
  obtain ⟨before, x, y, after, ha, hb, hlen, hw⟩ := hburst
  intro h
  have hbits : bits poly (~~~crc) (bytesBits a) = bits poly (~~~crc) (bytesBits b) := BitVec.not_inj.mp h
  rw [ha, hb, bits_append, bits_append, bits_append, bits_append] at hbits
  have hxy : x = y := eq_of_bits_eq hp hlen hw (bits_injective hp after hbits)
  exact hne (bytesBits_injective (by rw [ha, hb, hxy]))

end Crc
