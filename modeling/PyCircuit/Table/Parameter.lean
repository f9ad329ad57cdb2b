import Mathlib.Algebra.Ring.Int.Defs
import Mathlib.Data.Nat.Cast.Order.Ring
import Mathlib.Data.Nat.Size
import PyCircuit.Lib.Fallible

/-!
# Integer parameters of table views

The parameters of a view are mathematical integers. The analysis reads each into an integer of
arbitrary precision: a value that is not negative is unsigned and has its active bits, a negative
one is signed and has its significant bits. Each computation extends its operands to a width of its
own, and the value of that computation is the exact one.
-/

set_option autoImplicit false

namespace PyCircuit.Table

open Lib

/-! ## Reading a parameter -/

/-- The width in which an integer is stored. -/
def bitWidth (v : Int) : Nat :=
  if v < 0 then (-v - 1).toNat.size + 1 else max 1 v.toNat.size

def signedIntegerWidth (v : Int) : Nat := bitWidth v + (if v < 0 then 0 else 1)

/-- Zero extension of an unsigned integer, sign extension of a signed one. -/
def extendInteger (v : Int) (bits : Nat) : BitVec bits := .ofInt bits v

def getZExtValue {bits : Nat} (x : BitVec bits) : Except String Nat :=
  if x.toNat < 2 ^ 64 then .ok x.toNat else .error "Too many bits for uint64_t"

/-- The stored bits, read as a signed integer, fit 64 bits. -/
def isSignedInt64 (v : Int) : Bool :=
  if v < 0 then -2 ^ 63 ≤ v else (2 : Int) ^ v.toNat.size - v ≤ 2 ^ 63

/-- The low 64 bits of a parameter whose stored bits fit a signed word. -/
def signedStatic (v : Int) : Except String Int :=
  if isSignedInt64 v then .ok (BitVec.ofInt 64 v).toInt
  else .error "view parameter exceeds signed 64 bits"

def vectorStatic (values : List Int) : Except String (List Int) := values.mapM signedStatic

/-- The rotation below the extent: a remainder of the sign of the offset is moved up once. -/
def rotateOffset (v : Int) (extent : Nat) : Except String Nat :=
  let bits := max 65 (signedIntegerWidth v)
  let modulus := BitVec.ofNat bits extent
  let remainder := (extendInteger v bits).srem modulus
  getZExtValue (if remainder.msb then remainder + modulus else remainder)

/-! ## Exactness -/

theorem lt_two_pow_bitWidth {v : Int} (h : 0 ≤ v) : v < 2 ^ bitWidth v := by
  have hsize : v.toNat < 2 ^ bitWidth v := by
    rw [bitWidth, if_neg (by omega)]
    exact (Nat.lt_size_self _).trans_le (Nat.pow_le_pow_right (by decide) (le_max_right _ _))
  have hcast : v < ((2 ^ bitWidth v : Nat) : Int) := by omega
  exact_mod_cast hcast

theorem extendInteger_toNat {v : Int} {bits : Nat} (h : 0 ≤ v) (hlt : v < 2 ^ bits) :
    (extendInteger v bits).toNat = v.toNat := by
  rw [extendInteger, BitVec.toNat_ofInt, Int.emod_eq_of_lt h (by exact_mod_cast hlt)]

theorem getZExtValue_of_lt {bits : Nat} {x : BitVec bits} (h : x.toNat < 2 ^ 64) :
    getZExtValue x = .ok x.toNat := if_pos h

/-- A parameter that is read as a number that is not negative is that number: a value whose low
word is another one has the sign bit of that word. -/
theorem signedStatic_nonneg {v a : Int} (h : signedStatic v = .ok a) (ha : 0 ≤ a) : v = a := by
  rw [signedStatic] at h
  by_cases hfits : isSignedInt64 v = true
  swap
  · rw [if_neg hfits] at h
    cases h
  rw [if_pos hfits] at h
  cases h
  rw [BitVec.toInt_ofInt] at ha ⊢
  rw [isSignedInt64] at hfits
  by_cases hneg : v < 0
  · rw [if_pos hneg, decide_eq_true_eq] at hfits
    exact (Int.bmod_eq_of_le (by omega) (by omega)).symm
  rw [if_neg hneg, decide_eq_true_eq] at hfits
  by_cases hsmall : v < 2 ^ 63
  · exact (Int.bmod_eq_of_le (by omega) (by omega)).symm
  -- the width is at least 64, and the value is at most 2^63 below the power of its width
  exfalso
  have hlt := Nat.lt_size_self v.toNat
  have hwide : 64 ≤ v.toNat.size := by
    have hbig : 2 ^ 63 ≤ v.toNat := by omega
    exact Nat.lt_size.mpr hbig
  obtain ⟨extra, hextra⟩ := Nat.exists_eq_add_of_le hwide
  have hupper : v < (2 : Int) ^ v.toNat.size := by
    have hcast : v < ((2 ^ v.toNat.size : Nat) : Int) := by omega
    exact_mod_cast hcast
  have hsplit : (2 : Int) ^ v.toNat.size = ((2 ^ 64 : Nat) : Int) * 2 ^ extra := by
    rw [hextra, pow_add]
    rfl
  have hmod : v.bmod (2 ^ 64) = v - 2 ^ v.toNat.size := by
    have hword : (v - 2 ^ v.toNat.size).bmod (2 ^ 64) = v - 2 ^ v.toNat.size :=
      Int.bmod_eq_of_le (by omega) (by omega)
    rw [← hword, hsplit, Int.sub_mul_bmod_self_left]
  omega

/-- A parameter in its own width and a sign bit, or in any wider integer, has its value. -/
theorem extendInteger_toInt (v : Int) {bits : Nat} (h : signedIntegerWidth v ≤ bits) :
    (extendInteger v bits).toInt = v := by
  have hpos : 0 < bits := by
    refine Nat.lt_of_lt_of_le ?_ h
    rw [signedIntegerWidth, bitWidth]
    split <;> omega
  obtain ⟨width, rfl⟩ := Nat.exists_eq_succ_of_ne_zero hpos.ne'
  have hrange : -(2 : Int) ^ width ≤ v ∧ v < 2 ^ width := by
    rw [signedIntegerWidth] at h
    by_cases hneg : v < 0
    · rw [if_pos hneg, bitWidth, if_pos hneg] at h
      have hsize : (-v - 1).toNat < 2 ^ width :=
        Nat.size_le.mp (by omega)
      have hcast : -v - 1 < ((2 ^ width : Nat) : Int) := by omega
      rw [Nat.cast_pow, Nat.cast_ofNat] at hcast
      constructor <;> omega
    · rw [if_neg hneg] at h
      have hlt := lt_two_pow_bitWidth (Int.not_lt.mp hneg)
      have hle : (2 : Int) ^ bitWidth v ≤ 2 ^ width := by
        exact_mod_cast Nat.pow_le_pow_right (show 0 < 2 by decide)
          (show bitWidth v ≤ width by omega)
      constructor <;> omega
  rw [extendInteger, BitVec.toInt_ofInt]
  apply Int.bmod_eq_of_le
  · rw [Nat.pow_succ, Nat.cast_mul, Nat.cast_pow, Nat.cast_ofNat]
    omega
  · rw [Nat.pow_succ, Nat.cast_mul, Nat.cast_pow, Nat.cast_ofNat]
    omega

/-- A remainder of the sign of the dividend, moved up once when negative, is the floor one. -/
theorem tmod_floor (a : Int) {b : Nat} (h : 0 < b) :
    (if a.tmod b < 0 then a.tmod b + b else a.tmod b) = a % b := by
  have hnonneg := Int.emod_nonneg a (Int.natCast_ne_zero.mpr h.ne')
  have hlt := Int.emod_lt_of_pos a (Int.natCast_pos.mpr h)
  rw [Int.tmod_eq_emod, Int.natAbs_natCast]
  by_cases hcase : 0 ≤ a ∨ (b : Int) ∣ a
  · rw [if_pos hcase, Nat.cast_zero, Int.sub_zero, if_neg (by omega)]
  · rw [if_neg hcase, if_pos (by omega), Int.sub_add_cancel]

theorem getZExtValue_of_toInt {bits : Nat} {x : BitVec bits} {n : Nat} (hx : x.toInt = n)
    (hn : n < 2 ^ 64) : getZExtValue x = .ok n := by
  have hmsb : x.msb = false := by
    rw [BitVec.msb_eq_toInt, hx, decide_eq_false_iff_not]
    omega
  have hnat : x.toNat = n := by
    have := BitVec.toInt_eq_toNat_of_msb hmsb
    omega
  rw [getZExtValue_of_lt (hnat ▸ hn), hnat]

/-- The rotation is the floor remainder of the offset, of any sign. -/
theorem rotateOffset_exact (v : Int) {extent : Nat} (hpos : 0 < extent) (hlt : extent < 2 ^ 63) :
    rotateOffset v extent = .ok (v % extent).toNat := by
  rw [rotateOffset]
  have hwide : 65 ≤ max 65 (signedIntegerWidth v) := le_max_left _ _
  have hvalue := extendInteger_toInt v (le_max_right 65 (signedIntegerWidth v))
  generalize max 65 (signedIntegerWidth v) = bits at hwide hvalue ⊢
  have hpow : (2 ^ 65 : Nat) ≤ 2 ^ bits := Nat.pow_le_pow_right (by decide) hwide
  have hmodulus : (BitVec.ofNat bits extent).toInt = extent := by
    rw [BitVec.toInt_ofNat', Int.bmod_eq_of_le (by omega) (by omega)]
  have hremainder : ((extendInteger v bits).srem (.ofNat bits extent)).toInt = v.tmod extent := by
    rw [BitVec.toInt_srem, hvalue, hmodulus]
  have hfloor := tmod_floor v hpos
  have hnonneg := Int.emod_nonneg v (Int.natCast_ne_zero.mpr hpos.ne')
  have hbound := Int.emod_lt_of_pos v (Int.natCast_pos.mpr hpos)
  apply getZExtValue_of_toInt _ (by omega)
  rw [BitVec.msb_eq_toInt, hremainder, Int.toNat_of_nonneg hnonneg, ← hfloor]
  by_cases hneg : v.tmod extent < 0
  · rw [if_pos (by simpa using hneg), if_pos hneg, BitVec.toInt_add, hremainder, hmodulus]
    rw [if_pos hneg] at hfloor
    exact Int.bmod_eq_of_le (by omega) (by omega)
  · rw [if_neg (by simpa using hneg), if_neg hneg, hremainder]

end PyCircuit.Table
