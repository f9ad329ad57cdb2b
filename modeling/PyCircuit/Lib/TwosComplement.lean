import Mathlib.Data.Int.Bitwise
import Mathlib.Data.Nat.Size

/-!
# Integers in two's complement

`BitVec.ofInt w` represents an integer in `w` bits. It respects sums, differences, products and
bitwise conjunctions of integers of any size; changes of the width respect it for numbers that fit.
-/

set_option autoImplicit false

namespace PyCircuit.Lib.TwosComplement

variable {w v : Nat} {x y : Int}

/-! ## Operations -/

theorem ofInt_sub (x y : Int) : BitVec.ofInt w (x - y) = BitVec.ofInt w x - BitVec.ofInt w y := by
  rw [Int.sub_eq_add_neg, BitVec.ofInt_add, BitVec.ofInt_neg, BitVec.sub_eq_add_neg]

theorem getLsbD_ofInt (x : Int) (i : Nat) :
    (BitVec.ofInt w x).getLsbD i = (decide (i < w) && x.testBit i) := by
  cases x with
  | ofNat n => simp [BitVec.getLsbD_ofNat, Int.testBit]
  | negSucc n =>
    rw [BitVec.ofInt_negSucc_eq_not_ofNat, BitVec.getLsbD_not, BitVec.getLsbD_ofNat]
    by_cases hi : i < w
    · simp [hi, Int.testBit]
    · simp [hi]

/-- A conjunction of integers of any size. -/
theorem ofInt_land (x y : Int) :
    BitVec.ofInt w (Int.land x y) = BitVec.ofInt w x &&& BitVec.ofInt w y := by
  apply BitVec.eq_of_getLsbD_eq
  intro i hi
  rw [BitVec.getLsbD_and, getLsbD_ofInt, getLsbD_ofInt, getLsbD_ofInt, Int.testBit_land]
  simp [hi]

theorem ldiff_le (n m : Nat) : n.ldiff m ≤ n := by
  have hand : n.ldiff m &&& n = n.ldiff m := by
    apply Nat.eq_of_testBit_eq
    intro i
    rw [Nat.testBit_and, Nat.testBit_ldiff]
    cases n.testBit i <;> simp
  rw [← hand]
  exact Nat.and_le_right

theorem land_comm (x y : Int) : Int.land x y = Int.land y x := by
  cases x with
  | ofNat m =>
    cases y with
    | ofNat n => exact congrArg Int.ofNat (Nat.and_comm m n)
    | negSucc n => rfl
  | negSucc m =>
    cases y with
    | ofNat n => rfl
    | negSucc n => exact congrArg Int.negSucc (Nat.or_comm m n)

/-- A conjunction with a nonnegative number lies between zero and that number. -/
theorem land_bounds (x : Int) (hy : 0 ≤ y) : 0 ≤ Int.land x y ∧ Int.land x y ≤ y := by
  obtain ⟨n, rfl⟩ := Int.eq_ofNat_of_zero_le hy
  cases x with
  | ofNat m =>
    have hle : m &&& n ≤ n := Nat.and_le_right
    exact ⟨Int.natCast_nonneg (m &&& n), Int.ofNat_le.mpr hle⟩
  | negSucc m => exact ⟨Int.natCast_nonneg (n.ldiff m), Int.ofNat_le.mpr (ldiff_le n m)⟩

/-! ## Widths -/

theorem toNat_ofInt_of_lt (h₀ : 0 ≤ x) (h : x < 2 ^ w) : ((BitVec.ofInt w x).toNat : Int) = x := by
  rw [BitVec.toNat_ofInt, Int.emod_eq_of_lt h₀ (by push_cast; exact h), Int.toNat_of_nonneg h₀]

theorem setWidth_of_lt (h₀ : 0 ≤ x) (h : x < 2 ^ w) :
    (BitVec.ofInt w x).setWidth v = BitVec.ofInt v x := by
  obtain ⟨n, rfl⟩ := Int.eq_ofNat_of_zero_le h₀
  have hn : n < 2 ^ w := by exact_mod_cast h
  apply BitVec.eq_of_toNat_eq
  simp [Nat.mod_eq_of_lt hn]

theorem setWidth_of_le (h : v ≤ w) (x : Int) :
    (BitVec.ofInt w x).setWidth v = BitVec.ofInt v x := by
  apply BitVec.eq_of_getLsbD_eq
  intro i hi
  rw [BitVec.getLsbD_setWidth, getLsbD_ofInt, getLsbD_ofInt]
  simp [hi, Nat.lt_of_lt_of_le hi h]

theorem signExtend_of_fits (hw : 0 < w) (hlower : -2 ^ (w - 1) ≤ x) (hupper : x < 2 ^ (w - 1)) :
    (BitVec.ofInt w x).signExtend v = BitVec.ofInt v x := by
  rw [BitVec.signExtend, BitVec.toInt_ofInt_eq_self hw hlower hupper]

/-- The upper bits of a nonnegative number are its quotient. -/
theorem extractLsb_of_lt (h₀ : 0 ≤ x) (h : x < 2 ^ w) (start : Nat) :
    (BitVec.ofInt w x).extractLsb' start v = BitVec.ofInt v (x / 2 ^ start) := by
  obtain ⟨n, rfl⟩ := Int.eq_ofNat_of_zero_le h₀
  have hn : n < 2 ^ w := by exact_mod_cast h
  have hdiv : ((n : Int) / 2 ^ start) = ((n / 2 ^ start : Nat) : Int) := by push_cast; rfl
  rw [hdiv]
  apply BitVec.eq_of_toNat_eq
  rw [BitVec.ofInt_natCast, BitVec.ofInt_natCast, BitVec.extractLsb'_toNat, BitVec.toNat_ofNat,
    BitVec.toNat_ofNat, Nat.mod_eq_of_lt hn, Nat.shiftRight_eq_div_pow]

end PyCircuit.Lib.TwosComplement
