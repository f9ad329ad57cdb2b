import Mathlib.Algebra.Order.Ring.Abs
import Mathlib.Tactic.Linarith
import Mathlib.Tactic.Positivity
import PyCircuit.Lib.Fallible
import PyCircuit.Lib.TwosComplement
import PyCircuit.NumericLowering.Lowering

/-!
# Calculations are exact

The precision of a calculation holds its exact result, so the arithmetic of fixed width in
`integerOperation` does not wrap. The width of an interval is the least one that represents its
integers.
-/

set_option autoImplicit false

namespace PyCircuit.NumericLowering

open PyCircuit.Lib Fallible

/-! ## Precision -/

/-- The number fits into so many bits, one of them for the sign. -/
def FitsSigned (w : Nat) (x : Int) : Prop := 0 < w ∧ -2 ^ (w - 1) ≤ x ∧ x < 2 ^ (w - 1)

variable {w : Nat} {x y r : Int}

theorem FitsSigned.toInt_ofInt (h : FitsSigned w x) :
    (BitVec.ofInt w x).toInt = x :=
  BitVec.toInt_ofInt_eq_self h.1 h.2.1 h.2.2

theorem lt_of_activeBits (h₀ : 0 ≤ x) : activeBits x ≤ w ↔ x < 2 ^ w := by
  obtain ⟨n, rfl⟩ := Int.eq_ofNat_of_zero_le h₀
  rw [activeBits, Int.toNat_natCast, Nat.size_le]
  exact_mod_cast Iff.rfl

theorem signedWidth_pos (x : Int) : 0 < signedWidth x := by
  rw [signedWidth]
  split_ifs
  · exact Nat.succ_pos _
  · exact Nat.succ_pos _

/-- The width with a sign is enough. -/
theorem fitsSigned_of_le (h : signedWidth x ≤ w) : FitsSigned w x := by
  have hw : 0 < w := Nat.lt_of_lt_of_le (signedWidth_pos x) h
  have hpow : (0 : Int) < 2 ^ (w - 1) := Int.pow_pos (by decide)
  rw [signedWidth] at h
  by_cases hx : x < 0
  · rw [if_pos hx, significantBits] at h
    have hbits : activeBits (-x - 1) ≤ w - 1 := by
      rw [activeBits]
      omega
    have hlt := (lt_of_activeBits (by omega)).mp hbits
    exact ⟨hw, by omega, by omega⟩
  · rw [if_neg hx] at h
    have hbits : activeBits x ≤ w - 1 := by omega
    have hlt := (lt_of_activeBits (by omega)).mp hbits
    exact ⟨hw, by omega, hlt⟩

theorem checkedWidth_ok {width result : Nat} (h : checkedWidth width = .ok result) :
    result = width := by
  rw [checkedWidth] at h
  split_ifs at h
  exact (Except.ok.inj h).symm

/-! ## Operations -/

/-- A sum needs one bit more than its operands. -/
theorem fitsSigned_add (hx : FitsSigned w x) (hy : FitsSigned w y) :
    FitsSigned (w + 1) (x + y) ∧ FitsSigned (w + 1) (x - y) := by
  have hpow : (2 : Int) ^ (w + 1 - 1) = 2 * 2 ^ (w - 1) := by
    rw [Nat.add_sub_cancel]
    obtain ⟨k, rfl⟩ : ∃ k, w = k + 1 := ⟨w - 1, by have := hx.1; omega⟩
    rw [Nat.add_sub_cancel, pow_succ]
    exact Int.mul_comm _ _
  rw [FitsSigned, FitsSigned, hpow]
  obtain ⟨_, hx₁, hx₂⟩ := hx
  obtain ⟨_, hy₁, hy₂⟩ := hy
  omega

/-- A product needs the bits of both operands. -/
theorem fitsSigned_mul {v : Nat} (hx : FitsSigned v x) (hy : FitsSigned w y) :
    FitsSigned (v + w) (x * y) := by
  obtain ⟨hv, hx₁, hx₂⟩ := hx
  obtain ⟨hw, hy₁, hy₂⟩ := hy
  have hxabs : |x| ≤ 2 ^ (v - 1) := abs_le.mpr ⟨hx₁, hx₂.le⟩
  have hyabs : |y| ≤ 2 ^ (w - 1) := abs_le.mpr ⟨hy₁, hy₂.le⟩
  have hprod : |x * y| ≤ 2 ^ (v - 1) * 2 ^ (w - 1) := by
    rw [abs_mul]
    exact mul_le_mul hxabs hyabs (abs_nonneg y) (by positivity)
  have hpow : (2 : Int) ^ (v + w - 1) = 2 * (2 ^ (v - 1) * 2 ^ (w - 1)) := by
    rw [← pow_add, ← pow_succ']
    congr 1
    omega
  have hpos : (0 : Int) < 2 ^ (v - 1) * 2 ^ (w - 1) := by positivity
  obtain ⟨hlow, hhigh⟩ := abs_le.mp hprod
  rw [FitsSigned, hpow]
  omega

theorem calculate_add (h : calculate .add x y = .ok r) : r = x + y := by
  obtain ⟨width, hwidth, hr⟩ := bind_eq_ok.mp h
  obtain rfl := checkedWidth_ok hwidth
  obtain rfl := Except.ok.inj hr
  rw [← BitVec.ofInt_add]
  exact (fitsSigned_add (fitsSigned_of_le (Nat.le_max_left ..))
    (fitsSigned_of_le (Nat.le_max_right ..))).1.toInt_ofInt

theorem calculate_sub (h : calculate .sub x y = .ok r) : r = x - y := by
  obtain ⟨width, hwidth, hr⟩ := bind_eq_ok.mp h
  obtain rfl := checkedWidth_ok hwidth
  obtain rfl := Except.ok.inj hr
  rw [← TwosComplement.ofInt_sub]
  exact (fitsSigned_add (fitsSigned_of_le (Nat.le_max_left ..))
    (fitsSigned_of_le (Nat.le_max_right ..))).2.toInt_ofInt

theorem calculate_mul (h : calculate .mul x y = .ok r) : r = x * y := by
  obtain ⟨width, hwidth, hr⟩ := bind_eq_ok.mp h
  obtain rfl := checkedWidth_ok hwidth
  obtain rfl := Except.ok.inj hr
  rw [← BitVec.ofInt_mul]
  exact (fitsSigned_mul (fitsSigned_of_le le_rfl) (fitsSigned_of_le le_rfl)).toInt_ofInt

/-- A shift is a division that rounds down. -/
theorem calculate_shr {count : Int} (h : calculate .shr x count = .ok r) :
    0 ≤ count ∧ r = x / 2 ^ count.toNat := by
  change shiftRight x count = .ok r at h
  rw [shiftRight] at h
  obtain ⟨hcount, h⟩ := guard_eq_ok.mp h
  refine ⟨by omega, ?_⟩
  by_cases hzero : x = 0
  · rw [if_pos hzero] at h
    obtain rfl := Except.ok.inj h
    rw [hzero, Int.zero_ediv]
  rw [if_neg hzero] at h
  have hfits : FitsSigned (signedWidth x) x := fitsSigned_of_le le_rfl
  by_cases hlong : (signedWidth x : Int) ≤ count
  · -- every digit is shifted out
    rw [if_pos hlong] at h
    obtain rfl := Except.ok.inj h
    have hle : (2 : Int) ^ (signedWidth x - 1) ≤ 2 ^ count.toNat :=
      pow_le_pow_right₀ (by decide) (by omega)
    obtain ⟨_, hlow, hhigh⟩ := hfits
    by_cases hneg : x < 0
    · rw [if_pos hneg]
      symm
      rw [Int.ediv_eq_iff_of_pos (by positivity)]
      omega
    · rw [if_neg hneg, Int.ediv_eq_zero_of_lt (by omega) (by omega)]
  · rw [if_neg hlong] at h
    obtain ⟨width, hwidth, hr⟩ := bind_eq_ok.mp h
    obtain rfl := checkedWidth_ok hwidth
    obtain rfl := Except.ok.inj hr
    rw [BitVec.toInt_sshiftRight, hfits.toInt_ofInt, Int.shiftRight_eq_div_pow]
    push_cast
    rfl

/-! ## Widths of intervals -/

/-- Every integer of the interval is represented in so many bits. -/
def IntegerInterval.Fits (interval : IntegerInterval) (w : Nat) : Prop :=
  if interval.lower < 0 then FitsSigned w interval.lower ∧ interval.upper ≤ 2 ^ (w - 1)
  else interval.upper ≤ 2 ^ w

theorem IntegerInterval.Fits.mono {interval : IntegerInterval} {v : Nat}
    (h : interval.Fits v) (hle : v ≤ w) : interval.Fits w := by
  rw [IntegerInterval.Fits] at h ⊢
  split_ifs at h ⊢ with hlower
  · obtain ⟨⟨hpos, hlow, hhigh⟩, hupper⟩ := h
    have hpow : (2 : Int) ^ (v - 1) ≤ 2 ^ (w - 1) := pow_le_pow_right₀ (by decide) (by omega)
    exact ⟨⟨by omega, by omega, by omega⟩, by omega⟩
  · have hpow : (2 : Int) ^ v ≤ 2 ^ w := pow_le_pow_right₀ (by decide) hle
    omega

/-- What `intervalWidth` finds. -/
theorem intervalWidth_spec {interval : IntegerInterval} {n : Nat}
    (h : intervalWidth interval = .ok n) :
    interval.lower < interval.upper ∧ 0 < n ∧ interval.Fits n ∧
      (0 ≤ interval.lower → n = max 1 (activeBits (interval.upper - 1))) := by
  rw [intervalWidth] at h
  obtain ⟨hempty, h⟩ := guard_eq_ok.mp h
  obtain ⟨maximum, hmaximum, hrest⟩ := bind_eq_ok.mp h
  obtain rfl := calculate_sub hmaximum
  by_cases hlower : interval.lower < 0
  · rw [if_pos hlower] at hrest
    dsimp only at hrest
    split_ifs at hrest
    obtain rfl := Except.ok.inj hrest
    have hlow : FitsSigned (max (signedWidth interval.lower) (signedWidth (interval.upper - 1)))
        interval.lower := fitsSigned_of_le (Nat.le_max_left ..)
    have hhigh : FitsSigned (max (signedWidth interval.lower) (signedWidth (interval.upper - 1)))
        (interval.upper - 1) := fitsSigned_of_le (Nat.le_max_right ..)
    refine ⟨by omega, hlow.1, ?_, fun h₀ => absurd h₀ (by omega)⟩
    rw [IntegerInterval.Fits, if_pos hlower]
    exact ⟨hlow, by have := hhigh.2.2; omega⟩
  · rw [if_neg hlower] at hrest
    dsimp only at hrest
    split_ifs at hrest
    obtain rfl := Except.ok.inj hrest
    refine ⟨by omega, Nat.lt_of_lt_of_le Nat.one_pos (Nat.le_max_left ..), ?_, fun _ => rfl⟩
    rw [IntegerInterval.Fits, if_neg hlower]
    have hlt := (lt_of_activeBits (by omega)).mp
      (Nat.le_max_right 1 (activeBits (interval.upper - 1)))
    omega

end PyCircuit.NumericLowering
