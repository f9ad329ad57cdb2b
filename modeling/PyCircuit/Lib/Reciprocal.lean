import Mathlib.Tactic.Linarith
import Mathlib.Tactic.Ring

/-!
# Division by a reciprocal

A division by a constant is a multiplication by a reciprocal that is rounded up, and a division by
the power that the reciprocal was made from. The power has to be large enough for the rounding error
of the greatest numerator.
-/

set_option autoImplicit false

namespace PyCircuit.Lib.Reciprocal

variable {power divisor : Nat}

/-- The reciprocal, rounded up. -/
def rounded (power divisor : Nat) : Nat :=
  power / divisor + if power % divisor = 0 then 0 else 1

/-- The rounding adds less than the divisor. -/
theorem rounded_spec (power : Nat) (h : 0 < divisor) :
    power ≤ rounded power divisor * divisor ∧
      rounded power divisor * divisor < power + divisor := by
  have hdivision := Nat.div_add_mod power divisor
  have hmod := Nat.mod_lt power h
  rw [Nat.mul_comm] at hdivision
  rw [rounded]
  split_ifs with hzero
  · rw [Nat.add_zero]
    omega
  · rw [Nat.add_mul, Nat.one_mul]
    omega

theorem rounded_le (h : 0 < divisor) : rounded power divisor ≤ power := by
  obtain ⟨-, hupper⟩ := rounded_spec power h
  by_contra hlt
  have hge : (power + 1) * divisor ≤ rounded power divisor * divisor :=
    Nat.mul_le_mul_right divisor (Nat.lt_of_not_le hlt)
  have hself : power * 1 ≤ power * divisor := Nat.mul_le_mul_left power h
  rw [Nat.add_mul, Nat.one_mul] at hge
  omega

/-- The quotient by the reciprocal is the exact one where the rounding error stays below the
power. -/
theorem mul_rounded_div {numerator : Nat} (h : 0 < divisor) (herror : numerator * divisor ≤ power) :
    numerator * rounded power divisor / power = numerator / divisor := by
  rcases Nat.eq_zero_or_pos numerator with rfl | hnumerator
  · simp
  have hpower : 0 < power := Nat.lt_of_lt_of_le (Nat.mul_pos hnumerator h) herror
  obtain ⟨hlower, hupper⟩ := rounded_spec power h
  have hquotient : numerator / divisor * divisor ≤ numerator := Nat.div_mul_le_self _ _
  have hnext : numerator + 1 ≤ (numerator / divisor + 1) * divisor := by
    have hlt := Nat.lt_div_mul_add (a := numerator) h
    rw [Nat.add_mul, Nat.one_mul]
    omega
  apply Nat.div_eq_of_lt_le
  · -- the reciprocal is not less than the exact one
    refine Nat.le_of_mul_le_mul_right ?_ h
    calc numerator / divisor * power * divisor
        = numerator / divisor * divisor * power := by ring
      _ ≤ numerator * power := Nat.mul_le_mul_right power hquotient
      _ ≤ numerator * (rounded power divisor * divisor) := Nat.mul_le_mul_left numerator hlower
      _ = numerator * rounded power divisor * divisor := by ring
  · -- the error of the reciprocal does not reach the next quotient
    refine Nat.lt_of_mul_lt_mul_right (a := divisor) ?_
    calc numerator * rounded power divisor * divisor
        = numerator * (rounded power divisor * divisor) := by ring
      _ < numerator * (power + divisor) := Nat.mul_lt_mul_of_pos_left hupper hnumerator
      _ = numerator * power + numerator * divisor := by ring
      _ ≤ numerator * power + power := Nat.add_le_add_left herror _
      _ = (numerator + 1) * power := by ring
      _ ≤ (numerator / divisor + 1) * divisor * power := Nat.mul_le_mul_right power hnext
      _ = (numerator / divisor + 1) * power * divisor := by ring

end PyCircuit.Lib.Reciprocal
