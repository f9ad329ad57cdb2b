import Mathlib.Data.Nat.ModEq
import Mathlib.Tactic.Ring

/-!
# Numbers in limbs

The number of a list of digits of `w` bits, least significant first, and the place of each of its
bits in the digits; the mask of the low bits of a digit.

The number of the first digits (`below`) is what a loop over the digits keeps track of. Carries and
borrows are found by comparing a wrapped result with an operand (`add_carry`, `sub_borrow`).
-/

set_option autoImplicit false

namespace PyCircuit.Lib.Limbs

variable {w : Nat}

/-- The number of the digits. -/
def value : List (BitVec w) → Nat
  | [] => 0
  | digit :: rest => 2 ^ w * value rest + digit.toNat

/-- Bit `i` of the number is bit `i % w` of digit `i / w`. -/
theorem testBit_value (hw : 0 < w) (digits : List (BitVec w)) (i : Nat) :
    (value digits).testBit i = (digits.getD (i / w) 0).getLsbD (i % w) := by
  induction digits generalizing i with
  | nil => simp [value]
  | cons digit rest ih =>
    rw [value, Nat.testBit_two_pow_mul_add _ digit.isLt]
    split
    · next hlt =>
      rw [Nat.div_eq_of_lt hlt, Nat.mod_eq_of_lt hlt]
      rfl
    · next hge =>
      have hle : w ≤ i := Nat.le_of_not_lt hge
      rw [ih, Nat.mod_eq_sub_mod hle, Nat.div_eq_sub_div hw hle]
      rfl

/-- The mask of the bits below `m`. -/
theorem toNat_lowMask {m : Nat} (hm : m < w) : ((1#w <<< m) - 1#w).toNat = 2 ^ m - 1 := by
  have hpow : 2 ^ m < 2 ^ w := Nat.pow_lt_pow_right (by decide) hm
  have hw : 1 < 2 ^ w := Nat.lt_of_le_of_lt Nat.one_le_two_pow hpow
  have hone : (1#w).toNat = 1 := by
    rw [BitVec.toNat_ofNat, Nat.mod_eq_of_lt hw]
  have hshift : (1#w <<< m).toNat = 2 ^ m := by
    rw [BitVec.toNat_shiftLeft, hone, Nat.shiftLeft_eq, Nat.one_mul, Nat.mod_eq_of_lt hpow]
  have hle : 1#w ≤ 1#w <<< m := by
    rw [BitVec.le_def, hshift, hone]
    exact Nat.one_le_two_pow
  rw [BitVec.toNat_sub_of_le hle, hshift, hone]

/-! ## The first digits -/

/-- The number of the first `k` digits. -/
def below (digit : Nat → BitVec w) : Nat → Nat
  | 0 => 0
  | k + 1 => below digit k + 2 ^ (w * k) * (digit k).toNat

theorem two_pow_mul_succ (w k : Nat) : 2 ^ (w * (k + 1)) = 2 ^ (w * k) * 2 ^ w := by
  rw [Nat.mul_succ, Nat.pow_add]

theorem below_succ_eq (digit : Nat → BitVec w) (k : Nat) :
    below digit (k + 1) = 2 ^ w * below (fun i => digit (i + 1)) k + (digit 0).toNat := by
  induction k with
  | zero => simp [below]
  | succ k ih =>
    rw [below, ih, below, two_pow_mul_succ]
    ring

theorem value_eq_below (digits : List (BitVec w)) :
    value digits = below (fun i => digits.getD i 0) digits.length := by
  induction digits with
  | nil => rfl
  | cons digit rest ih =>
    rw [value, ih, List.length_cons, below_succ_eq]
    rfl

theorem below_lt (digit : Nat → BitVec w) (k : Nat) : below digit k < 2 ^ (w * k) := by
  induction k with
  | zero => exact Nat.one_pos
  | succ k ih =>
    have hdigit := (digit k).isLt
    rw [below, two_pow_mul_succ]
    calc below digit k + 2 ^ (w * k) * (digit k).toNat
        < 2 ^ (w * k) + 2 ^ (w * k) * (digit k).toNat := Nat.add_lt_add_right ih _
      _ = 2 ^ (w * k) * ((digit k).toNat + 1) := by ring
      _ ≤ 2 ^ (w * k) * 2 ^ w := Nat.mul_le_mul_left _ hdigit

theorem below_congr {digit digit' : Nat → BitVec w} {k : Nat}
    (h : ∀ i, i < k → digit i = digit' i) : below digit k = below digit' k := by
  induction k with
  | zero => rfl
  | succ k ih =>
    rw [below, below, h k (Nat.lt_succ_self k), ih fun i hi => h i (Nat.lt_succ_of_lt hi)]

/-- Writing a digit moves its old and new values between the sides. -/
theorem below_write {digit digit' : Nat → BitVec w} {j k : Nat} (hj : j < k)
    (h : ∀ i, i ≠ j → digit' i = digit i) :
    below digit' k + 2 ^ (w * j) * (digit j).toNat =
      below digit k + 2 ^ (w * j) * (digit' j).toNat := by
  induction k with
  | zero => exact absurd hj (Nat.not_lt_zero j)
  | succ k ih =>
    rw [below, below]
    rcases Nat.lt_succ_iff_lt_or_eq.mp hj with hlt | rfl
    · rw [h k (Nat.ne_of_gt hlt)]
      have hih := ih hlt
      omega
    · rw [below_congr fun i hi => h i (Nat.ne_of_lt hi)]
      omega

/-- Numbers compare by their top digits first. -/
theorem below_lt_below_iff (digit digit' : Nat → BitVec w) (k : Nat) :
    below digit (k + 1) < below digit' (k + 1) ↔
      digit k < digit' k ∨ digit k = digit' k ∧ below digit k < below digit' k := by
  have hlow := below_lt digit k
  have hlow' := below_lt digit' k
  have hmul : ∀ {a b : Nat}, a < b → 2 ^ (w * k) * a + 2 ^ (w * k) ≤ 2 ^ (w * k) * b := by
    intro a b hab
    rw [← Nat.mul_succ]
    exact Nat.mul_le_mul_left _ hab
  rw [below, below, BitVec.lt_def]
  rcases Nat.lt_trichotomy (digit k).toNat (digit' k).toNat with hlt | heq | hgt
  · have hstep := hmul hlt
    exact ⟨fun _ => Or.inl hlt, fun _ => by omega⟩
  · rw [heq]
    have hdigit := BitVec.eq_of_toNat_eq heq
    exact ⟨fun h => Or.inr ⟨hdigit, by omega⟩, fun h => by
      rcases h with h | h
      · omega
      · omega⟩
  · have hstep := hmul hgt
    constructor
    · intro h
      omega
    · rintro (h | ⟨h, -⟩)
      · omega
      · rw [h] at hgt
        omega

/-! ## Carries and borrows -/

/-- One when a wrapped sum is below an operand. -/
def carryOut (sum operand : BitVec w) : BitVec w := if sum < operand then 1 else 0

theorem toNat_one (hw : 0 < w) : (1 : BitVec w).toNat = 1 := by
  have hone : 1 < 2 ^ w := Nat.one_lt_two_pow (Nat.ne_of_gt hw)
  exact Nat.mod_eq_of_lt hone

/-- A wrapped sum and its carry are the sum. -/
theorem add_carry (hw : 0 < w) (a b : BitVec w) :
    (a + b).toNat + 2 ^ w * (carryOut (a + b) a).toNat = a.toNat + b.toNat := by
  have ha := a.isLt
  have hb := b.isLt
  have hsum : (a + b).toNat = (a.toNat + b.toNat) % 2 ^ w := BitVec.toNat_add a b
  unfold carryOut
  by_cases hcarry : a + b < a
  · rw [if_pos hcarry, toNat_one hw]
    rw [BitVec.lt_def, hsum] at hcarry
    rw [hsum]
    rcases Nat.lt_or_ge (a.toNat + b.toNat) (2 ^ w) with hlt | hge
    · rw [Nat.mod_eq_of_lt hlt] at hcarry
      omega
    · rw [Nat.mod_eq_sub_mod hge, Nat.mod_eq_of_lt (by omega)]
      omega
  · rw [if_neg hcarry]
    rw [BitVec.lt_def, hsum] at hcarry
    rw [hsum]
    have hlt : a.toNat + b.toNat < 2 ^ w := by
      rcases Nat.lt_or_ge (a.toNat + b.toNat) (2 ^ w) with hlt | hge
      · exact hlt
      · rw [Nat.mod_eq_sub_mod hge, Nat.mod_eq_of_lt (by omega)] at hcarry
        omega
    rw [Nat.mod_eq_of_lt hlt]
    simp

/-- A wrapped difference owes its borrow. -/
theorem sub_borrow (hw : 0 < w) (a b : BitVec w) :
    (a - b).toNat + b.toNat = a.toNat + 2 ^ w * (carryOut a b).toNat := by
  have ha := a.isLt
  have hb := b.isLt
  unfold carryOut
  by_cases hborrow : a < b
  · rw [if_pos hborrow, toNat_one hw, BitVec.toNat_sub]
    rw [BitVec.lt_def] at hborrow
    rw [Nat.mod_eq_of_lt (by omega)]
    omega
  · rw [if_neg hborrow, BitVec.toNat_sub_of_le (BitVec.not_lt.mp hborrow)]
    have hle : b.toNat ≤ a.toNat := BitVec.le_def.mp (BitVec.not_lt.mp hborrow)
    simp only [BitVec.toNat_zero, BitVec.ofNat_eq_ofNat]
    omega

/-- Carries of which at most one is set are added by `|||`. -/
theorem toNat_carry_or {c d : BitVec w} (h : c.toNat + d.toNat ≤ 1) :
    (c ||| d).toNat = c.toNat + d.toNat := by
  rw [BitVec.toNat_or]
  rcases Nat.eq_zero_or_pos c.toNat with hc | hc
  · rw [hc, Nat.zero_or, Nat.zero_add]
  · have hd : d.toNat = 0 := by omega
    rw [hd, Nat.or_zero, Nat.add_zero]

/-- A full adder out of two wrapped sums. -/
theorem add_with_carry (hw : 0 < w) (a b : BitVec w) {carry : BitVec w} (h : carry.toNat ≤ 1) :
    (a + b + carry).toNat +
        2 ^ w * (carryOut (a + b) a ||| carryOut (a + b + carry) (a + b)).toNat =
        a.toNat + b.toNat + carry.toNat ∧
      (carryOut (a + b) a ||| carryOut (a + b + carry) (a + b)).toNat ≤ 1 := by
  have ha := a.isLt
  have hb := b.isLt
  have hlow := add_carry hw a b
  have hhigh := add_carry hw (a + b) carry
  have hcarries : (carryOut (a + b) a).toNat + (carryOut (a + b + carry) (a + b)).toNat ≤ 1 := by
    -- two carries would make the sum too large
    by_contra hboth
    have htwo : 2 ^ w * 2 ≤
        2 ^ w * ((carryOut (a + b) a).toNat + (carryOut (a + b + carry) (a + b)).toNat) :=
      Nat.mul_le_mul_left _ (by omega)
    rw [Nat.mul_add] at htwo
    omega
  rw [toNat_carry_or hcarries, Nat.mul_add]
  exact ⟨by omega, hcarries⟩

/-- A full subtractor out of two wrapped differences. -/
theorem sub_with_borrow (hw : 0 < w) (a b : BitVec w) {borrow : BitVec w} (h : borrow.toNat ≤ 1) :
    (a - b - borrow).toNat + b.toNat + borrow.toNat =
        a.toNat + 2 ^ w * (carryOut a b ||| carryOut (a - b) borrow).toNat ∧
      (carryOut a b ||| carryOut (a - b) borrow).toNat ≤ 1 := by
  have hb := b.isLt
  have hdiff := (a - b - borrow).isLt
  have hlow := sub_borrow hw a b
  have hhigh := sub_borrow hw (a - b) borrow
  have hborrows : (carryOut a b).toNat + (carryOut (a - b) borrow).toNat ≤ 1 := by
    by_contra hboth
    have htwo : 2 ^ w * 2 ≤ 2 ^ w * ((carryOut a b).toNat + (carryOut (a - b) borrow).toNat) :=
      Nat.mul_le_mul_left _ (by omega)
    rw [Nat.mul_add] at htwo
    omega
  rw [toNat_carry_or hborrows, Nat.mul_add]
  exact ⟨by omega, hborrows⟩

/-- A digit, a double-width product and a carry, added with wrapped sums. -/
theorem mul_add_carry (hw : 0 < w) (cur carry : BitVec w) {a b hi lo : BitVec w}
    (hproduct : lo.toNat + 2 ^ w * hi.toNat = a.toNat * b.toNat) :
    (cur + lo + carry).toNat +
        2 ^ w * (hi + carryOut (cur + lo) cur + carryOut (cur + lo + carry) (cur + lo)).toNat =
      cur.toNat + a.toNat * b.toNat + carry.toNat := by
  have hlow := add_carry hw cur lo
  have hhigh := add_carry hw (cur + lo) carry
  have hcur := cur.isLt
  have hcarry := carry.isLt
  have htotal : 2 ^ w * (hi.toNat + (carryOut (cur + lo) cur).toNat +
      (carryOut (cur + lo + carry) (cur + lo)).toNat) < 2 ^ w * 2 ^ w := by
    have hmul : a.toNat * b.toNat ≤ (2 ^ w - 1) * (2 ^ w - 1) :=
      Nat.mul_le_mul (Nat.le_sub_one_of_lt a.isLt) (Nat.le_sub_one_of_lt b.isLt)
    have hsquare : (2 ^ w - 1) * (2 ^ w - 1) + 2 * (2 ^ w - 1) + 1 = 2 ^ w * 2 ^ w := by
      obtain ⟨m, hm⟩ : ∃ m, 2 ^ w = m + 1 := ⟨2 ^ w - 1, by have := Nat.two_pow_pos w; omega⟩
      rw [hm, Nat.add_sub_cancel]
      ring
    rw [Nat.mul_add, Nat.mul_add]
    omega
  have hfits := Nat.lt_of_mul_lt_mul_left htotal
  have hhi : (hi + carryOut (cur + lo) cur + carryOut (cur + lo + carry) (cur + lo)).toNat =
      hi.toNat + (carryOut (cur + lo) cur).toNat +
        (carryOut (cur + lo + carry) (cur + lo)).toNat := by
    rw [BitVec.toNat_add, BitVec.toNat_add, Nat.mod_add_mod, Nat.mod_eq_of_lt hfits]
  rw [hhi, Nat.mul_add, Nat.mul_add]
  omega

/-- The digits above do not matter modulo the weight of the first one of them. -/
theorem below_modEq (digit : Nat → BitVec w) {k n : Nat} (h : k ≤ n) :
    below digit n ≡ below digit k [MOD 2 ^ (w * k)] := by
  induction n, h using Nat.le_induction with
  | base => exact Nat.ModEq.refl _
  | succ n hle ih =>
    have hdvd : 2 ^ (w * k) ∣ 2 ^ (w * n) * (digit n).toNat :=
      Nat.dvd_mul_right_of_dvd (Nat.pow_dvd_pow 2 (Nat.mul_le_mul_left w hle)) _
    rw [below]
    exact (Nat.add_modEq_left_iff.mpr hdvd).trans ih

end PyCircuit.Lib.Limbs
