import Mathlib.Data.Nat.Digits.Lemmas

/-!
# Decimal texts

The decimal digits of a number as bytes, most significant first. They are read back in base ten as
the number, they have no leading zero, a number below `10 ^ k` has at most `k` of them, and in a
longer text they end where another byte stands.
-/

set_option autoImplicit false

namespace PyCircuit.Lib

/-- The decimal digits of a number. -/
def digits (n : Nat) : List UInt8 :=
  if n = 0 then [48] else ((Nat.digits 10 n).map fun d => UInt8.ofNat (48 + d)).reverse

/-- The number that digits stand for in base ten. -/
def digitsValue (text : List UInt8) : Nat :=
  Nat.ofDigits 10 (text.reverse.map fun b => b.toNat - 48)

/-- The decimal text of an integer. -/
def decimal : Int → List UInt8
  | .ofNat n => digits n
  | .negSucc n => 45 :: digits (n + 1)

def isDecimal (b : UInt8) : Bool := 48 ≤ b && b ≤ 57

variable {n : Nat} {b : UInt8}

theorem toNat_digit {d : Nat} (h : d < 10) : (UInt8.ofNat (48 + d)).toNat = 48 + d := by
  rw [UInt8.toNat_ofNat']
  omega

theorem isDecimal_digit {d : Nat} (h : d < 10) : isDecimal (UInt8.ofNat (48 + d)) = true := by
  simp only [isDecimal, UInt8.le_iff_toNat_le, toNat_digit h, Bool.and_eq_true, decide_eq_true_eq]
  exact ⟨Nat.le_add_right 48 d, by simp; omega⟩

theorem isDecimal_of_mem (h : b ∈ digits n) : isDecimal b = true := by
  unfold digits at h
  split at h
  · rw [List.mem_singleton.mp h]
    rfl
  · obtain ⟨d, hd, rfl⟩ := List.mem_map.mp (List.mem_reverse.mp h)
    exact isDecimal_digit (Nat.digits_lt_base (by decide) hd)

theorem digits_ne_nil (n : Nat) : digits n ≠ [] := by
  unfold digits
  split
  · exact List.cons_ne_nil 48 []
  · next hn => simpa [Nat.digits_eq_nil_iff_eq_zero] using hn

theorem digits_head (h : n ≠ 0) : (digits n).head? ≠ some 48 := by
  intro hhead
  rw [digits, if_neg h, List.head?_reverse, List.getLast?_map, Option.map_eq_some_iff] at hhead
  obtain ⟨d, hlast, hd⟩ := hhead
  have hne : Nat.digits 10 n ≠ [] := Nat.digits_ne_nil_iff_ne_zero.mpr h
  obtain rfl : (Nat.digits 10 n).getLast hne = d := by
    simpa [List.getLast?_eq_some_getLast hne] using hlast
  have hlt := Nat.digits_lt_base (by decide) (List.getLast_mem hne)
  have hzero := congrArg UInt8.toNat hd
  rw [toNat_digit hlt] at hzero
  exact Nat.getLast_digit_ne_zero 10 h (by simpa using hzero)

theorem length_digits_le {k : Nat} (hk : 0 < k) (h : n < 10 ^ k) : (digits n).length ≤ k := by
  unfold digits
  split
  · exact hk
  · rw [List.length_reverse, List.length_map]
    exact (Nat.digits_length_le_iff (by decide) n).mpr h

theorem digitsValue_append (xs ys : List UInt8) :
    digitsValue (xs ++ ys) = digitsValue xs * 10 ^ ys.length + digitsValue ys := by
  simp only [digitsValue, List.reverse_append, List.map_append, Nat.ofDigits_append,
    List.length_map, List.length_reverse]
  ring

theorem digitsValue_replicate_zero (k : Nat) : digitsValue (List.replicate k 48) = 0 := by
  simp [digitsValue, Nat.ofDigits_replicate_zero]

/-- The digits are read back as the number. -/
theorem digitsValue_digits (n : Nat) : digitsValue (digits n) = n := by
  unfold digits
  split
  · next hn => rw [hn]; rfl
  · rw [digitsValue, List.reverse_reverse, List.map_map]
    have hback : (Nat.digits 10 n).map ((fun b : UInt8 => b.toNat - 48) ∘
        fun d => UInt8.ofNat (48 + d)) = (Nat.digits 10 n).map id := by
      apply List.map_congr_left
      intro d hd
      rw [Function.comp_apply, toNat_digit (Nat.digits_lt_base (by decide) hd),
        Nat.add_sub_cancel_left, id]
    rw [hback, List.map_id, Nat.ofDigits_digits]

/-- The digits end where another byte stands. -/
theorem digits_cancel {m : Nat} {r r' : List UInt8} (hr : ∀ b ∈ r.head?, isDecimal b = false)
    (hr' : ∀ b ∈ r'.head?, isDecimal b = false) (h : digits m ++ r = digits n ++ r') :
    m = n ∧ r = r' := by
  have hcut : ∀ {k : Nat} {r : List UInt8}, (∀ b ∈ r.head?, isDecimal b = false) →
      (digits k ++ r).takeWhile isDecimal = digits k := by
    intro k r hr
    rw [List.takeWhile_append_of_pos fun b => isDecimal_of_mem]
    cases r with
    | nil => simp
    | cons b r => simp [hr b rfl]
  have hdigits : digits m = digits n := by rw [← hcut hr, h, hcut hr']
  refine ⟨?_, List.append_cancel_left (hdigits ▸ h)⟩
  rw [← digitsValue_digits m, hdigits, digitsValue_digits]

end PyCircuit.Lib
