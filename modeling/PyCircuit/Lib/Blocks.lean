import Mathlib.Algebra.BigOperators.Group.List.Basic
import Mathlib.Algebra.BigOperators.Ring.List
import Mathlib.Algebra.Order.BigOperators.Group.List
import Mathlib.Algebra.Ring.Nat

/-!
# Consecutive blocks

Blocks of given sizes, one behind the other, partition an initial segment of the natural numbers. A
concatenation of lists has its elements in such blocks.
-/

set_option autoImplicit false

namespace PyCircuit.Lib.Blocks

/-- Where a block begins. -/
def offset (sizes : List Nat) (i : Nat) : Nat := (sizes.take i).sum

@[simp] theorem offset_zero (sizes : List Nat) : offset sizes 0 = 0 := by simp [offset]

theorem offset_cons_succ (size : Nat) (sizes : List Nat) (i : Nat) :
    offset (size :: sizes) (i + 1) = size + offset sizes i := by simp [offset]

variable {i size j k : Nat} {sizes : List Nat}

theorem offset_succ (h : sizes[i]? = some size) :
    offset sizes (i + 1) = offset sizes i + size := by
  rw [offset, offset, List.take_add_one, h, List.sum_append]
  simp

theorem offset_mono (sizes : List Nat) (h : i ≤ j) : offset sizes i ≤ offset sizes j := by
  obtain ⟨k, rfl⟩ := Nat.exists_eq_add_of_le h
  rw [offset, offset, List.take_add, List.sum_append]
  exact Nat.le_add_right _ _

theorem offset_add_le (h : sizes[i]? = some size) :
    offset sizes i + size ≤ sizes.sum := by
  rw [← offset_succ h, offset]
  conv_rhs => rw [← List.take_append_drop (i + 1) sizes, List.sum_append]
  exact Nat.le_add_right _ _

/-- Every number below the sum is in a block. -/
theorem exists_block (h : k < sizes.sum) :
    ∃ i size, sizes[i]? = some size ∧ offset sizes i ≤ k ∧ k < offset sizes i + size := by
  induction sizes generalizing k with
  | nil => cases h
  | cons size sizes ih =>
    by_cases hk : k < size
    · exact ⟨0, size, rfl, by simp, by simpa using hk⟩
    · rw [List.sum_cons] at h
      obtain ⟨i, found, hfound, hlow, hhigh⟩ := ih (k := k - size) (by omega)
      refine ⟨i + 1, found, hfound, ?_, ?_⟩
      · rw [offset_cons_succ]
        omega
      · rw [offset_cons_succ]
        omega

/-- Blocks do not overlap. -/
theorem block_unique {size' : Nat} (hi : sizes[i]? = some size)
    (hj : sizes[j]? = some size') (hki : offset sizes i ≤ k) (hik : k < offset sizes i + size)
    (hkj : offset sizes j ≤ k) (hjk : k < offset sizes j + size') : i = j := by
  rcases Nat.lt_trichotomy i j with hlt | heq | hlt
  · have hle := offset_mono sizes (Nat.succ_le_of_lt hlt)
    rw [Nat.succ_eq_add_one, offset_succ hi] at hle
    omega
  · exact heq
  · have hle := offset_mono sizes (Nat.succ_le_of_lt hlt)
    rw [Nat.succ_eq_add_one, offset_succ hj] at hle
    omega

/-- An element of a concatenation. -/
theorem getElem?_flatten {β : Type} {lists : List (List β)} {l : List β}
    (hl : lists[i]? = some l) (hk : k < l.length) :
    lists.flatten[offset (lists.map List.length) i + k]? = l[k]? := by
  induction lists generalizing i with
  | nil => simp at hl
  | cons first lists ih =>
    cases i with
    | zero =>
      obtain rfl : first = l := Option.some.inj hl
      rw [offset_zero, Nat.zero_add, List.flatten_cons, List.getElem?_append_left hk]
    | succ i =>
      rw [List.map_cons, offset_cons_succ, List.flatten_cons, Nat.add_assoc,
        List.getElem?_append_right (Nat.le_add_right _ _), Nat.add_sub_cancel_left]
      exact ih hl

/-- Blocks of one size. -/
theorem offset_replicate {n : Nat} (h : i ≤ n) :
    offset (List.replicate n size) i = i * size := by
  rw [offset, List.take_replicate, Nat.min_eq_left h, List.sum_replicate_nat]

theorem strided_lt {n : Nat} (hi : i < n) (hk : k < size) :
    i * size + k < n * size := by
  have hle := Nat.mul_le_mul_right size (Nat.succ_le_of_lt hi)
  rw [Nat.succ_mul] at hle
  omega

theorem strided_injective {l : Nat} (hk : k < size) (hl : l < size)
    (h : i * size + k = j * size + l) : i = j ∧ k = l := by
  have hdiv := congrArg (· / size) h
  have hmod := congrArg (· % size) h
  simp only [Nat.mul_comm _ size, Nat.mul_add_mod, Nat.mod_eq_of_lt hk, Nat.mod_eq_of_lt hl,
    Nat.mul_add_div (Nat.zero_lt_of_lt hk), Nat.div_eq_of_lt hk, Nat.div_eq_of_lt hl] at hdiv hmod
  exact ⟨hdiv, hmod⟩

/-- Blocks that are all stretched. -/
theorem offset_map_mul (factor : Nat) (sizes : List Nat) (i : Nat) :
    offset (sizes.map (factor * ·)) i = factor * offset sizes i := by
  rw [offset, offset, ← List.map_take, List.sum_map_mul_left, List.map_id']

end PyCircuit.Lib.Blocks
