import Mathlib.Algebra.Ring.Int.Defs
import PyCircuit.Lib.Fallible
import PyCircuit.Lib.RowMajor

/-!
# Shapes of tables

`HardwareAnalysis::resolveShape` checks the extents of a shape, which are mathematical integers, and
the number of the elements. An accepted shape has positive extents and fewer than `2^63` elements,
and every such shape is accepted.
-/

set_option autoImplicit false

namespace PyCircuit.Table

open Lib Fallible

/-- The loop over the extents, with the number of the elements so far. -/
def resolveExtents : List Int → Nat → Except String (List Nat)
  | [], _ => .ok []
  | value :: rest, n =>
    if value ≤ 0 ∨ 2 ^ 63 ≤ value then
      .error "table extent must be positive and fit signed 64 bits"
    else if n > (2 ^ 63 - 1) / value.toNat then
      .error "table element count exceeds signed 64 bits"
    else do
      let extents ← resolveExtents rest (n * value.toNat)
      .ok (value.toNat :: extents)

def resolveShape (shape : List Int) : Except String (List Nat) :=
  if shape = [] then .error "table shape requires positive rank" else resolveExtents shape 1

/-- Shapes of positive extents with fewer than `2^63` elements. -/
structure Valid (shape : List Nat) : Prop where
  ne_nil : shape ≠ []
  positive : ∀ e ∈ shape, 0 < e
  size_lt : RowMajor.size shape < 2 ^ 63

theorem resolveExtents_sound {shape : List Int} {n : Nat} {extents : List Nat} (hn : 0 < n)
    (hlt : n < 2 ^ 63) (h : resolveExtents shape n = .ok extents) :
    shape = extents.map Int.ofNat ∧ (∀ e ∈ extents, 0 < e) ∧
      n * RowMajor.size extents < 2 ^ 63 := by
  induction shape generalizing n extents with
  | nil =>
    cases h
    refine ⟨rfl, fun e he => absurd he List.not_mem_nil, ?_⟩
    exact (Nat.mul_one n).symm ▸ hlt
  | cons value rest ih =>
    rw [resolveExtents] at h
    obtain ⟨hrange, h⟩ := guard_eq_ok.mp h
    obtain ⟨hmany, h⟩ := guard_eq_ok.mp h
    obtain ⟨tail, htail, hok⟩ := bind_eq_ok.mp h
    cases hok
    have hvalue : 0 < value.toNat := by omega
    have hnext : n * value.toNat < 2 ^ 63 := by
      have := (Nat.le_div_iff_mul_le hvalue).mp (Nat.le_of_not_gt hmany)
      omega
    obtain ⟨hrest, hpos, hsize⟩ := ih (Nat.mul_pos hn hvalue) hnext htail
    refine ⟨?_, ?_, ?_⟩
    · rw [List.map_cons, ← hrest]
      congr 1
      exact (Int.toNat_of_nonneg (by omega)).symm
    · exact List.forall_mem_cons.mpr ⟨hvalue, hpos⟩
    · rwa [RowMajor.size, ← Nat.mul_assoc]

theorem resolveExtents_complete {extents : List Nat} {n : Nat} (hn : 0 < n)
    (hpos : ∀ e ∈ extents, 0 < e) (h : n * RowMajor.size extents < 2 ^ 63) :
    resolveExtents (extents.map Int.ofNat) n = .ok extents := by
  induction extents generalizing n with
  | nil => rfl
  | cons e rest ih =>
    obtain ⟨he, hrest⟩ := List.forall_mem_cons.mp hpos
    have hsize := RowMajor.size_pos hrest
    rw [RowMajor.size, ← Nat.mul_assoc] at h
    have hnext : n * e < 2 ^ 63 := (Nat.le_mul_of_pos_right _ hsize).trans_lt h
    have hextent : e < 2 ^ 63 := (Nat.le_mul_of_pos_left _ hn).trans_lt hnext
    have hrange : ¬ ((Int.ofNat e) ≤ 0 ∨ 2 ^ 63 ≤ Int.ofNat e) := by
      rw [Int.ofNat_eq_natCast]
      omega
    have hmany : ¬ n > (2 ^ 63 - 1) / (Int.ofNat e).toNat := by
      change ¬ n > (2 ^ 63 - 1) / e
      rw [Nat.not_lt, Nat.le_div_iff_mul_le he]
      omega
    have htail : resolveExtents (rest.map Int.ofNat) (n * (Int.ofNat e).toNat) = .ok rest :=
      ih (Nat.mul_pos hn he) hrest h
    rw [List.map_cons, resolveExtents, if_neg hrange, if_neg hmany, htail, ok_bind]
    rfl

/-- A shape is accepted when it is a valid one. -/
theorem resolveShape_eq_ok {shape : List Int} {extents : List Nat} :
    resolveShape shape = .ok extents ↔ shape = extents.map Int.ofNat ∧ Valid extents := by
  rw [resolveShape]
  constructor
  · intro h
    obtain ⟨hnil, h⟩ := guard_eq_ok.mp h
    obtain ⟨hshape, hpos, hsize⟩ := resolveExtents_sound Nat.one_pos (by decide) h
    rw [Nat.one_mul] at hsize
    exact ⟨hshape, fun hempty => hnil (by rw [hshape, hempty]; rfl), hpos, hsize⟩
  · rintro ⟨rfl, hvalid⟩
    have hnil : extents.map Int.ofNat ≠ [] := by simpa using hvalid.ne_nil
    rw [if_neg hnil]
    exact resolveExtents_complete Nat.one_pos hvalid.positive
      (by rw [Nat.one_mul]; exact hvalid.size_lt)

end PyCircuit.Table
