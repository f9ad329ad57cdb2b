import Mathlib.Tactic.Common
import Mathlib.Data.List.Perm.Basic

/-!
# Exclusive writers

A fold of conditional writes over a list of writers, of which at most one is active: the result is
the value of the active writer, or the old value when there is none, in whatever order the writers
are taken.
-/

set_option autoImplicit false

namespace PyCircuit.Lib

universe u v

variable {ω : Type u} {α : Type v}

/-- One conditional write. -/
def writeIf (active : ω → Bool) (value : ω → α) (old : α) (w : ω) : α :=
  if active w then value w else old

/-- No two writers of the list are active. -/
def Exclusive (active : ω → Bool) (writers : List ω) : Prop :=
  writers.Pairwise fun v w => ¬ (active v = true ∧ active w = true)

variable {active : ω → Bool} {value : ω → α} {writers : List ω}

theorem Exclusive.perm {order : List ω} (h : Exclusive active writers)
    (hperm : order.Perm writers) : Exclusive active order := by
  refine (hperm.pairwise_iff ?_).mpr h
  rintro v w hvw ⟨hw, hv⟩
  exact hvw ⟨hv, hw⟩

theorem foldl_writeIf_of_inactive (h : ∀ w ∈ writers, active w = false) (old : α) :
    writers.foldl (writeIf active value) old = old := by
  induction writers generalizing old with
  | nil => rfl
  | cons v rest ih =>
    have hv : writeIf active value old v = old := by
      rw [writeIf, h v List.mem_cons_self]
      rfl
    rw [List.foldl_cons, hv]
    exact ih (List.forall_mem_cons.mp h).2 old

/-- The active writer decides, whatever the others are. -/
theorem foldl_writeIf_of_active (hexclusive : Exclusive active writers) {w : ω}
    (hw : w ∈ writers) (hactive : active w = true) (old : α) :
    writers.foldl (writeIf active value) old = value w := by
  induction writers generalizing old with
  | nil => cases hw
  | cons v rest ih =>
    obtain ⟨hv, hrest⟩ := List.pairwise_cons.mp hexclusive
    rw [List.foldl_cons]
    rcases List.mem_cons.mp hw with rfl | hw
    · have hnone : ∀ u ∈ rest, active u = false := fun u hu =>
        Bool.eq_false_iff.mpr fun hu' => hv u hu ⟨hactive, hu'⟩
      rw [foldl_writeIf_of_inactive hnone, writeIf, hactive]
      rfl
    · exact ih hrest hw _

/-- The order of exclusive writers does not matter. -/
theorem Exclusive.foldl_perm {order : List ω} (h : Exclusive active writers)
    (hperm : order.Perm writers) (old : α) :
    order.foldl (writeIf active value) old = writers.foldl (writeIf active value) old := by
  by_cases hactive : ∃ w ∈ writers, active w = true
  · obtain ⟨w, hw, hw'⟩ := hactive
    rw [foldl_writeIf_of_active h hw hw',
      foldl_writeIf_of_active (h.perm hperm) (hperm.mem_iff.mpr hw) hw']
  · have hnone : ∀ w ∈ writers, active w = false := fun w hw =>
      Bool.eq_false_iff.mpr fun hw' => hactive ⟨w, hw, hw'⟩
    rw [foldl_writeIf_of_inactive hnone,
      foldl_writeIf_of_inactive fun w hw => hnone w (hperm.mem_iff.mp hw)]

end PyCircuit.Lib
