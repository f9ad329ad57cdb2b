import Mathlib.Data.List.Nodup
import Mathlib.Data.List.Perm.Subperm
import Mathlib.Data.List.Range
import Mathlib.Logic.Function.Basic

/-!
# Handing out indices

A counter hands out the indices `0, 1, …` one at a time. Each holder has at most one of them and
gives it back once. `Dispensed holds next done` says that every index below the counter is either in
exactly one pair of hands or has been given back, once.
-/

set_option autoImplicit false

namespace PyCircuit

universe u

variable {ι : Type u} [DecidableEq ι]

/-- Every index below `next` is held by one holder or is in `done`, once. -/
structure Dispensed (holds : ι → Option Nat) (next : Nat) (done : List Nat) : Prop where
  nodup : done.Nodup
  lt : ∀ i ∈ done, i < next
  placed : ∀ i < next, i ∈ done ∨ ∃ w, holds w = some i
  held : ∀ w i, holds w = some i → i < next ∧ i ∉ done
  alone : ∀ v w i, holds v = some i → holds w = some i → v = w

namespace Dispensed

variable {holds : ι → Option Nat} {next : Nat} {done : List Nat} {w : ι} {i : Nat}

omit [DecidableEq ι] in
theorem start (h : ∀ w, holds w = none) : Dispensed holds 0 [] where
  nodup := List.nodup_nil
  lt := List.forall_mem_nil _
  placed := fun i hi => absurd hi (Nat.not_lt_zero i)
  held := fun w i hw => by rw [h w] at hw; cases hw
  alone := fun v _ i hv _ => by rw [h v] at hv; cases hv

section

variable (h : Dispensed holds next done)
include h

/-- A free holder gets the next index. -/
theorem take (hw : holds w = none) :
    Dispensed (Function.update holds w (some next)) (next + 1) done := by
  have hfree : ∀ v j, holds v = some j → v ≠ w := by
    rintro v j hv rfl
    rw [hw] at hv
    cases hv
  have hmem : ∀ v j, Function.update holds w (some next) v = some j →
      (v = w ∧ j = next) ∨ (v ≠ w ∧ holds v = some j) := by
    intro v j hv
    by_cases hvw : v = w
    · subst hvw
      rw [Function.update_self] at hv
      exact Or.inl ⟨rfl, (Option.some.inj hv).symm⟩
    · rw [Function.update_of_ne hvw] at hv
      exact Or.inr ⟨hvw, hv⟩
  refine ⟨h.nodup, fun j hj => Nat.lt_succ_of_lt (h.lt j hj), ?_, ?_, ?_⟩
  · intro j hj
    rcases Nat.lt_succ_iff_lt_or_eq.mp hj with hj | rfl
    · rcases h.placed j hj with hd | ⟨v, hv⟩
      · exact Or.inl hd
      · exact Or.inr ⟨v, by rw [Function.update_of_ne (hfree v j hv)]; exact hv⟩
    · exact Or.inr ⟨w, Function.update_self ..⟩
  · intro v j hv
    rcases hmem v j hv with ⟨_, rfl⟩ | ⟨_, hv⟩
    · exact ⟨Nat.lt_succ_self j, fun hd => Nat.lt_irrefl j (h.lt j hd)⟩
    · exact ⟨Nat.lt_succ_of_lt (h.held v j hv).1, (h.held v j hv).2⟩
  · intro v v' j hv hv'
    rcases hmem v j hv with ⟨rfl, rfl⟩ | ⟨_, hold⟩
    · rcases hmem v' _ hv' with ⟨rfl, _⟩ | ⟨_, hold'⟩
      · rfl
      · exact absurd (h.held v' _ hold').1 (Nat.lt_irrefl _)
    · rcases hmem v' j hv' with ⟨_, rfl⟩ | ⟨_, hold'⟩
      · exact absurd (h.held v _ hold).1 (Nat.lt_irrefl _)
      · exact h.alone v v' j hold hold'

/-- A holder gives its index back. -/
theorem finish (hw : holds w = some i) :
    Dispensed (Function.update holds w none) next (done ++ [i]) := by
  have hmem : ∀ v j, Function.update holds w none v = some j → v ≠ w ∧ holds v = some j := by
    intro v j hv
    have hvw : v ≠ w := by
      rintro rfl
      rw [Function.update_self] at hv
      cases hv
    rw [Function.update_of_ne hvw] at hv
    exact ⟨hvw, hv⟩
  refine ⟨?_, ?_, ?_, ?_, ?_⟩
  · rw [List.nodup_append]
    refine ⟨h.nodup, List.nodup_singleton i, ?_⟩
    rintro j hj k hk rfl
    rw [List.mem_singleton] at hk
    exact (h.held w i hw).2 (hk ▸ hj)
  · exact List.forall_mem_append.mpr ⟨h.lt, List.forall_mem_singleton.mpr (h.held w i hw).1⟩
  · intro j hj
    by_cases hji : j = i
    · exact Or.inl (by simp [hji])
    · rcases h.placed j hj with hd | ⟨v, hv⟩
      · exact Or.inl (List.mem_append_left _ hd)
      · refine Or.inr ⟨v, ?_⟩
        have hvw : v ≠ w := by
          rintro rfl
          exact hji (Option.some.inj (hv.symm.trans hw))
        rw [Function.update_of_ne hvw]
        exact hv
  · intro v j hv
    obtain ⟨hvw, hold⟩ := hmem v j hv
    refine ⟨(h.held v j hold).1, fun hd => ?_⟩
    rcases List.mem_append.mp hd with hd | hd
    · exact (h.held v j hold).2 hd
    · rw [List.mem_singleton] at hd
      exact hvw (h.alone v w i (hd ▸ hold) hw)
  · intro v v' j hv hv'
    exact h.alone v v' j (hmem v j hv).2 (hmem v' j hv').2

omit [DecidableEq ι] in
theorem mem_range_iff (hquiet : ∀ w, holds w = none) (i : Nat) :
    i ∈ done ↔ i ∈ List.range next := by
  rw [List.mem_range]
  refine ⟨h.lt i, fun hi => ?_⟩
  rcases h.placed i hi with hd | ⟨w, hw⟩
  · exact hd
  · rw [hquiet w] at hw
    cases hw

omit [DecidableEq ι] in
/-- When nobody holds an index, every index handed out has come back exactly once. -/
theorem perm_range (hquiet : ∀ w, holds w = none) : done.Perm (List.range next) :=
  (List.perm_ext_iff_of_nodup h.nodup List.nodup_range).mpr (h.mem_range_iff hquiet)

omit [DecidableEq ι] in
/-- When as many indices have come back as were handed out, nobody holds one. -/
theorem quiet (hlength : next ≤ done.length) : ∀ w, holds w = none := by
  have hsub : done.Subperm (List.range next) :=
    h.nodup.subperm fun i hi => List.mem_range.mpr (h.lt i hi)
  have hperm : done.Perm (List.range next) :=
    hsub.perm_of_length_le (by rw [List.length_range]; exact hlength)
  intro w
  cases hw : holds w with
  | none => rfl
  | some i =>
    obtain ⟨hlt, hnot⟩ := h.held w i hw
    exact absurd (hperm.mem_iff.mpr (List.mem_range.mpr hlt)) hnot

omit [DecidableEq ι] in
theorem length_le : done.length ≤ next := by
  have hsub : done.Subperm (List.range next) :=
    h.nodup.subperm fun i hi => List.mem_range.mpr (h.lt i hi)
  have := hsub.length_le
  rwa [List.length_range] at this

end

end Dispensed

end PyCircuit
