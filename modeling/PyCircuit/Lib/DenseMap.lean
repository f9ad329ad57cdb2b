import Mathlib.Data.Set.Card

/-!
# Hash tables that grow

A table with default values in an array of buckets. An insertion that leaves less than a quarter of
the buckets free moves all values to a larger array. A reference is to the array that it was taken
from: after a growth it reaches no value of the table any more.
-/

set_option autoImplicit false

namespace PyCircuit.Lib

structure DenseMap (κ ν : Type) where
  keys : Finset κ
  buckets : Nat
  value : κ → ν

namespace DenseMap

variable {κ ν : Type}

def empty (default : ν) : DenseMap κ ν := ⟨∅, 0, fun _ => default⟩

/-- The size of the array for a number of entries. -/
def grown (buckets entries : Nat) : Nat :=
  if buckets * 3 ≤ entries * 4 then max 64 (buckets * 2) else buckets

variable [DecidableEq κ]

/-- The table with an entry for a key, which has the default value if it is new. -/
def insert (m : DenseMap κ ν) (k : κ) : DenseMap κ ν :=
  if k ∈ m.keys then m
  else { m with keys := Insert.insert k m.keys, buckets := grown m.buckets (m.keys.card + 1) }

/-- A write to the value of a key, through a reference taken from an array of a given size. -/
def modifyAt (m : DenseMap κ ν) (taken : Nat) (k : κ) (f : ν → ν) : DenseMap κ ν :=
  if m.buckets = taken then { m with value := Function.update m.value k (f (m.value k)) } else m

def find? (m : DenseMap κ ν) (k : κ) : Option ν := if k ∈ m.keys then some (m.value k) else none

@[simp] theorem insert_value (m : DenseMap κ ν) (k : κ) : (m.insert k).value = m.value := by
  rw [insert]
  split_ifs <;> rfl

theorem mem_insert_keys {m : DenseMap κ ν} {k x : κ} :
    x ∈ (m.insert k).keys ↔ x = k ∨ x ∈ m.keys := by
  rw [insert]
  split_ifs with hk
  · exact ⟨.inr, fun h => h.elim (fun heq => heq ▸ hk) id⟩
  · exact Finset.mem_insert

@[simp] theorem modifyAt_keys (m : DenseMap κ ν) (taken : Nat) (k : κ) (f : ν → ν) :
    (m.modifyAt taken k f).keys = m.keys := by
  rw [modifyAt]
  split_ifs <;> rfl

@[simp] theorem modifyAt_buckets (m : DenseMap κ ν) (taken : Nat) (k : κ) (f : ν → ν) :
    (m.modifyAt taken k f).buckets = m.buckets := by
  rw [modifyAt]
  split_ifs <;> rfl

theorem modifyAt_value {m : DenseMap κ ν} {taken : Nat} (h : m.buckets = taken) (k : κ)
    (f : ν → ν) : (m.modifyAt taken k f).value = Function.update m.value k (f (m.value k)) := by
  rw [modifyAt, if_pos h]

/-- A table that is still in its first array. -/
structure Steady (domain : Set κ) (m : DenseMap κ ν) : Prop where
  keys : ↑m.keys ⊆ domain
  buckets : m.buckets = if m.keys = ∅ then 0 else 64

variable {domain : Set κ} {m : DenseMap κ ν}

theorem steady_empty (domain : Set κ) (default : ν) : (empty default).Steady domain :=
  ⟨by simp [empty], rfl⟩

theorem Steady.modifyAt (h : m.Steady domain) (taken : Nat) (k : κ) (f : ν → ν) :
    (m.modifyAt taken k f).Steady domain := by
  constructor
  · rw [modifyAt_keys]
    exact h.keys
  · rw [modifyAt_keys, modifyAt_buckets]
    exact h.buckets

theorem Steady.buckets_of_mem (h : m.Steady domain) {k : κ} (hk : k ∈ m.keys) : m.buckets = 64 := by
  rw [h.buckets, if_neg (Finset.ne_empty_of_mem hk)]

/-- Fewer than forty-eight keys fit into the first array. -/
theorem Steady.insert (h : m.Steady domain) (hfew : domain.encard < 48) {k : κ} (hk : k ∈ domain) :
    (m.insert k).Steady domain := by
  have hkeys : ↑(m.insert k).keys ⊆ domain := by
    intro x hx
    rcases mem_insert_keys.mp hx with rfl | hx
    · exact hk
    · exact h.keys hx
  have hcard : (m.insert k).keys.card < 48 := by
    have hlt := (Set.encard_le_encard hkeys).trans_lt hfew
    rw [Set.encard_coe_eq_coe_finsetCard] at hlt
    exact_mod_cast hlt
  refine ⟨hkeys, ?_⟩
  rw [if_neg (Finset.ne_empty_of_mem (mem_insert_keys.mpr (.inl rfl)))]
  have hbefore := h.buckets
  by_cases hmem : k ∈ m.keys
  · rw [DenseMap.insert, if_pos hmem, h.buckets_of_mem hmem]
  · rw [DenseMap.insert, if_neg hmem] at hcard ⊢
    rw [Finset.card_insert_of_notMem hmem] at hcard
    change grown m.buckets (m.keys.card + 1) = 64
    rw [grown]
    split_ifs at hbefore ⊢ <;> omega

end DenseMap

end PyCircuit.Lib
