import Mathlib.Data.List.Basic
import Mathlib.Tactic.Common

/-!
# Ring buffers

Positions of a ring of `n` slots, and the window of a ring: the values of a number of slots from a
position on, around the end. A window shortens at its start by moving the position on, and grows at
its end by writing the slot after it.
-/

set_option autoImplicit false

namespace PyCircuit.Lib.Ring

variable {α : Type} {n : Nat}

/-! ## Positions -/

/-- The position `k` slots after a position. -/
def offset (i : Fin n) (k : Nat) : Fin n := ⟨(i + k) % n, Nat.mod_lt _ i.pos⟩

/-- The next position: the one after the last slot is the first. -/
def next (i : Fin n) : Fin n :=
  if h : i.val = n - 1 then ⟨0, i.pos⟩ else ⟨i + 1, by omega⟩

variable (slots : Vector α n) (i : Fin n) (k len : Nat)

@[simp] theorem offset_zero : offset i 0 = i := by
  apply Fin.ext
  exact Nat.mod_eq_of_lt i.isLt

theorem offset_offset (j k : Nat) : offset (offset i j) k = offset i (j + k) := by
  apply Fin.ext
  show ((i + j) % n + k) % n = (i + (j + k)) % n
  rw [Nat.mod_add_mod, Nat.add_assoc]

theorem next_eq_offset : next i = offset i 1 := by
  apply Fin.ext
  unfold next offset
  split
  · next hlast =>
    have hwrap : i.val + 1 = n := by omega
    show 0 = (i.val + 1) % n
    rw [hwrap, Nat.mod_self]
  · next hlast =>
    show i.val + 1 = (i.val + 1) % n
    rw [Nat.mod_eq_of_lt (by omega)]

theorem next_offset : next (offset i k) = offset i (k + 1) := by
  rw [next_eq_offset, offset_offset]

theorem offset_next : offset (next i) k = offset i (k + 1) := by
  rw [next_eq_offset, offset_offset, Nat.add_comm]

/-- Less than a round apart, numbers are the same when they are the same modulo the round. -/
theorem mod_eq_mod_iff {a b m : Nat} (hle : a ≤ b) (hlt : b < m + a) : b % m = a % m ↔ b = a := by
  constructor
  · intro hmod
    have hzero := Nat.sub_mod_eq_zero_of_mod_eq hmod
    rw [Nat.mod_eq_of_lt (by omega)] at hzero
    omega
  · intro heq
    rw [heq]

/-- Less than a round apart, positions are different. -/
theorem offset_ne {i : Fin n} {j k : Nat} (hlt : j < k) (hk : k < n + j) :
    offset i j ≠ offset i k := by
  intro heq
  have hmod : (i.val + k) % n = (i.val + j) % n := congrArg Fin.val heq.symm
  rw [mod_eq_mod_iff (by omega) (by omega)] at hmod
  omega

/-! ## Windows -/

/-- The values of `len` slots from a position on. -/
def window (slots : Vector α n) (i : Fin n) (len : Nat) : List α :=
  (List.range len).map fun k => slots.get (offset i k)

@[simp] theorem length_window : (window slots i len).length = len := by
  rw [window, List.length_map, List.length_range]

theorem window_cons : window slots i (len + 1) = slots.get i :: window slots (next i) len := by
  unfold window
  rw [List.range_succ_eq_map, List.map_cons, List.map_map, offset_zero]
  congr 1
  apply List.map_congr_left
  intro k _
  rw [Function.comp_apply, offset_next]

theorem window_concat :
    window slots i (len + 1) = window slots i len ++ [slots.get (offset i len)] := by
  unfold window
  rw [List.range_succ, List.map_append, List.map_cons, List.map_nil]

theorem get_set (j : Fin n) (a : α) : (slots.set j a).get i = if j = i then a else slots.get i := by
  show (slots.set j a)[i.val] = _
  rw [Vector.getElem_set]
  simp only [Fin.ext_iff]
  rfl

/-- A window does not see a write after its end. -/
theorem window_set {len : Nat} (hlen : len < n) (a : α) :
    window (slots.set (offset i len) a) i len = window slots i len := by
  apply List.map_congr_left
  intro k hk
  have hlt := List.mem_range.mp hk
  rw [get_set, if_neg (offset_ne hlt (by omega)).symm]

/-- Writing the slot after a window makes it longer. -/
theorem window_push {len : Nat} (hlen : len < n) (a : α) :
    window (slots.set (offset i len) a) i (len + 1) = window slots i len ++ [a] := by
  rw [window_concat, window_set slots i hlen, get_set, if_pos rfl]

/-- The first slot of a window that is not empty. -/
theorem get_of_window {slots : Vector α n} {i : Fin n} {len : Nat} {a : α} {rest : List α}
    (h : window slots i len = a :: rest) :
    slots.get i = a ∧ window slots (next i) rest.length = rest := by
  have hlen := congrArg List.length h
  rw [length_window, List.length_cons] at hlen
  subst hlen
  rw [window_cons] at h
  exact List.cons.inj h

/-- A window that loses its first slot, and then gains one after its end. -/
theorem window_edge {slots : Vector α n} {rd wr : Fin n} {xs kept : List α} (push pop : Bool)
    (a : α)
    (hwindow : window slots rd xs.length = xs) (hwr : wr = offset rd xs.length)
    (hpop : pop = true → xs ≠ []) (hkept : kept = if pop then xs.tail else xs)
    (hroom : push = true → kept.length < n) :
    window (if push then slots.set wr a else slots) (if pop then next rd else rd)
        (kept ++ if push then [a] else []).length = kept ++ (if push then [a] else []) ∧
    (if push then next wr else wr) =
      offset (if pop then next rd else rd) (kept ++ if push then [a] else []).length := by
  have hfirst : window slots (if pop then next rd else rd) kept.length = kept ∧
      wr = offset (if pop then next rd else rd) kept.length := by
    cases pop with
    | false =>
      subst hkept
      exact ⟨hwindow, hwr⟩
    | true =>
      cases xs with
      | nil => exact (hpop rfl rfl).elim
      | cons x rest =>
        rw [hkept, hwr]
        exact ⟨(get_of_window hwindow).2, (offset_next rd rest.length).symm⟩
  obtain ⟨hwindow', hwr'⟩ := hfirst
  generalize (if pop then next rd else rd) = start at hwindow' hwr'
  cases push with
  | false =>
    rw [if_neg Bool.false_ne_true, if_neg Bool.false_ne_true, if_neg Bool.false_ne_true,
      List.append_nil]
    exact ⟨hwindow', hwr'⟩
  | true =>
    subst hwr'
    rw [if_pos rfl, if_pos rfl, if_pos rfl, List.length_append, List.length_singleton,
      window_push slots start (hroom rfl), hwindow', next_offset]
    exact ⟨rfl, rfl⟩

end PyCircuit.Lib.Ring
