import Mathlib.Data.List.Forall2
import Mathlib.Algebra.Ring.Nat

/-!
# Row-major ordinals

The elements of an array of any rank in one row: the last coordinate varies fastest. A shape is the
list of its extents.
-/

set_option autoImplicit false

namespace PyCircuit.Lib.RowMajor

/-- The number of elements. -/
def size : List Nat → Nat
  | [] => 1
  | extent :: shape => extent * size shape

/-- The ordinal of some coordinates. -/
def ordinal : List Nat → List Nat → Nat
  | _ :: shape, c :: coords => c * size shape + ordinal shape coords
  | _, _ => 0

/-- The coordinates of an ordinal. -/
def coordinates : List Nat → Nat → List Nat
  | [], _ => []
  | _ :: shape, k => k / size shape :: coordinates shape (k % size shape)

/-- Coordinates below the extents. -/
def Within (coords shape : List Nat) : Prop := List.Forall₂ (· < ·) coords shape

variable {coords shape : List Nat} {e k : Nat}

theorem Within.getD_lt (h : Within coords shape)
    (hk : shape[k]? = some e) : coords.getD k 0 < e := by
  induction h generalizing k with
  | nil => cases hk
  | cons hc _ ih =>
    cases k with
    | zero =>
      cases hk
      exact hc
    | succ k => exact ih hk

theorem Within.set (h : Within coords shape) {c : Nat}
    (hk : shape[k]? = some e) (hc : c < e) : Within (coords.set k c) shape := by
  induction h generalizing k with
  | nil => exact .nil
  | cons hfirst hrest ih =>
    cases k with
    | zero =>
      cases hk
      exact .cons hc hrest
    | succ k => exact .cons hfirst (ih hk)

theorem Within.length_eq (h : Within coords shape) :
    coords.length = shape.length := List.Forall₂.length_eq h

theorem size_pos (h : ∀ e ∈ shape, 0 < e) : 0 < size shape := by
  induction shape with
  | nil => exact Nat.one_pos
  | cons e shape ih =>
    rw [List.forall_mem_cons] at h
    exact Nat.mul_pos h.1 (ih h.2)

/-- A row of the first axis has its own range of ordinals. -/
theorem mul_add_lt {c n : Nat} (hc : c < e) (hk : k < n) : c * n + k < e * n := by
  have hrow := Nat.mul_le_mul_right n (Nat.succ_le_of_lt hc)
  rw [Nat.succ_mul] at hrow
  omega

theorem ordinal_lt (h : Within coords shape) :
    ordinal shape coords < size shape := by
  induction h with
  | nil => exact Nat.one_pos
  | cons hc _ ih => exact mul_add_lt hc ih

theorem coordinates_within (h : k < size shape) :
    Within (coordinates shape k) shape := by
  induction shape generalizing k with
  | nil => exact .nil
  | cons e shape ih =>
    have hpos : 0 < size shape := Nat.pos_of_lt_mul_left h
    exact .cons ((Nat.div_lt_iff_lt_mul hpos).mpr h) (ih (Nat.mod_lt k hpos))

theorem ordinal_coordinates (h : k < size shape) :
    ordinal shape (coordinates shape k) = k := by
  induction shape generalizing k with
  | nil => exact (Nat.lt_one_iff.mp h).symm
  | cons e shape ih =>
    have hpos : 0 < size shape := Nat.pos_of_lt_mul_left h
    rw [coordinates, ordinal, ih (Nat.mod_lt k hpos)]
    exact Nat.div_add_mod' k _

theorem coordinates_ordinal (h : Within coords shape) :
    coordinates shape (ordinal shape coords) = coords := by
  induction h with
  | nil => rfl
  | cons _ hrest ih =>
    have hlt := ordinal_lt hrest
    rw [ordinal, coordinates, Nat.mul_comm, Nat.mul_add_div (Nat.zero_lt_of_lt hlt),
      Nat.mul_add_mod, Nat.div_eq_of_lt hlt, Nat.mod_eq_of_lt hlt, Nat.add_zero, ih]

/-- Coordinates below the extents are determined by their ordinal. -/
theorem ordinal_injective {a b : List Nat} (ha : Within a shape) (hb : Within b shape)
    (h : ordinal shape a = ordinal shape b) : a = b := by
  rw [← coordinates_ordinal ha, h, coordinates_ordinal hb]

/-! ## The distance of neighbours along each axis -/

/-- How far apart two neighbours along each axis are. -/
def strides : List Nat → List Nat
  | [] => []
  | _ :: shape => size shape :: strides shape

/-- The ordinal is the sum of the coordinates, each times the distance along its axis. -/
theorem sum_strides (h : coords.length = shape.length) :
    (coords.zipWith (· * ·) (strides shape)).sum = ordinal shape coords := by
  induction shape generalizing coords with
  | nil =>
    cases coords with
    | nil => rfl
    | cons => cases h
  | cons e shape ih =>
    cases coords with
    | nil => cases h
    | cons c coords =>
      rw [strides, List.zipWith_cons_cons, List.sum_cons, ih (Nat.succ.inj h), ordinal]

theorem div_mod_strides (shape : List Nat) (k : Nat) :
    (strides shape).zipWith (fun stride extent => k / stride % extent) shape =
      coordinates shape (k % size shape) := by
  induction shape with
  | nil => rfl
  | cons e shape ih =>
    rw [strides, List.zipWith_cons_cons, ih, coordinates, size, Nat.mod_mul_left_div_self,
      Nat.mod_mul_left_mod]

theorem strides_get {axis : Nat} (h : axis < shape.length) :
    (strides shape)[axis]? = some (size (shape.drop (axis + 1))) := by
  induction shape generalizing axis with
  | nil => cases h
  | cons e shape ih =>
    cases axis with
    | zero => rfl
    | succ axis => exact ih (Nat.lt_of_succ_lt_succ h)

/-- One coordinate of an ordinal. -/
theorem coordinates_getD {axis : Nat} (h : k < size shape)
    (haxis : shape[axis]? = some e) :
    (coordinates shape k).getD axis 0 = k / size (shape.drop (axis + 1)) % e := by
  obtain ⟨hlt, _⟩ := List.getElem?_eq_some_iff.mp haxis
  have hlist := div_mod_strides shape k
  rw [Nat.mod_eq_of_lt h] at hlist
  rw [← hlist, List.getD_eq_getElem?_getD, List.getElem?_zipWith, strides_get hlt, haxis]
  rfl

end PyCircuit.Lib.RowMajor
