import PyCircuit.Lib.Bus

/-!
# Slices of buses

Reading and driving a slice of a bus, and the bus that carries the elements of a table. The element
of ordinal zero is the most significant one.
-/

set_option autoImplicit false

namespace PyCircuit.Lib.Bus

variable {m n w : Nat}

/-- Wires that nothing drives. -/
def undriven : Bus n := fun _ => .z

/-- The slice of `w` wires from `low` on; what lies outside the bus is unknown. -/
def slice (b : Bus m) (low w : Nat) : Bus w :=
  fun i => if h : low + i.val < m then b ⟨low + i.val, h⟩ else .x

/-- One wire of the bus. -/
def wireAt (b : Bus m) (k : Nat) : Logic := if h : k < m then b ⟨k, h⟩ else .x

/-- The bus with the slice from `low` on replaced. -/
def setSlice (b : Bus m) (low : Nat) (v : Bus w) : Bus m :=
  fun i => if h : low ≤ i.val ∧ i.val - low < w then v ⟨i.val - low, h.2⟩ else b i

theorem wireAt_of_lt (b : Bus m) {k : Nat} (h : k < m) : b.wireAt k = b ⟨k, h⟩ := dif_pos h

theorem slice_one (b : Bus m) (k : Nat) : b.slice k 1 = fun _ => b.wireAt k := by
  funext i
  obtain rfl : i = ⟨0, Nat.one_pos⟩ := Subsingleton.elim _ _
  rfl

theorem slice_setSlice {low : Nat} (h : low + w ≤ m) (b : Bus m) (v : Bus w) :
    (b.setSlice low v).slice low w = v := by
  funext i
  have hlt : low + i.val < m := by omega
  have hin : low ≤ low + i.val ∧ low + i.val - low < w := by omega
  rw [slice, dif_pos hlt, setSlice, dif_pos hin]
  congr 1
  exact Fin.ext (Nat.add_sub_cancel_left ..)

theorem slice_setSlice_of_disjoint {low other u : Nat} (h : other + u ≤ low ∨ low + w ≤ other)
    (b : Bus m) (v : Bus w) : (b.setSlice low v).slice other u = b.slice other u := by
  funext i
  rw [slice, slice]
  by_cases hlt : other + i.val < m
  · have hout : ¬ (low ≤ other + i.val ∧ other + i.val - low < w) := by omega
    rw [dif_pos hlt, dif_pos hlt, setSlice, dif_neg hout]
  · rw [dif_neg hlt, dif_neg hlt]

/-! ## Tables -/

/-- The low end of an element. -/
def elementLow (n w i : Nat) : Nat := (n - 1 - i) * w

theorem elementLow_le {i : Nat} (h : i < n) : elementLow n w i + w ≤ n * w := by
  have hle : n - 1 - i + 1 ≤ n := by omega
  have hmul := Nat.mul_le_mul_right w hle
  rwa [Nat.add_mul, Nat.one_mul] at hmul

theorem elementLow_disjoint {i j : Nat} (hi : i < n) (hj : j < n) (h : i ≠ j) :
    elementLow n w i + w ≤ elementLow n w j ∨ elementLow n w j + w ≤ elementLow n w i := by
  have hstep : ∀ {a b : Nat}, a < b → a * w + w ≤ b * w := by
    intro a b hab
    have hmul := Nat.mul_le_mul_right w (Nat.succ_le_of_lt hab)
    rwa [Nat.succ_mul] at hmul
  rcases Nat.lt_or_gt_of_ne h with hlt | hgt
  · exact .inr (hstep (by omega))
  · exact .inl (hstep (by omega))

/-- The bus of a table. -/
def table (elements : Nat → Bus w) : Bus (n * w) :=
  fun k => elements (n - 1 - k.val / w) ⟨k.val % w, Nat.mod_lt _ (Nat.pos_of_lt_mul_left k.isLt)⟩

theorem slice_table {i : Nat} (h : i < n) (elements : Nat → Bus w) :
    (table elements : Bus (n * w)).slice (elementLow n w i) w = elements i := by
  funext k
  have hlt : elementLow n w i + k.val < n * w := by
    have hle := elementLow_le (w := w) h
    omega
  have hpos : 0 < w := k.pos
  have hdiv : (elementLow n w i + k.val) / w = n - 1 - i := by
    rw [elementLow, Nat.mul_comm, Nat.mul_add_div hpos, Nat.div_eq_of_lt k.isLt, Nat.add_zero]
  have hmod : (elementLow n w i + k.val) % w = k.val := by
    rw [elementLow, Nat.mul_comm, Nat.mul_add_mod, Nat.mod_eq_of_lt k.isLt]
  have hordinal : n - 1 - (n - 1 - i) = i := by omega
  rw [slice, dif_pos hlt, table]
  simp only [hdiv, hmod, hordinal]

end PyCircuit.Lib.Bus
