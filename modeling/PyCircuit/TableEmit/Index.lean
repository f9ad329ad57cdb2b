import PyCircuit.Gfsim.Returns
import PyCircuit.Lib.RowMajor
import Mathlib.Data.Nat.Log
import Mathlib.Data.Nat.Size

/-!
# The index of a table

The coordinates of a table are buses of arbitrary widths, one for every axis. The emitted index
compares every coordinate with its extent and adds the coordinates multiplied by their strides. The
two texts use different widths for the comparisons and for the sum; neither width loses a carry,
also for coordinates outside of the table.
-/

set_option autoImplicit false

namespace PyCircuit.TableEmit

open Lib Gfsim Gfsim.FourState RowMajor

/-- An axis of the shape with its coordinate. -/
structure Axis where
  extent : Nat
  width : Nat
  coord : FourState width

namespace Axis

/-- The number of a known coordinate. -/
def value (axis : Axis) : Nat := axis.coord.bus.value.toNat

def InRange (axis : Axis) : Prop := axis.value < axis.extent

instance (axis : Axis) : Decidable axis.InRange := Nat.decLt _ _

end Axis

def shape (axes : List Axis) : List Nat := axes.map Axis.extent

def values (axes : List Axis) : List Nat := axes.map Axis.value

/-- The number of elements, which marks an index out of range. -/
def count (axes : List Axis) : Nat := RowMajor.size (shape axes)

/-- The width that the verifier asks of the result. -/
def countWidth (n : Nat) : Nat := max 1 n.size

/-! ## The C++ text -/

/-- `1 * (extent) * ...` over the axes that follow. -/
def stride (rest : List Axis) : Nat := rest.foldl (fun product axis => product * axis.extent) 1

def sumWidthCpp (axis : Axis) (rest : List Axis) : Nat :=
  (rest.map Axis.width).foldl max axis.width + (count (axis :: rest)).size +
    (axis :: rest).length.size

/-- The comparison of a coordinate. -/
def inRangeCpp (axis : Axis) : Except String (FourState 1) := do
  let cw := max axis.width axis.extent.size
  compare .ult (← zeroExtendTo cw axis.coord) (← literal cw axis.extent)

/-- The summand of a coordinate. -/
def termCpp (sumWidth : Nat) (axis : Axis) (rest : List Axis) :
    Except String (FourState sumWidth) := do
  mul (← zeroExtendTo sumWidth axis.coord) (← literal sumWidth (stride rest))

/-- The statements for the axes, with `pyc_bounds` and `pyc_sum`. -/
def axesCpp (sumWidth : Nat) : List Axis → FourState 1 → FourState sumWidth →
    Except String (FourState 1 × FourState sumWidth)
  | [], bounds, sum => .ok (bounds, sum)
  | axis :: rest, bounds, sum => do
      let bounds ← bitAnd bounds (← inRangeCpp axis)
      let sum ← add sum (← termCpp sumWidth axis rest)
      axesCpp sumWidth rest bounds sum

/-- The C++ text for one instance. The rank of a table is positive. -/
def indexCpp (w : Nat) (axis : Axis) (rest : List Axis) : Except String (FourState w) := do
  let sumWidth := sumWidthCpp axis rest
  let result ← axesCpp sumWidth (axis :: rest) (← literal 1 1) (← literal sumWidth 0)
  select result.1 (← truncateTo w result.2) (← literal w (count (axis :: rest)))

/-! ## The Verilog text -/

def sumWidthVerilog (axes : List Axis) : Nat := 64 + (axes.map Axis.width).sum

def compareWidth (axis : Axis) : Nat :=
  let boundWidth := Nat.clog 2 (axis.extent + 1)
  if axis.width > boundWidth then axis.width else boundWidth

/-- The conjunction, the sum and the stride after the axes, of which the last is the first. -/
def axesVerilog (sumWidth : Nat) : List Axis → Logic × Bus sumWidth × Nat
  | [] => (.one, Bus.ofBitVec (.ofNat sumWidth 0), 1)
  | axis :: rest =>
    let previous := axesVerilog sumWidth rest
    let cw := compareWidth axis
    (previous.1.and (Bus.ordered (fun v u => v.ult u) (axis.coord.bus.resize cw)
      (Bus.ofBitVec (.ofNat cw axis.extent))),
    Bus.strict (· + ·) previous.2.1 (Bus.strict (· * ·) (axis.coord.bus.resize sumWidth)
      (Bus.ofBitVec (.ofNat sumWidth previous.2.2))),
    previous.2.2 * axis.extent)

/-- The Verilog text. -/
def indexVerilog (w : Nat) (axes : List Axis) : Bus w :=
  let result := axesVerilog (sumWidthVerilog axes) axes
  Bus.conditional result.1 (result.2.1.resize w) (Bus.ofBitVec (.ofNat w (count axes)))

/-! ## The specification -/

/-- The row-major ordinal of coordinates in range, and the number of elements otherwise. -/
def expectedIndex (axes : List Axis) : Nat :=
  if ∀ axis ∈ axes, axis.InRange then RowMajor.ordinal (shape axes) (values axes) else count axes

/-! ## Strides and widths -/

theorem stride_eq (rest : List Axis) : stride rest = count rest := by
  have hfold : ∀ (list : List Axis) (k : Nat),
      list.foldl (fun product axis => product * axis.extent) k = k * count list := by
    intro list
    induction list with
    | nil => exact fun k => (Nat.mul_one k).symm
    | cons axis list ih =>
      intro k
      rw [List.foldl_cons, ih, Nat.mul_assoc]
      rfl
  rw [stride, hfold, Nat.one_mul]

variable {axes rest : List Axis} {axis : Axis} {sumWidth : Nat}

theorem count_pos (h : ∀ axis ∈ axes, 0 < axis.extent) : 0 < count axes :=
  size_pos (List.forall_mem_map.mpr h)

section Bounds

variable {axis : Axis} {rest : List Axis} (h : ∀ a ∈ axis :: rest, 0 < a.extent)
include h

theorem extent_le_count : axis.extent ≤ count (axis :: rest) :=
  Nat.le_mul_of_pos_right _ (count_pos (List.forall_mem_cons.mp h).2)

theorem count_rest_le : count rest ≤ count (axis :: rest) :=
  Nat.le_mul_of_pos_left _ (List.forall_mem_cons.mp h).1

end Bounds

/-- With every coordinate below a bound, the sum is at most the rank times the bound times the
number of elements. -/
theorem ordinal_le (h : ∀ axis ∈ axes, 0 < axis.extent) {b : Nat}
    (hb : ∀ axis ∈ axes, axis.value ≤ b) :
    ordinal (shape axes) (values axes) ≤ axes.length * (b * count axes) := by
  induction axes with
  | nil => exact Nat.zero_le _
  | cons axis rest ih =>
    have hrest := ih (List.forall_mem_cons.mp h).2 (List.forall_mem_cons.mp hb).2
    have hterm : axis.value * count rest ≤ b * count (axis :: rest) :=
      Nat.mul_le_mul (List.forall_mem_cons.mp hb).1 (count_rest_le h)
    have hcount : rest.length * (b * count rest) ≤ rest.length * (b * count (axis :: rest)) :=
      Nat.mul_le_mul_left _ (Nat.mul_le_mul_left _ (count_rest_le h))
    rw [List.length_cons, Nat.succ_mul]
    calc ordinal (shape (axis :: rest)) (values (axis :: rest))
        = axis.value * count rest + ordinal (shape rest) (values rest) := rfl
      _ ≤ b * count (axis :: rest) + rest.length * (b * count (axis :: rest)) :=
          Nat.add_le_add hterm (hrest.trans hcount)
      _ = _ := Nat.add_comm ..

theorem value_lt (axis : Axis) : axis.value < 2 ^ axis.width := axis.coord.bus.value.isLt

theorem le_foldl_max {list : List Nat} {k j : Nat} (h : k ≤ j ∨ k ∈ list) :
    k ≤ list.foldl max j := by
  induction list generalizing j with
  | nil => simpa using h
  | cons e list ih =>
    apply ih
    rcases h with h | h
    · exact .inl (h.trans (Nat.le_max_left ..))
    · rcases List.mem_cons.mp h with rfl | h
      · exact .inl (Nat.le_max_right ..)
      · exact .inr h

/-- The sum fits into its width in the C++ text, also out of range. -/
theorem sum_lt_cpp (h : ∀ a ∈ axis :: rest, 0 < a.extent) :
    ordinal (shape (axis :: rest)) (values (axis :: rest)) <
      2 ^ sumWidthCpp axis rest := by
  let m := (rest.map Axis.width).foldl max axis.width
  have hwidth : ∀ a ∈ axis :: rest, a.width ≤ m := by
    intro a ha
    apply le_foldl_max
    rcases List.mem_cons.mp ha with rfl | ha
    · exact .inl le_rfl
    · exact .inr (List.mem_map_of_mem ha)
  have hvalue : ∀ a ∈ axis :: rest, a.value ≤ 2 ^ m := by
    intro a ha
    exact (value_lt a).le.trans (Nat.pow_le_pow_right (by decide) (hwidth a ha))
  have hlength := Nat.lt_size_self (axis :: rest).length
  have hcount := Nat.lt_size_self (count (axis :: rest))
  calc ordinal (shape (axis :: rest)) (values (axis :: rest))
      ≤ (axis :: rest).length * (2 ^ m * count (axis :: rest)) := ordinal_le h hvalue
    _ < 2 ^ (axis :: rest).length.size * (2 ^ m * 2 ^ (count (axis :: rest)).size) := by
        apply Nat.mul_lt_mul_of_lt_of_le hlength
        · exact Nat.mul_le_mul_left _ hcount.le
        · exact Nat.mul_pos (Nat.two_pow_pos _) (Nat.two_pow_pos _)
    _ = 2 ^ sumWidthCpp axis rest := by
        rw [← Nat.pow_add, ← Nat.pow_add, Nat.add_comm, sumWidthCpp]

theorem add_le_mul_add_one {a b : Nat} (ha : 0 < a) (hb : 0 < b) : a + b ≤ a * b + 1 := by
  obtain ⟨c, rfl⟩ := Nat.exists_eq_add_of_lt ha
  obtain ⟨d, rfl⟩ := Nat.exists_eq_add_of_lt hb
  have hexpand : (0 + c + 1) * (0 + d + 1) = c * d + c + d + 1 := by ring
  have := Nat.zero_le (c * d)
  omega

/-- The sum and the number of elements together are at most the number of elements times the number
of all coordinates. -/
theorem ordinal_add_count_le (h : ∀ axis ∈ axes, 0 < axis.extent) :
    ordinal (shape axes) (values axes) + count axes ≤
      count axes * 2 ^ (axes.map Axis.width).sum := by
  induction axes with
  | nil => exact le_rfl
  | cons axis rest ih =>
    have hrest := ih (List.forall_mem_cons.mp h).2
    obtain ⟨more, hmore⟩ := Nat.exists_eq_add_of_le (count_rest_le h)
    have hvalue := Nat.mul_le_mul_right (count rest) (Nat.succ_le_of_lt (value_lt axis))
    rw [Nat.succ_mul] at hvalue
    have hsplit : ordinal (shape (axis :: rest)) (values (axis :: rest)) =
        axis.value * count rest + ordinal (shape rest) (values rest) := rfl
    have hpow := add_le_mul_add_one (Nat.two_pow_pos axis.width)
      (Nat.two_pow_pos (rest.map Axis.width).sum)
    have hone : 1 ≤ 2 ^ axis.width * 2 ^ (rest.map Axis.width).sum :=
      Nat.mul_pos (Nat.two_pow_pos _) (Nat.two_pow_pos _)
    rw [List.map_cons, List.sum_cons, Nat.pow_add, hsplit, hmore]
    generalize 2 ^ axis.width = a at hvalue hpow hone ⊢
    generalize 2 ^ (rest.map Axis.width).sum = b at hrest hpow hone ⊢
    have hrow := Nat.mul_le_mul_left (count rest) hpow
    have hmoreRow := Nat.mul_le_mul_left more hone
    rw [Nat.mul_add, Nat.mul_add, Nat.mul_one] at hrow
    rw [Nat.add_mul]
    rw [Nat.mul_comm a] at hvalue
    omega

/-- The sum fits into its width in the Verilog text, also out of range. -/
theorem sum_lt_verilog (h : ∀ axis ∈ axes, 0 < axis.extent)
    (hcount : count axes < 2 ^ 31) :
    ordinal (shape axes) (values axes) < 2 ^ sumWidthVerilog axes := by
  have hsum := ordinal_add_count_le h
  have hpos := count_pos h
  have hwide : count axes * 2 ^ (axes.map Axis.width).sum ≤ 2 ^ sumWidthVerilog axes := by
    rw [sumWidthVerilog, Nat.pow_add]
    exact Nat.mul_le_mul_right _ (hcount.le.trans (by decide))
  omega

/-! ## The C++ text at known coordinates -/

theorem coord_eq (h : axis.coord.bus.Known) :
    axis.coord.bus = Bus.ofBitVec axis.coord.bus.value := (Bus.ofBitVec_value h).symm

theorem resize_coord (h : axis.coord.bus.Known) (m : Nat) :
    axis.coord.bus.resize m = Bus.ofBitVec (.ofNat m axis.value) := by
  rw [coord_eq h, Bus.resize_ofBitVec, Axis.value, BitVec.ofNat_toNat]

/-- A comparison in a width that holds the coordinate and the extent. -/
theorem ult_ofNat {cw : Nat} (hw : axis.width ≤ cw) (he : axis.extent < 2 ^ cw) :
    (BitVec.ofNat cw axis.value).ult (BitVec.ofNat cw axis.extent) = decide axis.InRange := by
  have hvalue := (value_lt axis).trans_le (Nat.pow_le_pow_right (by decide) hw)
  rw [BitVec.ult_eq_decide, BitVec.toNat_ofNat, BitVec.toNat_ofNat, Nat.mod_eq_of_lt hvalue,
    Nat.mod_eq_of_lt he]
  rfl

theorem inRangeCpp_returns (h : axis.coord.bus.Known) (he : axis.extent < 2 ^ 64) :
    Returns (inRangeCpp axis) (Bus.wire (.ofBool (decide axis.InRange))) := by
  have hwidth : axis.width ≤ max axis.width axis.extent.size := Nat.le_max_left ..
  have hpos := axis.coord.value.positive.trans_le hwidth
  have hextent : axis.extent < 2 ^ max axis.width axis.extent.size :=
    (Nat.lt_size_self _).trans_le (Nat.pow_le_pow_right (by decide) (Nat.le_max_right ..))
  refine (zeroExtendTo_bus hwidth axis.coord).bind fun coord hcoord => ?_
  refine (literal_returns hpos he).bind fun extent hbound => ?_
  have hordered : ComparePredicate.ult.Ordered := ⟨by decide, by decide, by decide⟩
  have hcompare := compare_ordered_bus hordered coord extent
  rw [hcoord, hbound, resize_coord h, Bus.ordered_ofBitVec] at hcompare
  rw [← ult_ofNat hwidth hextent]
  exact hcompare

theorem termCpp_returns
    (h : axis.coord.bus.Known) (hwidth : axis.width ≤ sumWidth) (hcount : count rest < 2 ^ 64) :
    Returns (termCpp sumWidth axis rest)
      (Bus.ofBitVec (.ofNat sumWidth (axis.value * count rest))) := by
  have hpos := axis.coord.value.positive.trans_le hwidth
  rw [← stride_eq] at hcount
  refine (zeroExtendTo_bus hwidth axis.coord).bind fun coord hcoord => ?_
  refine (literal_returns hpos hcount).bind fun factor hfactor => ?_
  have hmul := mul_bus coord factor
  rw [hcoord, hfactor, resize_coord h, Bus.strict_ofBitVec, ← BitVec.ofNat_mul,
    stride_eq] at hmul
  exact hmul

/-- The statements for some axes continue the conjunction and the sum. -/
theorem axesCpp_eq (hknown : ∀ a ∈ axes, a.coord.bus.Known)
    (hwidth : ∀ a ∈ axes, a.width ≤ sumWidth) (hextent : ∀ a ∈ axes, 0 < a.extent)
    (hcount : count axes < 2 ^ 64) {bounds : FourState 1} {sum : FourState sumWidth} {p : Bool}
    {total : Nat} (hbounds : bounds.bus = Bus.wire (.ofBool p))
    (hsum : sum.bus = Bus.ofBitVec (.ofNat sumWidth total)) :
    ∃ result, axesCpp sumWidth axes bounds sum = .ok result ∧
      result.1.bus = Bus.wire (.ofBool (p && decide (∀ a ∈ axes, a.InRange))) ∧
      result.2.bus = Bus.ofBitVec (.ofNat sumWidth
        (total + ordinal (shape axes) (values axes))) := by
  induction axes generalizing bounds sum p total with
  | nil =>
    refine ⟨(bounds, sum), rfl, ?_, hsum⟩
    rw [hbounds]
    simp
  | cons axis rest ih =>
    obtain ⟨hk, hkrest⟩ := List.forall_mem_cons.mp hknown
    obtain ⟨hw, hwrest⟩ := List.forall_mem_cons.mp hwidth
    obtain ⟨-, herest⟩ := List.forall_mem_cons.mp hextent
    have hcrest := (count_rest_le hextent).trans_lt hcount
    obtain ⟨range, hrange, hrangeBus⟩ :=
      inRangeCpp_returns hk ((extent_le_count hextent).trans_lt hcount)
    obtain ⟨term, hterm, htermBus⟩ := termCpp_returns hk hw hcrest
    obtain ⟨bounds', hand, handBus⟩ := bitAnd_returns bounds range
    obtain ⟨sum', hadd, haddBus⟩ := add_bus sum term
    rw [hbounds, hrangeBus] at handBus
    rw [hsum, htermBus, Bus.strict_ofBitVec, ← BitVec.ofNat_add] at haddBus
    have hwire : bounds'.bus = Bus.wire (.ofBool (p && decide axis.InRange)) := by
      rw [handBus]
      funext i
      exact Logic.and_ofBool _ _
    obtain ⟨result, hrun, hfirst, hsecond⟩ := ih hkrest hwrest herest hcrest hwire haddBus
    refine ⟨result, ?_, ?_, ?_⟩
    · simp only [axesCpp, hrange, hterm, hand, hadd, Fallible.ok_bind]
      exact hrun
    · rw [hfirst]
      simp [Bool.and_assoc]
    · rw [hsecond, Nat.add_assoc]
      rfl

theorem width_le_sumWidthCpp :
    ∀ a ∈ axis :: rest, a.width ≤ sumWidthCpp axis rest := by
  intro a ha
  have hmax : a.width ≤ (rest.map Axis.width).foldl max axis.width := by
    apply le_foldl_max
    rcases List.mem_cons.mp ha with rfl | ha
    · exact .inl le_rfl
    · exact .inr (List.mem_map_of_mem ha)
  rw [sumWidthCpp]
  omega

/-- The ordinal in range, and otherwise the number of elements, in the width of the result. -/
theorem ofBitVec_expectedIndex (w : Nat) (axes : List Axis) :
    (if decide (∀ a ∈ axes, a.InRange) then
      Bus.ofBitVec (.ofNat w (ordinal (shape axes) (values axes)))
    else Bus.ofBitVec (.ofNat w (count axes))) = Bus.ofBitVec (.ofNat w (expectedIndex axes)) := by
  rw [expectedIndex]
  by_cases h : ∀ a ∈ axes, a.InRange
  · rw [if_pos h, if_pos (decide_eq_true h)]
  · rw [if_neg h, if_neg (by rwa [decide_eq_true_eq])]

theorem indexCpp_returns {w : Nat}
    (hknown : ∀ a ∈ axis :: rest, a.coord.bus.Known) (hextent : ∀ a ∈ axis :: rest, 0 < a.extent)
    (hcount : count (axis :: rest) < 2 ^ 64) (hpos : 0 < w) (hw : w ≤ sumWidthCpp axis rest) :
    Returns (indexCpp w axis rest) (Bus.ofBitVec (.ofNat w (expectedIndex (axis :: rest)))) := by
  have hwide := hpos.trans_le hw
  refine (literal_returns Nat.one_pos (k := 1) (by decide)).bind fun bounds hbounds => ?_
  refine (literal_returns hwide (k := 0) (by decide)).bind fun sum hsum => ?_
  have hwire : bounds.bus = Bus.wire (.ofBool true) := by
    rw [hbounds]
    funext i
    obtain rfl : i = 0 := Subsingleton.elim i 0
    rfl
  obtain ⟨result, hrun, hfirst, hsecond⟩ :=
    axesCpp_eq hknown width_le_sumWidthCpp hextent hcount hwire hsum
  rw [hrun, Fallible.ok_bind]
  refine (truncateTo_bus hpos hw result.2).bind fun inside hinside => ?_
  refine (literal_returns hpos hcount).bind fun outside houtside => ?_
  have hselect := select_returns result.1 inside outside
  have hnarrow : ((Bus.ofBitVec (.ofNat (sumWidthCpp axis rest) (0 + ordinal
      (shape (axis :: rest)) (values (axis :: rest))))).resize w : Bus w) =
      Bus.ofBitVec (.ofNat w (ordinal (shape (axis :: rest)) (values (axis :: rest)))) := by
    rw [Bus.resize_ofBitVec, Nat.zero_add, BitVec.setWidth_ofNat_of_le hw]
  rw [hfirst, hinside, houtside, hsecond, hnarrow, Bool.true_and, Bus.wire, Bus.select_ofBool,
    ofBitVec_expectedIndex] at hselect
  exact hselect

/-! ## The Verilog text at known coordinates -/

theorem width_le_compareWidth (axis : Axis) :
    axis.width ≤ compareWidth axis ∧ axis.extent < 2 ^ compareWidth axis := by
  have hclog : axis.extent + 1 ≤ 2 ^ Nat.clog 2 (axis.extent + 1) := Nat.le_pow_clog (by decide) _
  rw [compareWidth]
  split_ifs with h
  · have hpow := Nat.pow_lt_pow_right (a := 2) (by decide) h
    omega
  · omega

theorem axesVerilog_eq (hknown : ∀ a ∈ axes, a.coord.bus.Known) :
    axesVerilog sumWidth axes = (.ofBool (decide (∀ a ∈ axes, a.InRange)),
      Bus.ofBitVec (.ofNat sumWidth (ordinal (shape axes) (values axes))),
      count axes) := by
  induction axes with
  | nil => rfl
  | cons axis rest ih =>
    obtain ⟨hk, hkrest⟩ := List.forall_mem_cons.mp hknown
    obtain ⟨hw, he⟩ := width_le_compareWidth axis
    rw [axesVerilog, ih hkrest]
    simp only [resize_coord hk, Bus.ordered_ofBitVec, Bus.strict_ofBitVec, ult_ofNat hw he,
      Logic.and_ofBool, ← BitVec.ofNat_mul, ← BitVec.ofNat_add]
    refine Prod.ext ?_ (Prod.ext ?_ (Nat.mul_comm ..))
    · simp [Bool.and_comm]
    · rw [Nat.add_comm]
      rfl

theorem indexVerilog_eq {w : Nat} (hknown : ∀ a ∈ axes, a.coord.bus.Known)
    (hextent : ∀ a ∈ axes, 0 < a.extent) (hcount : count axes < 2 ^ 31) :
    indexVerilog w axes = Bus.ofBitVec (.ofNat w (expectedIndex axes)) := by
  have hfits := sum_lt_verilog hextent hcount
  rw [indexVerilog, axesVerilog_eq hknown]
  rw [Bus.conditional_ofBool, Bus.resize_ofBitVec, ← ofBitVec_expectedIndex,
    ← BitVec.ofNat_toNat, BitVec.toNat_ofNat, Nat.mod_eq_of_lt hfits]

/-! ## Exactness -/

theorem within_of_inRange (h : ∀ a ∈ axes, a.InRange) :
    Within (values axes) (shape axes) := by
  induction axes with
  | nil => exact .nil
  | cons axis rest ih =>
    obtain ⟨ha, hrest⟩ := List.forall_mem_cons.mp h
    exact .cons ha (ih hrest)

theorem expectedIndex_le (axes : List Axis) : expectedIndex axes ≤ count axes := by
  rw [expectedIndex]
  split_ifs with h
  · exact (ordinal_lt (within_of_inRange h)).le
  · exact le_rfl

/-- At known coordinates of any widths both texts give the row-major ordinal in range and the number
of elements otherwise, in every width that holds the number of elements; the C++ text needs a width
that its truncation accepts, which the width of the verifier is. No carry of the sum is lost, in
range or not, and in range the ordinal determines the coordinates. -/
theorem index_exact (axis : Axis) (rest : List Axis)
    (hextent : ∀ a ∈ axis :: rest, 0 < a.extent) (hcount : count (axis :: rest) < 2 ^ 31)
    (hknown : ∀ a ∈ axis :: rest, a.coord.bus.Known) {w : Nat}
    (hw : count (axis :: rest) < 2 ^ w) :
    (w ≤ sumWidthCpp axis rest →
      Returns (indexCpp w axis rest) (Bus.ofBitVec (.ofNat w (expectedIndex (axis :: rest))))) ∧
    indexVerilog w (axis :: rest) = Bus.ofBitVec (.ofNat w (expectedIndex (axis :: rest))) ∧
    (BitVec.ofNat w (expectedIndex (axis :: rest))).toNat = expectedIndex (axis :: rest) ∧
    (count (axis :: rest) < 2 ^ countWidth (count (axis :: rest)) ∧
      countWidth (count (axis :: rest)) ≤ sumWidthCpp axis rest) ∧
    ordinal (shape (axis :: rest)) (values (axis :: rest)) < 2 ^ sumWidthCpp axis rest ∧
    ordinal (shape (axis :: rest)) (values (axis :: rest)) <
      2 ^ sumWidthVerilog (axis :: rest) ∧
    ((∀ a ∈ axis :: rest, a.InRange) → ∀ others : List Axis,
      shape others = shape (axis :: rest) → (∀ a ∈ others, a.InRange) →
      expectedIndex others = expectedIndex (axis :: rest) →
      values others = values (axis :: rest)) := by
  have hpositive := count_pos hextent
  have hpos : 0 < w := by
    rcases Nat.eq_zero_or_pos w with rfl | hpos
    · omega
    · exact hpos
  have hword : count (axis :: rest) < 2 ^ 64 := hcount.trans (by decide)
  refine ⟨indexCpp_returns hknown hextent hword hpos, indexVerilog_eq hknown hextent hcount, ?_,
    ⟨?_, ?_⟩, sum_lt_cpp hextent, sum_lt_verilog hextent hcount, ?_⟩
  · rw [BitVec.toNat_ofNat, Nat.mod_eq_of_lt ((expectedIndex_le _).trans_lt hw)]
  · exact (Nat.lt_size_self _).trans_le (Nat.pow_le_pow_right (by decide) (Nat.le_max_right ..))
  · have hsize : 0 < (count (axis :: rest)).size := Nat.size_pos.mpr hpositive
    rw [countWidth, sumWidthCpp]
    omega
  · intro hin others hshape hothers heq
    rw [expectedIndex, expectedIndex, if_pos hin, if_pos hothers, hshape] at heq
    exact ordinal_injective (hshape ▸ within_of_inRange hothers) (within_of_inRange hin)
      heq

theorem value_eq (axis : Axis) {v : BitVec axis.width} (h : axis.coord.bus = Bus.ofBitVec v) :
    axis.value = v.toNat := by
  have hknown : axis.coord.bus.Known := h ▸ Bus.known_ofBitVec v
  rw [Axis.value, Bus.ofBitVec_inj ((coord_eq hknown).symm.trans h)]

theorem index_exact_lastOfSix : ∃ row column : FourState 4,
    Returns (indexCpp 3 ⟨2, 4, row⟩ [⟨3, 4, column⟩]) (Bus.ofBitVec 5#3) ∧
      indexVerilog 3 [⟨2, 4, row⟩, ⟨3, 4, column⟩] = Bus.ofBitVec 5#3 := by
  obtain ⟨row, -, hrow⟩ := literal_returns (show 0 < 4 by decide) (k := 1) (by decide)
  obtain ⟨column, -, hcolumn⟩ := literal_returns (show 0 < 4 by decide) (k := 2) (by decide)
  have hknown : ∀ a ∈ [(⟨2, 4, row⟩ : Axis), ⟨3, 4, column⟩], a.coord.bus.Known := by
    simp only [List.forall_mem_cons, hrow, hcolumn]
    exact ⟨Bus.known_ofBitVec _, Bus.known_ofBitVec _, by simp⟩
  have hindex : expectedIndex [⟨2, 4, row⟩, ⟨3, 4, column⟩] = 5 := by
    have hfirst : (⟨2, 4, row⟩ : Axis).value = 1 :=
      (value_eq ⟨2, 4, row⟩ hrow).trans rfl
    have hsecond : (⟨3, 4, column⟩ : Axis).value = 2 :=
      (value_eq ⟨3, 4, column⟩ hcolumn).trans rfl
    simp [expectedIndex, Axis.InRange, hfirst, hsecond, shape, values, ordinal,
      size]
  obtain ⟨hcpp, hverilog, -⟩ := index_exact ⟨2, 4, row⟩ [⟨3, 4, column⟩]
    (by simp) (show 2 * (3 * 1) < 2 ^ 31 by decide) hknown (show 2 * (3 * 1) < 2 ^ 3 by decide)
  rw [hindex] at hcpp hverilog
  have hwidth : 3 ≤ max 4 4 + (2 * (3 * 1)).size + Nat.size 2 := by decide
  exact ⟨row, column, hcpp hwidth, hverilog⟩

end PyCircuit.TableEmit
