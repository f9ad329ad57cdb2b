import PyCircuit.Gfsim.Abstraction
import PyCircuit.Lib.BusSlice

/-!
# The runtime operators as operators of buses

Every operator of `four_state.h` that the generated code calls returns the bus that the operator of
buses gives. A sequence of calls returns what the operators give one after the other.
-/

set_option autoImplicit false

namespace PyCircuit.Gfsim.FourState

open PyCircuit.Lib

variable {width : Nat}

theorem Returns.bind {w v : Nat} {out : Except String (FourState w)} {b : Bus w}
    {f : FourState w → Except String (FourState v)} {c : Bus v} (h : Returns out b)
    (hf : ∀ x, x.bus = b → Returns (f x) c) : Returns (out >>= f) c := by
  obtain ⟨x, rfl, hx⟩ := h
  exact hf x hx

theorem toBitVec?_bus (v : FourState width) :
    v.bus.toBitVec? = if v.isFullyKnown then some v.value.toBitVec else none := by
  split_ifs with h
  · exact Bus.toBitVec?_eq_some.mpr ((isFullyKnown_iff v).mp h)
  · obtain ⟨i, hi⟩ := exists_not_known (x := v) (y := v) (by simpa using h)
    rw [Bus.toBitVec?_eq_none]
    exact fun hknown => hi.elim (fun hx => hx (hknown i)) fun hy => hy (hknown i)

/-! ## Bitwise operators and arithmetic -/

variable {outWidth : Nat} (hpos : 0 < outWidth) (x y : FourState width)

theorem strict_bus {f : Bits width → Bits width → Bits width}
    {g : BitVec width → BitVec width → BitVec width}
    (hf : ∀ a b, (f a b).toBitVec = g a.toBitVec b.toBitVec) (x y : FourState width) :
    Returns (strict f x y) (Bus.strict g x.bus y.bus) := by
  rw [strict, Bus.strict, toBitVec?_bus, toBitVec?_bus]
  cases hx : x.isFullyKnown with
  | false => exact unknown_returns _
  | true =>
    cases hy : y.isFullyKnown with
    | false => exact unknown_returns _
    | true =>
      have hknown := known_returns (f x.value y.value)
      rw [hf] at hknown
      exact hknown

theorem add_bus : Returns (add x y) (Bus.strict (· + ·) x.bus y.bus) := strict_bus toBitVec_add x y

theorem mul_bus : Returns (mul x y) (Bus.strict (· * ·) x.bus y.bus) := strict_bus toBitVec_mul x y

/-! ## Comparisons -/

theorem ofBitVec_flag (b : Bool) : Bus.ofBitVec (flag b).toBitVec = Bus.wire (.ofBool b) := by
  funext i
  obtain rfl : i = 0 := Subsingleton.elim i 0
  rw [toBitVec_flag, Bus.ofBitVec, Bus.wire]
  cases b <;> rfl

theorem compare_ordered_bus {predicate : ComparePredicate} (h : predicate.Ordered)
    (x y : FourState width) :
    Returns (compare predicate x y) (Bus.wire (Bus.ordered predicate.holds x.bus y.bus)) := by
  obtain ⟨hcase, heq, hne⟩ := id h
  have hequality : ¬ (predicate = .eq ∨ predicate = .ne) := fun hor => hor.elim heq hne
  rw [compare, if_neg hcase, if_neg hequality, orderedResult_eq h, Bus.ordered, toBitVec?_bus,
    toBitVec?_bus]
  cases hx : x.isFullyKnown with
  | false => exact unknown_returns _
  | true =>
    cases hy : y.isFullyKnown with
    | false => exact unknown_returns _
    | true =>
      have hknown := known_returns (flag (predicate.holds x.value.toBitVec y.value.toBitVec))
      rw [ofBitVec_flag] at hknown
      exact hknown

theorem known_of_xnor_eq_one {a b : Logic} (h : a.xnor b = .one) : a.Known ∧ b.Known := by
  obtain ⟨p, rfl, rfl⟩ := Logic.xnor_eq_one.mp h
  exact ⟨Logic.ofBool_known p, Logic.ofBool_known p⟩

theorem xnor_of_not_differ {p q : Bool} (h : ¬ Differ (.ofBool p) (.ofBool q)) :
    (Logic.ofBool p).xnor (.ofBool q) = .one := by
  rw [Differ, ← Logic.xnor_eq_zero] at h
  cases p <;> cases q <;> first | rfl | exact absurd rfl h

theorem compare_eq_bus : Returns (compare .eq x y) (Bus.wire (Bus.equal x.bus y.bus)) := by
  have hcase : ComparePredicate.eq ≠ .caseEq := by decide
  have hzero : (∃ i, (x.bus i).xnor (y.bus i) = .zero) ↔ ∃ i, Differ (x.bus i) (y.bus i) :=
    exists_congr fun i => Logic.xnor_eq_zero
  have hflag : ∀ b, Returns (known (flag b)) (Bus.wire (.ofBool b)) := by
    intro b
    rw [← ofBitVec_flag]
    exact known_returns _
  rw [compare, if_neg hcase, if_pos (Or.inl rfl), Bus.equal]
  by_cases hdiffer : ∃ i, Differ (x.bus i) (y.bus i)
  · rw [if_pos ((difference_ne_zero_iff x y).mpr hdiffer), if_pos (hzero.mpr hdiffer)]
    exact hflag false
  · rw [if_neg ((difference_ne_zero_iff x y).not.mpr hdiffer), if_neg (hzero.not.mpr hdiffer)]
    by_cases hknown : (!x.isFullyKnown || !y.isFullyKnown) = true
    · obtain ⟨i, hi⟩ := exists_not_known hknown
      rw [if_pos hknown, if_neg]
      · exact unknown_returns _
      · intro hone
        obtain ⟨hx, hy⟩ := known_of_xnor_eq_one (hone i)
        exact hi.elim (fun h => h hx) fun h => h hy
    · obtain ⟨hx, hy⟩ := fullyKnown_of_not hknown
      rw [hx, hy] at hdiffer
      rw [if_neg hknown, hx, hy, if_pos]
      · exact hflag true
      · intro i
        exact xnor_of_not_differ fun h => hdiffer ⟨i, h⟩

/-! ## Selection and widths -/

theorem zeroExtend_bus (h : width ≤ outWidth) (v : FourState width) :
    Returns (zeroExtend h v) (v.bus.resize outWidth) := by
  have hreturns := zeroExtend_returns h v
  have hbus : (fun i : Fin outWidth => if (i : Nat) < width then v.bit i else .zero) =
      v.bus.resize outWidth := by
    funext i
    rw [Bus.resize]
    split_ifs with hi
    · rfl
    · rfl
  rwa [hbus] at hreturns

theorem truncate_bus (h : outWidth ≤ width) (v : FourState width) :
    Returns (truncate hpos h v) (v.bus.resize outWidth) := by
  have hreturns := truncate_returns hpos h v
  have hbus : (fun i : Fin outWidth => v.bit i) = v.bus.resize outWidth := by
    funext i
    rw [Bus.resize, dif_pos (Nat.lt_of_lt_of_le i.isLt h)]
    rfl
  rwa [hbus] at hreturns

theorem extract_bus {low : Nat} (h : low + outWidth ≤ width) (v : FourState width) :
    Returns (extract hpos v low) (v.bus.slice low outWidth) := by
  have hreturns := extract_returns hpos h v
  have hbus : (fun i : Fin outWidth => v.bit (i + low)) = v.bus.slice low outWidth := by
    funext i
    have hlt : low + i.val < width := by omega
    rw [Bus.slice, dif_pos hlt, Nat.add_comm]
    rfl
  rwa [hbus] at hreturns

/-- A literal that fits into a word. -/
theorem literal_bus (hpos : 0 < width) {k : Nat} (hk : k < 2 ^ 64) :
    Returns (known (Bits.ofLow hpos (.ofNat 64 k))) (Bus.ofBitVec (.ofNat width k)) := by
  have hreturns := known_returns (Bits.ofLow hpos (.ofNat 64 k))
  have hvalue : (Bits.ofLow hpos (.ofNat 64 k)).toBitVec = .ofNat width k := by
    apply BitVec.eq_of_toNat_eq
    rw [Bits.toNat_toBitVec, Bits.toNat_ofLow, BitVec.toNat_ofNat, BitVec.toNat_ofNat,
      Nat.mod_eq_of_lt hk]
  rwa [hvalue] at hreturns

/-! ## Instantiations of the templates

An instantiation whose static assertion fails is an error. -/

def zeroExtendTo (outWidth : Nat) (v : FourState width) : Except String (FourState outWidth) :=
  if h : width ≤ outWidth then zeroExtend h v else .error "zext requires OutWidth >= InWidth"

def truncateTo (outWidth : Nat) (v : FourState width) : Except String (FourState outWidth) :=
  if h : 0 < outWidth ∧ outWidth ≤ width then truncate h.1 h.2 v
  else .error "trunc requires OutWidth <= InWidth"

/-- `FourState<width>::known(Bits<width>{k})`. -/
def literal (width k : Nat) : Except String (FourState width) :=
  if h : 0 < width then known (Bits.ofLow h (.ofNat 64 k))
  else .error "gfsim::Bits requires Width > 0"

theorem zeroExtendTo_bus (h : width ≤ outWidth) (v : FourState width) :
    Returns (zeroExtendTo outWidth v) (v.bus.resize outWidth) := by
  rw [zeroExtendTo, dif_pos h]
  exact zeroExtend_bus h v

theorem truncateTo_bus (hpos : 0 < outWidth) (h : outWidth ≤ width) (v : FourState width) :
    Returns (truncateTo outWidth v) (v.bus.resize outWidth) := by
  rw [truncateTo, dif_pos ⟨hpos, h⟩]
  exact truncate_bus hpos h v

theorem literal_returns (hpos : 0 < width) {k : Nat} (hk : k < 2 ^ 64) :
    Returns (literal width k) (Bus.ofBitVec (.ofNat width k)) := by
  rw [literal, dif_pos hpos]
  exact literal_bus hpos hk

end PyCircuit.Gfsim.FourState
