import PyCircuit.Gfsim.Bits
import PyCircuit.Lib.Logic

/-!
# Four-state values

The class `FourState<Width>` of `four_state.h`: a value with a mask of its known bits and a mask of
its undriven bits. The two masks are disjoint; the constructor throws otherwise, so it is a field.
A bit that is in neither mask is unknown, and the value of a bit that is not known does not count.
-/

set_option autoImplicit false

namespace PyCircuit.Gfsim

open PyCircuit.Lib

/-- `FourState::invariantHolds` of the two masks. -/
def invariantHolds {width : Nat} (knownMask zMask : Bits width) : Bool :=
  knownMask.and zMask = Bits.ofLow knownMask.positive 0#64

/-- The class `FourState<Width>`. -/
structure FourState (width : Nat) where
  value : Bits width
  knownMask : Bits width
  zMask : Bits width
  invariant : invariantHolds knownMask zMask = true
  deriving DecidableEq

/-- The masks share no bit. -/
theorem invariantHolds_iff {width : Nat} {knownMask zMask : Bits width} :
    invariantHolds knownMask zMask = true ↔
      ∀ i, i < width → ¬ (knownMask.bit i = true ∧ zMask.bit i = true) := by
  unfold invariantHolds
  rw [decide_eq_true_iff]
  constructor
  · intro h i _ hboth
    have hbit := congrArg (fun x => x.bit i) h
    simp [Bits.bit_and, hboth, Bits.bit_ofLow_zero] at hbit
  · intro h
    apply Bits.ext_bit
    intro i hi
    rw [Bits.bit_and, Bits.bit_ofLow_zero]
    exact Bool.eq_false_iff.mpr fun hboth => h i hi (Bool.and_eq_true_iff.mp hboth)

namespace FourState

variable {width : Nat}

/-- `FourState::fromMasks`. -/
def fromMasks (value knownMask zMask : Bits width) : Except String (FourState width) :=
  if h : invariantHolds knownMask zMask = true then .ok ⟨value, knownMask, zMask, h⟩
  else .error "four-state masks require (known & z) == 0"

/-- The state of one bit. -/
def bit (v : FourState width) (i : Nat) : Logic :=
  if v.knownMask.bit i then .ofBool (v.value.bit i)
  else if v.zMask.bit i then .z
  else .x

/-- The states of the bits tell the masks, and the values of the known bits. -/
theorem bit_eq_bit {width' : Nat} {v : FourState width} {v' : FourState width'} {i j : Nat}
    (hi : i < width) (hj : j < width') :
    v.bit i = v'.bit j ↔ v.knownMask.bit i = v'.knownMask.bit j ∧ v.zMask.bit i = v'.zMask.bit j ∧
      (v.knownMask.bit i = true → v.value.bit i = v'.value.bit j) := by
  have h := invariantHolds_iff.mp v.invariant i hi
  have h' := invariantHolds_iff.mp v'.invariant j hj
  unfold bit
  revert h h'
  cases v.knownMask.bit i <;> cases v'.knownMask.bit j <;> cases v.zMask.bit i <;>
    cases v'.zMask.bit j <;> cases v.value.bit i <;> cases v'.value.bit j <;> decide

end FourState

end PyCircuit.Gfsim
