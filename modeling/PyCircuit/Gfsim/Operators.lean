import PyCircuit.Gfsim.Division
import PyCircuit.Gfsim.FourState
import PyCircuit.Lib.Completion

/-!
# Four-state operators

The free functions of `four_state.h`. An operator computes the value, the known mask and the
undriven mask of its result; the constructor that takes the three throws when the masks overlap. The
bitwise operators and the functions that move bits work bit by bit; the arithmetic and the ordered
comparisons give up as soon as one operand bit is not known.

A value is read as a bus (`FourState.bus`). Each operator returns the bus that the connectives of
`Logic` give (`Returns`), and these describe the two-state operations on the completions of the
operands.
-/

set_option autoImplicit false

namespace PyCircuit.Gfsim

open PyCircuit.Lib

variable {width : Nat}

/-- `Bits::toBool`. -/
def Bits.toBool (v : Bits width) : Bool := v.word 0 &&& 1#64 != 0#64

namespace FourState

/-! ## Values -/

/-- Every bit is known. -/
def known (value : Bits width) : Except String (FourState width) :=
  fromMasks value (Bits.ones value.positive) (Bits.ofLow value.positive 0#64)

/-- `unknown`, with the default value. -/
def unknown (h : 0 < width) : Except String (FourState width) :=
  fromMasks (Bits.ofLow h 0#64) (Bits.ofLow h 0#64) (Bits.ofLow h 0#64)

/-- Every bit is known and none is undriven. -/
def isFullyKnown (v : FourState width) : Bool :=
  v.knownMask = Bits.ones v.value.positive && v.zMask = Bits.ofLow v.value.positive 0#64

/-- Same states of all bits. -/
def parityEquivalent (v other : FourState width) : Bool :=
  if !invariantHolds v.knownMask v.zMask || !invariantHolds other.knownMask other.zMask ||
      v.knownMask ≠ other.knownMask || v.zMask ≠ other.zMask then
    false
  else (v.value.xor other.value).and v.knownMask = Bits.ofLow v.value.positive 0#64

/-! ## Bitwise operators -/

/-- The operator `~`. -/
def bitNot (v : FourState width) : Except String (FourState width) :=
  fromMasks v.value.not v.knownMask (Bits.ofLow v.value.positive 0#64)

/-- The operator `&`: a known zero decides. -/
def bitAnd (lhs rhs : FourState width) : Except String (FourState width) :=
  let zero := (lhs.knownMask.and lhs.value.not).or (rhs.knownMask.and rhs.value.not)
  let one := ((lhs.knownMask.and lhs.value).and rhs.knownMask).and rhs.value
  fromMasks (lhs.value.and rhs.value) (zero.or one) (Bits.ofLow lhs.value.positive 0#64)

/-- The operator `|`: a known one decides. -/
def bitOr (lhs rhs : FourState width) : Except String (FourState width) :=
  let one := (lhs.knownMask.and lhs.value).or (rhs.knownMask.and rhs.value)
  let zero := ((lhs.knownMask.and lhs.value.not).and rhs.knownMask).and rhs.value.not
  fromMasks (lhs.value.or rhs.value) (zero.or one) (Bits.ofLow lhs.value.positive 0#64)

/-- The operator `^`. -/
def bitXor (lhs rhs : FourState width) : Except String (FourState width) :=
  fromMasks (lhs.value.xor rhs.value) (lhs.knownMask.and rhs.knownMask)
    (Bits.ofLow lhs.value.positive 0#64)

/-! ## Arithmetic -/

/-- An operation that is unknown unless every bit of both operands is known. -/
def strict (f : Bits width → Bits width → Bits width) (lhs rhs : FourState width) :
    Except String (FourState width) :=
  if !lhs.isFullyKnown || !rhs.isFullyKnown then unknown lhs.value.positive
  else known (f lhs.value rhs.value)

/-- The operator `+`. -/
def add (lhs rhs : FourState width) : Except String (FourState width) := strict Bits.add lhs rhs

/-- The operator `-`. -/
def sub (lhs rhs : FourState width) : Except String (FourState width) := strict Bits.sub lhs rhs

/-- The operator `*`. -/
def mul (lhs rhs : FourState width) : Except String (FourState width) := strict Bits.mul lhs rhs

/-- A division, which is also unknown for a divisor of zero. -/
def strictDivision (f : Bits width → Bits width → Bits width) (lhs rhs : FourState width) :
    Except String (FourState width) :=
  if !lhs.isFullyKnown || !rhs.isFullyKnown || rhs.value = Bits.ofLow rhs.value.positive 0#64 then
    unknown lhs.value.positive
  else known (f lhs.value rhs.value)

/-- Unsigned division. -/
def udiv (lhs rhs : FourState width) : Except String (FourState width) :=
  strictDivision Gfsim.udiv lhs rhs

/-- Unsigned remainder. -/
def urem (lhs rhs : FourState width) : Except String (FourState width) :=
  strictDivision Gfsim.urem lhs rhs

/-! ## Comparisons -/

/-- The predicates of `compare`; only `caseEq` tells unknown bits apart. -/
inductive ComparePredicate where
  | eq
  | ne
  | ult
  | ule
  | ugt
  | uge
  | slt
  | sle
  | sgt
  | sge
  | caseEq
  deriving DecidableEq

/-- The result of an ordered predicate on two-state values. -/
def orderedResult (predicate : ComparePredicate) (lhs rhs : Bits width) : Bool :=
  match predicate with
  | .ult => lhs.lt rhs
  | .ule => lhs.le rhs
  | .ugt => lhs.gt rhs
  | .uge => lhs.ge rhs
  | .slt => Gfsim.slt lhs rhs
  | .sle => !Gfsim.slt rhs lhs
  | .sgt => Gfsim.slt rhs lhs
  | .sge => !Gfsim.slt lhs rhs
  | _ => false

/-- A value of width one from a condition. -/
def flag (b : Bool) : Bits 1 := Bits.ofLow Nat.one_pos (if b then 1#64 else 0#64)

/-- A comparison; a difference in known bits decides equality. -/
def compare (predicate : ComparePredicate) (lhs rhs : FourState width) :
    Except String (FourState 1) :=
  if predicate = .caseEq then known (flag (lhs.parityEquivalent rhs))
  else if predicate = .eq ∨ predicate = .ne then
    let difference := ((lhs.value.xor rhs.value).and lhs.knownMask).and rhs.knownMask
    if difference ≠ Bits.ofLow lhs.value.positive 0#64 then known (flag (predicate = .ne))
    else if !lhs.isFullyKnown || !rhs.isFullyKnown then unknown Nat.one_pos
    else known (flag (predicate = .eq))
  else if !lhs.isFullyKnown || !rhs.isFullyKnown then unknown Nat.one_pos
  else known (flag (orderedResult predicate lhs.value rhs.value))

/-! ## Selection and widths -/

/-- With an unknown condition, what both branches agree on. -/
def select (condition : FourState 1) (whenTrue whenFalse : FourState width) :
    Except String (FourState width) :=
  if condition.isFullyKnown then
    .ok (if condition.value.toBool then whenTrue else whenFalse)
  else
    let commonKnown := (whenTrue.knownMask.and whenFalse.knownMask).and
      (whenTrue.value.xor whenFalse.value).not
    let commonZ := whenTrue.zMask.and whenFalse.zMask
    fromMasks whenTrue.value commonKnown commonZ

variable {inWidth outWidth : Nat}

/-- The new bits are known zeros. -/
def zeroExtend (h : inWidth ≤ outWidth) (v : FourState inWidth) :
    Except String (FourState outWidth) :=
  let inputMask := zext h (Bits.ones v.value.positive)
  fromMasks (zext h v.value) ((zext h v.knownMask).or inputMask.not) (zext h v.zMask)

/-- The low bits. -/
def truncate (hpos : 0 < outWidth) (h : outWidth ≤ inWidth) (v : FourState inWidth) :
    Except String (FourState outWidth) :=
  fromMasks (trunc hpos h v.value) (trunc hpos h v.knownMask) (trunc hpos h v.zMask)

/-- A static slice. -/
def extract (hpos : 0 < outWidth) (v : FourState inWidth) (low : Nat) :
    Except String (FourState outWidth) :=
  -- Invalid static slices are rejected by ACIR.
  if h : outWidth > inWidth ∨ low > inWidth - outWidth then unknown hpos
  else
    have hle : outWidth ≤ inWidth := Nat.le_of_not_lt fun hlt => h (Or.inl hlt)
    fromMasks (Gfsim.extract hpos hle v.value low) (Gfsim.extract hpos hle v.knownMask low)
      (Gfsim.extract hpos hle v.zMask low)

/-- The first operand becomes the high bits. -/
def concat {high low : Nat} (a : FourState high) (b : FourState low) :
    Except String (FourState (high + low)) :=
  fromMasks (Gfsim.concat a.value b.value) (Gfsim.concat a.knownMask b.knownMask)
    (Gfsim.concat a.zMask b.zMask)

/-! ## Shifts -/

variable {amountWidth : Nat}

/-- The amount of a shift, cut at the width. -/
def boundedShift (width : Nat) (amount : FourState amountWidth) : Nat :=
  if (List.range' 1 (kWords amountWidth - 1)).any fun word => amount.value.word word != 0#64 then
    width
  else if (amount.value.word 0).toNat ≥ width then width
  else (amount.value.word 0).toNat

/-- The vacated bits are known zeros; an unknown amount makes the result unknown. -/
def shl (v : FourState width) (amount : FourState amountWidth) : Except String (FourState width) :=
  if !amount.isFullyKnown then unknown v.value.positive
  else
    let count := boundedShift width amount
    let fill := (Gfsim.shl (Bits.ones v.value.positive) count).not
    fromMasks (Gfsim.shl v.value count) ((Gfsim.shl v.knownMask count).or fill)
      (Gfsim.shl v.zMask count)

/-- As `shl`, to the right. -/
def lshr (v : FourState width) (amount : FourState amountWidth) : Except String (FourState width) :=
  if !amount.isFullyKnown then unknown v.value.positive
  else
    let count := boundedShift width amount
    let fill := (Gfsim.lshr (Bits.ones v.value.positive) count).not
    fromMasks (Gfsim.lshr v.value count) ((Gfsim.lshr v.knownMask count).or fill)
      (Gfsim.lshr v.zMask count)

/-- The vacated bits repeat the state of the sign bit. -/
def ashr (v : FourState width) (amount : FourState amountWidth) : Except String (FourState width) :=
  if !amount.isFullyKnown then unknown v.value.positive
  else
    let count := boundedShift width amount
    fromMasks (Gfsim.ashr v.value count) (Gfsim.ashr v.knownMask count) (Gfsim.ashr v.zMask count)

/-! ## Values as buses -/

/-- The state of a bit from its place in the value and in the masks. -/
def state (known z value : Bool) : Logic := if known then .ofBool value else if z then .z else .x

/-- The states of the bits. -/
def bus (v : FourState width) : Bus width := fun i => v.bit i

theorem bus_apply (v : FourState width) (i : Fin width) :
    v.bus i = state (v.knownMask.bit i) (v.zMask.bit i) (v.value.bit i) := rfl

theorem not_known_and_z (v : FourState width) (i : Fin width) :
    ¬ (v.knownMask.bit i = true ∧ v.zMask.bit i = true) :=
  invariantHolds_iff.mp v.invariant i i.isLt

/-- The operation returns a value, and this is the bus. -/
def Returns (out : Except String (FourState width)) (b : Bus width) : Prop :=
  ∃ v, out = .ok v ∧ v.bus = b

/-- Masks that do not overlap make a value. -/
theorem fromMasks_returns {value knownMask zMask : Bits width} {b : Bus width}
    (h : ∀ i : Fin width, ¬ (knownMask.bit i = true ∧ zMask.bit i = true) ∧
      state (knownMask.bit i) (zMask.bit i) (value.bit i) = b i) :
    Returns (fromMasks value knownMask zMask) b := by
  have hinvariant : invariantHolds knownMask zMask = true :=
    invariantHolds_iff.mpr fun i hi => (h ⟨i, hi⟩).1
  refine ⟨⟨value, knownMask, zMask, hinvariant⟩, dif_pos hinvariant, ?_⟩
  funext i
  exact (h i).2

theorem unknown_returns (h : 0 < width) : Returns (unknown h) Bus.unknown := by
  apply fromMasks_returns
  intro i
  rw [Bits.bit_ofLow_zero]
  exact ⟨by decide, rfl⟩

theorem known_returns (value : Bits width) :
    Returns (known value) (Bus.ofBitVec value.toBitVec) := by
  apply fromMasks_returns
  intro i
  rw [Bits.bit_ofLow_zero, Bits.bit_ones, decide_eq_true i.isLt, Bus.ofBitVec,
    Bits.getLsbD_toBitVec]
  exact ⟨by decide, rfl⟩

/-- A fully known value is the bus of its bit vector. -/
theorem isFullyKnown_iff (v : FourState width) :
    v.isFullyKnown = true ↔ v.bus = Bus.ofBitVec v.value.toBitVec := by
  have hbit : ∀ i : Fin width, v.bus i = Bus.ofBitVec v.value.toBitVec i ↔
      v.knownMask.bit i = true := by
    intro i
    rw [bus_apply, Bus.ofBitVec, Bits.getLsbD_toBitVec]
    cases v.knownMask.bit i <;> cases v.zMask.bit i <;> cases v.value.bit i <;> decide
  unfold isFullyKnown
  rw [Bool.and_eq_true, decide_eq_true_iff, decide_eq_true_iff]
  constructor
  · rintro ⟨hones, -⟩
    funext i
    rw [hbit, hones, Bits.bit_ones]
    exact decide_eq_true i.isLt
  · intro hbus
    have hknown : ∀ i : Fin width, v.knownMask.bit i = true :=
      fun i => (hbit i).mp (congrFun hbus i)
    constructor
    · apply Bits.ext_bit
      intro i hi
      rw [hknown ⟨i, hi⟩, Bits.bit_ones, decide_eq_true hi]
    · apply Bits.ext_bit
      intro i hi
      rw [Bits.bit_ofLow_zero]
      exact Bool.eq_false_iff.mpr fun hz => v.not_known_and_z ⟨i, hi⟩ ⟨hknown ⟨i, hi⟩, hz⟩

end FourState

end PyCircuit.Gfsim
