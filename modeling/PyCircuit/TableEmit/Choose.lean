import PyCircuit.Gfsim.AssignSlice
import PyCircuit.Gfsim.Returns

/-!
# The choice of elements by a mask

Every pass takes one set bit of the mask, the first one in the order of the choice, and clears it
for the next pass. The C++ text scans the mask against the order, so that the last hit stays, and
clears the bits one by one; the Verilog text generates the same chain of conditionals. Both texts
are modelled for masks of any states.
-/

set_option autoImplicit false

namespace PyCircuit.TableEmit

open Lib Gfsim Gfsim.FourState

/-- The order of `table.choose`. -/
inductive Order where
  | low | high
  deriving DecidableEq, Repr

variable {n w : Nat}

/-! ## The C++ text -/

/-- The values of `pyc_bit` in the scan. -/
def scanOrder (order : Order) (n : Nat) : List Nat :=
  match order with
  | .low => (List.range n).reverse
  | .high => List.range n

/-- `pyc_index` and `pyc_valid`. -/
structure Slot (w : Nat) where
  index : FourState w
  valid : FourState 1

/-- The body of the scan. -/
def scanBit (remaining : FourState n) (slot : Slot w) (bit : Nat) : Except String (Slot w) := do
  let hit ← extract Nat.one_pos remaining bit
  let valid ← bitOr slot.valid hit
  let index ← select hit (← literal w bit) slot.index
  .ok { index, valid }

/-- The scan of one pass. -/
def scan (w : Nat) (order : Order) (remaining : FourState n) : Except String (Slot w) := do
  let index ← literal w 0
  let valid ← literal 1 0
  (scanOrder order n).foldlM (scanBit remaining) { index, valid }

/-- The body of the loop that clears the chosen bit. -/
def removeBit (slot : Slot w) (remaining : FourState n) (bit : Nat) :
    Except String (FourState n) := do
  let remove ← bitAnd slot.valid (← compare .eq slot.index (← literal w bit))
  let kept ← bitAnd (← extract Nat.one_pos remaining bit) (← bitNot remove)
  .ok (remaining.assignSlice remaining.one_le bit kept)

/-- The passes. -/
def chooseCpp (w : Nat) (order : Order) : Nat → FourState n → Except String (List (Slot w))
  | 0, _ => .ok []
  | count + 1, remaining => do
      let slot ← scan w order remaining
      let remaining ← (List.range n).foldlM (removeBit slot) remaining
      let rest ← chooseCpp w order count remaining
      .ok (slot :: rest)

/-! ## The Verilog text -/

/-- The bit that a step of the generated scan looks at. -/
def scanned (order : Order) (n step : Nat) : Nat :=
  match order with
  | .low => n - 1 - step
  | .high => step

/-- The generated chain of conditionals. -/
def indexWires (w : Nat) (order : Order) (mask : Bus n) : Nat → Bus w
  | 0 => Bus.ofBitVec (.ofNat w 0)
  | step + 1 =>
    let k := scanned order n step
    Bus.conditional (mask.wireAt k) (Bus.ofBitVec (.ofNat w k)) (indexWires w order mask step)

def validWire (mask : Bus n) : Logic := Bus.reduceOr mask

/-- The mask of the next pass. -/
def nextMask (w : Nat) (order : Order) (mask : Bus n) : Bus n := fun step =>
  (mask step).and ((validWire mask).and
    (Bus.equal (indexWires w order mask n) (Bus.ofBitVec (.ofNat w step)))).not

def maskWires (w : Nat) (order : Order) (mask : Bus n) : Nat → Bus n
  | 0 => mask
  | pass + 1 => nextMask w order (maskWires w order mask pass)

/-- The result wires of a pass. -/
def chooseVerilog (w : Nat) (order : Order) (mask : Bus n) (pass : Nat) : Bus w × Logic :=
  let mask := maskWires w order mask pass
  (indexWires w order mask n, validWire mask)

/-! ## The specification -/

/-- The positions of the set bits, from the low end on. -/
def setBits (m : BitVec n) : List Nat := (List.range n).filter fun i => m.getLsbD i

/-- The positions in the order of the choice. -/
def chosen (order : Order) (m : BitVec n) : List Nat :=
  match order with
  | .low => setBits m
  | .high => (setBits m).reverse

end PyCircuit.TableEmit
