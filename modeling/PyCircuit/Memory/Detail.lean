import PyCircuit.Lib.Bus
import PyCircuit.Lib.Fallible

/-!
# Memory addresses, strobes and calls

The helpers of `memory_detail.h`: an address as a host index, and the merge of a word with a strobed
write. A two-state word `Bits<Width>` is its bit vector. The calls of a memory kernel and the
managed commands of the Verilog memories are at the end.
-/

set_option autoImplicit false

namespace PyCircuit.Memory

open PyCircuit.Lib

/-! ## Addresses -/

/-- `std::numeric_limits<std::size_t>::max()`. -/
def maxIndex : Nat := 2 ^ 64 - 1

/-- `memory_index`. -/
def memoryIndex {width : Nat} (addr : BitVec width) : Nat :=
  if width ≤ 64 then addr.toNat
  else if (List.range (width - 64)).any fun k => addr.getLsbD (64 + k) then maxIndex
  else
    (List.range 64).foldl
      (fun result bit => if addr.getLsbD bit then result ||| 1 <<< bit else result) 0

theorem testBit_foldl_or (p : Nat → Bool) (bits i : Nat) :
    ((List.range bits).foldl
      (fun result bit => if p bit then result ||| 1 <<< bit else result) 0).testBit i =
      (decide (i < bits) && p i) := by
  rw [foldl_range_eq (Nat.testBit · i) i (p i), Nat.zero_testBit, Bool.false_or]
  -- A round sets the bit of its own position only.
  intro result k
  by_cases hk : i = k
  · subst hk
    cases hp : p i <;> simp [Nat.testBit_shiftLeft]
  · cases hp : p k with
    | false => simp [hk]
    | true => simp [hk, Nat.one_shiftLeft, Ne.symm hk]

variable {width depth strobeWidth : Nat}

/-- An address is its number, or an index that no memory has. -/
theorem memoryIndex_eq (addr : BitVec width) : memoryIndex addr = min addr.toNat maxIndex := by
  unfold memoryIndex
  split
  · next hwidth =>
    have hlt : addr.toNat < 2 ^ 64 :=
      Nat.lt_of_lt_of_le addr.isLt (Nat.pow_le_pow_right (by decide) hwidth)
    have hle : addr.toNat ≤ maxIndex := Nat.le_sub_one_of_lt hlt
    rw [Nat.min_eq_left hle]
  · split
    · next hhigh =>
      obtain ⟨k, -, hk⟩ := List.any_eq_true.mp hhigh
      have hle : 2 ^ 64 ≤ addr.toNat :=
        (Nat.pow_le_pow_right (by decide) (Nat.le_add_right 64 k)).trans
          (Nat.ge_two_pow_of_testBit hk)
      have hmax : maxIndex ≤ addr.toNat := Nat.le_trans (Nat.sub_le _ 1) hle
      rw [Nat.min_eq_right hmax]
    · next hwidth hhigh =>
      -- No bit is set above the host word, so its low bits are the number.
      have hlow : ∀ i, 64 ≤ i → addr.toNat.testBit i = false := by
        intro i hi
        by_cases hin : i < width
        · have hnone := List.any_eq_false.mp (Bool.eq_false_iff.mpr hhigh) (i - 64)
            (List.mem_range.mpr (by omega))
          rw [Nat.add_sub_cancel' hi] at hnone
          exact Bool.eq_false_iff.mpr hnone
        · exact BitVec.getLsbD_of_ge addr i (Nat.le_of_not_lt hin)
      have hlt : addr.toNat < 2 ^ 64 := Nat.lt_pow_two_of_testBit _ hlow
      have hle : addr.toNat ≤ maxIndex := Nat.le_sub_one_of_lt hlt
      rw [Nat.min_eq_left hle]
      apply Nat.eq_of_testBit_eq
      intro i
      rw [testBit_foldl_or]
      by_cases hi : i < 64
      · rw [decide_eq_true hi, Bool.true_and]
        rfl
      · rw [decide_eq_false hi, hlow i (Nat.le_of_not_lt hi)]
        rfl

/-- An index is in a memory exactly when the address is, and then it is the address. -/
theorem memoryIndex_lt (hdepth : depth < 2 ^ 32) (addr : BitVec width) :
    memoryIndex addr < depth ↔ addr.toNat < depth := by
  have hmax : maxIndex = 2 ^ 64 - 1 := rfl
  rw [memoryIndex_eq]
  omega

theorem memoryIndex_of_lt (hdepth : depth < 2 ^ 32) {addr : BitVec width} (h : addr.toNat < depth) :
    memoryIndex addr = addr.toNat := by
  have hmax : maxIndex = 2 ^ 64 - 1 := rfl
  rw [memoryIndex_eq]
  omega

/-! ## Strobes -/

/-- The mask with the bits of a lane: eight, or fewer for a partial last lane. -/
def setLane {width : Nat} (mask : BitVec width) (lane : Nat) : BitVec width :=
  (List.range 8).foldl
    (fun mask bit =>
      if bit < width - lane * 8 then mask ||| (BitVec.ofNat width 1) <<< (lane * 8 + bit) else mask)
    mask

/-- The mask of `memory_strobe`. -/
def strobeMask {strobeWidth : Nat} (width : Nat) (strobe : BitVec strobeWidth) : BitVec width :=
  (List.range strobeWidth).foldl
    (fun mask lane => if !strobe.getLsbD lane then mask else setLane mask lane)
    (BitVec.ofNat width 0)

/-- `memory_strobe`. -/
def memoryStrobe {width strobeWidth : Nat} (oldValue newValue : BitVec width)
    (strobe : BitVec strobeWidth) : BitVec width :=
  (oldValue &&& ~~~strobeMask width strobe) ||| (newValue &&& strobeMask width strobe)

theorem getLsbD_setLane (mask : BitVec width) (lane : Nat) {i : Nat} (hi : i < width) :
    (setLane mask lane).getLsbD i = (mask.getLsbD i || decide (i / 8 = lane)) := by
  rw [setLane, foldl_range_eq (BitVec.getLsbD · i) (i - lane * 8) (decide (lane * 8 ≤ i)),
    ← Bool.decide_and]
  · exact congrArg _ (decide_eq_decide.mpr (by omega))
  intro mask k
  rw [← Bool.decide_and]
  split
  · next hk =>
    rw [BitVec.getLsbD_or]
    congr 1
    rw [BitVec.getLsbD_shiftLeft, BitVec.getLsbD_one, decide_eq_true hi, ← decide_not,
      Bool.true_and, ← Bool.decide_and, ← Bool.decide_and]
    exact decide_eq_decide.mpr (by omega)
  · next hk => rw [decide_eq_false (by omega), Bool.or_false]

/-- A bit is in the mask when its lane is strobed. -/
theorem getLsbD_strobeMask (strobe : BitVec strobeWidth) {i : Nat} (hi : i < width) :
    (strobeMask width strobe).getLsbD i = strobe.getLsbD (i / 8) := by
  rw [strobeMask, foldl_range_eq (BitVec.getLsbD · i) (i / 8) (strobe.getLsbD (i / 8))]
  · by_cases hlane : i / 8 < strobeWidth
    · simp [hlane]
    · simp [BitVec.getLsbD_of_ge strobe _ (Nat.le_of_not_lt hlane)]
  · intro mask lane
    by_cases hlane : i / 8 = lane
    · cases hstrobe : strobe.getLsbD lane <;> simp [getLsbD_setLane _ _ hi, hlane, hstrobe]
    · cases hstrobe : strobe.getLsbD lane <;> simp [getLsbD_setLane _ _ hi, hlane]

/-- A write replaces the bits of the strobed lanes. -/
theorem getLsbD_memoryStrobe (oldValue newValue : BitVec width) (strobe : BitVec strobeWidth)
    {i : Nat} (hi : i < width) :
    (memoryStrobe oldValue newValue strobe).getLsbD i =
      if strobe.getLsbD (i / 8) then newValue.getLsbD i else oldValue.getLsbD i := by
  rw [memoryStrobe, BitVec.getLsbD_or, BitVec.getLsbD_and, BitVec.getLsbD_and, BitVec.getLsbD_not,
    getLsbD_strobeMask strobe hi, decide_eq_true hi]
  cases strobe.getLsbD (i / 8) <;> simp

/-! ## Calls and commands -/

/-- The calls of a kernel. -/
inductive Call (Inputs : Type) where
  | work (inputs : Inputs)
  | xfer
  | discard
  | reset

/-- The managed commands of a Verilog module. -/
inductive Command (Inputs : Type) where
  | prepare (pins : Inputs)
  | commit (rootCommitOk : Logic)
  | discard
  | reset

/-- The call that a command stands for; a COMMIT without the permission of the root only drops the
transaction. -/
def Command.call {Inputs : Type} : Command Inputs → Call Inputs
  | .prepare pins => .work pins
  | .commit rootCommitOk => if rootCommitOk = .one then .xfer else .discard
  | .discard => .discard
  | .reset => .reset

end PyCircuit.Memory
