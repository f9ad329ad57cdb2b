import PyCircuit.Gfsim.Abstraction
import PyCircuit.Lib.BusSlice

/-!
# Assignment of a slice

`FourState::assignSlice` copies a value into a slice of another one, in rounds that end at the words
of the destination. A round takes up to 64 bits from one or two words of the source. The three
planes of the value are copied in the same way, so the states of the bits are copied.
-/

set_option autoImplicit false

namespace PyCircuit.Gfsim

open PyCircuit.Lib

variable {width n : Nat}

/-- The bits of a round: the rest of the source, or of the destination word. -/
def sliceCount (n low position : Nat) : Nat :=
  let destinationOffset := (low + position) % 64
  if n - position > 64 - destinationOffset then 64 - destinationOffset else n - position

/-- The word of the source from `position` on. -/
def sliceWord (input : Bits n) (position count : Nat) : BitVec 64 :=
  let sourceOffset := position % 64
  let word := input.word (position / 64) >>> sourceOffset
  if sourceOffset ≠ 0 ∧ sourceOffset + count > 64 then
    word ||| (input.word (position / 64 + 1) <<< (64 - sourceOffset))
  else word

/-- The mask of the low `count` bits. -/
def sliceBits (count : Nat) : BitVec 64 :=
  if count = 64 then .allOnes 64 else (1#64 <<< count) - 1#64

/-- The update of one plane in a round. -/
def sliceUpdate (low position : Nat) (target : Bits width) (input : Bits n) : Bits width :=
  let destinationWord := (low + position) / 64
  let destinationOffset := (low + position) % 64
  let count := sliceCount n low position
  let mask := sliceBits count <<< destinationOffset
  target.setWord destinationWord ((target.word destinationWord &&& ~~~mask) |||
    ((sliceWord input position count &&& sliceBits count) <<< destinationOffset))

theorem sliceCount_pos (low : Nat) {position : Nat} (h : position < n) :
    0 < sliceCount n low position := by
  rw [sliceCount]
  split_ifs
  · omega
  · omega

/-- The value and the two masks of a four-state value. -/
structure Planes (width : Nat) where
  value : Bits width
  knownMask : Bits width
  zMask : Bits width

/-- The rounds from `position` on. -/
def assignRounds (low : Nat) (source : Planes n) (position : Nat) (target : Planes width) :
    Planes width :=
  if h : position < n then
    have := sliceCount_pos low h
    assignRounds low source (position + sliceCount n low position)
      { value := sliceUpdate low position target.value source.value
        knownMask := sliceUpdate low position target.knownMask source.knownMask
        zMask := sliceUpdate low position target.zMask source.zMask }
  else target
  termination_by n - position

/-! ## The bits of a round -/

theorem getLsbD_sliceBits {count : Nat} (h : count ≤ 64) (j : Nat) :
    (sliceBits count).getLsbD j = decide (j < count) := by
  rw [sliceBits]
  split_ifs with hfull
  · subst hfull
    exact BitVec.getLsbD_allOnes
  · rw [← BitVec.testBit_toNat, Limbs.toNat_lowMask (by omega), Nat.testBit_two_pow_sub_one]

theorem getLsbD_sliceWord (input : Bits n) {position count j : Nat} (hcount : count ≤ 64)
    (hj : j < count) : (sliceWord input position count).getLsbD j = input.bit (position + j) := by
  rw [sliceWord]
  -- the bits up to the end of the first word come from it, the others from the next word
  have hword : (input.word (position / 64)).getLsbD (position % 64 + j) =
      (decide (position % 64 + j < 64) && input.bit (position + j)) := by
    by_cases hin : position % 64 + j < 64
    · rw [input.getLsbD_word_of_lt _ hin, decide_eq_true hin, Bool.true_and]
      congr 1
      omega
    · rw [BitVec.getLsbD_of_ge _ _ (by omega), decide_eq_false hin, Bool.false_and]
  by_cases hcross : position % 64 ≠ 0 ∧ position % 64 + count > 64
  · rw [if_pos hcross, BitVec.getLsbD_or, BitVec.getLsbD_ushiftRight, hword,
      BitVec.getLsbD_shiftLeft, decide_eq_true (show j < 64 by omega), Bool.true_and]
    by_cases hin : position % 64 + j < 64
    · rw [decide_eq_true hin, decide_eq_true (show j < 64 - position % 64 by omega)]
      simp
    · rw [decide_eq_false hin, decide_eq_false (show ¬ j < 64 - position % 64 by omega),
        input.getLsbD_word_of_lt _ (by omega)]
      simp only [Bool.false_and, Bool.not_false, Bool.true_and, Bool.false_or]
      congr 1
      omega
  · rw [if_neg hcross, BitVec.getLsbD_ushiftRight, hword, decide_eq_true (by omega), Bool.true_and]

variable {low : Nat} (target : FourState width) (source : FourState n) (v : FourState width)

/-- A round replaces the bits of its range. -/
theorem bit_sliceUpdate {position : Nat} (target : Bits width) (input : Bits n)
    (h : low + n ≤ width) (hposition : position < n) (i : Nat) :
    (sliceUpdate low position target input).bit i =
      if low + position ≤ i ∧ i < low + position + sliceCount n low position then
        input.bit (i - low)
      else target.bit i := by
  have hcount : sliceCount n low position ≤ 64 - (low + position) % 64 ∧
      sliceCount n low position ≤ n - position := by
    rw [sliceCount]
    split_ifs
    · omega
    · omega
  rw [sliceUpdate, Bits.bit_setWord]
  generalize sliceCount n low position = count at hcount ⊢
  by_cases hword : i / 64 = (low + position) / 64
  · have hj : i % 64 < 64 := Nat.mod_lt _ (by decide)
    rw [if_pos hword, BitVec.getLsbD_or, BitVec.getLsbD_and, BitVec.getLsbD_not,
      BitVec.getLsbD_shiftLeft, BitVec.getLsbD_shiftLeft, BitVec.getLsbD_and, ← hword,
      decide_eq_true hj, getLsbD_sliceBits (by omega), target.getLsbD_word_of_lt _ hj]
    simp only [Bool.true_and]
    by_cases hin : low + position ≤ i ∧ i < low + position + count
    · rw [if_pos hin, getLsbD_sliceWord input (by omega) (by omega),
        decide_eq_true (show i < width by omega),
        decide_eq_false (show ¬ i % 64 < (low + position) % 64 by omega),
        decide_eq_true (show i % 64 - (low + position) % 64 < count by omega)]
      simp only [Bool.not_false, Bool.true_and, Bool.not_true, Bool.and_false, Bool.false_or,
        Bool.and_true]
      congr 1
      omega
    · rw [if_neg hin]
      have hout : (!decide (i % 64 < (low + position) % 64) &&
          decide (i % 64 - (low + position) % 64 < count)) = false := by
        rw [Bool.and_eq_false_iff]
        by_cases hbelow : i % 64 < (low + position) % 64
        · exact .inl (by rw [decide_eq_true hbelow, Bool.not_true])
        · exact .inr (decide_eq_false (by omega))
      have hself : 64 * (i / 64) + i % 64 = i := Nat.div_add_mod i 64
      rw [hself, hout, ← Bool.and_assoc, Bool.and_right_comm, hout]
      simp only [Bool.not_false, Bool.and_true, Bool.false_and, Bool.or_false]
      by_cases hi : i < width
      · rw [decide_eq_true hi, Bool.true_and]
      · rw [decide_eq_false hi, Bool.false_and, target.bit_of_le (Nat.le_of_not_lt hi)]
  · rw [if_neg hword, if_neg (by omega)]

/-! ## The rounds -/

/-- The bits of the three planes. -/
def Planes.bits (planes : Planes width) (i : Nat) : Bool × Bool × Bool :=
  (planes.value.bit i, planes.knownMask.bit i, planes.zMask.bit i)

theorem bits_assignRounds (source : Planes n) (h : low + n ≤ width) (position : Nat)
    (target : Planes width) (i : Nat) :
    (assignRounds low source position target).bits i =
      if low + position ≤ i ∧ i < low + n then source.bits (i - low) else target.bits i := by
  induction position, target using assignRounds.induct low source with
  | case1 position target hlt hpos ih =>
    rw [assignRounds, dif_pos hlt, ih]
    have hle : sliceCount n low position ≤ n - position := by
      rw [sliceCount]
      split_ifs
      · omega
      · omega
    by_cases hlater : low + (position + sliceCount n low position) ≤ i ∧ i < low + n
    · rw [if_pos hlater, if_pos (by omega)]
    · rw [if_neg hlater]
      simp only [Planes.bits, bit_sliceUpdate _ _ h hlt]
      by_cases hnow : low + position ≤ i ∧ i < low + position + sliceCount n low position
      · rw [if_pos hnow, if_pos hnow, if_pos hnow, if_pos (by omega)]
      · rw [if_neg hnow, if_neg hnow, if_neg hnow, if_neg (by omega)]
  | case2 position target hge =>
    rw [assignRounds, dif_neg hge, if_neg (by omega)]

namespace FourState

def planes (v : FourState width) : Planes width := ⟨v.value, v.knownMask, v.zMask⟩

theorem assignRounds_invariant (h : low + n ≤ width) :
    invariantHolds (assignRounds low source.planes 0 target.planes).knownMask
      (assignRounds low source.planes 0 target.planes).zMask = true := by
  rw [invariantHolds_iff]
  intro i hi
  have hbits := bits_assignRounds source.planes h 0 target.planes i
  have hknown := congrArg (fun bits => bits.2.1) hbits
  have hz := congrArg (fun bits => bits.2.2) hbits
  dsimp only [Planes.bits] at hknown hz
  rw [hknown, hz]
  by_cases hin : low + 0 ≤ i ∧ i < low + n
  · rw [if_pos hin]
    exact invariantHolds_iff.mp source.invariant _ (by omega)
  · rw [if_neg hin]
    exact invariantHolds_iff.mp target.invariant _ hi

theorem one_le (v : FourState width) : 1 ≤ width := v.value.positive

/-- `FourState::assignSlice`. -/
def assignSlice (target : FourState width) (hle : n ≤ width) (low : Nat) (source : FourState n) :
    FourState width :=
  if hlow : low > width - n then target
  else
    { value := (assignRounds low source.planes 0 target.planes).value
      knownMask := (assignRounds low source.planes 0 target.planes).knownMask
      zMask := (assignRounds low source.planes 0 target.planes).zMask
      invariant := assignRounds_invariant target source (by omega) }

/-- The bits of the planes after the assignment. -/
theorem bits_assignSlice {low : Nat} (h : low + n ≤ width) (source : FourState n) (i : Nat) :
    (target.assignSlice (Nat.le_of_add_left_le h) low source).planes.bits i =
      if low ≤ i ∧ i < low + n then source.planes.bits (i - low) else target.planes.bits i := by
  have hlow : ¬ low > width - n := by omega
  rw [assignSlice, dif_neg hlow]
  exact bits_assignRounds source.planes h 0 target.planes i

theorem bus_eq_state (i : Fin width) :
    v.bus i = state (v.planes.bits i).2.1 (v.planes.bits i).2.2 (v.planes.bits i).1 := rfl

/-- The states of the slice are those of the source, all others stay. -/
theorem assignSlice_bus {low : Nat} (h : low + n ≤ width) (source : FourState n) :
    (target.assignSlice (Nat.le_of_add_left_le h) low source).bus =
      target.bus.setSlice low source.bus := by
  funext i
  rw [bus_eq_state, bits_assignSlice target h, Bus.setSlice]
  by_cases hin : low ≤ i.val ∧ i.val - low < n
  · rw [dif_pos hin, if_pos (by omega)]
    rfl
  · rw [dif_neg hin, if_neg (by omega)]
    rfl

/-! ## The laws of the assignment -/

theorem ext_bits {v w : FourState width} (h : ∀ i, i < width → v.planes.bits i = w.planes.bits i) :
    v = w := by
  have hvalue : v.value = w.value := Bits.ext_bit fun i hi => congrArg (fun bits => bits.1) (h i hi)
  have hknown : v.knownMask = w.knownMask :=
    Bits.ext_bit fun i hi => congrArg (fun bits => bits.2.1) (h i hi)
  have hz : v.zMask = w.zMask := Bits.ext_bit fun i hi => congrArg (fun bits => bits.2.2) (h i hi)
  cases v
  cases w
  simp only [mk.injEq]
  exact ⟨hvalue, hknown, hz⟩

theorem extract_of_bits {low : Nat} (h : low + n ≤ width)
    (hbits : ∀ i, i < n → v.planes.bits (low + i) = source.planes.bits i) :
    extract source.value.positive v low = .ok source := by
  obtain ⟨out, hout, -⟩ := extract_returns source.value.positive h v
  rw [hout]
  have hrange : ¬ (n > width ∨ low > width - n) := by omega
  rw [extract, dif_neg hrange, fromMasks] at hout
  split_ifs at hout
  obtain rfl := Except.ok.inj hout
  congr 1
  apply ext_bits
  intro i hi
  rw [← hbits i hi, Planes.bits, Planes.bits, planes, planes]
  simp only [bit_extract, decide_eq_true hi, Bool.true_and, Nat.add_comm i low]

/-- Slice assignment is a lens: the masks stay disjoint, the slice holds the assigned value, all
other bits stay, and assignments to disjoint slices commute. -/
theorem assignSlice_lens {low : Nat} (h : low + n ≤ width) (target : FourState width)
    (source : FourState n) :
    (∀ i, i < width →
      ¬ ((target.assignSlice (Nat.le_of_add_left_le h) low source).knownMask.bit i = true ∧
        (target.assignSlice (Nat.le_of_add_left_le h) low source).zMask.bit i = true)) ∧
    extract source.value.positive (target.assignSlice (Nat.le_of_add_left_le h) low source) low =
      .ok source ∧
    (∀ i, i < low ∨ low + n ≤ i →
      (target.assignSlice (Nat.le_of_add_left_le h) low source).planes.bits i =
        target.planes.bits i) ∧
    ∀ {m other : Nat} (h' : other + m ≤ width) (source' : FourState m),
      low + n ≤ other ∨ other + m ≤ low →
      (target.assignSlice (Nat.le_of_add_left_le h) low source).assignSlice
          (Nat.le_of_add_left_le h') other source' =
        (target.assignSlice (Nat.le_of_add_left_le h') other source').assignSlice
          (Nat.le_of_add_left_le h) low source := by
  refine ⟨invariantHolds_iff.mp (target.assignSlice _ low source).invariant, ?_, ?_, ?_⟩
  · apply extract_of_bits source _ h
    intro i hi
    rw [bits_assignSlice target h, if_pos (by omega), Nat.add_sub_cancel_left]
  · intro i hi
    rw [bits_assignSlice target h, if_neg (by omega)]
  · intro m other h' source' hdisjoint
    apply ext_bits
    intro i _
    rw [bits_assignSlice _ h', bits_assignSlice _ h, bits_assignSlice _ h, bits_assignSlice _ h']
    -- at most one of the two slices holds the bit
    by_cases hfirst : low ≤ i ∧ i < low + n
    · rw [if_neg (show ¬ (other ≤ i ∧ i < other + m) by omega), if_pos hfirst, if_pos hfirst]
    · rw [if_neg hfirst, if_neg hfirst]

/-- A slice over three words: 65 bits from bit 63 on. -/
theorem assignSlice_lens_threeWords :
    63 + 65 ≤ 130 ∧ ∀ (target : FourState 130) (source : FourState 65),
      extract source.value.positive (target.assignSlice (by decide) 63 source) 63 = .ok source :=
  ⟨by decide, fun target source => (assignSlice_lens (by decide) target source).2.1⟩

end FourState

end PyCircuit.Gfsim
