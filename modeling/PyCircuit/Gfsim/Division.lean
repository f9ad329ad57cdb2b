import PyCircuit.Gfsim.Shift

/-!
# Multiword division

`udiv`, `urem`, `sdiv` and `srem` of `bits.h`. A width of at most 64 divides the one word; a larger
one goes through the shift-and-subtract loop of `udivrem`, which shifts the remainder inside its
fixed width. No bit is lost there: before each shift the remainder is at most the bits of the
dividend read so far, and one of them is still to be read (`DivInvariant`).

The signed functions divide magnitudes and put the signs back. `division_exact` says what all four
return.
-/

set_option autoImplicit false

namespace PyCircuit.Gfsim

open PyCircuit.Lib Bits

variable {width : Nat}

/-! ## Tests and helpers -/

def isZero (v : Bits width) : Bool := (List.range (kWords width)).all fun i => v.word i == 0#64

def isAllOnes (v : Bits width) : Bool := (List.range width).all v.bit

def isMinSigned (v : Bits width) : Bool :=
  v.bit (width - 1) && (List.range (width - 1)).all fun i => !v.bit i

def negate (v : Bits width) : Bits width := v.not.add (Bits.ofLow v.positive 1#64)

def setBit (v : Bits width) (idx : Nat) : Bits width :=
  if idx ≥ width then v else v.or (shl (Bits.ofLow v.positive 1#64) idx)

theorem isZero_iff (v : Bits width) : isZero v = true ↔ v.toNat = 0 := by
  unfold isZero
  rw [List.all_eq_true]
  constructor
  · intro h
    apply toNat_eq_of_bit
    intro i
    rw [Nat.zero_testBit, bit_eq]
    by_cases hi : i < width
    · have hk : i / 64 < kWords width := by
        unfold kWords
        omega
      rw [beq_iff_eq.mp (h _ (List.mem_range.mpr hk)), BitVec.getLsbD_zero, Bool.and_false]
    · rw [decide_eq_false hi, Bool.false_and]
  · intro h k _
    rw [beq_iff_eq]
    apply BitVec.eq_of_getLsbD_eq
    intro j hj
    rw [v.getLsbD_word_of_lt k hj, ← testBit_toNat, h, Nat.zero_testBit, BitVec.getLsbD_zero]

theorem isAllOnes_iff (v : Bits width) : isAllOnes v = true ↔ v.toNat = 2 ^ width - 1 := by
  unfold isAllOnes
  rw [List.all_eq_true]
  constructor
  · intro h
    apply toNat_eq_of_bit
    intro i
    rw [Nat.testBit_two_pow_sub_one]
    by_cases hi : i < width
    · rw [h i (List.mem_range.mpr hi), decide_eq_true hi]
    · rw [v.bit_of_le (Nat.le_of_not_lt hi), decide_eq_false hi]
  · intro h i hi
    rw [← testBit_toNat, h, Nat.testBit_two_pow_sub_one]
    exact decide_eq_true (List.mem_range.mp hi)

theorem isMinSigned_iff (v : Bits width) : isMinSigned v = true ↔ v.toNat = 2 ^ (width - 1) := by
  have hpos := v.positive
  unfold isMinSigned
  rw [Bool.and_eq_true, List.all_eq_true]
  constructor
  · rintro ⟨htop, hlow⟩
    apply toNat_eq_of_bit
    intro i
    rw [Nat.testBit_two_pow]
    rcases Nat.lt_trichotomy i (width - 1) with hlt | rfl | hgt
    · have hbit := hlow i (List.mem_range.mpr hlt)
      rw [Bool.not_eq_true'] at hbit
      rw [hbit, decide_eq_false (Nat.ne_of_gt hlt)]
    · rw [htop, decide_eq_true rfl]
    · rw [v.bit_of_le (by omega), decide_eq_false (Nat.ne_of_lt hgt)]
  · intro h
    constructor
    · rw [← testBit_toNat, h, Nat.testBit_two_pow_self]
    · intro i hi
      have hne : width - 1 ≠ i := Nat.ne_of_gt (List.mem_range.mp hi)
      rw [← testBit_toNat, h, Nat.testBit_two_pow, decide_eq_false hne, Bool.not_false]

theorem Bits.toNat_or (x y : Bits width) : (x.or y).toNat = x.toNat ||| y.toNat := by
  apply toNat_eq_of_bit
  intro i
  rw [bit_or, Nat.testBit_or, testBit_toNat, testBit_toNat]

theorem Bits.toNat_one (h : 0 < width) : (ofLow h 1#64).toNat = 1 := by
  rw [toNat_ofLow]
  exact Nat.mod_eq_of_lt (Nat.one_lt_two_pow (Nat.ne_of_gt h))

theorem Bits.toNat_ofLow_zero (h : 0 < width) : (ofLow h 0#64).toNat = 0 := by
  rw [toNat_ofLow]
  exact Nat.zero_mod _

/-- The complement and one more is the negation. -/
theorem toBitVec_negate (v : Bits width) : (negate v).toBitVec = -v.toBitVec := by
  have hnot : v.not.toBitVec = ~~~v.toBitVec := by
    apply BitVec.eq_of_getLsbD_eq
    intro i hi
    rw [getLsbD_toBitVec, bit_not, BitVec.getLsbD_not, getLsbD_toBitVec]
  have hone : (Bits.ofLow v.positive 1#64).toBitVec = BitVec.ofNat width 1 := by
    rw [Bits.toBitVec, toNat_one]
  rw [BitVec.neg_eq_not_add, ← hnot, ← hone]
  apply BitVec.eq_of_toNat_eq
  rw [BitVec.toNat_add, toNat_toBitVec, toNat_toBitVec, toNat_toBitVec]
  exact toNat_add _ _

/-! ## The shift-and-subtract loop -/

/-- One round of the loop of `udivrem`, for one bit of the dividend. -/
def udivremRound (numer denom : Bits width) (state : Bits width × Bits width) (bit : Nat) :
    Bits width × Bits width :=
  let rem := shl state.2 1
  let rem := if numer.bit bit then rem.or (Bits.ofLow numer.positive 1#64) else rem
  if rem.ge denom then (setBit state.1 bit, rem.sub denom) else (state.1, rem)

/-- The rounds for the bits below `i`, from the top one down. -/
def udivremLoop (numer denom : Bits width) : Nat → Bits width × Bits width → Bits width × Bits width
  | 0, state => state
  | i + 1, state => udivremLoop numer denom i (udivremRound numer denom state i)

/-- The quotient and the remainder. -/
def udivrem (numer denom : Bits width) : Bits width × Bits width :=
  let zero := Bits.ofLow numer.positive 0#64
  if isZero denom then (zero, zero) else udivremLoop numer denom width (zero, zero)

/-- Before the bits below `i` are read, the state divides the bits read so far. -/
def DivInvariant (numer denom : Bits width) (i : Nat) (state : Bits width × Bits width) : Prop :=
  ∃ q, state.1.toNat = 2 ^ i * q ∧ numer.toNat / 2 ^ i = q * denom.toNat + state.2.toNat ∧
    state.2.toNat < denom.toNat

/-- Reading one more bit. -/
theorem div_two_pow_succ (n i : Nat) : n / 2 ^ i = 2 * (n / 2 ^ (i + 1)) + (n.testBit i).toNat := by
  have hdiv : n / 2 ^ (i + 1) = n / 2 ^ i / 2 := by rw [Nat.pow_succ, Nat.div_div_eq_div_mul]
  have hbit : (n.testBit i).toNat = n / 2 ^ i % 2 := by
    rw [Nat.testBit_eq_decide_div_mod_eq]
    rcases Nat.mod_two_eq_zero_or_one (n / 2 ^ i) with h | h <;> simp [h]
  rw [hdiv, hbit]
  exact (Nat.div_add_mod _ 2).symm

variable {i : Nat} {numer denom a b v : Bits width}

/-- The shifted remainder with the bit that was read; it fits the width. -/
theorem toNat_shifted {rem : Bits width}
    (hfits : 2 * rem.toNat + (numer.bit i).toNat < 2 ^ width) :
    (if numer.bit i then (shl rem 1).or (Bits.ofLow numer.positive 1#64) else shl rem 1).toNat =
      2 * rem.toNat + (numer.bit i).toNat := by
  have hshl : (shl rem 1).toNat = 2 ^ 1 * rem.toNat := by
    rw [toNat_shl, Nat.mul_comm, Nat.mod_eq_of_lt (by omega)]
  cases hbit : numer.bit i with
  | false =>
    rw [if_neg Bool.false_ne_true, hshl]
    rfl
  | true =>
    rw [if_pos rfl, toNat_or, hshl, toNat_one,
      ← Nat.two_pow_add_eq_or_of_lt (by decide)]
    rfl

theorem toNat_setBit {quot : Bits width} {q : Nat} (hi : i < width)
    (hquot : quot.toNat = 2 ^ (i + 1) * q) : (setBit quot i).toNat = 2 ^ i * (2 * q + 1) := by
  have hone : (shl (Bits.ofLow quot.positive 1#64) i).toNat = 2 ^ i := by
    rw [toNat_shl, toNat_one, Nat.one_mul]
    exact Nat.mod_eq_of_lt (Nat.pow_lt_pow_right (by decide) hi)
  rw [setBit, if_neg (Nat.not_le.mpr hi), toNat_or, hone, hquot,
    ← Nat.two_pow_add_eq_or_of_lt (Nat.pow_lt_pow_right (by decide) (Nat.lt_succ_self i)),
    Nat.pow_succ]
  ring

theorem udivremRound_invariant {state : Bits width × Bits width}
    (hi : i < width) (h : DivInvariant numer denom (i + 1) state) :
    DivInvariant numer denom i (udivremRound numer denom state i) := by
  obtain ⟨q, hquot, hread, hrem⟩ := h
  have hnext := div_two_pow_succ numer.toNat i
  rw [hread, testBit_toNat] at hnext
  have hbound : numer.toNat / 2 ^ i < 2 ^ width :=
    Nat.lt_of_le_of_lt (Nat.div_le_self _ _) numer.toNat_lt
  have hfits : 2 * state.2.toNat + (numer.bit i).toNat < 2 ^ width := by
    have hle : state.2.toNat ≤ q * denom.toNat + state.2.toNat := Nat.le_add_left _ _
    omega
  have hbit : (numer.bit i).toNat ≤ 1 := Bool.toNat_le _
  have hshifted := toNat_shifted hfits
  unfold udivremRound
  dsimp only
  generalize (if numer.bit i then (shl state.2 1).or (Bits.ofLow numer.positive 1#64)
    else shl state.2 1) = rem at hshifted ⊢
  rw [Bits.ge_eq]
  by_cases hge : rem.toNat ≥ denom.toNat
  · -- the denominator goes once more into the bits read
    have hsub : (rem.sub denom).toNat = rem.toNat - denom.toNat := by
      have hlt := denom.toNat_lt
      have hrem' := rem.toNat_lt
      rw [toNat_sub]
      have hsum : rem.toNat + (2 ^ width - denom.toNat) = rem.toNat - denom.toNat + 2 ^ width := by
        omega
      rw [hsum, Nat.add_mod_right, Nat.mod_eq_of_lt (by omega)]
    rw [if_pos (decide_eq_true hge)]
    refine ⟨2 * q + 1, toNat_setBit hi hquot, ?_, ?_⟩
    · rw [hsub, hnext, Nat.add_mul, Nat.one_mul, Nat.mul_assoc]
      omega
    · rw [hsub]
      omega
  · rw [if_neg (fun hdec => hge (of_decide_eq_true hdec))]
    refine ⟨2 * q, ?_, ?_, Nat.lt_of_not_le hge⟩
    · rw [hquot, Nat.pow_succ]
      ring
    · rw [hnext, Nat.mul_assoc]
      dsimp only
      omega

theorem udivremLoop_invariant (i : Nat) {state : Bits width × Bits width}
    (hi : i ≤ width) (h : DivInvariant numer denom i state) :
    DivInvariant numer denom 0 (udivremLoop numer denom i state) := by
  induction i generalizing state with
  | zero => exact h
  | succ i ih => exact ih (Nat.le_of_lt hi) (udivremRound_invariant hi h)

/-- The loop divides, at every width. -/
theorem toNat_udivrem (h : denom.toNat ≠ 0) :
    (udivrem numer denom).1.toNat = numer.toNat / denom.toNat ∧
      (udivrem numer denom).2.toNat = numer.toNat % denom.toNat := by
  have hstart : DivInvariant numer denom width
      (Bits.ofLow numer.positive 0#64, Bits.ofLow numer.positive 0#64) := by
    refine ⟨0, ?_, ?_, ?_⟩
    · rw [toNat_ofLow_zero, Nat.mul_zero]
    · rw [toNat_ofLow_zero, Nat.div_eq_of_lt numer.toNat_lt, Nat.zero_mul]
    · rw [toNat_ofLow_zero]
      exact Nat.pos_of_ne_zero h
  have hzero : ¬ isZero denom = true := fun hz => h ((isZero_iff denom).mp hz)
  obtain ⟨q, hquot, hread, hrem⟩ := udivremLoop_invariant width (Nat.le_refl width) hstart
  rw [Nat.pow_zero, Nat.div_one] at hread
  rw [Nat.pow_zero, Nat.one_mul] at hquot
  unfold udivrem
  rw [if_neg hzero, hquot, hread]
  constructor
  · rw [Nat.mul_comm, Nat.mul_add_div (Nat.pos_of_ne_zero h), Nat.div_eq_of_lt hrem, Nat.add_zero]
  · rw [Nat.mul_comm, Nat.mul_add_mod, Nat.mod_eq_of_lt hrem]

/-! ## Unsigned division -/

def udiv (a b : Bits width) : Bits width :=
  if isZero b then Bits.ofLow a.positive 0#64
  else if width ≤ 64 then Bits.ofLow a.positive (a.word 0 / b.word 0)
  else (udivrem a b).1

def urem (a b : Bits width) : Bits width :=
  if isZero b then Bits.ofLow a.positive 0#64
  else if width ≤ 64 then Bits.ofLow a.positive (a.word 0 % b.word 0)
  else (udivrem a b).2

/-- A width of at most 64 has one word. -/
theorem Bits.toNat_word_zero (h : width ≤ 64) (v : Bits width) : (v.word 0).toNat = v.toNat := by
  have hk : kWords width = 1 := by
    have hpos := v.positive
    unfold kWords
    omega
  rw [toNat_eq_below, hk, Limbs.below, Limbs.below]
  simp

theorem toNat_udiv (a b : Bits width) : (udiv a b).toNat = a.toNat / b.toNat := by
  unfold udiv
  split
  · next hzero => rw [toNat_ofLow_zero, (isZero_iff b).mp hzero, Nat.div_zero]
  · next hzero =>
    have hb : b.toNat ≠ 0 := fun h => hzero ((isZero_iff b).mpr h)
    split
    · next hword =>
      rw [toNat_ofLow, BitVec.toNat_udiv, toNat_word_zero hword,
        toNat_word_zero hword]
      exact Nat.mod_eq_of_lt (Nat.lt_of_le_of_lt (Nat.div_le_self _ _) a.toNat_lt)
    · exact (toNat_udivrem hb).1

theorem toNat_urem (hb : b.toNat ≠ 0) : (urem a b).toNat = a.toNat % b.toNat := by
  have hzero : ¬ isZero b = true := fun h => hb ((isZero_iff b).mp h)
  unfold urem
  rw [if_neg hzero]
  split
  · next hword =>
    rw [toNat_ofLow, BitVec.toNat_umod, toNat_word_zero hword,
      toNat_word_zero hword]
    exact Nat.mod_eq_of_lt (Nat.lt_of_le_of_lt (Nat.mod_le _ _) a.toNat_lt)
  · exact (toNat_udivrem hb).2

/-! ## Signed division -/

/-- `asSigned`, for a width of at most 64: the word that the signed number is read from. -/
def asSigned (v : Bits width) : BitVec 64 :=
  if width = 64 then v.word 0
  else
    let x := v.word 0
    let signBit := 1#64 <<< (width - 1)
    if x &&& signBit ≠ 0#64 then x ||| (BitVec.allOnes 64 <<< width) else x

/-- The quotient of two signed words. The source keeps the one case that would overflow away. -/
def int64Div (a b : BitVec 64) : BitVec 64 := BitVec.ofInt 64 (a.toInt.tdiv b.toInt)

/-- The remainder of two signed words. -/
def int64Mod (a b : BitVec 64) : BitVec 64 := BitVec.ofInt 64 (a.toInt.tmod b.toInt)

def sdiv (a b : Bits width) : Bits width :=
  if isZero b then Bits.ofLow a.positive 0#64
  -- Two's-complement overflow: MIN_INT / -1 -> MIN_INT.
  else if isMinSigned a && isAllOnes b then a
  else if width ≤ 64 then Bits.ofLow a.positive (int64Div (asSigned a) (asSigned b))
  else
    let aNeg := a.bit (width - 1)
    let bNeg := b.bit (width - 1)
    let ua := if aNeg then negate a else a
    let ub := if bNeg then negate b else b
    let q := (udivrem ua ub).1
    if aNeg ^^ bNeg then negate q else q

def srem (a b : Bits width) : Bits width :=
  if isZero b then Bits.ofLow a.positive 0#64
  else if isMinSigned a && isAllOnes b then Bits.ofLow a.positive 0#64
  else if width ≤ 64 then Bits.ofLow a.positive (int64Mod (asSigned a) (asSigned b))
  else
    let aNeg := a.bit (width - 1)
    let bNeg := b.bit (width - 1)
    let ua := if aNeg then negate a else a
    let ub := if bNeg then negate b else b
    let r := (udivrem ua ub).2
    if aNeg then negate r else r

/-- Testing a bit with a one-bit mask. -/
theorem and_bit_ne_zero_iff (x : BitVec 64) {k : Nat} (hk : k < 64) :
    x &&& 1#64 <<< k ≠ 0#64 ↔ x.getLsbD k = true := by
  have hmask : BitVec.twoPow 64 k ≠ 0#64 := by
    intro h
    have hbit := congrArg (fun y : BitVec 64 => y.getLsbD k) h
    simp [hk] at hbit
  rw [show 1#64 <<< k = BitVec.twoPow 64 k from rfl, BitVec.and_twoPow]
  cases hbit : x.getLsbD k with
  | false => exact ⟨fun h => absurd rfl h, nofun⟩
  | true => exact ⟨fun _ => rfl, fun _ => hmask⟩

/-- The word has the signed value. -/
theorem toInt_asSigned (h : width ≤ 64) (v : Bits width) : (asSigned v).toInt = v.toInt := by
  have hpos := v.positive
  have hword : ∀ k, k < 64 → (v.word 0).getLsbD k = v.bit k := by
    intro k hk
    rw [v.getLsbD_word_of_lt 0 hk, Nat.mul_zero, Nat.zero_add]
  have hextend : asSigned v = v.toBitVec.signExtend 64 := by
    apply BitVec.eq_of_getLsbD_eq
    intro i hi
    rw [BitVec.getLsbD_signExtend, decide_eq_true hi, Bool.true_and, getLsbD_toBitVec,
      v.msb_toBitVec]
    unfold asSigned
    by_cases hfull : width = 64
    · rw [if_pos hfull, hword i hi, if_pos (by omega)]
    rw [if_neg hfull]
    by_cases hsign : v.bit (width - 1) = true
    · have hmask : v.word 0 &&& 1#64 <<< (width - 1) ≠ 0#64 := by
        rw [and_bit_ne_zero_iff _ (by omega), hword _ (by omega)]
        exact hsign
      rw [if_pos hmask, BitVec.getLsbD_or, hword i hi, BitVec.getLsbD_shiftLeft,
        BitVec.getLsbD_allOnes, decide_eq_true hi, Bool.true_and, hsign]
      by_cases hlow : i < width
      · rw [if_pos hlow, decide_eq_true hlow, Bool.not_true, Bool.false_and, Bool.or_false]
      · rw [if_neg hlow, decide_eq_false hlow, decide_eq_true (show i - width < 64 by omega),
          Bool.not_false, Bool.and_self, Bool.or_true]
    · have hmask : ¬ v.word 0 &&& 1#64 <<< (width - 1) ≠ 0#64 := by
        rw [and_bit_ne_zero_iff _ (by omega), hword _ (by omega)]
        exact hsign
      rw [if_neg hmask, hword i hi, Bool.eq_false_iff.mpr hsign]
      split
      · rfl
      · next hhigh => exact v.bit_of_le (Nat.le_of_not_lt hhigh)
  rw [hextend, BitVec.toInt_signExtend_of_le h]
  rfl

/-- The number of a value modulo its range is the signed number. -/
theorem toNat_eq_toInt_emod (v : Bits width) : (v.toNat : Int) = v.toInt % (2 ^ width : Nat) := by
  rw [Bits.toInt, BitVec.toInt_eq_toNat_bmod, Int.bmod_emod, toNat_toBitVec,
    ← Int.natCast_emod, Nat.mod_eq_of_lt v.toNat_lt]

/-- A word read as a signed number, cut to the width. -/
theorem toNat_ofLow_ofInt (hpos : 0 < width) (h : width ≤ 64) (z : Int) :
    ((Bits.ofLow hpos (BitVec.ofInt 64 z)).toNat : Int) = z % (2 ^ width : Nat) := by
  have hnonneg : 0 ≤ z % ((2 ^ 64 : Nat) : Int) := Int.emod_nonneg z (by decide)
  have hdvd : ((2 ^ width : Nat) : Int) ∣ ((2 ^ 64 : Nat) : Int) :=
    Int.natCast_dvd_natCast.mpr (Nat.pow_dvd_pow 2 h)
  rw [toNat_ofLow, BitVec.toNat_ofInt, Int.natCast_emod, Int.toNat_of_nonneg hnonneg,
    Int.emod_emod_of_dvd z hdvd]

theorem toInt_of_isMinSigned (h : isMinSigned v = true) :
    v.toInt = -(2 ^ (width - 1) : Nat) := by
  have hnumber := (isMinSigned_iff v).mp h
  have hsign : v.bit (width - 1) = true := (Bool.and_eq_true_iff.mp h).1
  have hpow := v.two_pow_width
  rw [Bits.toInt, BitVec.toInt_eq_msb_cond, v.msb_toBitVec, hsign, if_pos rfl, toNat_toBitVec]
  omega

theorem toInt_of_isAllOnes (h : isAllOnes v = true) : v.toInt = -1 := by
  have hnumber := (isAllOnes_iff v).mp h
  have hpos := v.positive
  have hsign : v.bit (width - 1) = true :=
    List.all_eq_true.mp h _ (List.mem_range.mpr (by omega))
  have hpow := Nat.two_pow_pos width
  rw [Bits.toInt, BitVec.toInt_eq_msb_cond, v.msb_toBitVec, hsign, if_pos rfl, toNat_toBitVec]
  omega

/-- The loop is the division of bit vectors. -/
theorem toBitVec_udivrem (hb : b.toNat ≠ 0) :
    (udivrem a b).1.toBitVec = a.toBitVec / b.toBitVec ∧
      (udivrem a b).2.toBitVec = a.toBitVec % b.toBitVec := by
  obtain ⟨hquot, hrem⟩ := @toNat_udivrem width a b hb
  constructor
  · apply BitVec.eq_of_toNat_eq
    rw [BitVec.toNat_udiv, toNat_toBitVec, toNat_toBitVec, toNat_toBitVec, hquot]
  · apply BitVec.eq_of_toNat_eq
    rw [BitVec.toNat_umod, toNat_toBitVec, toNat_toBitVec, toNat_toBitVec, hrem]

theorem toNat_negate_ne_zero (h : v.toNat ≠ 0) : (negate v).toNat ≠ 0 := by
  have hlt := v.toNat_lt
  rw [← toNat_toBitVec, toBitVec_negate, BitVec.toNat_neg, toNat_toBitVec,
    Nat.mod_eq_of_lt (by omega)]
  omega

/-- The magnitudes and signs of the multiword path are those of the division of bit vectors. -/
theorem toBitVec_signed (hb : b.toNat ≠ 0) :
    let ua := if a.bit (width - 1) then negate a else a
    let ub := if b.bit (width - 1) then negate b else b
    (if a.bit (width - 1) ^^ b.bit (width - 1) then negate (udivrem ua ub).1
        else (udivrem ua ub).1).toBitVec = a.toBitVec.sdiv b.toBitVec ∧
      (if a.bit (width - 1) then negate (udivrem ua ub).2 else (udivrem ua ub).2).toBitVec =
        a.toBitVec.srem b.toBitVec := by
  have hb' := toNat_negate_ne_zero hb
  rw [BitVec.sdiv_eq, BitVec.srem_eq, a.msb_toBitVec, b.msb_toBitVec]
  cases a.bit (width - 1) with
  | false =>
    cases b.bit (width - 1) with
    | false => exact toBitVec_udivrem hb
    | true =>
      obtain ⟨hquot, hrem⟩ := @toBitVec_udivrem width a (negate b) hb'
      rw [toBitVec_negate] at hquot hrem
      exact ⟨(toBitVec_negate _).trans (congrArg _ hquot), hrem⟩
  | true =>
    cases b.bit (width - 1) with
    | false =>
      obtain ⟨hquot, hrem⟩ := @toBitVec_udivrem width (negate a) b hb
      rw [toBitVec_negate] at hquot hrem
      exact ⟨(toBitVec_negate _).trans (congrArg _ hquot),
        (toBitVec_negate _).trans (congrArg _ hrem)⟩
    | true =>
      obtain ⟨hquot, hrem⟩ := @toBitVec_udivrem width (negate a) (negate b) hb'
      rw [toBitVec_negate, toBitVec_negate] at hquot hrem
      exact ⟨hquot, (toBitVec_negate _).trans (congrArg _ hrem)⟩

/-- The truncating quotient, modulo the range. -/
theorem toNat_sdiv (hb : b.toNat ≠ 0) :
    ((sdiv a b).toNat : Int) = a.toInt.tdiv b.toInt % (2 ^ width : Nat) := by
  have hzero : ¬ isZero b = true := fun h => hb ((isZero_iff b).mp h)
  unfold sdiv
  rw [if_neg hzero]
  split
  · next hoverflow =>
    obtain ⟨hmin, hones⟩ := Bool.and_eq_true_iff.mp hoverflow
    have hpow := a.two_pow_width
    have hpos := Nat.two_pow_pos (width - 1)
    rw [toInt_of_isMinSigned hmin, toInt_of_isAllOnes hones, Int.tdiv_neg, Int.tdiv_one,
      Int.neg_neg, (isMinSigned_iff a).mp hmin, ← Int.natCast_emod, Nat.mod_eq_of_lt (by omega)]
  · split
    · next hword =>
      rw [int64Div, toNat_ofLow_ofInt a.positive hword, toInt_asSigned hword,
        toInt_asSigned hword]
    · rw [toNat_eq_toInt_emod, Bits.toInt, (toBitVec_signed hb).1, BitVec.toInt_sdiv, Int.bmod_emod]
      rfl

/-- The remainder with the sign of the dividend, modulo the range. -/
theorem toNat_srem (hb : b.toNat ≠ 0) :
    ((srem a b).toNat : Int) = a.toInt.tmod b.toInt % (2 ^ width : Nat) := by
  have hzero : ¬ isZero b = true := fun h => hb ((isZero_iff b).mp h)
  unfold srem
  rw [if_neg hzero]
  split
  · next hoverflow =>
    obtain ⟨-, hones⟩ := Bool.and_eq_true_iff.mp hoverflow
    rw [toInt_of_isAllOnes hones, Int.tmod_neg, Int.tmod_one, toNat_ofLow_zero]
    rfl
  · split
    · next hword =>
      rw [int64Mod, toNat_ofLow_ofInt a.positive hword, toInt_asSigned hword,
        toInt_asSigned hword]
    · rw [toNat_eq_toInt_emod, Bits.toInt, (toBitVec_signed hb).2, BitVec.toInt_srem]
      rfl

/-- Division is exact at every width, for the division of one word and for the loop: the unsigned
functions return the one quotient and remainder, the signed ones the truncating quotient and the
remainder with the sign of the dividend modulo the range, and a division by zero returns zero. -/
theorem division_exact (n d : Bits width) :
    (d.toNat ≠ 0 →
      (n.toNat = (udiv n d).toNat * d.toNat + (urem n d).toNat ∧ (urem n d).toNat < d.toNat ∧
        ∀ q r, n.toNat = q * d.toNat + r → r < d.toNat →
          q = (udiv n d).toNat ∧ r = (urem n d).toNat) ∧
      ((udivrem n d).1 = udiv n d ∧ (udivrem n d).2 = urem n d) ∧
      ((sdiv n d).toNat : Int) = n.toInt.tdiv d.toInt % (2 ^ width : Nat) ∧
      ((srem n d).toNat : Int) = n.toInt.tmod d.toInt % (2 ^ width : Nat)) ∧
    (d.toNat = 0 →
      ∀ r ∈ [udiv n d, urem n d, sdiv n d, srem n d, (udivrem n d).1, (udivrem n d).2],
        r.toNat = 0) ∧
    ∀ r ∈ [udiv n d, urem n d, sdiv n d, srem n d, (udivrem n d).1, (udivrem n d).2],
      Canonical r.words := by
  refine ⟨?_, ?_, fun r _ => r.canonical⟩
  · intro hd
    obtain ⟨hquot, hrem⟩ := @toNat_udivrem width n d hd
    refine ⟨?_, ⟨ext_toNat ?_, ext_toNat ?_⟩, toNat_sdiv hd, toNat_srem hd⟩
    · rw [toNat_udiv, toNat_urem hd]
      refine ⟨?_, Nat.mod_lt _ (Nat.pos_of_ne_zero hd), ?_⟩
      · rw [Nat.mul_comm]
        exact (Nat.div_add_mod n.toNat d.toNat).symm
      · rintro q r hn hr
        rw [hn, Nat.mul_comm, Nat.mul_add_div (Nat.pos_of_ne_zero hd), Nat.div_eq_of_lt hr,
          Nat.mul_add_mod, Nat.mod_eq_of_lt hr]
        exact ⟨rfl, rfl⟩
    · rw [hquot, toNat_udiv]
    · rw [hrem, toNat_urem hd]
  · intro hd r hr
    have hzero : isZero d = true := (isZero_iff d).mpr hd
    have hresult : r = Bits.ofLow n.positive 0#64 := by
      simpa [udiv, urem, sdiv, srem, udivrem, hzero] using hr
    rw [hresult, toNat_ofLow_zero]

end PyCircuit.Gfsim
