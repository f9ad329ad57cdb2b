import PyCircuit.Gfsim.Arithmetic

/-!
# Shifts, widths and signed comparison

The free functions of `bits.h` that move bits: `shl` and `lshr` take each word of the result from
two neighbouring words, `ashr` ors a fill of ones in, `trunc` and `zext` copy words, `extract` and
`concat` are built from these, and `slt` compares after flipping the sign bits.

Each function is described by its bits first and by numbers from these. `arithmetic_modular`
collects what the operators compute: integer arithmetic modulo two to the width.
-/

set_option autoImplicit false

namespace PyCircuit.Gfsim

open PyCircuit.Lib Bits

variable {width : Nat}

/-! ## Shifts -/

/-- The loop that sets the words below `count`, from the top one down. -/
def Bits.fillDown (f : Nat → BitVec 64) : Nat → Bits width → Bits width
  | 0, out => out
  | count + 1, out => fillDown f count (out.setWord count (f count))

/-- The word that `shl` sets at `dst`. -/
def shlWord (v : Bits width) (wordShift bitShift dst : Nat) : BitVec 64 :=
  if dst ≥ wordShift then
    let src := dst - wordShift
    let w := v.word src <<< bitShift
    if bitShift ≠ 0 ∧ src > 0 then w ||| (v.word (src - 1) >>> (64 - bitShift)) else w
  else 0#64

def shl (v : Bits width) (amount : Nat) : Bits width :=
  if amount = 0 then v
  else if amount ≥ width then Bits.ofLow v.positive 0#64
  else
    Bits.fillDown (shlWord v (amount / 64) (amount % 64)) (kWords width) (Bits.zero v.positive)

/-- The word that `lshr` sets at `dst`. -/
def lshrWord (v : Bits width) (wordShift bitShift dst : Nat) : BitVec 64 :=
  let src := dst + wordShift
  if src < kWords width then
    let w := v.word src >>> bitShift
    if bitShift ≠ 0 ∧ src + 1 < kWords width then w ||| (v.word (src + 1) <<< (64 - bitShift))
    else w
  else 0#64

def lshr (v : Bits width) (amount : Nat) : Bits width :=
  if amount = 0 then v
  else if amount ≥ width then Bits.ofLow v.positive 0#64
  else
    Bits.fill (lshrWord v (amount / 64) (amount % 64)) (kWords width) 0 (Bits.zero v.positive)

def ashr (v : Bits width) (amount : Nat) : Bits width :=
  if amount = 0 then v
  else if amount ≥ width then
    if v.bit (width - 1) then Bits.ones v.positive else Bits.ofLow v.positive 0#64
  else
    let out := lshr v amount
    if !v.bit (width - 1) then out
    else
      -- Negative: fill high bits with 1.
      let fillFrom := width - amount
      let fill := shl (Bits.ones v.positive) fillFrom
      out.or fill

theorem Bits.bit_fillDown (f : Nat → BitVec 64) (count : Nat) (out : Bits width) (i : Nat) :
    (Bits.fillDown f count out).bit i =
      if i / 64 < count then decide (i < width) && (f (i / 64)).getLsbD (i % 64)
      else out.bit i := by
  induction count generalizing out with
  | zero => rfl
  | succ count ih =>
    rw [fillDown, ih, bit_setWord]
    by_cases hword : i / 64 = count
    · rw [if_neg (by omega), if_pos hword, if_pos (by omega), hword]
    · rw [if_neg hword]
      congr 1
      apply propext
      omega

section

variable (v : Bits width)

/-- A bit of a word that is taken from two neighbouring words by a left shift. -/
theorem getLsbD_shlWord (amount dst : Nat) {j : Nat} (hj : j < 64) :
    (shlWord v (amount / 64) (amount % 64) dst).getLsbD j =
      (decide (amount ≤ 64 * dst + j) && v.bit (64 * dst + j - amount)) := by
  unfold shlWord
  by_cases hdst : dst ≥ amount / 64
  swap
  · rw [if_neg hdst, BitVec.getLsbD_zero, decide_eq_false (by omega), Bool.false_and]
  rw [if_pos hdst]
  -- the word at `src` gives the bits from the shift on, the word below it the others
  have hsrc : ∀ k, k < 64 → (v.word (dst - amount / 64)).getLsbD k =
      v.bit (64 * (dst - amount / 64) + k) := fun k hk => v.getLsbD_word_of_lt _ hk
  by_cases hcross : amount % 64 ≠ 0 ∧ dst - amount / 64 > 0
  · rw [if_pos hcross, BitVec.getLsbD_or, BitVec.getLsbD_shiftLeft, BitVec.getLsbD_ushiftRight,
      decide_eq_true hj, Bool.true_and]
    by_cases hlow : j < amount % 64
    · rw [decide_eq_true hlow, Bool.not_true, Bool.false_and, Bool.false_or,
        v.getLsbD_word_of_lt _ (by omega), decide_eq_true (by omega), Bool.true_and]
      congr 1
      omega
    · have hhigh : (v.word (dst - amount / 64 - 1)).getLsbD (64 - amount % 64 + j) = false :=
        BitVec.getLsbD_of_ge _ _ (by omega)
      rw [hhigh, Bool.or_false, decide_eq_false hlow, Bool.not_false, Bool.true_and,
        hsrc _ (by omega), decide_eq_true (by omega), Bool.true_and]
      congr 1
      omega
  · rw [if_neg hcross, BitVec.getLsbD_shiftLeft, decide_eq_true hj, Bool.true_and]
    by_cases hlow : j < amount % 64
    · rw [decide_eq_true hlow, Bool.not_true, Bool.false_and, decide_eq_false (by omega),
        Bool.false_and]
    · rw [decide_eq_false hlow, Bool.not_false, Bool.true_and, hsrc _ (by omega),
        decide_eq_true (by omega), Bool.true_and]
      congr 1
      omega

theorem getLsbD_lshrWord (amount dst : Nat) {j : Nat} (hj : j < 64) :
    (lshrWord v (amount / 64) (amount % 64) dst).getLsbD j = v.bit (64 * dst + j + amount) := by
  have hpos := v.positive
  unfold lshrWord
  by_cases hsrc : dst + amount / 64 < kWords width
  swap
  · have hhigh : width ≤ 64 * dst + j + amount := by
      have hwords := width_le_words width
      omega
    rw [if_neg hsrc, BitVec.getLsbD_zero, v.bit_of_le hhigh]
  rw [if_pos hsrc]
  by_cases hlow : j + amount % 64 < 64
  · -- the bit is in the word at `src`
    have hbit : (v.word (dst + amount / 64) >>> (amount % 64)).getLsbD j =
        v.bit (64 * dst + j + amount) := by
      rw [BitVec.getLsbD_ushiftRight, v.getLsbD_word_of_lt _ (by omega)]
      congr 1
      omega
    split
    · have hbelow : j < 64 - amount % 64 := by omega
      rw [BitVec.getLsbD_or, hbit, BitVec.getLsbD_shiftLeft, decide_eq_true hbelow,
        Bool.not_true, Bool.and_false, Bool.false_and, Bool.or_false]
    · exact hbit
  · have hempty : (v.word (dst + amount / 64) >>> (amount % 64)).getLsbD j = false := by
      rw [BitVec.getLsbD_ushiftRight]
      exact BitVec.getLsbD_of_ge _ _ (by omega)
    split
    · rw [BitVec.getLsbD_or, hempty, Bool.false_or, BitVec.getLsbD_shiftLeft, decide_eq_true hj,
        decide_eq_false (by omega), Bool.not_false, Bool.true_and, Bool.true_and,
        v.getLsbD_word_of_lt _ (by omega)]
      congr 1
      omega
    · next hlast =>
      have hhigh : width ≤ 64 * dst + j + amount := by
        have hwords := width_le_words width
        omega
      rw [hempty, v.bit_of_le hhigh]

theorem bit_shl (amount i : Nat) :
    (shl v amount).bit i = (decide (amount ≤ i) && (decide (i < width) && v.bit (i - amount))) := by
  unfold shl
  by_cases hi : i < width
  swap
  · rw [bit_of_le _ (Nat.le_of_not_lt hi), decide_eq_false hi, Bool.false_and, Bool.and_false]
  rw [decide_eq_true hi, Bool.true_and]
  split
  · next hzero => simp [hzero]
  split
  · next hlarge =>
    rw [bit_ofLow_zero, decide_eq_false (by omega), Bool.false_and]
  · have hk : i / 64 < kWords width := by
      unfold kWords
      omega
    rw [bit_fillDown, if_pos hk, decide_eq_true hi, Bool.true_and,
      getLsbD_shlWord v amount _ (Nat.mod_lt i (by decide)), Nat.div_add_mod]

theorem bit_lshr (amount i : Nat) : (lshr v amount).bit i = v.bit (i + amount) := by
  unfold lshr
  split
  · next hzero => rw [hzero, Nat.add_zero]
  split
  · next hlarge => rw [bit_ofLow_zero, v.bit_of_le (by omega)]
  · by_cases hi : i < width
    · have hk : i / 64 < 0 + kWords width := by
        unfold kWords
        omega
      rw [bit_fill, if_pos ⟨Nat.zero_le _, hk⟩, decide_eq_true hi, Bool.true_and,
        getLsbD_lshrWord v amount _ (Nat.mod_lt i (by decide)), Nat.div_add_mod]
    · rw [bit_of_le _ (Nat.le_of_not_lt hi), v.bit_of_le (by omega)]

/-- An arithmetic shift repeats the sign bit. -/
theorem bit_ashr (amount : Nat) {i : Nat} (hi : i < width) :
    (ashr v amount).bit i =
      if i + amount < width then v.bit (i + amount) else v.bit (width - 1) := by
  unfold ashr
  split
  · next hzero => rw [hzero, Nat.add_zero, if_pos hi]
  split
  · next hlarge =>
    rw [if_neg (show ¬ i + amount < width by omega)]
    cases hsign : v.bit (width - 1) with
    | true => rw [if_pos rfl, bit_ones, decide_eq_true hi]
    | false => rw [if_neg Bool.false_ne_true, bit_ofLow_zero]
  cases hsign : v.bit (width - 1) with
  | false =>
    rw [if_pos (by decide), bit_lshr]
    split
    · rfl
    · exact v.bit_of_le (by omega)
  | true =>
    rw [if_neg (by decide), bit_or, bit_lshr, bit_shl, bit_ones]
    split
    · rw [decide_eq_false (show ¬ width - amount ≤ i by omega), Bool.false_and, Bool.or_false]
    · rw [decide_eq_true (show width - amount ≤ i by omega), decide_eq_true hi,
        decide_eq_true (show i - (width - amount) < width by omega), Bool.and_self, Bool.and_self,
        Bool.or_true]

theorem toNat_shl (amount : Nat) : (shl v amount).toNat = v.toNat * 2 ^ amount % 2 ^ width := by
  apply toNat_eq_of_bit
  intro i
  rw [bit_shl, Nat.testBit_mod_two_pow, Nat.testBit_mul_two_pow, testBit_toNat,
    Bool.and_left_comm]

theorem toNat_lshr (amount : Nat) : (lshr v amount).toNat = v.toNat / 2 ^ amount := by
  apply toNat_eq_of_bit
  intro i
  rw [bit_lshr, Nat.testBit_div_two_pow, testBit_toNat]

theorem Bits.msb_toBitVec : v.toBitVec.msb = v.bit (width - 1) := by
  rw [BitVec.msb_eq_getLsbD_last, getLsbD_toBitVec]

theorem toInt_ashr (amount : Nat) : (ashr v amount).toInt = v.toInt / 2 ^ amount := by
  have hvector : (ashr v amount).toBitVec = v.toBitVec.sshiftRight amount := by
    apply BitVec.eq_of_getLsbD_eq
    intro i hi
    rw [getLsbD_toBitVec, bit_ashr v amount hi, BitVec.getLsbD_sshiftRight,
      decide_eq_false (Nat.not_le.mpr hi), Bool.not_false, Bool.true_and, v.msb_toBitVec,
      getLsbD_toBitVec, Nat.add_comm]
  unfold Bits.toInt
  rw [hvector, BitVec.toInt_sshiftRight, Int.shiftRight_eq_div_pow]
  norm_cast

end

/-! ## Changing the width -/

variable {inWidth outWidth : Nat}

def trunc (hpos : 0 < outWidth) (_h : outWidth ≤ inWidth) (v : Bits inWidth) : Bits outWidth :=
  Bits.fill v.word (kWords outWidth) 0 (Bits.zero hpos)

theorem Bits.positive_of_le (v : Bits inWidth) (h : inWidth ≤ outWidth) : 0 < outWidth :=
  Nat.lt_of_lt_of_le v.positive h

def zext (h : inWidth ≤ outWidth) (v : Bits inWidth) : Bits outWidth :=
  Bits.fill v.word (kWords outWidth) 0 (Bits.zero (v.positive_of_le h))

def extract (hpos : 0 < outWidth) (h : outWidth ≤ inWidth) (v : Bits inWidth) (lsb : Nat) :
    Bits outWidth :=
  trunc hpos h (lshr v lsb)

/-- The concatenation of two values, the first one above. -/
def concat {high low : Nat} (a : Bits high) (b : Bits low) : Bits (high + low) :=
  let aa := zext (Nat.le_add_right high low) a
  let bb := zext (Nat.le_add_left low high) b
  (shl aa low).or bb

/-- The concatenation of any number of values. -/
def concatAll {first : Nat} (a : Bits first) :
    (rest : List (Sigma Bits)) → Bits (first + (rest.map Sigma.fst).sum)
  | [] => a
  | ⟨_, b⟩ :: rest => concat a (concatAll b rest)

variable (a : Bits width) (v : Bits inWidth) (hpos : 0 < outWidth) (x y : Bits width)
  {high low : Nat}

/-- The loop that copies words gives the bits of the input that fit. -/
theorem bit_fill_word (i : Nat) :
    (Bits.fill v.word (kWords outWidth) 0 (Bits.zero hpos)).bit i =
      (decide (i < outWidth) && v.bit i) := by
  by_cases hi : i < outWidth
  · have hk : i / 64 < 0 + kWords outWidth := by
      unfold kWords
      omega
    rw [bit_fill, if_pos ⟨Nat.zero_le _, hk⟩, getLsbD_word]
  · rw [bit_of_le _ (Nat.le_of_not_lt hi), decide_eq_false hi, Bool.false_and]

theorem bit_trunc (h : outWidth ≤ inWidth) (v : Bits inWidth) (i : Nat) :
    (trunc hpos h v).bit i = (decide (i < outWidth) && v.bit i) := bit_fill_word v hpos i

theorem bit_zext (h : inWidth ≤ outWidth) (v : Bits inWidth) (i : Nat) :
    (zext h v).bit i = v.bit i := by
  rw [zext, bit_fill_word]
  by_cases hi : i < outWidth
  · rw [decide_eq_true hi, Bool.true_and]
  · rw [v.bit_of_le (by omega), Bool.and_false]

theorem bit_extract (h : outWidth ≤ inWidth) (v : Bits inWidth) (lsb i : Nat) :
    (extract hpos h v lsb).bit i = (decide (i < outWidth) && v.bit (i + lsb)) := by
  rw [extract, bit_trunc, bit_lshr]

theorem bit_concat (a : Bits high) (b : Bits low) (i : Nat) :
    (concat a b).bit i = if i < low then b.bit i else a.bit (i - low) := by
  unfold concat
  rw [bit_or, bit_shl, bit_zext, bit_zext]
  by_cases hi : i < low
  · rw [if_pos hi, decide_eq_false (Nat.not_le.mpr hi), Bool.false_and, Bool.false_or]
  · rw [if_neg hi, decide_eq_true (Nat.le_of_not_lt hi), Bool.true_and,
      b.bit_of_le (Nat.le_of_not_lt hi), Bool.or_false]
    by_cases hhigh : i < high + low
    · rw [decide_eq_true hhigh, Bool.true_and]
    · rw [a.bit_of_le (by omega), Bool.and_false]

theorem toNat_trunc (h : outWidth ≤ inWidth) (v : Bits inWidth) :
    (trunc hpos h v).toNat = v.toNat % 2 ^ outWidth := by
  apply toNat_eq_of_bit
  intro i
  rw [bit_trunc, Nat.testBit_mod_two_pow, testBit_toNat]

theorem toNat_zext (h : inWidth ≤ outWidth) (v : Bits inWidth) : (zext h v).toNat = v.toNat := by
  apply toNat_eq_of_bit
  intro i
  rw [bit_zext, testBit_toNat]

theorem toNat_extract (h : outWidth ≤ inWidth) (v : Bits inWidth) (lsb : Nat) :
    (extract hpos h v lsb).toNat = v.toNat / 2 ^ lsb % 2 ^ outWidth := by
  rw [extract, toNat_trunc, toNat_lshr]

theorem toNat_concat (a : Bits high) (b : Bits low) :
    (concat a b).toNat = a.toNat * 2 ^ low + b.toNat := by
  apply toNat_eq_of_bit
  intro i
  rw [bit_concat, Nat.mul_comm, Nat.testBit_two_pow_mul_add _ b.toNat_lt, testBit_toNat,
    testBit_toNat]

/-- The numbers of the operands joined, each shifted by the widths that follow. -/
def joined (n : Nat) (rest : List (Sigma Bits)) : Nat :=
  rest.foldl (fun n part => n * 2 ^ part.1 + part.2.toNat) n

theorem joined_add (a n : Nat) (rest : List (Sigma Bits)) :
    joined (a + n) rest = a * 2 ^ (rest.map Sigma.fst).sum + joined n rest := by
  induction rest generalizing a n with
  | nil => simp [joined]
  | cons part rest ih =>
    have hhead : (a + n) * 2 ^ part.1 + part.2.toNat =
        a * 2 ^ part.1 + (n * 2 ^ part.1 + part.2.toNat) := by
      ring
    show joined ((a + n) * 2 ^ part.1 + part.2.toNat) rest = _
    rw [hhead, ih, List.map_cons, List.sum_cons, Nat.pow_add, Nat.mul_assoc]
    rfl

theorem toNat_concatAll {first : Nat} (a : Bits first) (rest : List (Sigma Bits)) :
    (concatAll a rest).toNat = joined a.toNat rest := by
  induction rest generalizing first with
  | nil => rfl
  | cons part rest ih =>
    show (concat a (concatAll part.2 rest)).toNat =
      joined (a.toNat * 2 ^ part.1 + part.2.toNat) rest
    rw [toNat_concat, ih, joined_add, Nat.mul_assoc, ← Nat.pow_add]

/-! ## Signed comparison -/

def slt (a b : Bits width) : Bool :=
  let sign := shl (Bits.ofLow a.positive 1#64) (width - 1)
  (a.xor sign).lt (b.xor sign)

def eq (a b : Bits width) : Bits 1 := Bits.ofLow Nat.one_pos (if a = b then 1#64 else 0#64)

def ult (a b : Bits width) : Bits 1 := Bits.ofLow Nat.one_pos (if a.lt b then 1#64 else 0#64)

theorem toNat_ult : (ult x y).toNat = (decide (x.toNat < y.toNat)).toNat := by
  unfold ult
  rw [Bits.lt_eq, toNat_ofLow]
  by_cases hlt : x.toNat < y.toNat <;> simp [hlt]

theorem toNat_eq : (eq x y).toNat = (decide (x.toNat = y.toNat)).toNat := by
  unfold eq
  rw [toNat_ofLow]
  by_cases heq : x = y
  · simp [heq]
  · have hne : x.toNat ≠ y.toNat := fun h => heq (ext_toNat h)
    simp [heq, hne]

/-- The bits of a number with another top bit. -/
theorem testBit_flip_top {m r : Nat} (hr : r < 2 ^ m) (top : Bool) (i : Nat) :
    (2 ^ m * (!top).toNat + r).testBit i =
      ((2 ^ m * top.toNat + r).testBit i ^^ decide (i = m)) := by
  rw [Nat.testBit_two_pow_mul_add _ hr, Nat.testBit_two_pow_mul_add _ hr]
  by_cases hi : i < m
  · rw [if_pos hi, if_pos hi, decide_eq_false (Nat.ne_of_lt hi), Bool.xor_false]
  · rw [if_neg hi, if_neg hi]
    by_cases heq : i = m
    · cases top <;> simp [heq]
    · have hne : i - m ≠ 0 := by omega
      have hbit : Nat.testBit 1 (i - m) = false :=
        Bool.eq_false_iff.mpr fun h => hne (Nat.testBit_one_eq_true_iff_self_eq_zero.mp h)
      cases top <;> simp [heq, hbit]

theorem Bits.two_pow_width (a : Bits width) : 2 ^ width = 2 * 2 ^ (width - 1) := by
  obtain ⟨m, rfl⟩ := Nat.exists_eq_add_of_lt a.positive
  rw [Nat.zero_add, Nat.add_sub_cancel, Nat.pow_succ']

/-- A number is its top bit and the rest. -/
theorem Bits.toNat_eq_top :
    a.toNat = 2 ^ (width - 1) * (a.bit (width - 1)).toNat + a.toNat % 2 ^ (width - 1) := by
  have hpow := a.two_pow_width
  have hlt : a.toNat / 2 ^ (width - 1) < 2 := by
    rw [Nat.div_lt_iff_lt_mul (Nat.two_pow_pos _), ← hpow]
    exact a.toNat_lt
  have htop : (a.bit (width - 1)).toNat = a.toNat / 2 ^ (width - 1) := by
    rw [← testBit_toNat, Nat.testBit_eq_decide_div_mod_eq, Nat.mod_eq_of_lt hlt]
    rcases Nat.lt_succ_iff_lt_or_eq.mp hlt with h | h
    · simp [Nat.lt_one_iff.mp h]
    · simp [h]
  rw [htop, Nat.div_add_mod]

/-- Flipping the sign bit adds half of the range to the signed value. -/
theorem toNat_xor_sign :
    ((a.xor (shl (Bits.ofLow a.positive 1#64) (width - 1))).toNat : Int) =
      a.toInt + (2 ^ (width - 1) : Nat) := by
  have hpow := a.two_pow_width
  have hone : (1#64).toNat % 2 ^ width = 1 :=
    Nat.mod_eq_of_lt (Nat.one_lt_two_pow (Nat.ne_of_gt a.positive))
  have hsign : ∀ i, (shl (Bits.ofLow a.positive 1#64) (width - 1)).bit i =
      decide (i = width - 1) := by
    intro i
    have hpos := Nat.two_pow_pos (width - 1)
    rw [← testBit_toNat, toNat_shl, toNat_ofLow, hone, Nat.one_mul,
      Nat.mod_eq_of_lt (by omega), Nat.testBit_two_pow]
    exact decide_eq_decide.mpr eq_comm
  have hxor : (a.xor (shl (Bits.ofLow a.positive 1#64) (width - 1))).toNat =
      2 ^ (width - 1) * (!a.bit (width - 1)).toNat + a.toNat % 2 ^ (width - 1) := by
    apply toNat_eq_of_bit
    intro i
    rw [bit_xor, hsign, testBit_flip_top (Nat.mod_lt _ (Nat.two_pow_pos _)), ← a.toNat_eq_top,
      testBit_toNat]
  have htop := a.toNat_eq_top
  rw [hxor, Bits.toInt, BitVec.toInt_eq_msb_cond, a.msb_toBitVec, toNat_toBitVec]
  cases hbit : a.bit (width - 1) with
  | false =>
    rw [hbit, Bool.toNat_false] at htop
    rw [if_neg Bool.false_ne_true, Bool.not_false, Bool.toNat_true]
    omega
  | true =>
    rw [hbit, Bool.toNat_true] at htop
    rw [if_pos rfl, Bool.not_true, Bool.toNat_false]
    omega

theorem slt_eq (b : Bits width) : slt a b = decide (a.toInt < b.toInt) := by
  unfold slt
  rw [Bits.lt_eq]
  have ha := toNat_xor_sign a
  have hb := toNat_xor_sign b
  apply decide_eq_decide.mpr
  omega

/-! ## Modular arithmetic -/

theorem toNat_sub_int :
    ((x.sub y).toNat : Int) = ((x.toNat : Int) - y.toNat) % (2 ^ width : Nat) := by
  have hy := y.toNat_lt
  have hsub : ((x.toNat + (2 ^ width - y.toNat) : Nat) : Int) =
      (x.toNat : Int) - y.toNat + (2 ^ width : Nat) := by
    omega
  rw [toNat_sub, Int.natCast_emod, hsub, Int.add_emod_right]

/-- The operators compute integer arithmetic modulo two to the width, for all values and shift
amounts; no result has a bit at or above its width in the top word. -/
theorem arithmetic_modular (x y : Bits width) (amount : Nat) :
    ((x.add y).toNat = (x.toNat + y.toNat) % 2 ^ width ∧
      ((x.sub y).toNat : Int) = ((x.toNat : Int) - y.toNat) % (2 ^ width : Nat) ∧
      (x.mul y).toNat = x.toNat * y.toNat % 2 ^ width) ∧
    ((shl x amount).toNat = x.toNat * 2 ^ amount % 2 ^ width ∧
      (lshr x amount).toNat = x.toNat / 2 ^ amount ∧
      (ashr x amount).toInt = x.toInt / 2 ^ amount) ∧
    (x.lt y = decide (x.toNat < y.toNat) ∧ x.gt y = decide (x.toNat > y.toNat) ∧
      x.le y = decide (x.toNat ≤ y.toNat) ∧ x.ge y = decide (x.toNat ≥ y.toNat) ∧
      (ult x y).toNat = (decide (x.toNat < y.toNat)).toNat ∧
      (eq x y).toNat = (decide (x.toNat = y.toNat)).toNat ∧
      slt x y = decide (x.toInt < y.toInt)) ∧
    (∀ {out : Nat} (hpos : 0 < out) (h : out ≤ width),
      (trunc hpos h x).toNat = x.toNat % 2 ^ out ∧ Canonical (trunc hpos h x).words ∧
      ∀ lsb, lsb + out ≤ width →
        (extract hpos h x lsb).toNat = x.toNat / 2 ^ lsb % 2 ^ out ∧
        Canonical (extract hpos h x lsb).words) ∧
    (∀ {out : Nat} (h : width ≤ out),
      (zext h x).toNat = x.toNat ∧ Canonical (zext h x).words) ∧
    (∀ {low : Nat} (z : Bits low) (rest : List (Sigma Bits)),
      (concat x z).toNat = x.toNat * 2 ^ low + z.toNat ∧ Canonical (concat x z).words ∧
      (concatAll x rest).toNat = joined x.toNat rest ∧ Canonical (concatAll x rest).words) ∧
    ∀ r ∈ [x.add y, x.sub y, x.mul y, shl x amount, lshr x amount, ashr x amount],
      Canonical r.words := by
  refine ⟨⟨toNat_add x y, toNat_sub_int x y, toNat_mul x y⟩,
    ⟨toNat_shl x amount, toNat_lshr x amount, toInt_ashr x amount⟩,
    ⟨x.lt_eq y, x.gt_eq y, x.le_eq y, x.ge_eq y, toNat_ult x y, toNat_eq x y, slt_eq x y⟩,
    fun hpos h => ⟨toNat_trunc hpos h x, (trunc hpos h x).canonical,
      fun lsb _ => ⟨toNat_extract hpos h x lsb, (extract hpos h x lsb).canonical⟩⟩,
    fun h => ⟨toNat_zext h x, (zext h x).canonical⟩,
    fun z rest => ⟨toNat_concat x z, (concat x z).canonical, toNat_concatAll x rest,
      (concatAll x rest).canonical⟩,
    fun r _ => r.canonical⟩

end PyCircuit.Gfsim
