import PyCircuit.Gfsim.Bits
import PyCircuit.Lib.Fallible

/-!
# Multiword arithmetic

The operators of `Bits<Width>` that go through the words: sums with a carry, differences with a
borrow, products by rows of partial products, comparisons from the top word down, and the bitwise
operators. A carry is one when a wrapped sum is below an operand, as the source finds it.

Each loop is related to the number of the words it has dealt with (`Limbs.below`); the last mask of
the top word then takes the result modulo two to the width.
-/

set_option autoImplicit false

namespace PyCircuit.Gfsim

open PyCircuit.Lib Limbs

variable {width : Nat}

/-! ## The words as digits -/

/-- A word, zero when there is none. -/
def wordAt (words : Words width) (i : Nat) : BitVec 64 :=
  if h : i < kWords width then words[i] else 0#64

variable (x y : Bits width) (out words : Words width) (i : Fin (kWords width)) (low a w : BitVec 64)
  (k : Nat) (state : Words width × BitVec 64)

theorem wordAt_of_lt {i : Nat} (h : i < kWords width) : wordAt words i = words[i] := dif_pos h

theorem wordAt_set_self : wordAt (words.set i w i.isLt) i = w := by
  rw [wordAt_of_lt _ i.isLt, Vector.getElem_set_self]

theorem wordAt_set_ne {j : Nat} (h : j ≠ i) : wordAt (words.set i w i.isLt) j = wordAt words j := by
  unfold wordAt
  split
  · exact Vector.getElem_set_ne i.isLt _ (fun heq => h heq.symm)
  · rfl

theorem value_words : value words.toList = below (wordAt words) (kWords width) := by
  rw [value_eq_below, Vector.length_toList]
  apply below_congr
  intro i hi
  rw [wordAt_of_lt words hi]
  simp [hi]

theorem below_replicate_zero :
    below (wordAt (Vector.replicate (kWords width) 0#64)) k = 0 := by
  induction k with
  | zero => rfl
  | succ k ih =>
    rw [below, ih, wordAt]
    split <;> simp

/-- The number of words that are zero above the first. -/
theorem below_first :
    below (wordAt ((Vector.replicate (kWords width) 0#64).set 0 low (kWords_pos width))) (k + 1) =
      low.toNat := by
  induction k with
  | zero =>
    rw [below, below, wordAt_of_lt _ (kWords_pos width), Vector.getElem_set_self]
    simp
  | succ k ih =>
    rw [below, ih, wordAt]
    split
    · rw [Vector.getElem_set_ne _ _ (Nat.succ_ne_zero k).symm]
      simp
    · simp

/-- The words hold the width. -/
theorem width_le_words (width : Nat) : width ≤ 64 * kWords width := by
  unfold kWords
  omega

namespace Bits

theorem toNat_eq_below : x.toNat = below x.word (kWords width) :=
  value_words x.words

theorem words_getElem : x.words[i] = x.word i :=
  (x.word_of_lt i.isLt).symm

/-! ## Sums and differences -/

/-- One round of the loop of `+`. -/
def addRound (x y : Bits width) (state : Words width × BitVec 64) (i : Fin (kWords width)) :
    Words width × BitVec 64 :=
  let sum := x.words[i] + y.words[i]
  let carryLow := Limbs.carryOut sum x.words[i]
  let withCarry := sum + state.2
  let carryHigh := Limbs.carryOut withCarry sum
  (state.1.set i withCarry i.isLt, carryLow ||| carryHigh)

/-- The operator `+`. -/
def add (x y : Bits width) : Bits width :=
  ofWords x.positive
    (Fin.foldl (kWords width) (addRound x y) (Vector.replicate _ 0#64, 0#64)).1

/-- One round of the loop of `-`. -/
def subRound (x y : Bits width) (state : Words width × BitVec 64) (i : Fin (kWords width)) :
    Words width × BitVec 64 :=
  let diff := x.words[i] - y.words[i]
  let borrowLow := Limbs.carryOut x.words[i] y.words[i]
  let withBorrow := diff - state.2
  let borrowHigh := Limbs.carryOut diff state.2
  (state.1.set i withBorrow i.isLt, borrowLow ||| borrowHigh)

/-- The operator `-`. -/
def sub (x y : Bits width) : Bits width :=
  ofWords x.positive
    (Fin.foldl (kWords width) (subRound x y) (Vector.replicate _ 0#64, 0#64)).1

/-- The words written so far and the carry are the sum of the words read so far. -/
def AddInvariant (x y : Bits width) (i : Nat) (state : Words width × BitVec 64) : Prop :=
  Limbs.below (wordAt state.1) i + 2 ^ (64 * i) * state.2.toNat =
      Limbs.below x.word i + Limbs.below y.word i ∧
    state.2.toNat ≤ 1

/-- The words written so far are the difference of the words read so far, the borrow being owed. -/
def SubInvariant (x y : Bits width) (i : Nat) (state : Words width × BitVec 64) : Prop :=
  Limbs.below (wordAt state.1) i + Limbs.below y.word i =
      Limbs.below x.word i + 2 ^ (64 * i) * state.2.toNat ∧
    state.2.toNat ≤ 1

/-- A round that writes word `i` leaves the words below. -/
theorem below_set :
    below (wordAt (words.set i w i.isLt)) (i + 1) =
      below (wordAt words) i + 2 ^ (64 * (i : Nat)) * w.toNat := by
  rw [below, wordAt_set_self]
  rw [below_congr fun j hj => wordAt_set_ne words i w (Nat.ne_of_lt hj)]

theorem addRound_invariant (h : AddInvariant x y i state) :
    AddInvariant x y (i + 1) (addRound x y state i) := by
  obtain ⟨hsum, hcarry⟩ := h
  obtain ⟨hdigit, hcarry'⟩ :=
    add_with_carry (by decide) x.words[i] y.words[i] hcarry
  refine ⟨?_, hcarry'⟩
  have hweighted := congrArg (fun n => 2 ^ (64 * (i : Nat)) * n) hdigit
  simp only [Nat.mul_add, ← Nat.mul_assoc] at hweighted
  unfold addRound
  dsimp only
  rw [below_set, below, below, two_pow_mul_succ, ← words_getElem x i,
    ← words_getElem y i]
  omega

theorem subRound_invariant (h : SubInvariant x y i state) :
    SubInvariant x y (i + 1) (subRound x y state i) := by
  obtain ⟨hdiff, hborrow⟩ := h
  obtain ⟨hdigit, hborrow'⟩ :=
    sub_with_borrow (by decide) x.words[i] y.words[i] hborrow
  refine ⟨?_, hborrow'⟩
  have hweighted := congrArg (fun n => 2 ^ (64 * (i : Nat)) * n) hdigit
  simp only [Nat.mul_add, ← Nat.mul_assoc] at hweighted
  unfold subRound
  dsimp only
  rw [below_set, below, below, two_pow_mul_succ, ← words_getElem x i,
    ← words_getElem y i]
  omega

/-- Multiples of the weight of all words vanish modulo the width. -/
theorem add_weight_mod (width n k : Nat) :
    (n + 2 ^ (64 * kWords width) * k) % 2 ^ width = n % 2 ^ width := by
  have hdvd : 2 ^ width ∣ 2 ^ (64 * kWords width) * k :=
    Nat.dvd_mul_right_of_dvd (Nat.pow_dvd_pow 2 (width_le_words width)) k
  exact Nat.add_modEq_left_iff.mpr hdvd

theorem toNat_add : (x.add y).toNat = (x.toNat + y.toNat) % 2 ^ width := by
  have hstart : AddInvariant x y 0 (Vector.replicate _ 0#64, 0#64) := ⟨by simp [below], by simp⟩
  obtain ⟨hsum, -⟩ := Loop.foldl_invariant (AddInvariant x y) hstart (addRound_invariant x y)
  rw [add, toNat_ofWords, value_words, toNat_eq_below x, toNat_eq_below y, ← hsum, add_weight_mod]

theorem toNat_sub : (x.sub y).toNat = (x.toNat + (2 ^ width - y.toNat)) % 2 ^ width := by
  have hstart : SubInvariant x y 0 (Vector.replicate _ 0#64, 0#64) := ⟨by simp [below], by simp⟩
  obtain ⟨hdiff, -⟩ := Loop.foldl_invariant (SubInvariant x y) hstart (subRound_invariant x y)
  rw [← toNat_eq_below, ← toNat_eq_below] at hdiff
  have hy := y.toNat_lt
  rw [sub, toNat_ofWords, value_words]
  generalize Fin.foldl (kWords width) (subRound x y) (Vector.replicate _ 0#64, 0#64) = state
    at hdiff ⊢
  have hmodulus : below (wordAt state.1) (kWords width) + 2 ^ width =
      x.toNat + (2 ^ width - y.toNat) + 2 ^ (64 * kWords width) * state.2.toNat := by
    omega
  calc below (wordAt state.1) (kWords width) % 2 ^ width
      = (below (wordAt state.1) (kWords width) + 2 ^ width) % 2 ^ width :=
        (Nat.add_mod_right _ _).symm
    _ = (x.toNat + (2 ^ width - y.toNat)) % 2 ^ width := by rw [hmodulus, add_weight_mod]

/-! ## Products -/

/-- `Bits::mulWord`: the high and low words of a product, from products of halves. -/
def mulWord (a b : BitVec 64) : BitVec 64 × BitVec 64 :=
  let aLow := a &&& 0xFFFFFFFF#64
  let aHigh := a >>> 32
  let bLow := b &&& 0xFFFFFFFF#64
  let bHigh := b >>> 32
  let lowLow := aLow * bLow
  let lowHigh := aLow * bHigh
  let highLow := aHigh * bLow
  let highHigh := aHigh * bHigh
  let mid := (lowLow >>> 32) + (lowHigh &&& 0xFFFFFFFF#64) + (highLow &&& 0xFFFFFFFF#64)
  let lo := (lowLow &&& 0xFFFFFFFF#64) ||| (mid <<< 32)
  let hi := highHigh + (lowHigh >>> 32) + (highLow >>> 32) + (mid >>> 32)
  (hi, lo)

/-- One round of the inner loop of `*`, for row `i`. -/
def mulRound (x y : Bits width) (i : Fin (kWords width)) (state : Words width × BitVec 64)
    (j : Fin (kWords width - i)) : Words width × BitVec 64 :=
  let idx : Fin (kWords width) := ⟨i + j, Nat.add_lt_of_lt_sub' j.isLt⟩
  let product := mulWord x.words[i] (y.word j)
  let cur := state.1[idx]
  let sum := cur + product.2
  let carryLow := Limbs.carryOut sum cur
  let withCarry := sum + state.2
  let carryHigh := Limbs.carryOut withCarry sum
  (state.1.set idx withCarry idx.isLt, product.1 + carryLow + carryHigh)

/-- One round of the outer loop. -/
def mulRow (x y : Bits width) (out : Words width) (i : Fin (kWords width)) : Words width :=
  (Fin.foldl (kWords width - i) (mulRound x y i) (out, 0#64)).1

/-- The operator `*`. -/
def mul (x y : Bits width) : Bits width :=
  ofWords x.positive (Fin.foldl (kWords width) (mulRow x y) (Vector.replicate _ 0#64))

theorem toNat_lowHalf : (a &&& 0xFFFFFFFF#64).toNat = a.toNat % 2 ^ 32 := by
  rw [BitVec.toNat_and]
  exact Nat.and_two_pow_sub_one_eq_mod a.toNat 32

theorem toNat_highHalf : (a >>> 32).toNat = a.toNat / 2 ^ 32 := by
  rw [BitVec.toNat_ushiftRight, Nat.shiftRight_eq_div_pow]

/-- A product of halves fits a word. -/
theorem toNat_mul_half {a b : BitVec 64} (ha : a.toNat < 2 ^ 32) (hb : b.toNat < 2 ^ 32) :
    (a * b).toNat = a.toNat * b.toNat ∧ a.toNat * b.toNat ≤ (2 ^ 32 - 1) * (2 ^ 32 - 1) := by
  have hle : a.toNat * b.toNat ≤ (2 ^ 32 - 1) * (2 ^ 32 - 1) :=
    Nat.mul_le_mul (Nat.le_sub_one_of_lt ha) (Nat.le_sub_one_of_lt hb)
  refine ⟨?_, hle⟩
  rw [BitVec.toNat_mul, Nat.mod_eq_of_lt (Nat.lt_of_le_of_lt hle (by decide))]

/-- Joining the low half of a word with another half. -/
theorem toNat_join (mid : BitVec 64) :
    ((low &&& 0xFFFFFFFF#64) ||| (mid <<< 32)).toNat =
      low.toNat % 2 ^ 32 + 2 ^ 32 * (mid.toNat % 2 ^ 32) := by
  have hshift : (mid <<< 32).toNat = 2 ^ 32 * (mid.toNat % 2 ^ 32) := by
    rw [BitVec.toNat_shiftLeft, Nat.shiftLeft_eq, Nat.mul_comm]
    exact Nat.mul_mod_mul_left (2 ^ 32) mid.toNat (2 ^ 32)
  rw [BitVec.toNat_or, toNat_lowHalf, hshift, Nat.or_comm,
    ← Nat.two_pow_add_eq_or_of_lt (Nat.mod_lt _ (by decide)), Nat.add_comm]

theorem toNat_mulWord (b : BitVec 64) :
    (mulWord a b).2.toNat + 2 ^ 64 * (mulWord a b).1.toNat = a.toNat * b.toNat := by
  have hlowA : (a &&& 0xFFFFFFFF#64).toNat < 2 ^ 32 := by
    rw [toNat_lowHalf]
    exact Nat.mod_lt _ (by decide)
  have hlowB : (b &&& 0xFFFFFFFF#64).toNat < 2 ^ 32 := by
    rw [toNat_lowHalf]
    exact Nat.mod_lt _ (by decide)
  have hhighA : (a >>> 32).toNat < 2 ^ 32 := by
    rw [toNat_highHalf]
    omega
  have hhighB : (b >>> 32).toNat < 2 ^ 32 := by
    rw [toNat_highHalf]
    omega
  obtain ⟨hll, hllBound⟩ := toNat_mul_half hlowA hlowB
  obtain ⟨hlh, hlhBound⟩ := toNat_mul_half hlowA hhighB
  obtain ⟨hhl, hhlBound⟩ := toNat_mul_half hhighA hlowB
  obtain ⟨hhh, hhhBound⟩ := toNat_mul_half hhighA hhighB
  -- the product from the products of halves
  have hsplit : a.toNat * b.toNat =
      (a &&& 0xFFFFFFFF#64).toNat * (b &&& 0xFFFFFFFF#64).toNat +
        2 ^ 32 * ((a &&& 0xFFFFFFFF#64).toNat * (b >>> 32).toNat +
          (a >>> 32).toNat * (b &&& 0xFFFFFFFF#64).toNat) +
        2 ^ 64 * ((a >>> 32).toNat * (b >>> 32).toNat) := by
    have hA : a.toNat = (a &&& 0xFFFFFFFF#64).toNat + 2 ^ 32 * (a >>> 32).toNat := by
      rw [toNat_lowHalf, toNat_highHalf]
      omega
    have hB : b.toNat = (b &&& 0xFFFFFFFF#64).toNat + 2 ^ 32 * (b >>> 32).toNat := by
      rw [toNat_lowHalf, toNat_highHalf]
      omega
    rw [hA, hB]
    generalize (a &&& 0xFFFFFFFF#64).toNat = al
    generalize (a >>> 32).toNat = ah
    generalize (b &&& 0xFFFFFFFF#64).toNat = bl
    generalize (b >>> 32).toNat = bh
    ring
  rw [hsplit, ← hll, ← hlh, ← hhl, ← hhh]
  rw [← hll] at hllBound
  rw [← hlh] at hlhBound
  rw [← hhl] at hhlBound
  rw [← hhh] at hhhBound
  unfold mulWord
  rw [toNat_join]
  simp only [BitVec.toNat_add, toNat_lowHalf, toNat_highHalf]
  omega

/-- The whole of the output and the carry of a row are what the row started from and the partial
products so far. -/
def RowInvariant (x y : Bits width) (i : Fin (kWords width)) (out : Words width) (j : Nat)
    (state : Words width × BitVec 64) : Prop :=
  Limbs.below (wordAt state.1) (kWords width) + 2 ^ (64 * (i + j)) * state.2.toNat =
    Limbs.below (wordAt out) (kWords width) +
      2 ^ (64 * (i : Nat)) * ((x.word i).toNat * Limbs.below y.word j)

/-- A round writes one word; the word and the carry are exact. -/
theorem mulRound_eq (j : Fin (kWords width - i)) :
    ∃ (idx : Fin (kWords width)) (w carry : BitVec 64), (idx : Nat) = i + j ∧
      mulRound x y i state j = (state.1.set idx w idx.isLt, carry) ∧
      w.toNat + 2 ^ 64 * carry.toNat =
        (wordAt state.1 idx).toNat + (x.word i).toNat * (y.word j).toNat + state.2.toNat := by
  let idx : Fin (kWords width) := ⟨i + j, Nat.add_lt_of_lt_sub' j.isLt⟩
  refine ⟨idx, _, _, rfl, rfl, ?_⟩
  rw [wordAt_of_lt state.1 idx.isLt, ← words_getElem x i]
  exact mul_add_carry (by decide) state.1[idx] state.2 (toNat_mulWord x.words[i] (y.word j))

theorem mulRound_invariant (out : Words width) (j : Fin (kWords width - i))
    (state : Words width × BitVec 64) (h : RowInvariant x y i out j state) :
    RowInvariant x y i out (j + 1) (mulRound x y i state j) := by
  obtain ⟨idx, w, carry, hidx, hround, hdigit⟩ := mulRound_eq x y i state j
  -- the write of this round, in the whole of the output
  have hwrite : below (wordAt (state.1.set idx w idx.isLt)) (kWords width) + _ =
      below (wordAt state.1) (kWords width) + _ :=
    below_write idx.isLt fun k hk => wordAt_set_ne state.1 idx w hk
  rw [wordAt_set_self] at hwrite
  have hweighted := congrArg (fun n => 2 ^ (64 * (idx : Nat)) * n) hdigit
  simp only [Nat.mul_add (2 ^ (64 * (idx : Nat)))] at hweighted
  have hpartial : 2 ^ (64 * (i : Nat)) * ((x.word i).toNat * below y.word (j + 1)) =
      2 ^ (64 * (i : Nat)) * ((x.word i).toNat * below y.word j) +
        2 ^ (64 * (idx : Nat)) * ((x.word i).toNat * (y.word j).toNat) := by
    rw [below, hidx, Nat.mul_add 64, Nat.pow_add]
    ring
  have hweight : 2 ^ (64 * (i + (j + 1) : Nat)) = 2 ^ (64 * (idx : Nat)) * 2 ^ 64 := by
    rw [hidx]
    exact two_pow_mul_succ 64 (i + j)
  unfold RowInvariant at h ⊢
  rw [← hidx] at h
  rw [hround, hpartial, hweight, Nat.mul_assoc]
  dsimp only
  omega

theorem mulRow_modEq :
    below (wordAt (mulRow x y out i)) (kWords width) ≡
      below (wordAt out) (kWords width) +
        2 ^ (64 * (i : Nat)) * (x.word i).toNat * y.toNat [MOD 2 ^ (64 * kWords width)] := by
  have hstart : RowInvariant x y i out 0 (out, 0#64) := by
    simp [RowInvariant, below]
  have hrow := Loop.foldl_invariant (RowInvariant x y i out) hstart (mulRound_invariant x y i out)
  have hi : (i : Nat) + (kWords width - i) = kWords width := Nat.add_sub_of_le (Nat.le_of_lt i.isLt)
  -- the words of the other operand that the row leaves out have no weight
  have hskipped : 2 ^ (64 * (i : Nat)) * (x.word i).toNat * y.toNat ≡
      2 ^ (64 * (i : Nat)) * ((x.word i).toNat * below y.word (kWords width - i))
        [MOD 2 ^ (64 * kWords width)] := by
    have hlow := below_modEq y.word (Nat.sub_le (kWords width) i)
    have hscaled := (hlow.mul_left (x.word i).toNat).mul_left' (2 ^ (64 * (i : Nat)))
    rw [← Nat.pow_add, ← Nat.mul_add, hi, ← toNat_eq_below] at hscaled
    rw [Nat.mul_assoc]
    exact hscaled
  unfold RowInvariant at hrow
  rw [hi] at hrow
  calc below (wordAt (mulRow x y out i)) (kWords width)
      ≡ below (wordAt (mulRow x y out i)) (kWords width) + 2 ^ (64 * kWords width) * _
          [MOD 2 ^ (64 * kWords width)] :=
        (Nat.add_modEq_left_iff.mpr (Nat.dvd_mul_right _ _)).symm
    _ = _ := hrow
    _ ≡ _ [MOD 2 ^ (64 * kWords width)] := hskipped.symm.add_left _

theorem toNat_mul : (x.mul y).toNat = x.toNat * y.toNat % 2 ^ width := by
  have hrows : below (wordAt (Fin.foldl (kWords width) (mulRow x y) (Vector.replicate _ 0#64)))
      (kWords width) ≡ below x.word (kWords width) * y.toNat
        [MOD 2 ^ (64 * kWords width)] := by
    refine Loop.foldl_invariant (fun i out => below (wordAt out) (kWords width) ≡
      below x.word i * y.toNat [MOD 2 ^ (64 * kWords width)]) ?_ fun i out hout => ?_
    · rw [below_replicate_zero, below, Nat.zero_mul]
    · refine (mulRow_modEq x y out i).trans ?_
      rw [below, Nat.add_mul]
      exact hout.add_right _
  rw [mul, toNat_ofWords, value_words, toNat_eq_below x]
  exact hrows.of_dvd (Nat.pow_dvd_pow 2 (width_le_words width))

/-! ## Comparisons -/

/-- The loop of `<` on the first `k` words, from the top one down. -/
def ltFrom (x y : Bits width) : Nat → Bool
  | 0 => false
  | k + 1 =>
    if x.word k < y.word k then true
    else if x.word k > y.word k then false
    else ltFrom x y k

/-- The operator `<`. -/
def lt (x y : Bits width) : Bool := ltFrom x y (kWords width)

/-- The operator `>`. -/
def gt (x y : Bits width) : Bool := y.lt x

/-- The operator `<=`. -/
def le (x y : Bits width) : Bool := !y.lt x

/-- The operator `>=`. -/
def ge (x y : Bits width) : Bool := !x.lt y

theorem ltFrom_eq : ltFrom x y k = decide (below x.word k < below y.word k) := by
  induction k with
  | zero => rfl
  | succ k ih =>
    rw [ltFrom, decide_eq_decide.mpr (below_lt_below_iff x.word y.word k)]
    by_cases hlt : x.word k < y.word k
    · rw [if_pos hlt, decide_eq_true (Or.inl hlt)]
    rw [if_neg hlt]
    by_cases hgt : x.word k > y.word k
    · have hne : x.word k ≠ y.word k := fun heq => BitVec.lt_irrefl (y.word k) (heq ▸ hgt)
      rw [if_pos hgt, decide_eq_false fun h => h.elim hlt fun heq => hne heq.1]
    · have heq : x.word k = y.word k :=
        BitVec.le_antisymm (BitVec.not_lt.mp hgt) (BitVec.not_lt.mp hlt)
      rw [if_neg hgt, ih]
      exact decide_eq_decide.mpr
        ⟨fun h => Or.inr ⟨heq, h⟩, fun h => h.elim (fun hlt' => absurd hlt' hlt) And.right⟩

theorem lt_eq : x.lt y = decide (x.toNat < y.toNat) := by
  rw [lt, ltFrom_eq, ← toNat_eq_below, ← toNat_eq_below]

theorem gt_eq : x.gt y = decide (x.toNat > y.toNat) := lt_eq y x

theorem le_eq : x.le y = decide (x.toNat ≤ y.toNat) := by
  rw [le, lt_eq, ← decide_not]
  exact decide_eq_decide.mpr Nat.not_lt

theorem ge_eq : x.ge y = decide (x.toNat ≥ y.toNat) := by
  rw [ge, lt_eq, ← decide_not]
  exact decide_eq_decide.mpr Nat.not_lt

/-! ## Bitwise operators -/

/-- The operator `|`. -/
def or (x y : Bits width) : Bits width :=
  ofWords x.positive (Vector.zipWith (· ||| ·) x.words y.words)

/-- The operator `^`. -/
def xor (x y : Bits width) : Bits width :=
  ofWords x.positive (Vector.zipWith (· ^^^ ·) x.words y.words)

/-- The operator `~`. -/
def not (x : Bits width) : Bits width := ofWords x.positive (x.words.map (~~~ ·))

/-- `Bits::ones`. -/
def ones (h : 0 < width) : Bits width := ofWords h (Vector.replicate _ (BitVec.allOnes 64))

/-- The bits of masked words, given word by word. -/
theorem bit_ofWords_eq (h : 0 < width) (words : Words width) {b : Bool} {i : Nat}
    (hword : ∀ hk : i / 64 < kWords width, i < width → words[i / 64].getLsbD (i % 64) = b)
    (hhigh : width ≤ i → b = false) : (ofWords h words).bit i = b := by
  by_cases hi : i < width
  · have hk : i / 64 < kWords width := by
      unfold kWords
      omega
    rw [bit_ofWords h words hi hk, hword hk hi]
  · have hle := Nat.le_of_not_lt hi
    rw [bit_of_le _ hle, hhigh hle]

theorem getLsbD_words {i : Nat} (hk : i / 64 < kWords width) :
    x.words[i / 64].getLsbD (i % 64) = x.bit i := by
  rw [← x.word_of_lt hk, getLsbD_word]

theorem bit_or (i : Nat) : (x.or y).bit i = (x.bit i || y.bit i) := by
  apply bit_ofWords_eq
  · intro hk _
    rw [Vector.getElem_zipWith, BitVec.getLsbD_or, getLsbD_words x hk, getLsbD_words y hk]
  · intro hle
    rw [x.bit_of_le hle, y.bit_of_le hle, Bool.or_false]

theorem bit_xor (i : Nat) : (x.xor y).bit i = (x.bit i ^^ y.bit i) := by
  apply bit_ofWords_eq
  · intro hk _
    rw [Vector.getElem_zipWith, BitVec.getLsbD_xor, getLsbD_words x hk, getLsbD_words y hk]
  · intro hle
    rw [x.bit_of_le hle, y.bit_of_le hle, Bool.xor_false]

theorem bit_not (i : Nat) : x.not.bit i = (decide (i < width) && !x.bit i) := by
  apply bit_ofWords_eq
  · intro hk hi
    rw [Vector.getElem_map, BitVec.getLsbD_not, getLsbD_words x hk, decide_eq_true hi,
      decide_eq_true (Nat.mod_lt i (by decide))]
  · intro hle
    rw [decide_eq_false (Nat.not_lt.mpr hle), Bool.false_and]

theorem bit_ones (h : 0 < width) (i : Nat) : (ones h).bit i = decide (i < width) := by
  apply bit_ofWords_eq
  · intro hk hi
    rw [Vector.getElem_replicate, BitVec.getLsbD_allOnes, decide_eq_true hi,
      decide_eq_true (Nat.mod_lt i (by decide))]
  · intro hle
    exact decide_eq_false (Nat.not_lt.mpr hle)

/-- The constructor from a word. -/
theorem toNat_ofLow (h : 0 < width) (low : BitVec 64) :
    (ofLow h low).toNat = low.toNat % 2 ^ width := by
  rw [ofLow, toNat_ofWords, value_words, ← below_first low (kWords width - 1),
    Nat.sub_add_cancel (kWords_pos width)]

end Bits

end PyCircuit.Gfsim
