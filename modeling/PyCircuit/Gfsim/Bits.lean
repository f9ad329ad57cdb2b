import PyCircuit.Lib.Limbs

/-!
# Fixed-width values in 64-bit words

The class `Bits<Width>` of `bits.h`: an array of 64-bit words, least significant word first, whose
top word has no bit at or above the width. Every constructor and `setWord` keep that, so it is a
field here, as is the assertion `Width > 0`.

The operations are related to the bits of the value (`bit_setWord`, `bit_fill`), and the bits to the
number the words stand for (`getLsbD_toBitVec`).
-/

set_option autoImplicit false

namespace PyCircuit.Gfsim

open PyCircuit.Lib

/-! ## Words -/

/-- `Bits::kWords`. -/
def kWords (width : Nat) : Nat := 1 + (width - 1) / 64

/-- `Bits::topMask`. -/
def topMask (width : Nat) : BitVec 64 :=
  if width % 64 = 0 then BitVec.allOnes 64 else (1#64 <<< (width % 64)) - 1#64

theorem kWords_pos (width : Nat) : 0 < kWords width := by
  unfold kWords
  omega

/-- The top word. -/
def topWord (width : Nat) : Fin (kWords width) :=
  ⟨kWords width - 1, Nat.sub_lt (kWords_pos width) Nat.one_pos⟩

/-- The storage `words_`. -/
abbrev Words (width : Nat) := Vector (BitVec 64) (kWords width)

/-- `Bits::maskTop`. -/
def maskTop {width : Nat} (words : Words width) : Words width :=
  words.set (topWord width) (words[topWord width] &&& topMask width)

/-- No bit of the top word is at or above the width. -/
def Canonical {width : Nat} (words : Words width) : Prop :=
  words[topWord width] &&& ~~~topMask width = 0#64

instance {width : Nat} (words : Words width) : Decidable (Canonical words) :=
  inferInstanceAs (Decidable (_ = _))

theorem and_topMask_and_not (w mask : BitVec 64) : w &&& mask &&& ~~~mask = 0#64 := by
  rw [BitVec.and_assoc]
  simp

theorem canonical_maskTop {width : Nat} (words : Words width) : Canonical (maskTop words) := by
  unfold Canonical maskTop
  rw [Fin.getElem_fin, Vector.getElem_set_self]
  exact and_topMask_and_not _ _

/-- The class `Bits<Width>`. -/
structure Bits (width : Nat) where
  words : Words width
  positive : 0 < width
  canonical : Canonical words
  deriving DecidableEq

namespace Bits

variable {width : Nat}

/-- The default constructor. -/
def zero (h : 0 < width) : Bits width where
  words := Vector.replicate _ 0#64
  positive := h
  canonical := by simp [Canonical]

/-- Words written one by one and masked at the end. -/
def ofWords (h : 0 < width) (words : Words width) : Bits width where
  words := maskTop words
  positive := h
  canonical := canonical_maskTop words

/-- The constructor from the low word. -/
def ofLow (h : 0 < width) (low : BitVec 64) : Bits width :=
  ofWords h ((Vector.replicate _ 0#64).set 0 low (kWords_pos width))

def word (x : Bits width) (i : Nat) : BitVec 64 :=
  if h : i < kWords width then x.words[i] else 0#64

theorem canonical_set {words : Words width} (hwords : Canonical words) {i : Nat}
    (hi : i < kWords width) (w : BitVec 64) (hw : i + 1 = kWords width →
      w &&& ~~~topMask width = 0#64) :
    Canonical (words.set i w) := by
  unfold Canonical at hwords ⊢
  rw [Fin.getElem_fin, Vector.getElem_set]
  split
  · next htop => exact hw (by rw [htop]; exact Nat.sub_add_cancel (kWords_pos width))
  · exact hwords

def setWord (x : Bits width) (i : Nat) (w : BitVec 64) : Bits width :=
  if hi : i < kWords width then
    if htop : i + 1 = kWords width then
      ⟨x.words.set i (w &&& topMask width), x.positive,
        canonical_set x.canonical hi _ fun _ => and_topMask_and_not w _⟩
    else ⟨x.words.set i w, x.positive, canonical_set x.canonical hi _ fun h => (htop h).elim⟩
  else x

def bit (x : Bits width) (i : Nat) : Bool :=
  if i ≥ width then false
  else ((x.word (i / 64) >>> (i % 64)) &&& 1#64) != 0#64

/-! ## The bits of a value -/

variable (x : Bits width) (j : Nat) (w : BitVec 64) (i : Nat)

theorem shift_and_one_ne_zero (j : Nat) : (((w >>> j) &&& 1#64) != 0#64) = w.getLsbD j := by
  rw [BitVec.and_one_eq_setWidth_ofBool_getLsbD, BitVec.getLsbD_ushiftRight, Nat.add_zero]
  cases w.getLsbD j <;> rfl

theorem getLsbD_topMask (width : Nat) {j : Nat} (hj : j < 64) :
    (topMask width).getLsbD j = (decide (width % 64 = 0) || decide (j < width % 64)) := by
  unfold topMask
  split
  · next hmod =>
    rw [BitVec.getLsbD_allOnes, decide_eq_true hj, decide_eq_true hmod, Bool.true_or]
  · next hmod =>
    have hlt : width % 64 < 64 := Nat.mod_lt _ (by decide)
    rw [← BitVec.testBit_toNat, Limbs.toNat_lowMask hlt, Nat.testBit_two_pow_sub_one,
      decide_eq_false hmod, Bool.false_or]

/-- The bits below the width are in the mask of the top word. -/
theorem getLsbD_topMask_of_lt {i : Nat} (htop : i / 64 = (width - 1) / 64) (hi : i < width) :
    (topMask width).getLsbD (i % 64) = true := by
  rw [getLsbD_topMask width (Nat.mod_lt _ (by decide)), Bool.or_eq_true]
  have hmask : width % 64 = 0 ∨ i % 64 < width % 64 := by omega
  rcases hmask with h | h
  · exact Or.inl (decide_eq_true h)
  · exact Or.inr (decide_eq_true h)

theorem bit_eq : x.bit i = (decide (i < width) && (x.word (i / 64)).getLsbD (i % 64)) := by
  unfold bit
  split
  · next hi => simp [Nat.not_lt.mpr hi]
  · next hi =>
    rw [decide_eq_true (Nat.lt_of_not_ge hi), Bool.true_and]
    exact shift_and_one_ne_zero _ _

theorem bit_of_le {i : Nat} (h : width ≤ i) : x.bit i = false := if_pos h

/-- The bits of the words are the bits of the value. -/
theorem getLsbD_word : (x.word (i / 64)).getLsbD (i % 64) = x.bit i := by
  rw [bit_eq]
  by_cases hi : i < width
  · rw [decide_eq_true hi, Bool.true_and]
  rw [decide_eq_false hi, Bool.false_and, word]
  split
  · next hword =>
    -- the word is the top word, and the bit is above the mask
    have hpos := x.positive
    unfold kWords at hword
    have htop : i / 64 = topWord width := by
      unfold topWord kWords
      dsimp only
      omega
    have hcanonical := congrArg (fun w : BitVec 64 => w.getLsbD (i % 64)) x.canonical
    have hj : i % 64 < 64 := Nat.mod_lt _ (by decide)
    have hmask : (topMask width).getLsbD (i % 64) = false := by
      rw [getLsbD_topMask width hj, Bool.or_eq_false_iff]
      exact ⟨decide_eq_false (by omega), decide_eq_false (by omega)⟩
    simp only [BitVec.getLsbD_and, BitVec.getLsbD_not, hmask, hj, decide_true, Bool.not_false,
      Bool.and_true] at hcanonical
    simpa only [htop, Fin.getElem_fin, BitVec.getLsbD_zero] using hcanonical
  · exact BitVec.getLsbD_zero

theorem word_setWord :
    (x.setWord j w).word i =
      if i = j ∧ j < kWords width then (if j + 1 = kWords width then w &&& topMask width else w)
      else x.word i := by
  unfold setWord word
  by_cases hj : j < kWords width
  · simp only [hj, dite_true, and_true]
    by_cases hi : i = j
    · subst hi
      by_cases htop : i + 1 = kWords width
      · simp [hj, htop]
      · simp [hj, htop]
    · have hne : ¬ j = i := fun h => hi h.symm
      by_cases htop : j + 1 = kWords width
      · simp [hi, htop, hne]
      · simp [hi, htop, hne]
  · simp [hj]

theorem bit_setWord :
    (x.setWord j w).bit i =
      if i / 64 = j then decide (i < width) && w.getLsbD (i % 64) else x.bit i := by
  rw [bit_eq, bit_eq x i, word_setWord]
  by_cases hword : i / 64 = j
  · rw [if_pos hword]
    by_cases hi : i < width
    · have hj : j < kWords width := by
        unfold kWords
        omega
      rw [if_pos ⟨hword, hj⟩]
      congr 1
      split
      · next htop =>
        unfold kWords at htop
        rw [BitVec.getLsbD_and, getLsbD_topMask_of_lt (by omega) hi, Bool.and_true]
      · rfl
    · rw [decide_eq_false hi, Bool.false_and, Bool.false_and]
  · rw [if_neg hword, if_neg (fun h => hword h.1)]

theorem bit_zero (h : 0 < width) (i : Nat) : (zero h).bit i = false := by
  rw [bit_eq, word]
  split <;> simp [zero]

theorem getLsbD_word_of_lt (k : Nat) {j : Nat} (hj : j < 64) :
    (x.word k).getLsbD j = x.bit (64 * k + j) := by
  have hdiv : (64 * k + j) / 64 = k := by omega
  have hmod : (64 * k + j) % 64 = j := by omega
  rw [← getLsbD_word, hdiv, hmod]

theorem word_of_lt {k : Nat} (hk : k < kWords width) : x.word k = x.words[k] :=
  dif_pos hk

/-- Values with the same bits are the same. -/
theorem ext_bit {x y : Bits width} (h : ∀ i, i < width → x.bit i = y.bit i) : x = y := by
  have hwords : x.words = y.words := by
    apply Vector.ext
    intro k hk
    apply BitVec.eq_of_getLsbD_eq
    intro j hj
    rw [← x.word_of_lt hk, ← y.word_of_lt hk, getLsbD_word_of_lt x k hj,
      getLsbD_word_of_lt y k hj]
    by_cases hi : 64 * k + j < width
    · exact h _ hi
    · rw [x.bit_of_le (Nat.le_of_not_lt hi), y.bit_of_le (Nat.le_of_not_lt hi)]
  cases x
  cases y
  cases hwords
  rfl

/-- The bits of words that are then masked. -/
theorem bit_ofWords (h : 0 < width) (words : Words width) {i : Nat} (hi : i < width)
    (hk : i / 64 < kWords width) : (ofWords h words).bit i = words[i / 64].getLsbD (i % 64) := by
  rw [bit_eq, decide_eq_true hi, Bool.true_and, word, dif_pos hk]
  unfold ofWords maskTop
  rw [Vector.getElem_set]
  split
  · next htop =>
    have hdiv : i / 64 = (width - 1) / 64 := by
      simp only [topWord, kWords] at htop
      omega
    rw [BitVec.getLsbD_and, getLsbD_topMask_of_lt hdiv hi, Bool.and_true]
    simp only [Fin.getElem_fin, htop]
  · rfl

theorem bit_ofLow_zero (h : 0 < width) (i : Nat) : (ofLow h 0#64).bit i = false := by
  by_cases hi : i < width
  · have hk : i / 64 < kWords width := by
      unfold kWords
      omega
    rw [ofLow, bit_ofWords _ _ hi hk, Vector.getElem_set, Vector.getElem_replicate, ite_self]
    exact BitVec.getLsbD_zero
  · exact bit_of_le _ (Nat.le_of_not_lt hi)

/-- The loop that sets `count` words from word `i` on. -/
def fill (f : Nat → BitVec 64) : Nat → Nat → Bits width → Bits width
  | 0, _, out => out
  | count + 1, i, out => fill f count (i + 1) (out.setWord i (f i))

theorem bit_fill (f : Nat → BitVec 64) (count start : Nat) (out : Bits width) (i : Nat) :
    (fill f count start out).bit i =
      if start ≤ i / 64 ∧ i / 64 < start + count then
        decide (i < width) && (f (i / 64)).getLsbD (i % 64)
      else out.bit i := by
  induction count generalizing start out with
  | zero =>
    rw [fill, if_neg (by omega)]
  | succ count ih =>
    rw [fill, ih, bit_setWord]
    by_cases hstart : i / 64 = start
    · rw [if_neg (by omega), if_pos hstart, if_pos (by omega), hstart]
    · rw [if_neg hstart]
      congr 1
      apply propext
      omega

/-- The operator `&`. -/
def and (x y : Bits width) : Bits width :=
  ofWords x.positive (Vector.zipWith (· &&& ·) x.words y.words)

theorem bit_and (y : Bits width) (i : Nat) : (x.and y).bit i = (x.bit i && y.bit i) := by
  by_cases hi : i < width
  · have hk : i / 64 < kWords width := by
      unfold kWords
      omega
    rw [and, bit_ofWords _ _ hi hk, Vector.getElem_zipWith, BitVec.getLsbD_and,
      ← x.word_of_lt hk, ← y.word_of_lt hk, getLsbD_word, getLsbD_word]
  · rw [bit_of_le _ (Nat.le_of_not_lt hi), bit_of_le x (Nat.le_of_not_lt hi), Bool.false_and]

/-! ## The number of a value -/

def toNat (x : Bits width) : Nat := Limbs.value x.words.toList

/-- The value as a bit vector of its width. -/
def toBitVec (x : Bits width) : BitVec width := BitVec.ofNat width x.toNat

/-- The two's-complement value. -/
def toInt (x : Bits width) : Int := x.toBitVec.toInt

theorem getLsbD_toBitVec : x.toBitVec.getLsbD i = x.bit i := by
  rw [toBitVec, BitVec.getLsbD_ofNat, toNat, Limbs.testBit_value (by decide), bit_eq, word]
  congr 2
  split
  · next hk => simp [hk]
  · next hk => simp [hk]

theorem testBit_toNat : x.toNat.testBit i = x.bit i := by
  rw [toNat, Limbs.testBit_value (by decide), ← getLsbD_word, word]
  congr 1
  split
  · next hk => simp [hk]
  · next hk => simp [hk]

/-- The words of a canonical value have no bit at or above the width. -/
theorem toNat_lt : x.toNat < 2 ^ width := by
  apply Nat.lt_pow_two_of_testBit
  intro i hi
  rw [testBit_toNat]
  exact x.bit_of_le hi

@[simp] theorem toNat_toBitVec : x.toBitVec.toNat = x.toNat := by
  rw [toBitVec, BitVec.toNat_ofNat, Nat.mod_eq_of_lt x.toNat_lt]

/-- Values with the same number are the same. -/
theorem ext_toNat {x y : Bits width} (h : x.toNat = y.toNat) : x = y := by
  apply ext_bit
  intro i _
  rw [← testBit_toNat, ← testBit_toNat, h]

/-- A number is found bit by bit. -/
theorem toNat_eq_of_bit {x : Bits width} {n : Nat} (h : ∀ i, x.bit i = n.testBit i) :
    x.toNat = n := by
  apply Nat.eq_of_testBit_eq
  intro i
  rw [testBit_toNat, h]

/-- Masking the top word takes the number modulo the width. -/
theorem toNat_ofWords (h : 0 < width) (words : Words width) :
    (ofWords h words).toNat = Limbs.value words.toList % 2 ^ width := by
  apply toNat_eq_of_bit
  intro i
  rw [Nat.testBit_mod_two_pow, Limbs.testBit_value (by decide)]
  by_cases hi : i < width
  · have hk : i / 64 < kWords width := by
      unfold kWords
      omega
    rw [bit_ofWords h words hi hk, decide_eq_true hi, Bool.true_and]
    simp [hk]
  · rw [bit_of_le _ (Nat.le_of_not_lt hi), decide_eq_false hi, Bool.false_and]

end Bits

end PyCircuit.Gfsim
