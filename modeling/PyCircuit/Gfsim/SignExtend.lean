import PyCircuit.Gfsim.FourState
import PyCircuit.Gfsim.Shift

/-!
# Sign extension

`sext` of `bits.h` copies the words and, when the sign bit is set, ors a fill into the word of the
sign bit and sets the words above. For a sign bit below bit 63 of its word the fill starts above the
sign bit. For bit 63 the fill stays all ones, so the whole word of the sign bit is overwritten
(`bit_sext`). `sext` keeps the two's-complement value, and `signExtend` keeps the four-state bits,
exactly when that changes nothing (`signExtension_iff`).
-/

set_option autoImplicit false

namespace PyCircuit.Gfsim

open PyCircuit.Lib Bits

variable {inWidth outWidth : Nat}

/-! ## The two operations -/

def sext (h : inWidth ≤ outWidth) (v : Bits inWidth) : Bits outWidth :=
  let out := Bits.fill v.word (kWords outWidth) 0 (Bits.zero (Nat.lt_of_lt_of_le v.positive h))
  if !v.bit (inWidth - 1) then out
  else
    -- Fill above the sign bit with 1s.
    let signWord := (inWidth - 1) / 64
    let signBit := (inWidth - 1) % 64
    let topFill :=
      if signBit < 63 then BitVec.allOnes 64 <<< (signBit + 1) else BitVec.allOnes 64
    let out := out.setWord signWord (out.word signWord ||| topFill)
    Bits.fill (fun _ => BitVec.allOnes 64) (kWords outWidth - (signWord + 1)) (signWord + 1) out

/-- The operation is `noexcept`: where the constructor throws, the program terminates. -/
def signExtend (h : inWidth ≤ outWidth) (v : FourState inWidth) : Option (FourState outWidth) :=
  (FourState.fromMasks (sext h v.value) (sext h v.knownMask) (sext h v.zMask)).toOption

/-! ## The bits of an extension -/

/-- The bits that the fill sets: those above the input and, when the sign bit is the last of its
word, those of that word. -/
def Filled (inWidth i : Nat) : Prop := inWidth ≤ i ∨ (inWidth % 64 = 0 ∧ inWidth ≤ i + 64)

instance (inWidth i : Nat) : Decidable (Filled inWidth i) := inferInstanceAs (Decidable (_ ∨ _))

variable {i : Nat} {v : FourState inWidth}

/-- The fill of the word of the sign bit. -/
theorem getLsbD_topFill (hpos : 0 < inWidth) (hword : i / 64 = (inWidth - 1) / 64) :
    (if (inWidth - 1) % 64 < 63 then BitVec.allOnes 64 <<< ((inWidth - 1) % 64 + 1)
      else BitVec.allOnes 64).getLsbD (i % 64) = decide (Filled inWidth i) := by
  have hmod : i % 64 < 64 := Nat.mod_lt _ (by decide)
  split
  · rw [BitVec.getLsbD_shiftLeft, BitVec.getLsbD_allOnes, decide_eq_true hmod, Bool.true_and,
      Bool.eq_iff_iff]
    simp only [Bool.and_eq_true, Bool.not_eq_true', decide_eq_true_eq, decide_eq_false_iff_not]
    unfold Filled
    omega
  · have hfilled : Filled inWidth i := by
      unfold Filled
      omega
    rw [BitVec.getLsbD_allOnes, decide_eq_true hmod, decide_eq_true hfilled]

/-- An extension copies the bits of the input and, when the sign bit is set, sets the filled
ones. -/
theorem bit_sext (h : inWidth ≤ outWidth) (v : Bits inWidth) (hi : i < outWidth) :
    (sext h v).bit i = (v.bit i || (v.bit (inWidth - 1) && decide (Filled inWidth i))) := by
  have hpos := v.positive
  have hcopy :
      (Bits.fill v.word (kWords outWidth) 0 (Bits.zero (Nat.lt_of_lt_of_le hpos h))).bit i =
      v.bit i := by
    rw [bit_fill_word, decide_eq_true hi, Bool.true_and]
  unfold sext
  cases hsign : v.bit (inWidth - 1) with
  | false =>
    rw [Bool.false_and, Bool.or_false]
    exact hcopy
  | true =>
    have hk : i / 64 < kWords outWidth := by
      unfold kWords
      omega
    have hmod : i % 64 < 64 := Nat.mod_lt _ (by decide)
    rw [if_neg (by decide), Bool.true_and, bit_fill]
    by_cases habove : (inWidth - 1) / 64 + 1 ≤ i / 64
    · -- a word above that of the sign bit
      have hfilled : Filled inWidth i := Or.inl (by omega)
      rw [if_pos ⟨habove, by omega⟩, decide_eq_true hi, BitVec.getLsbD_allOnes,
        decide_eq_true hmod, decide_eq_true hfilled, Bool.or_true, Bool.and_true]
    rw [if_neg (fun hrange => habove hrange.1), bit_setWord]
    by_cases hword : i / 64 = (inWidth - 1) / 64
    · rw [if_pos hword, decide_eq_true hi, Bool.true_and, BitVec.getLsbD_or,
        getLsbD_topFill hpos hword, ← hword, getLsbD_word, hcopy]
    · -- a word below that of the sign bit
      have hnot : ¬ Filled inWidth i := by
        unfold Filled
        omega
      rw [if_neg hword, decide_eq_false hnot, Bool.or_false, hcopy]

/-! ## When an extension is right -/

/-- Extending `v` leaves the word of its sign bit as it is. -/
def Bits.SignWordKept (v : Bits inWidth) : Prop :=
  inWidth % 64 = 0 → v.bit (inWidth - 1) = true →
    v.word ((inWidth - 1) / 64) = BitVec.allOnes 64

/-- The masks keep the word of their sign bit, and no known bit of that word changes its value. -/
structure FourState.SignWordKept (v : FourState inWidth) : Prop where
  known : v.knownMask.SignWordKept
  z : v.zMask.SignWordKept
  value : inWidth % 64 = 0 → v.value.bit (inWidth - 1) = true →
    v.knownMask.word ((inWidth - 1) / 64) &&& ~~~v.value.word ((inWidth - 1) / 64) = 0#64

/-- The bits of the word of the sign bit are the filled bits of the input. -/
theorem forall_filled (hpos : 0 < inWidth) {p : Nat → Prop} :
    (∀ i, i < inWidth → Filled inWidth i → p i) ↔
      (inWidth % 64 = 0 → ∀ j, j < 64 → p (64 * ((inWidth - 1) / 64) + j)) := by
  unfold Filled
  constructor
  · intro hp hmod j hj
    exact hp _ (by omega) (by omega)
  · intro hp i hi hfilled
    have hword : 64 * ((inWidth - 1) / 64) + i % 64 = i := by omega
    rw [← hword]
    exact hp (by omega) _ (Nat.mod_lt _ (by decide))

theorem Bits.word_eq_allOnes_iff {x : Bits inWidth} {k : Nat} :
    x.word k = BitVec.allOnes 64 ↔ ∀ j, j < 64 → x.bit (64 * k + j) = true := by
  constructor
  · intro hword j hj
    rw [← x.getLsbD_word_of_lt k hj, hword, BitVec.getLsbD_allOnes, decide_eq_true hj]
  · intro hbits
    apply BitVec.eq_of_getLsbD_eq
    intro j hj
    rw [x.getLsbD_word_of_lt k hj, hbits j hj, BitVec.getLsbD_allOnes, decide_eq_true hj]

theorem Bits.word_and_not_eq_zero_iff {x y : Bits inWidth} {k : Nat} :
    x.word k &&& ~~~y.word k = 0#64 ↔
      ∀ j, j < 64 → x.bit (64 * k + j) = true → y.bit (64 * k + j) = true := by
  have hbit : ∀ j, j < 64 → (x.word k &&& ~~~y.word k).getLsbD j =
      (x.bit (64 * k + j) && !y.bit (64 * k + j)) := by
    intro j hj
    rw [BitVec.getLsbD_and, BitVec.getLsbD_not, decide_eq_true hj, Bool.true_and,
      x.getLsbD_word_of_lt k hj, y.getLsbD_word_of_lt k hj]
  constructor
  · intro hword j hj hx
    have hj' := hbit j hj
    rw [hword, BitVec.getLsbD_zero, hx, Bool.true_and] at hj'
    simpa using hj'.symm
  · intro hbits
    apply BitVec.eq_of_getLsbD_eq
    intro j hj
    rw [hbit j hj, BitVec.getLsbD_zero]
    cases hx : x.bit (64 * k + j) with
    | false => rfl
    | true => rw [hbits j hj hx]; rfl

theorem Bits.signWordKept_iff {v : Bits inWidth} : v.SignWordKept ↔
    (v.bit (inWidth - 1) = true → ∀ i, i < inWidth → Filled inWidth i → v.bit i = true) := by
  rw [forall_filled v.positive, ← word_eq_allOnes_iff]
  exact ⟨fun h hsign hmod => h hmod hsign, fun h hmod hsign => h hsign hmod⟩

/-- The bits `f` of an output are the sign extension of the bits `g` of an input. -/
structure SignExtends {α : Type} (inWidth outWidth : Nat) (f g : Nat → α) : Prop where
  low : ∀ i, i < inWidth → f i = g i
  high : ∀ i, inWidth ≤ i → i < outWidth → f i = g (inWidth - 1)

/-- The bits of an extension are those of the sign extension iff the word of the sign bit is
kept. -/
theorem sext_signExtends_iff (h : inWidth ≤ outWidth) (v : Bits inWidth) :
    SignExtends inWidth outWidth (sext h v).bit v.bit ↔ v.SignWordKept := by
  rw [Bits.signWordKept_iff]
  constructor
  · intro hbits hsign i hi hfilled
    have hbit := hbits.low i hi
    rw [bit_sext h v (Nat.lt_of_lt_of_le hi h), hsign, decide_eq_true hfilled, Bool.and_true,
      Bool.or_true] at hbit
    exact hbit.symm
  · intro hkept
    constructor
    · intro i hi
      rw [bit_sext h v (Nat.lt_of_lt_of_le hi h)]
      cases hfill : v.bit (inWidth - 1) && decide (Filled inWidth i) with
      | false => exact Bool.or_false _
      | true =>
        obtain ⟨hsign, hfilled⟩ := Bool.and_eq_true_iff.mp hfill
        rw [hkept hsign i hi (of_decide_eq_true hfilled), Bool.true_or]
    · intro i hle hi
      have hfilled : Filled inWidth i := Or.inl hle
      rw [bit_sext h v hi, v.bit_of_le hle, Bool.false_or, decide_eq_true hfilled, Bool.and_true]

/-- The signed value is kept iff the bits are those of the sign extension. -/
theorem toInt_sext_iff (h : inWidth ≤ outWidth) (v : Bits inWidth) :
    (sext h v).toInt = v.toInt ↔ SignExtends inWidth outWidth (sext h v).bit v.bit := by
  have hmsb : v.toBitVec.msb = v.bit (inWidth - 1) := by
    rw [BitVec.msb_eq_getLsbD_last, getLsbD_toBitVec]
  have hbit : ∀ i, i < outWidth → (v.toBitVec.signExtend outWidth).getLsbD i =
      if i < inWidth then v.bit i else v.bit (inWidth - 1) := by
    intro i hi
    rw [BitVec.getLsbD_signExtend, decide_eq_true hi, Bool.true_and, getLsbD_toBitVec, hmsb]
  unfold Bits.toInt
  rw [← BitVec.toInt_signExtend_of_le h, BitVec.toInt_inj]
  constructor
  · intro heq
    constructor
    · intro i hi
      rw [← getLsbD_toBitVec, heq, hbit i (Nat.lt_of_lt_of_le hi h), if_pos hi]
    · intro i hle hi
      rw [← getLsbD_toBitVec, heq, hbit i hi, if_neg (Nat.not_lt.mpr hle)]
  · intro hbits
    apply BitVec.eq_of_getLsbD_eq
    intro i hi
    rw [hbit i hi, getLsbD_toBitVec]
    split
    · next hlt => exact hbits.low i hlt
    · next hge => exact hbits.high i (Nat.le_of_not_lt hge) hi

theorem FourState.signWordKept_value_iff :
    (inWidth % 64 = 0 → v.value.bit (inWidth - 1) = true →
      v.knownMask.word ((inWidth - 1) / 64) &&& ~~~v.value.word ((inWidth - 1) / 64) = 0#64) ↔
    (v.value.bit (inWidth - 1) = true → ∀ i, i < inWidth → Filled inWidth i →
      v.knownMask.bit i = true → v.value.bit i = true) := by
  rw [forall_filled v.value.positive, ← word_and_not_eq_zero_iff]
  exact ⟨fun h hsign hmod => h hmod hsign, fun h hmod hsign => h hsign hmod⟩

/-- The operation returns the value with the three masks extended, if they are disjoint. -/
theorem signExtend_eq_some {h : inWidth ≤ outWidth}
    {r : FourState outWidth} : signExtend h v = some r ↔
      r.value = sext h v.value ∧ r.knownMask = sext h v.knownMask ∧ r.zMask = sext h v.zMask := by
  unfold signExtend FourState.fromMasks
  split
  · next hdisjoint =>
    constructor
    · intro hr
      cases hr
      exact ⟨rfl, rfl, rfl⟩
    · intro hr
      obtain ⟨value, knownMask, zMask, hinvariant⟩ := r
      obtain ⟨rfl, rfl, rfl⟩ := hr
      rfl
  · next hoverlap =>
    constructor
    · intro hr
      cases hr
    · intro hr
      exact (hoverlap (hr.2.1 ▸ hr.2.2 ▸ r.invariant)).elim

/-- Extended masks that keep the word of the sign bit are disjoint. -/
theorem invariantHolds_sext (h : inWidth ≤ outWidth)
    (hknown : SignExtends inWidth outWidth (sext h v.knownMask).bit v.knownMask.bit)
    (hz : SignExtends inWidth outWidth (sext h v.zMask).bit v.zMask.bit) :
    invariantHolds (sext h v.knownMask) (sext h v.zMask) = true := by
  have hdisjoint := invariantHolds_iff.mp v.invariant
  apply invariantHolds_iff.mpr
  intro i hi
  by_cases hlt : i < inWidth
  · rw [hknown.low i hlt, hz.low i hlt]
    exact hdisjoint i hlt
  · have hle := Nat.le_of_not_lt hlt
    rw [hknown.high i hle hi, hz.high i hle hi]
    exact hdisjoint _ (Nat.sub_lt v.value.positive Nat.one_pos)

/-- The value of a known bit after the extension. -/
theorem sext_value_bit (h : inWidth ≤ outWidth)
    (hvalue : v.value.bit (inWidth - 1) = true → ∀ i, i < inWidth → Filled inWidth i →
      v.knownMask.bit i = true → v.value.bit i = true) (hi : i < inWidth)
    (hknown : v.knownMask.bit i = true) : (sext h v.value).bit i = v.value.bit i := by
  rw [bit_sext h v.value (Nat.lt_of_lt_of_le hi h)]
  cases hfill : v.value.bit (inWidth - 1) && decide (Filled inWidth i) with
  | false => exact Bool.or_false _
  | true =>
    obtain ⟨hsign, hfilled⟩ := Bool.and_eq_true_iff.mp hfill
    rw [hvalue hsign i hi (of_decide_eq_true hfilled) hknown, Bool.true_or]

/-- The operation returns the sign extension iff the word of the sign bit is kept. -/
theorem signExtend_signExtends_iff (h : inWidth ≤ outWidth) (v : FourState inWidth) :
    (∃ r, signExtend h v = some r ∧ SignExtends inWidth outWidth r.bit v.bit) ↔
      v.SignWordKept := by
  have hsign : inWidth - 1 < inWidth := Nat.sub_lt v.value.positive Nat.one_pos
  constructor
  · rintro ⟨r, hr, hbits⟩
    obtain ⟨hvalue, hknown, hz⟩ := signExtend_eq_some.mp hr
    have hlow : ∀ i (hi : i < inWidth), _ := fun i hi =>
      (FourState.bit_eq_bit (Nat.lt_of_lt_of_le hi h) hi).mp (hbits.low i hi)
    have hhigh : ∀ i (hle : inWidth ≤ i) (hi : i < outWidth), _ := fun i hle hi =>
      (FourState.bit_eq_bit hi hsign).mp (hbits.high i hle hi)
    rw [hvalue, hknown, hz] at hlow hhigh
    refine ⟨?_, ?_, ?_⟩
    · rw [← sext_signExtends_iff h]
      exact ⟨fun i hi => (hlow i hi).1, fun i hle hi => (hhigh i hle hi).1⟩
    · rw [← sext_signExtends_iff h]
      exact ⟨fun i hi => (hlow i hi).2.1, fun i hle hi => (hhigh i hle hi).2.1⟩
    · rw [FourState.signWordKept_value_iff]
      intro hset i hi hfilled hbit
      obtain ⟨hk, -, hv⟩ := hlow i hi
      rw [← hv (hk.trans hbit), bit_sext h _ (Nat.lt_of_lt_of_le hi h), hset,
        decide_eq_true hfilled, Bool.and_true, Bool.or_true]
  · intro hkept
    have hknown := (sext_signExtends_iff h _).mpr hkept.known
    have hz := (sext_signExtends_iff h _).mpr hkept.z
    have hvalue := FourState.signWordKept_value_iff.mp hkept.value
    obtain ⟨r, hr⟩ : ∃ r, signExtend h v = some r :=
      ⟨⟨sext h v.value, sext h v.knownMask, sext h v.zMask, invariantHolds_sext h hknown hz⟩,
        signExtend_eq_some.mpr ⟨rfl, rfl, rfl⟩⟩
    obtain ⟨hrv, hrk, hrz⟩ := signExtend_eq_some.mp hr
    refine ⟨r, hr, ?_⟩
    constructor
    · intro i hi
      apply (FourState.bit_eq_bit (Nat.lt_of_lt_of_le hi h) hi).mpr
      rw [hrv, hrk, hrz]
      refine ⟨hknown.low i hi, hz.low i hi, ?_⟩
      intro hbit
      exact sext_value_bit h hvalue hi ((hknown.low i hi).symm.trans hbit)
    · intro i hle hi
      apply (FourState.bit_eq_bit hi hsign).mpr
      rw [hrv, hrk, hrz]
      refine ⟨hknown.high i hle hi, hz.high i hle hi, ?_⟩
      intro _
      have hfilled : Filled inWidth i := Or.inl hle
      rw [bit_sext h _ hi, v.value.bit_of_le hle, Bool.false_or, decide_eq_true hfilled,
        Bool.and_true]

/-- Sign extension is right exactly on the inputs whose word of the sign bit it keeps. On those, and
on no others, `sext` returns the same two's-complement value with a canonical top word, and
`signExtend` does not terminate the program, returns disjoint masks, copies the bits of the input
and repeats its sign bit above them. -/
theorem signExtension_iff (h : inWidth ≤ outWidth) :
    (∀ v : Bits inWidth,
      ((sext h v).toInt = v.toInt ∧ Canonical (sext h v).words) ↔ v.SignWordKept) ∧
    (∀ v : FourState inWidth,
      (∃ r, signExtend h v = some r ∧ invariantHolds r.knownMask r.zMask = true ∧
        SignExtends inWidth outWidth r.bit v.bit) ↔ v.SignWordKept) := by
  constructor
  · intro v
    rw [toInt_sext_iff, sext_signExtends_iff]
    exact ⟨fun hv => hv.1, fun hv => ⟨hv, (sext h v).canonical⟩⟩
  · intro v
    rw [← signExtend_signExtends_iff h v]
    constructor
    · rintro ⟨r, hr, -, hbits⟩
      exact ⟨r, hr, hbits⟩
    · rintro ⟨r, hr, hbits⟩
      exact ⟨r, hr, r.invariant, hbits⟩

/-- The least signed value of 64 bits. -/
def leastWord : Bits 64 := Bits.ofLow (by decide) (BitVec.twoPow 64 63)

/-- A known sign bit and an undriven bit in one word. -/
def knownAndUndriven : FourState 64 where
  value := Bits.zero (by decide)
  knownMask := leastWord
  zMask := Bits.ofLow (by decide) 1#64
  invariant := by decide +kernel

/-- The least 64-bit value extends to minus one, and the extension of a value with a known sign bit
and an undriven bit terminates the program. -/
theorem signExtension_fails :
    leastWord.toInt = -2 ^ 63 ∧ (sext (by decide : 64 ≤ 128) leastWord).toInt = -1 ∧
    signExtend (by decide : 64 ≤ 128) knownAndUndriven = none := by
  refine ⟨by decide +kernel, by decide +kernel, by decide +kernel⟩

/-- Seven known zeros below an undriven sign bit. -/
def undrivenSign : FourState 8 where
  value := Bits.zero (by decide)
  knownMask := Bits.ofLow (by decide) 0x7f#64
  zMask := Bits.ofLow (by decide) 0x80#64
  invariant := by decide +kernel

/-- The least 8-bit value keeps its value, and an undriven sign bit is repeated. -/
theorem signExtension_iff_sample :
    (sext (by decide : 8 ≤ 16) (Bits.ofLow (by decide) 0x80#64)).toInt = -128 ∧
    ∃ r, signExtend (by decide : 8 ≤ 16) undrivenSign = some r ∧ r.bit 15 = .z := by
  obtain ⟨hbits, hfour⟩ := signExtension_iff (by decide : 8 ≤ 16)
  have hpartial : ¬ 8 % 64 = 0 := by decide
  constructor
  · rw [((hbits _).mpr fun h => absurd h hpartial).1]
    decide +kernel
  · obtain ⟨r, hr, -, hext⟩ := (hfour undrivenSign).mpr
      ⟨fun h => absurd h hpartial, fun h => absurd h hpartial, fun h => absurd h hpartial⟩
    exact ⟨r, hr, (hext.high 15 (by decide) (by decide)).trans (by decide +kernel)⟩

end PyCircuit.Gfsim
