import PyCircuit.Gfsim.Operators
import PyCircuit.Lib.BusOperators

/-!
# Four-state operators abstract two-state ones

No operator but `sign_extend` throws, and a known bit of a result is the bit that the two-state
operation gives for every completion of the operands (`Sound`). Where an operator works bit by bit,
a bit of the result is left unknown only if two completions give different bits (`Exact`).

For each operator the states of the result are found first, then the rules of `Bus.Exact` apply.
-/

set_option autoImplicit false

namespace PyCircuit.Gfsim

open PyCircuit.Lib Bits

/-! ## Two-state values -/

section

variable {width : Nat}

theorem toBitVec_add (a b : Bits width) : (a.add b).toBitVec = a.toBitVec + b.toBitVec := by
  apply BitVec.eq_of_toNat_eq
  rw [BitVec.toNat_add, toNat_toBitVec, toNat_toBitVec, toNat_toBitVec, toNat_add]

theorem toBitVec_sub (a b : Bits width) : (a.sub b).toBitVec = a.toBitVec - b.toBitVec := by
  apply BitVec.eq_of_toNat_eq
  rw [BitVec.toNat_sub, toNat_toBitVec, toNat_toBitVec, toNat_toBitVec, toNat_sub,
    Nat.add_comm]

theorem toBitVec_mul (a b : Bits width) : (a.mul b).toBitVec = a.toBitVec * b.toBitVec := by
  apply BitVec.eq_of_toNat_eq
  rw [BitVec.toNat_mul, toNat_toBitVec, toNat_toBitVec, toNat_toBitVec, toNat_mul]

theorem toBitVec_udiv (a b : Bits width) : (udiv a b).toBitVec = a.toBitVec / b.toBitVec := by
  apply BitVec.eq_of_toNat_eq
  rw [BitVec.toNat_udiv, toNat_toBitVec, toNat_toBitVec, toNat_toBitVec, toNat_udiv]

theorem toBitVec_urem {a b : Bits width} (hb : b.toNat ≠ 0) :
    (urem a b).toBitVec = a.toBitVec % b.toBitVec := by
  apply BitVec.eq_of_toNat_eq
  rw [BitVec.toNat_umod, toNat_toBitVec, toNat_toBitVec, toNat_toBitVec,
    toNat_urem hb]

theorem Bits.toBool_eq (v : Bits width) : v.toBool = v.bit 0 := by
  have hpos := v.positive
  rw [Bits.toBool, bit_eq, decide_eq_true hpos, Bool.true_and]
  exact Bits.shift_and_one_ne_zero (v.word 0) 0

/-- A mask is not zero when one of its bits is set. -/
theorem ne_zero_iff_exists_bit {mask : Bits width} :
    mask ≠ Bits.ofLow mask.positive 0#64 ↔ ∃ i : Fin width, mask.bit i = true := by
  constructor
  · intro hne
    by_contra hnone
    apply hne
    apply ext_bit
    intro i hi
    rw [bit_ofLow_zero]
    exact Bool.eq_false_iff.mpr fun hbit => hnone ⟨⟨i, hi⟩, hbit⟩
  · rintro ⟨i, hbit⟩ hzero
    rw [hzero, bit_ofLow_zero] at hbit
    exact Bool.false_ne_true hbit

/-- Without bits above the first word the number is that word. -/
theorem Bits.high_words_zero_iff (v : Bits width) :
    ((List.range' 1 (kWords width - 1)).any fun k => v.word k != 0#64) = false ↔
      v.toNat < 2 ^ 64 := by
  rw [List.any_eq_false]
  constructor
  · intro h
    apply Nat.lt_pow_two_of_testBit
    intro i hi
    rw [testBit_toNat, ← getLsbD_word]
    by_cases hk : i / 64 < kWords width
    · have hzero := h (i / 64) (List.mem_range'_1.mpr (by omega))
      rw [bne_iff_ne, not_not] at hzero
      rw [hzero, BitVec.getLsbD_zero]
    · rw [Bits.word, dif_neg hk, BitVec.getLsbD_zero]
  · intro h k hk
    have hpos := (List.mem_range'_1.mp hk).1
    rw [bne_iff_ne, not_not]
    apply BitVec.eq_of_getLsbD_eq
    intro j hj
    rw [v.getLsbD_word_of_lt k hj, ← testBit_toNat, BitVec.getLsbD_zero]
    apply Nat.testBit_lt_two_pow
    exact Nat.lt_of_lt_of_le h (Nat.pow_le_pow_right (by decide) (by omega))

theorem Bits.toNat_word_of_lt {v : Bits width} (h : v.toNat < 2 ^ 64) :
    (v.word 0).toNat = v.toNat := by
  apply Nat.eq_of_testBit_eq
  intro i
  rw [BitVec.testBit_toNat]
  by_cases hi : i < 64
  · rw [v.getLsbD_word_of_lt 0 hi, Nat.mul_zero, Nat.zero_add, testBit_toNat]
  · have hle := Nat.le_of_not_lt hi
    rw [BitVec.getLsbD_of_ge _ _ hle]
    exact (Nat.testBit_lt_two_pow
      (Nat.lt_of_lt_of_le h (Nat.pow_le_pow_right (by decide) hle))).symm

end

namespace FourState

variable {width : Nat}

/-- The operation returns a well-formed value with right known bits. -/
def Sound (out : Except String (FourState width)) (results : Set (BitVec width)) : Prop :=
  ∃ v, out = .ok v ∧ invariantHolds v.knownMask v.zMask = true ∧ v.bus.Sound results

/-- The operation returns a well-formed value with right known bits; no other bit is determined. -/
def Exact (out : Except String (FourState width)) (results : Set (BitVec width)) : Prop :=
  ∃ v, out = .ok v ∧ invariantHolds v.knownMask v.zMask = true ∧ v.bus.Exact results

variable {out : Except String (FourState width)} {x y : FourState width}
  {predicate : ComparePredicate} {low : Nat}

theorem Returns.sound {b : Bus width}
    {results : Set (BitVec width)} (hout : Returns out b) (h : b.Sound results) :
    Sound out results := by
  obtain ⟨v, hv, rfl⟩ := hout
  exact ⟨v, hv, v.invariant, h⟩

theorem Returns.exact {b : Bus width}
    {results : Set (BitVec width)} (hout : Returns out b) (h : b.Exact results) :
    Exact out results := by
  obtain ⟨v, hv, rfl⟩ := hout
  exact ⟨v, hv, v.invariant, h⟩

/-! ## Bitwise operators -/

theorem bitNot_returns (v : FourState width) : Returns (bitNot v) fun i => (v.bus i).not := by
  apply fromMasks_returns
  intro i
  rw [bus_apply, bit_ofLow_zero, bit_not, decide_eq_true i.isLt]
  cases v.knownMask.bit i <;> cases v.zMask.bit i <;> cases v.value.bit i <;> decide

theorem bitAnd_returns (x y : FourState width) :
    Returns (bitAnd x y) (Bus.bitwise .and x.bus y.bus) := by
  apply fromMasks_returns
  intro i
  rw [Bus.bitwise, bus_apply, bus_apply]
  simp only [bit_ofLow_zero, bit_or, bit_and, bit_not, decide_eq_true i.isLt]
  cases x.knownMask.bit i <;> cases y.knownMask.bit i <;> cases x.value.bit i <;>
    cases y.value.bit i <;> cases x.zMask.bit i <;> cases y.zMask.bit i <;> decide

theorem bitOr_returns (x y : FourState width) :
    Returns (bitOr x y) (Bus.bitwise .or x.bus y.bus) := by
  apply fromMasks_returns
  intro i
  rw [Bus.bitwise, bus_apply, bus_apply]
  simp only [bit_ofLow_zero, bit_or, bit_and, bit_not, decide_eq_true i.isLt]
  cases x.knownMask.bit i <;> cases y.knownMask.bit i <;> cases x.value.bit i <;>
    cases y.value.bit i <;> cases x.zMask.bit i <;> cases y.zMask.bit i <;> decide

theorem bitXor_returns (x y : FourState width) :
    Returns (bitXor x y) (Bus.bitwise .xor x.bus y.bus) := by
  apply fromMasks_returns
  intro i
  rw [Bus.bitwise, bus_apply, bus_apply]
  simp only [bit_ofLow_zero, bit_xor, bit_and]
  cases x.knownMask.bit i <;> cases y.knownMask.bit i <;> cases x.value.bit i <;>
    cases y.value.bit i <;> cases x.zMask.bit i <;> cases y.zMask.bit i <;> decide

/-! ## Arithmetic -/

/-- The operands are known, as the operators test it. -/
theorem fullyKnown_of_not (h : ¬ (!x.isFullyKnown || !y.isFullyKnown) = true) :
    x.bus = Bus.ofBitVec x.value.toBitVec ∧ y.bus = Bus.ofBitVec y.value.toBitVec := by
  rw [Bool.or_eq_true, not_or, Bool.not_eq_true', Bool.not_eq_true', Bool.not_eq_false,
    Bool.not_eq_false] at h
  exact ⟨(isFullyKnown_iff x).mp h.1, (isFullyKnown_iff y).mp h.2⟩

/-- Otherwise some bit of an operand is not known. -/
theorem exists_not_known (h : (!x.isFullyKnown || !y.isFullyKnown) = true) :
    ∃ i, ¬ (x.bus i).Known ∨ ¬ (y.bus i).Known := by
  have hone : ∀ {v : FourState width}, (!v.isFullyKnown) = true → ∃ i, ¬ (v.bus i).Known := by
    intro v hv
    by_contra hnone
    have hall : ∀ i, (v.bus i).Known := fun i => not_not.mp fun hi => hnone ⟨i, hi⟩
    have hbus : v.bus = Bus.ofBitVec v.value.toBitVec := by
      funext i
      have hi := hall i
      revert hi
      rw [bus_apply, Bus.ofBitVec, getLsbD_toBitVec]
      cases v.knownMask.bit i <;> cases v.zMask.bit i <;> cases v.value.bit i <;> decide
    rw [(isFullyKnown_iff v).mpr hbus] at hv
    exact Bool.false_ne_true hv
  rcases Bool.or_eq_true_iff.mp h with hx | hy
  · obtain ⟨i, hi⟩ := hone hx
    exact ⟨i, Or.inl hi⟩
  · obtain ⟨i, hi⟩ := hone hy
    exact ⟨i, Or.inr hi⟩

/-- A known result describes the operation on the values of known operands. -/
theorem sound_of_fullyKnown {outWidth : Nat} {value : Bits outWidth}
    {g : BitVec width → BitVec width → BitVec outWidth}
    (hknown : ¬ (!x.isFullyKnown || !y.isFullyKnown) = true)
    (hvalue : value.toBitVec = g x.value.toBitVec y.value.toBitVec) :
    Sound (known value) (Bus.outcomes₂ x.bus y.bus g) := by
  obtain ⟨hx, hy⟩ := fullyKnown_of_not hknown
  rw [hx, hy, Bus.outcomes₂_ofBitVec, ← hvalue]
  exact (known_returns _).sound (Bus.exact_ofBitVec fun _ hr => hr).1

section

variable {f : Bits width → Bits width → Bits width} {g : BitVec width → BitVec width → BitVec width}

theorem strict_sound (hf : ∀ a b, (f a b).toBitVec = g a.toBitVec b.toBitVec)
    (x y : FourState width) : Sound (strict f x y) (Bus.outcomes₂ x.bus y.bus g) := by
  unfold strict
  split
  · exact (unknown_returns _).sound (Bus.sound_unknown _)
  · next hknown => exact sound_of_fullyKnown hknown (hf _ _)

theorem strictDivision_sound (hf : ∀ a b, b.toNat ≠ 0 → (f a b).toBitVec = g a.toBitVec b.toBitVec)
    (x y : FourState width) : Sound (strictDivision f x y) (Bus.outcomes₂ x.bus y.bus g) := by
  unfold strictDivision
  split
  · exact (unknown_returns _).sound (Bus.sound_unknown _)
  · next hknown =>
    rw [Bool.or_eq_true, not_or, decide_eq_true_iff] at hknown
    obtain ⟨hboth, hzero⟩ := hknown
    refine sound_of_fullyKnown hboth (hf _ _ fun h => hzero (ext_toNat ?_))
    rw [h, toNat_ofLow_zero]

end

/-! ## Comparisons -/

/-- What a predicate says about two-state values. -/
def ComparePredicate.holds (predicate : ComparePredicate) (a b : BitVec width) : Bool :=
  match predicate with
  | .eq => a == b
  | .ne => a != b
  | .ult => a.ult b
  | .ule => a.ule b
  | .ugt => b.ult a
  | .uge => b.ule a
  | .slt => a.slt b
  | .sle => a.sle b
  | .sgt => b.slt a
  | .sge => b.sle a
  | .caseEq => a == b

/-- The predicates that compare numbers. -/
def ComparePredicate.Ordered (predicate : ComparePredicate) : Prop :=
  predicate ≠ .caseEq ∧ predicate ≠ .eq ∧ predicate ≠ .ne

theorem toBitVec_flag (b : Bool) : (flag b).toBitVec = BitVec.ofBool b := by
  cases b <;> decide

theorem bit_flag (b : Bool) : (flag b).bit 0 = b := by
  cases b <;> decide

theorem orderedResult_eq (h : predicate.Ordered) (a b : Bits width) :
    orderedResult predicate a b = predicate.holds a.toBitVec b.toBitVec := by
  obtain ⟨hcase, heq, hne⟩ := h
  have hult : ∀ c d : Bits width, c.toBitVec.ult d.toBitVec = decide (c.toNat < d.toNat) := by
    intro c d
    rw [BitVec.ult_eq_decide, toNat_toBitVec, toNat_toBitVec]
  have hule : ∀ c d : Bits width, c.toBitVec.ule d.toBitVec = decide (c.toNat ≤ d.toNat) := by
    intro c d
    rw [BitVec.ule_eq_decide, toNat_toBitVec, toNat_toBitVec]
  have hslt : ∀ c d : Bits width, Gfsim.slt c d = c.toBitVec.slt d.toBitVec := slt_eq
  have hsle : ∀ c d : Bits width, (!Gfsim.slt c d) = d.toBitVec.sle c.toBitVec := by
    intro c d
    rw [hslt, BitVec.sle_eq_not_slt]
  cases predicate with
  | eq => exact absurd rfl heq
  | ne => exact absurd rfl hne
  | caseEq => exact absurd rfl hcase
  | ult => exact (a.lt_eq b).trans (hult a b).symm
  | ule => exact (a.le_eq b).trans (hule a b).symm
  | ugt => exact (a.gt_eq b).trans (hult b a).symm
  | uge => exact (a.ge_eq b).trans (hule b a).symm
  | slt => exact hslt a b
  | sle => exact hsle b a
  | sgt => exact hslt b a
  | sge => exact hsle a b

theorem compare_ordered_sound (h : predicate.Ordered)
    (x y : FourState width) :
    Sound (compare predicate x y)
      (Bus.outcomes₂ x.bus y.bus fun a b => BitVec.ofBool (predicate.holds a b)) := by
  obtain ⟨hcase, heq, hne⟩ := h
  have hequality : ¬ (predicate = .eq ∨ predicate = .ne) := fun hor => hor.elim heq hne
  unfold compare
  rw [if_neg hcase, if_neg hequality]
  split
  · exact (unknown_returns _).sound (Bus.sound_unknown _)
  · next hknown =>
    refine sound_of_fullyKnown hknown ?_
    rw [toBitVec_flag, orderedResult_eq ⟨hcase, heq, hne⟩]

/-- Wires that are known to differ. -/
def Differ (a b : Logic) : Prop := ∃ p, a = .ofBool p ∧ b = .ofBool (!p)

theorem difference_ne_zero_iff (x y : FourState width) :
    ((x.value.xor y.value).and x.knownMask).and y.knownMask ≠ Bits.ofLow x.value.positive 0#64 ↔
      ∃ i, Differ (x.bus i) (y.bus i) := by
  refine ne_zero_iff_exists_bit.trans (exists_congr fun i => ?_)
  rw [bit_and, bit_and, bit_xor, bus_apply, bus_apply]
  unfold Differ
  cases x.knownMask.bit i <;> cases y.knownMask.bit i <;> cases x.value.bit i <;>
    cases y.value.bit i <;> cases x.zMask.bit i <;> cases y.zMask.bit i <;> decide

/-- The comparison decided by wires that are known to differ, or by known operands, and unknown
otherwise, is exact. -/
theorem compare_equality_exact (h : predicate = .eq ∨ predicate = .ne) (x y : FourState width) :
    Exact (compare predicate x y)
      (Bus.outcomes₂ x.bus y.bus fun a b => BitVec.ofBool (predicate.holds a b)) := by
  have hcase : predicate ≠ .caseEq := by
    rcases h with rfl | rfl <;> decide
  have hequal : ∀ v : BitVec width, predicate.holds v v = decide (predicate = .eq) := by
    intro v
    rcases h with rfl | rfl <;> simp [ComparePredicate.holds]
  have hdistinct : ∀ {v w : BitVec width}, v ≠ w →
      predicate.holds v w = decide (predicate = .ne) := by
    intro v w hne
    rcases h with rfl | rfl <;> simp [ComparePredicate.holds, hne]
  unfold compare
  rw [if_neg hcase, if_pos h]
  dsimp only
  split
  · next hdiff =>
    obtain ⟨i, p, hx, hy⟩ := (difference_ne_zero_iff x y).mp hdiff
    refine (known_returns _).exact (Bus.exact_ofBitVec ?_)
    rintro _ ⟨v, w, hv, hw, rfl⟩
    have hne : v ≠ w := by
      rintro rfl
      have hone := hv i p hx
      have htwo := hw i (!p) hy
      rw [hone] at htwo
      exact Bool.not_ne_self p htwo.symm
    dsimp only
    rw [hdistinct hne, toBitVec_flag]
  · next hdiff =>
    have hagree : ∀ i, ∃ c, (x.bus i).Admits c ∧ (y.bus i).Admits c := by
      intro i
      have hno : ¬ Differ (x.bus i) (y.bus i) := fun hd =>
        hdiff ((difference_ne_zero_iff x y).mpr ⟨i, hd⟩)
      revert hno
      unfold Differ
      cases x.bus i <;> cases y.bus i <;> decide
    obtain ⟨u, hux, huy⟩ := Bus.exists_equal_completions hagree
    split
    · next hunknown =>
      -- an operand bit that is not known lets the operands be equal or not
      obtain ⟨i, hi⟩ := exists_not_known hunknown
      obtain ⟨v, w, hv, hw, hne⟩ := Bus.exists_distinct_completions hi
      refine (unknown_returns _).exact ⟨Bus.sound_unknown _, fun j _ => ?_⟩
      refine ⟨_, ⟨u, u, hux, huy, rfl⟩, _, ⟨v, w, hv, hw, rfl⟩, ?_⟩
      dsimp only
      rw [hequal, hdistinct hne]
      obtain rfl : j = 0 := Subsingleton.elim j 0
      rcases h with rfl | rfl <;> decide
    · next hknown =>
      obtain ⟨hx, hy⟩ := fullyKnown_of_not hknown
      rw [hx] at hux
      rw [hy] at huy
      refine (known_returns _).exact (Bus.exact_ofBitVec ?_)
      rw [hx, hy, Bus.outcomes₂_ofBitVec]
      rintro _ rfl
      rw [← Bus.completes_ofBitVec.mp hux, ← Bus.completes_ofBitVec.mp huy, hequal, toBitVec_flag]

/-- Two values are equivalent when the states of all bits are the same. -/
theorem parityEquivalent_iff (x y : FourState width) :
    x.parityEquivalent y = true ↔ ∀ i, x.bus i = y.bus i := by
  have hstates : (∀ i, x.bus i = y.bus i) ↔ x.knownMask = y.knownMask ∧ x.zMask = y.zMask ∧
      ∀ i : Fin width, x.knownMask.bit i = true → x.value.bit i = y.value.bit i := by
    constructor
    · intro h
      have hbit := fun i : Fin width => (bit_eq_bit i.isLt i.isLt).mp (h i)
      exact ⟨ext_bit fun i hi => (hbit ⟨i, hi⟩).1,
        ext_bit fun i hi => (hbit ⟨i, hi⟩).2.1, fun i => (hbit i).2.2⟩
    · rintro ⟨hknown, hz, hvalue⟩ i
      exact (bit_eq_bit i.isLt i.isLt).mpr ⟨hknown ▸ rfl, hz ▸ rfl, hvalue i⟩
  have hvalues : (x.value.xor y.value).and x.knownMask = Bits.ofLow x.value.positive 0#64 ↔
      ∀ i : Fin width, x.knownMask.bit i = true → x.value.bit i = y.value.bit i := by
    constructor
    · intro hzero i hknown
      have hbit := congrArg (fun v => v.bit i) hzero
      simp only [bit_and, bit_xor, bit_ofLow_zero, hknown, Bool.and_true] at hbit
      exact bne_eq_false_iff_eq.mp hbit
    · intro hvalue
      apply ext_bit
      intro i hi
      rw [bit_and, bit_xor, bit_ofLow_zero]
      cases hknown : x.knownMask.bit i with
      | false => exact Bool.and_false _
      | true => rw [hvalue ⟨i, hi⟩ hknown, Bool.xor_self, Bool.false_and]
  rw [hstates]
  unfold parityEquivalent
  rw [x.invariant, y.invariant]
  rw [← hvalues]
  by_cases hknown : x.knownMask = y.knownMask
  · by_cases hz : x.zMask = y.zMask
    · simp [hknown, hz]
    · simp [hz]
  · simp [hknown]

/-- Case equality is known, and true when the states of all bits are the same. -/
theorem compare_caseEq (x y : FourState width) :
    ∃ v, compare .caseEq x y = .ok v ∧ invariantHolds v.knownMask v.zMask = true ∧
      v.isFullyKnown = true ∧ (v.value.bit 0 = true ↔ ∀ i, x.bus i = y.bus i) := by
  have hinvariant : invariantHolds (Bits.ones Nat.one_pos) (Bits.ofLow Nat.one_pos 0#64) = true :=
    invariantHolds_iff.mpr fun i _ h => Bool.false_ne_true ((bit_ofLow_zero _ i).symm.trans h.2)
  refine ⟨⟨flag (x.parityEquivalent y), _, _, hinvariant⟩, dif_pos hinvariant, hinvariant, ?_, ?_⟩
  · unfold isFullyKnown
    exact Bool.and_eq_true_iff.mpr ⟨decide_eq_true rfl, decide_eq_true rfl⟩
  · rw [← parityEquivalent_iff, bit_flag]

/-! ## Selection and widths -/

theorem select_returns (c : FourState 1) (x y : FourState width) :
    Returns (select c x y) (Bus.select (c.bus 0) x.bus y.bus) := by
  unfold select
  split
  · next hknown =>
    have hc : c.bus 0 = .ofBool (c.value.bit 0) := by
      rw [(isFullyKnown_iff c).mp hknown, Bus.ofBitVec, getLsbD_toBitVec]
      rfl
    rw [hc, Bits.toBool_eq]
    cases c.value.bit 0 with
    | true => exact ⟨x, rfl, rfl⟩
    | false => exact ⟨y, rfl, rfl⟩
  · next hunknown =>
    have hc : ¬ (c.bus 0).Known := by
      intro hc
      obtain ⟨i, hi⟩ := exists_not_known (x := c) (y := c) (by simpa using hunknown)
      obtain rfl : i = 0 := Subsingleton.elim i 0
      exact hi.elim (fun h => h hc) fun h => h hc
    apply fromMasks_returns
    intro i
    have hx := x.not_known_and_z i
    have hy := y.not_known_and_z i
    have hselect : (c.bus 0).select (x.bus i) (y.bus i) = (x.bus i).merge (y.bus i) := by
      cases hstate : c.bus 0 with
      | zero => exact absurd (hstate ▸ Or.inl rfl) hc
      | one => exact absurd (hstate ▸ Or.inr rfl) hc
      | x | z => rfl
    rw [Bus.select, hselect, bus_apply, bus_apply]
    simp only [bit_and, bit_xor, bit_not, decide_eq_true i.isLt]
    revert hx hy
    cases x.knownMask.bit i <;> cases y.knownMask.bit i <;> cases x.value.bit i <;>
      cases y.value.bit i <;> cases x.zMask.bit i <;> cases y.zMask.bit i <;> decide

/-- No bit is in both masks. -/
theorem not_both (v : FourState width) (j : Nat) :
    ¬ (v.knownMask.bit j = true ∧ v.zMask.bit j = true) := by
  by_cases hj : j < width
  · exact v.not_known_and_z ⟨j, hj⟩
  · rw [v.knownMask.bit_of_le (Nat.le_of_not_lt hj)]
    exact fun h => Bool.false_ne_true h.1

variable {inWidth outWidth : Nat}

theorem zeroExtend_returns (h : inWidth ≤ outWidth) (v : FourState inWidth) :
    Returns (zeroExtend h v) fun i => if (i : Nat) < inWidth then v.bit i else .zero := by
  apply fromMasks_returns
  intro i
  rw [bit_or, bit_not, bit_zext, bit_zext, bit_zext, bit_zext, bit_ones,
    decide_eq_true i.isLt, Bool.true_and]
  by_cases hi : (i : Nat) < inWidth
  · rw [if_pos hi, decide_eq_true hi, Bool.not_true, Bool.or_false]
    exact ⟨v.not_both i, rfl⟩
  · have hle := Nat.le_of_not_lt hi
    rw [if_neg hi, decide_eq_false hi, v.knownMask.bit_of_le hle, v.zMask.bit_of_le hle,
      v.value.bit_of_le hle]
    exact ⟨by decide, rfl⟩

variable {high : Nat} (a : FourState high) (b : FourState low) (hpos : 0 < outWidth)

theorem truncate_returns (h : outWidth ≤ inWidth) (v : FourState inWidth) :
    Returns (truncate hpos h v) fun i => v.bit i := by
  apply fromMasks_returns
  intro i
  rw [bit_trunc, bit_trunc, bit_trunc, decide_eq_true i.isLt, Bool.true_and, Bool.true_and,
    Bool.true_and]
  exact ⟨v.not_both i, rfl⟩

theorem extract_returns (h : low + outWidth ≤ inWidth) (v : FourState inWidth) :
    Returns (extract hpos v low) fun i => v.bit (i + low) := by
  have hvalid : ¬ (outWidth > inWidth ∨ low > inWidth - outWidth) := by omega
  unfold extract
  rw [dif_neg hvalid]
  apply fromMasks_returns
  intro i
  rw [bit_extract, bit_extract, bit_extract, decide_eq_true i.isLt, Bool.true_and, Bool.true_and,
    Bool.true_and]
  exact ⟨v.not_both _, rfl⟩

theorem concat_returns :
    Returns (concat a b) fun i => if (i : Nat) < low then b.bit i else a.bit (i - low) := by
  apply fromMasks_returns
  intro i
  rw [bit_concat, bit_concat, bit_concat]
  by_cases hi : (i : Nat) < low
  · rw [if_pos hi, if_pos hi, if_pos hi, if_pos hi]
    exact ⟨b.not_both i, rfl⟩
  · rw [if_neg hi, if_neg hi, if_neg hi, if_neg hi]
    exact ⟨a.not_both _, rfl⟩

/-! ## Shifts -/

variable {amountWidth : Nat}

/-- The amount is cut at the width, which is an `unsigned`. -/
theorem boundedShift_eq (hwidth : width < 2 ^ 32) (amount : FourState amountWidth) :
    boundedShift width amount = min width amount.value.toNat := by
  unfold boundedShift
  by_cases hlarge : amount.value.toNat < 2 ^ 64
  · rw [if_neg (Bool.eq_false_iff.mp (amount.value.high_words_zero_iff.mpr hlarge)),
      toNat_word_of_lt hlarge]
    split
    · next hge => exact (Nat.min_eq_left hge).symm
    · next hlt => exact (Nat.min_eq_right (Nat.le_of_lt (Nat.lt_of_not_le hlt))).symm
  · have hany : ((List.range' 1 (kWords amountWidth - 1)).any fun word =>
        amount.value.word word != 0#64) = true :=
      Bool.not_eq_false _ ▸ fun h => hlarge (amount.value.high_words_zero_iff.mp h)
    rw [if_pos hany]
    exact (Nat.min_eq_left (by omega)).symm

section

variable (hwidth : width < 2 ^ 32) (v : FourState width) {amount : FourState amountWidth}
  (h : amount.isFullyKnown = true)
include hwidth h

theorem shl_returns :
    Returns (shl v amount) fun i =>
      if amount.value.toNat ≤ i then v.bit (i - amount.value.toNat) else .zero := by
  unfold shl
  rw [h, if_neg (by decide), boundedShift_eq hwidth]
  apply fromMasks_returns
  intro i
  have hi := i.isLt
  simp only [bit_or, bit_not, bit_shl, bit_ones, decide_eq_true hi, Bool.true_and]
  by_cases hle : amount.value.toNat ≤ i
  · have hmin : min width amount.value.toNat = amount.value.toNat := by omega
    rw [if_pos hle, hmin, decide_eq_true hle,
      decide_eq_true (show i - amount.value.toNat < width by omega)]
    simp only [Bool.true_and, Bool.and_true, Bool.not_true, Bool.or_false]
    exact ⟨v.not_both _, rfl⟩
  · have hmin : ¬ min width amount.value.toNat ≤ i := by omega
    rw [if_neg hle, decide_eq_false hmin]
    simp only [Bool.false_and, Bool.not_false, Bool.or_true]
    exact ⟨by decide, rfl⟩

theorem lshr_returns :
    Returns (lshr v amount) fun i =>
      if i + amount.value.toNat < width then v.bit (i + amount.value.toNat) else .zero := by
  unfold lshr
  rw [h, if_neg (by decide), boundedShift_eq hwidth]
  apply fromMasks_returns
  intro i
  have hi := i.isLt
  simp only [bit_or, bit_not, bit_lshr, bit_ones, decide_eq_true hi, Bool.true_and]
  by_cases hlt : i + amount.value.toNat < width
  · have hmin : min width amount.value.toNat = amount.value.toNat := by omega
    rw [if_pos hlt, hmin, decide_eq_true hlt, Bool.not_true, Bool.or_false]
    exact ⟨v.not_both _, rfl⟩
  · have hmin : ¬ i + min width amount.value.toNat < width := by omega
    have hle := Nat.le_of_not_lt hmin
    rw [if_neg hlt, decide_eq_false hmin, v.zMask.bit_of_le hle, v.value.bit_of_le hle,
      Bool.not_false, Bool.or_true]
    exact ⟨by decide, rfl⟩

theorem ashr_returns :
    Returns (ashr v amount) fun i =>
      if i + amount.value.toNat < width then v.bit (i + amount.value.toNat)
      else v.bit (width - 1) := by
  unfold ashr
  rw [h, if_neg (by decide), boundedShift_eq hwidth]
  apply fromMasks_returns
  intro i
  have hi := i.isLt
  rw [bit_ashr _ _ hi, bit_ashr _ _ hi, bit_ashr _ _ hi]
  by_cases hlt : i + amount.value.toNat < width
  · have hmin : min width amount.value.toNat = amount.value.toNat := by omega
    rw [hmin, if_pos hlt, if_pos hlt, if_pos hlt, if_pos hlt]
    exact ⟨v.not_both _, rfl⟩
  · have hmin : ¬ i + min width amount.value.toNat < width := by omega
    rw [if_neg hmin, if_neg hmin, if_neg hmin, if_neg hlt]
    exact ⟨v.not_both _, rfl⟩

end

/-! ## The operators -/

theorem bitNot_exact (v : FourState width) : Exact (bitNot v) (v.bus.outcomes (~~~ ·)) := by
  refine (bitNot_returns v).exact (Bus.exact_map Logic.not_lifts (fun a i => ?_) v.bus)
  rw [BitVec.getLsbD_not, decide_eq_true i.isLt, Bool.true_and]

theorem zeroExtend_exact (h : inWidth ≤ outWidth) (v : FourState inWidth) :
    Exact (zeroExtend h v) (v.bus.outcomes (BitVec.setWidth outWidth)) := by
  refine (zeroExtend_returns h v).exact (Bus.exact_rewire fun i => ?_)
  have hbit : ∀ a : BitVec inWidth, (a.setWidth outWidth).getLsbD i = a.getLsbD i := by
    intro a
    rw [BitVec.getLsbD_setWidth, decide_eq_true i.isLt, Bool.true_and]
  by_cases hi : (i : Nat) < inWidth
  · exact Or.inr ⟨⟨i, hi⟩, if_pos hi, hbit⟩
  · refine Or.inl ⟨false, if_neg hi, fun a => ?_⟩
    rw [hbit, BitVec.getLsbD_of_ge a i (Nat.le_of_not_lt hi)]

theorem truncate_exact (h : outWidth ≤ inWidth) (v : FourState inWidth) :
    Exact (truncate hpos h v) (v.bus.outcomes (BitVec.setWidth outWidth)) := by
  refine (truncate_returns hpos h v).exact (Bus.exact_rewire fun i => ?_)
  refine Or.inr ⟨⟨i, Nat.lt_of_lt_of_le i.isLt h⟩, rfl, fun a => ?_⟩
  rw [BitVec.getLsbD_setWidth, decide_eq_true i.isLt, Bool.true_and]

theorem extract_exact (h : low + outWidth ≤ inWidth) (v : FourState inWidth) :
    Exact (extract hpos v low) (v.bus.outcomes fun a => a.extractLsb' low outWidth) := by
  refine (extract_returns hpos h v).exact (Bus.exact_rewire fun i => ?_)
  have hi := i.isLt
  refine Or.inr ⟨⟨i + low, by omega⟩, rfl, fun a => ?_⟩
  rw [BitVec.getLsbD_extractLsb', decide_eq_true hi, Bool.true_and, Nat.add_comm]

theorem concat_exact : Exact (concat a b) (Bus.outcomes₂ a.bus b.bus (· ++ ·)) := by
  refine (concat_returns a b).exact (Bus.exact_rewire₂ fun i => ?_)
  by_cases hi : (i : Nat) < low
  · refine Or.inr ⟨⟨i, hi⟩, if_pos hi, fun v w => ?_⟩
    rw [BitVec.getLsbD_append, if_pos hi]
  · refine Or.inl ⟨⟨i - low, by omega⟩, if_neg hi, fun v w => ?_⟩
    rw [BitVec.getLsbD_append, if_neg hi]

/-- A shift by an amount that is not known is unknown; a known amount moves the bits. -/
theorem shift_sound {v : FourState width} {amount : FourState amountWidth}
    {f : BitVec width → Nat → BitVec width}
    {moved : Bus width}
    (hunknown : amount.isFullyKnown = false → out = unknown v.value.positive)
    (hreturns : amount.isFullyKnown = true → Returns out moved)
    (hmoved : ∀ i, (∃ c, moved i = .ofBool c ∧ ∀ a, (f a amount.value.toNat).getLsbD i = c) ∨
      ∃ j, moved i = v.bus j ∧ ∀ a, (f a amount.value.toNat).getLsbD i = a.getLsbD j) :
    Sound out (Bus.outcomes₂ v.bus amount.bus fun a n => f a n.toNat) := by
  cases hknown : amount.isFullyKnown with
  | false =>
    rw [hunknown hknown]
    exact (unknown_returns _).sound (Bus.sound_unknown _)
  | true =>
    rw [(isFullyKnown_iff amount).mp hknown, Bus.outcomes₂_ofBitVec_right, toNat_toBitVec]
    exact (hreturns hknown).sound (Bus.exact_rewire hmoved).1

section

variable (hwidth : width < 2 ^ 32) (v : FourState width) (amount : FourState amountWidth)
include hwidth

theorem shl_sound :
    Sound (shl v amount) (Bus.outcomes₂ v.bus amount.bus fun a n => a <<< n.toNat) := by
  refine shift_sound (f := fun a n => a <<< n) (fun h => ?_) (shl_returns hwidth v) fun i => ?_
  · rw [shl, h]
    rfl
  have hi := i.isLt
  by_cases hle : amount.value.toNat ≤ i
  · refine Or.inr ⟨⟨i - amount.value.toNat, by omega⟩, if_pos hle, fun a => ?_⟩
    rw [BitVec.getLsbD_shiftLeft, decide_eq_true hi, decide_eq_false (Nat.not_lt.mpr hle),
      Bool.not_false, Bool.true_and, Bool.true_and]
  · refine Or.inl ⟨false, if_neg hle, fun a => ?_⟩
    rw [BitVec.getLsbD_shiftLeft, decide_eq_true (Nat.lt_of_not_le hle), Bool.not_true,
      Bool.and_false, Bool.false_and]

theorem lshr_sound :
    Sound (lshr v amount) (Bus.outcomes₂ v.bus amount.bus fun a n => a >>> n.toNat) := by
  refine shift_sound (f := fun a n => a >>> n) (fun h => ?_) (lshr_returns hwidth v) fun i => ?_
  · rw [lshr, h]
    rfl
  by_cases hlt : i + amount.value.toNat < width
  · refine Or.inr ⟨⟨i + amount.value.toNat, hlt⟩, if_pos hlt, fun a => ?_⟩
    rw [BitVec.getLsbD_ushiftRight, Nat.add_comm]
  · refine Or.inl ⟨false, if_neg hlt, fun a => ?_⟩
    rw [BitVec.getLsbD_ushiftRight, Nat.add_comm, BitVec.getLsbD_of_ge a _ (Nat.le_of_not_lt hlt)]

theorem ashr_sound :
    Sound (ashr v amount) (Bus.outcomes₂ v.bus amount.bus fun a n => a.sshiftRight n.toNat) := by
  refine shift_sound (f := BitVec.sshiftRight) (fun h => ?_) (ashr_returns hwidth v) fun i => ?_
  · rw [ashr, h]
    rfl
  have hi := i.isLt
  have hbit : ∀ a : BitVec width, (a.sshiftRight amount.value.toNat).getLsbD i =
      if i + amount.value.toNat < width then a.getLsbD (i + amount.value.toNat)
      else a.getLsbD (width - 1) := by
    intro a
    rw [BitVec.getLsbD_sshiftRight, decide_eq_false (Nat.not_le.mpr hi), Bool.not_false,
      Bool.true_and, BitVec.msb_eq_getLsbD_last, Nat.add_comm]
  by_cases hlt : i + amount.value.toNat < width
  · exact Or.inr ⟨⟨i + amount.value.toNat, hlt⟩, if_pos hlt, fun a => (hbit a).trans (if_pos hlt)⟩
  · exact Or.inr ⟨⟨width - 1, by omega⟩, if_neg hlt, fun a => (hbit a).trans (if_neg hlt)⟩

end

/-- No operator throws, and the known bits of a result are those of the two-state operation for
every completion of the operands. The bitwise operators, the equalities, the selection and the
functions that change the width leave unknown only what two completions give differently. Case
equality is always known, and compares the states of the bits. The bound in the last part is the one
of the type `unsigned` of a width. -/
theorem operators_abstract (x y : FourState width) :
    (Exact (bitNot x) (x.bus.outcomes (~~~ ·)) ∧
      Exact (bitAnd x y) (Bus.outcomes₂ x.bus y.bus (· &&& ·)) ∧
      Exact (bitOr x y) (Bus.outcomes₂ x.bus y.bus (· ||| ·)) ∧
      Exact (bitXor x y) (Bus.outcomes₂ x.bus y.bus (· ^^^ ·))) ∧
    (Sound (add x y) (Bus.outcomes₂ x.bus y.bus (· + ·)) ∧
      Sound (sub x y) (Bus.outcomes₂ x.bus y.bus (· - ·)) ∧
      Sound (mul x y) (Bus.outcomes₂ x.bus y.bus (· * ·)) ∧
      Sound (udiv x y) (Bus.outcomes₂ x.bus y.bus (· / ·)) ∧
      Sound (urem x y) (Bus.outcomes₂ x.bus y.bus (· % ·))) ∧
    ((∀ predicate : ComparePredicate, predicate = .eq ∨ predicate = .ne →
        Exact (compare predicate x y)
          (Bus.outcomes₂ x.bus y.bus fun a b => BitVec.ofBool (predicate.holds a b))) ∧
      (∀ predicate : ComparePredicate, predicate.Ordered →
        Sound (compare predicate x y)
          (Bus.outcomes₂ x.bus y.bus fun a b => BitVec.ofBool (predicate.holds a b))) ∧
      ∃ v, compare .caseEq x y = .ok v ∧ invariantHolds v.knownMask v.zMask = true ∧
        v.isFullyKnown = true ∧ (v.value.bit 0 = true ↔ ∀ i, x.bus i = y.bus i)) ∧
    (∀ c : FourState 1, Exact (select c x y) (Bus.selections c.bus x.bus y.bus)) ∧
    ((∀ {out : Nat} (h : width ≤ out),
        Exact (zeroExtend h x) (x.bus.outcomes (BitVec.setWidth out))) ∧
      (∀ {out : Nat} (hpos : 0 < out) (h : out ≤ width),
        Exact (truncate hpos h x) (x.bus.outcomes (BitVec.setWidth out))) ∧
      (∀ {out low : Nat} (hpos : 0 < out), low + out ≤ width →
        Exact (extract hpos x low) (x.bus.outcomes fun a => a.extractLsb' low out)) ∧
      ∀ {low : Nat} (z : FourState low),
        Exact (concat x z) (Bus.outcomes₂ x.bus z.bus (· ++ ·))) ∧
    (width < 2 ^ 32 → ∀ {amountWidth : Nat} (amount : FourState amountWidth),
      Sound (shl x amount) (Bus.outcomes₂ x.bus amount.bus fun a n => a <<< n.toNat) ∧
      Sound (lshr x amount) (Bus.outcomes₂ x.bus amount.bus fun a n => a >>> n.toNat) ∧
      Sound (ashr x amount) (Bus.outcomes₂ x.bus amount.bus fun a n => a.sshiftRight n.toNat)) := by
  refine ⟨⟨bitNot_exact x, ?_, ?_, ?_⟩, ⟨strict_sound toBitVec_add x y,
    strict_sound toBitVec_sub x y,
    strict_sound toBitVec_mul x y, strictDivision_sound (fun a b _ => toBitVec_udiv a b) x y,
    strictDivision_sound (fun a b => toBitVec_urem) x y⟩,
    ⟨fun predicate h => compare_equality_exact h x y,
      fun predicate h => compare_ordered_sound h x y,
      compare_caseEq x y⟩, fun c => (select_returns c x y).exact (Bus.exact_select _ _ _),
    ⟨fun h => zeroExtend_exact h x, fun hpos h => truncate_exact hpos h x,
      fun hpos h => extract_exact hpos h x, fun z => concat_exact x z⟩,
    fun hwidth _ amount => ⟨shl_sound hwidth x amount, lshr_sound hwidth x amount,
      ashr_sound hwidth x amount⟩⟩
  · exact (bitAnd_returns x y).exact
      (Bus.exact_map₂ Logic.and_lifts (fun v w i => BitVec.getLsbD_and) _ _)
  · exact (bitOr_returns x y).exact
      (Bus.exact_map₂ Logic.or_lifts (fun v w i => BitVec.getLsbD_or) _ _)
  · exact (bitXor_returns x y).exact
      (Bus.exact_map₂ Logic.xor_lifts (fun v w i => BitVec.getLsbD_xor) _ _)

end FourState

end PyCircuit.Gfsim
