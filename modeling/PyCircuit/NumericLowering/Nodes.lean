import PyCircuit.NumericLowering.Semantics

/-!
# Every function of the lowering is exact

If the operands represent integers, so does the result: its interval holds the exact result of the
operation, the width that was chosen holds the interval, and the emitted operation does not wrap.
-/

set_option autoImplicit false

namespace PyCircuit.NumericLowering

open PyCircuit.Lib Fallible TwosComplement

/-! ## Widening -/

variable {n : Nat} {value : Value} {input : NumericValue} {opcode : ValueOpcode}
  {type : Option BitsType} {result shifted : IntegerInterval}

theorem activeBits_le_of_le (h : n ≤ unsignedMax) : activeBits n ≤ 32 := by
  rw [lt_of_activeBits (Int.natCast_nonneg n)]
  rw [unsignedMax] at h
  norm_num
  omega

/-- The width of an emitted type. -/
theorem widthOf_bitsType (hpos : 0 < n) (h : n ≤ unsignedMax) :
    widthOf (some (bitsType n)) = .ok n := by
  have hbits := activeBits_le_of_le h
  have hcheck : ¬((n : Int) ≤ 0 ∨ 32 < activeBits n) := by omega
  change (if (n : Int) ≤ 0 ∨ 32 < activeBits n then _ else _) = _
  rw [if_neg hcheck, Int.toNat_natCast]

variable {env : Nat → Int} {interval left right : IntegerInterval} {v lhs rhs : NumericValue}
  {w : Nat} {x y count : Int} {site : Site}

/-- A widened value represents the same integer. -/
theorem Lowered.widen
    (h : Lowered env v interval x) (hle : v.value.width ≤ w) (hmax : w ≤ unsignedMax) :
    (widen v.value interval v.value.width w).width = w ∧
      (widen v.value interval v.value.width w).Typed ∧
      ∀ u ≤ w, ((widen v.value interval v.value.width w).eval env).setWidth u =
        BitVec.ofInt u x := by
  by_cases hsame : v.value.width = w
  · have hvalue : NumericLowering.widen v.value interval v.value.width w = v.value := if_pos hsame
    rw [hvalue]
    refine ⟨hsame, h.typed, fun u hu => ?_⟩
    rw [h.bits]
    exact setWidth_of_le (by omega) x
  · have hwidth : ∀ mode, (Value.resize mode v.value (bitsType w)).width = w := by
      intro mode
      rw [Value.width, Value.type, widthOf_bitsType (by have := h.pos; omega) hmax]
    have hlt : v.value.width < w := by omega
    rw [NumericLowering.widen, if_neg hsame]
    by_cases hneg : interval.lower < 0
    · rw [if_pos hneg]
      refine ⟨hwidth .sext, ⟨h.typed, (hwidth .sext).symm ▸ hlt⟩, fun u hu => ?_⟩
      obtain ⟨hpos, hlow, hhigh⟩ := h.fits.signed hneg h.lower h.upper
      rw [Value.eval, h.bits, signExtend_of_fits hpos hlow hhigh]
      exact setWidth_of_le (by rw [hwidth]; exact hu) x
    · rw [if_neg hneg]
      refine ⟨hwidth .zext, ⟨h.typed, (hwidth .zext).symm ▸ hlt⟩, fun u hu => ?_⟩
      obtain ⟨h₀, hupper⟩ := h.fits.unsigned hneg h.lower h.upper
      have heval : (Value.resize .zext v.value (bitsType w)).eval env =
          (v.value.eval env).setWidth _ := rfl
      rw [heval, h.bits, setWidth_of_lt h₀ hupper]
      exact setWidth_of_le (by rw [hwidth]; exact hu) x

/-! ## Binary operations -/

/-- A constant mask is the integer of the value. -/
theorem Lowered.mask {mask : Int}
    (h : Lowered env v interval x) (hmask : literalMask v interval = some mask) : mask = x := by
  obtain ⟨value, kind, bounds⟩ := v
  cases value with
  | constant value type =>
    simp only [literalMask] at hmask
    cases hvalue : knownInteger value with
    | error e => simp [hvalue] at hmask
    | ok integer =>
      cases hwidth : widthOf (some type) with
      | error e => simp [hvalue, hwidth] at hmask
      | ok width =>
        simp only [hvalue, hwidth] at hmask
        have hread := h.read
        have hbits : (Value.constant value type).eval env =
            BitVec.ofInt _ integer := by rw [Value.eval_constant, StaticExpr.integer, hvalue]
        have hw : (Value.constant value type).width = width := by
          rw [Value.width, Value.type, hwidth]
        rw [hbits, IntegerInterval.read, hw] at hread
        by_cases hrange : integer < 0 ∨ width < activeBits integer
        · rw [if_pos hrange] at hmask
          cases hmask
        rw [if_neg hrange] at hmask
        have hactive : activeBits integer ≤ width := by omega
        have hlt := (lt_of_activeBits (by omega)).mp hactive
        by_cases hneg : interval.lower < 0
        · rw [if_pos hneg] at hmask hread
          split_ifs at hmask
          rw [← hread]
          exact (Option.some.inj hmask).symm
        · rw [if_neg hneg] at hmask hread
          split_ifs at hmask
          rw [toNat_ofInt_of_lt (by omega) hlt] at hread
          rw [← hread]
          exact (Option.some.inj hmask).symm
  | _ => simp [literalMask] at hmask

/-- A product lies between the products with the ends. -/
theorem mul_between {a b : Int} (hax : a ≤ x) (hxb : x ≤ b) (y : Int) :
    min (a * y) (b * y) ≤ x * y ∧ x * y ≤ max (a * y) (b * y) := by
  rcases le_total 0 y with hy | hy
  · exact ⟨min_le_of_left_le (mul_le_mul_of_nonneg_right hax hy),
      le_max_of_le_right (mul_le_mul_of_nonneg_right hxb hy)⟩
  · exact ⟨min_le_of_right_le (mul_le_mul_of_nonpos_right hxb hy),
      le_max_of_le_left (mul_le_mul_of_nonpos_right hax hy)⟩

/-- A product lies between the products of the ends. -/
theorem mul_corners {a b c d : Int} (hax : a ≤ x) (hxb : x ≤ b) (hcy : c ≤ y) (hyd : y ≤ d) :
    min (min (min (a * c) (a * d)) (b * c)) (b * d) ≤ x * y ∧
      x * y ≤ max (max (max (a * c) (a * d)) (b * c)) (b * d) := by
  have hx := mul_between hax hxb y
  have ha := mul_between hcy hyd a
  have hb := mul_between hcy hyd b
  rw [mul_comm c a, mul_comm d a, mul_comm y a] at ha
  rw [mul_comm c b, mul_comm d b, mul_comm y b] at hb
  omega

/-- The mask is one of the operands. -/
theorem knownMask_spec {mask : Int} (hx : Lowered env lhs left x) (hy : Lowered env rhs right y)
    (h : knownMask lhs rhs left right = some mask) : 0 ≤ mask ∧ (mask = y ∨ mask = x) := by
  rw [knownMask] at h
  split at h
  · rename_i found hfound
    obtain ⟨hmask, hnonneg⟩ := Option.filter_eq_some_iff.mp hfound
    obtain rfl := Option.some.inj h
    exact ⟨of_decide_eq_true hnonneg, .inl (hy.mask hmask)⟩
  · obtain ⟨hmask, hnonneg⟩ := Option.filter_eq_some_iff.mp h
    exact ⟨of_decide_eq_true hnonneg, .inr (hx.mask hmask)⟩

theorem maskInterval_sound (hx : Lowered env lhs left x) (hy : Lowered env rhs right y)
    (h : maskInterval lhs rhs left right = .ok result) :
    result.lower ≤ Int.land x y ∧ Int.land x y < result.upper := by
  rw [maskInterval] at h
  cases hmask : knownMask lhs rhs left right with
  | none =>
    rw [hmask] at h
    cases h
  | some mask =>
    rw [hmask] at h
    have hrest := ok_of_bind calculate_add h
    obtain rfl := Except.ok.inj hrest
    obtain ⟨hnonneg, rfl | rfl⟩ := knownMask_spec hx hy hmask
    · have hbounds := land_bounds x hnonneg
      exact ⟨hbounds.1, Int.lt_add_one_of_le hbounds.2⟩
    · rw [land_comm]
      have hbounds := land_bounds y hnonneg
      exact ⟨hbounds.1, Int.lt_add_one_of_le hbounds.2⟩

/-- The interval of a binary operation holds the exact result, and the emitted operation computes
it. -/
theorem binaryInterval_sound {spelling : BitsOpcode} (hx : Lowered env lhs left x)
    (hy : Lowered env rhs right y)
    (h : binaryInterval opcode lhs rhs left right = .ok (result, spelling)) :
    (result.lower ≤ opcode.exact x y ∧ opcode.exact x y < result.upper) ∧
      ∀ w, spelling.apply (BitVec.ofInt w x) (BitVec.ofInt w y) =
        BitVec.ofInt w (opcode.exact x y) := by
  have hx₁ := hx.lower
  have hx₂ := hx.upper
  have hy₁ := hy.lower
  have hy₂ := hy.upper
  cases opcode with
  | add =>
    obtain ⟨interval, hinterval, hpair⟩ := bind_eq_ok.mp h
    obtain ⟨rfl, rfl⟩ := Prod.mk.inj (Except.ok.inj hpair)
    have hrest := ok_of_bind calculate_add hinterval
    replace hrest := ok_of_bind calculate_add hrest
    replace hrest := ok_of_bind calculate_sub hrest
    obtain rfl := Except.ok.inj hrest
    refine ⟨?_, fun w => (BitVec.ofInt_add x y).symm⟩
    simp only [ValueOpcode.exact]
    omega
  | sub =>
    obtain ⟨interval, hinterval, hpair⟩ := bind_eq_ok.mp h
    obtain ⟨rfl, rfl⟩ := Prod.mk.inj (Except.ok.inj hpair)
    have hrest := ok_of_bind calculate_sub hinterval
    replace hrest := ok_of_bind calculate_sub hrest
    replace hrest := ok_of_bind calculate_add hrest
    obtain rfl := Except.ok.inj hrest
    refine ⟨?_, fun w => (ofInt_sub x y).symm⟩
    simp only [ValueOpcode.exact]
    omega
  | mul =>
    obtain ⟨interval, hinterval, hpair⟩ := bind_eq_ok.mp h
    obtain ⟨rfl, rfl⟩ := Prod.mk.inj (Except.ok.inj hpair)
    have hrest := ok_of_bind calculate_sub hinterval
    replace hrest := ok_of_bind calculate_sub hrest
    replace hrest := ok_of_bind calculate_mul hrest
    replace hrest := ok_of_bind calculate_mul hrest
    replace hrest := ok_of_bind calculate_mul hrest
    replace hrest := ok_of_bind calculate_mul hrest
    replace hrest := ok_of_bind calculate_add hrest
    obtain rfl := Except.ok.inj hrest
    have hcorners := mul_corners hx₁ (Int.le_sub_one_of_lt hx₂) hy₁ (Int.le_sub_one_of_lt hy₂)
    exact ⟨⟨hcorners.1, Int.lt_add_one_of_le hcorners.2⟩, fun w => (BitVec.ofInt_mul x y).symm⟩
  | andBits =>
    obtain ⟨interval, hinterval, hpair⟩ := bind_eq_ok.mp h
    obtain ⟨rfl, rfl⟩ := Prod.mk.inj (Except.ok.inj hpair)
    exact ⟨maskInterval_sound hx hy hinterval, fun w => (ofInt_land x y).symm⟩
  | _ => cases h

/-- The chosen width holds what is required and both operands. -/
theorem operandWidths_le {required a b : Nat} (signedOperands : Bool) (left right : IntegerInterval)
    (h : max required (max (operandWidth signedOperands left a)
      (operandWidth signedOperands right b)) = w) : required ≤ w ∧ a ≤ w ∧ b ≤ w := by
  have ha : a ≤ operandWidth signedOperands left a := Nat.le_add_right ..
  have hb : b ≤ operandWidth signedOperands right b := Nat.le_add_right ..
  omega

/-- A value whose type has room for its interval. -/
theorem lowered_emitted {required : Nat} (hknown : widthOf value.type = .ok w)
    (hrequired : intervalWidth interval = .ok required) (hle : required ≤ w)
    (hlower : interval.lower ≤ x) (hupper : x < interval.upper)
    (hbits : value.eval env = BitVec.ofInt value.width x) (htyped : value.Typed) :
    Lowered env ⟨value, some .integer, some interval⟩ interval x := by
  obtain ⟨-, hpos, hfits, -⟩ := intervalWidth_spec hrequired
  have hwidth : value.width = w := by rw [Value.width, hknown]
  refine ⟨rfl, rfl, ?_, ?_, ?_, hlower, hupper, hbits, htyped⟩
  · change widthOf value.type = .ok value.width
    rw [hknown, hwidth]
  · change interval.Fits value.width
    rw [hwidth]
    exact hfits.mono hle
  · change 0 < value.width
    omega

theorem width_bitsType (htype : value.type = some (bitsType w)) (hpos : 0 < w)
    (hmax : w ≤ unsignedMax) : value.width = w := by
  rw [Value.width, htype, widthOf_bitsType hpos hmax]

theorem binary_lowered (hx : Lowered env lhs left x) (hy : Lowered env rhs right y)
    (h : lowerExactIntegerBinary site opcode lhs rhs = .ok v) :
    ∃ result, Lowered env v result (opcode.exact x y) := by
  rw [lowerExactIntegerBinary] at h
  split_ifs at h with hsite hopcode
  replace h := ok_of_bind hx.check_eq h
  replace h := ok_of_bind hy.check_eq h
  obtain ⟨⟨result, spelling⟩, hresult, h⟩ := bind_eq_ok.mp h
  obtain ⟨resultWidth, hwidth, h⟩ := bind_eq_ok.mp h
  dsimp only at h
  generalize hw : max resultWidth (max
    (operandWidth (decide (left.lower < 0) || decide (right.lower < 0)) left lhs.value.width)
    (operandWidth (decide (left.lower < 0) || decide (right.lower < 0)) right
      rhs.value.width)) = w at h
  split_ifs at h with hcapacity htypes
  obtain rfl := Except.ok.inj h
  have hmax : w ≤ unsignedMax := by omega
  obtain ⟨hrequired, hleftWidth, hrightWidth⟩ := operandWidths_le _ _ _ hw
  obtain ⟨⟨hlower, hupper⟩, hoperation⟩ := binaryInterval_sound hx hy hresult
  obtain ⟨hleftEq, hleftTyped, hleftBits⟩ := hx.widen hleftWidth hmax
  obtain ⟨hrightEq, hrightTyped, hrightBits⟩ := hy.widen hrightWidth hmax
  have hpos : 0 < w := Nat.lt_of_lt_of_le hx.pos hleftWidth
  have hvalue : ∀ a b, (Value.binary spelling a b (bitsType w)).width = w := fun a b =>
    width_bitsType rfl hpos hmax
  refine ⟨result, lowered_emitted (widthOf_bitsType hpos hmax) hwidth hrequired hlower hupper ?_ ?_⟩
  · rw [Value.eval, hleftBits _ (hvalue _ _).le, hrightBits _ (hvalue _ _).le]
    exact hoperation _
  · exact ⟨hleftTyped, hrightTyped, by rw [hleftEq, hvalue], by rw [hrightEq, hvalue]⟩

/-! ## Select -/

theorem selectInterval_bounds (yes no : IntegerInterval) :
    ((selectInterval yes no).lower ≤ yes.lower ∧ (selectInterval yes no).lower ≤ no.lower) ∧
      yes.upper ≤ (selectInterval yes no).upper ∧ no.upper ≤ (selectInterval yes no).upper := by
  simp only [selectInterval]
  split_ifs <;> omega

theorem select_lowered {condition whenTrue whenFalse : NumericValue}
    {yes no : IntegerInterval} (hx : Lowered env whenTrue yes x)
    (hy : Lowered env whenFalse no y)
    (h : lowerExactIntegerSelect site condition whenTrue whenFalse = .ok v) :
    ∃ result, Lowered env v result
      (if (condition.value.eval env).getLsbD 0 then x else y) := by
  rw [lowerExactIntegerSelect] at h
  split_ifs at h with hsite hkind htype
  replace h := ok_of_bind hx.check_eq h
  replace h := ok_of_bind hy.check_eq h
  obtain ⟨required, hrequired, h⟩ := bind_eq_ok.mp h
  dsimp only at h
  generalize hw : max required (max
    (operandWidth (decide (yes.lower < 0) || decide (no.lower < 0)) yes whenTrue.value.width)
    (operandWidth (decide (yes.lower < 0) || decide (no.lower < 0)) no
      whenFalse.value.width)) = w at h
  split_ifs at h with hcapacity htypes
  obtain rfl := Except.ok.inj h
  have hmax : w ≤ unsignedMax := by omega
  obtain ⟨hroom, htrueWidth, hfalseWidth⟩ := operandWidths_le _ _ _ hw
  obtain ⟨htrueEq, htrueTyped, htrueBits⟩ := hx.widen htrueWidth hmax
  obtain ⟨hfalseEq, hfalseTyped, hfalseBits⟩ := hy.widen hfalseWidth hmax
  have hpos : 0 < w := Nat.lt_of_lt_of_le hx.pos htrueWidth
  have hvalue : ∀ a b, (Value.select condition.value a b (bitsType w)).width = w := fun a b =>
    width_bitsType rfl hpos hmax
  have hcondition : condition.value.width = 1 :=
    width_bitsType (not_not.mp htype) Nat.one_pos (by decide)
  have hbounds := selectInterval_bounds yes no
  have hx₁ := hx.lower
  have hx₂ := hx.upper
  have hy₁ := hy.lower
  have hy₂ := hy.upper
  refine ⟨selectInterval yes no,
    lowered_emitted (widthOf_bitsType hpos hmax) hrequired hroom ?_ ?_ ?_ ?_⟩
  · split_ifs <;> omega
  · split_ifs <;> omega
  · rw [Value.eval, htrueBits _ (hvalue _ _).le, hfalseBits _ (hvalue _ _).le]
    split_ifs <;> rfl
  · exact ⟨htrueTyped, hfalseTyped, hcondition, by rw [htrueEq, hvalue], by rw [hfalseEq, hvalue]⟩

/-! ## Right shift -/

theorem shiftedInterval_spec (h : shiftedInterval interval count = .ok shifted) :
    shifted = ⟨interval.lower / 2 ^ count.toNat, (interval.upper - 1) / 2 ^ count.toNat + 1⟩ := by
  have hrest := ok_of_bind (fun hshift => (calculate_shr hshift).2) h
  replace hrest := ok_of_bind calculate_sub hrest
  replace hrest := ok_of_bind (fun hshift => (calculate_shr hshift).2) hrest
  replace hrest := ok_of_bind calculate_add hrest
  exact (Except.ok.inj hrest).symm

/-- The interval of a shifted value fits the bits that are left. -/
theorem shift_fits {width required : Nat} (hwidth : 0 < width) (hfits : interval.Fits width)
    (hnonneg : ¬ interval.lower < 0) (hnonempty : interval.lower < interval.upper)
    (hshifted : shiftedInterval interval count = .ok shifted)
    (hrequired : intervalWidth shifted = .ok required) :
    required ≤ if (width : Int) ≤ count then 1 else width - count.toNat := by
  obtain rfl := shiftedInterval_spec hshifted
  rw [IntegerInterval.Fits, if_neg hnonneg] at hfits
  have hpow : (0 : Int) < 2 ^ count.toNat := by positivity
  have hlower : 0 ≤ interval.lower / 2 ^ count.toNat := Int.ediv_nonneg (by omega) hpow.le
  have hquotient : 0 ≤ (interval.upper - 1) / 2 ^ count.toNat := Int.ediv_nonneg (by omega) hpow.le
  obtain ⟨-, -, -, hleast⟩ := intervalWidth_spec hrequired
  have hleast' := hleast hlower
  rw [add_sub_cancel_right] at hleast'
  rw [hleast', max_le_iff]
  split_ifs with hover
  · have hle : (2 : Int) ^ width ≤ 2 ^ count.toNat := pow_le_pow_right₀ (by decide) (by omega)
    rw [Int.ediv_eq_zero_of_lt (by omega) (by omega)]
    exact ⟨le_rfl, Nat.zero_le 1⟩
  · refine ⟨by omega, (lt_of_activeBits hquotient).mpr ?_⟩
    apply Int.ediv_lt_of_lt_mul hpow
    rw [← pow_add, Nat.sub_add_cancel (by omega)]
    omega

/-- Every rejection but the last one of the right shift. -/
abbrev Diagnostic.Other (e : Diagnostic) : Prop := e ≠ .shiftDoesNotFit

theorem checkedWidth_fails (width : Nat) : FailsWith Diagnostic.Other (checkedWidth width) := by
  rw [checkedWidth]
  exact .guard (by decide) fun _ => .ok _ _

theorem calculate_fails (opcode : ValueOpcode) (x y : Int) :
    FailsWith Diagnostic.Other (calculate opcode x y) := by
  have hchecked : ∀ (width : Nat) (f : Nat → Int),
      FailsWith Diagnostic.Other (checkedWidth width >>= fun w => (.ok (f w) : Except _ Int)) :=
    fun width f => (checkedWidth_fails width).bind fun _ _ => .ok _ _
  cases opcode with
  | add | sub | mul => exact hchecked _ _
  | shr =>
    change FailsWith _ (shiftRight x y)
    rw [shiftRight]
    refine .guard (by decide) fun _ => ?_
    by_cases hzero : x = 0
    · rw [if_pos hzero]
      exact .ok _ _
    · rw [if_neg hzero]
      by_cases hlong : (signedWidth x : Int) ≤ y
      · rw [if_pos hlong]
        exact .ok _ _
      · rw [if_neg hlong]
        exact hchecked _ _
  | _ => exact .error (by decide)

theorem intervalWidth_fails (interval : IntegerInterval) :
    FailsWith Diagnostic.Other (intervalWidth interval) := by
  rw [intervalWidth]
  refine .guard (by decide) fun _ => (calculate_fails _ _ _).bind fun maximum _ => ?_
  dsimp only
  split_ifs
  · exact .error (by decide)
  · exact .ok _ _
  · exact .error (by decide)
  · exact .ok _ _

theorem widthOf_fails (type : Option BitsType) : FailsWith Diagnostic.Other (widthOf type) := by
  cases type with
  | none => exact .error (by decide)
  | some type =>
    refine .bind ?_ fun width _ => ?_
    · cases type.width with
      | literal value => exact .ok _ _
      | expression identity value =>
        cases value with
        | none => exact .error (by decide)
        | some value => exact .ok _ _
    · exact .guard (by decide) fun _ => .ok _ _

theorem checkValue_fails (v : NumericValue) : FailsWith Diagnostic.Other (checkValue v) := by
  rw [checkValue]
  split
  · refine (widthOf_fails _).bind fun width _ => ?_
    refine (intervalWidth_fails _).bind fun required _ => ?_
    exact .guard (by decide) fun _ => .ok _ _
  · exact .error (by decide)

theorem shiftedInterval_fails (interval : IntegerInterval) (count : Int) :
    FailsWith Diagnostic.Other (shiftedInterval interval count) := by
  refine (calculate_fails _ _ _).bind fun _ _ => ?_
  refine (calculate_fails _ _ _).bind fun _ _ => ?_
  refine (calculate_fails _ _ _).bind fun _ _ => ?_
  exact (calculate_fails _ _ _).bind fun _ _ => .ok _ _

/-- The last rejection of the right shift is never reached. -/
theorem shiftRight_fails (site : Site) (input : NumericValue) (count : Int) :
    FailsWith Diagnostic.Other (lowerExactIntegerShiftRight site input count) := by
  rw [lowerExactIntegerShiftRight]
  refine .guard (by decide) fun _ => .guard (by decide) fun _ => ?_
  refine (checkValue_fails input).bind fun ⟨width, interval⟩ hcheck => ?_
  obtain ⟨-, -, -, -, hfits, hpos, hnonempty⟩ := checkValue_spec hcheck
  refine .guard (by decide) fun hneg => ?_
  refine (shiftedInterval_fails interval count).bind fun shifted hshifted => ?_
  refine (intervalWidth_fails shifted).bind fun required hrequired => ?_
  have hle := shift_fits hpos hfits hneg hnonempty hshifted hrequired
  by_cases hover : (width : Int) ≤ count
  · simp only [hover, decide_true, if_true] at hle ⊢
    rw [if_neg (by omega)]
    exact .ok _ _
  · simp only [hover, decide_false, Bool.false_eq_true, if_false] at hle ⊢
    rw [if_neg (by omega)]
    exact .ok _ _

/-- A known width is one of the compiler. -/
theorem checked_le (h : widthOf type = .ok w) : 0 < w ∧ w ≤ unsignedMax := by
  cases type with
  | none => cases h
  | some type =>
    obtain ⟨width, -, h⟩ := bind_eq_ok.mp h
    split_ifs at h with hrange
    obtain rfl := Except.ok.inj h
    rw [not_or, not_le, not_lt, lt_of_activeBits (by omega)] at hrange
    rw [unsignedMax]
    omega

/-- The type of the remaining bits. -/
theorem widthOf_shifted {c : Nat} (h : widthOf type = .ok w) (hc : c < w)
    (hmax : 0 < w ∧ w ≤ unsignedMax) :
    widthOf (some (if c = 0 then type.getD (bitsType (w - c)) else bitsType (w - c))) =
      .ok (w - c) := by
  split_ifs with hzero
  · cases type with
    | none => cases h
    | some type =>
      rw [hzero]
      exact h
  · exact widthOf_bitsType (by omega) (by omega)

theorem shift_lowered (hx : Lowered env input interval x)
    (h : lowerExactIntegerShiftRight site input count = .ok v) :
    ∃ result, Lowered env v result (x / 2 ^ count.toNat) := by
  rw [lowerExactIntegerShiftRight] at h
  split_ifs at h with hsite hcount
  obtain ⟨checked, hcheck, h⟩ := bind_eq_ok.mp h
  obtain rfl := hx.check_eq hcheck
  obtain ⟨hneg, h⟩ := guard_eq_ok.mp h
  obtain ⟨shifted, hshifted, h⟩ := bind_eq_ok.mp h
  obtain ⟨required, hrequired, h⟩ := bind_eq_ok.mp h
  obtain ⟨-, -, hwidth, -, -, -, hnonempty⟩ := checkValue_spec hcheck
  have hle := shift_fits hx.pos hx.fits hneg hnonempty hshifted hrequired
  obtain rfl := shiftedInterval_spec hshifted
  obtain ⟨h₀, hlt⟩ := hx.fits.unsigned hneg hx.lower hx.upper
  have hpow : (0 : Int) < 2 ^ count.toNat := by positivity
  have hlower : interval.lower / 2 ^ count.toNat ≤ x / 2 ^ count.toNat :=
    Int.ediv_le_ediv hpow hx.lower
  have hupper : x / 2 ^ count.toNat < (interval.upper - 1) / 2 ^ count.toNat + 1 :=
    Int.lt_add_one_of_le (Int.ediv_le_ediv hpow (Int.le_sub_one_of_lt hx.upper))
  by_cases hover : (input.value.width : Int) ≤ count
  · -- all bits are shifted out
    simp only [hover, decide_true, if_true] at hle h
    rw [if_neg (by omega)] at h
    obtain rfl := Except.ok.inj h
    refine ⟨_, lowered_emitted (widthOf_bitsType Nat.one_pos (by decide)) hrequired hle hlower
      hupper ?_ trivial⟩
    have hle : (2 : Int) ^ input.value.width ≤ 2 ^ count.toNat :=
      pow_le_pow_right₀ (by decide) (by omega)
    rw [Int.ediv_eq_zero_of_lt h₀ (by omega)]
    rfl
  · simp only [hover, decide_false, Bool.false_eq_true, if_false] at hle h
    rw [if_neg (by omega)] at h
    obtain rfl := Except.ok.inj h
    have hc : count.toNat < input.value.width := by omega
    have hknown := widthOf_shifted hx.width hc (checked_le hx.width)
    have hvalue : ∀ type, widthOf (some type) = .ok (input.value.width - count.toNat) →
        (Value.extract input.value count type).width = input.value.width - count.toNat := by
      intro type htype
      rw [Value.width, Value.type, htype]
    refine ⟨_, lowered_emitted hknown hrequired hle hlower hupper ?_ ?_⟩
    · rw [Value.eval, hx.bits]
      exact extractLsb_of_lt h₀ hlt _
    · refine ⟨hx.typed, by omega, ?_⟩
      rw [hvalue _ hknown]
      omega

/-! ## Boundary -/

theorem boundary_lowered {destination : Option BitsType} (hx : Lowered env input interval x)
    (h : lowerExactIntegerBoundary site input destination = .ok v) :
    ∃ result, Lowered env v result x := by
  rw [lowerExactIntegerBoundary] at h
  obtain ⟨hsite, h⟩ := guard_eq_ok.mp h
  replace h := ok_of_bind hx.check_eq h
  obtain ⟨targetWidth, htarget, h⟩ := bind_eq_ok.mp h
  obtain ⟨hcapacity, h⟩ := guard_eq_ok.mp h
  obtain ⟨hbounds, h⟩ := guard_eq_ok.mp h
  by_cases hsame : input.value.width = targetWidth
  · rw [if_pos hsame] at h
    split_ifs at h
    obtain rfl := Except.ok.inj h
    exact ⟨interval, hx⟩
  rw [if_neg hsame] at h
  obtain rfl := Except.ok.inj h
  obtain ⟨h₀, hlt⟩ := hx.fits.unsigned (by omega) hx.lower hx.upper
  have hknown : widthOf (some (destination.getD (bitsType targetWidth))) = .ok targetWidth := by
    cases destination with
    | none => cases htarget
    | some type => exact htarget
  have hvalue : ∀ mode, (Value.resize mode input.value
      (destination.getD (bitsType targetWidth))).width = targetWidth := by
    intro mode
    rw [Value.width, Value.type, hknown]
  refine ⟨interval, hx.kind, hx.interval_eq, ?_, ?_, ?_, hx.lower, hx.upper, ?_, ?_⟩
  · change widthOf (some (destination.getD (bitsType targetWidth))) = .ok (Value.width _)
    rw [hknown, hvalue]
  · rw [hvalue, IntegerInterval.Fits, if_neg (by omega)]
    omega
  · rw [hvalue]
    exact (checked_le htarget).1
  · by_cases hnarrow : targetWidth < input.value.width
    · rw [if_pos hnarrow, Value.eval.eq_def]
      dsimp only
      rw [hx.bits]
      exact setWidth_of_lt h₀ hlt
    · rw [if_neg hnarrow, Value.eval.eq_def]
      dsimp only
      rw [hx.bits]
      exact setWidth_of_lt h₀ hlt
  · by_cases hnarrow : targetWidth < input.value.width
    · rw [if_pos hnarrow]
      exact ⟨hx.typed, (hvalue .trunc).symm ▸ hnarrow⟩
    · rw [if_neg hnarrow]
      have hwide : input.value.width < targetWidth := by omega
      exact ⟨hx.typed, (hvalue .zext).symm ▸ hwide⟩

end PyCircuit.NumericLowering
