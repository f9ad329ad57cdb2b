import PyCircuit.Lib.Fallible
import PyCircuit.Lib.Reciprocal
import PyCircuit.NumericLowering.Semantics

/-!
# Unsigned division by a constant

The function of `FixedUnsignedDivRemLowering.cpp`. It multiplies the numerator by a reciprocal that
is rounded up, in a width that holds the product, and takes the high bits as the quotient; the
remainder is the numerator minus the multiple of the divisor.

The result of `verifyOccurrence` and of the other checks of the place is a field of the site. The
integers of the compiler are bit vectors of the width that the source gives them.
-/

set_option autoImplicit false

namespace PyCircuit.NumericLowering

open PyCircuit.Lib Fallible

/-! ## The lowering -/

namespace FixedDivRem

inductive Diagnostic where
  | invalidSite
  | notUnsignedBits
  | unresolvedWidth
  | zeroWidth
  | divisorNotPositive
  | divisorDoesNotFit
  | geometryCapacity
  | reciprocalRepresentation
  deriving DecidableEq, Repr

/-- The text; a width or a site is reported where it is resolved. -/
def Diagnostic.message : Diagnostic → Option String
  | .invalidSite => none
  | .notUnsignedBits => some "unsigned division/remainder requires authoritative unsigned bits"
  | .unresolvedWidth => none
  | .zeroWidth => some "unsigned division/remainder requires a positive resolved input width"
  | .divisorNotPositive => some "unsigned division/remainder divisor must be positive"
  | .divisorDoesNotFit => some "unsigned division/remainder divisor must fit input width"
  | .geometryCapacity =>
    some "unsigned division/remainder geometry exceeds compiler representation capacity"
  | .reciprocalRepresentation =>
    some "unsigned division/remainder reciprocal exceeds its proven representation"

inductive Result where
  | quotient | remainder
  deriving DecidableEq, Repr

/-- `getPackedWidth` of a bits type. -/
def packedWidth (type : BitsType) : Except Diagnostic Nat :=
  match knownInteger type.width with
  | .ok width => if width < 0 then .error .unresolvedWidth else .ok width.toNat
  | .error _ => .error .unresolvedWidth

def isPowerOf2 (x : Int) : Bool := x.toNat = 2 ^ (activeBits x - 1)

/-- The bits that the divisor adds to the shift. -/
def logarithm (divisor : Int) : Nat := activeBits divisor - if isPowerOf2 divisor then 1 else 0

/-- The widths and the multiplier. -/
structure Geometry where
  productWidth : Nat
  low : Nat
  multiplier : Nat
  deriving DecidableEq, Repr

/-- The division that gives the reciprocal, in the width of the product. -/
def reciprocal (productWidth low : Nat) (divisor : Int) : Except Diagnostic Nat :=
  let power := BitVec.twoPow productWidth low
  let denominator := BitVec.ofInt productWidth divisor
  let quotient := power / denominator
  let residual := power % denominator
  if residual ≠ 0 ∧ BitVec.uaddOverflow quotient 1 then .error .reciprocalRepresentation
  else
    let rounded := if residual ≠ 0 then quotient + 1 else quotient
    if power < rounded then .error .reciprocalRepresentation else .ok rounded.toNat

/-- The checks before the emission. -/
def geometry (width : Nat) (divisor : Int) : Except Diagnostic Geometry :=
  if width = 0 then .error .zeroWidth
  else if divisor ≤ 0 then .error .divisorNotPositive
  else if width < activeBits divisor then .error .divisorDoesNotFit
  else if unsignedMax < width ∨ unsignedMax - width < logarithm divisor then
    .error .geometryCapacity
  else
    let shift := width + logarithm divisor
    if shift = unsignedMax ∨ unsignedMax - shift < width then .error .geometryCapacity
    else do
      let multiplier ← reciprocal (width + shift) shift divisor
      return ⟨width + shift, shift, multiplier⟩

/-- The product of the numerator and the reciprocal. -/
def emitProduct (g : Geometry) (numerator : Value) : Value :=
  let wide := Value.resize .zext numerator (bitsType g.productWidth)
  let constant := Value.constant (.literal g.multiplier) (bitsType g.productWidth)
  .binary .mul wide constant (bitsType g.productWidth)

def emitQuotient (g : Geometry) (numerator : Value) (type : BitsType) : Value :=
  .extract (emitProduct g numerator) g.low type

/-- The multiple of the divisor below the numerator. -/
def emitScaled (divisor : Int) (quotient : Value) (type : BitsType) : Value :=
  .binary .mul quotient (.constant (.literal divisor) type) type

def emitRemainder (divisor : Int) (numerator quotient : Value) (type : BitsType) : Value :=
  .binary .sub numerator (emitScaled divisor quotient type) type

def lowerFixedUnsignedDivRem (site : Site) (numerator : NumericValue) (authoritativeUnsigned : Bool)
    (divisor : Int) (result : Result) : Except Diagnostic Value :=
  if !site.verified then .error .invalidSite
  else
    match numerator.value.type with
    | none => .error .notUnsignedBits
    | some type =>
      if !authoritativeUnsigned ∨ numerator.sourceKind = some .boolean then
        .error .notUnsignedBits
      else do
        let width ← packedWidth type
        let g ← geometry width divisor
        let quotient := emitQuotient g numerator.value type
        match result with
        | .quotient => .ok quotient
        | .remainder => .ok (emitRemainder divisor numerator.value quotient type)

/-! ## The geometry -/

variable {divisor width : Nat}

theorem logarithm_spec (hfits : divisor < 2 ^ width) :
    divisor ≤ 2 ^ logarithm divisor ∧ logarithm divisor ≤ width := by
  have hactive : activeBits divisor = divisor.size := rfl
  have hsize : divisor.size ≤ width := Nat.size_le.mpr hfits
  rw [logarithm, hactive]
  split_ifs with hpower
  · rw [isPowerOf2, decide_eq_true_iff, hactive] at hpower
    exact ⟨Nat.le_of_eq hpower, Nat.le_trans (Nat.sub_le _ _) hsize⟩
  · exact ⟨Nat.le_of_lt (Nat.lt_size_self divisor), hsize⟩

/-- The division in the width of the product is the one of the integers. -/
theorem reciprocal_eq {productWidth low : Nat} (h : 0 < divisor)
    (hlow : low < productWidth) (hfits : divisor < 2 ^ productWidth) :
    reciprocal productWidth low divisor = .ok (Reciprocal.rounded (2 ^ low) divisor) := by
  have hpower : (BitVec.twoPow productWidth low).toNat = 2 ^ low :=
    BitVec.toNat_twoPow_of_lt hlow
  have hdivisor : (BitVec.ofInt productWidth divisor).toNat = divisor := by
    rw [BitVec.ofInt_natCast, BitVec.toNat_ofNat, Nat.mod_eq_of_lt hfits]
  have hquotient : (BitVec.twoPow productWidth low / BitVec.ofInt productWidth divisor).toNat =
      2 ^ low / divisor := by rw [BitVec.toNat_udiv, hpower, hdivisor]
  have hresidual : (BitVec.twoPow productWidth low % BitVec.ofInt productWidth divisor = 0) ↔
      2 ^ low % divisor = 0 := by
    rw [BitVec.toNat_eq, BitVec.toNat_umod, hpower, hdivisor]
    rfl
  have hle : Reciprocal.rounded (2 ^ low) divisor ≤ 2 ^ low := Reciprocal.rounded_le h
  have hlt : 2 ^ low < 2 ^ productWidth := Nat.pow_lt_pow_right (by decide) hlow
  have hone : (1 : BitVec productWidth).toNat = 1 :=
    Nat.mod_eq_of_lt (Nat.one_lt_two_pow (by omega))
  simp only [reciprocal]
  by_cases hexact : 2 ^ low % divisor = 0
  · have hsame : ¬ BitVec.twoPow productWidth low <
        BitVec.twoPow productWidth low / BitVec.ofInt productWidth divisor := by
      rw [BitVec.lt_def, hpower, hquotient]
      exact Nat.not_lt_of_le (Nat.div_le_self _ _)
    rw [if_neg fun hover => hover.1 (hresidual.mpr hexact), if_neg (not_not_intro
      (hresidual.mpr hexact)), if_neg hsame, hquotient, Reciprocal.rounded, if_pos hexact,
      Nat.add_zero]
  · rw [Reciprocal.rounded, if_neg hexact] at hle
    have hround : (BitVec.twoPow productWidth low / BitVec.ofInt productWidth divisor + 1).toNat =
        2 ^ low / divisor + 1 := by
      rw [BitVec.toNat_add, hquotient, hone, Nat.mod_eq_of_lt (by omega)]
    have hover : ¬ BitVec.uaddOverflow
        (BitVec.twoPow productWidth low / BitVec.ofInt productWidth divisor) 1 = true := by
      rw [BitVec.uaddOverflow, decide_eq_true_iff, hquotient, hone]
      omega
    have hgreater : ¬ BitVec.twoPow productWidth low <
        BitVec.twoPow productWidth low / BitVec.ofInt productWidth divisor + 1 := by
      rw [BitVec.lt_def, hpower, hround]
      omega
    rw [if_neg fun h => hover h.2, if_pos fun hzero => hexact (hresidual.mp hzero),
      if_neg hgreater, hround, Reciprocal.rounded, if_neg hexact]

/-- The geometry of a division. -/
def plan (width divisor : Nat) : Geometry where
  productWidth := width + (width + logarithm divisor)
  low := width + logarithm divisor
  multiplier := Reciprocal.rounded (2 ^ (width + logarithm divisor)) divisor

/-- The only rejection of a divisor that fits is the one for the size of the product. -/
theorem geometry_eq (hpos : 0 < width) (h : 0 < divisor)
    (hfits : divisor < 2 ^ width) :
    geometry width divisor =
      if (plan width divisor).productWidth ≤ unsignedMax then .ok (plan width divisor)
      else .error .geometryCapacity := by
  have hactive : ¬ width < activeBits divisor := Nat.not_lt.mpr (Nat.size_le.mpr hfits)
  have hwide : divisor < 2 ^ (width + (width + logarithm divisor)) :=
    Nat.lt_of_lt_of_le hfits (Nat.pow_le_pow_right (by decide) (by omega))
  rw [geometry, if_neg (by omega), if_neg (by omega), if_neg hactive]
  by_cases hcapacity : (plan width divisor).productWidth ≤ unsignedMax
  · rw [if_pos hcapacity]
    change width + (width + logarithm divisor) ≤ unsignedMax at hcapacity
    rw [if_neg (by omega)]
    rw [if_neg (by omega), reciprocal_eq h (by omega) hwide]
    rfl
  · rw [if_neg hcapacity]
    change ¬ width + (width + logarithm divisor) ≤ unsignedMax at hcapacity
    by_cases hfirst : unsignedMax < width ∨ unsignedMax - width < logarithm divisor
    · rw [if_pos hfirst]
    · rw [if_neg hfirst]
      rw [if_pos (by omega)]

/-- The product does not wrap, and its high bits are the quotient. -/
theorem plan_spec {numerator : Nat} (h : 0 < divisor) (hfits : divisor < 2 ^ width)
    (hnumerator : numerator < 2 ^ width) :
    numerator * (plan width divisor).multiplier < 2 ^ (plan width divisor).productWidth ∧
      numerator * (plan width divisor).multiplier / 2 ^ (plan width divisor).low =
        numerator / divisor := by
  obtain ⟨hlogarithm, -⟩ := logarithm_spec hfits
  have hmultiplier : (plan width divisor).multiplier ≤ 2 ^ (width + logarithm divisor) :=
    Reciprocal.rounded_le h
  constructor
  · calc numerator * (plan width divisor).multiplier
        ≤ numerator * 2 ^ (width + logarithm divisor) := Nat.mul_le_mul_left _ hmultiplier
      _ < 2 ^ width * 2 ^ (width + logarithm divisor) :=
          Nat.mul_lt_mul_of_pos_right hnumerator (Nat.two_pow_pos _)
      _ = 2 ^ (plan width divisor).productWidth := (Nat.pow_add ..).symm
  · apply Reciprocal.mul_rounded_div h
    rw [Nat.pow_add]
    exact Nat.mul_le_mul (Nat.le_of_lt hnumerator) hlogarithm

theorem multiplier_lt (hpos : 0 < width) (h : 0 < divisor) :
    (plan width divisor).multiplier < 2 ^ (plan width divisor).productWidth :=
  Nat.lt_of_le_of_lt (Reciprocal.rounded_le h)
    (Nat.pow_lt_pow_right (by decide) (Nat.lt_add_of_pos_left hpos))

/-! ## The emitted operations -/

theorem Value.width_eq {v : Value} (h : widthOf v.type = .ok width) :
    v.width = width := by
  rw [Value.width, h]

/-- A width of the compiler is the width of its type. -/
theorem widthOf_packed {type : BitsType} (h : packedWidth type = .ok width)
    (hpos : 0 < width) (hmax : width ≤ unsignedMax) : widthOf (some type) = .ok width := by
  rw [packedWidth] at h
  cases hknown : knownInteger type.width with
  | error e =>
    rw [hknown] at h
    cases h
  | ok integer =>
    rw [hknown] at h
    dsimp only at h
    split_ifs at h with hnegative
    obtain rfl := Except.ok.inj h
    have hactive : ¬ 32 < activeBits integer := by
      rw [activeBits, Nat.not_lt, Nat.size_le]
      exact Nat.lt_of_le_of_lt hmax (by decide)
    rw [widthOf, hknown, ok_bind, if_neg (by omega)]

section Evaluation

variable (env : Nat → Int) {type : BitsType} {width : Nat} (h : widthOf (some type) = .ok width)
include h

theorem toNat_zext (input : Value) :
    ((Value.resize .zext input type).eval env).toNat = (input.eval env).toNat % 2 ^ width := by
  rw [Value.eval, BitVec.toNat_setWidth, Value.width_eq (v := .resize .zext input type) h]
  intro hmode
  cases hmode

theorem toNat_constant {n : Nat} (hn : n < 2 ^ width) :
    ((Value.constant (.literal n) type).eval env).toNat = n := by
  have hinteger : (StaticExpr.literal n).integer = (n : Int) := rfl
  rw [Value.eval_constant, hinteger, BitVec.ofInt_natCast, BitVec.toNat_ofNat,
    Value.width_eq (v := .constant (.literal n) type) h, Nat.mod_eq_of_lt hn]

theorem toNat_mul (lhs rhs : Value) : ((Value.binary .mul lhs rhs type).eval env).toNat =
    (lhs.eval env).toNat * (rhs.eval env).toNat % 2 ^ width := by
  simp only [Value.eval, BitsOpcode.apply, BitVec.toNat_mul, BitVec.toNat_setWidth,
    Value.width_eq (v := .binary .mul lhs rhs type) h, Nat.mod_mul_mod, Nat.mul_mod_mod]

theorem toNat_sub (lhs rhs : Value) (hle : (rhs.eval env).toNat ≤ (lhs.eval env).toNat)
    (hlt : (lhs.eval env).toNat < 2 ^ width) : ((Value.binary .sub lhs rhs type).eval env).toNat =
      (lhs.eval env).toNat - (rhs.eval env).toNat := by
  have hwidth := Value.width_eq (v := .binary .sub lhs rhs type) h
  have hwrap : 2 ^ width - (rhs.eval env).toNat + (lhs.eval env).toNat =
      (lhs.eval env).toNat - (rhs.eval env).toNat + 2 ^ width := by omega
  simp only [Value.eval, BitsOpcode.apply, BitVec.toNat_sub, BitVec.toNat_setWidth, hwidth,
    Nat.mod_eq_of_lt hlt, Nat.mod_eq_of_lt (Nat.lt_of_le_of_lt hle hlt)]
  rw [hwrap, Nat.add_mod_right, Nat.mod_eq_of_lt (Nat.lt_of_le_of_lt (Nat.sub_le _ _) hlt)]

theorem toNat_extract (input : Value) (low : Nat) :
    ((Value.extract input low type).eval env).toNat =
      (input.eval env).toNat / 2 ^ low % 2 ^ width := by
  rw [Value.eval, BitVec.extractLsb'_toNat, Int.toNat_natCast, Nat.shiftRight_eq_div_pow,
    Value.width_eq (v := .extract input low type) h]

end Evaluation

section Emission

variable {numerator : Value} {type : BitsType} {width divisor : Nat} (env : Nat → Int)

/-- The widths that the operations compute with. -/
structure Emitted (numerator : Value) (type : BitsType) (width divisor : Nat) : Prop where
  type_eq : numerator.type = some type
  width_eq : widthOf (some type) = .ok width
  product_eq : widthOf (some (bitsType (plan width divisor).productWidth)) =
    .ok (plan width divisor).productWidth
  width_pos : 0 < width
  positive : 0 < divisor
  fits : divisor < 2 ^ width

variable (he : Emitted numerator type width divisor)
include he

theorem Emitted.numerator_lt : (numerator.eval env).toNat < 2 ^ width := by
  have hwidth : numerator.width = width := Value.width_eq (by rw [he.type_eq, he.width_eq])
  exact Nat.lt_of_lt_of_eq (numerator.eval env).isLt (congrArg (2 ^ ·) hwidth)

/-- The product is exact. -/
theorem Emitted.product : ((emitProduct (plan width divisor) numerator).eval env).toNat =
    (numerator.eval env).toNat * (plan width divisor).multiplier := by
  have hnumerator := he.numerator_lt env
  obtain ⟨hproduct, -⟩ := plan_spec he.positive he.fits hnumerator
  have hwide : (numerator.eval env).toNat < 2 ^ (plan width divisor).productWidth :=
    Nat.lt_of_lt_of_le hnumerator (Nat.pow_le_pow_right (by decide) (Nat.le_add_right _ _))
  rw [emitProduct, toNat_mul env he.product_eq, toNat_zext env he.product_eq,
    toNat_constant env he.product_eq (multiplier_lt he.width_pos he.positive),
    Nat.mod_eq_of_lt hwide, Nat.mod_eq_of_lt hproduct]

/-- The quotient is exact. -/
theorem Emitted.quotient :
    ((emitQuotient (plan width divisor) numerator type).eval env).toNat =
      (numerator.eval env).toNat / divisor := by
  have hnumerator := he.numerator_lt env
  obtain ⟨-, hquotient⟩ := plan_spec he.positive he.fits hnumerator
  rw [emitQuotient, toNat_extract env he.width_eq, he.product env, hquotient,
    Nat.mod_eq_of_lt (Nat.lt_of_le_of_lt (Nat.div_le_self _ _) hnumerator)]

/-- The multiple of the divisor is exact. -/
theorem Emitted.scaled :
    ((emitScaled divisor (emitQuotient (plan width divisor) numerator type) type).eval env).toNat =
      (numerator.eval env).toNat / divisor * divisor := by
  have hle : (numerator.eval env).toNat / divisor * divisor ≤ (numerator.eval env).toNat :=
    Nat.div_mul_le_self _ _
  rw [emitScaled, toNat_mul env he.width_eq, he.quotient env,
    toNat_constant env he.width_eq he.fits,
    Nat.mod_eq_of_lt (Nat.lt_of_le_of_lt hle (he.numerator_lt env))]

/-- The remainder is exact. -/
theorem Emitted.remainder :
    ((emitRemainder divisor numerator (emitQuotient (plan width divisor) numerator type)
      type).eval env).toNat = (numerator.eval env).toNat % divisor := by
  have hle : (numerator.eval env).toNat / divisor * divisor ≤ (numerator.eval env).toNat :=
    Nat.div_mul_le_self _ _
  rw [emitRemainder, toNat_sub env he.width_eq _ _ (by rw [he.scaled env]; exact hle)
    (he.numerator_lt env), he.scaled env]
  exact Nat.sub_eq_of_eq_add (by rw [Nat.mul_comm, Nat.mod_add_div])

end Emission

/-! ## Exactness -/

/-- What the lowering does with a divisor that fits: the product is too wide for the compiler, or it
emits the operations of the plan. -/
theorem lower_eq {site : Site} {numerator : NumericValue} {type : BitsType}
    (hsite : site.verified = true) (htype : numerator.value.type = some type)
    (hkind : numerator.sourceKind ≠ some .boolean) (hwidth : packedWidth type = .ok width)
    (hpos : 0 < width) (hdivisor : 0 < divisor) (hfits : divisor < 2 ^ width) (result : Result) :
    lowerFixedUnsignedDivRem site numerator true divisor result =
      if (plan width divisor).productWidth ≤ unsignedMax then
        match result with
        | .quotient => .ok (emitQuotient (plan width divisor) numerator.value type)
        | .remainder => .ok (emitRemainder divisor numerator.value
            (emitQuotient (plan width divisor) numerator.value type) type)
      else .error .geometryCapacity := by
  rw [lowerFixedUnsignedDivRem, hsite, if_neg (by decide), htype]
  dsimp only
  rw [if_neg (by simp [hkind]), hwidth, ok_bind, geometry_eq hpos hdivisor hfits]
  split_ifs
  · rw [ok_bind]
  · rw [error_bind]

/-- The reciprocal division is exact and no operation wraps, for every width and divisor whose
product is not too wide for the compiler. -/
theorem reciprocal_division_exact {site : Site} {numerator : NumericValue} {type : BitsType}
    {width divisor : Nat} (hsite : site.verified = true) (htype : numerator.value.type = some type)
    (hkind : numerator.sourceKind ≠ some .boolean) (hwidth : packedWidth type = .ok width)
    (hpos : 0 < width) (hdivisor : 0 < divisor) (hfits : divisor < 2 ^ width) :
    (unsignedMax < 2 * width + logarithm divisor → ∀ result,
      lowerFixedUnsignedDivRem site numerator true divisor result = .error .geometryCapacity) ∧
    (2 * width + logarithm divisor ≤ unsignedMax → ∃ product quotient scaled remainder,
      quotient = .extract product (plan width divisor).low type ∧
      remainder = .binary .sub numerator.value scaled type ∧
      lowerFixedUnsignedDivRem site numerator true divisor .quotient = .ok quotient ∧
      lowerFixedUnsignedDivRem site numerator true divisor .remainder = .ok remainder ∧
      ∀ env, (numerator.value.eval env).toNat < 2 ^ width ∧
        (product.eval env).toNat =
          (numerator.value.eval env).toNat * (plan width divisor).multiplier ∧
        (quotient.eval env).toNat = (numerator.value.eval env).toNat / divisor ∧
        (scaled.eval env).toNat = (numerator.value.eval env).toNat / divisor * divisor ∧
        (remainder.eval env).toNat = (numerator.value.eval env).toNat % divisor) := by
  have hproduct : (plan width divisor).productWidth = 2 * width + logarithm divisor := by
    change width + (width + logarithm divisor) = _
    omega
  have hlower := lower_eq hsite htype hkind hwidth hpos hdivisor hfits
  rw [hproduct] at hlower
  constructor
  · intro hcapacity result
    rw [hlower, if_neg (Nat.not_le.mpr hcapacity)]
  · intro hcapacity
    have hproductPos : 0 < (plan width divisor).productWidth := by omega
    have he : Emitted numerator.value type width divisor := by
      refine ⟨htype, widthOf_packed hwidth hpos (by omega), ?_, hpos, hdivisor, hfits⟩
      exact widthOf_packed rfl hproductPos (by omega)
    refine ⟨emitProduct (plan width divisor) numerator.value, _,
      emitScaled divisor (emitQuotient (plan width divisor) numerator.value type) type, _, rfl, rfl,
      ?_, ?_, fun env => ?_⟩
    · rw [hlower, if_pos hcapacity]
      rfl
    · rw [hlower, if_pos hcapacity]
      rfl
    · exact ⟨he.numerator_lt env, he.product env, he.quotient env, he.scaled env,
        he.remainder env⟩

theorem reciprocal_division_exact_seven :
    ∃ quotient, lowerFixedUnsignedDivRem ⟨true⟩
        ⟨.argument 0 (some (bitsType 8)), some .integer, none⟩ true 7 .quotient = .ok quotient ∧
      ∀ env, (quotient.eval env).toNat = (BitVec.ofInt 8 (env 0)).toNat / 7 := by
  obtain ⟨_, quotient, _, _, -, -, hquotient, -, hexact⟩ :=
    (@reciprocal_division_exact ⟨true⟩ ⟨.argument 0 (some (bitsType 8)), some .integer, none⟩
      (bitsType 8) 8 7 rfl rfl (by decide) rfl (by decide) (by decide) (by decide)).2 (by decide)
  exact ⟨quotient, hquotient, fun env => (hexact env).2.2.1⟩

end FixedDivRem

end PyCircuit.NumericLowering
