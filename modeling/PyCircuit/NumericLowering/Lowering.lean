import Mathlib.Data.Int.Bitwise
import Mathlib.Data.Nat.Size
import Mathlib.Data.List.MinMax

/-!
# Exact integer lowering

The functions of `NumericLowering.cpp`, which turn integer expressions with known intervals into
operations on bits. Every value has a half-open interval of integers; a value whose interval begins
below zero is read as signed, any other as unsigned. The lowering calculates the interval of a
result in arbitrary precision, chooses a width that holds it and the operands, extends the operands
to that width and emits one operation.

The model emits a term where the source inserts operations. A static expression is a literal or,
with some identity, an expression with the integer it was proven to be, if any.
-/

set_option autoImplicit false

namespace PyCircuit.NumericLowering

/-! ## Diagnostics -/

/-- What the lowering reports. -/
inductive Diagnostic where
  | invalidSite
  | precisionCapacity
  | negativeShiftCount
  | invalidOpcode
  | notBits
  | notStatic
  | widthCapacity
  | emptyInterval
  | intervalCapacity
  | notInteger
  | intervalDoesNotFit
  | unsupportedBinary
  | noMask
  | binaryCapacity
  | binaryTypes
  | conditionKind
  | conditionType
  | selectCapacity
  | selectTypes
  | shiftCount
  | shiftSign
  | shiftDoesNotFit
  | boundaryCapacity
  | boundaryBounds
  | boundaryTypes
  deriving DecidableEq, Repr

/-- The text; an invalid site is reported by the checks of the site. -/
def Diagnostic.message : Diagnostic → Option String
  | .invalidSite => none
  | .precisionCapacity => some "mathematical value precision exceeds compiler APInt capacity"
  | .negativeShiftCount => some "mathematical shift count must be nonnegative"
  | .invalidOpcode => some "invalid mathematical integer value opcode"
  | .notBits => some "integer lowering requires a bits value"
  | .notStatic => some "integer lowering requires a proven static integer"
  | .widthCapacity => some "integer width exceeds compiler representation capacity"
  | .emptyInterval => some "integer interval must be nonempty"
  | .intervalCapacity => some "integer interval exceeds compiler representation capacity"
  | .notInteger => some "mathematical arithmetic requires known Integer kind and finite interval"
  | .intervalDoesNotFit => some "integer interval does not fit its SSA representation"
  | .unsupportedBinary => some "unsupported exact integer binary operation"
  | .noMask => some "mathematical AND requires an actual known nonnegative integer constant mask"
  | .binaryCapacity => some "integer operation exceeds compiler representation capacity"
  | .binaryTypes => some "integer representation proof requires normalized equal-width types"
  | .conditionKind => some "integer select requires authoritative Boolean condition kind"
  | .conditionType => some "integer select condition requires canonical one-bit Bits"
  | .selectCapacity => some "integer select exceeds compiler representation capacity"
  | .selectTypes => some "integer select representation proof requires normalized equal-width types"
  | .shiftCount => some "integer right-shift count must be nonnegative"
  | .shiftSign => some "integer right shift requires a proven nonnegative input interval"
  | .shiftDoesNotFit => some "integer right-shift interval does not fit its result width"
  | .boundaryCapacity => some "integer boundary exceeds compiler representation capacity"
  | .boundaryBounds => some "integer interval is not proven within destination bounds"
  | .boundaryTypes =>
    some "integer boundary representation proof requires normalized equal-width types"

/-- `std::numeric_limits<unsigned>::max()`. -/
def unsignedMax : Nat := 2 ^ 32 - 1

/-! ## Calculations in arbitrary precision -/

inductive ValueOpcode where
  | neg | invert | not | toInt | add | sub | mul | floorDiv | mod | andBits | orBits | xorBits
  | shl | shr | eq | ne | lt | le | gt | ge | andBool | orBool
  deriving DecidableEq, Repr

/-- `getActiveBits` of a number that is not negative. -/
def activeBits (x : Int) : Nat := x.toNat.size

/-- `getSignificantBits` of a negative number. -/
def significantBits (x : Int) : Nat := (-x - 1).toNat.size + 1

/-- The bits of a number with its sign. -/
def signedWidth (x : Int) : Nat := if x < 0 then significantBits x else activeBits x + 1

/-- A width that the compiler can represent. -/
def checkedWidth (width : Nat) : Except Diagnostic Nat :=
  if width = 0 ∨ unsignedMax < width then .error .precisionCapacity else .ok width

/-- `shift` for the opcode `Shr`. -/
def shiftRight (value count : Int) : Except Diagnostic Int :=
  if count < 0 then .error .negativeShiftCount
  else if value = 0 then .ok 0
  else
    let precision := signedWidth value
    if (precision : Int) ≤ count then .ok (if value < 0 then -1 else 0)
    else do
      let width ← checkedWidth precision
      return ((BitVec.ofInt width value).sshiftRight count.toNat).toInt

/-- `integerOperation` for the opcodes that the lowering calculates with. -/
def integerOperation (opcode : ValueOpcode) (lhs rhs : Int) : Except Diagnostic Int :=
  match opcode with
  | .add => do
      let width ← checkedWidth (max (signedWidth lhs) (signedWidth rhs) + 1)
      return (BitVec.ofInt width lhs + BitVec.ofInt width rhs).toInt
  | .sub => do
      let width ← checkedWidth (max (signedWidth lhs) (signedWidth rhs) + 1)
      return (BitVec.ofInt width lhs - BitVec.ofInt width rhs).toInt
  | .mul => do
      let width ← checkedWidth (signedWidth lhs + signedWidth rhs)
      return (BitVec.ofInt width lhs * BitVec.ofInt width rhs).toInt
  | .shr => shiftRight lhs rhs
  | _ => .error .invalidOpcode

/-- `calculate`. -/
def calculate (opcode : ValueOpcode) (lhs rhs : Int) : Except Diagnostic Int :=
  integerOperation opcode lhs rhs

/-! ## Types and values -/

/-- Integers that are known statically, or may be. -/
inductive StaticExpr where
  | literal (value : Int)
  | expression (identity : Nat) (value : Option Int)
  deriving DecidableEq, Repr

/-- The proven integer. -/
def knownInteger : StaticExpr → Except Diagnostic Int
  | .literal value => .ok value
  | .expression _ (some value) => .ok value
  | .expression _ none => .error .notStatic

structure BitsType where
  width : StaticExpr
  deriving DecidableEq, Repr

/-- `bitsType`: the type with a literal width. -/
def bitsType (width : Nat) : BitsType := ⟨.literal width⟩

/-- The modes of `ac.bits.resize`. -/
inductive ResizeMode where
  | zext | sext | trunc
  deriving DecidableEq, Repr

/-- The spellings of `ac.bits.binary` that the lowering uses. -/
inductive BitsOpcode where
  | add | sub | mul | and
  deriving DecidableEq, Repr

/-- Values of the emitted program; the type of an argument may be another than bits. -/
inductive Value where
  | argument (index : Nat) (type : Option BitsType)
  | constant (value : StaticExpr) (type : BitsType)
  | resize (mode : ResizeMode) (input : Value) (type : BitsType)
  | binary (opcode : BitsOpcode) (lhs rhs : Value) (type : BitsType)
  | select (condition whenTrue whenFalse : Value) (type : BitsType)
  | extract (input : Value) (low : Int) (type : BitsType)
  deriving DecidableEq, Repr

def Value.type : Value → Option BitsType
  | .argument _ type => type
  | .constant _ type => some type
  | .resize _ _ type => some type
  | .binary _ _ _ type => some type
  | .select _ _ _ type => some type
  | .extract _ _ type => some type

/-- The kinds of a source value. -/
inductive ValueKind where
  | boolean | integer
  deriving DecidableEq, Repr

/-- The integers from `lower` to below `upper`. -/
structure IntegerInterval where
  lower : Int
  upper : Int
  deriving DecidableEq, Repr

/-- A value with what is known of it. -/
structure NumericValue where
  value : Value
  sourceKind : Option ValueKind
  interval : Option IntegerInterval
  deriving DecidableEq, Repr

/-- The width of a bits type. -/
def widthOf (type : Option BitsType) : Except Diagnostic Nat :=
  match type with
  | none => .error .notBits
  | some type => do
      let width ← knownInteger type.width
      if width ≤ 0 ∨ 32 < activeBits width then .error .widthCapacity else .ok width.toNat

/-! ## Checks -/

/-- The width that an interval needs. -/
def intervalWidth (interval : IntegerInterval) : Except Diagnostic Nat :=
  if interval.upper ≤ interval.lower then .error .emptyInterval
  else do
    let maximum ← calculate .sub interval.upper 1
    let width := if interval.lower < 0 then max (signedWidth interval.lower) (signedWidth maximum)
      else max 1 (activeBits maximum)
    if unsignedMax < width then .error .intervalCapacity else .ok width

/-- `checkValue`, with the interval that it found. -/
def checkValue (v : NumericValue) : Except Diagnostic (Nat × IntegerInterval) :=
  match v.sourceKind, v.interval with
  | some .integer, some interval => do
      let width ← widthOf v.value.type
      let required ← intervalWidth interval
      if width < required then .error .intervalDoesNotFit else .ok (width, interval)
  | _, _ => .error .notInteger

/-- The value at the common width. -/
def widen (value : Value) (interval : IntegerInterval) (current width : Nat) : Value :=
  if current = width then value
  else .resize (if interval.lower < 0 then .sext else .zext) value (bitsType width)

/-- The integer of a constant, read as its interval says. -/
def literalMask (v : NumericValue) (interval : IntegerInterval) : Option Int :=
  match v.value with
  | .constant value type =>
    match knownInteger value, widthOf (some type) with
    | .ok integer, .ok width =>
      if integer < 0 ∨ width < activeBits integer then none
      else
        let integer := if interval.lower < 0 then (BitVec.ofInt width integer).toInt
          else integer
        if integer < interval.lower ∨ interval.upper ≤ integer then none else some integer
    | _, _ => none
  | _ => none

/-- The width for both operands: one that is not negative needs another bit beside a signed one. -/
def operandWidth (signedOperands : Bool) (interval : IntegerInterval) (width : Nat) : Nat :=
  width + if signedOperands && !decide (interval.lower < 0) then 1 else 0

/-! ## Binary operations -/

/-- The mask of a conjunction: the right operand, or else the left one. -/
def knownMask (lhs rhs : NumericValue) (left right : IntegerInterval) : Option Int :=
  match (literalMask rhs right).filter fun mask => 0 ≤ mask with
  | some mask => some mask
  | none => (literalMask lhs left).filter fun mask => 0 ≤ mask

/-- From zero to the mask. -/
def maskInterval (lhs rhs : NumericValue) (left right : IntegerInterval) :
    Except Diagnostic IntegerInterval :=
  match knownMask lhs rhs left right with
  | none => .error .noMask
  | some mask => do
      let upper ← calculate .add mask 1
      return ⟨0, upper⟩

/-- Between the products of the ends. -/
def productInterval (left right : IntegerInterval) : Except Diagnostic IntegerInterval := do
  let leftMax ← calculate .sub left.upper 1
  let rightMax ← calculate .sub right.upper 1
  let first ← calculate .mul left.lower right.lower
  let second ← calculate .mul left.lower rightMax
  let third ← calculate .mul leftMax right.lower
  let fourth ← calculate .mul leftMax rightMax
  let maximum := max (max (max first second) third) fourth
  let upper ← calculate .add maximum 1
  return ⟨min (min (min first second) third) fourth, upper⟩

def sumInterval (left right : IntegerInterval) : Except Diagnostic IntegerInterval := do
  let lower ← calculate .add left.lower right.lower
  let upper ← calculate .add left.upper right.upper
  let adjusted ← calculate .sub upper 1
  return ⟨lower, adjusted⟩

def differenceInterval (left right : IntegerInterval) : Except Diagnostic IntegerInterval := do
  let lower ← calculate .sub left.lower right.upper
  let upper ← calculate .sub left.upper right.lower
  let adjusted ← calculate .add lower 1
  return ⟨adjusted, upper⟩

/-- The interval and the spelling of a binary operation. -/
def binaryInterval (opcode : ValueOpcode) (lhs rhs : NumericValue) (left right : IntegerInterval) :
    Except Diagnostic (IntegerInterval × BitsOpcode) :=
  match opcode with
  | .andBits => do return (← maskInterval lhs rhs left right, .and)
  | .mul => do return (← productInterval left right, .mul)
  | .add => do return (← sumInterval left right, .add)
  | .sub => do return (← differenceInterval left right, .sub)
  | _ => .error .unsupportedBinary

/-- A source position; `verified` is the result of `verifySite`. -/
structure Site where
  verified : Bool
  deriving DecidableEq, Repr

def lowerExactIntegerBinary (site : Site) (opcode : ValueOpcode) (lhs rhs : NumericValue) :
    Except Diagnostic NumericValue := do
  if !site.verified then .error .invalidSite
  else if opcode ≠ .add ∧ opcode ≠ .sub ∧ opcode ≠ .mul ∧ opcode ≠ .andBits then
    .error .unsupportedBinary
  else do
    let (leftWidth, left) ← checkValue lhs
    let (rightWidth, right) ← checkValue rhs
    let (result, spelling) ← binaryInterval opcode lhs rhs left right
    let resultWidth ← intervalWidth result
    let signedOperands := decide (left.lower < 0) || decide (right.lower < 0)
    let width := max resultWidth (max (operandWidth signedOperands left leftWidth)
      (operandWidth signedOperands right rightWidth))
    if unsignedMax < width then .error .binaryCapacity
    else if (leftWidth = width ∧ lhs.value.type ≠ some (bitsType width)) ∨
        (rightWidth = width ∧ rhs.value.type ≠ some (bitsType width)) then .error .binaryTypes
    else
      return ⟨.binary spelling (widen lhs.value left leftWidth width)
        (widen rhs.value right rightWidth width) (bitsType width), some .integer, some result⟩

/-! ## Select -/

/-- The hull of both intervals. -/
def selectInterval (whenTrue whenFalse : IntegerInterval) : IntegerInterval where
  lower := if whenTrue.lower < whenFalse.lower then whenTrue.lower else whenFalse.lower
  upper := if whenFalse.upper < whenTrue.upper then whenTrue.upper else whenFalse.upper

/-- `lowerExactIntegerSelect`, with `prepareExactIntegerSelect` and the two arms. -/
def lowerExactIntegerSelect (site : Site) (condition whenTrue whenFalse : NumericValue) :
    Except Diagnostic NumericValue := do
  if !site.verified then .error .invalidSite
  else if condition.sourceKind ≠ some .boolean then .error .conditionKind
  else if condition.value.type ≠ some (bitsType 1) then .error .conditionType
  else do
    let (trueWidth, yes) ← checkValue whenTrue
    let (falseWidth, no) ← checkValue whenFalse
    let result := selectInterval yes no
    let required ← intervalWidth result
    let signedBranches := decide (yes.lower < 0) || decide (no.lower < 0)
    let width := max required (max (operandWidth signedBranches yes trueWidth)
      (operandWidth signedBranches no falseWidth))
    if unsignedMax < width then .error .selectCapacity
    else if (trueWidth = width ∧ whenTrue.value.type ≠ some (bitsType width)) ∨
        (falseWidth = width ∧ whenFalse.value.type ≠ some (bitsType width)) then
      .error .selectTypes
    else
      return ⟨.select condition.value (widen whenTrue.value yes trueWidth width)
        (widen whenFalse.value no falseWidth width) (bitsType width), some .integer, some result⟩

/-! ## Right shift -/

/-- The interval of the shifted numbers. -/
def shiftedInterval (interval : IntegerInterval) (count : Int) :
    Except Diagnostic IntegerInterval := do
  let lower ← calculate .shr interval.lower count
  let maximum ← calculate .sub interval.upper 1
  let shiftedMaximum ← calculate .shr maximum count
  let upper ← calculate .add shiftedMaximum 1
  return ⟨lower, upper⟩

def lowerExactIntegerShiftRight (site : Site) (input : NumericValue) (count : Int) :
    Except Diagnostic NumericValue := do
  if !site.verified then .error .invalidSite
  else if count < 0 then .error .shiftCount
  else do
    let (inputWidth, interval) ← checkValue input
    if interval.lower < 0 then .error .shiftSign
    else do
      let shifted ← shiftedInterval interval count
      let requiredWidth ← intervalWidth shifted
      let overshift := decide ((inputWidth : Int) ≤ count)
      let amount := if overshift then 0 else count.toNat
      let resultWidth := if overshift then 1 else inputWidth - amount
      if resultWidth < requiredWidth then .error .shiftDoesNotFit
      else if overshift then
        return ⟨.constant (.literal 0) (bitsType resultWidth), some .integer, some shifted⟩
      else
        return ⟨.extract input.value count
          (if amount = 0 then input.value.type.getD (bitsType resultWidth)
            else bitsType resultWidth), some .integer, some shifted⟩

/-! ## Boundary -/

/-- `lowerExactIntegerBoundary`; the importer keeps the kind and the interval of the value. -/
def lowerExactIntegerBoundary (site : Site) (v : NumericValue) (destination : Option BitsType) :
    Except Diagnostic NumericValue := do
  if !site.verified then .error .invalidSite
  else do
    let (sourceWidth, interval) ← checkValue v
    let targetWidth ← widthOf destination
    if targetWidth = unsignedMax then .error .boundaryCapacity
    else if interval.lower < 0 ∨ (2 ^ targetWidth : Int) < interval.upper then
      .error .boundaryBounds
    else if sourceWidth = targetWidth then
      if v.value.type ≠ destination then .error .boundaryTypes else return v
    else
      let mode := if targetWidth < sourceWidth then ResizeMode.trunc else .zext
      let type := destination.getD (bitsType targetWidth)
      return { v with value := .resize mode v.value type }

/-! ## Expressions -/

/-- Trees of integer expressions. A leaf is an argument or a constant with what the importer knows
about it. -/
inductive Expr where
  | argument (index : Nat) (type : Option BitsType) (kind : Option ValueKind)
      (interval : Option IntegerInterval)
  | constant (value : StaticExpr) (type : BitsType) (kind : Option ValueKind)
      (interval : Option IntegerInterval)
  | binary (site : Site) (opcode : ValueOpcode) (lhs rhs : Expr)
  | select (site : Site) (condition : NumericValue) (whenTrue whenFalse : Expr)
  | shiftRight (site : Site) (input : Expr) (count : Int)
  | boundary (site : Site) (input : Expr) (destination : Option BitsType)

/-- The lowering of a tree, from the leaves up. -/
def Expr.lower : Expr → Except Diagnostic NumericValue
  | .argument index type kind interval => .ok ⟨.argument index type, kind, interval⟩
  | .constant value type kind interval => .ok ⟨.constant value type, kind, interval⟩
  | .binary site opcode lhs rhs => do
      lowerExactIntegerBinary site opcode (← lhs.lower) (← rhs.lower)
  | .select site condition whenTrue whenFalse => do
      lowerExactIntegerSelect site condition (← whenTrue.lower) (← whenFalse.lower)
  | .shiftRight site input count => do lowerExactIntegerShiftRight site (← input.lower) count
  | .boundary site input destination => do
      lowerExactIntegerBoundary site (← input.lower) destination

end PyCircuit.NumericLowering
