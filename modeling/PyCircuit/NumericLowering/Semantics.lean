import PyCircuit.NumericLowering.Calculation

/-!
# The meaning of emitted values and of trees

The meaning of an emitted value is its bits under an assignment of the arguments; the meaning of a
tree is an exact integer. A value represents an integer of its interval when it has the bits of the
integer and the interval fits its width.
-/

set_option autoImplicit false

namespace PyCircuit.NumericLowering

open PyCircuit.Lib

/-! ## The meaning of emitted values -/

/-- The width of a value; zero where it has none. -/
def Value.width (v : Value) : Nat :=
  match widthOf v.type with
  | .ok width => width
  | .error _ => 0

/-- The integer of a static expression; zero where it is not known. -/
def StaticExpr.integer (e : StaticExpr) : Int :=
  match knownInteger e with
  | .ok value => value
  | .error _ => 0

def BitsOpcode.apply {w : Nat} : BitsOpcode → BitVec w → BitVec w → BitVec w
  | .add => fun a b => a + b
  | .sub => fun a b => a - b
  | .mul => fun a b => a * b
  | .and => fun a b => a &&& b

/-- The bits of a value. The operands of an operation have its width, see `Value.Typed`. -/
def Value.eval (env : Nat → Int) : (v : Value) → BitVec v.width
  | .argument index _ => BitVec.ofInt _ (env index)
  | .constant value _ => BitVec.ofInt _ value.integer
  | .resize .sext input _ => (input.eval env).signExtend _
  | .resize _ input _ => (input.eval env).setWidth _
  | .binary opcode lhs rhs _ =>
    opcode.apply ((lhs.eval env).setWidth _) ((rhs.eval env).setWidth _)
  | .select condition whenTrue whenFalse _ =>
    if (condition.eval env).getLsbD 0 then (whenTrue.eval env).setWidth _
    else (whenFalse.eval env).setWidth _
  | .extract input low _ => (input.eval env).extractLsb' low.toNat _

theorem Value.eval_constant (env : Nat → Int) (value : StaticExpr) (type : BitsType) :
    (Value.constant value type).eval env = BitVec.ofInt _ value.integer := by
  rw [Value.eval]

/-- What the verifiers of the operations ask of the widths. -/
def Value.Typed : Value → Prop
  | .argument _ _ => True
  | .constant _ _ => True
  | .resize .trunc input type => input.Typed ∧ (Value.resize .trunc input type).width < input.width
  | .resize mode input type => input.Typed ∧ input.width < (Value.resize mode input type).width
  | .binary opcode lhs rhs type => lhs.Typed ∧ rhs.Typed ∧
      lhs.width = (Value.binary opcode lhs rhs type).width ∧
      rhs.width = (Value.binary opcode lhs rhs type).width
  | .select condition whenTrue whenFalse type => whenTrue.Typed ∧ whenFalse.Typed ∧
      condition.width = 1 ∧
      whenTrue.width = (Value.select condition whenTrue whenFalse type).width ∧
      whenFalse.width = (Value.select condition whenTrue whenFalse type).width
  | .extract input low type => input.Typed ∧ 0 ≤ low ∧
      low.toNat + (Value.extract input low type).width ≤ input.width

/-- The integer of some bits: signed where the interval begins below zero. -/
def IntegerInterval.read {w : Nat} (interval : IntegerInterval) (bits : BitVec w) : Int :=
  if interval.lower < 0 then bits.toInt else bits.toNat

/-! ## Exact integers -/

/-- The exact result of a binary operation; zero where the lowering has none. -/
def ValueOpcode.exact (x y : Int) : ValueOpcode → Int
  | .add => x + y
  | .sub => x - y
  | .mul => x * y
  | .andBits => Int.land x y
  | _ => 0

namespace Expr

/-- The exact integer of a tree. -/
def exact (env : Nat → Int) : Expr → Int
  | .argument index _ _ _ => env index
  | .constant value type _ interval =>
    match interval with
    | some interval => interval.read ((Value.constant value type).eval env)
    | none => value.integer
  | .binary _ opcode lhs rhs => opcode.exact (lhs.exact env) (rhs.exact env)
  | .select _ condition whenTrue whenFalse =>
    if (condition.value.eval env).getLsbD 0 then whenTrue.exact env else whenFalse.exact env
  | .shiftRight _ input count => input.exact env / 2 ^ count.toNat
  | .boundary _ input _ => input.exact env

/-- The leaves are integers with finite intervals that their types hold, and the assignment lies in
the intervals. -/
def Inside (env : Nat → Int) : Expr → Prop
  | .argument index type kind interval =>
    ∃ width bounds, checkValue ⟨.argument index type, kind, interval⟩ = .ok (width, bounds) ∧
      bounds.lower ≤ env index ∧ env index < bounds.upper
  | .constant value type kind interval =>
    ∃ width bounds, checkValue ⟨.constant value type, kind, interval⟩ = .ok (width, bounds) ∧
      bounds.lower ≤ (Expr.constant value type kind interval).exact env ∧
      (Expr.constant value type kind interval).exact env < bounds.upper
  | .binary _ _ lhs rhs => lhs.Inside env ∧ rhs.Inside env
  | .select _ _ whenTrue whenFalse => whenTrue.Inside env ∧ whenFalse.Inside env
  | .shiftRight _ input _ => input.Inside env
  | .boundary _ input _ => input.Inside env

/-- The tree and the trees below it. -/
def nodes : Expr → List Expr
  | .binary site opcode lhs rhs => .binary site opcode lhs rhs :: (lhs.nodes ++ rhs.nodes)
  | .select site condition whenTrue whenFalse =>
    .select site condition whenTrue whenFalse :: (whenTrue.nodes ++ whenFalse.nodes)
  | .shiftRight site input count => .shiftRight site input count :: input.nodes
  | .boundary site input destination => .boundary site input destination :: input.nodes
  | e => [e]

end Expr

/-! ## Values that represent an integer -/

/-- The value represents the integer, which lies in its interval; the interval fits the width. -/
structure Lowered (env : Nat → Int) (v : NumericValue) (interval : IntegerInterval) (x : Int) :
    Prop where
  kind : v.sourceKind = some .integer
  interval_eq : v.interval = some interval
  width : widthOf v.value.type = .ok v.value.width
  fits : interval.Fits v.value.width
  pos : 0 < v.value.width
  lower : interval.lower ≤ x
  upper : x < interval.upper
  bits : v.value.eval env = BitVec.ofInt v.value.width x
  typed : v.value.Typed

variable {interval : IntegerInterval} {w : Nat} {x : Int} {env : Nat → Int} {v : NumericValue}

theorem IntegerInterval.Fits.signed
    (h : interval.Fits w) (hneg : interval.lower < 0) (hlower : interval.lower ≤ x)
    (hupper : x < interval.upper) : FitsSigned w x := by
  rw [IntegerInterval.Fits, if_pos hneg] at h
  obtain ⟨⟨hpos, hlow, -⟩, hhigh⟩ := h
  exact ⟨hpos, by omega, by omega⟩

theorem IntegerInterval.Fits.unsigned
    (h : interval.Fits w) (hneg : ¬ interval.lower < 0) (hlower : interval.lower ≤ x)
    (hupper : x < interval.upper) : 0 ≤ x ∧ x < 2 ^ w := by
  rw [IntegerInterval.Fits, if_neg hneg] at h
  exact ⟨by omega, by omega⟩

/-- The bits of an integer that fits are read back. -/
theorem IntegerInterval.Fits.read_ofInt
    (h : interval.Fits w) (hlower : interval.lower ≤ x) (hupper : x < interval.upper) :
    interval.read (BitVec.ofInt w x) = x := by
  rw [IntegerInterval.read]
  split_ifs with hneg
  · exact (h.signed hneg hlower hupper).toInt_ofInt
  · obtain ⟨h₀, hlt⟩ := h.unsigned hneg hlower hupper
    exact TwosComplement.toNat_ofInt_of_lt h₀ hlt

theorem IntegerInterval.ofInt_read (interval : IntegerInterval) (bits : BitVec w) :
    BitVec.ofInt w (interval.read bits) = bits := by
  rw [IntegerInterval.read]
  split_ifs
  · exact BitVec.ofInt_toInt
  · rw [BitVec.ofInt_natCast, BitVec.ofNat_toNat, BitVec.setWidth_eq]

theorem Lowered.read (h : Lowered env v interval x) : interval.read (v.value.eval env) = x := by
  rw [h.bits]
  exact h.fits.read_ofInt h.lower h.upper

/-- What `checkValue` finds. -/
theorem checkValue_spec {width : Nat}
    (h : checkValue v = .ok (width, interval)) :
    v.sourceKind = some .integer ∧ v.interval = some interval ∧ widthOf v.value.type = .ok width ∧
      v.value.width = width ∧ interval.Fits width ∧ 0 < width ∧
      interval.lower < interval.upper := by
  rw [checkValue] at h
  split at h
  · rename_i bounds hkind hinterval
    obtain ⟨width', hwidth, h⟩ := Fallible.bind_eq_ok.mp h
    obtain ⟨required, hrequired, h⟩ := Fallible.bind_eq_ok.mp h
    split_ifs at h with hfits
    obtain ⟨rfl, rfl⟩ := Prod.mk.inj (Except.ok.inj h)
    obtain ⟨hnonempty, hpos, hrep, -⟩ := intervalWidth_spec hrequired
    have hvalue : v.value.width = width' := by rw [Value.width, hwidth]
    exact ⟨hkind, hinterval, hwidth, hvalue, hrep.mono (by omega), by omega, hnonempty⟩
  · cases h

/-- A value that passes the check and has the bits of an integer of its interval. -/
theorem lowered_of_check {width : Nat}
    (h : checkValue v = .ok (width, interval))
    (hlower : interval.lower ≤ x) (hupper : x < interval.upper)
    (hbits : v.value.eval env = BitVec.ofInt v.value.width x) (htyped : v.value.Typed) :
    Lowered env v interval x := by
  obtain ⟨hkind, hinterval, hwidth, hvalue, hfits, hpos, -⟩ := checkValue_spec h
  rw [← hvalue] at hwidth hfits hpos
  exact ⟨hkind, hinterval, hwidth, hfits, hpos, hlower, hupper, hbits, htyped⟩

/-- The check of a lowered value succeeds with its own width and interval. -/
theorem Lowered.check_eq (h : Lowered env v interval x) {result : Nat × IntegerInterval}
    (hcheck : checkValue v = .ok result) : result = (v.value.width, interval) := by
  obtain ⟨width, bounds⟩ := result
  obtain ⟨-, hinterval, -, hwidth, -⟩ := checkValue_spec hcheck
  rw [h.interval_eq] at hinterval
  rw [hwidth, Option.some.inj hinterval]

end PyCircuit.NumericLowering
