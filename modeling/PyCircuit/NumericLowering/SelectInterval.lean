import PyCircuit.Gfsim.Operators
import PyCircuit.NumericLowering.Calculation

/-!
# Intervals of clamped values

`refineUnsignedSelectInterval` of `NumericLowering.cpp`: the interval of a select that takes a value
where an unsigned comparison with a constant holds, or where it fails, and a constant elsewhere. The
comparison tightens one or both ends of the interval of the value, and the constant is joined to it.
-/

set_option autoImplicit false

namespace PyCircuit.NumericLowering

open PyCircuit.Gfsim.FourState (ComparePredicate)

/-! ## The refinement -/

/-- `APSInt::isPowerOf2`. -/
def isPowerOf2 (x : Int) : Bool := 0 < x ∧ x = 2 ^ (activeBits x - 1)

/-- The successor, if its precision is within the capacity. -/
def increment (value : Int) : Option Int :=
  let precision := max (activeBits value + 1) 2
  if unsignedMax ≤ precision then none else (calculate .add value 1).toOption

/-- The original interval is one of the literal width. -/
def withinWidth (literalWidth : Nat) (original : IntegerInterval) : Bool :=
  ¬ (original.lower < 0 ∨ original.upper < 0 ∨ original.upper ≤ original.lower ∨
    ¬ (activeBits original.upper ≤ literalWidth ∨
      isPowerOf2 original.upper ∧ activeBits original.upper - 1 ≤ literalWidth))

/-- The predicate of the arm that is selected when the comparison fails. -/
def negatedPredicate : ComparePredicate → ComparePredicate
  | .ult => .uge
  | .ule => .ugt
  | .ugt => .ule
  | _ => .ult

/-- A lower and, if there is one, an upper end. -/
abbrev Bounds := Int × Option Int

def Bounds.raise (bounds : Bounds) (lower : Int) : Bounds :=
  (if bounds.1 < lower then lower else bounds.1, bounds.2)

def Bounds.cut (bounds : Bounds) (upper : Int) : Bounds :=
  match bounds.2 with
  | none => (bounds.1, some upper)
  | some current => (bounds.1, some (if upper < current then upper else current))

/-- The ends that the successor of the constant restricts. -/
def restrictNext (predicate : ComparePredicate) (comparisonConstant : Int) (bounds : Bounds) :
    Option Bounds :=
  if predicate = .ule ∨ predicate = .ugt ∨ predicate = .eq then
    match increment comparisonConstant with
    | none => none
    | some next => if predicate = .ugt then some (bounds.raise next) else some (bounds.cut next)
  else some bounds

/-- The ends that the constant itself restricts. -/
def restrict (predicate : ComparePredicate) (comparisonConstant : Int) (bounds : Bounds) : Bounds :=
  if predicate = .ult then bounds.cut comparisonConstant
  else if predicate = .uge ∨ predicate = .eq then bounds.raise comparisonConstant
  else bounds

/-- The restricted ends joined with the fallback. -/
def joinFallback (bounds : Bounds) (fallbackConstant : Int) : Option IntegerInterval :=
  match bounds.2 with
  | none => none
  | some upper =>
    if upper ≤ bounds.1 then none
    else
      match increment fallbackConstant with
      | none => none
      | some fallbackUpper =>
        some
          { lower := if bounds.1 < fallbackConstant then bounds.1 else fallbackConstant
            upper := if fallbackUpper < upper then upper else fallbackUpper }

def refineUnsignedSelectInterval (predicate : ComparePredicate) (selectedWhenTrue : Bool)
    (original : Option IntegerInterval) (literalWidth : Nat)
    (comparisonConstant fallbackConstant : Int) : Option IntegerInterval :=
  if literalWidth = 0 ∨ comparisonConstant < 0 ∨ fallbackConstant < 0 ∨
      literalWidth < activeBits comparisonConstant ∨ literalWidth < activeBits fallbackConstant then
    none
  else if original.any fun interval => !withinWidth literalWidth interval then none
  else if predicate ∉ [.ult, .ule, .ugt, .uge, .eq] then none
  else if selectedWhenTrue = false ∧ predicate = .eq then none
  else
    let selected := if selectedWhenTrue then predicate else negatedPredicate predicate
    let bounds : Bounds := ((original.map (·.lower)).getD 0, original.map (·.upper))
    match restrictNext selected comparisonConstant bounds with
    | none => none
    | some bounds => joinFallback (restrict selected comparisonConstant bounds) fallbackConstant

/-! ## The clamp -/

/-- The unsigned comparison of two numbers. -/
def unsignedHolds (predicate : ComparePredicate) (v c : Int) : Bool :=
  match predicate with
  | .ult => v < c
  | .ule => v ≤ c
  | .ugt => c < v
  | .uge => c ≤ v
  | .eq => v = c
  | _ => false

/-- The result of the select: the value where the comparison selects its arm, the fallback
elsewhere. -/
def clampResult (predicate : ComparePredicate) (selectedWhenTrue : Bool) (v c fallback : Int) :
    Int :=
  if unsignedHolds predicate v c = selectedWhenTrue then v else fallback

variable {w : Nat} {predicate : ComparePredicate} {c : Int} {bounds result : Bounds}

theorem increment_eq {value next : Int} (h : increment value = some next) : next = value + 1 := by
  simp only [increment] at h
  split_ifs at h
  cases hadd : calculate .add value 1 with
  | error e => simp [hadd, Except.toOption] at h
  | ok r =>
    obtain rfl : r = next := by simpa [hadd, Except.toOption] using h
    exact calculate_add hadd

theorem withinWidth_spec {original : IntegerInterval} (h : withinWidth w original = true) :
    0 ≤ original.lower ∧ original.lower < original.upper ∧ original.upper ≤ 2 ^ w := by
  rw [withinWidth, decide_eq_true_eq, not_or, not_or, not_or, not_lt, not_lt, not_le, not_not] at h
  obtain ⟨hlower, hupper, hlt, hbits | ⟨hpower, hbits⟩⟩ := h
  · exact ⟨hlower, hlt, Int.le_of_lt ((lt_of_activeBits hupper).mp hbits)⟩
  · simp only [isPowerOf2, decide_eq_true_eq] at hpower
    refine ⟨hlower, hlt, ?_⟩
    rw [hpower.2]
    exact pow_le_pow_right₀ (by decide) hbits

theorem unsignedHolds_negated (h : predicate ∈ [.ult, .ule, .ugt, .uge, ComparePredicate.eq])
    (hne : predicate ≠ .eq) (v : Int) :
    unsignedHolds (negatedPredicate predicate) v c = !unsignedHolds predicate v c := by
  cases predicate <;> simp_all [unsignedHolds, negatedPredicate] <;> rw [← decide_not] <;>
    congr 1 <;>
    simp

/-- The bounds hold every number that satisfies `P`, and lie in the numbers of the width. -/
def Encloses (w : Nat) (P : Int → Prop) (bounds : Bounds) : Prop :=
  0 ≤ bounds.1 ∧ (∀ u ∈ bounds.2, u ≤ 2 ^ w) ∧ ∀ v, P v → bounds.1 ≤ v ∧ ∀ u ∈ bounds.2, v < u

theorem Encloses.raise {P : Int → Prop} (h : Encloses w P bounds) {lower : Int}
    (hlower : 0 ≤ lower) (hP : ∀ v, P v → lower ≤ v) : Encloses w P (bounds.raise lower) := by
  obtain ⟨h₀, hupper, hv⟩ := h
  refine ⟨?_, hupper, fun v hPv => ⟨?_, (hv v hPv).2⟩⟩
  · simp only [Bounds.raise]
    split_ifs
    · exact hlower
    · exact h₀
  · simp only [Bounds.raise]
    split_ifs
    · exact hP v hPv
    · exact (hv v hPv).1

theorem Encloses.cut {P : Int → Prop} (h : Encloses w P bounds) {upper : Int}
    (hupper : upper ≤ 2 ^ w) (hP : ∀ v, P v → v < upper) : Encloses w P (bounds.cut upper) := by
  obtain ⟨lower, current⟩ := bounds
  obtain ⟨h₀, hcurrent, hv⟩ := h
  cases current with
  | none => exact ⟨h₀, by simpa [Bounds.cut] using hupper,
      fun v hPv => ⟨(hv v hPv).1, by simpa [Bounds.cut] using hP v hPv⟩⟩
  | some current =>
    simp only [Option.mem_def, Option.some.injEq, forall_eq'] at hcurrent hv
    refine ⟨h₀, ?_, fun v hPv => ⟨(hv v hPv).1, ?_⟩⟩
    · simp only [Bounds.cut, Option.mem_def, Option.some.injEq, forall_eq']
      split_ifs
      · exact hupper
      · exact hcurrent
    · simp only [Bounds.cut, Option.mem_def, Option.some.injEq, forall_eq']
      split_ifs
      · exact hP v hPv
      · exact (hv v hPv).2

/-- The restrictions keep every number that the predicate selects. -/
theorem Encloses.restricted {P : Int → Prop} (h : Encloses w P bounds) (h₀ : 0 ≤ c)
    (hc : c < 2 ^ w) (hP : ∀ v, P v → unsignedHolds predicate v c = true)
    (hnext : restrictNext predicate c bounds = some result) :
    Encloses w P (restrict predicate c result) := by
  -- the predicates that need the successor have found it
  have hsucc : ∀ {f : Int → Option Bounds}, (match increment c with
      | none => none
      | some next => f next) = some result → f (c + 1) = some result := by
    intro f hf
    cases hinc : increment c with
    | none => simp [hinc] at hf
    | some next => simpa [hinc, increment_eq hinc] using hf
  cases predicate with
  | ult =>
    obtain rfl : bounds = result := by simpa [restrictNext] using hnext
    exact h.cut (Int.le_of_lt hc) fun v hv => of_decide_eq_true (hP v hv)
  | ule =>
    obtain rfl : bounds.cut (c + 1) = result := by simpa [restrictNext] using hsucc hnext
    exact h.cut hc fun v hv => Int.lt_add_one_of_le (of_decide_eq_true (hP v hv))
  | ugt =>
    obtain rfl : bounds.raise (c + 1) = result := by simpa [restrictNext] using hsucc hnext
    exact h.raise (by omega) fun v hv => of_decide_eq_true (hP v hv)
  | uge =>
    obtain rfl : bounds = result := by simpa [restrictNext] using hnext
    exact h.raise h₀ fun v hv => of_decide_eq_true (hP v hv)
  | eq =>
    obtain rfl : bounds.cut (c + 1) = result := by simpa [restrictNext] using hsucc hnext
    have heq : ∀ v, P v → v = c := fun v hv => of_decide_eq_true (hP v hv)
    refine (h.cut hc fun v hv => ?_).raise h₀ fun v hv => (heq v hv).ge
    have := heq v hv
    omega
  | ne | slt | sle | sgt | sge | caseEq =>
    obtain rfl : bounds = result := by simpa [restrictNext] using hnext
    exact h

theorem joinFallback_spec {P : Int → Prop} {fallback : Int} {interval : IntegerInterval}
    (h : Encloses w P bounds) (h₀ : 0 ≤ fallback) (hfallback : fallback < 2 ^ w)
    (hjoin : joinFallback bounds fallback = some interval) :
    (∀ v, P v ∨ v = fallback → interval.lower ≤ v ∧ v < interval.upper) ∧
      0 ≤ interval.lower ∧ interval.upper ≤ 2 ^ w := by
  obtain ⟨lower, upper⟩ := bounds
  cases upper with
  | none => simp [joinFallback] at hjoin
  | some upper =>
    simp only [joinFallback] at hjoin
    obtain ⟨hlower, hupper, hv⟩ := h
    simp only [Option.mem_def, Option.some.injEq, forall_eq'] at hlower hupper hv
    cases hinc : increment fallback with
    | none => simp [hinc] at hjoin
    | some next =>
      obtain rfl := increment_eq hinc
      simp only [hinc, Option.ite_none_left_eq_some, Option.some.injEq] at hjoin
      obtain ⟨hlt, rfl⟩ := hjoin
      refine ⟨fun v hPv => ?_, ?_, ?_⟩
      · dsimp only
        rcases hPv with hPv | rfl
        · have := hv v hPv
          split_ifs <;> omega
        · split_ifs <;> omega
      · dsimp only
        split_ifs <;> omega
      · dsimp only
        split_ifs <;> omega

theorem intervalWidth_le {interval : IntegerInterval} {n : Nat} (h₀ : 0 ≤ interval.lower)
    (hupper : interval.upper ≤ 2 ^ w) (hw : 0 < w)
    (h : intervalWidth interval = .ok n) : n ≤ w := by
  obtain ⟨hlt, -, -, hn⟩ := intervalWidth_spec h
  rw [hn h₀]
  exact max_le hw ((lt_of_activeBits (by omega)).mpr (by omega))

/-- An interval that the refinement returns holds the result of the clamp for every value, and is a
nonempty interval of numbers of the width. -/
theorem refinement_sound {selectedWhenTrue : Bool} {original : Option IntegerInterval}
    {fallback : Int} {interval : IntegerInterval}
    (h : refineUnsignedSelectInterval predicate selectedWhenTrue original w c fallback =
      some interval) :
    (∀ v, 0 ≤ v → v < 2 ^ w → (∀ o ∈ original, o.lower ≤ v ∧ v < o.upper) →
      interval.lower ≤ clampResult predicate selectedWhenTrue v c fallback ∧
        clampResult predicate selectedWhenTrue v c fallback < interval.upper) ∧
    interval.lower < interval.upper ∧ 0 ≤ interval.lower ∧ interval.upper ≤ 2 ^ w ∧
    ∀ n, intervalWidth interval = .ok n → n ≤ w := by
  rw [refineUnsignedSelectInterval] at h
  simp only [Option.ite_none_left_eq_some, not_or, not_lt] at h
  obtain ⟨⟨hw, hc₀, hf₀, hcbits, hfbits⟩, horiginal, hpredicate, heq, h⟩ := h
  have hc := (lt_of_activeBits hc₀).mp hcbits
  have hf := (lt_of_activeBits hf₀).mp hfbits
  let P : Int → Prop := fun v => 0 ≤ v ∧ v < 2 ^ w ∧ (∀ o ∈ original, o.lower ≤ v ∧ v < o.upper) ∧
    unsignedHolds predicate v c = selectedWhenTrue
  have hstart : Encloses w P ((original.map (·.lower)).getD 0, original.map (·.upper)) := by
    cases original with
    | none => exact ⟨le_rfl, by simp, fun v hv => ⟨hv.1, by simp⟩⟩
    | some o =>
      have ho : withinWidth w o = true := by simpa using horiginal
      obtain ⟨hlower, -, hupper⟩ := withinWidth_spec ho
      refine ⟨hlower, by simpa using hupper, fun v hv => ?_⟩
      simpa using hv.2.2.1
  have hselected : ∀ v, P v → unsignedHolds
      (if selectedWhenTrue then predicate else negatedPredicate predicate) v c = true := by
    intro v hv
    cases selectedWhenTrue with
    | true => exact hv.2.2.2
    | false =>
      have hholds := unsignedHolds_negated (c := c) (not_not.mp hpredicate)
        (fun he => heq ⟨rfl, he⟩) v
      rw [if_neg (by decide), hholds, hv.2.2.2, Bool.not_false]
  cases hnext : restrictNext (if selectedWhenTrue then predicate else negatedPredicate predicate) c
      ((original.map (·.lower)).getD 0, original.map (·.upper)) with
  | none => simp [hnext] at h
  | some bounds =>
    simp only [hnext] at h
    obtain ⟨hin, hlower, hupper⟩ :=
      joinFallback_spec (hstart.restricted hc₀ hc hselected hnext) hf₀ hf h
    refine ⟨fun v hv₀ hv horig => hin _ ?_, ?_, hlower, hupper,
      fun n => intervalWidth_le hlower hupper (Nat.pos_of_ne_zero hw)⟩
    · rw [clampResult]
      split_ifs with hsel
      · exact .inl ⟨hv₀, hv, horig, hsel⟩
      · exact .inr rfl
    · have := hin fallback (.inr rfl)
      omega

/-- The clamp of a byte to at most nine. -/
theorem refinement_sound_atMostNine :
    refineUnsignedSelectInterval .ult true none 8 9 9 = some ⟨0, 10⟩ ∧
      ∀ v, 0 ≤ v → v < 2 ^ 8 → clampResult .ult true v 9 9 < 10 :=
  have h : refineUnsignedSelectInterval .ult true none 8 9 9 = some ⟨0, 10⟩ := by decide
  ⟨h, fun v h₀ hv => ((refinement_sound h).1 v h₀ hv (by simp)).2⟩

end PyCircuit.NumericLowering
