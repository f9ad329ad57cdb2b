import PyCircuit.NumericLowering.Nodes

/-!
# The lowering computes exact integers

At every node of a lowered tree the emitted bits, read as the interval of the node says, are the
exact integer of the node, which lies in the interval; the interval fits the width.
-/

set_option autoImplicit false

namespace PyCircuit.NumericLowering

open PyCircuit.Lib Fallible

namespace Expr

/-- Every node that is lowered represents its exact integer. -/
theorem lower_lowered {env : Nat → Int} {e : Expr} :
    ∀ {v : NumericValue}, e.lower = .ok v → e.Inside env →
      ∃ interval, Lowered env v interval (e.exact env) := by
  induction e with
  | argument index type kind interval =>
    intro v h hinside
    obtain rfl := Except.ok.inj h
    obtain ⟨width, bounds, hcheck, hlower, hupper⟩ := hinside
    exact ⟨bounds, lowered_of_check hcheck hlower hupper rfl trivial⟩
  | constant value type kind interval =>
    intro v h hinside
    obtain rfl := Except.ok.inj h
    obtain ⟨width, bounds, hcheck, hlower, hupper⟩ := hinside
    obtain ⟨-, hinterval, -⟩ := checkValue_spec hcheck
    subst hinterval
    refine ⟨bounds, lowered_of_check hcheck hlower hupper ?_ trivial⟩
    exact (bounds.ofInt_read _).symm
  | binary site opcode lhs rhs ihl ihr =>
    intro v h hinside
    obtain ⟨left, hleft, h⟩ := bind_eq_ok.mp h
    obtain ⟨right, hright, h⟩ := bind_eq_ok.mp h
    obtain ⟨_, hx⟩ := ihl hleft hinside.1
    obtain ⟨_, hy⟩ := ihr hright hinside.2
    exact binary_lowered hx hy h
  | select site condition whenTrue whenFalse iht ihf =>
    intro v h hinside
    obtain ⟨yes, hyes, h⟩ := bind_eq_ok.mp h
    obtain ⟨no, hno, h⟩ := bind_eq_ok.mp h
    obtain ⟨_, hx⟩ := iht hyes hinside.1
    obtain ⟨_, hy⟩ := ihf hno hinside.2
    exact select_lowered hx hy h
  | shiftRight site input count ih =>
    intro v h hinside
    obtain ⟨value, hvalue, h⟩ := bind_eq_ok.mp h
    obtain ⟨_, hx⟩ := ih hvalue hinside
    exact shift_lowered hx h
  | boundary site input destination ih =>
    intro v h hinside
    obtain ⟨value, hvalue, h⟩ := bind_eq_ok.mp h
    obtain ⟨_, hx⟩ := ih hvalue hinside
    exact boundary_lowered hx h

/-- The trees below a lowered tree are lowered. -/
theorem lower_nodes {env : Nat → Int} {e node : Expr} {v : NumericValue} (h : e.lower = .ok v)
    (hinside : e.Inside env) (hnode : node ∈ e.nodes) :
    (∃ u, node.lower = .ok u) ∧ node.Inside env := by
  induction e generalizing v with
  | argument index type kind interval | constant value type kind interval =>
    obtain rfl := List.mem_singleton.mp hnode
    exact ⟨⟨v, h⟩, hinside⟩
  | binary site opcode lhs rhs ihl ihr | select site condition lhs rhs ihl ihr =>
    obtain ⟨left, hleft, hrest⟩ := bind_eq_ok.mp h
    obtain ⟨right, hright, -⟩ := bind_eq_ok.mp hrest
    rw [nodes, List.mem_cons, List.mem_append] at hnode
    rcases hnode with rfl | hnode | hnode
    · exact ⟨⟨v, h⟩, hinside⟩
    · exact ihl hleft hinside.1 hnode
    · exact ihr hright hinside.2 hnode
  | shiftRight site input count ih | boundary site input destination ih =>
    obtain ⟨value, hvalue, -⟩ := bind_eq_ok.mp h
    rw [nodes, List.mem_cons] at hnode
    rcases hnode with rfl | hnode
    · exact ⟨⟨v, h⟩, hinside⟩
    · exact ih hvalue hinside hnode

/-- The lowering of a tree is exact at every node: the bits that it emits for the node, read with
their signedness, are the exact integer, which lies in the interval of the node, and the interval
fits the width. The last rejection of the right shift is never reached. -/
theorem lowering_exact :
    (∀ (env : Nat → Int) (e : Expr) (v : NumericValue), e.lower = .ok v → e.Inside env →
      ∀ node ∈ e.nodes, ∃ u interval, node.lower = .ok u ∧ u.interval = some interval ∧
        interval.read (u.value.eval env) = node.exact env ∧
        interval.lower ≤ node.exact env ∧ node.exact env < interval.upper ∧
        interval.Fits u.value.width ∧ u.value.Typed) ∧
      ∀ (site : Site) (input : NumericValue) (count : Int),
        lowerExactIntegerShiftRight site input count ≠ .error .shiftDoesNotFit := by
  refine ⟨?_, fun site input count hfails => shiftRight_fails site input count _ hfails rfl⟩
  intro env e v h hinside node hnode
  obtain ⟨⟨u, hu⟩, hnodeInside⟩ := lower_nodes h hinside hnode
  obtain ⟨interval, hlowered⟩ := lower_lowered hu hnodeInside
  exact ⟨u, interval, hu, hlowered.interval_eq, hlowered.read, hlowered.lower, hlowered.upper,
    hlowered.fits, hlowered.typed⟩

/-- The tree `(x * y + 40) >> 1`, with `x` from -3 to 3 and `y` from 0 to 7. -/
def sample : Expr :=
  .shiftRight ⟨true⟩ (.binary ⟨true⟩ .add
    (.binary ⟨true⟩ .mul (.argument 0 (some (bitsType 3)) (some .integer) (some ⟨-3, 4⟩))
      (.argument 1 (some (bitsType 3)) (some .integer) (some ⟨0, 8⟩)))
    (.constant (.literal 40) (bitsType 6) (some .integer) (some ⟨40, 41⟩))) 1

example : sample.lower.isOk = true ∧ sample.Inside (fun index => if index = 0 then -3 else 7) ∧
    sample.exact (fun index => if index = 0 then -3 else 7) = 9 := by
  refine ⟨by decide +kernel, ⟨⟨?_, ?_⟩, ?_⟩, by decide +kernel⟩
  · exact ⟨3, ⟨-3, 4⟩, by decide +kernel, by decide, by decide⟩
  · exact ⟨3, ⟨0, 8⟩, by decide +kernel, by decide, by decide⟩
  · exact ⟨6, ⟨40, 41⟩, by decide +kernel, by decide +kernel, by decide +kernel⟩
end Expr

end PyCircuit.NumericLowering
