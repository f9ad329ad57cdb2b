import PyCircuit.Lib.Bus

/-!
# Operators of buses

The operators that hardware languages have on buses. The bitwise ones take each wire for itself; the
arithmetic and the ordered comparisons are unknown as soon as one wire is; an equality is false as
soon as two known wires differ. There are two conditional operators, which differ where the
condition is not known and both branches are undriven.
-/

set_option autoImplicit false

namespace PyCircuit.Lib

namespace Logic

/-- The conditional operator of Verilog: what is not the same known bit in both branches is unknown
under an unknown condition. -/
def conditional : Logic → Logic → Logic → Logic
  | one, a, _ => a
  | zero, _, b => b
  | _, a, b => if a = b ∧ a.Known then a else x

theorem conditional_eq_select {c a b : Logic} (h : a ≠ z) : conditional c a b = select c a b := by
  cases c <;> cases a <;> cases b <;> first | rfl | exact absurd rfl h

end Logic

namespace Bus

variable {m n : Nat}

/-- A bus of one wire. -/
def wire (l : Logic) : Bus 1 := fun _ => l

/-- A connective at each wire. -/
def bitwise (op : Logic → Logic → Logic) (a b : Bus n) : Bus n := fun i => op (a i) (b i)

/-- An operation that needs every wire. -/
def strict (f : BitVec n → BitVec n → BitVec m) (a b : Bus n) : Bus m :=
  match a.toBitVec?, b.toBitVec? with
  | some v, some w => ofBitVec (f v w)
  | _, _ => unknown

/-- A comparison that needs every wire. -/
def ordered (p : BitVec n → BitVec n → Bool) (a b : Bus n) : Logic :=
  match a.toBitVec?, b.toBitVec? with
  | some v, some w => .ofBool (p v w)
  | _, _ => .x

/-- Equality: false as soon as two known wires differ. -/
def equal (a b : Bus n) : Logic :=
  if ∃ i, (a i).xnor (b i) = .zero then .zero
  else if ∀ i, (a i).xnor (b i) = .one then .one
  else .x

def select (c : Logic) (a b : Bus n) : Bus n := fun i => c.select (a i) (b i)

def conditional (c : Logic) (a b : Bus n) : Bus n := fun i => c.conditional (a i) (b i)

/-- The disjunction of all wires. -/
def reduceOr (a : Bus n) : Logic := (List.ofFn a).foldl .or .zero

/-! ## Known operands -/

variable (c : Bool) (f : BitVec n → BitVec n → BitVec m) (v w : BitVec n) (a b : Bus n)

@[simp] theorem bitwise_and_ofBitVec :
    bitwise .and (ofBitVec v) (ofBitVec w) = ofBitVec (v &&& w) := by
  funext i
  simp [bitwise, ofBitVec]

@[simp] theorem bitwise_or_ofBitVec :
    bitwise .or (ofBitVec v) (ofBitVec w) = ofBitVec (v ||| w) := by
  funext i
  simp [bitwise, ofBitVec]

@[simp] theorem bitwise_xor_ofBitVec :
    bitwise .xor (ofBitVec v) (ofBitVec w) = ofBitVec (v ^^^ w) := by
  funext i
  rw [bitwise, ofBitVec, ofBitVec, ofBitVec, Logic.xor_ofBool, BitVec.getLsbD_xor]

@[simp] theorem strict_ofBitVec : strict f (ofBitVec v) (ofBitVec w) = ofBitVec (f v w) := by
  rw [strict, toBitVec?_ofBitVec, toBitVec?_ofBitVec]

theorem strict_eq : (∃ v, strict f a b = ofBitVec v) ∨ strict f a b = unknown := by
  rw [strict]
  split
  · exact .inl ⟨_, rfl⟩
  · exact .inr rfl

@[simp] theorem ordered_ofBitVec (p : BitVec n → BitVec n → Bool) (v w : BitVec n) :
    ordered p (ofBitVec v) (ofBitVec w) = .ofBool (p v w) := by
  rw [ordered, toBitVec?_ofBitVec, toBitVec?_ofBitVec]

@[simp] theorem select_ofBool : select (.ofBool c) a b = if c then a else b := by
  cases c <;> rfl

@[simp] theorem conditional_ofBool : conditional (.ofBool c) a b = if c then a else b := by
  cases c <;> rfl

theorem equal_ofBitVec : equal (ofBitVec v) (ofBitVec w) = .ofBool (decide (v = w)) := by
  have hxnor : ∀ i : Fin n, (ofBitVec v i).xnor (ofBitVec w i) =
      .ofBool (v.getLsbD i == w.getLsbD i) := by
    intro i
    rw [ofBitVec, ofBitVec]
    cases v.getLsbD i <;> cases w.getLsbD i <;> rfl
  rw [equal]
  by_cases h : v = w
  · subst h
    rw [if_neg, if_pos, decide_eq_true rfl]
    · rfl
    · intro i
      rw [hxnor, beq_self_eq_true]
      rfl
    · rintro ⟨i, hi⟩
      rw [hxnor, beq_self_eq_true] at hi
      cases hi
  · rw [if_pos, decide_eq_false h]
    · rfl
    · by_contra hnone
      apply h
      apply BitVec.eq_of_getLsbD_eq
      intro i hi
      by_contra hne
      exact hnone ⟨⟨i, hi⟩, by rw [hxnor, beq_eq_false_iff_ne.mpr hne]; rfl⟩

end Bus

end PyCircuit.Lib
