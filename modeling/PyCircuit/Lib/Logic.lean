import Mathlib.Tactic.Common

/-!
# Four-valued logic

The values of one wire: a known bit, unknown (`x`) or undriven (`z`), with the connectives of
hardware simulation. A connective is known as soon as its known operands decide it; `select` with an
undetermined condition keeps what its two branches agree on; `caseEq` compares the four values
themselves and is always known.

`Logic.ofBool` embeds the known values; the simp lemmas push it through the connectives.
-/

set_option autoImplicit false

namespace PyCircuit.Lib

/-- The four values of a wire. -/
inductive Logic where
  | zero
  | one
  | x
  | z
  deriving DecidableEq, Repr, Inhabited

namespace Logic

/-- The known value of a bit. -/
def ofBool : Bool → Logic
  | false => zero
  | true => one

/-- The value is a known bit. -/
def Known (a : Logic) : Prop := a = zero ∨ a = one

instance (a : Logic) : Decidable a.Known := inferInstanceAs (Decidable (_ ∨ _))

/-- The bit of a known value. -/
def toBool? : Logic → Option Bool
  | zero => some false
  | one => some true
  | _ => none

def and : Logic → Logic → Logic
  | zero, _ => zero
  | _, zero => zero
  | one, one => one
  | _, _ => x

def or : Logic → Logic → Logic
  | one, _ => one
  | _, one => one
  | zero, zero => zero
  | _, _ => x

def not : Logic → Logic
  | zero => one
  | one => zero
  | _ => x

/-- Equality of two known values; unknown otherwise. -/
def xnor : Logic → Logic → Logic
  | zero, b => not b
  | one, zero => zero
  | one, one => one
  | _, _ => x

def xor (a b : Logic) : Logic := not (xnor a b)

/-- What two values agree on. -/
def merge (a b : Logic) : Logic := if a = b then a else x

/-- The conditional operator. -/
def select : Logic → Logic → Logic → Logic
  | one, a, _ => a
  | zero, _, b => b
  | _, a, b => merge a b

/-- Case equality: the four values are compared as they are. -/
def caseEq (a b : Logic) : Logic := ofBool (decide (a = b))

@[simp] theorem ofBool_true : ofBool true = one := rfl

@[simp] theorem ofBool_false : ofBool false = zero := rfl

@[simp] theorem ofBool_eq_one {b : Bool} : ofBool b = one ↔ b = true := by
  cases b <;> decide

theorem ofBool_known (b : Bool) : (ofBool b).Known := by
  cases b <;> decide

variable {p : Bool} {a b : Logic}

theorem ofBool_inj {q : Bool} (h : ofBool p = ofBool q) : p = q := by
  cases p <;> cases q <;> first | rfl | cases h

theorem toBool?_eq_some {b : Bool} : a.toBool? = some b ↔ a = ofBool b := by
  cases a <;> cases b <;> decide

theorem toBool?_eq_none : a.toBool? = none ↔ ¬ a.Known := by
  cases a <;> decide

@[simp] theorem and_ofBool (a b : Bool) : (ofBool a).and (ofBool b) = ofBool (a && b) := by
  cases a <;> cases b <;> rfl

@[simp] theorem or_ofBool (a b : Bool) : (ofBool a).or (ofBool b) = ofBool (a || b) := by
  cases a <;> cases b <;> rfl

@[simp] theorem not_ofBool (a : Bool) : (ofBool a).not = ofBool (!a) := by
  cases a <;> rfl

/-- The rising edge between known levels. -/
theorem rising_ofBool (a b : Bool) : (ofBool a).not.and (ofBool b) = ofBool (!(a || !b)) := by
  cases a <;> cases b <;> rfl

@[simp] theorem xor_ofBool (a b : Bool) : (ofBool a).xor (ofBool b) = ofBool (a != b) := by
  cases a <;> cases b <;> rfl

@[simp] theorem select_ofBool {c a b : Bool} :
    select (ofBool c) (ofBool a) (ofBool b) = ofBool (if c then a else b) := by
  cases c <;> rfl

@[simp] theorem zero_and (a : Logic) : and zero a = zero := by cases a <;> rfl

@[simp] theorem and_zero (a : Logic) : and a zero = zero := by cases a <;> rfl

@[simp] theorem one_and_eq_one {a : Logic} : and one a = one ↔ a = one := by
  cases a <;> decide

@[simp] theorem select_one (a b : Logic) : select one a b = a := rfl

@[simp] theorem select_zero (a b : Logic) : select zero a b = b := rfl

theorem caseEq_or_caseEq (a : Logic) :
    (caseEq a zero).or (caseEq a one) = ofBool (decide a.Known) := by
  cases a <;> rfl

theorem merge_eq_ofBool (h : merge a b = ofBool p) :
    a = ofBool p ∧ b = ofBool p := by
  unfold merge at h
  split at h
  · next hab =>
    subst hab
    exact ⟨h, h⟩
  · cases p <;> cases h

/-- A known selection comes from the selected branch, or from both. -/
theorem select_eq_ofBool {l : Logic} (h : select l a b = ofBool p) :
    (l = one ∧ a = ofBool p) ∨ (l = zero ∧ b = ofBool p) ∨ (a = ofBool p ∧ b = ofBool p) := by
  cases l with
  | one => exact Or.inl ⟨rfl, h⟩
  | zero => exact Or.inr (Or.inl ⟨rfl, h⟩)
  | x | z => exact Or.inr (Or.inr (merge_eq_ofBool h))

theorem eq_of_select_self {l : Logic} (h : select l a a = ofBool p) : a = ofBool p := by
  rcases select_eq_ofBool h with ⟨-, h⟩ | ⟨-, h⟩ | ⟨h, -⟩ <;> exact h

/-- A known selection with a constant on the true side. -/
theorem select_constant_left {l : Logic} {s : Bool} (h : select l (ofBool s) b = ofBool p) :
    (p ≠ s → l = zero ∧ b = ofBool p) ∧ (l = one ∨ b = ofBool p) := by
  revert h
  cases l <;> cases s <;> cases b <;> cases p <;> decide

/-- A known selection with a constant on the false side. -/
theorem select_constant_right {l : Logic} {t : Bool} (h : select l a (ofBool t) = ofBool p) :
    (p ≠ t → l = one ∧ a = ofBool p) ∧ (l = zero ∨ a = ofBool p) := by
  revert h
  cases l <;> cases t <;> cases a <;> cases p <;> decide

theorem and_eq_zero : and a b = zero ↔ a = zero ∨ b = zero := by
  cases a <;> cases b <;> decide

theorem or_eq_zero : or a b = zero ↔ a = zero ∧ b = zero := by
  cases a <;> cases b <;> decide

theorem or_eq_one : or a b = one ↔ a = one ∨ b = one := by
  cases a <;> cases b <;> decide

theorem not_eq_ofBool (h : not a = ofBool p) : a = ofBool (!p) := by
  revert h
  cases a <;> cases p <;> decide

theorem xnor_comm (a b : Logic) : xnor a b = xnor b a := by
  cases a <;> cases b <;> rfl

theorem xnor_eq_one : xnor a b = one ↔ ∃ p, a = ofBool p ∧ b = ofBool p := by
  cases a <;> cases b <;> decide

theorem xnor_eq_zero :
    xnor a b = zero ↔ ∃ p, a = ofBool p ∧ b = ofBool (!p) := by
  cases a <;> cases b <;> decide

theorem and_eq_one : and a b = one ↔ a = one ∧ b = one := by
  cases a <;> cases b <;> decide

end Logic

end PyCircuit.Lib
