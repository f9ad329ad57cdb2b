import Mathlib.Data.Nat.Bitwise
import Mathlib.Tactic.Ring
import PyCircuit.Lib.Logic

/-!
# Buses

A bus of a fixed width is the state of each of its wires. A bus with known wires is a bit vector
(`Bus.ofBitVec`); a comparison or an index is unknown as soon as one wire is.
-/

set_option autoImplicit false

namespace PyCircuit.Lib

/-! ## Words built by rounds -/

/-- A bit that every round keeps or sets is set at the end when a round sets it. -/
theorem foldl_eq_any {α ι : Type} (bit : α → Bool) {round : α → ι → α} {sets : ι → Bool}
    (h : ∀ a k, bit (round a k) = (bit a || sets k)) (list : List ι) (a : α) :
    bit (list.foldl round a) = (bit a || list.any sets) := by
  induction list generalizing a with
  | nil => exact (Bool.or_false _).symm
  | cons k rest ih => rw [List.foldl_cons, ih, h, List.any_cons, Bool.or_assoc]

/-- The rounds of a counter, of which only round `i` sets the bit. -/
theorem foldl_range_eq {α : Type} (bit : α → Bool) {round : α → Nat → α} (i : Nat) (b : Bool)
    (h : ∀ a k, bit (round a k) = (bit a || (decide (i = k) && b))) (n : Nat) (a : α) :
    bit ((List.range n).foldl round a) = (bit a || (decide (i < n) && b)) := by
  rw [foldl_eq_any bit h]
  congr 1
  rw [Bool.eq_iff_iff]
  simp

/-! ## Buses -/

/-- The states of the wires, the lowest first. -/
abbrev Bus (n : Nat) : Type := Fin n → Logic

namespace Bus

variable {m n : Nat}

/-- No wire is known. -/
def unknown : Bus n := fun _ => .x

/-- The bus that carries a bit vector. -/
def ofBitVec (v : BitVec n) : Bus n := fun i => .ofBool (v.getLsbD i)

/-- Every wire is known. -/
def Known (b : Bus n) : Prop := ∀ i, (b i).Known

instance (b : Bus n) : Decidable b.Known := inferInstanceAs (Decidable (∀ _, _))

/-- The bit vector of the wires that are one. -/
def value (b : Bus n) : BitVec n := BitVec.ofNat n (Nat.ofBits fun i => decide (b i = .one))

/-- The bit vector of a bus with known wires. -/
def toBitVec? (b : Bus n) : Option (BitVec n) := if b.Known then some b.value else none

/-- The low wires, with zeros above the highest. -/
def resize (m : Nat) (b : Bus n) : Bus m := fun i => if h : i.val < n then b ⟨i, h⟩ else .zero

/-- Comparison with a parameter of the design. -/
def ltNat (b : Bus n) (k : Nat) : Logic :=
  match b.toBitVec? with
  | some v => .ofBool (decide (v.toNat < k))
  | none => .x

theorem getLsbD_value (b : Bus n) (i : Fin n) : b.value.getLsbD i = decide (b i = .one) := by
  rw [value, BitVec.getLsbD_ofNat, Nat.testBit_ofBits_lt _ _ i.isLt, decide_eq_true i.isLt,
    Bool.true_and]

variable {b : Bus n} (v : BitVec n)

@[simp] theorem value_ofBitVec : (ofBitVec v).value = v := by
  apply BitVec.eq_of_getLsbD_eq
  intro i hi
  rw [getLsbD_value _ ⟨i, hi⟩, ofBitVec]
  cases v.getLsbD i <;> rfl

theorem known_ofBitVec : (ofBitVec v).Known := fun _ => Logic.ofBool_known _

theorem ofBitVec_value (h : b.Known) : ofBitVec b.value = b := by
  funext i
  rw [ofBitVec, getLsbD_value]
  rcases h i with hi | hi
  · rw [hi]
    rfl
  · rw [hi]
    rfl

theorem ofBitVec_inj {v w : BitVec n} (h : ofBitVec v = ofBitVec w) : v = w := by
  rw [← value_ofBitVec v, h, value_ofBitVec]

@[simp] theorem toBitVec?_ofBitVec : (ofBitVec v).toBitVec? = some v := by
  rw [toBitVec?, if_pos (known_ofBitVec v), value_ofBitVec]

theorem toBitVec?_eq_some {v : BitVec n} : b.toBitVec? = some v ↔ b = ofBitVec v := by
  constructor
  · intro h
    unfold toBitVec? at h
    split at h
    · next hknown => rw [← Option.some.inj h, ofBitVec_value hknown]
    · cases h
  · rintro rfl
    exact toBitVec?_ofBitVec v

theorem toBitVec?_eq_none : b.toBitVec? = none ↔ ¬ b.Known := by
  unfold toBitVec?
  split
  · next hknown => simp [hknown]
  · next hknown => simp [hknown]

theorem resize_ofBitVec : (ofBitVec v).resize m = ofBitVec (v.setWidth m) := by
  funext i
  have hbit : (v.setWidth m).getLsbD i = v.getLsbD i := by
    rw [BitVec.getLsbD_setWidth, decide_eq_true i.isLt, Bool.true_and]
  unfold resize ofBitVec
  rw [hbit]
  split
  · rfl
  · next hi =>
    rw [BitVec.getLsbD_of_ge v i (Nat.le_of_not_lt hi)]
    rfl

@[simp] theorem ltNat_ofBitVec (k : Nat) :
    (ofBitVec v).ltNat k = .ofBool (decide (v.toNat < k)) := by
  rw [ltNat, toBitVec?_ofBitVec]

end Bus

end PyCircuit.Lib
