import Mathlib.Tactic.Ring
import PyCircuit.Lib.Logic
import PyCircuit.Lib.Ring

/-!
# Registers

A vector of wires that is read as a number: its value, or `none` when some bit is unknown.
Arithmetic and comparison give an unknown result as soon as one bit of an operand is unknown, so
nothing that reads a register as a number tells two such vectors apart.
-/

set_option autoImplicit false

namespace PyCircuit.Lib

abbrev Register (n : Nat) := Option (BitVec n)

namespace Register

variable {n : Nat}

/-- The register with a known value. -/
def known (k : Nat) : Register n := some (BitVec.ofNat n k)

def add (a : Register n) (d : Nat) : Register n := a.map fun v => v + BitVec.ofNat n d

def sub (a : Register n) (d : Nat) : Register n := a.map fun v => v - BitVec.ofNat n d

def eq (a b : Register n) : Logic :=
  match a, b with
  | some v, some w => .ofBool (decide (v = w))
  | _, _ => .x

def gt (a b : Register n) : Logic :=
  match a, b with
  | some v, some w => .ofBool (decide (v.toNat > w.toNat))
  | _, _ => .x

/-- Comparison with a parameter of the design. -/
def eqNat (a : Register n) (k : Nat) : Logic :=
  match a with
  | some v => .ofBool (decide (v.toNat = k))
  | none => .x

def ltNat (a : Register n) (k : Nat) : Logic :=
  match a with
  | some v => .ofBool (decide (v.toNat < k))
  | none => .x

/-- The conditional operator. -/
def select (c : Logic) (a b : Register n) : Register n :=
  match c with
  | .one => a
  | .zero => b
  | _ => if a = b then a else none

/-- A read of a memory; `default` where there is no such entry. -/
def read {β : Type} {m : Nat} (memory : Vector β m) (default : β) (i : Register n) : β :=
  match i with
  | some v => if h : v.toNat < m then memory.get ⟨v.toNat, h⟩ else default
  | none => default

/-- A write of a memory; nothing where there is no such entry. -/
def write {β : Type} {m : Nat} (memory : Vector β m) (i : Register n) (b : β) : Vector β m :=
  match i with
  | some v => if h : v.toNat < m then memory.set v.toNat b else memory
  | none => memory

theorem known_add (k d : Nat) : (known k : Register n).add d = known (k + d) := by
  unfold known add
  rw [Option.map_some, BitVec.ofNat_add]

theorem known_sub {k d : Nat} (hd : d ≤ k) : (known k : Register n).sub d = known (k - d) := by
  have hsub : BitVec.ofNat n k - BitVec.ofNat n d = BitVec.ofNat n (k - d) := by
    nth_rewrite 1 [← Nat.sub_add_cancel hd]
    rw [BitVec.ofNat_add, BitVec.add_sub_cancel]
  unfold known sub
  rw [Option.map_some, hsub]

theorem toNat_known {k : Nat} (hk : k < 2 ^ n) :
    (known k : Register n).map BitVec.toNat = some k := by
  unfold known
  rw [Option.map_some, BitVec.toNat_ofNat, Nat.mod_eq_of_lt hk]

theorem eqNat_known {k : Nat} (hk : k < 2 ^ n) (j : Nat) :
    (known k : Register n).eqNat j = .ofBool (decide (k = j)) := by
  unfold known eqNat
  dsimp only
  rw [BitVec.toNat_ofNat, Nat.mod_eq_of_lt hk]

theorem ltNat_known {k : Nat} (hk : k < 2 ^ n) (j : Nat) :
    (known k : Register n).ltNat j = .ofBool (decide (k < j)) := by
  unfold known ltNat
  dsimp only
  rw [BitVec.toNat_ofNat, Nat.mod_eq_of_lt hk]

theorem gt_known {j k : Nat} (hj : j < 2 ^ n) (hk : k < 2 ^ n) :
    (known j : Register n).gt (known k) = .ofBool (decide (j > k)) := by
  unfold known gt
  dsimp only
  rw [BitVec.toNat_ofNat, BitVec.toNat_ofNat, Nat.mod_eq_of_lt hj, Nat.mod_eq_of_lt hk]

theorem eq_known (j k : Nat) :
    (known j : Register n).eq (known k) = .ofBool (decide (j % 2 ^ n = k % 2 ^ n)) := by
  unfold known eq
  dsimp only
  congr 1
  rw [decide_eq_decide, ← BitVec.toNat_inj, BitVec.toNat_ofNat, BitVec.toNat_ofNat]

theorem read_known {β : Type} {m : Nat} (hm : m ≤ 2 ^ n) (memory : Vector β m) (default : β)
    (i : Fin m) : read memory default (known i : Register n) = memory.get i := by
  have hval : (BitVec.ofNat n i.val).toNat = i.val := by
    rw [BitVec.toNat_ofNat, Nat.mod_eq_of_lt (Nat.lt_of_lt_of_le i.isLt hm)]
  unfold known read
  simp only [hval, i.isLt, dif_pos]

theorem write_known {β : Type} {m : Nat} (hm : m ≤ 2 ^ n) (memory : Vector β m) (i : Fin m)
    (b : β) :
    write memory (known i : Register n) b = memory.set i b := by
  have hval : (BitVec.ofNat n i.val).toNat = i.val := by
    rw [BitVec.toNat_ofNat, Nat.mod_eq_of_lt (Nat.lt_of_lt_of_le i.isLt hm)]
  unfold known write
  simp only [hval, i.isLt, dif_pos]

/-- The next position of a ring in a register. -/
theorem known_next {m : Nat} (hm : m ≤ 2 ^ n) (i : Fin m) :
    select ((known i : Register n).eqNat (m - 1)) (known 0) ((known i : Register n).add 1) =
      known (Ring.next i) := by
  rw [eqNat_known (Nat.lt_of_lt_of_le i.isLt hm), known_add]
  unfold Ring.next
  by_cases hlast : i.val = m - 1
  · rw [decide_eq_true hlast, dif_pos hlast]
    rfl
  · rw [decide_eq_false hlast, dif_neg hlast]
    rfl

end Register

end PyCircuit.Lib
