import Mathlib.Data.Fintype.Card
import PyCircuit.Lib.Heap

/-!
# Storage leaves

A leaf kernel acts on plain committed state `Current` and plain proposed state `Pending`. `work`,
`discard` and `reset` receive the committed state as a constant, so their result has no committed
state; `xfer` has both. The contract of the storage is in the type and in two fields: after
`discard` there is nothing that `xfer` could commit, and after `xfer` neither.

A leaf owns one kernel state, as `dff` and `dffe` do, or a family of them: the class
`collection_storage<Kernel>` of `collection.h`.
-/

set_option autoImplicit false

namespace PyCircuit.Simulation

/-- What `Kernel::work` leaves: the proposal, the output pins it wrote and the exception. -/
structure Worked (π ο : Type) where
  pending : π
  outputs : Option ο
  thrown : Option String

/-- What `Kernel::xfer` leaves. -/
structure Transferred (γ π ο : Type) where
  current : γ
  pending : π
  outputs : Option ο

/-- A leaf kernel with the storage contract. -/
structure Kernel where
  Current : Type
  Pending : Type
  Inputs : Type
  Outputs : Type
  discard : Current → Pending → Pending
  work : Current → Inputs → Pending → Worked Pending Outputs
  xfer : Current → Pending → Transferred Current Pending Outputs
  reset : Current → Inputs → Pending → Pending
  xfer_discard : ∀ current pending, (xfer current (discard current pending)).current = current
  xfer_xfer : ∀ current pending,
    (xfer (xfer current pending).current (xfer current pending).pending).current =
      (xfer current pending).current

/-! ## Families -/

/-- The class `collection_storage<Kernel>`; the counter counts the completed lanes. -/
structure Family (K : Kernel) (size : Nat) where
  current : Fin size → K.Current
  pending : Fin size → K.Pending
  completed : Fin size → Bool
  completedCount : Nat
  counted : completedCount = (Finset.univ.filter fun lane => completed lane = true).card

namespace Family

variable {K : Kernel} {size : Nat}

theorem counted_none :
    0 = (Finset.univ.filter fun _ : Fin size => false = true).card := by
  simp

theorem counted_all :
    size = (Finset.univ.filter fun _ : Fin size => true = true).card := by
  simp

/-- One more completed lane. -/
theorem counted_update {completed : Fin size → Bool} {lane : Fin size}
    (h : completed lane = false) :
    (Finset.univ.filter fun other => completed other = true).card + 1 =
      (Finset.univ.filter fun other => Function.update completed lane true other = true).card := by
  have hnew : (Finset.univ.filter fun other => Function.update completed lane true other = true) =
      insert lane (Finset.univ.filter fun other => completed other = true) := by
    ext other
    by_cases heq : other = lane <;> simp [heq]
  rw [hnew, Finset.card_insert_of_notMem (by simp [h])]

variable (c : Family K size)

/-- The counter reaches the size when every lane has completed. -/
theorem completedCount_eq_size_iff : c.completedCount = size ↔ ∀ lane, c.completed lane = true := by
  have hcard := Finset.card_filter_eq_iff (s := (Finset.univ : Finset (Fin size)))
    (p := fun lane => c.completed lane = true)
  rw [Finset.card_univ, Fintype.card_fin] at hcard
  rw [c.counted, hcard]
  simp

/-- `collection_storage::discard`. -/
def discard (c : Family K size) : Family K size where
  current := c.current
  pending := fun lane => K.discard (c.current lane) (c.pending lane)
  completed := fun _ => false
  completedCount := 0
  counted := counted_none

/-- The proposal of one lane, written in place. -/
def propose (c : Family K size) (lane : Fin size) (pending : K.Pending) : Family K size :=
  { c with pending := Function.update c.pending lane pending }

/-- The bookkeeping after a lane that did not throw. -/
def complete (c : Family K size) (lane : Fin size) : Family K size :=
  if h : c.completed lane = false then
    { c with
      completed := Function.update c.completed lane true
      completedCount := c.completedCount + 1
      counted := c.counted ▸ counted_update h }
  else c

/-- `collection_storage::work`. -/
def work (c : Family K size) (lane : Nat) (inputs : K.Inputs) :
    Worked (Family K size) K.Outputs :=
  if h : lane < size then
    let lane : Fin size := ⟨lane, h⟩
    let worked := K.work (c.current lane) inputs (c.pending lane)
    match worked.thrown with
    | none => ⟨(c.propose lane worked.pending).complete lane, worked.outputs, none⟩
    | some error => ⟨(c.propose lane worked.pending).discard, worked.outputs, some error⟩
  else ⟨c.discard, none, some "collection lane out of range"⟩

/-- The loop of `collection_storage::xfer` over the lanes. -/
def commit (c : Family K size) : Family K size :=
  { c with
    current := fun lane => (K.xfer (c.current lane) (c.pending lane)).current
    pending := fun lane => (K.xfer (c.current lane) (c.pending lane)).pending }

/-- `collection_storage::xfer`; the second part has the pins that each lane wrote. -/
def xfer (c : Family K size) : Family K size × (Fin size → Option K.Outputs) :=
  if c.completedCount ≠ size then (c.discard, fun _ => none)
  else (c.commit.discard, fun lane => (K.xfer (c.current lane) (c.pending lane)).outputs)

/-- `collection_storage::reset`. -/
def reset (c : Family K size) (inputs : Fin size → K.Inputs) : Family K size where
  current := c.current
  pending := fun lane => K.reset (c.current lane) (inputs lane) (c.discard.pending lane)
  completed := fun _ => true
  completedCount := size
  counted := counted_all

@[simp] theorem current_discard : c.discard.current = c.current := rfl

@[simp] theorem current_complete (lane : Fin size) : (c.complete lane).current = c.current := by
  unfold complete
  split <;> rfl

theorem current_work (lane : Nat) (inputs : K.Inputs) :
    (c.work lane inputs).pending.current = c.current := by
  unfold work
  split
  · dsimp only
    split
    · rw [current_complete]
      rfl
    · rfl
  · rfl

theorem xfer_of_incomplete {c : Family K size} (h : c.completedCount ≠ size) :
    c.xfer.1 = c.discard := by
  rw [xfer, if_pos h]

theorem xfer_of_complete {c : Family K size} (h : c.completedCount = size) :
    c.xfer.1 = c.commit.discard := by
  rw [xfer, if_neg (not_not.mpr h)]

/-- A family is committed as a whole, and then every lane had completed, or not at all. -/
theorem xfer_whole :
    (∀ lane, c.completed lane = true ∧
      c.xfer.1.current lane = (K.xfer (c.current lane) (c.pending lane)).current) ∨
    c.xfer.1.current = c.current := by
  by_cases h : c.completedCount = size
  · left
    intro lane
    rw [xfer_of_complete h]
    exact ⟨(completedCount_eq_size_iff c).mp h lane, rfl⟩
  · right
    rw [xfer_of_incomplete h, current_discard]

/-- A discarded family has nothing to commit. -/
theorem xfer_discard : c.discard.xfer.1.current = c.current := by
  by_cases h : c.discard.completedCount = size
  · rw [xfer_of_complete h]
    funext lane
    exact K.xfer_discard (c.current lane) (c.pending lane)
  · rw [xfer_of_incomplete h]
    rfl

end Family

/-! ## Leaves -/

/-- The pins of a kernel among the wires. -/
structure Pins (K : Kernel) (W : Type) where
  inputs : W → K.Inputs
  outputs : K.Outputs → W → W

/-- The pins that a call wrote. -/
def Pins.write {K : Kernel} {W : Type} (pins : Pins K W) (written : Option K.Outputs) (wires : W) :
    W :=
  match written with
  | none => wires
  | some outputs => pins.outputs outputs wires

/-- A storage leaf of a module tree. -/
inductive Leaf (W : Type) : Type 1 where
  | scalar (K : Kernel) (pins : Pins K W)
  | family (K : Kernel) (size : Nat) (pins : Nat → Pins K W)

namespace Leaf

variable {W : Type}

/-- What a leaf owns. -/
def Store : Leaf W → Type
  | scalar K _ => K.Current × K.Pending
  | family K size _ => Family K size

/-- The committed state of a leaf. -/
def Committed : Leaf W → Type
  | scalar K _ => K.Current
  | family K size _ => Fin size → K.Current

def committed : (leaf : Leaf W) → leaf.Store → leaf.Committed
  | scalar _ _, store => Prod.fst store
  | family _ _ _, store => Family.current store

/-- Work on a leaf, or on one lane of a family. -/
def work : (leaf : Leaf W) → Nat → leaf.Store → W → leaf.Store × W × Option String
  | scalar K pins, _, store, wires =>
    let worked := K.work (Prod.fst store) (pins.inputs wires) (Prod.snd store)
    ((Prod.fst store, worked.pending), pins.write worked.outputs wires, worked.thrown)
  | family _ _ pins, lane, store, wires =>
    let worked := Family.work store lane ((pins lane).inputs wires)
    (worked.pending, (pins lane).write worked.outputs wires, worked.thrown)

def discard : (leaf : Leaf W) → leaf.Store → leaf.Store
  | scalar K _, store => (Prod.fst store, K.discard (Prod.fst store) (Prod.snd store))
  | family _ _ _, store => Family.discard store

/-- Transfer; the second part is what it does to the wires. -/
def xfer : (leaf : Leaf W) → leaf.Store → leaf.Store × (W → W)
  | scalar K pins, store =>
    let moved := K.xfer (Prod.fst store) (Prod.snd store)
    ((moved.current, moved.pending), pins.write moved.outputs)
  | family _ size pins, store =>
    let moved := Family.xfer store
    (moved.1, fun wires =>
      (List.finRange size).foldl
        (fun wires (lane : Fin size) => (pins lane).write (moved.2 lane) wires) wires)

def reset : (leaf : Leaf W) → leaf.Store → W → leaf.Store
  | scalar K pins, store, wires =>
    (Prod.fst store, K.reset (Prod.fst store) (pins.inputs wires) (Prod.snd store))
  | family _ _ pins, store, wires => Family.reset store fun lane => (pins lane).inputs wires

variable (leaf : Leaf W) (store : leaf.Store)

theorem committed_work (lane : Nat) (store : leaf.Store) (wires : W) :
    leaf.committed (leaf.work lane store wires).1 = leaf.committed store := by
  cases leaf with
  | scalar K pins => rfl
  | family K size pins => exact Family.current_work store lane _

theorem committed_discard : leaf.committed (leaf.discard store) = leaf.committed store := by
  cases leaf with
  | scalar K pins | family K size pins => rfl

/-- There is nothing to commit. -/
def Settled (leaf : Leaf W) (store : leaf.Store) : Prop :=
  leaf.committed (leaf.xfer store).1 = leaf.committed store

theorem settled_discard : leaf.Settled (leaf.discard store) := by
  cases leaf with
  | scalar K pins => exact K.xfer_discard (Prod.fst store) (Prod.snd store)
  | family K size pins => exact Family.xfer_discard store

/-- The lanes of a family move together: each was completed and is committed, or none changes. -/
def Whole : (leaf : Leaf W) → (staged after : leaf.Store) → Prop
  | scalar _ _, _, _ => True
  | family K _ _, staged, after =>
    (∀ lane, Family.completed staged lane = true ∧
      Family.current after lane =
        (K.xfer (Family.current staged lane) (Family.pending staged lane)).current) ∨
    Family.current after = Family.current staged

theorem whole_xfer : leaf.Whole store (leaf.xfer store).1 := by
  cases leaf with
  | scalar K pins => trivial
  | family K size pins => exact Family.xfer_whole store

theorem whole_of_committed {leaf : Leaf W} {staged after : leaf.Store}
    (h : leaf.committed after = leaf.committed staged) : leaf.Whole staged after := by
  cases leaf with
  | scalar K pins => trivial
  | family K size pins => exact Or.inr h

end Leaf

end PyCircuit.Simulation
