import PyCircuit.Simulation.Publishing
import PyCircuit.Simulation.Storage

/-!
# Module trees

A module is a storage leaf or a definition with children, as `SimModule.h` and the emitted classes
have it. Work of a definition is a sequence of rules on the wires, calls of leaf kernels and of
children, batches for the executor and staged observations; any of them may throw. The emitted Work
discards the subtree before it rethrows; a module written by hand need not. Transfer, discard and
reset visit the children in order.

The wires stand for all that a call may leave behind which is neither storage nor an observation:
the pins, and the snapshots of the checks.
-/

set_option autoImplicit false

namespace PyCircuit.Simulation

open PyCircuit.Gfsim PyCircuit.Lib

section Trees

variable {W ι : Type} (leaf : ι → Leaf W)

/-- Everything the callbacks of the modules read and write. -/
structure Memory where
  heap : ∀ l, (leaf l).Store
  wires : W
  observations : ObservationSlots

/-- One statement of a Work body, for a definition with `n` children. -/
inductive Action (n : Nat) where
  | rule (f : (∀ l, (leaf l).Store) → W → W × Option String)
  | storage (l : ι) (lane : Nat)
  | child (i : Fin n)
  | tasks (items : List (Fin n))
  | stage (slot : Nat) (value : (∀ l, (leaf l).Store) → W → SlotValue Planes)
      (valid path : (∀ l, (leaf l).Store) → W → Bool) (epoch : BitVec 64)
  | stagePacked {width : Nat} (slot : Nat) (value : (∀ l, (leaf l).Store) → W → FourState width)
      (eventBool : Bool) (valid path : (∀ l, (leaf l).Store) → W → Bool)

/-- The callbacks of a definition, apart from the visits of its children. -/
structure Callbacks (n : Nat) where
  body : List (Action leaf n)
  guarded : Bool
  clear : W → W
  initialise : (∀ l, (leaf l).Store) → W → W
  hasWork : (∀ l, (leaf l).Store) → W → Bool

/-- A module and its children. -/
inductive Module where
  | storage (l : ι)
  | definition (n : Nat) (callbacks : Callbacks leaf n) (children : Fin n → Module)

end Trees

variable {W ι : Type} {leaf : ι → Leaf W}

namespace Memory

variable [DecidableEq ι]

/-- A call of `Work` on a leaf, or on one lane of a family. -/
def workStorage (memory : Memory leaf) (l : ι) (lane : Nat) : Memory leaf × Option String :=
  let worked := (leaf l).work lane (memory.heap l) memory.wires
  ({ memory with heap := Function.update memory.heap l worked.1, wires := worked.2.1 }, worked.2.2)

/-- A call of `DiscardNext` on a leaf. -/
def discardStorage (memory : Memory leaf) (l : ι) : Memory leaf :=
  { memory with heap := Heap.visit (fun l => (leaf l).discard) memory.heap l }

/-- A call of `Xfer` on a leaf. -/
def xferStorage (memory : Memory leaf) (l : ι) : Memory leaf :=
  { memory with
    heap := Heap.visit (fun l store => ((leaf l).xfer store).1) memory.heap l
    wires := ((leaf l).xfer (memory.heap l)).2 memory.wires }

/-- A call of `Reset` on a leaf. -/
def resetStorage (memory : Memory leaf) (l : ι) : Memory leaf :=
  { memory with
    heap := Heap.visit (fun l store => (leaf l).reset store memory.wires) memory.heap l }

end Memory

/-! ## Calls that may throw -/

section Calls

variable {α : Type}

/-- Calls in order; an exception ends the sequence. -/
def runEach (call : α → Memory leaf → Memory leaf × Option String) :
    List α → Memory leaf → Memory leaf × Option String
  | [], memory => (memory, none)
  | a :: rest, memory =>
    match (call a memory).2 with
    | none => runEach call rest (call a memory).1
    | some error => ((call a memory).1, some error)

/-- `WorkExecutor::runSerial`: every item runs, and the first exception is rethrown. -/
def runSerial (call : α → Memory leaf → Memory leaf × Option String) :
    List α → Memory leaf → Memory leaf × Option String
  | [], memory => (memory, none)
  | a :: rest, memory =>
    ((runSerial call rest (call a memory).1).1,
      (call a memory).2 <|> (runSerial call rest (call a memory).1).2)

end Calls

/-- One statement of a Work body. -/
def Action.perform [DecidableEq ι] {n : Nat}
    (visit : Fin n → Memory leaf → Memory leaf × Option String) (cycle : BitVec 64)
    (action : Action leaf n) (memory : Memory leaf) : Memory leaf × Option String :=
  match action with
  | .rule f =>
    let computed := f memory.heap memory.wires
    ({ memory with wires := computed.1 }, computed.2)
  | .storage l lane => memory.workStorage l lane
  | .child i => visit i memory
  | .tasks items => runSerial visit items memory
  | .stage slot value valid path epoch =>
    let staged := memory.observations.stage slot (value memory.heap memory.wires)
      (valid memory.heap memory.wires) (path memory.heap memory.wires) epoch
    ({ memory with observations := staged.1 }, none)
  | .stagePacked slot value eventBool valid path =>
    let staged := memory.observations.stagePacked slot (value memory.heap memory.wires) eventBool
      (valid memory.heap memory.wires) (path memory.heap memory.wires) cycle
    ({ memory with observations := staged.1 }, none)

namespace Module

/-- The leaves of a tree, in the order of the visits. -/
def leaves : Module leaf → List ι
  | storage l => [l]
  | definition n _ children => (List.finRange n).flatMap fun i => (children i).leaves

/-- `HasWork`. -/
def hasWork : Module leaf → Memory leaf → Bool
  | storage _, _ => true
  | definition _ callbacks _, memory => callbacks.hasWork memory.heap memory.wires

variable [DecidableEq ι]

/-- `DiscardNext`. -/
def discardNext : Module leaf → Memory leaf → Memory leaf
  | storage l, memory => memory.discardStorage l
  | definition n callbacks children, memory =>
    (List.finRange n).foldl (fun memory i => (children i).discardNext memory)
      { memory with wires := callbacks.clear memory.wires }

/-- `Work`. -/
def work (cycle : BitVec 64) : Module leaf → Memory leaf → Memory leaf × Option String
  | storage l, memory => memory.workStorage l 0
  | definition n callbacks children, memory =>
    let ran := runEach (Action.perform (fun i => (children i).work cycle) cycle) callbacks.body
      { memory with wires := callbacks.clear memory.wires }
    if callbacks.guarded && ran.2.isSome then
      ((definition n callbacks children).discardNext ran.1, ran.2)
    else ran

/-- `Xfer`. -/
def xfer : Module leaf → Memory leaf → Memory leaf
  | storage l, memory => memory.xferStorage l
  | definition n callbacks children, memory =>
    let visited := (List.finRange n).foldl (fun memory i => (children i).xfer memory) memory
    { visited with wires := callbacks.clear visited.wires }

/-- `Reset`. -/
def reset : Module leaf → Memory leaf → Memory leaf
  | storage l, memory => memory.resetStorage l
  | definition n callbacks children, memory =>
    (List.finRange n).foldl (fun memory i => (children i).reset memory)
      { memory with
        wires := callbacks.initialise memory.heap (callbacks.clear memory.wires) }

end Module

/-! ## Work changes nothing that is committed -/

/-- Nothing that is committed differs. -/
structure Memory.PendingOnly (before after : Memory leaf) : Prop where
  committed : ∀ l, (leaf l).committed (after.heap l) = (leaf l).committed (before.heap l)
  observations : ObservationSlots.StagedOnly before.observations after.observations
  wellFormed : after.observations.WellFormed

namespace Memory.PendingOnly

theorem trans {m₁ m₂ m₃ : Memory leaf} (h₁ : m₁.PendingOnly m₂) (h₂ : m₂.PendingOnly m₃) :
    m₁.PendingOnly m₃ where
  committed := fun l => (h₂.committed l).trans (h₁.committed l)
  observations := h₁.observations.trans h₂.observations
  wellFormed := h₂.wellFormed

/-- New wires are no commit. -/
theorem of_heap_eq {m m' : Memory leaf} (hwf : m.observations.WellFormed) (hheap : m'.heap = m.heap)
    (hobservations : m'.observations = m.observations) : m.PendingOnly m' where
  committed := fun l => by rw [hheap]
  observations := hobservations ▸ .refl _
  wellFormed := hobservations ▸ hwf

theorem refl {m : Memory leaf} (hwf : m.observations.WellFormed) : m.PendingOnly m :=
  of_heap_eq hwf rfl rfl

end Memory.PendingOnly

/-- A call that changes nothing that is committed, also when it throws. -/
def Harmless (call : Memory leaf → Memory leaf × Option String) : Prop :=
  ∀ m : Memory leaf, m.observations.WellFormed → m.PendingOnly (call m).1

section Harmless

variable {α : Type}

theorem runEach_harmless {call : α → Memory leaf → Memory leaf × Option String}
    (hcall : ∀ a, Harmless (call a)) (calls : List α) : Harmless (runEach call calls) := by
  induction calls with
  | nil => exact fun m hwf => .refl hwf
  | cons a rest ih =>
    intro m hwf
    have hfirst := hcall a m hwf
    rw [runEach]
    cases hthrown : (call a m).2 with
    | none => exact hfirst.trans (ih _ hfirst.wellFormed)
    | some error => exact hfirst

theorem runSerial_harmless {call : α → Memory leaf → Memory leaf × Option String}
    (hcall : ∀ a, Harmless (call a)) (calls : List α) : Harmless (runSerial call calls) := by
  induction calls with
  | nil => exact fun m hwf => .refl hwf
  | cons a rest ih =>
    intro m hwf
    have hfirst := hcall a m hwf
    exact hfirst.trans (ih _ hfirst.wellFormed)

variable [DecidableEq ι]

theorem workStorage_harmless (l : ι) (lane : Nat) :
    Harmless fun m : Memory leaf => m.workStorage l lane := by
  intro m hwf
  refine ⟨fun k => ?_, .refl _, hwf⟩
  simp only [Memory.workStorage]
  by_cases h : k = l
  · subst h
    rw [Function.update_self]
    exact (leaf k).committed_work lane (m.heap k) m.wires
  · rw [Function.update_of_ne h]

theorem perform_harmless {n : Nat} {visit : Fin n → Memory leaf → Memory leaf × Option String}
    (hvisit : ∀ i, Harmless (visit i)) (cycle : BitVec 64) (action : Action leaf n) :
    Harmless (action.perform visit cycle) := by
  intro m hwf
  cases action with
  | rule f => exact .of_heap_eq hwf rfl rfl
  | storage l lane => exact workStorage_harmless l lane m hwf
  | child i => exact hvisit i m hwf
  | tasks items => exact runSerial_harmless hvisit items m hwf
  | stage slot value valid path epoch =>
    obtain ⟨hstaged, hwf'⟩ := ObservationSlots.stage_spec hwf slot (value m.heap m.wires)
      (valid m.heap m.wires) (path m.heap m.wires) epoch
    exact ⟨fun _ => rfl, hstaged, hwf'⟩
  | stagePacked slot value eventBool valid path =>
    obtain ⟨hstaged, hwf'⟩ := ObservationSlots.stagePacked_spec hwf slot (value m.heap m.wires)
      eventBool (valid m.heap m.wires) (path m.heap m.wires) cycle
    exact ⟨fun _ => rfl, hstaged, hwf'⟩

end Harmless

/-! ## The visits of a tree -/

namespace Module

theorem foldl_observations {α : Type} {call : α → Memory leaf → Memory leaf}
    (hcall : ∀ a m, (call a m).observations = m.observations) (calls : List α) (m : Memory leaf) :
    (calls.foldl (fun m a => call a m) m).observations = m.observations := by
  induction calls generalizing m with
  | nil => rfl
  | cons a rest ih => rw [List.foldl_cons, ih, hcall]

variable [DecidableEq ι]

/-- Visits in order, seen on the heap. -/
theorem foldl_heap {α : Type} {call : α → Memory leaf → Memory leaf} {names : α → List ι}
    {f : ∀ l, (leaf l).Store → (leaf l).Store}
    (hcall : ∀ a m, (call a m).heap = Heap.traverse f (names a) m.heap)
    (calls : List α) (m : Memory leaf) :
    (calls.foldl (fun m a => call a m) m).heap = Heap.traverse f (calls.flatMap names) m.heap := by
  rw [Heap.traverse_flatMap]
  induction calls generalizing m with
  | nil => rfl
  | cons a rest ih => rw [List.foldl_cons, ih, List.foldl_cons, hcall]

variable (t : Module leaf) (m : Memory leaf)

/-- `DiscardNext` discards every leaf of the tree. -/
theorem discardNext_heap :
    (t.discardNext m).heap = Heap.traverse (fun l => (leaf l).discard) t.leaves m.heap := by
  induction t generalizing m with
  | storage l => rfl
  | definition n callbacks children ih =>
    rw [discardNext, foldl_heap ih]
    rfl

theorem discardNext_observations : (t.discardNext m).observations = m.observations := by
  induction t generalizing m with
  | storage l => rfl
  | definition n callbacks children ih => rw [discardNext, foldl_observations ih]

/-- `Xfer` transfers every leaf of the tree. -/
theorem xfer_heap :
    (t.xfer m).heap =
      Heap.traverse (fun l store => ((leaf l).xfer store).1) t.leaves m.heap := by
  induction t generalizing m with
  | storage l => rfl
  | definition n callbacks children ih =>
    rw [xfer, foldl_heap ih]
    rfl

theorem xfer_observations : (t.xfer m).observations = m.observations := by
  induction t generalizing m with
  | storage l => rfl
  | definition n callbacks children ih => exact foldl_observations ih _ m

theorem reset_observations : (t.reset m).observations = m.observations := by
  induction t generalizing m with
  | storage l => rfl
  | definition n callbacks children ih => rw [reset, foldl_observations ih]

theorem discardNext_pendingOnly {m : Memory leaf} (hwf : m.observations.WellFormed) :
    m.PendingOnly (t.discardNext m) where
  committed := by
    intro l
    rw [discardNext_heap]
    exact Heap.traverse_keeps (fun l => (leaf l).committed)
      (fun l store => (leaf l).committed_discard store) t.leaves m.heap l
  observations := by
    rw [discardNext_observations]
    exact .refl _
  wellFormed := by
    rw [discardNext_observations]
    exact hwf

/-- Work of a tree changes nothing that is committed, wherever it throws. -/
theorem work_harmless (cycle : BitVec 64) (t : Module leaf) : Harmless (t.work cycle) := by
  induction t with
  | storage l => exact workStorage_harmless l 0
  | definition n callbacks children ih =>
    intro m hwf
    have hclear : m.PendingOnly { m with wires := callbacks.clear m.wires } :=
      .of_heap_eq hwf rfl rfl
    have hbody := runEach_harmless (perform_harmless ih cycle) callbacks.body
      { m with wires := callbacks.clear m.wires } hclear.wellFormed
    rw [work]
    split_ifs with hcaught
    · exact (hclear.trans hbody).trans (discardNext_pendingOnly _ hbody.wellFormed)
    · exact hclear.trans hbody

end Module

end PyCircuit.Simulation
