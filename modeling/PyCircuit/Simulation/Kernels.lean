import PyCircuit.Fifo.Kernel
import PyCircuit.Simulation.Storage

/-!
# The kernels of the leaves

The register kernels of `dff.h` and the queue kernel of `fifo.h` keep the storage contract, so a
module tree may have them as leaves. A wire of one bit is its four-state value; a payload is any
type of packed values.
-/

set_option autoImplicit false

namespace PyCircuit.Simulation

open PyCircuit.Lib

/-! ## Sampled clocks -/

inductive ResetSemantics where
  | strict
  | ifOne
  deriving DecidableEq, Repr

def interpretReset (raw : Logic) (semantics : ResetSemantics) : Logic :=
  match semantics with
  | .strict => raw
  | .ifOne => .ofBool (raw = .one)

inductive SampledClockFault where
  | none
  | unknownClock
  | unknownReset
  deriving DecidableEq, Repr

structure SampledClockEvaluation where
  nextClock : Bool
  rising : Bool
  resetActive : Bool
  fault : SampledClockFault
  deriving DecidableEq, Repr

def evaluateSampledClock (previous : Bool) (clock rawReset : Logic)
    (semantics : ResetSemantics) : SampledClockEvaluation :=
  match clock.toBool? with
  | none => ⟨previous, false, false, .unknownClock⟩
  | some next =>
    if previous || !next then ⟨next, false, false, .none⟩
    else
      match (interpretReset rawReset semantics).toBool? with
      | none => ⟨previous, true, false, .unknownReset⟩
      | some reset => ⟨next, true, reset, .none⟩

/-! ## Registers -/

namespace Dffe

variable {α : Type}

structure Current (α : Type) where
  q : α
  clock : Bool

structure Pending (α : Type) where
  q : α
  clock : Bool
  valid : Bool

structure Inputs (α : Type) where
  clk : Logic
  rst : Logic
  en : Logic
  d : α
  init : α

/-- `dffe_kernel::discard`. -/
def discard (current : Current α) (_ : Pending α) : Pending α :=
  ⟨current.q, current.clock, false⟩

/-- The body of the `try` block of `dffe_kernel::work`. -/
def propose (current : Current α) (inputs : Inputs α) : Except String (Pending α) :=
  let clock := evaluateSampledClock current.clock inputs.clk inputs.rst .strict
  match clock.fault with
  | .unknownClock => .error "dffe clock must be known"
  | .unknownReset => .error "dffe reset must be known at posedge"
  | .none =>
    if !clock.rising then .ok ⟨current.q, clock.nextClock, true⟩
    else if clock.resetActive then .ok ⟨inputs.init, clock.nextClock, true⟩
    else
      match inputs.en.toBool? with
      | none => .error "dffe enable must be known at posedge"
      | some true => .ok ⟨inputs.d, clock.nextClock, true⟩
      | some false => .ok ⟨current.q, clock.nextClock, true⟩

/-- `dffe_kernel::work`. -/
def work (current : Current α) (inputs : Inputs α) (pending : Pending α) : Worked (Pending α) α :=
  match propose current inputs with
  | .ok proposal => ⟨proposal, none, none⟩
  | .error message => ⟨discard current pending, none, some message⟩

/-- `dffe_kernel::xfer`; the output pin is `q`. -/
def xfer (current : Current α) (pending : Pending α) : Transferred (Current α) (Pending α) α :=
  if !pending.valid then ⟨current, pending, none⟩
  else
    let current : Current α := ⟨pending.q, pending.clock⟩
    ⟨current, discard current pending, some current.q⟩

/-- `dffe_kernel::reset`. -/
def reset (inputs : Inputs α) : Pending α := ⟨inputs.init, false, true⟩

theorem xfer_of_invalid {current : Current α} {pending : Pending α} (h : pending.valid = false) :
    (xfer current pending).current = current := by
  rw [xfer, h]
  rfl

/-- After a transfer the proposal is not valid. -/
theorem xfer_pending_invalid (current : Current α) (pending : Pending α) :
    (xfer current pending).pending.valid = false := by
  unfold xfer
  split_ifs with h
  · simpa using h
  · rfl

end Dffe

/-- `dffe_kernel<T>`. -/
def dffeKernel (α : Type) : Kernel where
  Current := Dffe.Current α
  Pending := Dffe.Pending α
  Inputs := Dffe.Inputs α
  Outputs := α
  discard := Dffe.discard
  work := Dffe.work
  xfer := Dffe.xfer
  reset := fun _ inputs _ => Dffe.reset inputs
  xfer_discard := fun _ _ => Dffe.xfer_of_invalid rfl
  xfer_xfer := fun current pending =>
    Dffe.xfer_of_invalid (Dffe.xfer_pending_invalid current pending)

/-- The pins of `dff_kernel<T>`; its enable is always on. -/
structure DffInputs (α : Type) where
  clk : Logic
  rst : Logic
  d : α
  init : α

def DffInputs.enabled {α : Type} (inputs : DffInputs α) : Dffe.Inputs α :=
  ⟨inputs.clk, inputs.rst, .one, inputs.d, inputs.init⟩

/-- `dff_kernel<T>`. -/
def dffKernel (α : Type) : Kernel :=
  { dffeKernel α with
    Inputs := DffInputs α
    work := fun current inputs pending => Dffe.work current inputs.enabled pending
    reset := fun _ inputs _ => Dffe.reset inputs.enabled }

/-! ## Queues -/

section Queues

variable {cfg : Fifo.Config} {α : Type}

/-- After a transfer the proposal of a queue is not valid. -/
theorem fifo_xfer_pending_invalid (current : Fifo.Current cfg α) (pending : Fifo.Pending α) :
    (Fifo.xfer current pending).2.valid = false := by
  by_cases h : pending.valid = false
  · rw [Fifo.xfer_of_invalid h]
    exact h
  · rw [Fifo.xfer, if_neg (by simpa using h)]
    rfl

/-- `fifo_kernel<T, Depth, Policy, AvailabilityLatency>`; no call writes its output pins. -/
def fifoKernel (cfg : Fifo.Config) (α : Type) : Kernel where
  Current := Fifo.Current cfg α
  Pending := Fifo.Pending α
  Inputs := Fifo.Inputs α
  Outputs := Unit
  discard := Fifo.discard
  work := fun current inputs pending =>
    let worked := Fifo.work current inputs pending
    ⟨worked.2, none, match worked.1 with | .ok _ => none | .error message => some message⟩
  xfer := fun current pending =>
    let moved := Fifo.xfer current pending
    ⟨moved.1, moved.2, none⟩
  reset := fun current _ pending => Fifo.reset current pending
  xfer_discard := fun _ _ => congrArg Prod.fst (Fifo.xfer_of_invalid rfl)
  xfer_xfer := fun current pending =>
    congrArg Prod.fst (Fifo.xfer_of_invalid (fifo_xfer_pending_invalid current pending))

end Queues

end PyCircuit.Simulation
