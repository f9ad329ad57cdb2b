import Mathlib.Data.Nat.Size
import Mathlib.Tactic.Ring
import PyCircuit.Lib.Logic
import PyCircuit.Lib.Ring

/-!
# The FIFO kernel

The template `fifo_kernel<T, Depth, Policy, AvailabilityLatency>` of `fifo.h`: one queue lane with
its committed state `Current`, its proposal `Pending`, the reads of the committed state, and the
calls `work`, `xfer`, `discard` and `reset`.

A one-bit wire is its four-state value. A payload is the type of its four-state packed values, with
the unknown value and the known zero. Positions are below the depth by their type. At latency one
the source has no timing state; here nothing reads or writes it then.
-/

set_option autoImplicit false

namespace PyCircuit.Fifo

open PyCircuit.Lib

inductive QueueReadyPolicy where
  | localOccupancy
  | downstreamPop
  deriving DecidableEq, Repr

/-- The template arguments, with the assertions on them. -/
structure Config where
  depth : Nat
  policy : QueueReadyPolicy
  latency : Nat
  depth_pos : 0 < depth
  latency_pos : 0 < latency
  latency_lt : latency < 2 ^ 64

/-- The packed values of a payload: `wire<T>::unknown()` and the known zero. -/
class Payload (α : Type) where
  unknown : α
  zero : α

/-- `DelayedTiming`. -/
structure Timing (cfg : Config) where
  deadline : Vector (BitVec 64) cfg.depth
  tick : BitVec 64
  maturePtr : Fin cfg.depth
  eligibleCount : Nat

structure Current (cfg : Config) (α : Type) where
  storage : Vector α cfg.depth
  rd : Fin cfg.depth
  wr : Fin cfg.depth
  count : Nat
  initialized : Bool
  clock : Bool
  timing : Timing cfg

structure Pending (α : Type) where
  token : α
  valid : Bool
  clock : Bool
  reset : Bool
  push : Bool
  pop : Bool
  advanceTime : Bool
  mature : Bool

structure Inputs (α : Type) where
  clk : Logic
  rst : Logic
  inValid : Logic
  inData : α
  outReady : Logic

namespace Config

variable (cfg : Config)

/-- `TimestampWidth`. -/
def timestampWidth : Nat := (cfg.latency - 1).size

def wrapTick (value : BitVec 64) : BitVec 64 :=
  if cfg.timestampWidth = 64 then value
  else value &&& ((1#64 <<< cfg.timestampWidth) - 1#64)

/-- The first position. -/
def first : Fin cfg.depth := ⟨0, cfg.depth_pos⟩

end Config

section Reads

variable {cfg : Config} {α : Type}

def eligibleCount (current : Current cfg α) : Nat :=
  if cfg.latency = 1 then current.count else current.timing.eligibleCount

def readValid (current : Current cfg α) : Logic :=
  if !current.initialized then .x
  else .ofBool (decide (eligibleCount current ≠ 0))

def readData [Payload α] (current : Current cfg α) : α :=
  if !current.initialized then Payload.unknown
  else if eligibleCount current ≠ 0 then current.storage.get current.rd
  else Payload.zero

def readReady (current : Current cfg α) (outReady : Logic) : Logic :=
  if !current.initialized then .x
  else
    let capacity := Logic.ofBool (decide (current.count < cfg.depth))
    match cfg.policy with
    | .localOccupancy => capacity
    | .downstreamPop => capacity.or ((readValid current).and outReady)

end Reads

section Calls

variable {cfg : Config} {α : Type}

def discard (current : Current cfg α) (pending : Pending α) : Pending α :=
  { pending with
    valid := false, reset := false, push := false, pop := false, advanceTime := false,
    mature := false, clock := current.clock }

/-- The transfers of a rising edge without reset. -/
def transfers (current : Current cfg α) (inputs : Inputs α) (pending : Pending α) :
    Except String (Pending α) :=
  let pop := (readValid current).and inputs.outReady
  let push := inputs.inValid.and (readReady current inputs.outReady)
  match push.toBool?, pop.toBool? with
  | some push, some pop =>
    let pending :=
      { pending with push, pop, token := if push then inputs.inData else pending.token }
    if 1 < cfg.latency ∧ current.initialized = true then
      let timing := current.timing
      let nextTick := cfg.wrapTick (timing.tick + 1#64)
      .ok { pending with
        advanceTime := true,
        -- Only the delayed suffix uses deadlines.
        mature := decide (current.count > timing.eligibleCount) &&
          decide (timing.deadline.get timing.maturePtr = nextTick) }
    else .ok pending
  | _, _ => .error "fifo effective transfers must be known"

/-- The body of the `try` block of `work`. -/
def propose (current : Current cfg α) (inputs : Inputs α) (pending : Pending α) :
    Except String (Pending α) :=
  match inputs.clk.toBool? with
  | none => .error "fifo clock must be known"
  | some clock =>
    let pending := { pending with clock, valid := true }
    if current.clock || !clock then .ok pending
    else
      match inputs.rst.toBool? with
      | none => .error "fifo reset must be known at posedge"
      | some true => .ok { pending with reset := true }
      | some false => transfers current inputs pending

/-- The error that `work` throws, if any, and the proposal it leaves. -/
def work (current : Current cfg α) (inputs : Inputs α) (pending : Pending α) :
    Except String Unit × Pending α :=
  match propose current inputs (discard current pending) with
  | .ok pending => (.ok (), pending)
  | .error message => (.error message, discard current pending)

/-- The timing part of `xfer`, at a latency above one. -/
def xferTiming (timing : Timing cfg) (wr : Fin cfg.depth) (pending : Pending α) : Timing cfg :=
  let tick := if pending.advanceTime then cfg.wrapTick (timing.tick + 1#64) else timing.tick
  { tick
    maturePtr := if pending.mature then Ring.next timing.maturePtr else timing.maturePtr
    -- Opposite changes cancel without underflow.
    eligibleCount :=
      if pending.mature != pending.pop then
        if pending.mature then timing.eligibleCount + 1 else timing.eligibleCount - 1
      else timing.eligibleCount
    deadline :=
      if pending.push then
        timing.deadline.set wr (cfg.wrapTick (tick + BitVec.ofNat 64 (cfg.latency - 1)))
      else timing.deadline }

/-- The transfers of an edge. -/
def xferEdge (current : Current cfg α) (pending : Pending α) : Current cfg α :=
  { current with
    timing :=
      if 1 < cfg.latency then xferTiming current.timing current.wr pending else current.timing
    storage :=
      if pending.push then current.storage.set current.wr pending.token else current.storage
    wr := if pending.push then Ring.next current.wr else current.wr
    rd := if pending.pop then Ring.next current.rd else current.rd
    count :=
      if pending.push != pending.pop then
        if pending.push then current.count + 1 else current.count - 1
      else current.count }

/-- The metadata of an empty queue. -/
def xferReset (current : Current cfg α) : Current cfg α :=
  { current with
    initialized := true, rd := cfg.first, wr := cfg.first, count := 0,
    timing :=
      if 1 < cfg.latency then
        { current.timing with tick := 0#64, maturePtr := cfg.first, eligibleCount := 0 }
      else current.timing }

def xfer (current : Current cfg α) (pending : Pending α) : Current cfg α × Pending α :=
  if !pending.valid then (current, pending)
  else
    let current := { current with clock := pending.clock }
    let current :=
      if pending.reset then xferReset current
      else if current.initialized then xferEdge current pending
      else current
    (current, discard current pending)

variable {current : Current cfg α} {pending : Pending α}

theorem xfer_of_invalid
    (hvalid : pending.valid = false) : xfer current pending = (current, pending) := by
  unfold xfer
  rw [hvalid]
  rfl

theorem xfer_of_reset (hvalid : pending.valid = true) (hreset : pending.reset = true) :
    xfer current pending = (xferReset { current with clock := pending.clock },
      discard (xferReset { current with clock := pending.clock }) pending) := by
  unfold xfer
  rw [hvalid, hreset]
  rfl

theorem xfer_of_edge (hvalid : pending.valid = true) (hreset : pending.reset = false)
    (hinitialized : current.initialized = true) :
    xfer current pending = (xferEdge { current with clock := pending.clock } pending,
      discard (xferEdge { current with clock := pending.clock } pending) pending) := by
  unfold xfer
  dsimp only
  rw [hvalid, hreset, if_pos hinitialized]
  rfl

def reset (current : Current cfg α) (pending : Pending α) : Pending α :=
  { discard current pending with valid := true, reset := true, clock := false }

end Calls

/-! ## Runs -/

/-- A lane with its proposal. -/
structure Lane (cfg : Config) (α : Type) where
  current : Current cfg α
  pending : Pending α

inductive Call (α : Type) where
  | work (inputs : Inputs α)
  | xfer
  | discard
  | reset

namespace Lane

variable {cfg : Config} {α : Type}

/-- The lane after construction. -/
def start [Payload α] : Lane cfg α where
  current :=
    { storage := Vector.replicate _ Payload.unknown, rd := cfg.first, wr := cfg.first, count := 0,
      initialized := false, clock := false,
      timing :=
        { deadline := Vector.replicate _ 0#64, tick := 0#64, maturePtr := cfg.first,
          eligibleCount := 0 } }
  pending :=
    { token := Payload.unknown, valid := false, clock := false, reset := false, push := false,
      pop := false, advanceTime := false, mature := false }

/-- The lane after a call. -/
def call (lane : Lane cfg α) : Call α → Lane cfg α
  | .work inputs => ⟨lane.current, (work lane.current inputs lane.pending).2⟩
  | .xfer => ⟨(xfer lane.current lane.pending).1, (xfer lane.current lane.pending).2⟩
  | .discard => ⟨lane.current, Fifo.discard lane.current lane.pending⟩
  | .reset => ⟨lane.current, Fifo.reset lane.current lane.pending⟩

/-- What a call throws. -/
def thrown (lane : Lane cfg α) : Call α → Option String
  | .work inputs =>
    match (work lane.current inputs lane.pending).1 with
    | .ok _ => none
    | .error message => some message
  | _ => none

/-- The lane after a sequence of calls. -/
def run (lane : Lane cfg α) (calls : List (Call α)) : Lane cfg α := calls.foldl call lane

end Lane

end PyCircuit.Fifo
