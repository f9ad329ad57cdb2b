import Mathlib.Data.Nat.Log
import PyCircuit.Fifo.Kernel
import PyCircuit.Lib.Register

/-!
# The Verilog FIFO

The module `fifo` of `fifo.v` in managed mode. The state is the registers and memories of the module
with the candidates of the prepared transaction; the wires are functions of the state and the input
pins; and a command is one pass through the block on `pyc_phase`. An `if` of the source takes its
branch only when the condition is one, and the assignments of a COMMIT read the state before it.

The samples that a PREPARE takes of its pins are not kept: nothing reads them later. The timing
registers exist only at a latency above one; nothing reads or writes them otherwise.
-/

set_option autoImplicit false

namespace PyCircuit.Fifo.Rtl

open PyCircuit.Lib

/-! ## Parameters -/

/-- `PTR_BITS`. -/
def ptrBits (cfg : Config) : Nat := if cfg.depth ≤ 1 then 1 else Nat.clog 2 cfg.depth

/-- `COUNT_BITS`. -/
def countBits (cfg : Config) : Nat :=
  if cfg.depth ≤ 1 then 1
  else Nat.clog 2 cfg.depth + if cfg.depth &&& (cfg.depth - 1) = 0 then 1 else 0

/-- `TIMESTAMP_BITS`. -/
def timestampBits (cfg : Config) : Nat := Nat.clog 2 cfg.latency

abbrev Pointer (cfg : Config) := Register (ptrBits cfg)

abbrev Count (cfg : Config) := Register (countBits cfg)

abbrev Timestamp (cfg : Config) := Register (timestampBits cfg)

/-! ## State -/

/-- `base_candidate_t`. -/
structure BaseCandidate (cfg : Config) (α : Type) where
  initialized : Logic
  rd : Pointer cfg
  wr : Pointer cfg
  count : Count cfg
  writeToken : Logic
  writeIndex : Pointer cfg
  token : α

/-- `timing_candidate_t`. -/
structure TimingCandidate (cfg : Config) where
  tick : Timestamp cfg
  maturePtr : Pointer cfg
  eligibleCount : Count cfg
  writeDeadline : Timestamp cfg

structure State (cfg : Config) (α : Type) where
  storage : Vector α cfg.depth
  rd : Pointer cfg
  wr : Pointer cfg
  count : Count cfg
  initialized : Logic
  candidate : BaseCandidate cfg α
  deadline : Vector (Timestamp cfg) cfg.depth
  tick : Timestamp cfg
  maturePtr : Pointer cfg
  eligibleCount : Count cfg
  timingCandidate : TimingCandidate cfg
  clockCurrent : Logic
  clockPending : Logic
  pendingValid : Bool
  preparationError : Bool

section

variable {cfg : Config} {α : Type}

/-! ## Wires -/

/-- The count that `out_valid` looks at. -/
def State.shownCount (s : State cfg α) : Count cfg :=
  if cfg.latency = 1 then s.count else s.eligibleCount

def State.outValid (s : State cfg α) : Logic :=
  Logic.select s.initialized (s.shownCount.eqNat 0).not .x

def State.doPop (s : State cfg α) (outReady : Logic) : Logic := s.outValid.and outReady

def State.localCapacity (s : State cfg α) : Logic :=
  Logic.select s.initialized (s.count.ltNat cfg.depth) .x

def State.inReady (s : State cfg α) (outReady : Logic) : Logic :=
  Logic.select s.initialized
    (match cfg.policy with
    | .localOccupancy => s.count.ltNat cfg.depth
    | .downstreamPop => (s.count.ltNat cfg.depth).or (s.doPop outReady)) .x

def State.doPush (s : State cfg α) (inValid outReady : Logic) : Logic :=
  inValid.and (s.inReady outReady)

/-- `out_data`, from the rule of `data_read`. -/
def State.outData [Payload α] (s : State cfg α) : α :=
  if s.initialized = .one then
    if (s.shownCount.eqNat 0).not = .one then s.rd.read s.storage Payload.unknown
    else Payload.zero
  else Payload.unknown

/-- `pyc_local_error`. -/
def State.localError (s : State cfg α) : Bool := s.preparationError || !s.pendingValid

/-! ## Transitions -/

/-- The next position of a pointer. -/
def advance (pointer : Pointer cfg) : Pointer cfg :=
  Register.select (pointer.eqNat (cfg.depth - 1)) (.known 0) (pointer.add 1)

/-- The change of a counter by an increment and a decrement. -/
def bump (counter : Count cfg) (up down : Logic) : Count cfg :=
  if up.xor down = .one then Register.select up (counter.add 1) (counter.sub 1) else counter

def nextBase (oldInitialized : Logic) (oldRd oldWr : Pointer cfg) (oldCount : Count cfg)
    (rising reset push pop : Logic) (token : α) : BaseCandidate cfg α :=
  let result : BaseCandidate cfg α :=
    { initialized := oldInitialized, rd := oldRd, wr := oldWr, count := oldCount,
      writeToken := .zero, writeIndex := oldWr, token }
  if rising = .one then
    if reset = .one then
      { result with initialized := .one, rd := .known 0, wr := .known 0, count := .known 0 }
    else if oldInitialized = .one then
      { result with
        writeToken := if push = .one then .one else .zero
        wr := if push = .one then advance oldWr else oldWr
        rd := if pop = .one then advance oldRd else oldRd
        count := bump oldCount push pop }
    else result
  else result

def nextTiming (oldInitialized : Logic) (oldTick headDeadline : Timestamp cfg)
    (oldMaturePtr : Pointer cfg) (oldCount oldEligibleCount : Count cfg)
    (rising reset pop : Logic) : TimingCandidate cfg :=
  let delay := cfg.latency - 1
  let result : TimingCandidate cfg :=
    { tick := oldTick, maturePtr := oldMaturePtr, eligibleCount := oldEligibleCount,
      writeDeadline := oldTick.add delay }
  if rising = .one then
    if reset = .one then
      { result with tick := .known 0, maturePtr := .known 0, eligibleCount := .known 0 }
    else if oldInitialized = .one then
      let tick := oldTick.add 1
      let mature :=
        if oldCount.gt oldEligibleCount = .one then headDeadline.eq tick else .zero
      { tick
        maturePtr := if mature = .one then advance oldMaturePtr else oldMaturePtr
        -- Pop uses old eligibility.
        eligibleCount := bump oldEligibleCount mature pop
        writeDeadline := tick.add delay }
    else result
  else result

/-- `prepare_transition`, of both latency modes. -/
def State.prepareTransition (s : State cfg α) (rising reset push pop : Logic) (token : α) :
    State cfg α :=
  let candidate :=
    nextBase s.initialized s.rd s.wr s.count rising reset push pop token
  if cfg.latency = 1 then { s with candidate }
  else
    let headDeadline :=
      if ((rising.and reset.not).and s.initialized).and (s.count.gt s.eligibleCount) = .one then
        s.maturePtr.read s.deadline none
      else none
    { s with
      candidate
      timingCandidate :=
        nextTiming s.initialized s.tick headDeadline s.maturePtr s.count s.eligibleCount rising
          reset pop }

/-- `commit_base`. -/
def State.commitBase (s : State cfg α) : State cfg α :=
  { s with
    initialized := s.candidate.initialized
    rd := s.candidate.rd
    wr := s.candidate.wr
    count := s.candidate.count
    storage :=
      if s.candidate.writeToken = .one then
        s.candidate.writeIndex.write s.storage s.candidate.token
      else s.storage }

/-- `commit_transition`, of both latency modes. -/
def State.commitTransition (s : State cfg α) : State cfg α :=
  if cfg.latency = 1 then s.commitBase
  else
    { s.commitBase with
      tick := s.timingCandidate.tick
      maturePtr := s.timingCandidate.maturePtr
      eligibleCount := s.timingCandidate.eligibleCount
      deadline :=
        if s.candidate.writeToken = .one then
          s.candidate.writeIndex.write s.deadline s.timingCandidate.writeDeadline
        else s.deadline }

/-- The disjunction of the bits of `edge_control_error`. -/
def edgeControlError (rising reset push pop : Logic) : Bool :=
  if rising = .one then
    if ¬ reset.Known then true
    else if reset.not = .one ∧ (¬ push.Known ∨ ¬ pop.Known) then true
    else false
  else false

/-! ## Commands -/

inductive Command (α : Type) where
  | prepare (pins : Inputs α)
  | commit (rootCommitOk : Logic)
  | discard
  | reset

/-- The PREPARE branch. -/
def State.prepare (s : State cfg α) (pins : Inputs α) : State cfg α :=
  let push := s.doPush pins.inValid pins.outReady
  let pop := s.doPop pins.outReady
  let s :=
    ({ s with
      pendingValid := false, preparationError := false, clockPending := s.clockCurrent }
        ).prepareTransition .zero .zero .zero .zero pins.inData
  if ¬ pins.clk.Known then { s with preparationError := true }
  else
    let rising := s.clockCurrent.not.and pins.clk
    let preparationError := edgeControlError rising pins.rst push pop
    if preparationError then { s with preparationError }
    else
      { s.prepareTransition rising pins.rst push pop pins.inData with
        clockPending := pins.clk, pendingValid := true }

/-- The COMMIT branch. -/
def State.commit (s : State cfg α) (rootCommitOk : Logic) : State cfg α :=
  let s :=
    if s.pendingValid ∧ rootCommitOk = .one then
      { s.commitTransition with clockCurrent := s.clockPending }
    else s
  { s with pendingValid := false }

variable [Payload α]

/-- The state after a command. -/
def State.command (s : State cfg α) : Command α → State cfg α
  | .prepare pins => s.prepare pins
  | .commit rootCommitOk => s.commit rootCommitOk
  | .discard => { s with pendingValid := false, preparationError := false }
  | .reset =>
    { s.prepareTransition .one .one .zero .zero Payload.unknown with
      clockPending := .zero, preparationError := false, pendingValid := true }

/-- The command raises the error flag. -/
def State.raises (s : State cfg α) (c : Command α) : Bool :=
  match c with
  | .prepare _ => (s.command c).preparationError
  | _ => (s.command c).preparationError && !s.preparationError

/-- The state after a sequence of commands. -/
def State.run (s : State cfg α) (commands : List (Command α)) : State cfg α :=
  commands.foldl State.command s

/-- The call of the kernel that a command stands for; a COMMIT without the permission of the root
only drops the transaction. -/
def Command.call : Command α → Call α
  | .prepare pins => .work pins
  | .commit rootCommitOk => if rootCommitOk = .one then .xfer else .discard
  | .discard => .discard
  | .reset => .reset

end

end PyCircuit.Fifo.Rtl
