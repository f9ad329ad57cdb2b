import Mathlib.Data.List.Sort
import PyCircuit.ModelInput.Decoder
import PyCircuit.Simulation.System

/-!
# The simulation executor

The class `SimExecutor` of `sim_executor.cpp`, which drives a simulation system through the calls of
the model interface. All its functions are `noexcept`: an allocation that fails inside of one is
caught and turned into an error text. `Room` says for one call which of its allocations succeed.

The texts are strings; a buffer handed to the caller is the string it shows.
-/

set_option autoImplicit false

namespace PyCircuit.SimExecutor

open PyCircuit.Simulation PyCircuit.ModelInput

/-! ## The texts -/

/-- The values of `PycircuitModelStatusV1`. -/
inductive Status where
  | ok
  | invalidArgument
  | abiMismatch
  | invalidState
  | runtimeFailure
  deriving DecidableEq, Repr

/-- The values of `PycircuitModelStepStateV1`. -/
inductive StepState where
  | running
  | quiescent
  | terminated
  | failed
  deriving DecidableEq, Repr

/-- A lower-case hexadecimal digit. -/
def hexDigit (n : Nat) : Char := "0123456789abcdef".toList.getD n '0'

/-- The text `escapeJson` writes for a character. -/
def escapeChar (c : Char) : List Char :=
  if c = '\\' then ['\\', '\\']
  else if c.toNat = 0x22 then ['\\', Char.ofNat 0x22]
  else if c.toNat = 0x08 then ['\\', 'b']
  else if c.toNat = 0x0c then ['\\', 'f']
  else if c = '\n' then ['\\', 'n']
  else if c = '\r' then ['\\', 'r']
  else if c = '\t' then ['\\', 't']
  else if c.toNat < 0x20 then
    ['\\', 'u', '0', '0', hexDigit (c.toNat / 16), hexDigit (c.toNat % 16)]
  else [c]

/-- `escapeJson`. -/
def escapeJson (value : String) : String := String.ofList (value.toList.flatMap escapeChar)

/-- `appendString`. -/
def quoted (value : String) : String := "\"" ++ escapeJson value ++ "\""

/-- The fields of an error text. -/
structure ErrorInfo where
  code : String
  message : String
  phase : String
  instance_ : String
  sourceJson : String
  checkIdJson : String
  deriving DecidableEq, Repr

/-- An error without a place in the model. -/
def ErrorInfo.plain (code message phase : String) : ErrorInfo := ⟨code, message, phase, "", "", ""⟩

/-- The text of an error. -/
def ErrorInfo.text (e : ErrorInfo) : String :=
  "\x7b\"code\":" ++ quoted e.code ++ ",\"message\":" ++ quoted e.message ++ ",\"phase\":" ++
    quoted e.phase ++ ",\"instance\":" ++
    (if e.instance_ = "" then "null" else quoted e.instance_) ++ ",\"source\":" ++
    (if e.sourceJson = "" then "null" else e.sourceJson) ++ ",\"check_id\":" ++
    (if e.checkIdJson = "" then "null" else e.checkIdJson) ++ "\x7d"

/-- `kFallbackError`. -/
def fallbackText : String :=
  "\x7b\"code\":\"runtime_failure\",\"message\":\"runtime failure\",\"phase\":\"api\"," ++
    "\"instance\":null,\"source\":null,\"check_id\":null\x7d"

/-- `phaseName`. -/
def phaseName : SimFailurePhase → String
  | .build => "api"
  | .evaluate => "evaluate"
  | .check => "check"
  | .drive => "drive"
  | .xfer => "xfer"
  | .none => "api"

/-- The error of a step that the system has failed. -/
def stepFailure (failure : SimFailureInfo) : ErrorInfo where
  code := if failure.code = "" then "runtime_failure" else failure.code
  message := if failure.message = "" then "model step failed" else failure.message
  phase := phaseName failure.phase
  instance_ := failure.instance_
  sourceJson := failure.sourceJson
  checkIdJson := failure.checkIdJson

/-! ## The state -/

inductive State where
  | created
  | configured
  | ready
  | completed
  | failed
  deriving DecidableEq, Repr

inductive StopReason where
  | none
  | maxTicks
  | maxDomainCycles
  deriving DecidableEq, Repr

def StopReason.value : StopReason → Nat
  | .none => 0
  | .maxTicks => 1
  | .maxDomainCycles => 2

structure ReportGaugeDescriptor where
  stableOrdinal : Nat
  objectPath : String
  name : String
  deriving DecidableEq, Repr

variable {W ι : Type} {leaf : ι → Leaf W}

/-- The class `SimExecutor`; the observation slots are those in the memory of its system. -/
structure Executor (design : Design leaf) where
  system : System design
  reports : List ReportGaugeDescriptor
  gaugeSnapshots : List (GaugeSnapshot Spans)
  state : State
  maxTicks : Option UInt64
  maxDomainCycles : Option UInt64
  stopReason : StopReason
  stopReasonUpdate : BitVec 64
  committedCycles : BitVec 64
  statistics : String
  lastError : String
  fallbackError : Bool
  executionFailureLatched : Bool

/-- Which allocations of a call succeed: those of its own work, and those of an error text. -/
structure Room where
  work : Bool
  text : Bool
  deriving DecidableEq, Repr

namespace Executor

variable [DecidableEq ι] {design : Design leaf}

/-- `SimExecutor::clearError`. -/
def clearError (e : Executor design) : Executor design :=
  { e with fallbackError := false, lastError := "" }

/-- `SimExecutor::setError` past the test of the latch. -/
def replaceError (e : Executor design) (room : Room) (error : ErrorInfo) : Executor design :=
  if room.text then { e with lastError := error.text, fallbackError := false }
  else { e with fallbackError := true, lastError := "" }

/-- `SimExecutor::setError` with `replaceExecutionFailure` false. -/
def setError (e : Executor design) (room : Room) (error : ErrorInfo) : Executor design :=
  if e.executionFailureLatched then e else e.replaceError room error

/-- What `LastError` shows. -/
def errorText (e : Executor design) : String :=
  if e.fallbackError then fallbackText else e.lastError

/-- `std::copy` of the gauges over the snapshots. -/
def copyGauges (e : Executor design) : List (GaugeSnapshot Spans) :=
  e.system.memory.observations.gauges ++
    e.gaugeSnapshots.drop e.system.memory.observations.gauges.length

/-- The loop of `reportsAreValid`. -/
def reportsValidFrom (gauges : List (GaugeSnapshot Spans)) :
    List ReportGaugeDescriptor → List ReportGaugeDescriptor → Bool
  | _, [] => true
  | previous, report :: rest =>
    report.objectPath != "" && report.name != "" &&
      previous.all (fun other => other.stableOrdinal != report.stableOrdinal &&
        !(other.objectPath = report.objectPath && other.name = report.name)) &&
      gauges.any (fun gauge => gauge.stableOrdinal = report.stableOrdinal) &&
      reportsValidFrom gauges (previous ++ [report]) rest

/-- `SimExecutor::reportsAreValid`. -/
def reportsAreValid (e : Executor design) : Bool :=
  e.reports.length = e.gaugeSnapshots.length && reportsValidFrom e.gaugeSnapshots [] e.reports

/-! ## Statistics -/

/-- A row of the statistics. -/
structure Row where
  objectPath : String
  name : String
  kind : String
  value : Nat
  lastUpdate : Nat
  deriving DecidableEq, Repr

/-- `appendStatistic`, without its comma. -/
def Row.text (row : Row) : String :=
  "\x7b\"buckets\":[],\"count\":0,\"kind\":" ++ quoted row.kind ++
    ",\"last_update\":\x7b\"delta\":0,\"time\":" ++ toString row.lastUpdate ++
    "\x7d,\"maximum\":0,\"minimum\":0,\"name\":" ++ quoted row.name ++ ",\"object_path\":" ++
    quoted row.objectPath ++ ",\"sum\":0,\"value\":" ++ toString row.value ++ "\x7d"

/-- The row of a report. -/
def reportRow (e : Executor design) (report : ReportGaugeDescriptor) : Option Row :=
  (e.gaugeSnapshots.find? fun gauge => gauge.stableOrdinal = report.stableOrdinal).bind
    fun gauge =>
      if gauge.value.kind ≠ .unsigned then none
      else some ⟨report.objectPath, report.name, "gauge", gauge.value.bits.toNat,
        gauge.lastUpdate.toNat⟩

/-- The rows of the runtime itself. -/
def runtimeRows (e : Executor design) : List Row :=
  [⟨"@runtime", "cycles", "counter", e.committedCycles.toNat, e.committedCycles.toNat⟩,
    ⟨"@runtime", "stop_reason", "gauge", e.stopReason.value, e.stopReasonUpdate.toNat⟩]

/-- The order of the rows. -/
def Row.before (left right : Row) : Prop :=
  left.objectPath < right.objectPath ∨
    (left.objectPath = right.objectPath ∧ left.name ≤ right.name)

instance (left right : Row) : Decidable (left.before right) :=
  inferInstanceAs (Decidable (_ ∨ _))

/-- `SimExecutor::buildStatistics`. -/
def buildStatistics (e : Executor design) : Option String :=
  if !e.reportsAreValid then none
  else
    (e.reports.mapM e.reportRow).map fun rows =>
      "[" ++ ",".intercalate (((e.runtimeRows ++ rows).insertionSort Row.before).map Row.text) ++
        "]\n"

/-! ## The calls -/

/-- The members before the constructor's body. -/
def blank (system : System design) : Executor design where
  system := system
  reports := []
  gaugeSnapshots := []
  state := .failed
  maxTicks := none
  maxDomainCycles := none
  stopReason := .none
  stopReasonUpdate := BitVec.ofNat 64 0
  committedCycles := BitVec.ofNat 64 0
  statistics := ""
  lastError := ""
  fallbackError := false
  executionFailureLatched := false

/-- The constructor; `allocations` counts the assignments and reservations that succeed. -/
def construct (system : System design) (reports : List ReportGaugeDescriptor) (allocations : Nat)
    (room : Room) : Executor design :=
  let e := blank system
  let failure := ErrorInfo.plain "runtime_failure" "model construction failed" "api"
  if allocations = 0 then e.setError room failure
  else
    let e := { e with reports := reports }
    if allocations = 1 then e.setError room failure
    else
      let e := { e with gaugeSnapshots := system.memory.observations.gauges }
      if allocations < 4 then e.setError room failure
      else if !system.attached || !e.reportsAreValid then
        e.setError room (.plain "runtime_failure" "report gauge metadata is invalid" "api")
      else
        let e := { e with system := system.build }
        if e.system.state ≠ .built then
          e.setError room (.plain "runtime_failure" "model Build failed" "api")
        else ({ e with state := .created } : Executor design).clearError

/-- The limits are those the foundation profile has. -/
def limitsSupported (limits : RuntimeLimits) : Bool :=
  !(limits.maxTicks = some 0 || limits.maxDomainCycles.entries.length > 1 ||
    match limits.maxDomainCycles.entries with
    | [] => false
    | entry :: _ => entry.1 != ascii "default" || entry.2 = 0)

/-- The text of a buffer without a newline at its end. -/
def withoutNewline (json : Bytes) : Bytes :=
  if json.getLast? = some 0x0a then json.dropLast else json

/-- The decoded limits, or the reason why they are refused. -/
def acceptLimits (json : Bytes) : Except ErrorInfo RuntimeLimits :=
  match parseModelConfigJson (withoutNewline json) with
  | .error error => .error (.plain "invalid_argument" error "configure")
  | .ok candidate =>
    if candidate.deadlockWindow.isSome then
      .error (.plain "invalid_argument"
        "deadlock_window is unavailable in the foundation runtime" "configure")
    else if !limitsSupported candidate then
      .error (.plain "invalid_argument" "runtime limits are outside the foundation profile"
        "configure")
    else .ok candidate

/-- `SimExecutor::ConfigureJson`; a null pointer is no buffer. -/
def configureJson (e : Executor design) (room : Room) (data : Option Bytes) :
    Executor design × Status :=
  if e.state ≠ .created then
    (e.setError room (.plain "invalid_state" "configure requires Created state" "configure"),
      .invalidState)
  else if data.getD [] = [] then
    (e.setError room (.plain "invalid_argument" "model config buffer is invalid" "configure"),
      .invalidArgument)
  else if !room.work then
    (e.setError room (.plain "runtime_failure" "model configuration failed" "configure"),
      .runtimeFailure)
  else
    match acceptLimits (data.getD []) with
    | .error error => (e.setError room error, .invalidArgument)
    | .ok candidate =>
      (({ e with
          maxTicks := candidate.maxTicks
          maxDomainCycles := candidate.maxDomainCycles.entries.head?.map Prod.snd
          state := .configured } : Executor design).clearError, .ok)

/-- A failure of the execution or of a reset: it replaces any other error and is latched. -/
def latchFailure (e : Executor design) (room : Room) (error : ErrorInfo) : Executor design :=
  { ({ e with state := .failed } : Executor design).replaceError room error with
    executionFailureLatched := true }

/-- The executor at the start of a run. -/
def restart (e : Executor design) : Executor design :=
  { e with
    stopReason := .none
    stopReasonUpdate := BitVec.ofNat 64 0
    committedCycles := BitVec.ofNat 64 0
    gaugeSnapshots := e.copyGauges
    state := .ready
    executionFailureLatched := false }

/-- `SimExecutor::Reset`. -/
def reset (e : Executor design) (room : Room) : Executor design × Status :=
  if e.state = .created then
    (e.setError room (.plain "invalid_state" "reset requires a configured model" "reset"),
      .invalidState)
  else if e.system.reset.state ≠ .ready then
    (({ e with system := e.system.reset } : Executor design).latchFailure room
      (.plain "reset_failed" "model reset failed" "reset"), .runtimeFailure)
  else (({ e with system := e.system.reset } : Executor design).restart.clearError, .ok)

/-- What `Step` writes to its result. -/
structure StepResult where
  state : StepState
  epochTime : BitVec 64
  deriving DecidableEq, Repr

/-- `sizeof(PycircuitModelStepResultV1)`. -/
def stepResultSize : Nat := 24

/-- A limit that the committed cycles have reached. -/
def reached (cycles : BitVec 64) (limit : Option UInt64) : Bool :=
  limit.any fun limit => limit.toBitVec ≤ cycles

/-- The executor after the system has committed a cycle. -/
def commitStep (e : Executor design) : Executor design × StepResult :=
  let e := { e with committedCycles := e.system.cycle, gaugeSnapshots := e.copyGauges }
  let ticksReached := reached e.committedCycles e.maxTicks
  let domainReached := reached e.committedCycles e.maxDomainCycles
  if ticksReached || domainReached then
    (({ e with
        stopReason := if ticksReached then .maxTicks else .maxDomainCycles
        stopReasonUpdate := e.committedCycles
        state := .completed } : Executor design).clearError, ⟨.terminated, e.committedCycles⟩)
  else (e.clearError, ⟨.running, e.committedCycles⟩)

/-- `SimExecutor::Step` in the Ready state. -/
def stepReady (e : Executor design) (room : Room) : Executor design × Status × Option StepResult :=
  if e.system.cycle = BitVec.allOnes 64 then
    (e.latchFailure room (.plain "counter_overflow" "cycle counter would overflow" "evaluate"),
      .runtimeFailure, some ⟨.failed, e.system.cycle⟩)
  else
    let stepped := { e with system := e.system.step.1 }
    match e.system.step.2 with
    | .quiescent => (stepped.clearError, .ok, some ⟨.quiescent, stepped.system.cycle⟩)
    | .running =>
      (stepped.commitStep.1, .ok, some stepped.commitStep.2)
    | .failed =>
      (stepped.latchFailure room (stepFailure stepped.system.failureInfo), .runtimeFailure,
        some ⟨.failed, e.committedCycles⟩)
    | .invalidState =>
      (stepped.latchFailure room (stepFailure stepped.system.failureInfo), .runtimeFailure,
        some ⟨.failed, e.committedCycles⟩)

/-- `SimExecutor::Step`; the argument is the `struct_size` of the result, if there is one. -/
def step (e : Executor design) (room : Room) (result : Option Nat) :
    Executor design × Status × Option StepResult :=
  match result with
  | none =>
    (e.setError room (.plain "invalid_argument" "step result is null" "api"), .invalidArgument,
      none)
  | some size =>
    if size ≠ stepResultSize then
      (e.setError room (.plain "abi_mismatch" "step result layout is incompatible" "api"),
        .abiMismatch, none)
    else if e.state ≠ .ready then
      (if e.state ≠ .failed then
          e.setError room (.plain "invalid_state" "step requires Ready state" "api")
        else e, .invalidState, none)
    else e.stepReady room

/-- `SimExecutor::StatisticsJson`; the argument tells whether there is a result. -/
def statisticsJson (e : Executor design) (room : Room) (result : Bool) :
    Executor design × Status × Option String :=
  if !result then
    (e.setError room (.plain "invalid_argument" "statistics result is null" "statistics"),
      .invalidArgument, none)
  else if e.state = .created ∨ e.state = .configured then
    (e.setError room
      (.plain "invalid_state" "statistics require an initialized model" "statistics"),
      .invalidState, none)
  else
    match if room.work then e.buildStatistics else none with
    | none =>
      (e.setError room (.plain "statistics_failure" "statistics snapshot failed" "statistics"),
        .runtimeFailure, none)
    | some statistics => ({ e with statistics }, .ok, some statistics)

/-- `SimExecutor::LastError`; the argument tells whether there is a result. -/
def lastErrorJson (e : Executor design) (room : Room) (result : Bool) :
    Executor design × Status × Option String :=
  if !result then
    (e.setError room (.plain "invalid_argument" "last_error result is null" "api"),
      .invalidArgument, none)
  else (e, .ok, some e.errorText)

end Executor

end PyCircuit.SimExecutor
