import PyCircuit.Simulation.Module

/-!
# The simulation system

The class `SimSystem` of `SimSystem.h`. A design has the module objects of a program, and the
virtual functions of its system class. The modules own their leaves, so that no leaf belongs to two
modules or twice to one; the root list of the system refers to the modules by their number.
-/

set_option autoImplicit false

namespace PyCircuit.Simulation

open PyCircuit.Lib

inductive SimSystemState where
  | preBuild
  | built
  | ready
  | failed
  deriving DecidableEq, Repr

inductive SimStepResult where
  | invalidState
  | running
  | quiescent
  | failed
  deriving DecidableEq, Repr

inductive SimFailurePhase where
  | none
  | build
  | evaluate
  | check
  | drive
  | xfer
  deriving DecidableEq, Repr

structure SimFailureInfo where
  phase : SimFailurePhase := .none
  code : String := ""
  message : String := ""
  instance_ : String := ""
  sourceJson : String := ""
  checkIdJson : String := ""
  deriving DecidableEq, Repr

/-- `SimSystem::DescribeFailure` of the base class. -/
def SimFailurePhase.describe : SimFailurePhase → SimFailureInfo
  | .build => { phase := .build, code := "runtime_failure", message := "model Build failed" }
  | .evaluate =>
    { phase := .evaluate, code := "runtime_failure", message := "model evaluation failed" }
  | .check => { phase := .check, code := "runtime_failure", message := "model check failed" }
  | .drive => { phase := .drive, code := "runtime_failure", message := "model drive failed" }
  | .xfer => { phase := .xfer, code := "runtime_failure", message := "model transfer failed" }
  | .none => {}

variable {W ι : Type}

/-- The modules of a program and the virtual functions of its system. -/
structure Design (leaf : ι → Leaf W) where
  count : Nat
  module : Fin count → Module leaf
  owned : ((List.finRange count).flatMap fun i => (module i).leaves).Nodup
  build : Fin count → W → W × Option String
  finalizeBuild : Memory leaf → Bool
  precheck : Memory leaf → Bool
  describeFailure : Memory leaf → SimFailurePhase → SimFailureInfo := fun _ phase => phase.describe

variable {leaf : ι → Leaf W}

/-- The class `SimSystem`, with the memory of its modules and the observation slots. -/
structure System (design : Design leaf) where
  roots : List (Fin design.count)
  attached : Bool
  state : SimSystemState
  cycle : BitVec 64
  buildCompleted : Bool
  failureInfo : SimFailureInfo
  memory : Memory leaf

namespace System

variable [DecidableEq ι] {design : Design leaf}

/-- The system before anything is registered. -/
def initial (design : Design leaf) (memory : Memory leaf) : System design where
  roots := []
  attached := false
  state := .preBuild
  cycle := 0#64
  buildCompleted := false
  failureInfo := {}
  memory := { memory with observations := .empty }

/-- `SimSystem::AttachObservations`. -/
def attachObservations (sys : System design) : System design × Bool :=
  if sys.state ≠ .preBuild ∨ sys.attached = true then (sys, false)
  else ({ sys with attached := true }, true)

/-- `SimSystem::AddModule`. -/
def addModule (sys : System design) (i : Fin design.count) : System design × Bool :=
  if sys.state ≠ .preBuild ∨ i ∈ sys.roots then (sys, false)
  else ({ sys with roots := sys.roots ++ [i] }, true)

/-- `SimSystem::discardAll`. -/
def discardAll (sys : System design) : Memory leaf :=
  let memory := sys.roots.foldl (fun memory i => (design.module i).discardNext memory) sys.memory
  if sys.attached then { memory with observations := memory.observations.discardNext } else memory

/-- `SimSystem::fail`. -/
def fail (sys : System design) (phase : SimFailurePhase) : System design :=
  { sys with
    memory := sys.discardAll
    failureInfo := design.describeFailure sys.discardAll phase
    state := .failed }

/-- The `Build` calls of the roots. -/
def buildRoots : List (Fin design.count) → W → W × Option String
  | [], wires => (wires, none)
  | i :: rest, wires =>
    match design.build i wires with
    | (wires, none) => buildRoots rest wires
    | (wires, some error) => (wires, some error)

/-- `SimSystem::Build`. -/
def build (sys : System design) : System design :=
  if sys.state ≠ .preBuild then sys
  else
    let ran := buildRoots sys.roots sys.memory.wires
    let sys := { sys with memory := { sys.memory with wires := ran.1 } }
    if ran.2.isSome || !design.finalizeBuild sys.memory then sys.fail .build
    else { sys with buildCompleted := true, state := .built }

/-- `SimSystem::Work`. -/
def work (sys : System design) : Memory leaf × Option String :=
  runEach (fun i => (design.module i).work sys.cycle) sys.roots sys.memory

/-- The system check before any root commits. -/
def accepted (sys : System design) : Bool :=
  design.precheck sys.memory &&
    (!sys.attached || sys.memory.observations.precommit sys.cycle)

/-- The transfers of the roots, the cycle and the observations. -/
def commit (sys : System design) : System design :=
  let memory := sys.roots.foldl (fun memory i => (design.module i).xfer memory) sys.memory
  let cycle := sys.cycle + 1#64
  { sys with
    cycle
    memory :=
      if sys.attached then { memory with observations := memory.observations.xfer cycle }
      else memory }

/-- `SimSystem::Xfer`. -/
def xfer (sys : System design) : System design × Bool :=
  if sys.state = .failed then ({ sys with memory := sys.discardAll }, false)
  else if !sys.accepted then (sys.fail .check, false)
  else (sys.commit, true)

/-- The system after `Work`. -/
def proposed (sys : System design) : System design := { sys with memory := sys.work.1 }

/-- The system after `Work` and its handler, which records an exception. -/
def worked (sys : System design) : System design :=
  match sys.work.2 with
  | none => sys.proposed
  | some _ =>
    { sys.proposed with
      failureInfo := design.describeFailure sys.work.1 .evaluate
      state := .failed }

/-- `SimSystem::Step`. -/
def step (sys : System design) : System design × SimStepResult :=
  match sys.state with
  | .failed => (sys, .failed)
  | .preBuild => (sys, .invalidState)
  | .built => (sys, .invalidState)
  | .ready =>
    if !sys.roots.any (fun i => (design.module i).hasWork sys.memory) then (sys, .quiescent)
    -- Time belongs to the system; the last cycle has no successor.
    else if sys.cycle = BitVec.allOnes 64 then (sys.fail .evaluate, .failed)
    else (sys.worked.xfer.1, if sys.worked.xfer.2 then .running else .failed)

/-- The system is one that `Reset` accepts. -/
def resettable (sys : System design) : Bool :=
  sys.state = .built || sys.state = .ready || sys.state = .failed && sys.buildCompleted

/-- `SimSystem::Reset`. -/
def reset (sys : System design) : System design :=
  if !sys.resettable then sys
  else
    let memory := sys.roots.foldl (fun memory i => (design.module i).reset memory) sys.discardAll
    let memory := sys.roots.foldl (fun memory i => (design.module i).xfer memory) memory
    { sys with
      memory :=
        if sys.attached then { memory with observations := memory.observations.reset } else memory
      cycle := 0#64
      failureInfo := {}
      state := .ready }

end System

end PyCircuit.Simulation
