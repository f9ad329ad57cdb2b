import PyCircuit.Lib.Fallible
import PyCircuit.Lib.Word

/-!
# The memory run

The functions of `_memory_run.py`: a generated model is stepped cycle by cycle against two word
memories with response latencies. `runMemory` is the loop of `run_memory` from the first reset to
the final state; in functional mode it skips the cycles on which nothing can happen.

A model is a deterministic machine behind the commands of the bridge: `Q` shows the outputs for some
inputs, `T` also takes a step and says whether the complete state is unchanged, `R` resets. The
checks on the configuration, the files and the wall-time budget are not modelled. Cycles are natural
numbers: a negative entry of `reset_at` is never met.
-/

set_option autoImplicit false

namespace PyCircuit.MemoryRun

open PyCircuit.Lib

/-! ## Packed records -/

/-- A field of a flat record port. -/
structure Field where
  name : String
  low : Nat
  width : Nat

abbrev Port : Type := List Field

/-- The values of named fields. -/
abbrev Dict : Type := List (String × Nat)

namespace Dict

def get (d : Dict) (name : String) : Nat := (d.lookup name).getD 0

/-- An assignment keeps the position of a key that is present. -/
def set (d : Dict) (name : String) (value : Nat) : Dict :=
  if d.any fun entry => entry.1 = name then
    d.map fun entry => if entry.1 = name then (name, value) else entry
  else d ++ [(name, value)]

end Dict

def pack (values : Dict) (port : Port) : Except String Nat :=
  port.foldlM
    (fun result field =>
      let value := values.get field.name
      if value ≥ 2 ^ field.width then
        .error ("input " ++ field.name ++ " does not fit its declared width")
      else .ok (result ||| value <<< field.low))
    0

def unpack (bits : Word) (port : Port) : Except String Dict :=
  match Word.known? bits with
  | none => .error "available level/event output contains unknown bits"
  | some value =>
    .ok (port.map fun field =>
      (field.name, (value >>> field.low) &&& (2 ^ field.width - 1)))

/-! ## Memories with latency -/

/-- The class `PendingMemory`; the constructor refuses an empty latency sequence. -/
structure PendingMemory (κ : Type) where
  latency : List Nat
  pending : Option (κ × Nat)
  count : Nat
  nonempty : latency ≠ []

namespace PendingMemory

variable {κ : Type}

/-- The latency of the next request. -/
def delay (m : PendingMemory κ) : Nat :=
  m.latency.get
    ⟨m.count % m.latency.length, Nat.mod_lt _ (List.length_pos_iff.mpr m.nonempty)⟩

def response (m : PendingMemory κ) (command : Option κ) (cycle : Nat) : Bool :=
  match m.pending with
  | some (_, deadline) => command.isSome && decide (cycle ≥ deadline)
  | none => command.isSome && decide (m.delay = 0)

def finish [DecidableEq κ] (m : PendingMemory κ) (command : Option κ) (ready : Bool) (cycle : Nat)
    (cancel : Bool) : Except String (PendingMemory κ) :=
  if cancel then .ok { m with pending := none }
  else
    match m.pending, command with
    | some (held, _), some c =>
      if c ≠ held then .error "request withdrawn or changed before completion"
      else if ready then .ok { m with pending := none, count := m.count + 1 }
      else .ok m
    | some _, none => .error "request withdrawn or changed before completion"
    | none, some c =>
      if ready then .ok { m with pending := none, count := m.count + 1 }
      else .ok { m with pending := some (c, cycle + m.delay) }
    | none, none => .ok m

end PendingMemory

/-! ## Configuration and device -/

/-- The field names of a read channel. -/
structure Channel where
  ready : String
  response : String
  fault : String
  valid : String
  address : String

/-- The field names of the data channel. -/
structure DataChannel extends Channel where
  write : String
  mask : String
  writeData : String

structure Config where
  inputs : Port
  pins : Port
  instruction : Channel
  data : DataChannel
  eventValid : String
  eventStop : String
  image : List (BitVec 8)
  memoryBase : Nat
  instructionLatency : List Nat
  dataLatency : List Nat
  instructionLatency_ne : instructionLatency ≠ []
  dataLatency_ne : dataLatency ≠ []
  resetCycles : Nat
  resetAt : List Nat
  maxCycles : Nat

/-- The generated model behind the bridge. A command may fail; an unchanged flag is never wrong. -/
structure Device (σ : Type) where
  query : σ → Nat → Except String Word
  step : σ → Nat → Except String (σ × Word × Bool)
  reset : σ → Nat → Except String (σ × Word × Bool)
  unchanged_sound : ∀ {s raw s' packet}, step s raw = .ok (s', packet, true) → s' = s

/-- A request of the data channel. -/
structure DataCommand where
  address : Nat
  write : Nat
  mask : Nat
  writeData : Nat
  deriving DecidableEq

/-! ## One cycle -/

/-- The word at an address in the memory. -/
def wordAt (bytes : List (BitVec 8)) (offset : Nat) : Nat :=
  ((bytes.drop offset).take 4).foldr (fun byte rest => byte.toNat + 256 * rest) 0

/-- The three response fields of a channel. -/
def answer (cfg : Config) (channel : Channel) (address : Option Nat) (ready : Bool)
    (bytes : List (BitVec 8)) (following : Dict) : Dict :=
  let base := cfg.memoryBase
  let address := address.getD base
  let valid := decide (base ≤ address ∧ address + 4 ≤ base + cfg.image.length ∧ address % 4 = 0)
  ((following.set channel.ready ready.toNat).set channel.fault (ready && !valid).toNat).set
    channel.response (if ready && valid then wordAt bytes (address - base) else 0)

/-- The requests that the outputs show. -/
def instructionCommand (cfg : Config) (out : Dict) : Option Nat :=
  if out.get cfg.instruction.valid ≠ 0 then some (out.get cfg.instruction.address) else none

def dataCommand (cfg : Config) (out : Dict) : Option DataCommand :=
  if out.get cfg.data.valid ≠ 0 then
    some ⟨out.get cfg.data.address, out.get cfg.data.write, out.get cfg.data.mask,
      out.get cfg.data.writeData⟩
  else none

/-- The inputs that settle the ready/valid chain, with the requests they were computed from. -/
structure Settled where
  response : Dict
  icmd : Option Nat
  dcmd : Option DataCommand

section

variable {σ : Type} (device : Device σ) (cfg : Config)

/-- The query loop, for a number of iterations; the memories answer by `iready` and `dready`. -/
def settle (state : σ) (data : List (BitVec 8)) (iready : Option Nat → Bool)
    (dready : Option DataCommand → Bool) : Nat → Dict → Except String Settled
  | 0, _ => .error "ready/valid combinational query did not settle"
  | n + 1, response => do
      let raw ← pack response cfg.inputs
      let bits ← device.query state raw
      let out ← unpack bits cfg.pins
      let icmd := instructionCommand cfg out
      let dcmd := dataCommand cfg out
      let following :=
        answer cfg cfg.data.toChannel (dcmd.map DataCommand.address) (dready dcmd) data
          (answer cfg cfg.instruction icmd (iready icmd) cfg.image [])
      if following = response then return ⟨response, icmd, dcmd⟩
      else settle state data iready dready n following

/-- An assignment to `data[index]`; a negative index counts from the end. -/
def setByte (data : List (BitVec 8)) (index : Int) (byte : BitVec 8) :
    Except String (List (BitVec 8)) :=
  if 0 ≤ index ∧ index < data.length then .ok (data.set index.toNat byte)
  else if index < 0 ∧ 0 ≤ index + data.length then
    .ok (data.set (index + data.length).toNat byte)
  else .error "bytearray index out of range"

/-- The lanes of a committed write. -/
def writeLanes (data : List (BitVec 8)) (address value mask : Nat) :
    Except String (List (BitVec 8)) :=
  (List.range 4).foldlM
    (fun data lane =>
      if mask >>> lane &&& 1 ≠ 0 then
        setByte data ((address : Int) - cfg.memoryBase + lane)
          (BitVec.ofNat 8 (value >>> (lane * 8)))
      else .ok data)
    data

structure Record where
  cycle : Nat
  epoch : Nat
  reset : Bool
  outputs : Dict
  unchanged : Bool
  environmentEvent : Bool
  deriving DecidableEq

structure Store where
  cycle : Nat
  address : Nat
  mask : Nat
  data : Nat
  deriving DecidableEq

/-- What a cycle does. -/
structure Tick (σ : Type) where
  state : σ
  data : List (BitVec 8)
  instruction : PendingMemory Nat
  memory : PendingMemory DataCommand
  record : Record
  raw : Nat
  packet : Word
  store : Option Store
  event : Bool
  terminal : Bool

/-- What the step of the model shows: `T` with the settled inputs. -/
structure Stepped (σ : Type) where
  raw : Nat
  state : σ
  packet : Word
  unchanged : Bool
  out : Dict

def stepModel (state : σ) (response : Dict) : Except String (Stepped σ) := do
  let raw ← pack response cfg.inputs
  let (state, packet, unchanged) ← device.step state raw
  let out ← unpack packet cfg.pins
  return ⟨raw, state, packet, unchanged, out⟩

section Fire

variable (settled : Settled) (stepped : Stepped σ)

/-- `i_fire`. -/
def instructionFire : Bool :=
  stepped.out.get cfg.instruction.valid ≠ 0 && settled.response.get cfg.instruction.ready ≠ 0

/-- `d_fire`. -/
def dataFire : Bool :=
  stepped.out.get cfg.data.valid ≠ 0 && settled.response.get cfg.data.ready ≠ 0

def eventFire : Bool := stepped.out.get cfg.eventValid ≠ 0

def terminalEvent : Bool := eventFire cfg stepped && stepped.out.get cfg.eventStop ≠ 0

/-- A transfer of the data channel writes. -/
def writeFire : Bool :=
  dataFire cfg settled stepped &&
    (stepped.out.get cfg.data.write ≠ 0 && settled.response.get cfg.data.fault = 0)

/-- The data memory after the transfer. -/
def storeData (data : List (BitVec 8)) : Except String (List (BitVec 8)) :=
  if writeFire cfg settled stepped then
    writeLanes cfg data (stepped.out.get cfg.data.address) (stepped.out.get cfg.data.writeData)
      (stepped.out.get cfg.data.mask)
  else .ok data

/-- The effects of a step on the memories, and its record. -/
def finishCycle (data : List (BitVec 8)) (instruction : PendingMemory Nat)
    (memory : PendingMemory DataCommand) (epoch cycle : Nat) : Except String (Tick σ) := do
  let data ← storeData cfg settled stepped data
  let instruction ← instruction.finish settled.icmd (instructionFire cfg settled stepped) cycle
    (terminalEvent cfg stepped && !instructionFire cfg settled stepped)
  let memory ← memory.finish settled.dcmd (dataFire cfg settled stepped) cycle false
  return {
    state := stepped.state
    data
    instruction
    memory
    record :=
      { cycle
        epoch
        reset := false
        outputs := stepped.out
        unchanged := stepped.unchanged
        environmentEvent := instructionFire cfg settled stepped ||
          (dataFire cfg settled stepped || eventFire cfg stepped) }
    raw := stepped.raw
    packet := stepped.packet
    store :=
      if writeFire cfg settled stepped then
        some ⟨cycle, stepped.out.get cfg.data.address, stepped.out.get cfg.data.mask,
          stepped.out.get cfg.data.writeData⟩
      else none
    event := eventFire cfg stepped
    terminal := terminalEvent cfg stepped }

end Fire

/-- A cycle without reset. -/
def tick (state : σ) (data : List (BitVec 8)) (instruction : PendingMemory Nat)
    (memory : PendingMemory DataCommand) (epoch cycle : Nat) : Except String (Tick σ) := do
  let settled ← settle device cfg state data (fun icmd => instruction.response icmd cycle)
    (fun dcmd => memory.response dcmd cycle) 8 []
  let stepped ← stepModel device cfg state settled.response
  finishCycle cfg settled stepped data instruction memory epoch cycle

/-- A cycle in `reset_at`. -/
def resetTick (state : σ) (data : List (BitVec 8)) (instruction : PendingMemory Nat)
    (memory : PendingMemory DataCommand) (epoch cycle : Nat) : Except String (Tick σ) := do
  let raw ← pack [] cfg.inputs
  let (state, packet, stable) ← device.reset state raw
  let instruction ← instruction.finish none false cycle true
  let memory ← memory.finish none false cycle true
  let outputs ← unpack packet cfg.pins
  return {
    state
    data
    instruction
    memory
    record :=
      { cycle, epoch, reset := true, outputs, unchanged := stable, environmentEvent := true }
    raw
    packet
    store := none
    event := false
    terminal := false }

/-! ## The loop -/

inductive Status where
  | timeout
  | eventStop
  deriving DecidableEq

structure Skip where
  afterCycle : Nat
  untilCycle : Nat
  idleCycles : Nat
  inputBits : Nat
  deriving DecidableEq

/-- The variables of the loop. -/
structure Run (σ : Type) where
  state : σ
  data : List (BitVec 8)
  instruction : PendingMemory Nat
  memory : PendingMemory DataCommand
  epoch : Nat
  cycle : Nat
  records : List Record
  events : List Record
  vectors : List Nat
  outputs : List Word
  stores : List Store
  skips : List Skip
  status : Status

/-- The run after what a cycle does, before the cycle number moves. -/
def Run.extend (run : Run σ) (t : Tick σ) : Run σ :=
  { run with
    state := t.state
    data := t.data
    instruction := t.instruction
    memory := t.memory
    records := run.records ++ [t.record]
    vectors := run.vectors ++ [t.raw]
    outputs := run.outputs ++ [t.packet]
    events := if t.event then run.events ++ [t.record] else run.events
    stores := run.stores ++ t.store.toList }

/-- The run after a reset. -/
def Run.restart (run : Run σ) (t : Tick σ) : Run σ :=
  { run.extend t with epoch := run.epoch + 1, cycle := run.cycle + 1 }

/-- The run after the event that stops it. -/
def Run.stop (run : Run σ) (t : Tick σ) : Run σ :=
  { run.extend t with status := .eventStop, cycle := run.cycle + 1 }

/-- The deadline of a memory that is still to come. -/
def deadlineAfter {κ : Type} (m : PendingMemory κ) (cycle : Nat) : List Nat :=
  match m.pending with
  | some (_, deadline) => if deadline > cycle then [deadline] else []
  | none => []

/-- The cycle that follows in functional mode on an unchanged cycle without an event. -/
def skipTarget (t : Tick σ) (cycle : Nat) : Nat :=
  (deadlineAfter t.instruction cycle ++ deadlineAfter t.memory cycle ++
    cfg.resetAt.filter fun n => n > cycle).foldr min cfg.maxCycles

/-- The cycle that follows. -/
def followingCycle (functional : Bool) (t : Tick σ) (cycle : Nat) : Nat :=
  if functional && t.record.unchanged && !t.record.environmentEvent then skipTarget cfg t cycle
  else cycle + 1

/-- The run at the following cycle, with the skip that led there. -/
def Run.advance (functional : Bool) (run : Run σ) (t : Tick σ) : Run σ :=
  let following := followingCycle cfg functional t run.cycle
  { run.extend t with
    cycle := following
    skips :=
      if functional && t.record.unchanged && !t.record.environmentEvent &&
          decide (following > run.cycle + 1) then
        run.skips ++ [⟨run.cycle, following, following - run.cycle - 1, t.raw⟩]
      else run.skips }

/-- Below the least of some numbers is below all of them. -/
theorem lt_foldr_min {bound last : Nat} {xs : List Nat} :
    bound < xs.foldr min last ↔ bound < last ∧ ∀ x ∈ xs, bound < x := by
  induction xs with
  | nil => simp
  | cons x xs ih =>
    rw [List.foldr_cons, Nat.lt_min, ih, List.forall_mem_cons]
    exact and_left_comm

theorem mem_deadlineAfter {κ : Type} {m : PendingMemory κ} {cycle deadline : Nat} :
    deadline ∈ deadlineAfter m cycle ↔
      cycle < deadline ∧ ∃ held, m.pending = some (held, deadline) := by
  unfold deadlineAfter
  cases hpending : m.pending with
  | none => simp
  | some pair =>
    obtain ⟨held, due⟩ := pair
    dsimp only
    by_cases hdue : due > cycle
    · rw [if_pos hdue]
      simp only [List.mem_singleton, Option.some.injEq, Prod.mk.injEq]
      exact ⟨fun heq => ⟨heq ▸ hdue, held, rfl, heq.symm⟩, fun ⟨_, _, _, heq⟩ => heq.symm⟩
    · rw [if_neg hdue]
      simp only [List.not_mem_nil, Option.some.injEq, Prod.mk.injEq, false_iff, not_and, not_exists]
      intro hlt held' _ heq
      exact hdue (heq ▸ hlt)

theorem lt_followingCycle (functional : Bool) (t : Tick σ) {cycle : Nat}
    (h : cycle < cfg.maxCycles) : cycle < followingCycle cfg functional t cycle := by
  unfold followingCycle
  split
  · refine lt_foldr_min.mpr ⟨h, fun x hx => ?_⟩
    rcases List.mem_append.mp hx with hdeadline | hreset
    · rcases List.mem_append.mp hdeadline with hi | hd
      · exact (mem_deadlineAfter.mp hi).1
      · exact (mem_deadlineAfter.mp hd).1
    · exact of_decide_eq_true (List.mem_filter.mp hreset).2
  · exact Nat.lt_succ_self cycle

/-- The `while` loop; in functional mode it skips. -/
def loop (functional : Bool) (run : Run σ) : Except String (Run σ) :=
  if _h : run.cycle < cfg.maxCycles then
    if run.cycle ∈ cfg.resetAt then
      match resetTick device cfg run.state run.data run.instruction run.memory run.epoch run.cycle
        with
      | .error message => .error message
      | .ok t => loop functional (run.restart t)
    else
      match tick device cfg run.state run.data run.instruction run.memory run.epoch run.cycle with
      | .error message => .error message
      | .ok t =>
        if t.terminal then .ok (run.stop t) else loop functional (run.advance cfg functional t)
  else .ok run
termination_by cfg.maxCycles - run.cycle
decreasing_by
  · have hcycle : (run.restart t).cycle = run.cycle + 1 := rfl
    omega
  · have hcycle : (run.advance cfg functional t).cycle =
        followingCycle cfg functional t run.cycle :=
      rfl
    have hlt := lt_followingCycle cfg functional t _h
    omega

/-- The variables before the loop. -/
def start (state : σ) : Except String (Run σ) := do
  let idleInputs ← pack [] cfg.inputs
  let state ← (List.range cfg.resetCycles).foldlM
    (fun state _ => (device.reset state idleInputs).map Prod.fst) state
  return {
    state
    data := cfg.image
    instruction := ⟨cfg.instructionLatency, none, 0, cfg.instructionLatency_ne⟩
    memory := ⟨cfg.dataLatency, none, 0, cfg.dataLatency_ne⟩
    epoch := 0
    cycle := 0
    records := []
    events := []
    vectors := []
    outputs := []
    stores := []
    skips := []
    status := .timeout }

/-- `run_memory`, from the state in which the model is started. -/
def runMemory (functional : Bool) (state : σ) : Except String (Run σ) := do
  let run ← start device cfg state
  loop device cfg functional run

end

end PyCircuit.MemoryRun
