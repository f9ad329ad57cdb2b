import PyCircuit.Memory.Detail

/-!
# The synchronous memory kernel

The template `sync_mem_kernel<T, ADDR_WIDTH, DEPTH, READ_PORTS>` of `sync_mem.h` with its output
pins: one write port and one or two read ports that show old data, and a response that expires after
two idle rising edges.

An array of the source is a function of its index, and the arrays over the read ports are one
function of the port. A wire is the state of its bits, so a payload is its packed value.
-/

set_option autoImplicit false

namespace PyCircuit.Memory.Sync

open PyCircuit.Lib

/-- The template arguments, with the assertions on them; the depth is a 32-bit parameter of the
Verilog modules. -/
structure Config where
  dataBits : Nat
  addrWidth : Nat
  depth : Nat
  readPorts : Nat
  dataBits_pos : 0 < dataBits
  addrWidth_pos : 0 < addrWidth
  depth_pos : 0 < depth
  depth_lt : depth < 2 ^ 32
  readPorts_eq : readPorts = 1 ∨ readPorts = 2

namespace Config

variable (cfg : Config)

/-- `STRB_WIDTH`. -/
def strbWidth : Nat := cfg.dataBits / 8 + if cfg.dataBits % 8 ≠ 0 then 1 else 0

/-- The name in the messages. -/
def name : String := if cfg.readPorts = 1 then "sync_mem" else "sync_mem_dp"

end Config

/-- The committed state of a read port. -/
structure Port (cfg : Config) where
  q : Bus cfg.dataBits
  live : Bool
  idle : BitVec 32

structure Current (cfg : Config) where
  memory : Fin cfg.depth → BitVec cfg.dataBits
  ports : Fin cfg.readPorts → Port cfg
  clock : Bool

/-- The proposal for a read port. -/
structure PortPending (cfg : Config) where
  q : Bus cfg.dataBits
  read : Bool
  invalidate : Bool
  idle : BitVec 32

structure Pending (cfg : Config) where
  ports : Fin cfg.readPorts → PortPending cfg
  data : BitVec cfg.dataBits
  address : Nat
  write : Bool
  clock : Bool
  valid : Bool

structure Inputs (cfg : Config) where
  clk : Logic
  rst : Logic
  ren : Fin cfg.readPorts → Logic
  raddr : Fin cfg.readPorts → Bus cfg.addrWidth
  wvalid : Logic
  waddr : Bus cfg.addrWidth
  wdata : Bus cfg.dataBits
  wstrb : Bus cfg.strbWidth

structure Outputs (cfg : Config) where
  rdata : Fin cfg.readPorts → Bus cfg.dataBits
  rlive : Fin cfg.readPorts → Logic

section Calls

variable {cfg : Config}

def discard (current : Current cfg) (pending : Pending cfg) : Pending cfg :=
  { pending with
    valid := false
    clock := current.clock
    write := false
    ports := fun port =>
      { pending.ports port with
        read := false, invalidate := false, idle := (current.ports port).idle } }

def invalidate (pending : Pending cfg) : Pending cfg :=
  { pending with
    ports := fun port =>
      { pending.ports port with invalidate := true, idle := 0#32, q := Bus.unknown } }

def reset (current : Current cfg) (pending : Pending cfg) : Pending cfg :=
  invalidate { discard current pending with valid := true, clock := false }

/-- The word at an index, and zero where there is none. -/
def entry (memory : Fin cfg.depth → BitVec cfg.dataBits) (address : Nat) : BitVec cfg.dataBits :=
  if h : address < cfg.depth then memory ⟨address, h⟩ else (BitVec.ofNat cfg.dataBits 0)

/-- The write part of `work` at a rising edge. -/
def stageWrite (current : Current cfg) (inputs : Inputs cfg) (pending : Pending cfg) :
    Except String (Pending cfg) :=
  if inputs.wvalid = .one then
    match inputs.waddr.toBitVec?, inputs.wdata.toBitVec?, inputs.wstrb.toBitVec? with
    | some waddr, some wdata, some wstrb =>
      let address := memoryIndex waddr
      if address < cfg.depth then
        .ok { pending with
          address
          data := memoryStrobe (entry current.memory address) wdata wstrb
          write := true }
      else .ok { pending with address }
    | _, _, _ => .error (cfg.name ++ " enabled write address/data/strobe must be known")
  else .ok pending

/-- The round of the read loop for a port. -/
def stagePort (current : Current cfg) (inputs : Inputs cfg) (port : Fin cfg.readPorts)
    (pending : PortPending cfg) : Except String (PortPending cfg) :=
  if inputs.ren port = .one then
    match (inputs.raddr port).toBitVec? with
    | none => .error (cfg.name ++ " enabled read address must be known")
    | some raddr =>
      .ok { pending with
        q := Bus.ofBitVec (entry current.memory (memoryIndex raddr)), read := true, idle := 0#32 }
  else if (current.ports port).live then
    let idle := pending.idle + 1#32
    if 2#32 ≤ idle then .ok { pending with idle, invalidate := true, q := Bus.unknown }
    else .ok { pending with idle }
  else .ok pending

/-- The write and the reads of `work` at a rising edge. -/
def stageEdge (current : Current cfg) (inputs : Inputs cfg) (pending : Pending cfg) :
    Except String (Pending cfg) := do
  let pending ← stageWrite current inputs pending
  let ports ← (List.finRange cfg.readPorts).foldlM
    (Loop.visit (stagePort current inputs)) pending.ports
  return { pending with ports }

/-- The body of the `try` block of `work`. -/
def propose (current : Current cfg) (inputs : Inputs cfg) (pending : Pending cfg) :
    Except String (Pending cfg) :=
  match inputs.clk.toBool? with
  | none => .error "memory clock must be known"
  | some clock =>
    let pending := { pending with clock, valid := true }
    if current.clock || !clock then .ok pending
    else
      match inputs.rst.toBool? with
      | none => .error (cfg.name ++ " reset must be known at posedge")
      | some true => .ok (invalidate pending)
      | some false =>
        if ¬ inputs.wvalid.Known ∨ ∃ port, ¬ (inputs.ren port).Known then
          .error (cfg.name ++ " controls must be known at posedge")
        else stageEdge current inputs pending

/-- The error that `work` throws, if any, and the proposal it leaves. A failed call leaves its words
and addresses behind in the source; nothing reads them without the flags that it clears. -/
def work (current : Current cfg) (inputs : Inputs cfg) (pending : Pending cfg) :
    Except String Unit × Pending cfg :=
  match propose current inputs (discard current pending) with
  | .ok pending => (.ok (), pending)
  | .error message => (.error message, discard current pending)

/-- What `xfer` makes of a read port. -/
def xferPort (current : Port cfg) (pending : PortPending cfg) : Port cfg :=
  if pending.read || pending.invalidate then
    { q := pending.q, live := pending.read, idle := pending.idle }
  else { current with idle := pending.idle }

/-- What `xfer` makes of the committed state. -/
def xferCurrent (current : Current cfg) (pending : Pending cfg) : Current cfg where
  clock := pending.clock
  memory := fun k =>
    if pending.write ∧ k.val = pending.address then pending.data else current.memory k
  ports := fun port => xferPort (current.ports port) (pending.ports port)

/-- What `xfer` drives on the pins of a read port. -/
def xferOutputs (current : Current cfg) (pending : Pending cfg) (outputs : Outputs cfg) :
    Outputs cfg where
  rdata := fun port =>
    if (pending.ports port).read || (pending.ports port).invalidate then (pending.ports port).q
    else outputs.rdata port
  rlive := fun port => .ofBool (xferPort (current.ports port) (pending.ports port)).live

/-! ### The parts of a rising edge -/

section Edge

variable {current : Current cfg} {inputs : Inputs cfg} {pending : Pending cfg}

theorem stageWrite_idle (h : inputs.wvalid = .zero) :
    stageWrite current inputs pending = .ok pending := by
  unfold stageWrite
  rw [h]
  rfl

theorem stageWrite_known {waddr : BitVec cfg.addrWidth} {wdata : BitVec cfg.dataBits}
    {wstrb : BitVec cfg.strbWidth} (h : inputs.wvalid = .one)
    (hwaddr : inputs.waddr = Bus.ofBitVec waddr) (hwdata : inputs.wdata = Bus.ofBitVec wdata)
    (hwstrb : inputs.wstrb = Bus.ofBitVec wstrb) :
    stageWrite current inputs pending =
      .ok (if memoryIndex waddr < cfg.depth then
        { pending with
          address := memoryIndex waddr
          data := memoryStrobe (entry current.memory (memoryIndex waddr)) wdata wstrb
          write := true }
      else { pending with address := memoryIndex waddr }) := by
  unfold stageWrite
  rw [if_pos h, hwaddr, hwdata, hwstrb, Bus.toBitVec?_ofBitVec, Bus.toBitVec?_ofBitVec,
    Bus.toBitVec?_ofBitVec]
  dsimp only
  split
  · rfl
  · rfl

theorem stageWrite_unknown (h : inputs.wvalid = .one)
    (hunknown : ¬ inputs.waddr.Known ∨ ¬ inputs.wdata.Known ∨ ¬ inputs.wstrb.Known) :
    stageWrite current inputs pending =
      .error (cfg.name ++ " enabled write address/data/strobe must be known") := by
  rw [← Bus.toBitVec?_eq_none, ← Bus.toBitVec?_eq_none, ← Bus.toBitVec?_eq_none] at hunknown
  unfold stageWrite
  rw [if_pos h]
  rcases hunknown with hnone | hnone | hnone
  · rw [hnone]
  · rw [hnone]
    cases inputs.waddr.toBitVec? <;> rfl
  · rw [hnone]
    cases inputs.waddr.toBitVec? <;> cases inputs.wdata.toBitVec? <;> rfl

theorem stagePort_unknown {port : Fin cfg.readPorts} (h : inputs.ren port = .one)
    (hunknown : ¬ (inputs.raddr port).Known) (pending : PortPending cfg) :
    stagePort current inputs port pending =
      .error (cfg.name ++ " enabled read address must be known") := by
  unfold stagePort
  rw [if_pos h, Bus.toBitVec?_eq_none.mpr hunknown]

/-- A port whose enabled read has a known address is staged. -/
theorem stagePort_ok {port : Fin cfg.readPorts}
    (h : inputs.ren port = .one → (inputs.raddr port).Known) (pending : PortPending cfg) :
    ∃ pending', stagePort current inputs port pending = .ok pending' := by
  unfold stagePort
  split
  · next hren =>
    rw [← Bus.ofBitVec_value (h hren), Bus.toBitVec?_ofBitVec]
    exact ⟨_, rfl⟩
  · split
    · dsimp only
      split
      · exact ⟨_, rfl⟩
      · exact ⟨_, rfl⟩
    · exact ⟨_, rfl⟩

/-- The enabled requests of an edge have known operands. -/
structure Inputs.Enabled (inputs : Inputs cfg) : Prop where
  write : inputs.wvalid = .one →
    inputs.waddr.Known ∧ inputs.wdata.Known ∧ inputs.wstrb.Known
  read : ∀ port, inputs.ren port = .one → (inputs.raddr port).Known

theorem stageWrite_ok (hwvalid : inputs.wvalid.Known)
    (h : inputs.wvalid = .one → inputs.waddr.Known ∧ inputs.wdata.Known ∧ inputs.wstrb.Known) :
    ∃ pending', stageWrite current inputs pending = .ok pending' ∧
      pending'.ports = pending.ports ∧ pending'.clock = pending.clock ∧
      pending'.valid = pending.valid := by
  rcases hwvalid with hzero | hone
  · exact ⟨pending, stageWrite_idle hzero, rfl, rfl, rfl⟩
  · obtain ⟨hwaddr, hwdata, hwstrb⟩ := h hone
    rw [stageWrite_known hone (Bus.ofBitVec_value hwaddr).symm (Bus.ofBitVec_value hwdata).symm
      (Bus.ofBitVec_value hwstrb).symm]
    split
    · exact ⟨_, rfl, rfl, rfl, rfl⟩
    · exact ⟨_, rfl, rfl, rfl, rfl⟩

/-- An edge with known operands stages its write and each of its reads. -/
theorem stageEdge_ok (hwvalid : inputs.wvalid.Known) (h : inputs.Enabled) :
    ∃ (staged : Pending cfg) (ports : Fin cfg.readPorts → PortPending cfg),
      stageWrite current inputs pending = .ok staged ∧
      (∀ port, stagePort current inputs port (pending.ports port) = .ok (ports port)) ∧
      stageEdge current inputs pending = .ok { staged with ports } ∧
      staged.clock = pending.clock ∧ staged.valid = pending.valid := by
  obtain ⟨staged, hstaged, hports, hclock, hvalid⟩ := stageWrite_ok hwvalid h.write
  choose ports hport using fun port => stagePort_ok (h.read port) (pending.ports port)
  refine ⟨staged, ports, hstaged, hport, ?_, hclock, hvalid⟩
  unfold stageEdge
  rw [hstaged]
  show ((List.finRange cfg.readPorts).foldlM (Loop.visit (stagePort current inputs))
    staged.ports >>=
    fun ports => pure { staged with ports }) = _
  rw [hports, Loop.finRange_ok hport]
  rfl

theorem stageEdge_error (hwvalid : inputs.wvalid.Known) (h : ¬ inputs.Enabled) :
    ∃ message, stageEdge current inputs pending = .error message := by
  unfold stageEdge
  by_cases hwrite : inputs.wvalid = .one →
      inputs.waddr.Known ∧ inputs.wdata.Known ∧ inputs.wstrb.Known
  · -- The write is staged, so some read is refused.
    obtain ⟨staged, hstaged, -⟩ := stageWrite_ok hwvalid hwrite
    obtain ⟨port, hren, hunknown⟩ :
        ∃ port, inputs.ren port = .one ∧ ¬ (inputs.raddr port).Known := by
      by_contra hnone
      refine h ⟨hwrite, fun port hren => ?_⟩
      by_contra hunknown
      exact hnone ⟨port, hren, hunknown⟩
    obtain ⟨message, -, hloop, -⟩ :=
      Loop.finRange_error ⟨_, stagePort_unknown hren hunknown (staged.ports port)⟩
    rw [hstaged]
    refine ⟨message, ?_⟩
    show ((List.finRange cfg.readPorts).foldlM (Loop.visit (stagePort current inputs)) staged.ports
      >>= fun ports => pure { staged with ports }) = _
    rw [hloop]
    rfl
  · obtain ⟨hone, hunknown⟩ := Classical.not_imp.mp hwrite
    rw [not_and_or, not_and_or] at hunknown
    rw [stageWrite_unknown hone hunknown]
    exact ⟨_, rfl⟩

end Edge

end Calls

/-! ## Runs -/

/-- The memory with its proposal and its output pins. -/
structure Leaf (cfg : Config) where
  current : Current cfg
  pending : Pending cfg
  outputs : Outputs cfg

namespace Leaf

variable {cfg : Config}

/-- The leaf after construction. -/
def start : Leaf cfg where
  current :=
    { memory := fun _ => (BitVec.ofNat cfg.dataBits 0),
      ports := fun _ => ⟨Bus.unknown, false, 0#32⟩,
      clock := false }
  pending :=
    { ports := fun _ => ⟨Bus.unknown, false, false, 0#32⟩, data := (BitVec.ofNat cfg.dataBits 0),
      address := 0,
      write := false, clock := false, valid := false }
  outputs := { rdata := fun _ => Bus.unknown, rlive := fun _ => .zero }

/-- `xfer`, and the `discard` at its end. -/
def xfer (leaf : Leaf cfg) : Leaf cfg :=
  if !leaf.pending.valid then leaf
  else
    let current := xferCurrent leaf.current leaf.pending
    { current
      pending := Sync.discard current leaf.pending
      outputs := xferOutputs leaf.current leaf.pending leaf.outputs }

/-- The leaf after a call. -/
def call (leaf : Leaf cfg) : Call (Inputs cfg) → Leaf cfg
  | .work inputs => { leaf with pending := (work leaf.current inputs leaf.pending).2 }
  | .xfer => leaf.xfer
  | .discard => { leaf with pending := Sync.discard leaf.current leaf.pending }
  | .reset => { leaf with pending := Sync.reset leaf.current leaf.pending }

/-- What a call throws. -/
def thrown (leaf : Leaf cfg) : Call (Inputs cfg) → Option String
  | .work inputs =>
    match (work leaf.current inputs leaf.pending).1 with
    | .ok _ => none
    | .error message => some message
  | _ => none

/-- The leaf after a sequence of calls. -/
def run (leaf : Leaf cfg) (calls : List (Call (Inputs cfg))) : Leaf cfg := calls.foldl call leaf

end Leaf

end PyCircuit.Memory.Sync
