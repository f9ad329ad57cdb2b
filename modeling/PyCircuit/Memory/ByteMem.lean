import PyCircuit.Memory.Detail

/-!
# The byte memory kernel

The template `byte_mem_kernel<T, ADDR_WIDTH, DEPTH>` of `byte_mem.h` with its output pin: a memory
of bytes with a combinational read of a whole payload and an edge-triggered write of its lanes.
`work` refreshes the pin `rdata`; no other call does.
-/

set_option autoImplicit false

namespace PyCircuit.Memory.Byte

open PyCircuit.Lib

/-- The template arguments, with the assertions on them. The payload has whole bytes, `strbWidth` of
them; the depth is a 32-bit parameter of the Verilog module. -/
structure Config where
  strbWidth : Nat
  addrWidth : Nat
  depth : Nat
  strbWidth_pos : 0 < strbWidth
  addrWidth_pos : 0 < addrWidth
  depth_pos : 0 < depth
  depth_lt : depth < 2 ^ 32

/-- `DATA_BITS`. -/
abbrev Config.dataBits (cfg : Config) : Nat := 8 * cfg.strbWidth

structure Current (cfg : Config) where
  memory : Fin cfg.depth → BitVec 8
  clock : Bool

structure Pending (cfg : Config) where
  bytes : Fin cfg.strbWidth → BitVec 8
  lanes : Fin cfg.strbWidth → Bool
  address : Nat
  clock : Bool
  valid : Bool

structure Inputs (cfg : Config) where
  clk : Logic
  rst : Logic
  raddr : Bus cfg.addrWidth
  wvalid : Logic
  waddr : Bus cfg.addrWidth
  wdata : Bus cfg.dataBits
  wstrb : Bus cfg.strbWidth

section Calls

variable {cfg : Config}

def discard (current : Current cfg) (pending : Pending cfg) : Pending cfg :=
  { pending with lanes := fun _ => false, valid := false, clock := current.clock }

def reset (current : Current cfg) (pending : Pending cfg) : Pending cfg :=
  { discard current pending with valid := true, clock := false }

def peekByteAt (current : Current cfg) (base lane : Nat) : BitVec 8 :=
  if h : base < cfg.depth ∧ lane < cfg.depth - base then
    current.memory ⟨base + lane, Nat.add_lt_of_lt_sub' h.2⟩
  else 0#8

/-- The loop of `read` over the lanes. -/
def readValue (current : Current cfg) (readBase : Nat) : BitVec cfg.dataBits :=
  (List.range cfg.strbWidth).foldl
    (fun value lane =>
      value ||| (peekByteAt current readBase lane).setWidth cfg.dataBits <<< (8 * lane))
    (BitVec.ofNat cfg.dataBits 0)

def read (current : Current cfg) (address : Bus cfg.addrWidth) : Bus cfg.dataBits :=
  match address.toBitVec? with
  | none => Bus.unknown
  | some address => Bus.ofBitVec (readValue current (memoryIndex address))

/-- The loop of `work` over the lanes of a write in the memory. -/
def stageLanes (address : Nat) (wdata : BitVec cfg.dataBits) (wstrb : BitVec cfg.strbWidth)
    (pending : Pending cfg) : Pending cfg :=
  let writes (lane : Fin cfg.strbWidth) : Bool :=
    decide (lane.val < cfg.depth - address) && wstrb.getLsbD lane
  { pending with
    bytes := fun lane =>
      if writes lane then wdata.extractLsb' (8 * lane) 8 else pending.bytes lane
    lanes := fun lane => writes lane || pending.lanes lane }

/-- The enabled write of `work`. -/
def stageWrite (inputs : Inputs cfg) (pending : Pending cfg) : Except String (Pending cfg) :=
  match inputs.waddr.toBitVec?, inputs.wdata.toBitVec?, inputs.wstrb.toBitVec? with
  | some waddr, some wdata, some wstrb =>
    let pending := { pending with address := memoryIndex waddr }
    if pending.address ≥ cfg.depth then .ok pending
    else .ok (stageLanes pending.address wdata wstrb pending)
  | _, _, _ => .error "byte_mem enabled write address/data/strobe must be known"

/-- The checks of `work` after the read. -/
def propose (current : Current cfg) (inputs : Inputs cfg) (pending : Pending cfg) :
    Except String (Pending cfg) :=
  match inputs.clk.toBool? with
  | none => .error "byte_mem clock must be known"
  | some clock =>
    let pending := { pending with clock, valid := true }
    if current.clock || !clock then .ok pending
    else
      match inputs.rst.toBool? with
      | none => .error "byte_mem reset must be known at posedge"
      | some true => .ok pending
      | some false =>
        match inputs.wvalid.toBool? with
        | none => .error "byte_mem write control must be known at posedge"
        | some false => .ok pending
        | some true => stageWrite inputs pending

/-- The error that `work` throws, if any, the proposal it leaves and the pin `rdata`. -/
def work (current : Current cfg) (inputs : Inputs cfg) (pending : Pending cfg)
    (rdata : Bus cfg.dataBits) : Except String Unit × Pending cfg × Bus cfg.dataBits :=
  if ¬ inputs.raddr.Known then
    (.error "byte_mem read address must be known", discard current pending, rdata)
  else
    let rdata := read current inputs.raddr
    match propose current inputs (discard current pending) with
    | .ok pending => (.ok (), pending, rdata)
    | .error message => (.error message, discard current pending, rdata)

/-- A `work` with a known read address. -/
theorem work_ok {current : Current cfg} {inputs : Inputs cfg} {pending pending' : Pending cfg}
    (hraddr : inputs.raddr.Known)
    (hok : propose current inputs (discard current pending) = .ok pending')
    (rdata : Bus cfg.dataBits) :
    work current inputs pending rdata = (.ok (), pending', read current inputs.raddr) := by
  unfold work
  rw [if_neg (not_not_intro hraddr), hok]

theorem work_error {current : Current cfg} {inputs : Inputs cfg} {pending : Pending cfg}
    {message : String} (hraddr : inputs.raddr.Known)
    (hbad : propose current inputs (discard current pending) = .error message)
    (rdata : Bus cfg.dataBits) :
    work current inputs pending rdata =
      (.error message, discard current pending, read current inputs.raddr) := by
  unfold work
  rw [if_neg (not_not_intro hraddr), hbad]

/-- An assignment to a byte of the memory. -/
def store (memory : Fin cfg.depth → BitVec 8) (address : Nat) (byte : BitVec 8) :
    Fin cfg.depth → BitVec 8 :=
  fun k => if k.val = address then byte else memory k

/-- What `xfer` makes of the committed state. -/
def xferCurrent (current : Current cfg) (pending : Pending cfg) : Current cfg where
  clock := pending.clock
  memory :=
    (List.finRange cfg.strbWidth).foldl
      (fun memory lane =>
        if pending.lanes lane then store memory (pending.address + lane) (pending.bytes lane)
        else memory)
      current.memory

section Write

variable {inputs : Inputs cfg} {pending : Pending cfg}

theorem stageWrite_outside {waddr : BitVec cfg.addrWidth}
    (hwaddr : inputs.waddr = Bus.ofBitVec waddr) (hwdata : inputs.wdata.Known)
    (hwstrb : inputs.wstrb.Known) (hout : cfg.depth ≤ memoryIndex waddr) :
    stageWrite inputs pending = .ok { pending with address := memoryIndex waddr } := by
  unfold stageWrite
  rw [hwaddr, Bus.toBitVec?_ofBitVec, ← Bus.ofBitVec_value hwdata, ← Bus.ofBitVec_value hwstrb,
    Bus.toBitVec?_ofBitVec, Bus.toBitVec?_ofBitVec]
  exact if_pos hout

theorem stageWrite_inside {waddr : BitVec cfg.addrWidth} {wdata : BitVec cfg.dataBits}
    {wstrb : BitVec cfg.strbWidth} (hwaddr : inputs.waddr = Bus.ofBitVec waddr)
    (hwdata : inputs.wdata = Bus.ofBitVec wdata) (hwstrb : inputs.wstrb = Bus.ofBitVec wstrb)
    (hin : ¬ cfg.depth ≤ memoryIndex waddr) :
    stageWrite inputs pending = .ok (stageLanes (memoryIndex waddr) wdata wstrb
      { pending with address := memoryIndex waddr }) := by
  unfold stageWrite
  rw [hwaddr, hwdata, hwstrb, Bus.toBitVec?_ofBitVec, Bus.toBitVec?_ofBitVec,
    Bus.toBitVec?_ofBitVec]
  exact if_neg hin

theorem stageWrite_unknown
    (hunknown : ¬ inputs.waddr.Known ∨ ¬ inputs.wdata.Known ∨ ¬ inputs.wstrb.Known) :
    stageWrite inputs pending =
      .error "byte_mem enabled write address/data/strobe must be known" := by
  rw [← Bus.toBitVec?_eq_none, ← Bus.toBitVec?_eq_none, ← Bus.toBitVec?_eq_none] at hunknown
  unfold stageWrite
  rcases hunknown with hnone | hnone | hnone
  · rw [hnone]
  · rw [hnone]
    cases inputs.waddr.toBitVec? <;> rfl
  · rw [hnone]
    cases inputs.waddr.toBitVec? <;> cases inputs.wdata.toBitVec? <;> rfl

end Write

/-- A bit of the payload that a read shows is a bit of the byte of its lane. -/
theorem getLsbD_readValue (current : Current cfg) (readBase : Nat) {i : Nat}
    (hi : i < cfg.dataBits) :
    (readValue current readBase).getLsbD i =
      (peekByteAt current readBase (i / 8)).getLsbD (i % 8) := by
  have hlast : i / 8 < cfg.strbWidth := by
    unfold Config.dataBits at hi
    omega
  rw [readValue, foldl_range_eq (BitVec.getLsbD · i) (i / 8)
    ((peekByteAt current readBase (i / 8)).getLsbD (i % 8)), decide_eq_true hlast, Bool.true_and,
    BitVec.getLsbD_zero, Bool.false_or]
  intro value lane
  rw [BitVec.getLsbD_or, BitVec.getLsbD_shiftLeft, BitVec.getLsbD_setWidth, decide_eq_true hi,
    Bool.true_and]
  congr 1
  by_cases hlane : i / 8 = lane
  · have hoffset : i - 8 * lane = i % 8 := by omega
    have hbelow : ¬ i < 8 * lane := by omega
    have hin : i % 8 < cfg.dataBits := Nat.lt_of_le_of_lt (Nat.mod_le i 8) hi
    rw [hoffset, hlane, decide_eq_true rfl, decide_eq_true hin, decide_eq_false hbelow]
    rfl
  · rw [decide_eq_false hlane, Bool.false_and]
    by_cases hbelow : i < 8 * lane
    · rw [decide_eq_true hbelow]
      rfl
    · rw [BitVec.getLsbD_of_ge _ (i - 8 * lane) (by omega), Bool.and_false, Bool.and_false]

end Calls

/-! ## Runs -/

/-- The memory with its proposal and its output pin. -/
structure Leaf (cfg : Config) where
  current : Current cfg
  pending : Pending cfg
  rdata : Bus cfg.dataBits

namespace Leaf

variable {cfg : Config}

/-- The leaf after construction. -/
def start : Leaf cfg where
  current := { memory := fun _ => 0#8, clock := false }
  pending :=
    { bytes := fun _ => 0#8, lanes := fun _ => false, address := 0, clock := false, valid := false }
  rdata := Bus.unknown

/-- `xfer`, and the `discard` at its end. -/
def xfer (leaf : Leaf cfg) : Leaf cfg :=
  if !leaf.pending.valid then leaf
  else
    let current := xferCurrent leaf.current leaf.pending
    { leaf with current, pending := Byte.discard current leaf.pending }

/-- The leaf after a call. -/
def call (leaf : Leaf cfg) : Call (Inputs cfg) → Leaf cfg
  | .work inputs =>
    let result := work leaf.current inputs leaf.pending leaf.rdata
    { leaf with pending := result.2.1, rdata := result.2.2 }
  | .xfer => leaf.xfer
  | .discard => { leaf with pending := Byte.discard leaf.current leaf.pending }
  | .reset => { leaf with pending := Byte.reset leaf.current leaf.pending }

/-- What a call throws. -/
def thrown (leaf : Leaf cfg) : Call (Inputs cfg) → Option String
  | .work inputs =>
    match (work leaf.current inputs leaf.pending leaf.rdata).1 with
    | .ok _ => none
    | .error message => some message
  | _ => none

/-- The leaf after a sequence of calls. -/
def run (leaf : Leaf cfg) (calls : List (Call (Inputs cfg))) : Leaf cfg := calls.foldl call leaf

end Leaf

end PyCircuit.Memory.Byte
