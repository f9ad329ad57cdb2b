import PyCircuit.Memory.ByteMemRtl
import PyCircuit.Memory.SyncMemRtl

/-!
# The Verilog memories and the memory kernels

After a committed reset, and with the same contents, a Verilog memory and its kernel stay in the
same state, command by command, and refuse the same requests (`memories_lock_step`). The synchronous
memories also drive the same pins. The byte memories do not: the Verilog read is continuous, and the
kernel refreshes its pin in `work` only, so a committed write shows at once on the one and with the
next `work` on the other (`byte_pins_differ`).
-/

set_option autoImplicit false

namespace PyCircuit.Memory

open PyCircuit.Lib

/-- The synchronous memories hold and show the same. -/
structure Sync.Rtl.Agree {cfg : Sync.Config} (s : Sync.Rtl.State cfg) (leaf : Sync.Leaf cfg) :
    Prop where
  contents : ∀ k, s.mem k = Bus.ofBitVec (leaf.current.memory k)
  rdata : ∀ port, s.rdata port = leaf.outputs.rdata port
  rlive : ∀ port, s.rlive port = leaf.outputs.rlive port
  clock : s.clockCurrent = .ofBool leaf.current.clock
  pending : s.pendingValid = leaf.pending.valid

/-- The byte memories hold the same, and the Verilog output is the read of the kernel. -/
structure Byte.Rtl.Agree {cfg : Byte.Config} (s : Byte.Rtl.State cfg) (leaf : Byte.Leaf cfg) :
    Prop where
  contents : ∀ k, s.mem k = Bus.ofBitVec (leaf.current.memory k)
  rdata : ∀ raddr, s.rdata raddr = Byte.read leaf.current raddr
  clock : s.clockCurrent = .ofBool leaf.current.clock
  pending : s.pendingValid = leaf.pending.valid

theorem Sync.Rtl.RtlRefines.agree {cfg : Sync.Config} {s : Sync.Rtl.State cfg}
    {leaf : Sync.Leaf cfg} (h : Sync.Rtl.RtlRefines s leaf) : Sync.Rtl.Agree s leaf := by
  refine ⟨h.holds.mem, ?_, ?_, h.clock, h.pending⟩
  · intro port
    rw [State.rdata, h.holds.read, h.rdata]
    rfl
  · intro port
    rw [State.rlive, h.holds.read, h.rlive]
    rfl

theorem Byte.Rtl.RtlRefines.agree {cfg : Byte.Config} {s : Byte.Rtl.State cfg}
    {leaf : Byte.Leaf cfg} (h : Byte.Rtl.RtlRefines s leaf) : Byte.Rtl.Agree s leaf :=
  ⟨h.holds, h.holds.rdata, h.clock, h.pending⟩

/-- What a `work` of the byte memory leaves on its pin. -/
theorem Byte.rdata_work {cfg : Byte.Config} (leaf : Byte.Leaf cfg) (pins : Byte.Inputs cfg) :
    (leaf.call (.work pins)).rdata =
      if pins.raddr.Known then Byte.read leaf.current pins.raddr else leaf.rdata := by
  show (Byte.work leaf.current pins leaf.pending leaf.rdata).2.2 = _
  unfold Byte.work
  by_cases hraddr : pins.raddr.Known
  · rw [if_neg (not_not_intro hraddr), if_pos hraddr]
    split
    · rfl
    · rfl
  · rw [if_pos hraddr, if_neg hraddr]

/-- A PREPARE leaves the memory alone. -/
theorem Byte.Rtl.rdata_prepare {cfg : Byte.Config} (s : Byte.Rtl.State cfg)
    (pins : Byte.Inputs cfg) (raddr : Bus cfg.addrWidth) :
    (s.prepare pins).rdata raddr = s.rdata raddr := by
  have hmem : (s.prepare pins).mem = s.mem := by
    unfold State.prepare
    dsimp only
    split
    · rfl
    · split
      · rfl
      · rfl
  unfold State.rdata State.byte
  rw [hmem]

/-- After a committed reset, with any contents and for every sequence of commands: the synchronous
memories hold the same contents and drive the same pins; the byte memories hold the same contents,
the Verilog output is what the kernel reads at the driven address, and the pin of the kernel is
refreshed to it by a `work` with a known read address and by nothing else. In both, a command raises
the error flag exactly when the kernel throws, and after a PREPARE the error output says so. -/
theorem memories_lock_step :
    (∀ (cfg : Sync.Config) (memory : Fin cfg.depth → BitVec cfg.dataBits) (s : Sync.Rtl.State cfg)
        (leaf : Sync.Leaf cfg) (commands : List (Command (Sync.Inputs cfg))),
      let rtl := ({ s with mem := fun k => Bus.ofBitVec (memory k) }.run
        [.reset, .commit .one]).run commands
      let kernel := ({ leaf with current := { leaf.current with memory } }.run
        [.reset, .xfer]).run (commands.map Command.call)
      Sync.Rtl.Agree rtl kernel ∧
      (∀ c, rtl.raises c = (kernel.thrown c.call).isSome) ∧
      ∀ pins, (rtl.command (.prepare pins)).localError =
        (kernel.thrown (.work pins)).isSome) ∧
    (∀ (cfg : Byte.Config) (memory : Fin cfg.depth → BitVec 8) (s : Byte.Rtl.State cfg)
        (leaf : Byte.Leaf cfg) (commands : List (Command (Byte.Inputs cfg))),
      let rtl := ({ s with mem := fun k => Bus.ofBitVec (memory k) }.run
        [.reset, .commit .one]).run commands
      let kernel := ({ leaf with current := { leaf.current with memory } }.run
        [.reset, .xfer]).run (commands.map Command.call)
      Byte.Rtl.Agree rtl kernel ∧
      (∀ pins, (kernel.call (.work pins)).rdata =
        if pins.raddr.Known then (rtl.command (.prepare pins)).rdata pins.raddr
        else kernel.rdata) ∧
      ((kernel.call .xfer).rdata = kernel.rdata ∧ (kernel.call .discard).rdata = kernel.rdata ∧
        (kernel.call .reset).rdata = kernel.rdata) ∧
      (∀ c, rtl.raises c = (kernel.thrown c.call).isSome) ∧
      ∀ pins, (rtl.command (.prepare pins)).localError =
        (kernel.thrown (.work pins)).isSome) := by
  constructor
  · intro cfg memory s leaf commands rtl kernel
    have h : Sync.Rtl.RtlRefines rtl kernel :=
      (Sync.Rtl.refines_of_reset fun _ => rfl).run commands
    exact ⟨h.agree, h.raises, fun pins => (h.prepare_errors pins).2⟩
  · intro cfg memory s leaf commands rtl kernel
    have h : Byte.Rtl.RtlRefines rtl kernel :=
      (Byte.Rtl.refines_of_reset fun _ => rfl).run commands
    refine ⟨h.agree, ?_, ⟨?_, rfl, rfl⟩, h.raises, fun pins => (h.prepare_errors pins).2⟩
    · intro pins
      rw [Byte.rdata_work]
      show _ = if pins.raddr.Known then (rtl.prepare pins).rdata pins.raddr else kernel.rdata
      rw [Byte.Rtl.rdata_prepare, h.holds.rdata]
    · show kernel.xfer.rdata = kernel.rdata
      unfold Byte.Leaf.xfer
      split
      · rfl
      · rfl

/-- One byte. -/
def byteConfig : Byte.Config where
  strbWidth := 1
  addrWidth := 1
  depth := 1
  strbWidth_pos := by decide
  addrWidth_pos := by decide
  depth_pos := by decide
  depth_lt := by decide

/-- A rising edge that reads and writes the byte. -/
def writeByte : Byte.Inputs byteConfig where
  clk := .one
  rst := .zero
  raddr := fun _ => .zero
  wvalid := .one
  waddr := fun _ => .zero
  wdata := fun _ => .one
  wstrb := fun _ => .one

/-- From construction and a committed reset, the pins of the byte memories differ after a write is
committed, and after a `work` with an unknown read address. -/
theorem byte_pins_differ :
    let rtl := (Byte.Rtl.State.start : Byte.Rtl.State byteConfig).run [.reset, .commit .one]
    let kernel := (Byte.Leaf.start : Byte.Leaf byteConfig).run [.reset, .xfer]
    ((rtl.run [.prepare writeByte, .commit .one]).rdata writeByte.raddr ≠
      (kernel.run [.work writeByte, .xfer]).rdata) ∧
    (rtl.run [.prepare writeByte, .prepare { writeByte with raddr := Bus.unknown }]).rdata
        Bus.unknown ≠
      (kernel.run [.work writeByte, .work { writeByte with raddr := Bus.unknown }]).rdata := by
  refine ⟨fun h => ?_, fun h => ?_⟩
  · exact absurd (congrFun h ⟨0, by decide⟩) (by decide)
  · exact absurd (congrFun h ⟨0, by decide⟩) (by decide)

end PyCircuit.Memory
