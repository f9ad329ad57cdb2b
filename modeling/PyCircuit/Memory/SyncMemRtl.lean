import Mathlib.Data.Nat.Log
import PyCircuit.Memory.SyncMem

/-!
# The Verilog synchronous memories

The modules `sync_mem` and `sync_mem_dp` in managed mode, for one and two read ports. An `if` of the
source takes its branch only when the condition is one. A read of a memory with an unknown index, or
outside of it, is unknown, and such a write is lost. The assignments of a COMMIT read the state
before it. `RtlRefines` relates the module to the kernel register by register.
-/

set_option autoImplicit false

namespace PyCircuit.Memory.Sync.Rtl

open PyCircuit.Lib PyCircuit.Memory

/-- `ADDR_BITS`. -/
def addrBits (cfg : Config) : Nat := if cfg.depth ≤ 1 then 1 else Nat.clog 2 cfg.depth

/-- `COMPARE_WIDTH`. -/
def compareWidth (cfg : Config) : Nat := if cfg.addrWidth > 32 then cfg.addrWidth else 32

/-- `read_candidate_t`. -/
structure ReadCandidate (cfg : Config) where
  q : Bus cfg.dataBits
  idle : BitVec 32
  live : Logic

structure State (cfg : Config) where
  mem : Fin cfg.depth → Bus cfg.dataBits
  writeCandidateBits : Bus cfg.dataBits
  writeCandidateEnable : Bus cfg.dataBits
  writeCandidateIndex : Bus (addrBits cfg)
  writeCandidateValid : Logic
  /-- `rdata_current`, `idle_current` and `live_current` of each read port. -/
  read : Fin cfg.readPorts → ReadCandidate cfg
  readCandidate : Fin cfg.readPorts → ReadCandidate cfg
  clockCurrent : Logic
  clockPending : Logic
  pendingValid : Bool
  preparationError : Bool

section

variable {cfg : Config}

/-! ## Outputs -/

def State.rdata (s : State cfg) (port : Fin cfg.readPorts) : Bus cfg.dataBits := (s.read port).q

def State.rlive (s : State cfg) (port : Fin cfg.readPorts) : Logic := (s.read port).live

/-- `pyc_local_error`. -/
def State.localError (s : State cfg) : Bool := s.preparationError || !s.pendingValid

/-! ## Transitions -/

/-- `mem[index]`. -/
def State.word (s : State cfg) (index : Bus (addrBits cfg)) : Bus cfg.dataBits :=
  match index.toBitVec? with
  | some k => if h : k.toNat < cfg.depth then s.mem ⟨k.toNat, h⟩ else Bus.unknown
  | none => Bus.unknown

def State.readEntry (s : State cfg) (address : Bus cfg.addrWidth) : Bus cfg.dataBits :=
  if (address.resize (compareWidth cfg)).ltNat cfg.depth = .one then
    s.word (address.resize (addrBits cfg))
  else Bus.ofBitVec (BitVec.ofNat cfg.dataBits 0)

def nextRead (current : ReadCandidate cfg) (rising reset enabled : Logic)
    (oldEntry : Bus cfg.dataBits) : ReadCandidate cfg :=
  if rising = .one then
    if reset = .one then { q := Bus.unknown, idle := 0#32, live := .zero }
    else if enabled = .one then { q := oldEntry, idle := 0#32, live := .one }
    else if current.live = .one then
      let idle := current.idle + 1#32
      if 2#32 ≤ idle then { q := Bus.unknown, idle, live := .zero } else { current with idle }
    else current
  else current

/-- The disjunction of the bits of `edge_control_error`. -/
def edgeControlError (rising : Logic) (pins : Inputs cfg) : Bool :=
  if rising = .one then
    if ¬ pins.rst.Known then true
    else if pins.rst.not = .one then
      decide ((∃ port, ¬ (pins.ren port).Known) ∨ ¬ pins.wvalid.Known) ||
      decide (∃ port, pins.ren port = .one ∧ ¬ (pins.raddr port).Known) ||
      decide (pins.wvalid = .one ∧ (¬ pins.waddr.Known ∨ ¬ pins.wdata.Known ∨ ¬ pins.wstrb.Known))
    else false
  else false

theorem lane_lt (i : Fin cfg.dataBits) : i.val / 8 < cfg.strbWidth := by
  have hi := i.isLt
  unfold Config.strbWidth
  split
  · omega
  · omega

/-- `prepare_transition`; the pins of the clock are replaced by `rising` and `reset`. -/
def State.prepareTransition (s : State cfg) (rising reset : Logic) (pins : Inputs cfg) :
    State cfg :=
  let fullWriteAddress := pins.waddr.resize (compareWidth cfg)
  let writes :=
    ((rising.and reset.not).and pins.wvalid).and (fullWriteAddress.ltNat cfg.depth)
  { s with
    writeCandidateBits := pins.wdata
    writeCandidateEnable :=
      if writes = .one then fun i => pins.wstrb ⟨i.val / 8, lane_lt i⟩ else fun _ => .zero
    writeCandidateIndex :=
      if writes = .one then pins.waddr.resize (addrBits cfg) else fun _ => .zero
    writeCandidateValid := if writes = .one then .one else .zero
    readCandidate := fun port =>
      let oldEntry :=
        if rising = .one then
          if reset = .one then Bus.ofBitVec (BitVec.ofNat cfg.dataBits 0)
          else if pins.ren port = .one then s.readEntry (pins.raddr port)
          else Bus.ofBitVec (BitVec.ofNat cfg.dataBits 0)
        else Bus.ofBitVec (BitVec.ofNat cfg.dataBits 0)
      nextRead (s.read port) rising reset (pins.ren port) oldEntry }

/-- `commit_transition`. -/
def State.commitTransition (s : State cfg) : State cfg :=
  { s with
    mem := fun k =>
      if s.writeCandidateValid = .one ∧
          s.writeCandidateIndex.toBitVec?.map BitVec.toNat = some k.val then
        fun i => if s.writeCandidateEnable i = .one then s.writeCandidateBits i else s.mem k i
      else s.mem k
    read := s.readCandidate }

/-! ## Commands -/

/-- The arguments of the preparations that do not look at the pins. -/
def idlePins : Inputs cfg where
  clk := .zero
  rst := .zero
  ren := fun _ => .zero
  raddr := fun _ => Bus.ofBitVec (BitVec.ofNat cfg.addrWidth 0)
  wvalid := .zero
  waddr := Bus.ofBitVec (BitVec.ofNat cfg.addrWidth 0)
  wdata := Bus.ofBitVec (BitVec.ofNat cfg.dataBits 0)
  wstrb := Bus.ofBitVec (BitVec.ofNat cfg.strbWidth 0)

/-- The PREPARE branch. -/
def State.prepare (s : State cfg) (pins : Inputs cfg) : State cfg :=
  let s :=
    ({ s with
      pendingValid := false, preparationError := false, clockPending := s.clockCurrent }
        ).prepareTransition .zero .zero idlePins
  if ¬ pins.clk.Known then { s with preparationError := true }
  else
    let rising := s.clockCurrent.not.and pins.clk
    let preparationError := edgeControlError rising pins
    if preparationError then { s with preparationError }
    else
      { s.prepareTransition rising pins.rst pins with
        clockPending := pins.clk, pendingValid := true }

/-- The COMMIT branch. -/
def State.commit (s : State cfg) (rootCommitOk : Logic) : State cfg :=
  let s :=
    if s.pendingValid ∧ rootCommitOk = .one then
      { s.commitTransition with clockCurrent := s.clockPending }
    else s
  { s with pendingValid := false }

/-- The state after a command. -/
def State.command (s : State cfg) : Command (Inputs cfg) → State cfg
  | .prepare pins => s.prepare pins
  | .commit rootCommitOk => s.commit rootCommitOk
  | .discard =>
    { s with
      writeCandidateValid := .zero, writeCandidateEnable := fun _ => .zero,
      pendingValid := false, preparationError := false }
  | .reset =>
    { s.prepareTransition .one .one idlePins with
      clockPending := .zero, preparationError := false, pendingValid := true }

/-- The command raises the error flag. -/
def State.raises (s : State cfg) (c : Command (Inputs cfg)) : Bool :=
  match c with
  | .prepare _ => (s.command c).preparationError
  | _ => (s.command c).preparationError && !s.preparationError

/-- The state after a sequence of commands. -/
def State.run (s : State cfg) (commands : List (Command (Inputs cfg))) : State cfg :=
  commands.foldl State.command s

/-! ## The relation to the kernel -/

/-- The registers of a read port of the kernel. -/
def readOf (port : Port cfg) : ReadCandidate cfg := ⟨port.q, port.idle, .ofBool port.live⟩

/-- The registers and the memory are those of the kernel. -/
structure Holds (s : State cfg) (current : Current cfg) : Prop where
  mem : ∀ k, s.mem k = Bus.ofBitVec (current.memory k)
  read : ∀ port, s.read port = readOf (current.ports port)

section

variable {s : State cfg} {current : Current cfg}

/-- The full address decides. -/
theorem inRange_iff (address : BitVec cfg.addrWidth) :
    ((Bus.ofBitVec address).resize (compareWidth cfg)).ltNat cfg.depth = .one ↔
      address.toNat < cfg.depth := by
  have hwidth : cfg.addrWidth ≤ compareWidth cfg := by
    unfold compareWidth
    split
    · exact Nat.le_refl _
    · omega
  rw [Bus.resize_ofBitVec, Bus.ltNat_ofBitVec, BitVec.toNat_setWidth,
    Nat.mod_eq_of_lt (Nat.lt_of_lt_of_le address.isLt (Nat.pow_le_pow_right (by decide) hwidth)),
    Logic.ofBool_eq_one, decide_eq_true_iff]

/-- The low bits of an address in the memory are the address. -/
theorem toNat_index {address : BitVec cfg.addrWidth} (h : address.toNat < cfg.depth) :
    (address.setWidth (addrBits cfg)).toNat = address.toNat := by
  have hdepth : cfg.depth ≤ 2 ^ addrBits cfg := by
    unfold addrBits
    split
    · omega
    · exact Nat.le_pow_clog (by decide) _
  rw [BitVec.toNat_setWidth, Nat.mod_eq_of_lt (Nat.lt_of_lt_of_le h hdepth)]

theorem Holds.readEntry (h : Holds s current) (address : BitVec cfg.addrWidth) :
    s.readEntry (Bus.ofBitVec address) =
      Bus.ofBitVec (entry current.memory (memoryIndex address)) := by
  unfold State.readEntry entry
  by_cases hin : address.toNat < cfg.depth
  · have hlt := (memoryIndex_lt cfg.depth_lt address).mpr hin
    have hindex : (address.setWidth (addrBits cfg)).toNat < cfg.depth := by
      rw [toNat_index hin]
      exact hin
    have hsame : (⟨(address.setWidth (addrBits cfg)).toNat, hindex⟩ : Fin cfg.depth) =
        ⟨memoryIndex address, hlt⟩ :=
      Fin.ext ((toNat_index hin).trans (memoryIndex_of_lt cfg.depth_lt hin).symm)
    rw [if_pos ((inRange_iff address).mpr hin), State.word, Bus.resize_ofBitVec,
      Bus.toBitVec?_ofBitVec]
    dsimp only
    rw [dif_pos hindex, dif_pos hlt, h.mem, hsame]
  · rw [if_neg (fun hone => hin ((inRange_iff address).mp hone)),
      dif_neg fun hlt => hin ((memoryIndex_lt cfg.depth_lt address).mp hlt)]

/-- The state that the commit of a prepared transition leads to. -/
def State.after (s : State cfg) (rising reset : Logic) (pins : Inputs cfg) : State cfg :=
  (s.prepareTransition rising reset pins).commitTransition

variable {pins : Inputs cfg} {pending : Pending cfg}

/-- Without a write candidate the memory stays. -/
theorem after_mem_of_ne {rising reset : Logic}
    (h : ((rising.and reset.not).and pins.wvalid).and
      ((pins.waddr.resize (compareWidth cfg)).ltNat cfg.depth) ≠ .one) :
    (s.after rising reset pins).mem = s.mem := by
  funext k
  have hvalid : (s.prepareTransition rising reset pins).writeCandidateValid = .zero := if_neg h
  refine if_neg fun hboth => ?_
  rw [hvalid] at hboth
  cases hboth.1

/-- Without a rising edge nothing changes. -/
theorem Holds.after_hold (h : Holds s current) (reset : Logic) (pins : Inputs cfg) :
    Holds (s.after .zero reset pins) current := by
  constructor
  · intro k
    rw [after_mem_of_ne (by simp only [Logic.zero_and]; exact nofun)]
    exact h.mem k
  · exact h.read

/-- A reset invalidates the responses and keeps the memory. -/
theorem after_reset (hmem : ∀ k, s.mem k = Bus.ofBitVec (current.memory k))
    (pending : Pending cfg) (pins : Inputs cfg) (clock : Bool) :
    Holds (s.after .one .one pins)
      (xferCurrent current
        (invalidate { discard current pending with clock, valid := true })) := by
  constructor
  · intro k
    rw [after_mem_of_ne (by
      show (Logic.zero.and pins.wvalid).and _ ≠ .one
      exact nofun)]
    exact hmem k
  · intro port
    rfl

/-- The committed write of an edge is that of the kernel. -/
theorem Holds.after_write (h : Holds s current) {waddr : BitVec cfg.addrWidth}
    {wdata : BitVec cfg.dataBits} {wstrb : BitVec cfg.strbWidth} (hwvalid : pins.wvalid = .one)
    (hwaddr : pins.waddr = Bus.ofBitVec waddr) (hwdata : pins.wdata = Bus.ofBitVec wdata)
    (hwstrb : pins.wstrb = Bus.ofBitVec wstrb) (k : Fin cfg.depth) :
    (s.after .one .zero pins).mem k =
      Bus.ofBitVec (if k.val = waddr.toNat then memoryStrobe (current.memory k) wdata wstrb
        else current.memory k) := by
  have hwrites : ((Logic.one.and Logic.zero.not).and pins.wvalid).and
      ((pins.waddr.resize (compareWidth cfg)).ltNat cfg.depth) =
      (pins.waddr.resize (compareWidth cfg)).ltNat cfg.depth := by
    rw [hwvalid, hwaddr, Bus.resize_ofBitVec, Bus.ltNat_ofBitVec]
    exact Logic.and_ofBool true _
  by_cases hin : waddr.toNat < cfg.depth
  · have hone : ((Logic.one.and Logic.zero.not).and pins.wvalid).and
        ((pins.waddr.resize (compareWidth cfg)).ltNat cfg.depth) = .one := by
      rw [hwrites, hwaddr]
      exact (inRange_iff waddr).mpr hin
    have hvalid : (s.prepareTransition .one .zero pins).writeCandidateValid = .one := if_pos hone
    have hindex : (s.prepareTransition .one .zero pins).writeCandidateIndex =
        Bus.ofBitVec (waddr.setWidth (addrBits cfg)) := by
      refine (if_pos hone).trans ?_
      rw [hwaddr, Bus.resize_ofBitVec]
    have henable : ∀ i, (s.prepareTransition .one .zero pins).writeCandidateEnable i =
        .ofBool (wstrb.getLsbD (i.val / 8)) := by
      intro i
      refine (congrFun (if_pos hone) i).trans ?_
      rw [hwstrb]
      rfl
    have hselected : ((s.prepareTransition .one .zero pins).writeCandidateValid = .one ∧
        (s.prepareTransition .one .zero pins).writeCandidateIndex.toBitVec?.map BitVec.toNat =
          some k.val) ↔ k.val = waddr.toNat := by
      rw [hvalid, hindex, Bus.toBitVec?_ofBitVec, Option.map_some, toNat_index hin]
      exact ⟨fun hboth => (Option.some.inj hboth.2).symm, fun hk => ⟨rfl, congrArg some hk.symm⟩⟩
    by_cases hk : k.val = waddr.toNat
    · refine (if_pos (hselected.mpr hk)).trans ?_
      rw [if_pos hk]
      funext i
      show (if (s.prepareTransition .one .zero pins).writeCandidateEnable i = .one then pins.wdata i
        else s.mem k i) = .ofBool ((memoryStrobe (current.memory k) wdata wstrb).getLsbD i)
      rw [henable, getLsbD_memoryStrobe _ _ _ i.isLt, hwdata, h.mem]
      cases wstrb.getLsbD (i.val / 8) <;> rfl
    · refine (if_neg fun hboth => hk (hselected.mp hboth)).trans ?_
      rw [if_neg hk]
      exact h.mem k
  · have hk : k.val ≠ waddr.toNat := fun heq => hin (heq ▸ k.isLt)
    rw [after_mem_of_ne (fun hone => hin ((inRange_iff waddr).mp (by
      rw [← hwaddr, ← hwrites]
      exact hone))), if_neg hk]
    exact h.mem k

/-- The response of a read port after an edge is that of the kernel. -/
theorem Holds.after_read (h : Holds s current) {port : Fin cfg.readPorts}
    {pending' : PortPending cfg}
    (hstage : stagePort current pins port ((discard current pending).ports port) = .ok pending') :
    (s.after .one .zero pins).read port = readOf (xferPort (current.ports port) pending') := by
  have hread : (s.after .one .zero pins).read port =
      nextRead (readOf (current.ports port)) .one .zero (pins.ren port)
        (if pins.ren port = .one then s.readEntry (pins.raddr port)
          else Bus.ofBitVec (BitVec.ofNat cfg.dataBits 0)) := by
    rw [← h.read]
    rfl
  unfold stagePort at hstage
  by_cases hren : pins.ren port = .one
  · rw [if_pos hren] at hstage
    rw [hread, if_pos hren, hren]
    cases hraddr : (pins.raddr port).toBitVec? with
    | none =>
      rw [hraddr] at hstage
      cases hstage
    | some raddr =>
      rw [hraddr] at hstage
      obtain rfl := Except.ok.inj hstage
      rw [Bus.toBitVec?_eq_some.mp hraddr, h.readEntry]
      rfl
  · rw [if_neg hren] at hstage
    rw [hread]
    unfold nextRead
    rw [if_pos rfl, if_neg nofun, if_neg hren]
    cases hlive : (current.ports port).live with
    | false =>
      rw [hlive, if_neg Bool.false_ne_true] at hstage
      obtain rfl := Except.ok.inj hstage
      rw [if_neg (by rw [readOf, hlive]; exact nofun)]
      rfl
    | true =>
      rw [hlive, if_pos rfl] at hstage
      rw [if_pos (by rw [readOf, hlive]; rfl)]
      by_cases hexpired : 2#32 ≤ (current.ports port).idle + 1#32
      · obtain rfl := Except.ok.inj ((if_pos hexpired).symm.trans hstage)
        exact if_pos hexpired
      · obtain rfl := Except.ok.inj ((if_neg hexpired).symm.trans hstage)
        exact if_neg hexpired

/-! ## The commands -/

/-- The state in which a PREPARE computes the candidates. -/
def State.sampled (s : State cfg) : State cfg :=
  ({ s with
    pendingValid := false, preparationError := false, clockPending := s.clockCurrent }
      ).prepareTransition .zero .zero idlePins

theorem prepare_error {rising : Logic} (hrising : s.clockCurrent.not.and pins.clk = rising)
    (herror : ¬ pins.clk.Known ∨ (pins.clk.Known ∧ edgeControlError rising pins = true)) :
    s.prepare pins = { s.sampled with preparationError := true } := by
  rcases herror with hclk | ⟨hclk, hcontrol⟩
  · exact if_pos hclk
  · subst hrising
    refine (if_neg (not_not_intro hclk)).trans ((if_pos hcontrol).trans ?_)
    exact congrArg (fun preparationError => { s.sampled with preparationError }) hcontrol

theorem prepare_ok {rising : Logic} (hrising : s.clockCurrent.not.and pins.clk = rising)
    (hclk : pins.clk.Known) (hcontrol : edgeControlError rising pins = false) :
    s.prepare pins =
      { s.sampled.prepareTransition rising pins.rst pins with
        clockPending := pins.clk, pendingValid := true } := by
  subst hrising
  refine (if_neg (not_not_intro hclk)).trans (if_neg fun hraised => ?_)
  exact absurd (hcontrol.symm.trans hraised) Bool.false_ne_true

/-- The checks of an edge without reset. -/
theorem edgeControlError_edge (hrst : pins.rst = .zero) :
    edgeControlError .one pins = false ↔
      ¬ (¬ pins.wvalid.Known ∨ ∃ port, ¬ (pins.ren port).Known) ∧ pins.Enabled := by
  have hknown : ¬ ¬ pins.rst.Known := not_not_intro (Or.inl hrst)
  have hnot : pins.rst.not = .one := by
    rw [hrst]
    rfl
  have henabled : pins.Enabled ↔
      ¬ (∃ port, pins.ren port = .one ∧ ¬ (pins.raddr port).Known) ∧
      ¬ (pins.wvalid = .one ∧ (¬ pins.waddr.Known ∨ ¬ pins.wdata.Known ∨ ¬ pins.wstrb.Known)) := by
    rw [← not_and_or, ← not_and_or, not_and, not_not]
    constructor
    · rintro ⟨hwrite, hread⟩
      exact ⟨fun ⟨port, hren, hunknown⟩ => hunknown (hread port hren), hwrite⟩
    · rintro ⟨hread, hwrite⟩
      refine ⟨hwrite, fun port hren => ?_⟩
      by_contra hunknown
      exact hread ⟨port, hren, hunknown⟩
  unfold edgeControlError
  rw [if_pos rfl, if_neg hknown, if_pos hnot, Bool.or_eq_false_iff, Bool.or_eq_false_iff,
    decide_eq_false_iff_not, decide_eq_false_iff_not, decide_eq_false_iff_not, henabled, and_assoc,
    or_comm]

/-- What the kernel stages at an edge without reset is what the module commits. -/
theorem Holds.after_edge (h : Holds s current) (pending : Pending cfg)
    (hwvalid : pins.wvalid.Known) (henabled : pins.Enabled) (clock : Bool) :
    ∃ pending',
      stageEdge current pins { discard current pending with clock, valid := true } = .ok pending' ∧
      pending'.clock = clock ∧ pending'.valid = true ∧
      Holds (s.after .one .zero pins) (xferCurrent current pending') := by
  obtain ⟨staged, ports, hstaged, hports, hedge, hclock, hvalid⟩ :
      ∃ (staged : Pending cfg) (ports : Fin cfg.readPorts → PortPending cfg),
        stageWrite current pins { discard current pending with clock, valid := true } =
          .ok staged ∧ _ := stageEdge_ok hwvalid henabled
  refine ⟨_, hedge, hclock, hvalid, ?_, fun port => h.after_read (hports port)⟩
  intro k
  rcases hwvalid with hzero | hone
  · obtain rfl := Except.ok.inj ((stageWrite_idle hzero).symm.trans hstaged)
    rw [after_mem_of_ne (by
      rw [hzero]
      show (Logic.zero.and _) ≠ .one
      exact nofun), h.mem]
    rfl
  · obtain ⟨hwaddr, hwdata, hwstrb⟩ := henabled.write hone
    have hwaddr := (Bus.ofBitVec_value hwaddr).symm
    have hwdata := (Bus.ofBitVec_value hwdata).symm
    have hwstrb := (Bus.ofBitVec_value hwstrb).symm
    rw [stageWrite_known hone hwaddr hwdata hwstrb] at hstaged
    rw [h.after_write hone hwaddr hwdata hwstrb]
    by_cases hin : memoryIndex pins.waddr.value < cfg.depth
    · have hindex : memoryIndex pins.waddr.value = pins.waddr.value.toNat :=
        memoryIndex_of_lt cfg.depth_lt ((memoryIndex_lt cfg.depth_lt _).mp hin)
      rw [if_pos hin] at hstaged
      obtain rfl := Except.ok.inj hstaged
      show _ = Bus.ofBitVec (if true = true ∧ k.val = memoryIndex pins.waddr.value then
        memoryStrobe (entry current.memory (memoryIndex pins.waddr.value)) _ _
        else current.memory k)
      rw [hindex] at hin ⊢
      by_cases hk : k.val = pins.waddr.value.toNat
      · have hentry : entry current.memory pins.waddr.value.toNat = current.memory k :=
          (dif_pos hin).trans (congrArg current.memory (Fin.ext hk.symm))
        rw [if_pos hk, if_pos ⟨rfl, hk⟩, hentry]
      · rw [if_neg hk, if_neg fun hboth => hk hboth.2]
    · have hk : k.val ≠ pins.waddr.value.toNat := fun heq =>
        hin ((memoryIndex_lt cfg.depth_lt _).mpr (heq ▸ k.isLt))
      rw [if_neg hin] at hstaged
      obtain rfl := Except.ok.inj hstaged
      rw [if_neg hk]
      rfl

/-- The prepared transaction is the proposal of the kernel. -/
structure Prepared (s : State cfg) (leaf : Leaf cfg) : Prop where
  clock : s.clockPending = .ofBool leaf.pending.clock
  holds : Holds s.commitTransition (xferCurrent leaf.current leaf.pending)

/-- The module is in the state of the kernel. -/
structure RtlRefines (s : State cfg) (leaf : Leaf cfg) : Prop where
  holds : Holds s leaf.current
  clock : s.clockCurrent = .ofBool leaf.current.clock
  rdata : ∀ port, leaf.outputs.rdata port = (leaf.current.ports port).q
  rlive : ∀ port, leaf.outputs.rlive port = .ofBool (leaf.current.ports port).live
  pending : s.pendingValid = leaf.pending.valid
  prepared : leaf.pending.valid = true → Prepared s leaf

variable {leaf : Leaf cfg}

/-- A PREPARE has the outcome of `propose`. -/
theorem RtlRefines.prepare_cases (h : RtlRefines s leaf) (pins : Inputs cfg) :
    (∃ pending', propose leaf.current pins (discard leaf.current leaf.pending) = .ok pending' ∧
      RtlRefines (s.prepare pins) { leaf with pending := pending' } ∧
      (s.prepare pins).localError = false) ∨
    ∃ message, propose leaf.current pins (discard leaf.current leaf.pending) = .error message ∧
      RtlRefines (s.prepare pins)
        { leaf with pending := discard leaf.current leaf.pending } ∧
      (s.prepare pins).preparationError = true := by
  have hsampled : Holds s.sampled leaf.current := ⟨h.holds.mem, h.holds.read⟩
  have hfailed : ∀ {rising : Logic}, s.clockCurrent.not.and pins.clk = rising →
      ¬ pins.clk.Known ∨ (pins.clk.Known ∧ edgeControlError rising pins = true) →
      RtlRefines (s.prepare pins)
        { leaf with pending := discard leaf.current leaf.pending } ∧
      (s.prepare pins).preparationError = true := by
    intro rising hrising herror
    rw [prepare_error hrising herror]
    exact ⟨⟨⟨h.holds.mem, h.holds.read⟩, h.clock, h.rdata, h.rlive, rfl, nofun⟩, rfl⟩
  have hready : ∀ {rising : Logic} {pending' : Pending cfg},
      s.clockCurrent.not.and pins.clk = rising → pins.clk = .ofBool pending'.clock →
      edgeControlError rising pins = false → pending'.valid = true →
      Holds (s.sampled.after rising pins.rst pins) (xferCurrent leaf.current pending') →
      RtlRefines (s.prepare pins) { leaf with pending := pending' } ∧
      (s.prepare pins).localError = false := by
    intro rising pending' hrising hclk hcontrol hvalid hafter
    rw [prepare_ok hrising (hclk ▸ Logic.ofBool_known _) hcontrol]
    exact ⟨⟨⟨h.holds.mem, h.holds.read⟩, h.clock, h.rdata, h.rlive, hvalid.symm,
      fun _ => ⟨hclk, ⟨hafter.mem, hafter.read⟩⟩⟩, rfl⟩
  unfold propose
  cases hclk : pins.clk.toBool? with
  | none => exact Or.inr ⟨_, rfl, hfailed rfl (Or.inl (Logic.toBool?_eq_none.mp hclk))⟩
  | some clock =>
    have hpin : pins.clk = .ofBool clock := Logic.toBool?_eq_some.mp hclk
    have hrising : s.clockCurrent.not.and pins.clk = .ofBool (!(leaf.current.clock || !clock)) := by
      rw [h.clock, hpin, Logic.rising_ofBool]
    dsimp only
    by_cases hhold : (leaf.current.clock || !clock) = true
    · rw [hhold, Bool.not_true] at hrising
      rw [if_pos hhold]
      have hkept := hsampled.after_hold pins.rst pins
      exact Or.inl ⟨_, rfl, hready hrising hpin rfl rfl ⟨hkept.mem, hkept.read⟩⟩
    rw [if_neg hhold]
    rw [Bool.eq_false_iff.mpr hhold, Bool.not_false] at hrising
    cases hrst : pins.rst.toBool? with
    | none =>
      refine Or.inr ⟨_, rfl, hfailed hrising (Or.inr ⟨hpin ▸ Logic.ofBool_known _, ?_⟩)⟩
      exact (if_pos rfl).trans (if_pos (Logic.toBool?_eq_none.mp hrst))
    | some rst =>
      have hrstPin : pins.rst = .ofBool rst := Logic.toBool?_eq_some.mp hrst
      cases rst with
      | true =>
        refine Or.inl ⟨_, rfl, hready hrising hpin ?_ rfl ?_⟩
        · unfold edgeControlError
          rw [hrstPin]
          rfl
        · rw [hrstPin]
          exact after_reset hsampled.mem leaf.pending pins clock
      | false =>
        dsimp only
        by_cases hcontrol : edgeControlError .one pins = true
        · refine Or.inr ?_
          have hchecks := mt (edgeControlError_edge hrstPin).mpr (ne_of_eq_of_ne hcontrol nofun)
          split
          · exact ⟨_, rfl, hfailed hrising (Or.inr ⟨hpin ▸ Logic.ofBool_known _, hcontrol⟩)⟩
          · next hknown =>
            obtain ⟨message, hmessage⟩ := stageEdge_error
              (not_not.mp fun hwvalid => hknown (Or.inl hwvalid))
              (fun henabled => hchecks ⟨hknown, henabled⟩)
            exact ⟨message, hmessage,
              hfailed hrising (Or.inr ⟨hpin ▸ Logic.ofBool_known _, hcontrol⟩)⟩
        · have hpassed := Bool.eq_false_iff.mpr hcontrol
          obtain ⟨hknown, henabled⟩ := (edgeControlError_edge hrstPin).mp hpassed
          obtain ⟨pending', hedge, hclock, hvalid, hafter⟩ := hsampled.after_edge
            leaf.pending (not_not.mp fun hwvalid => hknown (Or.inl hwvalid)) henabled clock
          rw [if_neg hknown]
          refine Or.inl ⟨pending', hedge, hready hrising (hclock ▸ hpin) hpassed hvalid ?_⟩
          rw [hrstPin]
          exact hafter

/-- A PREPARE raises the error flag, and shows it, when the kernel throws. -/
theorem RtlRefines.prepare_errors (h : RtlRefines s leaf) (pins : Inputs cfg) :
    (s.prepare pins).preparationError = (leaf.thrown (.work pins)).isSome ∧
    (s.prepare pins).localError = (leaf.thrown (.work pins)).isSome := by
  rcases h.prepare_cases pins with ⟨pending', hok, -, herror⟩ | ⟨message, hbad, -, herror⟩
  · have hthrown : leaf.thrown (.work pins) = none := by simp only [Leaf.thrown, work, hok]
    rw [hthrown]
    exact ⟨(Bool.or_eq_false_iff.mp herror).1, herror⟩
  · have hthrown : leaf.thrown (.work pins) = some message := by
      simp only [Leaf.thrown, work, hbad]
    rw [hthrown, State.localError, herror]
    exact ⟨rfl, rfl⟩

/-- The commit of a prepared transaction, when the pins of the ports that it leaves alone show their
registers. -/
theorem Prepared.commit (h : Prepared s leaf) (hs : s.pendingValid = true)
    (hleaf : leaf.pending.valid = true)
    (hshown : ∀ port, ((leaf.pending.ports port).read || (leaf.pending.ports port).invalidate) =
      true ∨ leaf.outputs.rdata port = (leaf.current.ports port).q) :
    RtlRefines (s.commit .one) leaf.xfer := by
  have hcommit : s.commit .one =
      { s.commitTransition with clockCurrent := s.clockPending, pendingValid := false } := by
    rw [State.commit, if_pos ⟨hs, rfl⟩]
  have hxfer : leaf.xfer =
      { current := xferCurrent leaf.current leaf.pending
        pending := discard (xferCurrent leaf.current leaf.pending) leaf.pending
        outputs := xferOutputs leaf.current leaf.pending leaf.outputs } := by
    rw [Leaf.xfer, hleaf]
    rfl
  rw [hcommit, hxfer]
  refine ⟨⟨h.holds.mem, h.holds.read⟩, h.clock, ?_, fun port => rfl, rfl, nofun⟩
  intro port
  show (if (leaf.pending.ports port).read || (leaf.pending.ports port).invalidate then
    (leaf.pending.ports port).q else leaf.outputs.rdata port) =
    (xferPort (leaf.current.ports port) (leaf.pending.ports port)).q
  unfold xferPort
  by_cases hchanged :
      ((leaf.pending.ports port).read || (leaf.pending.ports port).invalidate) = true
  · rw [if_pos hchanged, if_pos hchanged]
  · rw [if_neg hchanged, if_neg hchanged]
    exact (hshown port).resolve_left hchanged

/-- A RESET prepares the invalidation of the responses, from any state with the same memory. -/
theorem reset_prepared (hmem : ∀ k, s.mem k = Bus.ofBitVec (leaf.current.memory k)) :
    Prepared (s.command .reset) (leaf.call .reset) := by
  have hafter := after_reset hmem leaf.pending idlePins false
  exact ⟨rfl, ⟨hafter.mem, hafter.read⟩⟩

/-- Every command of the module is the call of the kernel that it stands for. -/
theorem RtlRefines.command (h : RtlRefines s leaf) (c : Command (Inputs cfg)) :
    RtlRefines (s.command c) (leaf.call c.call) := by
  cases c with
  | prepare pins =>
    rcases h.prepare_cases pins with ⟨pending', hok, hrefines, -⟩ | ⟨message, hbad, hrefines, -⟩
    · simp only [Command.call, Leaf.call, work, hok]
      exact hrefines
    · simp only [Command.call, Leaf.call, work, hbad]
      exact hrefines
  | commit rootCommitOk =>
    by_cases hok : rootCommitOk = .one
    · subst hok
      show RtlRefines (s.commit .one) leaf.xfer
      cases hvalid : leaf.pending.valid with
      | true =>
        exact (h.prepared hvalid).commit (h.pending.trans hvalid) hvalid
          fun port => Or.inr (h.rdata port)
      | false =>
        have hcommit : s.commit .one = { s with pendingValid := false } := by
          rw [State.commit, if_neg (by rw [h.pending, hvalid]; exact nofun)]
        have hxfer : leaf.xfer = leaf := by
          rw [Leaf.xfer, hvalid]
          rfl
        rw [hcommit, hxfer]
        exact ⟨⟨h.holds.mem, h.holds.read⟩, h.clock, h.rdata, h.rlive, hvalid.symm,
          fun htrue => absurd (hvalid.symm.trans htrue) Bool.false_ne_true⟩
    · have hcommit : s.commit rootCommitOk = { s with pendingValid := false } := by
        rw [State.commit, if_neg fun hboth => hok hboth.2]
      rw [Command.call, if_neg hok]
      show RtlRefines (s.commit rootCommitOk) _
      rw [hcommit]
      exact ⟨⟨h.holds.mem, h.holds.read⟩, h.clock, h.rdata, h.rlive, rfl, nofun⟩
  | discard => exact ⟨⟨h.holds.mem, h.holds.read⟩, h.clock, h.rdata, h.rlive, rfl, nofun⟩
  | reset =>
    exact ⟨⟨h.holds.mem, h.holds.read⟩, h.clock, h.rdata, h.rlive, rfl,
      fun _ => reset_prepared h.holds.mem⟩

theorem RtlRefines.run (h : RtlRefines s leaf) (commands : List (Command (Inputs cfg))) :
    RtlRefines (s.run commands) (leaf.run (commands.map Command.call)) := by
  rw [Leaf.run, List.foldl_map]
  exact List.foldl_rel h fun c _ _ _ h => h.command c

/-- A committed reset relates any two states with the same memory. -/
theorem refines_of_reset (hmem : ∀ k, s.mem k = Bus.ofBitVec (leaf.current.memory k)) :
    RtlRefines (s.run [.reset, .commit .one]) (leaf.run [.reset, .xfer]) :=
  (reset_prepared hmem).commit rfl rfl fun _ => Or.inl rfl

theorem RtlRefines.raises (h : RtlRefines s leaf) (c : Command (Inputs cfg)) :
    s.raises c = (leaf.thrown c.call).isSome := by
  cases c with
  | prepare pins => exact (h.prepare_errors pins).1
  | commit rootCommitOk =>
    have hkept : (s.commit rootCommitOk).preparationError = s.preparationError := by
      unfold State.commit
      split <;> rfl
    show ((s.commit rootCommitOk).preparationError && !s.preparationError) = _
    rw [hkept, Bool.and_not_self, Command.call]
    split
    · rfl
    · rfl
  | discard | reset => rfl

end

end

end PyCircuit.Memory.Sync.Rtl
