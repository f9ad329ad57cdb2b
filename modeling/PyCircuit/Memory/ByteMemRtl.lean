import PyCircuit.Memory.ByteMem

/-!
# The Verilog byte memory

The module `byte_mem` in managed mode. Its read is continuous: the output `rdata` is a function of
the memory and of the driven address. An `if` of the source takes its branch only when the condition
is one. A read of the memory outside of it is unknown, and such a write is lost. An `int unsigned`
has two states: an unknown wire that is assigned to it becomes zero.
-/

set_option autoImplicit false

namespace PyCircuit.Memory.Byte.Rtl

open PyCircuit.Lib PyCircuit.Memory

/-- `COMPARE_WIDTH`. -/
def compareWidth (cfg : Config) : Nat := if cfg.addrWidth > 32 then cfg.addrWidth else 32

structure State (cfg : Config) where
  mem : Fin cfg.depth → Bus 8
  writeCandidate : Fin cfg.strbWidth → Bus 8
  writeCandidateValid : Bus cfg.strbWidth
  writeCandidateIndex : Fin cfg.strbWidth → BitVec 32
  clockCurrent : Logic
  clockPending : Logic
  pendingValid : Bool
  preparationError : Bool

section

variable {cfg : Config}

/-! ## The read -/

/-- `depth_limit`. -/
def depthLimit (cfg : Config) : BitVec (compareWidth cfg) := BitVec.ofNat _ cfg.depth

/-- The address is in the memory, and so is the lane that far above it: the conditions
`full_address < depth_limit` and `lane < depth_limit - full_address`. -/
def laneInRange (address : Bus cfg.addrWidth) (lane : Nat) : Logic :=
  let fullAddress := address.resize (compareWidth cfg)
  (fullAddress.ltNat (depthLimit cfg).toNat).and
    (match fullAddress.toBitVec? with
    | some fullAddress => .ofBool (decide (lane < (depthLimit cfg - fullAddress).toNat))
    | none => .x)

/-- The low bits of an address, as an `int unsigned` or a 32-bit wire with known bits. -/
def baseIndex (address : Bus cfg.addrWidth) : BitVec 32 := (address.resize 32).value

/-- `mem[index]`. -/
def State.byte (s : State cfg) (index : BitVec 32) : Bus 8 :=
  if h : index.toNat < cfg.depth then s.mem ⟨index.toNat, h⟩ else Bus.unknown

/-- A position of the payload is in a byte. -/
theorem offset_lt (i : Fin cfg.dataBits) : i.val % 8 < 8 := Nat.mod_lt _ (by decide)

/-- `rdata`. -/
def State.rdata (s : State cfg) (raddr : Bus cfg.addrWidth) : Bus cfg.dataBits :=
  if ¬ raddr.Known then Bus.unknown
  else fun i =>
    if laneInRange raddr (i.val / 8) = .one then
      s.byte (baseIndex raddr + BitVec.ofNat 32 (i.val / 8)) ⟨i.val % 8, offset_lt i⟩
    else .zero

/-- `pyc_local_error`. -/
def State.localError (s : State cfg) : Bool := s.preparationError || !s.pendingValid

/-! ## Transitions -/

/-- The disjunction of the bits of `edge_control_error`. -/
def edgeControlError (rising : Logic) (pins : Inputs cfg) : Bool :=
  if rising = .one then
    if ¬ pins.rst.Known then true
    else if pins.rst.not = .one then
      if ¬ pins.wvalid.Known then true
      else decide (pins.wvalid = .one ∧
        (¬ pins.waddr.Known ∨ ¬ pins.wdata.Known ∨ ¬ pins.wstrb.Known))
    else false
  else false

/-- A bit of the payload by its lane and its position in the lane. -/
theorem bit_lt (lane : Fin cfg.strbWidth) (j : Fin 8) : 8 * lane.val + j.val < cfg.dataBits := by
  unfold Config.dataBits
  omega

/-- `prepare_writes`. -/
def State.prepareWrites (s : State cfg) (rising reset enabled : Logic)
    (address : Bus cfg.addrWidth) (data : Bus cfg.dataBits) (strobes : Bus cfg.strbWidth) :
    State cfg :=
  let inRange (lane : Fin cfg.strbWidth) : Bool :=
    decide (((rising.and reset.not).and enabled).and (laneInRange address lane) = .one)
  { s with
    writeCandidate := fun lane =>
      if inRange lane ∧ strobes lane = .one then fun j => data ⟨8 * lane + j, bit_lt lane j⟩
      else Bus.ofBitVec 0#8
    writeCandidateValid := fun lane =>
      if inRange lane ∧ strobes lane = .one then .one else .zero
    writeCandidateIndex := fun lane =>
      if inRange lane then baseIndex address + BitVec.ofNat 32 lane else 0#32 }

/-- An assignment to a byte of the memory. -/
def storeBus (mem : Fin cfg.depth → Bus 8) (index : Nat) (byte : Bus 8) : Fin cfg.depth → Bus 8 :=
  fun k => if k.val = index then byte else mem k

/-- `commit_writes`; of two assignments to one byte the later one stays. -/
def State.commitWrites (s : State cfg) : State cfg :=
  { s with
    mem :=
      (List.finRange cfg.strbWidth).foldl
        (fun mem lane =>
          if s.writeCandidateValid lane = .one then
            storeBus mem (s.writeCandidateIndex lane).toNat (s.writeCandidate lane)
          else mem)
        s.mem }

/-! ## Commands -/

/-- The PREPARE branch. -/
def State.prepare (s : State cfg) (pins : Inputs cfg) : State cfg :=
  let s :=
    ({ s with
      pendingValid := false, preparationError := false, clockPending := s.clockCurrent }
        ).prepareWrites .zero .zero .zero pins.waddr pins.wdata pins.wstrb
  if ¬ pins.raddr.Known ∨ ¬ pins.clk.Known then { s with preparationError := true }
  else
    let rising := s.clockCurrent.not.and pins.clk
    let preparationError := edgeControlError rising pins
    if preparationError then { s with preparationError }
    else
      { s.prepareWrites rising pins.rst pins.wvalid pins.waddr pins.wdata pins.wstrb with
        clockPending := pins.clk, pendingValid := true }

/-- The COMMIT branch. -/
def State.commit (s : State cfg) (rootCommitOk : Logic) : State cfg :=
  let s :=
    if s.pendingValid ∧ rootCommitOk = .one then
      { s.commitWrites with clockCurrent := s.clockPending }
    else s
  { s with pendingValid := false }

/-- The state after a command. -/
def State.command (s : State cfg) : Command (Inputs cfg) → State cfg
  | .prepare pins => s.prepare pins
  | .commit rootCommitOk => s.commit rootCommitOk
  | .discard =>
    { s with
      writeCandidateValid := fun _ => .zero, pendingValid := false, preparationError := false }
  | .reset =>
    { s.prepareWrites .zero .one .zero (Bus.ofBitVec (BitVec.ofNat cfg.addrWidth 0))
        (Bus.ofBitVec (BitVec.ofNat cfg.dataBits 0))
        (Bus.ofBitVec (BitVec.ofNat cfg.strbWidth 0)) with
      clockPending := .zero, preparationError := false, pendingValid := true }

/-- The command raises the error flag. -/
def State.raises (s : State cfg) (c : Command (Inputs cfg)) : Bool :=
  match c with
  | .prepare _ => (s.command c).preparationError
  | _ => (s.command c).preparationError && !s.preparationError

/-- The state after a sequence of commands. -/
def State.run (s : State cfg) (commands : List (Command (Inputs cfg))) : State cfg :=
  commands.foldl State.command s

/-- The module after its `initial` block. -/
def State.start : State cfg where
  mem := fun _ => Bus.ofBitVec 0#8
  writeCandidate := fun _ => Bus.unknown
  writeCandidateValid := Bus.unknown
  writeCandidateIndex := fun _ => 0#32
  clockCurrent := .zero
  clockPending := .x
  pendingValid := false
  preparationError := false

/-! ## The relation to the kernel -/

/-- The memory is that of the kernel. -/
def Holds (s : State cfg) (current : Current cfg) : Prop :=
  ∀ k, s.mem k = Bus.ofBitVec (current.memory k)

section

variable {s : State cfg} {current : Current cfg}

theorem toNat_depthLimit (cfg : Config) : (depthLimit cfg).toNat = cfg.depth := by
  have hwidth : 32 ≤ compareWidth cfg := by
    unfold compareWidth
    split
    · omega
    · exact Nat.le_refl _
  rw [depthLimit, BitVec.toNat_ofNat, Nat.mod_eq_of_lt
    (Nat.lt_of_lt_of_le cfg.depth_lt (Nat.pow_le_pow_right (by decide) hwidth))]

theorem laneInRange_iff (address : BitVec cfg.addrWidth) (lane : Nat) :
    laneInRange (Bus.ofBitVec address) lane = .one ↔
      address.toNat < cfg.depth ∧ lane < cfg.depth - address.toNat := by
  have hwidth : cfg.addrWidth ≤ compareWidth cfg := by
    unfold compareWidth
    split
    · exact Nat.le_refl _
    · omega
  have hfull : (address.setWidth (compareWidth cfg)).toNat = address.toNat := by
    rw [BitVec.toNat_setWidth, Nat.mod_eq_of_lt
      (Nat.lt_of_lt_of_le address.isLt (Nat.pow_le_pow_right (by decide) hwidth))]
  unfold laneInRange
  dsimp only
  rw [Bus.resize_ofBitVec, Bus.ltNat_ofBitVec, Bus.toBitVec?_ofBitVec, hfull, toNat_depthLimit]
  rw [Logic.and_ofBool, Logic.ofBool_eq_one, Bool.and_eq_true, decide_eq_true_iff,
    decide_eq_true_iff]
  refine and_congr_right fun hin => ?_
  rw [BitVec.toNat_sub_of_le (by
    rw [BitVec.le_def, hfull, toNat_depthLimit]
    exact Nat.le_of_lt hin), toNat_depthLimit, hfull]

/-- The index of a lane in the memory does not wrap. -/
theorem toNat_laneIndex {address : BitVec cfg.addrWidth} {lane : Nat}
    (h : address.toNat < cfg.depth ∧ lane < cfg.depth - address.toNat) :
    (baseIndex (Bus.ofBitVec address : Bus cfg.addrWidth) + BitVec.ofNat 32 lane).toNat =
      address.toNat + lane := by
  have hdepth := cfg.depth_lt
  rw [baseIndex, Bus.resize_ofBitVec, Bus.value_ofBitVec, BitVec.toNat_add, BitVec.toNat_setWidth,
    BitVec.toNat_ofNat]
  omega

/-- The output shows what the kernel reads. -/
theorem Holds.rdata (h : Holds s current) (raddr : Bus cfg.addrWidth) :
    s.rdata raddr = read current raddr := by
  unfold State.rdata read
  cases haddress : raddr.toBitVec? with
  | none => exact if_pos (Bus.toBitVec?_eq_none.mp haddress)
  | some address =>
    obtain rfl := Bus.toBitVec?_eq_some.mp haddress
    rw [if_neg (not_not_intro (Bus.known_ofBitVec address))]
    funext i
    show _ = Logic.ofBool ((readValue current (memoryIndex address)).getLsbD i)
    rw [getLsbD_readValue current _ i.isLt]
    unfold peekByteAt
    by_cases hin : address.toNat < cfg.depth ∧ i.val / 8 < cfg.depth - address.toNat
    · have hindex := memoryIndex_of_lt cfg.depth_lt hin.1
      have hbyte := toNat_laneIndex hin
      have hlt : address.toNat + i.val / 8 < cfg.depth := Nat.add_lt_of_lt_sub' hin.2
      have hfirst : (baseIndex (Bus.ofBitVec address : Bus cfg.addrWidth) +
          BitVec.ofNat 32 (i.val / 8)).toNat < cfg.depth := by
        rw [hbyte]
        exact hlt
      have hsecond : memoryIndex address < cfg.depth ∧
          i.val / 8 < cfg.depth - memoryIndex address := by
        rw [hindex]
        exact hin
      have hsame : (⟨_, hfirst⟩ : Fin cfg.depth) =
          ⟨memoryIndex address + i.val / 8, Nat.add_lt_of_lt_sub' hsecond.2⟩ :=
        Fin.ext (hbyte.trans (congrArg (· + i.val / 8) hindex.symm))
      rw [if_pos ((laneInRange_iff address _).mpr hin), State.byte, dif_pos hfirst,
        dif_pos hsecond, h, hsame]
      rfl
    · rw [if_neg (fun hone => hin ((laneInRange_iff address _).mp hone)), dif_neg (by
        rintro ⟨hlt, hlane⟩
        have hbase := (memoryIndex_lt cfg.depth_lt address).mp hlt
        rw [memoryIndex_of_lt cfg.depth_lt hbase] at hlane
        exact hin ⟨hbase, hlane⟩)]
      simp

/-- The write candidates are the staged bytes. -/
def Staged (s : State cfg) (pending : Pending cfg) : Prop :=
  ∀ lane, s.writeCandidateValid lane = .ofBool (pending.lanes lane) ∧
    (pending.lanes lane = true →
      (s.writeCandidateIndex lane).toNat = pending.address + lane ∧
      s.writeCandidate lane = Bus.ofBitVec (pending.bytes lane))

/-- The commit of the candidates is the transfer of the staged bytes. -/
theorem Holds.commitWrites (h : Holds s current) {pending : Pending cfg}
    (hstaged : Staged s pending) : Holds s.commitWrites (xferCurrent current pending) := by
  -- Lane by lane, both memories take the same byte.
  refine List.foldl_rel
    (r := fun (mem : Fin cfg.depth → Bus 8) (memory : Fin cfg.depth → BitVec 8) =>
    ∀ k, mem k = Bus.ofBitVec (memory k)) h ?_
  intro lane _ mem memory hmem
  obtain ⟨hvalid, hbyte⟩ := hstaged lane
  cases hwrites : pending.lanes lane with
  | false =>
    rw [hwrites] at hvalid
    rw [hvalid, if_neg nofun, if_neg Bool.false_ne_true]
    exact hmem
  | true =>
    rw [hwrites] at hvalid
    obtain ⟨hindex, hcandidate⟩ := hbyte hwrites
    rw [hvalid, Logic.ofBool_true, if_pos rfl, if_pos rfl, hindex, hcandidate]
    intro k
    unfold storeBus store
    split
    · rfl
    · exact hmem k

variable {pins : Inputs cfg} {pending : Pending cfg}

/-- Without an enabled write at a rising edge nothing is staged. -/
theorem staged_none {rising reset enabled : Logic}
    (h : (rising.and reset.not).and enabled = .zero) (address : Bus cfg.addrWidth)
    (data : Bus cfg.dataBits) (strobes : Bus cfg.strbWidth)
    (hnone : ∀ lane, pending.lanes lane = false) :
    Staged (s.prepareWrites rising reset enabled address data strobes) pending := by
  intro lane
  rw [hnone lane]
  refine ⟨if_neg fun hboth => ?_, nofun⟩
  have hinRange := of_decide_eq_true hboth.1
  rw [h, Logic.zero_and] at hinRange
  cases hinRange

/-- An enabled write stages the strobed lanes in the memory. -/
theorem staged_write {waddr : BitVec cfg.addrWidth} {wdata : BitVec cfg.dataBits}
    {wstrb : BitVec cfg.strbWidth} (hin : waddr.toNat < cfg.depth)
    (hnone : ∀ lane, pending.lanes lane = false) (haddress : pending.address = waddr.toNat) :
    Staged (s.prepareWrites .one .zero .one (Bus.ofBitVec waddr) (Bus.ofBitVec wdata)
      (Bus.ofBitVec wstrb)) (stageLanes waddr.toNat wdata wstrb pending) := by
  intro lane
  have hrange : ((Logic.one.and Logic.zero.not).and .one).and
      (laneInRange (Bus.ofBitVec waddr) lane) = .one ↔ lane.val < cfg.depth - waddr.toNat := by
    show Logic.one.and _ = .one ↔ _
    rw [Logic.one_and_eq_one, laneInRange_iff]
    exact ⟨fun hboth => hboth.2, fun hlane => ⟨hin, hlane⟩⟩
  have hlanes : (stageLanes waddr.toNat wdata wstrb pending).lanes lane =
      (decide (lane.val < cfg.depth - waddr.toNat) && wstrb.getLsbD lane) := by
    show ((decide (lane.val < cfg.depth - waddr.toNat) && wstrb.getLsbD lane) ||
      pending.lanes lane) = _
    rw [hnone lane, Bool.or_false]
  rw [hlanes]
  by_cases hwrites : (decide (lane.val < cfg.depth - waddr.toNat) && wstrb.getLsbD lane) = true
  · obtain ⟨hlane, hstrobe⟩ := Bool.and_eq_true_iff.mp hwrites
    have hchecked : decide (((Logic.one.and Logic.zero.not).and .one).and
        (laneInRange (Bus.ofBitVec waddr) lane) = .one) = true :=
      decide_eq_true (hrange.mpr (of_decide_eq_true hlane))
    have hselected := And.intro hchecked
      (show Bus.ofBitVec wstrb lane = .one from Logic.ofBool_eq_one.mpr hstrobe)
    rw [hwrites]
    refine ⟨if_pos hselected, fun _ => ⟨?_, ?_⟩⟩
    · refine (congrArg BitVec.toNat (if_pos hchecked)).trans ?_
      rw [toNat_laneIndex ⟨hin, of_decide_eq_true hlane⟩, ← haddress]
      rfl
    · have hbyte : (stageLanes waddr.toNat wdata wstrb pending).bytes lane =
          wdata.extractLsb' (8 * lane) 8 := if_pos hwrites
      refine (if_pos hselected).trans ?_
      rw [hbyte]
      funext j
      show Logic.ofBool (wdata.getLsbD (8 * lane + j)) =
        .ofBool ((wdata.extractLsb' (8 * lane) 8).getLsbD j)
      rw [BitVec.getLsbD_extractLsb', decide_eq_true j.isLt, Bool.true_and]
  · rw [Bool.eq_false_iff.mpr hwrites]
    refine ⟨if_neg fun hselected => hwrites ?_, nofun⟩
    exact Bool.and_eq_true_iff.mpr
      ⟨decide_eq_true (hrange.mp (of_decide_eq_true hselected.1)),
        Logic.ofBool_eq_one.mp hselected.2⟩

/-- An enabled write with known operands is staged as the kernel stages it. -/
theorem stage_write (s : State cfg) (current : Current cfg) (pending : Pending cfg) (clock : Bool)
    (hoperands : ¬ (¬ pins.waddr.Known ∨ ¬ pins.wdata.Known ∨ ¬ pins.wstrb.Known)) :
    ∃ pending',
      stageWrite pins { discard current pending with clock, valid := true } = .ok pending' ∧
      pending'.clock = clock ∧ pending'.valid = true ∧
      Staged (s.prepareWrites .one .zero .one pins.waddr pins.wdata pins.wstrb) pending' := by
  rw [not_or, not_or, not_not, not_not, not_not] at hoperands
  obtain ⟨hwaddr, hwdata, hwstrb⟩ := hoperands
  have haddress := Bus.ofBitVec_value hwaddr
  by_cases hout : cfg.depth ≤ memoryIndex pins.waddr.value
  · refine ⟨_, stageWrite_outside haddress.symm hwdata hwstrb hout, rfl, rfl, ?_⟩
    intro lane
    refine ⟨if_neg fun hboth => ?_, nofun⟩
    have hinRange := of_decide_eq_true hboth.1
    rw [show (Logic.one.and Logic.zero.not).and .one = .one from rfl, Logic.one_and_eq_one,
      ← haddress, laneInRange_iff] at hinRange
    exact absurd ((memoryIndex_lt cfg.depth_lt _).mpr hinRange.1) (Nat.not_lt_of_le hout)
  · have hin : pins.waddr.value.toNat < cfg.depth :=
      (memoryIndex_lt cfg.depth_lt _).mp (Nat.lt_of_not_le hout)
    have hindex := memoryIndex_of_lt cfg.depth_lt hin
    refine ⟨_, stageWrite_inside haddress.symm (Bus.ofBitVec_value hwdata).symm
      (Bus.ofBitVec_value hwstrb).symm hout, rfl, rfl, ?_⟩
    rw [← haddress, ← Bus.ofBitVec_value hwdata, ← Bus.ofBitVec_value hwstrb]
    simp only [Bus.value_ofBitVec]
    rw [hindex]
    exact staged_write hin (fun _ => rfl) rfl

/-! ## The commands -/

/-- The state in which a PREPARE computes the candidates. -/
def State.sampled (s : State cfg) (pins : Inputs cfg) : State cfg :=
  ({ s with
    pendingValid := false, preparationError := false, clockPending := s.clockCurrent }
      ).prepareWrites .zero .zero .zero pins.waddr pins.wdata pins.wstrb

theorem prepare_error {rising : Logic} (hrising : s.clockCurrent.not.and pins.clk = rising)
    (herror : (¬ pins.raddr.Known ∨ ¬ pins.clk.Known) ∨
      (pins.raddr.Known ∧ pins.clk.Known ∧ edgeControlError rising pins = true)) :
    s.prepare pins = { s.sampled pins with preparationError := true } := by
  rcases herror with hunknown | ⟨hraddr, hclk, hcontrol⟩
  · exact if_pos hunknown
  · subst hrising
    refine (if_neg fun hunknown => ?_).trans ((if_pos hcontrol).trans ?_)
    · exact hunknown.elim (fun hbad => hbad hraddr) fun hbad => hbad hclk
    · exact congrArg (fun preparationError => { s.sampled pins with preparationError }) hcontrol

theorem prepare_ok {rising : Logic} (hrising : s.clockCurrent.not.and pins.clk = rising)
    (hraddr : pins.raddr.Known) (hclk : pins.clk.Known)
    (hcontrol : edgeControlError rising pins = false) :
    s.prepare pins =
      { (s.sampled pins).prepareWrites rising pins.rst pins.wvalid pins.waddr pins.wdata
          pins.wstrb with
        clockPending := pins.clk, pendingValid := true } := by
  subst hrising
  refine (if_neg fun hunknown => ?_).trans (if_neg fun hraised => ?_)
  · exact hunknown.elim (fun hbad => hbad hraddr) fun hbad => hbad hclk
  · exact absurd (hcontrol.symm.trans hraised) Bool.false_ne_true

/-- The prepared transaction is the proposal of the kernel. -/
structure Prepared (s : State cfg) (leaf : Leaf cfg) : Prop where
  clock : s.clockPending = .ofBool leaf.pending.clock
  staged : Staged s leaf.pending

/-- The module is in the state of the kernel. -/
structure RtlRefines (s : State cfg) (leaf : Leaf cfg) : Prop where
  holds : Holds s leaf.current
  clock : s.clockCurrent = .ofBool leaf.current.clock
  pending : s.pendingValid = leaf.pending.valid
  prepared : leaf.pending.valid = true → Prepared s leaf

variable {leaf : Leaf cfg}

/-- A PREPARE with a known read address has the outcome of `propose`. -/
theorem RtlRefines.prepare_cases (h : RtlRefines s leaf) {pins : Inputs cfg}
    (hraddr : pins.raddr.Known) (rdata : Bus cfg.dataBits) :
    (∃ pending', propose leaf.current pins (discard leaf.current leaf.pending) = .ok pending' ∧
      RtlRefines (s.prepare pins) { leaf with pending := pending', rdata } ∧
      (s.prepare pins).localError = false) ∨
    ∃ message, propose leaf.current pins (discard leaf.current leaf.pending) = .error message ∧
      RtlRefines (s.prepare pins)
        { leaf with pending := discard leaf.current leaf.pending, rdata } ∧
      (s.prepare pins).preparationError = true := by
  have hfailed : ∀ {rising : Logic}, s.clockCurrent.not.and pins.clk = rising →
      ¬ pins.clk.Known ∨ (pins.clk.Known ∧ edgeControlError rising pins = true) →
      RtlRefines (s.prepare pins)
        { leaf with pending := discard leaf.current leaf.pending, rdata } ∧
      (s.prepare pins).preparationError = true := by
    intro rising hrising herror
    rw [prepare_error hrising (herror.imp Or.inr fun hboth => ⟨hraddr, hboth⟩)]
    exact ⟨⟨h.holds, h.clock, rfl, nofun⟩, rfl⟩
  have hready : ∀ {rising : Logic} {pending' : Pending cfg},
      s.clockCurrent.not.and pins.clk = rising → pins.clk = .ofBool pending'.clock →
      edgeControlError rising pins = false → pending'.valid = true →
      Staged ((s.sampled pins).prepareWrites rising pins.rst pins.wvalid pins.waddr pins.wdata
        pins.wstrb) pending' →
      RtlRefines (s.prepare pins) { leaf with pending := pending', rdata } ∧
      (s.prepare pins).localError = false := by
    intro rising pending' hrising hclk hcontrol hvalid hstaged
    rw [prepare_ok hrising hraddr (hclk ▸ Logic.ofBool_known _) hcontrol]
    exact ⟨⟨h.holds, h.clock, hvalid.symm, fun _ => ⟨hclk, hstaged⟩⟩, rfl⟩
  unfold propose
  cases hclk : pins.clk.toBool? with
  | none => exact Or.inr ⟨_, rfl, hfailed rfl (Or.inl (Logic.toBool?_eq_none.mp hclk))⟩
  | some clock =>
    have hpin : pins.clk = .ofBool clock := Logic.toBool?_eq_some.mp hclk
    have hknown : pins.clk.Known := hpin ▸ Logic.ofBool_known clock
    have hrising : s.clockCurrent.not.and pins.clk = .ofBool (!(leaf.current.clock || !clock)) := by
      rw [h.clock, hpin, Logic.rising_ofBool]
    dsimp only
    by_cases hhold : (leaf.current.clock || !clock) = true
    · rw [hhold, Bool.not_true] at hrising
      rw [if_pos hhold]
      refine Or.inl ⟨_, rfl, hready hrising hpin rfl rfl ?_⟩
      exact staged_none (by rw [Logic.ofBool_false, Logic.zero_and, Logic.zero_and]) _ _ _
        fun _ => rfl
    rw [if_neg hhold]
    rw [Bool.eq_false_iff.mpr hhold, Bool.not_false] at hrising
    cases hrst : pins.rst.toBool? with
    | none =>
      refine Or.inr ⟨_, rfl, hfailed hrising (Or.inr ⟨hknown, ?_⟩)⟩
      exact (if_pos rfl).trans (if_pos (Logic.toBool?_eq_none.mp hrst))
    | some rst =>
      have hrstPin : pins.rst = .ofBool rst := Logic.toBool?_eq_some.mp hrst
      cases rst with
      | true =>
        refine Or.inl ⟨_, rfl, hready hrising hpin ?_ rfl ?_⟩
        · unfold edgeControlError
          rw [hrstPin]
          rfl
        · refine staged_none ?_ _ _ _ fun _ => rfl
          rw [hrstPin]
          exact Logic.zero_and _
      | false =>
        have hcontrol : edgeControlError .one pins =
            if ¬ pins.wvalid.Known then true
            else decide (pins.wvalid = .one ∧
              (¬ pins.waddr.Known ∨ ¬ pins.wdata.Known ∨ ¬ pins.wstrb.Known)) := by
          unfold edgeControlError
          rw [hrstPin]
          rfl
        cases hwvalid : pins.wvalid.toBool? with
        | none =>
          refine Or.inr ⟨_, rfl, hfailed hrising (Or.inr ⟨hknown, ?_⟩)⟩
          exact hcontrol.trans (if_pos (Logic.toBool?_eq_none.mp hwvalid))
        | some wvalid =>
          have hwvalidPin : pins.wvalid = .ofBool wvalid :=
            Logic.toBool?_eq_some.mp hwvalid
          rw [if_neg (not_not_intro (hwvalidPin ▸ Logic.ofBool_known wvalid))] at hcontrol
          cases wvalid with
          | false =>
            refine Or.inl ⟨_, rfl, hready hrising hpin (hcontrol.trans ?_) rfl ?_⟩
            · rw [hwvalidPin]
              exact decide_eq_false fun hboth => nomatch hboth.1
            · refine staged_none ?_ _ _ _ fun _ => rfl
              rw [hwvalidPin, Logic.ofBool_false, Logic.and_zero]
          | true =>
            by_cases hoperands :
                ¬ pins.waddr.Known ∨ ¬ pins.wdata.Known ∨ ¬ pins.wstrb.Known
            · refine Or.inr ⟨_, stageWrite_unknown hoperands, hfailed hrising
                (Or.inr ⟨hknown, hcontrol.trans ?_⟩)⟩
              exact decide_eq_true ⟨hwvalidPin, hoperands⟩
            have hpassed := hcontrol.trans (decide_eq_false fun hboth => hoperands hboth.2)
            obtain ⟨pending', hok, hclock, hvalid, hstaged⟩ :=
              stage_write (s.sampled pins) leaf.current leaf.pending clock hoperands
            refine Or.inl ⟨pending', hok,
              hready hrising (hclock ▸ hpin) hpassed hvalid ?_⟩
            rw [hrstPin, hwvalidPin]
            exact hstaged

/-- A PREPARE raises the error flag, and shows it, when the kernel throws. -/
theorem RtlRefines.prepare_errors (h : RtlRefines s leaf) (pins : Inputs cfg) :
    (s.prepare pins).preparationError = (leaf.thrown (.work pins)).isSome ∧
    (s.prepare pins).localError = (leaf.thrown (.work pins)).isSome := by
  by_cases hraddr : pins.raddr.Known
  · rcases h.prepare_cases hraddr leaf.rdata with
      ⟨pending', hok, -, herror⟩ | ⟨message, hbad, -, herror⟩
    · have hthrown : leaf.thrown (.work pins) = none := by
        simp only [Leaf.thrown, work_ok hraddr hok]
      rw [hthrown]
      exact ⟨(Bool.or_eq_false_iff.mp herror).1, herror⟩
    · have hthrown : leaf.thrown (.work pins) = some message := by
        simp only [Leaf.thrown, work_error hraddr hbad]
      rw [hthrown, State.localError, herror]
      exact ⟨rfl, rfl⟩
  · have hthrown : leaf.thrown (.work pins) = some "byte_mem read address must be known" := by
      simp only [Leaf.thrown, work, if_pos hraddr]
    have herror : (s.prepare pins).preparationError = true := by
      rw [prepare_error rfl (Or.inl (Or.inl hraddr))]
    rw [hthrown, State.localError, herror]
    exact ⟨rfl, rfl⟩

/-- The commit of a prepared transaction. -/
theorem Prepared.commit (h : Prepared s leaf) (hholds : Holds s leaf.current)
    (hs : s.pendingValid = true) (hleaf : leaf.pending.valid = true) :
    RtlRefines (s.commit .one) leaf.xfer := by
  have hcommit : s.commit .one =
      { s.commitWrites with clockCurrent := s.clockPending, pendingValid := false } := by
    rw [State.commit, if_pos ⟨hs, rfl⟩]
  have hxfer : leaf.xfer =
      { leaf with
        current := xferCurrent leaf.current leaf.pending
        pending := discard (xferCurrent leaf.current leaf.pending) leaf.pending } := by
    rw [Leaf.xfer, hleaf]
    rfl
  rw [hcommit, hxfer]
  exact ⟨hholds.commitWrites h.staged, h.clock, rfl, nofun⟩

/-- A RESET prepares no write, from any state. -/
theorem reset_prepared (s : State cfg) (leaf : Leaf cfg) :
    Prepared (s.command .reset) (leaf.call .reset) := by
  have hstaged : Staged (s.prepareWrites .zero .one .zero
    (Bus.ofBitVec (BitVec.ofNat cfg.addrWidth 0))
      (Bus.ofBitVec (BitVec.ofNat cfg.dataBits 0)) (Bus.ofBitVec (BitVec.ofNat cfg.strbWidth 0)))
      (reset leaf.current leaf.pending) := staged_none rfl _ _ _ fun _ => rfl
  exact ⟨rfl, hstaged⟩

/-- Every command of the module is the call of the kernel that it stands for. -/
theorem RtlRefines.command (h : RtlRefines s leaf) (c : Command (Inputs cfg)) :
    RtlRefines (s.command c) (leaf.call c.call) := by
  cases c with
  | prepare pins =>
    by_cases hraddr : pins.raddr.Known
    · rcases h.prepare_cases hraddr (read leaf.current pins.raddr) with
        ⟨pending', hok, hrefines, -⟩ | ⟨message, hbad, hrefines, -⟩
      · simp only [Command.call, Leaf.call, work_ok hraddr hok]
        exact hrefines
      · simp only [Command.call, Leaf.call, work_error hraddr hbad]
        exact hrefines
    · have hprepare : s.prepare pins = { s.sampled pins with preparationError := true } :=
        prepare_error rfl (Or.inl (Or.inl hraddr))
      simp only [Command.call, Leaf.call, State.command, work, if_pos hraddr, hprepare]
      exact ⟨h.holds, h.clock, rfl, nofun⟩
  | commit rootCommitOk =>
    by_cases hok : rootCommitOk = .one
    · subst hok
      show RtlRefines (s.commit .one) leaf.xfer
      cases hvalid : leaf.pending.valid with
      | true => exact (h.prepared hvalid).commit h.holds (h.pending.trans hvalid) hvalid
      | false =>
        have hcommit : s.commit .one = { s with pendingValid := false } := by
          rw [State.commit, if_neg (by rw [h.pending, hvalid]; exact nofun)]
        have hxfer : leaf.xfer = leaf := by
          rw [Leaf.xfer, hvalid]
          rfl
        rw [hcommit, hxfer]
        exact ⟨h.holds, h.clock, hvalid.symm,
          fun htrue => absurd (hvalid.symm.trans htrue) Bool.false_ne_true⟩
    · have hcommit : s.commit rootCommitOk = { s with pendingValid := false } := by
        rw [State.commit, if_neg fun hboth => hok hboth.2]
      rw [Command.call, if_neg hok]
      show RtlRefines (s.commit rootCommitOk) _
      rw [hcommit]
      exact ⟨h.holds, h.clock, rfl, nofun⟩
  | discard => exact ⟨h.holds, h.clock, rfl, nofun⟩
  | reset => exact ⟨h.holds, h.clock, rfl, fun _ => reset_prepared s leaf⟩

theorem RtlRefines.run (h : RtlRefines s leaf) (commands : List (Command (Inputs cfg))) :
    RtlRefines (s.run commands) (leaf.run (commands.map Command.call)) := by
  rw [Leaf.run, List.foldl_map]
  exact List.foldl_rel h fun c _ _ _ h => h.command c

/-- A committed reset relates any two states with the same memory. -/
theorem refines_of_reset (h : Holds s leaf.current) :
    RtlRefines (s.run [.reset, .commit .one]) (leaf.run [.reset, .xfer]) :=
  (reset_prepared s leaf).commit h rfl rfl

theorem RtlRefines.raises (h : RtlRefines s leaf) (c : Command (Inputs cfg)) :
    s.raises c = (leaf.thrown c.call).isSome := by
  cases c with
  | prepare pins => exact (h.prepare_errors pins).1
  | commit rootCommitOk =>
    have hkept : (s.commit rootCommitOk).preparationError = s.preparationError := by
      unfold State.commit
      split <;> rfl
    show ((s.commit rootCommitOk).preparationError && !s.preparationError) = _
    rw [hkept, Bool.and_not_self, Command.call]
    split
    · rfl
    · rfl
  | discard | reset => rfl

end

end

end PyCircuit.Memory.Byte.Rtl
