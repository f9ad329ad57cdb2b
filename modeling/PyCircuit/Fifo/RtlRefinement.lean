import PyCircuit.Fifo.Refinement
import PyCircuit.Fifo.Rtl

/-!
# The Verilog FIFO refines the delayed queue

The registers of the module hold a queue in the way the kernel does (`RtlHolds`). A prepared
transaction stands for a proposal of the queue when its commit leads to registers that hold the
queue after that proposal, so a COMMIT has nothing left to show and the argument is in the PREPARE:
the next values that `nextBase` and `nextTiming` compute are those of the queue after an edge.
-/

set_option autoImplicit false

namespace PyCircuit.Fifo.Rtl

open PyCircuit.Lib Ring

/-! ## Widths -/

theorem depth_le_ptr (cfg : Config) : cfg.depth ≤ 2 ^ ptrBits cfg := by
  unfold ptrBits
  split
  · next hone => exact Nat.le_trans hone (by decide)
  · exact Nat.le_pow_clog (by decide) _

theorem depth_lt_count (cfg : Config) : cfg.depth < 2 ^ countBits cfg := by
  unfold countBits
  split
  · next hone => exact Nat.lt_of_le_of_lt hone (by decide)
  · have hle := Nat.le_pow_clog (b := 2) (by decide) cfg.depth
    split
    · rw [Nat.pow_succ]
      have hpos := Nat.two_pow_pos (Nat.clog 2 cfg.depth)
      omega
    · next hbits =>
      -- a power of two has no bit in common with its predecessor
      have hne : cfg.depth ≠ 2 ^ Nat.clog 2 cfg.depth := by
        intro heq
        apply hbits
        generalize Nat.clog 2 cfg.depth = k at heq
        rw [heq, Nat.and_two_pow_sub_one_eq_mod, Nat.mod_self]
      exact Nat.lt_of_le_of_ne hle hne

theorem latency_le (cfg : Config) : cfg.latency ≤ 2 ^ timestampBits cfg :=
  Nat.le_pow_clog (by decide) _

section

variable {cfg : Config} {α : Type}

/-! ## The relation -/

/-- The timing registers tell which tokens of the queue are ripe. -/
structure RtlTiming (s : State cfg α) (rd : Fin cfg.depth) (q : Queue α) : Prop where
  tick : s.tick = .known q.now
  eligible : s.eligibleCount = .known (q.ripe cfg).length
  mature : s.maturePtr = .known (Ring.offset rd (q.ripe cfg).length)
  deadlines : Ring.window s.deadline (Ring.offset rd (q.ripe cfg).length)
    (q.waiting cfg).length = (q.waiting cfg).map fun e => .known (e.2 + (cfg.latency - 1))

/-- The registers hold the queue, with its front at position `rd`. -/
structure RtlHolds (s : State cfg α) (rd : Fin cfg.depth) (q : Queue α) : Prop where
  initialized : s.initialized = .one
  wellFormed : q.WellFormed cfg
  front : s.rd = .known rd
  count : s.count = .known q.entries.length
  wr : s.wr = .known (Ring.offset rd q.entries.length)
  tokens : Ring.window s.storage rd q.entries.length = q.entries.map Prod.fst
  timing : 1 < cfg.latency → RtlTiming s rd q

variable {s : State cfg α} {rd : Fin cfg.depth} {q : Queue α}

theorem RtlHolds.length_lt (h : RtlHolds s rd q) : q.entries.length < 2 ^ countBits cfg :=
  Nat.lt_of_le_of_lt h.wellFormed.bounded (depth_lt_count cfg)

theorem RtlHolds.ripe_lt (h : RtlHolds s rd q) : (q.ripe cfg).length < 2 ^ countBits cfg := by
  have hlength := h.wellFormed.length
  exact Nat.lt_of_le_of_lt (by omega) h.length_lt

/-! ## The wires -/

section

variable (h : RtlHolds s rd q)
include h

theorem RtlHolds.shownCount : s.shownCount = .known (q.ripe cfg).length := by
  unfold State.shownCount
  split
  · next hlatency => rw [h.count, h.wellFormed.ordered.ripe_eq_entries hlatency]
  · next hlatency =>
    have hpos := cfg.latency_pos
    exact (h.timing (by omega)).eligible

/-- The comparison of the shown count with zero. -/
theorem RtlHolds.shown : (s.shownCount.eqNat 0).not = .ofBool (q.valid cfg) := by
  rw [h.shownCount, Register.eqNat_known h.ripe_lt, Logic.not_ofBool, h.wellFormed.ordered.valid_eq]
  congr 1
  simp

theorem RtlHolds.outValid : s.outValid = .ofBool (q.valid cfg) := by
  unfold State.outValid
  rw [h.initialized, h.shown]
  rfl

theorem RtlHolds.localCapacity :
    s.localCapacity = .ofBool (decide (q.entries.length < cfg.depth)) := by
  unfold State.localCapacity
  rw [h.initialized, h.count, Register.ltNat_known h.length_lt]
  rfl

theorem RtlHolds.inReady (outReady : Logic) : s.inReady outReady = q.ready cfg outReady := by
  unfold State.inReady State.doPop Queue.ready
  rw [h.initialized, h.count, Register.ltNat_known h.length_lt, h.outValid]
  rfl

end

theorem RtlHolds.outData [Payload α] (h : RtlHolds s rd q) : s.outData = q.front cfg := by
  unfold State.outData
  rw [h.initialized, h.shown, if_pos rfl, h.wellFormed.ordered.front_eq,
    h.wellFormed.ordered.valid_eq]
  cases hripe : q.ripe cfg with
  | nil => rfl
  | cons e rest =>
    have htokens := h.tokens
    rw [(h.wellFormed.ordered.entries_of_ripe hripe).1] at htokens
    rw [h.front, Register.read_known (depth_le_ptr cfg)]
    exact (get_of_window htokens).1

/-! ## The next values -/

theorem advance_known (i : Fin cfg.depth) :
    advance (.known i : Pointer cfg) = .known (next i) :=
  Register.known_next (depth_le_ptr cfg) i

theorem bump_known {k k' : Nat} {up down : Bool}
    (h : k' + (if down then 1 else 0) = k + (if up then 1 else 0)) :
    bump (.known k : Count cfg) (.ofBool up) (.ofBool down) = .known k' := by
  unfold bump
  rw [Logic.xor_ofBool]
  cases up with
  | false =>
    cases down with
    | false =>
      obtain rfl : k' = k := h
      rfl
    | true =>
      obtain rfl : k' + 1 = k := h
      exact Register.known_sub (Nat.le_add_left 1 k')
  | true =>
    cases down with
    | false =>
      obtain rfl : k' = k + 1 := h
      exact Register.known_add k 1
    | true =>
      obtain rfl : k' = k := Nat.succ.inj h
      rfl

theorem ite_advance (i : Fin cfg.depth) (move : Bool) :
    (if Logic.ofBool move = .one then advance (.known i : Pointer cfg) else .known i) =
      .known (if move then next i else i : Fin cfg.depth) := by
  cases move with
  | false => rfl
  | true => exact advance_known i

variable {push : Option α} {pop : Bool}

/-- The base candidate of an edge. -/
theorem RtlHolds.nextBase_edge (h : RtlHolds s rd q) (hadmits : q.Admits cfg push pop) (token : α) :
    nextBase s.initialized s.rd s.wr s.count .one .zero (.ofBool push.isSome) (.ofBool pop) token =
      { initialized := .one
        rd := .known (if pop then next rd else rd : Fin cfg.depth)
        wr := .known (if push.isSome then next (offset rd q.entries.length)
          else offset rd q.entries.length : Fin cfg.depth)
        count := .known (q.edge push pop).entries.length
        writeToken := .ofBool push.isSome
        writeIndex := .known (offset rd q.entries.length)
        token } := by
  have hwrite : (if Logic.ofBool push.isSome = .one then Logic.one else .zero) =
      .ofBool push.isSome := by
    cases push.isSome <;> rfl
  unfold nextBase
  rw [h.initialized, h.front, h.wr, h.count]
  rw [if_pos rfl, if_neg (by decide), if_pos rfl, ite_advance, ite_advance,
    bump_known (h.wellFormed.length_edge hadmits), hwrite]

/-- The comparison of the first deadline with the next tick. -/
theorem RtlHolds.mature_edge (h : RtlHolds s rd q) (hlatency : 1 < cfg.latency) :
    (if s.count.gt s.eligibleCount = .one then
      (if ((Logic.one.and Logic.zero.not).and s.initialized).and (s.count.gt s.eligibleCount) = .one
        then s.maturePtr.read s.deadline none else none).eq (s.tick.add 1)
      else .zero) = Logic.ofBool (q.matured cfg).isSome := by
  obtain ⟨htick, heligible, hmature, hdeadlines⟩ := h.timing hlatency
  rw [h.initialized, h.count, heligible, Register.gt_known h.length_lt h.ripe_lt, htick,
    Register.known_add, hmature, Register.read_known (depth_le_ptr cfg), h.wellFormed.length]
  unfold Queue.matured
  cases hwaiting : q.waiting cfg with
  | nil => simp
  | cons e rest =>
    rw [hwaiting] at hdeadlines
    have hmem : e ∈ q.waiting cfg := hwaiting ▸ List.mem_cons_self
    have hlate := Queue.not_ripe_of_mem hmem
    have hpast := h.wellFormed.ordered.past e (List.mem_of_mem_filter hmem)
    have hrange := latency_le cfg
    have hocc : (q.ripe cfg).length + (e :: rest).length > (q.ripe cfg).length := by
      rw [List.length_cons]
      omega
    rw [(get_of_window hdeadlines).1, decide_eq_true hocc]
    dsimp only
    rw [if_pos Logic.ofBool_true, if_pos (by decide), Register.eq_known]
    have hdue := mod_eq_mod_iff (Nat.lt_of_not_le hlate)
      (show e.2 + (cfg.latency - 1) < 2 ^ timestampBits cfg + (q.now + 1) by omega)
    by_cases hnow : e.2 + (cfg.latency - 1) = q.now + 1
    · rw [decide_eq_true (hdue.mpr hnow), if_pos hnow]
      rfl
    · rw [decide_eq_false (fun heq => hnow (hdue.mp heq)), if_neg hnow]
      rfl

/-- The timing candidate of an edge. -/
theorem RtlHolds.nextTiming_edge (h : RtlHolds s rd q) (hadmits : q.Admits cfg push pop)
    (hlatency : 1 < cfg.latency) :
    nextTiming s.initialized s.tick
        (if ((Logic.one.and Logic.zero.not).and s.initialized).and
          (s.count.gt s.eligibleCount) = .one then s.maturePtr.read s.deadline none else none)
        s.maturePtr s.count s.eligibleCount .one .zero (.ofBool pop) =
      { tick := .known (q.now + 1)
        maturePtr := .known (offset (if pop then next rd else rd)
          ((q.edge push pop).ripe cfg).length)
        eligibleCount := .known ((q.edge push pop).ripe cfg).length
        writeDeadline := .known (q.now + 1 + (cfg.latency - 1)) } := by
  have hmature := h.mature_edge hlatency
  unfold nextTiming
  dsimp only
  rw [if_pos rfl, if_neg (by decide), if_pos h.initialized, hmature]
  obtain ⟨htick, heligible, hptr, -⟩ := h.timing hlatency
  rw [htick, Register.known_add, Register.known_add, hptr, ite_advance, heligible,
    bump_known (h.wellFormed.ripe_length_edge hadmits hlatency),
    ← h.wellFormed.mature_edge hadmits hlatency rd]

/-! ## The commit of a prepared transaction -/

/-- The state that the commit of a prepared transition leads to. -/
def State.after (s : State cfg α) (rising reset push pop : Logic) (token : α) : State cfg α :=
  (s.prepareTransition rising reset push pop token).commitTransition

section After

variable (s : State cfg α) (rising reset pushes pops : Logic) (token : α)

theorem after_base :
    let base := nextBase s.initialized s.rd s.wr s.count rising reset pushes pops token
    let t := s.after rising reset pushes pops token
    t.initialized = base.initialized ∧ t.rd = base.rd ∧ t.wr = base.wr ∧ t.count = base.count ∧
    t.storage =
      if base.writeToken = .one then base.writeIndex.write s.storage base.token
      else s.storage := by
  unfold State.after State.prepareTransition State.commitTransition State.commitBase
  by_cases hlatency : cfg.latency = 1
  · simp [hlatency]
  · simp [hlatency]

theorem after_timing (hlatency : 1 < cfg.latency) :
    let base := nextBase s.initialized s.rd s.wr s.count rising reset pushes pops token
    let timing := nextTiming s.initialized s.tick
      (if ((rising.and reset.not).and s.initialized).and (s.count.gt s.eligibleCount) = .one then
        s.maturePtr.read s.deadline none else none)
      s.maturePtr s.count s.eligibleCount rising reset pops
    let t := s.after rising reset pushes pops token
    t.tick = timing.tick ∧ t.maturePtr = timing.maturePtr ∧
    t.eligibleCount = timing.eligibleCount ∧
    t.deadline =
      if base.writeToken = .one then base.writeIndex.write s.deadline timing.writeDeadline
      else s.deadline := by
  have hne : cfg.latency ≠ 1 := Nat.ne_of_gt hlatency
  unfold State.after State.prepareTransition State.commitTransition State.commitBase
  simp [hne]

/-- A reset leads to the empty queue, from any state. -/
theorem after_reset : RtlHolds (s.after .one .one pushes pops token) cfg.first ⟨0, []⟩ := by
  obtain ⟨hinit, hrd, hwr, hcount, -⟩ := after_base s .one .one pushes pops token
  have hfirst : (.known 0 : Pointer cfg) = .known (offset cfg.first 0) := by
    rw [offset_zero]
    rfl
  refine ⟨hinit, ⟨⟨List.Pairwise.nil, nofun⟩, Nat.zero_le _⟩, hrd, hcount, hwr.trans hfirst, rfl,
    ?_⟩
  intro hlatency
  obtain ⟨htick, hmature, heligible, -⟩ := after_timing s .one .one pushes pops token hlatency
  exact ⟨htick, heligible, hmature.trans hfirst, rfl⟩

variable {s rising}

/-- Without a rising edge nothing changes. -/
theorem RtlHolds.after_hold (h : RtlHolds s rd q) (hrising : rising ≠ .one) :
    RtlHolds (s.after rising reset pushes pops token) rd q := by
  obtain ⟨hinit, hrd, hwr, hcount, hstorage⟩ := after_base s rising reset pushes pops token
  have hbase : nextBase s.initialized s.rd s.wr s.count rising reset pushes pops token =
      ⟨s.initialized, s.rd, s.wr, s.count, .zero, s.wr, token⟩ := if_neg hrising
  rw [hbase] at hinit hrd hwr hcount hstorage
  refine ⟨hinit.trans h.initialized, h.wellFormed, hrd.trans h.front, hcount.trans h.count,
    hwr.trans h.wr, ?_, ?_⟩
  · rw [hstorage]
    exact h.tokens
  · intro hlatency
    obtain ⟨htick, hmature, heligible, hdeadline⟩ :=
      after_timing s rising reset pushes pops token hlatency
    obtain ⟨htick', heligible', hmature', hdeadlines'⟩ := h.timing hlatency
    unfold nextTiming at htick hmature heligible
    rw [if_neg hrising] at htick hmature heligible
    rw [hbase] at hdeadline
    refine ⟨htick.trans htick', heligible.trans heligible', hmature.trans hmature', ?_⟩
    rw [hdeadline]
    exact hdeadlines'

end After

theorem ite_write {β : Type} (memory : Vector β cfg.depth) (i : Fin cfg.depth) (b : β)
    (writes : Bool) :
    (if Logic.ofBool writes = .one then (.known i : Pointer cfg).write memory b else memory) =
      if writes then memory.set i b i.isLt else memory := by
  cases writes with
  | false => rfl
  | true => exact Register.write_known (depth_le_ptr cfg) memory i b

/-- An edge leads to the queue after the edge. -/
theorem RtlHolds.after_edge (h : RtlHolds s rd q) (hadmits : q.Admits cfg push pop) {token : α}
    (htoken : ∀ a, push = some a → token = a) :
    RtlHolds (s.after .one .zero (.ofBool push.isSome) (.ofBool pop) token)
      (if pop then next rd else rd) (q.edge push pop) := by
  obtain ⟨hinit, hrd, hwr, hcount, hstorage⟩ :=
    after_base s .one .zero (.ofBool push.isSome) (.ofBool pop) token
  rw [h.nextBase_edge hadmits token] at hinit hrd hwr hcount hstorage
  obtain ⟨htokens, hposition⟩ := h.wellFormed.tokens_edge hadmits h.tokens rfl htoken
  rw [hposition] at hwr
  refine ⟨hinit, h.wellFormed.edge hadmits, hrd, hcount, hwr, ?_, ?_⟩
  · rw [hstorage, ite_write]
    exact htokens
  · intro hlatency
    obtain ⟨htick, hmature, heligible, hdeadline⟩ :=
      after_timing s .one .zero (.ofBool push.isSome) (.ofBool pop) token hlatency
    rw [h.nextTiming_edge hadmits hlatency] at htick hmature heligible hdeadline
    rw [h.nextBase_edge hadmits token] at hdeadline
    refine ⟨htick, heligible, hmature, ?_⟩
    rw [hdeadline, ite_write]
    exact h.wellFormed.waiting_edge hadmits hlatency
      (fun birth => (.known (birth + (cfg.latency - 1)) : Timestamp cfg))
      (h.timing hlatency).deadlines rfl

/-! ## The commands -/

/-- The handshake of the transaction is no part of the queue. -/
theorem RtlHolds.control (h : RtlHolds s rd q) (clockCurrent clockPending : Logic)
    (pendingValid preparationError : Bool) :
    RtlHolds { s with clockCurrent, clockPending, pendingValid, preparationError } rd q :=
  ⟨h.initialized, h.wellFormed, h.front, h.count, h.wr, h.tokens,
    fun hlatency => ⟨(h.timing hlatency).tick, (h.timing hlatency).eligible,
      (h.timing hlatency).mature, (h.timing hlatency).deadlines⟩⟩

/-- A preparation changes nothing but the candidates. -/
theorem RtlHolds.prepared (h : RtlHolds s rd q) (rising reset pushes pops : Logic) (token : α) :
    RtlHolds (s.prepareTransition rising reset pushes pops token) rd q := by
  unfold State.prepareTransition
  split <;>
    exact ⟨h.initialized, h.wellFormed, h.front, h.count, h.wr, h.tokens,
      fun hlatency => ⟨(h.timing hlatency).tick, (h.timing hlatency).eligible,
        (h.timing hlatency).mature, (h.timing hlatency).deadlines⟩⟩

theorem prepareTransition_control (s : State cfg α) (rising reset pushes pops : Logic) (token : α) :
    let t := s.prepareTransition rising reset pushes pops token
    t.clockCurrent = s.clockCurrent ∧ t.clockPending = s.clockPending ∧
    t.pendingValid = s.pendingValid ∧ t.preparationError = s.preparationError := by
  unfold State.prepareTransition
  split <;> exact ⟨rfl, rfl, rfl, rfl⟩

theorem commitTransition_control (s : State cfg α) (clockCurrent clockPending : Logic)
    (pendingValid preparationError : Bool) :
    { s with clockCurrent, clockPending, pendingValid, preparationError }.commitTransition =
      { s.commitTransition with clockCurrent, clockPending, pendingValid, preparationError } := by
  unfold State.commitTransition State.commitBase
  split <;> rfl

theorem commit_preparationError (s : State cfg α) (rootCommitOk : Logic) :
    (s.commit rootCommitOk).preparationError = s.preparationError := by
  have htransition : s.commitTransition.preparationError = s.preparationError := by
    unfold State.commitTransition
    split <;> rfl
  unfold State.commit
  split
  · exact htransition
  · rfl

/-- The prepared transaction stands for the proposal of the machine. -/
structure Prepared (s : State cfg α) (m : Machine α) : Prop where
  active : m.proposal ≠ .idle
  valid : s.pendingValid = true
  clock : s.clockPending = .ofBool m.commit.clock
  holds : ∃ rd, RtlHolds s.commitTransition rd m.commit.queue

/-- The module is in the state of the machine. -/
structure RtlRefines (s : State cfg α) (m : Machine α) : Prop where
  holds : ∃ rd, RtlHolds s rd m.queue
  clock : s.clockCurrent = .ofBool m.clock
  proposed : (m.proposal = .idle ∧ s.pendingValid = false) ∨ Prepared s m

variable {m : Machine α}

theorem RtlRefines.of_idle (h : RtlRefines s m) (preparationError : Bool) :
    RtlRefines { s with pendingValid := false, preparationError } ⟨m.queue, m.clock, .idle⟩ := by
  obtain ⟨rd, hholds⟩ := h.holds
  exact ⟨⟨rd, hholds.control _ _ _ _⟩, h.clock, Or.inl ⟨rfl, rfl⟩⟩

theorem commit_proposal (m : Machine α) : m.commit.proposal = .idle := by
  obtain ⟨q, clock, proposal⟩ := m
  cases proposal <;> rfl

/-- The commit of a prepared transaction. -/
theorem Prepared.commit (h : Prepared s m) : RtlRefines (s.commit .one) m.commit := by
  obtain ⟨rd, hholds⟩ := h.holds
  have hcommit : s.commit .one =
      { s.commitTransition with clockCurrent := s.clockPending, pendingValid := false } := by
    rw [State.commit, if_pos ⟨h.valid, rfl⟩]
  rw [hcommit]
  exact ⟨⟨rd, hholds.control _ _ _ _⟩, h.clock, Or.inl ⟨commit_proposal m, rfl⟩⟩

/-- A COMMIT transfers the transaction, or drops it without the permission of the root. -/
theorem RtlRefines.commit (h : RtlRefines s m) (rootCommitOk : Logic) :
    RtlRefines (s.commit rootCommitOk) (m.call cfg (Command.commit rootCommitOk).call) := by
  -- Without a transaction or without permission only the flag falls.
  have hdropped : ¬ (s.pendingValid = true ∧ rootCommitOk = .one) →
      RtlRefines (s.commit rootCommitOk) ⟨m.queue, m.clock, .idle⟩ := by
    intro hnot
    rw [State.commit, if_neg hnot]
    exact h.of_idle s.preparationError
  by_cases hok : rootCommitOk = .one
  · subst hok
    show RtlRefines _ m.commit
    rcases h.proposed with ⟨hidle, hvalid⟩ | hprepared
    · have hm : m.commit = ⟨m.queue, m.clock, .idle⟩ := by
        obtain ⟨q, clock, proposal⟩ := m
        obtain rfl : proposal = .idle := hidle
        rfl
      rw [hm]
      exact hdropped fun hboth => absurd (hvalid.symm.trans hboth.1) Bool.false_ne_true
    · exact hprepared.commit
  · rw [Command.call, if_neg hok]
    exact hdropped fun hboth => hok hboth.2

/-- The state in which a PREPARE computes the candidates. -/
def State.sampled (s : State cfg α) (data : α) : State cfg α :=
  ({ s with
    pendingValid := false, preparationError := false, clockPending := s.clockCurrent }
      ).prepareTransition .zero .zero .zero .zero data

theorem RtlRefines.sampled (h : RtlRefines s m) (data : α) :
    (∃ rd, RtlHolds (s.sampled data) rd m.queue) ∧
    (s.sampled data).clockCurrent = .ofBool m.clock ∧ (s.sampled data).pendingValid = false ∧
    (s.sampled data).preparationError = false := by
  obtain ⟨rd, hholds⟩ := h.holds
  obtain ⟨hclock, -, hvalid, herror⟩ := prepareTransition_control
    { s with pendingValid := false, preparationError := false, clockPending := s.clockCurrent }
    .zero .zero .zero .zero data
  exact ⟨⟨rd, (hholds.control _ _ _ _).prepared _ _ _ _ _⟩, hclock.trans h.clock, hvalid, herror⟩

theorem edgeControlError_edge (pushes pops : Logic) :
    edgeControlError .one .zero pushes pops = decide (¬ pushes.Known ∨ ¬ pops.Known) := by
  cases pushes <;> cases pops <;> rfl

/-- The checks of a PREPARE on the sampled pins. -/
def State.controlError (s : State cfg α) (pins : Inputs α) : Bool :=
  edgeControlError (s.clockCurrent.not.and pins.clk) pins.rst
    (s.doPush pins.inValid pins.outReady) (s.doPop pins.outReady)

theorem sampled_control (s : State cfg α) (pins : Inputs α) :
    edgeControlError ((s.sampled pins.inData).clockCurrent.not.and pins.clk) pins.rst
      (s.doPush pins.inValid pins.outReady) (s.doPop pins.outReady) = s.controlError pins := by
  have hcurrent : (s.sampled pins.inData).clockCurrent = s.clockCurrent :=
    (prepareTransition_control _ _ _ _ _ _).1
  rw [hcurrent, State.controlError]

/-- A PREPARE that fails drops the transaction. -/
theorem RtlRefines.prepare_error (h : RtlRefines s m) {pins : Inputs α}
    (herror : ¬ pins.clk.Known ∨ (pins.clk.Known ∧ s.controlError pins = true)) :
    RtlRefines (s.prepare pins) ⟨m.queue, m.clock, .idle⟩ ∧
    (s.prepare pins).preparationError = true := by
  obtain ⟨⟨rd, hholds⟩, hclock, hvalid, -⟩ := h.sampled pins.inData
  have hprepare :
      s.prepare pins = { s.sampled pins.inData with preparationError := true } := by
    rcases herror with hclk | ⟨hclk, hcontrol⟩
    · exact if_pos hclk
    · have hsampled := (sampled_control s pins).trans hcontrol
      refine (if_neg (not_not_intro hclk)).trans ((if_pos hsampled).trans ?_)
      exact congrArg (fun preparationError => { s.sampled pins.inData with preparationError })
        hsampled
  rw [hprepare]
  exact ⟨⟨⟨rd, hholds.control _ _ _ _⟩, hclock, Or.inl ⟨rfl, hvalid⟩⟩, rfl⟩

/-- A PREPARE that succeeds holds a proposal when its transition leads to what the proposal
does. -/
theorem RtlRefines.prepare_ok (h : RtlRefines s m) {pins : Inputs α} {clock : Bool}
    {proposal : Proposal α} (hclk : pins.clk = .ofBool clock)
    (hcontrol : s.controlError pins = false) (hactive : proposal ≠ .idle)
    (hcommit : (Machine.commit ⟨m.queue, m.clock, proposal⟩).clock = clock)
    (hafter : ∀ (t : State cfg α) (rd : Fin cfg.depth), RtlHolds t rd m.queue →
      ∃ rd', RtlHolds (t.after (.ofBool (!(m.clock || !clock))) pins.rst
        (s.doPush pins.inValid pins.outReady) (s.doPop pins.outReady) pins.inData) rd'
        (Machine.commit ⟨m.queue, m.clock, proposal⟩).queue) :
    RtlRefines (s.prepare pins) ⟨m.queue, m.clock, proposal⟩ ∧
    (s.prepare pins).localError = false := by
  obtain ⟨⟨rd, hholds⟩, hclock, -, herror⟩ := h.sampled pins.inData
  have hsampled := (sampled_control s pins).trans hcontrol
  have hrising : (s.sampled pins.inData).clockCurrent.not.and pins.clk =
      .ofBool (!(m.clock || !clock)) := by
    rw [hclock, hclk, Logic.rising_ofBool]
  have hprepare : s.prepare pins =
      { (s.sampled pins.inData).prepareTransition
          ((s.sampled pins.inData).clockCurrent.not.and pins.clk) pins.rst
          (s.doPush pins.inValid pins.outReady) (s.doPop pins.outReady) pins.inData with
        clockPending := pins.clk, pendingValid := true } :=
    (if_neg (not_not_intro (hclk ▸ Logic.ofBool_known clock))).trans
      (if_neg fun hraised => absurd (hsampled.symm.trans hraised) Bool.false_ne_true)
  obtain ⟨rd', hrd'⟩ := hafter _ rd hholds
  obtain ⟨hcurrent, -, -, hkept⟩ := prepareTransition_control (s.sampled pins.inData)
    (.ofBool (!(m.clock || !clock))) pins.rst (s.doPush pins.inValid pins.outReady)
    (s.doPop pins.outReady) pins.inData
  rw [hprepare, hrising]
  refine ⟨⟨⟨rd, (hholds.prepared _ _ _ _ _).control _ _ _ _⟩, hcurrent.trans hclock,
    Or.inr ⟨hactive, rfl, ?_, rd', ?_⟩⟩, ?_⟩
  · rw [hcommit]
    exact hclk
  · rw [commitTransition_control]
    exact hrd'.control _ _ _ _
  · rw [State.localError, hkept, herror]
    rfl

section Pins

variable {pins : Inputs α}

section

variable (h : RtlRefines s m)
include h

theorem RtlRefines.controlError {clock : Bool} (hclk : pins.clk = .ofBool clock) :
    s.controlError pins = edgeControlError (.ofBool (!(m.clock || !clock))) pins.rst
      (pins.inValid.and (m.queue.ready cfg pins.outReady))
      ((Logic.ofBool (m.queue.valid cfg)).and pins.outReady) := by
  obtain ⟨rd, hholds⟩ := h.holds
  rw [State.controlError, State.doPush, State.doPop, hholds.inReady, hholds.outValid, h.clock, hclk,
    Logic.rising_ofBool]

/-- At a rising edge without reset the transfers have to be known. -/
theorem RtlRefines.prepare_unknown (hclk : pins.clk = .one) (hclock : m.clock = false)
    (hrst : pins.rst = .zero)
    (hunknown : (pins.inValid.and (m.queue.ready cfg pins.outReady)).toBool? = none ∨
      ((Logic.ofBool (m.queue.valid cfg)).and pins.outReady).toBool? = none) :
    RtlRefines (s.prepare pins) ⟨m.queue, m.clock, .idle⟩ ∧
    (s.prepare pins).preparationError = true := by
  have hcontrol := h.controlError (show pins.clk = .ofBool true from hclk)
  rw [hclock, hrst] at hcontrol
  rw [Logic.toBool?_eq_none, Logic.toBool?_eq_none] at hunknown
  refine h.prepare_error (Or.inr ⟨hclk ▸ Logic.ofBool_known true, hcontrol.trans ?_⟩)
  exact (edgeControlError_edge _ _).trans (decide_eq_true hunknown)

/-- At a rising edge without reset the known transfers are proposed. -/
theorem RtlRefines.prepare_edge (hclk : pins.clk = .one) (hclock : m.clock = false)
    (hrst : pins.rst = .zero) {push pop : Bool}
    (hpush : (pins.inValid.and (m.queue.ready cfg pins.outReady)).toBool? = some push)
    (hpop : ((Logic.ofBool (m.queue.valid cfg)).and pins.outReady).toBool? = some pop) :
    RtlRefines (s.prepare pins)
      ⟨m.queue, m.clock, .edge (if push then some pins.inData else none) pop⟩ ∧
    (s.prepare pins).localError = false := by
  obtain ⟨rd, hholds⟩ := h.holds
  have hadmits := Queue.admits hpush hpop pins.inData
  have hsome : (if push then some pins.inData else none).isSome = push := by
    cases push <;> rfl
  have htoken : ∀ a, (if push then some pins.inData else none) = some a → pins.inData = a := by
    intro a ha
    cases push with
    | false => cases ha
    | true => exact Option.some.inj ha
  have hcontrol := h.controlError (show pins.clk = .ofBool true from hclk)
  rw [Logic.toBool?_eq_some] at hpush hpop
  rw [hclock, hrst, hpush, hpop] at hcontrol
  refine h.prepare_ok (show pins.clk = .ofBool true from hclk) ?_ nofun rfl ?_
  · rw [hcontrol]
    cases push <;> cases pop <;> rfl
  · intro t rd' hrd'
    have hafter := hrd'.after_edge hadmits htoken
    rw [hsome] at hafter
    rw [hclock, hrst, State.doPush, State.doPop, hholds.inReady, hholds.outValid, hpush, hpop]
    exact ⟨_, hafter⟩

/-- A PREPARE has the outcome of a proposal of the machine. -/
theorem RtlRefines.prepare (pins : Inputs α) :
    (∃ proposal, m.propose cfg pins = .ok proposal ∧
      RtlRefines (s.prepare pins) ⟨m.queue, m.clock, proposal⟩ ∧
      (s.prepare pins).localError = false) ∨
    ∃ message, m.propose cfg pins = .error message ∧
      RtlRefines (s.prepare pins) ⟨m.queue, m.clock, .idle⟩ ∧
      (s.prepare pins).preparationError = true := by
  unfold Machine.propose
  cases hclk : pins.clk.toBool? with
  | none => exact Or.inr ⟨_, rfl, h.prepare_error (Or.inl (Logic.toBool?_eq_none.mp hclk))⟩
  | some clock =>
    have hpin : pins.clk = .ofBool clock := Logic.toBool?_eq_some.mp hclk
    have hcontrol := h.controlError hpin
    dsimp only
    by_cases hhold : (m.clock || !clock) = true
    · rw [if_pos hhold]
      refine Or.inl ⟨_, rfl, h.prepare_ok hpin ?_ nofun rfl ?_⟩
      · rw [hcontrol, hhold]
        rfl
      · intro t rd' hrd'
        rw [hhold]
        exact ⟨rd', hrd'.after_hold _ _ _ _ nofun⟩
    rw [if_neg hhold]
    obtain ⟨hclock, rfl⟩ : m.clock = false ∧ clock = true := by
      revert hhold
      cases m.clock <;> cases clock <;> decide
    rw [hclock] at hcontrol
    cases hrst : pins.rst.toBool? with
    | none =>
      refine Or.inr ⟨_, rfl, h.prepare_error (Or.inr ⟨hpin ▸ Logic.ofBool_known true, ?_⟩)⟩
      exact hcontrol.trans ((if_pos rfl).trans (if_pos (Logic.toBool?_eq_none.mp hrst)))
    | some rst =>
      have hrstPin : pins.rst = .ofBool rst := Logic.toBool?_eq_some.mp hrst
      cases rst with
      | true =>
        refine Or.inl ⟨_, rfl, h.prepare_ok hpin ?_ nofun rfl ?_⟩
        · rw [hcontrol, hrstPin]
          rfl
        · intro t rd' _
          rw [hclock, hrstPin]
          exact ⟨_, after_reset t _ _ _⟩
      | false =>
        cases hpush : (pins.inValid.and (m.queue.ready cfg pins.outReady)).toBool? with
        | none =>
          exact Or.inr ⟨_, rfl, h.prepare_unknown hpin hclock hrstPin (Or.inl hpush)⟩
        | some push =>
          cases hpop :
              ((Logic.ofBool (m.queue.valid cfg)).and pins.outReady).toBool? with
          | none =>
            exact Or.inr ⟨_, rfl, h.prepare_unknown hpin hclock hrstPin (Or.inr hpop)⟩
          | some pop =>
            exact Or.inl ⟨_, rfl, h.prepare_edge hpin hclock hrstPin hpush hpop⟩

/-- A PREPARE raises the error flag, and shows it, when the machine refuses the proposal. -/
theorem RtlRefines.prepare_errors (pins : Inputs α) :
    (s.prepare pins).preparationError = (m.thrown cfg (.work pins)).isSome ∧
    (s.prepare pins).localError = (m.thrown cfg (.work pins)).isSome := by
  rcases h.prepare pins with ⟨proposal, hm, -, herror⟩ | ⟨message, hm, -, herror⟩
  · have hthrown : m.thrown cfg (.work pins) = none := by simp only [Machine.thrown, hm]
    rw [hthrown]
    exact ⟨(Bool.or_eq_false_iff.mp herror).1, herror⟩
  · have hthrown : m.thrown cfg (.work pins) = some message := by simp only [Machine.thrown, hm]
    rw [hthrown, State.localError, herror]
    exact ⟨rfl, rfl⟩

end

end Pins

variable [Payload α]

/-- A RESET prepares the empty queue, from any state. -/
theorem reset_prepared (s : State cfg α) (q : Queue α) (clock : Bool) :
    Prepared (s.command .reset) ⟨q, clock, .reset false⟩ := by
  refine ⟨nofun, rfl, rfl, cfg.first, ?_⟩
  rw [State.command, commitTransition_control]
  exact (after_reset s _ _ _).control _ _ _ _

/-- Every command of the module is the call of the machine that it stands for. -/
theorem RtlRefines.command (h : RtlRefines s m) (c : Command α) :
    RtlRefines (s.command c) (m.call cfg c.call) := by
  cases c with
  | prepare pins =>
    rcases h.prepare pins with ⟨proposal, hm, hrefines, -⟩ | ⟨message, hm, hrefines, -⟩
    · simp only [Command.call, Machine.call, hm]
      exact hrefines
    · simp only [Command.call, Machine.call, hm]
      exact hrefines
  | commit rootCommitOk => exact h.commit rootCommitOk
  | discard => exact h.of_idle false
  | reset =>
    obtain ⟨rd, hholds⟩ := h.holds
    obtain ⟨hcurrent, -, -, -⟩ :=
      prepareTransition_control s .one .one .zero .zero Payload.unknown
    exact ⟨⟨rd, (hholds.prepared _ _ _ _ _).control _ _ _ _⟩, hcurrent.trans h.clock,
      Or.inr (reset_prepared s m.queue m.clock)⟩

theorem RtlRefines.run (h : RtlRefines s m) (commands : List (Command α)) :
    RtlRefines (s.run commands) (m.run cfg (commands.map Command.call)) := by
  induction commands generalizing s m with
  | nil => exact h
  | cons c commands ih => exact ih (h.command c)

end

end PyCircuit.Fifo.Rtl
