import PyCircuit.Fifo.Slots
import PyCircuit.Lib.Limbs

/-!
# The kernel refines the delayed queue

A lane holds a queue when the ring holds its tokens and, at a latency above one, the timing state
tells which of them are ripe: the count of ripe tokens, the position after them, the tick as the
number of edges modulo the timestamp range, and a deadline for each waiting token (`Holds`). Every
call keeps that (`Refines.call`), so after any run the lane shows what the queue shows.

A waiting token is due within `latency - 1` edges, which is less than the timestamp range. So its
deadline is the next tick only when it is due, however often the timestamps have wrapped
(`due_iff`).
-/

set_option autoImplicit false

namespace PyCircuit.Fifo

open PyCircuit.Lib Ring

/-! ## Timestamps -/

namespace Config

variable (cfg : Config)

theorem timestampWidth_le : cfg.timestampWidth ≤ 64 := by
  have hlt := cfg.latency_lt
  exact Nat.size_le.mpr (by omega)

theorem latency_le : cfg.latency ≤ 2 ^ cfg.timestampWidth := by
  have hlt : cfg.latency - 1 < 2 ^ cfg.timestampWidth := Nat.lt_size_self _
  omega

theorem toNat_wrapTick (v : BitVec 64) :
    (cfg.wrapTick v).toNat = v.toNat % 2 ^ cfg.timestampWidth := by
  unfold wrapTick
  split
  · next hwidth => rw [hwidth, Nat.mod_eq_of_lt v.isLt]
  · next hwidth =>
    have hlt : cfg.timestampWidth < 64 := Nat.lt_of_le_of_ne cfg.timestampWidth_le hwidth
    rw [BitVec.toNat_and, Limbs.toNat_lowMask hlt, Nat.and_two_pow_sub_one_eq_mod]

/-- Additions wrap at 64 bits before they wrap at the timestamp range. -/
theorem toNat_wrapTick_add (v : BitVec 64) (k : Nat) :
    (cfg.wrapTick (v + BitVec.ofNat 64 k)).toNat = (v.toNat + k) % 2 ^ cfg.timestampWidth := by
  have hdvd : 2 ^ cfg.timestampWidth ∣ 2 ^ 64 := Nat.pow_dvd_pow 2 cfg.timestampWidth_le
  rw [toNat_wrapTick, BitVec.toNat_add, BitVec.toNat_ofNat, Nat.add_mod_mod,
    Nat.mod_mod_of_dvd _ hdvd]

/-- The timestamp of an edge. -/
def stamp (edge : Nat) : BitVec 64 := BitVec.ofNat 64 (edge % 2 ^ cfg.timestampWidth)

theorem toNat_stamp (edge : Nat) : (cfg.stamp edge).toNat = edge % 2 ^ cfg.timestampWidth := by
  have hlt : edge % 2 ^ cfg.timestampWidth < 2 ^ cfg.timestampWidth :=
    Nat.mod_lt _ (Nat.two_pow_pos _)
  have hle : 2 ^ cfg.timestampWidth ≤ 2 ^ 64 :=
    Nat.pow_le_pow_right (by decide) cfg.timestampWidth_le
  rw [stamp, BitVec.toNat_ofNat, Nat.mod_eq_of_lt (Nat.lt_of_lt_of_le hlt hle)]

/-- Wrapped additions of timestamps are timestamps. -/
theorem wrapTick_stamp_add (edge k : Nat) :
    cfg.wrapTick (cfg.stamp edge + BitVec.ofNat 64 k) = cfg.stamp (edge + k) := by
  apply BitVec.eq_of_toNat_eq
  rw [toNat_wrapTick_add, toNat_stamp, toNat_stamp, Nat.mod_add_mod]

/-- A deadline ahead by less than the timestamp range is the next tick only when it is due. -/
theorem due_iff {now deadline : Nat} (hahead : now < deadline)
    (hnear : deadline ≤ now + (cfg.latency - 1)) :
    cfg.stamp deadline = cfg.stamp (now + 1) ↔ deadline = now + 1 := by
  have hrange := cfg.latency_le
  rw [← BitVec.toNat_inj, toNat_stamp, toNat_stamp, mod_eq_mod_iff hahead (by omega)]

end Config

section

variable {cfg : Config} {α : Type}

/-! ## The relation -/

/-- The timing state tells which tokens of the queue are ripe. -/
structure TimingHolds (timing : Timing cfg) (rd : Fin cfg.depth) (q : Queue α) : Prop where
  tick : timing.tick = cfg.stamp q.now
  eligible : timing.eligibleCount = (q.ripe cfg).length
  mature : timing.maturePtr = Ring.offset rd (q.ripe cfg).length
  deadlines : Ring.window timing.deadline (Ring.offset rd (q.ripe cfg).length)
    (q.waiting cfg).length = (q.waiting cfg).map fun e => cfg.stamp (e.2 + (cfg.latency - 1))

/-- The committed state holds the queue. -/
structure Holds (current : Current cfg α) (q : Queue α) : Prop where
  initialized : current.initialized = true
  wellFormed : q.WellFormed cfg
  count : current.count = q.entries.length
  wr : current.wr = Ring.offset current.rd q.entries.length
  tokens : Ring.window current.storage current.rd q.entries.length = q.entries.map Prod.fst
  timing : 1 < cfg.latency → TimingHolds current.timing current.rd q

variable {current : Current cfg α} {q : Queue α} {m : Machine α} {lane : Lane cfg α}

theorem Holds.eligibleCount (h : Holds current q) :
    eligibleCount current = (q.ripe cfg).length := by
  unfold Fifo.eligibleCount
  split
  · next hlatency => rw [h.count, h.wellFormed.ordered.ripe_eq_entries hlatency]
  · next hlatency =>
    have hpos := cfg.latency_pos
    exact (h.timing (by omega)).eligible

/-! ## The reads -/

theorem Holds.readValid (h : Holds current q) :
    readValid current = .ofBool (q.valid cfg) := by
  unfold Fifo.readValid
  rw [h.initialized, h.eligibleCount, h.wellFormed.ordered.valid_eq]
  rfl

theorem Holds.readReady (h : Holds current q)
    (outReady : Logic) : readReady current outReady = q.ready cfg outReady := by
  unfold Fifo.readReady Queue.ready
  rw [h.initialized, h.readValid, h.count]
  rfl

theorem Holds.readData [Payload α] (h : Holds current q) :
    readData current = q.front cfg := by
  unfold Fifo.readData
  rw [h.initialized, h.eligibleCount, h.wellFormed.ordered.front_eq]
  cases hripe : q.ripe cfg with
  | nil => rfl
  | cons e rest =>
    have htokens := h.tokens
    rw [(h.wellFormed.ordered.entries_of_ripe hripe).1] at htokens
    exact (get_of_window htokens).1

/-! ## One edge -/

/-- The proposal of an edge of the queue. -/
structure EdgeProposed (cfg : Config) (q : Queue α) (pending : Pending α) (push : Option α)
    (pop : Bool) : Prop where
  pushes : pending.push = push.isSome
  carries : ∀ a, push = some a → pending.token = a
  pops : pending.pop = pop
  advances : 1 < cfg.latency → pending.advanceTime = true
  matures : 1 < cfg.latency → pending.mature = (q.matured cfg).isSome
  admitted : q.Admits cfg push pop

variable {current : Current cfg α} {q : Queue α} {pending : Pending α} {push : Option α}
  {pop : Bool}

section

variable (h : Holds current q) (hp : EdgeProposed cfg q pending push pop)
include h hp

/-- The occupancy after an edge. -/
theorem Holds.count_edge : (xferEdge current pending).count = (q.edge push pop).entries.length := by
  have hlength := h.wellFormed.length_edge hp.admitted
  show (if pending.push != pending.pop then
      if pending.push then current.count + 1 else current.count - 1 else current.count) = _
  rw [hp.pushes, hp.pops, h.count]
  cases hpush : push.isSome <;> cases pop <;> simp [hpush] at hlength ⊢ <;> omega

theorem Holds.eligible_edge (hlatency : 1 < cfg.latency) :
    (xferTiming current.timing current.wr pending).eligibleCount =
      ((q.edge push pop).ripe cfg).length := by
  have hlength := h.wellFormed.ripe_length_edge hp.admitted hlatency
  show (if pending.mature != pending.pop then
      if pending.mature then current.timing.eligibleCount + 1 else current.timing.eligibleCount - 1
      else current.timing.eligibleCount) = _
  rw [hp.matures hlatency, hp.pops, (h.timing hlatency).eligible]
  cases hm : (q.matured cfg).isSome <;> cases pop <;> simp [hm] at hlength ⊢ <;> omega

/-- The timing state after an edge. -/
theorem Holds.timing_edge (hlatency : 1 < cfg.latency) :
    TimingHolds (xferTiming current.timing current.wr pending) (xferEdge current pending).rd
      (q.edge push pop) := by
  obtain ⟨htick, -, hmature, hdeadlines⟩ := h.timing hlatency
  have hrd : (xferEdge current pending).rd = if pop then next current.rd else current.rd := by
    rw [← hp.pops]
    rfl
  have hnext : cfg.wrapTick (current.timing.tick + 1#64) = cfg.stamp (q.now + 1) := by
    rw [htick]
    exact cfg.wrapTick_stamp_add q.now 1
  refine ⟨?_, h.eligible_edge hp hlatency, ?_, ?_⟩
  · show (if pending.advanceTime then _ else _) = _
    rw [hp.advances hlatency, if_pos rfl]
    exact hnext
  · show (if pending.mature then _ else _) = _
    rw [hp.matures hlatency, hmature, hrd]
    exact h.wellFormed.mature_edge hp.admitted hlatency current.rd
  · rw [hrd]
    show window (if pending.push then current.timing.deadline.set current.wr
      (cfg.wrapTick ((if pending.advanceTime then _ else _) + _)) else current.timing.deadline)
        _ _ = _
    rw [hp.advances hlatency, if_pos rfl, hnext, cfg.wrapTick_stamp_add, hp.pushes]
    exact h.wellFormed.waiting_edge hp.admitted hlatency
      (fun birth => cfg.stamp (birth + (cfg.latency - 1))) hdeadlines h.wr

/-- The committed state after an edge holds the queue after the edge. -/
theorem Holds.xferEdge : Holds (xferEdge current pending) (q.edge push pop) := by
  obtain rfl := hp.pops
  obtain ⟨htokens, hwr⟩ := h.wellFormed.tokens_edge hp.admitted h.tokens h.wr hp.carries
  rw [← hp.pushes] at htokens hwr
  refine ⟨h.initialized, h.wellFormed.edge hp.admitted, h.count_edge hp, hwr, htokens, ?_⟩
  intro hlatency
  have htiming : (Fifo.xferEdge current pending).timing =
      xferTiming current.timing current.wr pending := if_pos hlatency
  rw [htiming]
  exact h.timing_edge hp hlatency

end

/-- The comparison of the first deadline with the next tick tells whether a token becomes ripe. -/
theorem Holds.mature_iff (h : Holds current q) (hlatency : 1 < cfg.latency) :
    (decide (current.count > current.timing.eligibleCount) &&
      decide (current.timing.deadline.get current.timing.maturePtr =
        cfg.wrapTick (current.timing.tick + 1#64))) = (q.matured cfg).isSome := by
  obtain ⟨htick, heligible, hmature, hdeadlines⟩ := h.timing hlatency
  have hnext : cfg.wrapTick (current.timing.tick + 1#64) = cfg.stamp (q.now + 1) := by
    rw [htick]
    exact cfg.wrapTick_stamp_add q.now 1
  rw [hnext, h.count, heligible, h.wellFormed.length, hmature]
  unfold Queue.matured
  cases hwaiting : q.waiting cfg with
  | nil => simp
  | cons e rest =>
    rw [hwaiting] at hdeadlines
    have hmem : e ∈ q.waiting cfg := hwaiting ▸ List.mem_cons_self
    have hlate := Queue.not_ripe_of_mem hmem
    have hpast := h.wellFormed.ordered.past e (List.mem_of_mem_filter hmem)
    rw [(get_of_window hdeadlines).1]
    have hdue := cfg.due_iff (Nat.lt_of_not_le hlate)
      (Nat.add_le_add_right hpast (cfg.latency - 1))
    have hocc : (q.ripe cfg).length + (e :: rest).length > (q.ripe cfg).length := by
      rw [List.length_cons]
      omega
    rw [decide_eq_true hocc, Bool.true_and]
    by_cases hnow : e.2 + (cfg.latency - 1) = q.now + 1
    · rw [decide_eq_true (hdue.mpr hnow)]
      simp [hnow]
    · rw [decide_eq_false (fun heq => hnow (hdue.mp heq))]
      simp [hnow]

/-! ## The calls -/

/-- The proposal of the lane is that of the machine. -/
def Proposed (cfg : Config) (q : Queue α) (pending : Pending α) : Proposal α → Prop
  | .idle => pending.valid = false
  | .hold clock => pending.valid = true ∧ pending.clock = clock ∧ pending.reset = false ∧
      pending.push = false ∧ pending.pop = false ∧ pending.advanceTime = false ∧
      pending.mature = false
  | .reset clock => pending.valid = true ∧ pending.clock = clock ∧ pending.reset = true
  | .edge push pop => pending.valid = true ∧ pending.clock = true ∧ pending.reset = false ∧
      EdgeProposed cfg q pending push pop

/-- The lane is in the state of the machine. -/
structure Refines (lane : Lane cfg α) (m : Machine α) : Prop where
  holds : Holds lane.current m.queue
  clock : lane.current.clock = m.clock
  proposed : Proposed cfg m.queue lane.pending m.proposal

/-- The transfers that the lane proposes are those of the queue. -/
theorem Holds.transfers_ok (h : Holds current q) (pending : Pending α) {inputs : Inputs α}
    {push pop : Bool}
    (hpush : (inputs.inValid.and (q.ready cfg inputs.outReady)).toBool? = some push)
    (hpop : ((Logic.ofBool (q.valid cfg)).and inputs.outReady).toBool? = some pop)
    (hvalid : pending.valid = true) (hclock : pending.clock = true)
    (hreset : pending.reset = false) :
    ∃ pending', transfers current inputs pending = .ok pending' ∧
      Proposed cfg q pending' (.edge (if push then some inputs.inData else none) pop) := by
  have hadmits := Queue.admits hpush hpop inputs.inData
  have hsome : (if push then some inputs.inData else none).isSome = push := by
    cases push <;> rfl
  have hcarries : ∀ a, (if push then some inputs.inData else none) = some a →
      (if push then inputs.inData else pending.token) = a := by
    intro a ha
    cases push with
    | false => cases ha
    | true => exact Option.some.inj ha
  unfold Fifo.transfers
  dsimp only
  rw [h.readValid, h.readReady, hpush, hpop]
  dsimp only
  by_cases hlatency : 1 < cfg.latency
  · rw [if_pos ⟨hlatency, h.initialized⟩]
    exact ⟨_, rfl, hvalid, hclock, hreset, hsome.symm, hcarries, rfl, fun _ => rfl,
      fun _ => h.mature_iff hlatency, hadmits⟩
  · rw [if_neg (fun hboth => hlatency hboth.1)]
    exact ⟨_, rfl, hvalid, hclock, hreset, hsome.symm, hcarries, rfl,
      fun hlt => (hlatency hlt).elim, fun hlt => (hlatency hlt).elim, hadmits⟩

theorem Holds.transfers_error (h : Holds current q) {inputs : Inputs α}
    (hunknown : (inputs.inValid.and (q.ready cfg inputs.outReady)).toBool? = none ∨
      ((Logic.ofBool (q.valid cfg)).and inputs.outReady).toBool? = none) :
    transfers current inputs pending = .error "fifo effective transfers must be known" := by
  unfold Fifo.transfers
  dsimp only
  rw [h.readValid, h.readReady]
  rcases hunknown with hpush | hpop
  · rw [hpush]
  · rw [hpop]
    cases (inputs.inValid.and (q.ready cfg inputs.outReady)).toBool? <;> rfl

/-- What the lane proposes is what the machine proposes. -/
theorem Holds.propose (h : Holds current q) (hq : m.queue = q)
    (hclock : current.clock = m.clock) (inputs : Inputs α) (pending : Pending α) :
    (∃ pending' proposal, propose current inputs (discard current pending) = .ok pending' ∧
      m.propose cfg inputs = .ok proposal ∧ Proposed cfg q pending' proposal) ∨
    ∃ message, propose current inputs (discard current pending) = .error message ∧
      m.propose cfg inputs = .error message := by
  subst hq
  unfold Fifo.propose Machine.propose
  rw [hclock]
  cases hclk : inputs.clk.toBool? with
  | none => exact Or.inr ⟨_, rfl, rfl⟩
  | some clock =>
    dsimp only
    by_cases hedge : (m.clock || !clock) = true
    · rw [if_pos hedge, if_pos hedge]
      exact Or.inl ⟨_, _, rfl, rfl, rfl, rfl, rfl, rfl, rfl, rfl, rfl⟩
    rw [if_neg hedge, if_neg hedge]
    have hrising : clock = true := by
      cases clock with
      | false => exact (hedge (Bool.or_true _)).elim
      | true => rfl
    cases hrst : inputs.rst.toBool? with
    | none => exact Or.inr ⟨_, rfl, rfl⟩
    | some rst =>
      cases rst with
      | true => exact Or.inl ⟨_, _, rfl, rfl, rfl, rfl, rfl⟩
      | false =>
        cases hpush : (inputs.inValid.and (m.queue.ready cfg inputs.outReady)).toBool? with
        | none => exact Or.inr ⟨_, h.transfers_error (Or.inl hpush), rfl⟩
        | some push =>
          cases hpop : ((Logic.ofBool (m.queue.valid cfg)).and inputs.outReady).toBool? with
          | none => exact Or.inr ⟨_, h.transfers_error (Or.inr hpop), rfl⟩
          | some pop =>
            obtain ⟨pending', hok, hproposed⟩ := h.transfers_ok
              { discard current pending with clock, valid := true } hpush hpop
              rfl hrising rfl
            exact Or.inl ⟨pending', _, hok, rfl, hproposed⟩

/-- The clock history is no part of the queue. -/
theorem Holds.with_clock (h : Holds current q) (clock : Bool) :
    Holds { current with clock := clock } q :=
  ⟨h.initialized, h.wellFormed, h.count, h.wr, h.tokens, h.timing⟩

/-- The metadata of an empty queue hold the empty queue, whatever the slots hold. -/
theorem xferReset_holds (current : Current cfg α) : Holds (xferReset current) ⟨0, []⟩ := by
  refine ⟨rfl, ⟨⟨List.Pairwise.nil, nofun⟩, Nat.zero_le _⟩, rfl, (offset_zero _).symm, rfl, ?_⟩
  intro hlatency
  have htiming : (xferReset current).timing =
      { current.timing with tick := 0#64, maturePtr := cfg.first, eligibleCount := 0 } :=
    if_pos hlatency
  rw [htiming]
  exact ⟨by rw [Config.stamp, Nat.zero_mod], rfl, (offset_zero _).symm, rfl⟩

/-- An edge on which nothing happens. -/
theorem xferEdge_of_hold {pending : Pending α} (hpush : pending.push = false)
    (hpop : pending.pop = false) (hadvance : pending.advanceTime = false)
    (hmature : pending.mature = false) (current : Current cfg α) :
    xferEdge current pending = current := by
  unfold xferEdge xferTiming
  rw [hpush, hpop, hadvance, hmature]
  simp

/-- A commit of the lane is a commit of the machine. -/
theorem Refines.xfer (h : Refines lane m) :
    Refines (lane.call .xfer) m.commit := by
  obtain ⟨⟨q, mclock, proposal⟩, rfl⟩ : ∃ m', m = m' := ⟨m, rfl⟩
  obtain ⟨hholds, hclock, hproposed⟩ := h
  unfold Lane.call
  cases proposal with
  | idle =>
    rw [xfer_of_invalid hproposed]
    exact ⟨hholds, hclock, hproposed⟩
  | hold clock =>
    obtain ⟨hvalid, hnext, hreset, hpush, hpop, hadvance, hmature⟩ := hproposed
    rw [xfer_of_edge hvalid hreset hholds.initialized,
      xferEdge_of_hold hpush hpop hadvance hmature, hnext]
    exact ⟨hholds.with_clock clock, rfl, rfl⟩
  | reset clock =>
    obtain ⟨hvalid, hnext, hreset⟩ := hproposed
    rw [xfer_of_reset hvalid hreset, hnext]
    exact ⟨xferReset_holds _, rfl, rfl⟩
  | edge push pop =>
    obtain ⟨hvalid, hnext, hreset, hedge⟩ := hproposed
    rw [xfer_of_edge hvalid hreset hholds.initialized, hnext]
    exact ⟨(hholds.with_clock true).xferEdge hedge, rfl, rfl⟩

/-- A committed reset empties the queue, from any state. -/
theorem refines_of_reset (hvalid : lane.pending.valid = true)
    (hreset : lane.pending.reset = true) :
    Refines (lane.call .xfer) (Machine.empty lane.pending.clock) := by
  show Refines ⟨(xfer lane.current lane.pending).1, (xfer lane.current lane.pending).2⟩ _
  rw [xfer_of_reset hvalid hreset]
  exact ⟨xferReset_holds _, rfl, rfl⟩

/-- Every call of the lane is that call of the machine. -/
theorem Refines.call (h : Refines lane m) (c : Call α) :
    Refines (lane.call c) (m.call cfg c) := by
  cases c with
  | work inputs =>
    rcases h.holds.propose rfl h.clock inputs lane.pending with
      ⟨pending', proposal, hlane, hm, hproposed⟩ | ⟨message, hlane, hm⟩
    · simp only [Lane.call, Machine.call, Fifo.work, hlane, hm]
      exact ⟨h.holds, h.clock, hproposed⟩
    · simp only [Lane.call, Machine.call, Fifo.work, hlane, hm]
      exact ⟨h.holds, h.clock, rfl⟩
  | xfer => exact h.xfer
  | discard => exact ⟨h.holds, h.clock, rfl⟩
  | reset => exact ⟨h.holds, h.clock, rfl, rfl, rfl⟩

theorem Refines.thrown (h : Refines lane m) (c : Call α) :
    lane.thrown c = m.thrown cfg c := by
  cases c with
  | work inputs =>
    rcases h.holds.propose rfl h.clock inputs lane.pending with
      ⟨pending', proposal, hlane, hm, -⟩ | ⟨message, hlane, hm⟩
    · simp only [Lane.thrown, Machine.thrown, Fifo.work, hlane, hm]
    · simp only [Lane.thrown, Machine.thrown, Fifo.work, hlane, hm]
  | xfer | discard | reset => rfl

/-- Every run of the lane is that run of the machine. -/
theorem Refines.run (h : Refines lane m)
    (calls : List (Call α)) : Refines (lane.run calls) (m.run cfg calls) := by
  induction calls generalizing lane m with
  | nil => exact h
  | cons c calls ih => exact ih (h.call c)

end

end PyCircuit.Fifo
