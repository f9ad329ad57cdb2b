import PyCircuit.Fifo.Refinement

/-!
# The contract of the FIFO kernel

After a committed reset the kernel shows the delayed queue for every sequence of calls, accepts and
delivers the tokens in one order, and keeps its bounds (`kernel_refines_queue`). The tokens are
those the kernel itself takes and gives: a token is accepted when `xfer` commits a push, and
delivered when `xfer` commits a pop, with the data the lane showed then.
-/

set_option autoImplicit false

namespace PyCircuit.Fifo

open PyCircuit.Lib

/-- The tokens accepted and delivered since the last committed reset. -/
structure History (α : Type) where
  accepted : List α
  delivered : List α

section

variable {cfg : Config} {α : Type} [Payload α]

/-- The history after a call of the lane. -/
def History.record (history : History α) (lane : Lane cfg α) : Call α → History α
  | .xfer =>
    if !lane.pending.valid then history
    else if lane.pending.reset then ⟨[], []⟩
    else if lane.current.initialized then
      { accepted := history.accepted ++ if lane.pending.push then [lane.pending.token] else []
        delivered := history.delivered ++
          if lane.pending.pop then [readData lane.current] else [] }
    else history
  | _ => history

/-- The history after a sequence of calls. -/
def Lane.history : Lane cfg α → History α → List (Call α) → History α
  | _, history, [] => history
  | lane, history, c :: calls => (lane.call c).history (history.record lane c) calls

/-- The tokens of the queue are the accepted ones that are not delivered. -/
def Accounts (history : History α) (q : Queue α) : Prop :=
  history.delivered ++ q.entries.map Prod.fst = history.accepted

/-- An edge delivers the front token and accepts one at the end. -/
theorem Accounts.edge {history : History α} {current : Current cfg α} {q : Queue α}
    {pending : Pending α} {push : Option α} {pop : Bool} (haccounts : Accounts history q)
    (h : Holds current q) (hp : EdgeProposed cfg q pending push pop) :
    Accounts
      ⟨history.accepted ++ if pending.push then [pending.token] else [],
        history.delivered ++ if pending.pop then [readData current] else []⟩
      (q.edge push pop) := by
  unfold Accounts at haccounts ⊢
  rw [Queue.WellFormed.map_fst_edge hp.carries, ← haccounts, hp.pops, hp.pushes]
  cases pop with
  | false => simp
  | true =>
    have hordered := h.wellFormed.ordered
    obtain ⟨e, rest, hripe⟩ :=
      List.exists_cons_of_ne_nil (h.wellFormed.ripe_ne_nil hp.admitted rfl)
    rw [h.readData, hordered.front_eq, (hordered.entries_of_ripe hripe).1, hripe]
    simp

theorem Accounts.record {history : History α} {lane : Lane cfg α} {m : Machine α}
    (haccounts : Accounts history m.queue) (h : Refines lane m) (c : Call α) :
    Accounts (history.record lane c) (m.call cfg c).queue := by
  cases c with
  | work inputs =>
    have hqueue : (m.call cfg (.work inputs)).queue = m.queue := by
      unfold Machine.call
      dsimp only
      split <;> rfl
    rw [hqueue]
    exact haccounts
  | discard | reset => exact haccounts
  | xfer =>
    obtain ⟨⟨q, mclock, proposal⟩, rfl⟩ : ∃ m', m = m' := ⟨m, rfl⟩
    obtain ⟨hholds, -, hproposed⟩ := h
    unfold History.record
    cases proposal with
    | idle =>
      rw [show lane.pending.valid = false from hproposed]
      exact haccounts
    | hold clock =>
      obtain ⟨hvalid, -, hreset, hpush, hpop, -⟩ := hproposed
      rw [hvalid, hreset, hholds.initialized, hpush, hpop]
      show (history.delivered ++ []) ++ q.entries.map Prod.fst = history.accepted ++ []
      rw [List.append_nil, List.append_nil]
      exact haccounts
    | reset clock =>
      obtain ⟨hvalid, -, hreset⟩ := hproposed
      rw [hvalid, hreset]
      rfl
    | edge push pop =>
      obtain ⟨hvalid, -, hreset, hedge⟩ := hproposed
      rw [hvalid, hreset, hholds.initialized]
      exact haccounts.edge hholds hedge

theorem Accounts.run {history : History α} {lane : Lane cfg α} {m : Machine α}
    (haccounts : Accounts history m.queue) (h : Refines lane m) (calls : List (Call α)) :
    Accounts (lane.history history calls) (m.run cfg calls).queue := by
  induction calls generalizing history lane m with
  | nil => exact haccounts
  | cons c calls ih => exact ih (haccounts.record h c) (h.call c)

/-- After a committed reset, and for every sequence of calls, a lane shows the delayed queue and
refuses what the queue refuses; its ring holds the tokens of the queue, at most `Depth` of them, and
as many of them are eligible as are ripe; what was delivered and what the ring holds is what was
accepted, in order; and a discarded proposal has no effect. -/
theorem kernel_refines_queue (lane : Lane cfg α) (hvalid : lane.pending.valid = true)
    (hreset : lane.pending.reset = true) (calls : List (Call α)) :
    let start := lane.call .xfer
    let final := start.run calls
    let machine := (Machine.empty lane.pending.clock).run cfg calls
    let history := start.history ⟨[], []⟩ calls
    let contents := Ring.window final.current.storage final.current.rd final.current.count
    (readValid final.current = .ofBool (machine.queue.valid cfg) ∧
      readData final.current = machine.queue.front cfg ∧
      ∀ outReady, readReady final.current outReady = machine.queue.ready cfg outReady) ∧
    (∀ c, final.thrown c = machine.thrown cfg c) ∧
    contents = machine.queue.entries.map Prod.fst ∧
    history.delivered ++ contents = history.accepted ∧
    final.current.count ≤ cfg.depth ∧
    eligibleCount final.current ≤ final.current.count ∧
    eligibleCount final.current = (machine.queue.ripe cfg).length ∧
    ((final.call .discard).call .xfer).current = final.current := by
  intro start final machine history contents
  have hstart : Refines start (Machine.empty lane.pending.clock) := refines_of_reset hvalid hreset
  have hfinal : Refines final machine := hstart.run calls
  have hholds := hfinal.holds
  have hcontents : contents = machine.queue.entries.map Prod.fst := by
    show Ring.window _ _ final.current.count = _
    rw [hholds.count]
    exact hholds.tokens
  have hnone : Accounts ⟨[], []⟩ (Machine.empty lane.pending.clock : Machine α).queue := rfl
  have haccounts : Accounts history machine.queue := hnone.run hstart calls
  refine ⟨⟨hholds.readValid, hholds.readData, hholds.readReady⟩, hfinal.thrown, hcontents, ?_, ?_,
    ?_,
    hholds.eligibleCount, ?_⟩
  · rw [hcontents]
    exact haccounts
  · rw [hholds.count]
    exact hholds.wellFormed.bounded
  · rw [hholds.eligibleCount, hholds.count, hholds.wellFormed.length]
    exact Nat.le_add_right _ _
  · show (xfer final.current (discard final.current final.pending)).1 = _
    rw [xfer_of_invalid rfl]

/-! ## Delivery -/

/-- A period with a ready consumer and no push. -/
def drainPeriod : List (Call α) :=
  [.work ⟨.zero, .zero, .zero, Payload.zero, .one⟩, .xfer,
    .work ⟨.one, .zero, .zero, Payload.zero, .one⟩, .xfer]

/-- Step lemma: a period is one edge, at which a ripe token leaves. -/
theorem Machine.run_drainPeriod (m : Machine α) :
    m.run cfg drainPeriod = ⟨m.queue.edge none (m.queue.valid cfg), true, .idle⟩ := by
  obtain ⟨q, clock, proposal⟩ := m
  cases hvalid : q.valid cfg <;>
    simp [Machine.run, drainPeriod, Machine.call, Machine.propose, Machine.commit, hvalid,
      Logic.toBool?, Logic.and]

/-- Run lemma: a period for each token, and one for each edge until the last is ripe. -/
theorem Machine.entries_drained {ripe n : Nat} {m : Machine α}
    (h : ∀ e ∈ m.queue.entries, e.2 + (cfg.latency - 1) ≤ ripe)
    (hn : m.queue.entries.length + (ripe - m.queue.now) ≤ n) :
    (m.run cfg (List.replicate n drainPeriod).flatten).queue.entries = [] := by
  induction n generalizing m with
  | zero => exact List.eq_nil_of_length_eq_zero (Nat.add_eq_zero_iff.mp (Nat.le_zero.mp hn)).1
  | succ n ih =>
    rw [List.replicate_succ, List.flatten_cons, Machine.run, List.foldl_append]
    change (Machine.run cfg (m.run cfg drainPeriod) _).queue.entries = []
    rw [Machine.run_drainPeriod]
    obtain ⟨⟨now, entries⟩, clock, proposal⟩ := m
    dsimp only at h hn ⊢
    cases entries with
    | nil =>
      rw [List.length_nil] at hn
      exact ih nofun (show 0 + (ripe - (now + 1)) ≤ n by omega)
    | cons e rest =>
      -- a token leaves, or the wait gets shorter
      rw [List.length_cons] at hn
      have hedge : ∀ pop, Queue.edge ⟨now, e :: rest⟩ none pop =
          ⟨now + 1, if pop then rest else e :: rest⟩ := fun _ => congrArg _ (List.append_nil _)
      rw [hedge]
      cases hvalid : Queue.valid cfg ⟨now, e :: rest⟩ with
      | true =>
        exact ih (List.forall_mem_cons.mp h).2
          (show rest.length + (ripe - (now + 1)) ≤ n by omega)
      | false =>
        have hwait : ¬ e.2 + (cfg.latency - 1) ≤ now := of_decide_eq_false hvalid
        have hripe := (List.forall_mem_cons.mp h).1
        exact ih h (show rest.length + 1 + (ripe - (now + 1)) ≤ n by omega)

/-- After every run from a committed reset, `Depth + L - 1` such periods empty the lane, and the
delivered tokens are then the accepted ones, in order. -/
theorem kernel_drains (lane : Lane cfg α) (calls : List (Call α)) :
    let start := lane.run [.reset, .xfer]
    let drained := calls ++ (List.replicate (cfg.depth + cfg.latency - 1) drainPeriod).flatten
    let history := start.history ⟨[], []⟩ drained
    (start.run drained).current.count = 0 ∧ history.delivered = history.accepted := by
  intro start drained history
  let machine : Machine α := (Machine.empty false).run cfg calls
  have hstart : Refines start (Machine.empty false) := refines_of_reset rfl rfl
  have hwell : machine.queue.WellFormed cfg := (hstart.run calls).holds.wellFormed
  have hlatency := cfg.latency_pos
  have hbounded := hwell.bounded
  have hempty : ((Machine.empty false).run cfg drained).queue.entries = [] := by
    rw [Machine.run, List.foldl_append]
    exact Machine.entries_drained (m := machine)
      (fun e he => Nat.add_le_add_right (hwell.ordered.past e he) _) (by omega)
  have hnone : Accounts ⟨[], []⟩ (Machine.empty false : Machine α).queue := rfl
  have haccounts := hnone.run hstart drained
  rw [Accounts, hempty, List.map_nil, List.append_nil] at haccounts
  refine ⟨?_, haccounts⟩
  rw [(hstart.run drained).holds.count, hempty]
  rfl

end

/-- Two slots and a latency of two. -/
def pairConfig : Config where
  depth := 2
  policy := .downstreamPop
  latency := 2
  depth_pos := by decide
  latency_pos := by decide
  latency_lt := by decide

instance : Payload Logic := ⟨.x, .zero⟩

/-- A rising or falling clock with a request to push a one. -/
def pushOne (clk push : Logic) : Call Logic := .work ⟨clk, .zero, push, .one, .zero⟩

/-- A one accepted at the first edge is shown after the second. -/
theorem kernel_refines_queue_sample :
    readData ((((Lane.start : Lane pairConfig Logic).call .reset).call .xfer).run
      [pushOne .one .one, .xfer, pushOne .zero .zero, .xfer, pushOne .one .zero, .xfer]).current =
      Logic.one :=
  (kernel_refines_queue ((Lane.start : Lane pairConfig Logic).call .reset) rfl rfl _).1.2.1.trans
    (by decide)

end PyCircuit.Fifo
