import PyCircuit.MemoryRun.Driver

/-!
# Folding of idle cycles

On a cycle that leaves the complete state of the model unchanged, answers no request and shows no
event, the next cycles repeat it until a response is due, a reset comes or the cycles end. Skipping
them changes nothing that the run reports (`folding_unobservable`).

`Matches` relates the run that skips to the run that executes every cycle: they differ only in the
logs with one entry per executed cycle. The induction is on the cycles that are left; the cycles
that are skipped are executed one by one on the other side.
-/

set_option autoImplicit false

namespace PyCircuit.MemoryRun

open PyCircuit.Lib Fallible

/-! ## Memories that wait -/

section

variable {κ : Type} [DecidableEq κ] {m m' : PendingMemory κ} {command : Option κ} {cycle k : Nat}

/-- A memory that answers nothing holds its request, or takes a new one. -/
theorem finish_idle_cases (h : m.finish command false cycle false = .ok m') :
    (m' = m ∧ m.pending.map Prod.fst = command) ∨
      ∃ c, m.pending = none ∧ command = some c ∧
        m' = { m with pending := some (c, cycle + m.delay) } := by
  unfold PendingMemory.finish at h
  rw [if_neg Bool.false_ne_true] at h
  cases hpending : m.pending with
  | some pair =>
    obtain ⟨held, deadline⟩ := pair
    rw [hpending] at h
    cases command with
    | none => cases h
    | some c =>
      obtain ⟨hheld, h⟩ := guard_eq_ok.mp h
      rw [if_neg Bool.false_ne_true] at h
      exact .inl ⟨(Except.ok.inj h).symm, congrArg some (not_not.mp hheld).symm⟩
  | none =>
    rw [hpending] at h
    cases command with
    | none => exact .inl ⟨(Except.ok.inj h).symm, rfl⟩
    | some c =>
      rw [if_neg Bool.false_ne_true] at h
      exact .inr ⟨c, rfl, rfl, (Except.ok.inj h).symm⟩

/-- A memory that has answered nothing answers the same until its deadline. -/
theorem response_of_idle (h : m.finish command false cycle false = .ok m') (hk : cycle < k)
    (hdue : ∀ deadline ∈ deadlineAfter m' cycle, k < deadline) (asked : Option κ) :
    m'.response asked k = m.response asked cycle := by
  -- Whether a deadline has passed is the same at both cycles.
  have hpassed : ∀ held deadline, m'.pending = some (held, deadline) →
      decide (k ≥ deadline) = decide (cycle ≥ deadline) := by
    intro held deadline hpending
    refine decide_eq_decide.mpr
      ⟨fun hpast => ?_, fun hpast => Nat.le_of_lt (Nat.lt_of_le_of_lt hpast hk)⟩
    by_contra hfuture
    have hlt := hdue deadline (mem_deadlineAfter.mpr ⟨Nat.lt_of_not_le hfuture, held, hpending⟩)
    exact absurd hpast (Nat.not_le_of_lt hlt)
  rcases finish_idle_cases h with ⟨rfl, -⟩ | ⟨c, hpending, rfl, rfl⟩
  · unfold PendingMemory.response
    cases hpending : m'.pending with
    | none => rfl
    | some pair => exact congrArg (asked.isSome && ·) (hpassed pair.1 pair.2 hpending)
  · have hdelay : decide (cycle ≥ cycle + m.delay) = decide (m.delay = 0) :=
      decide_eq_decide.mpr (by omega)
    simp only [PendingMemory.response, hpending]
    rw [hpassed c (cycle + m.delay) rfl, hdelay]

/-- The held request is not changed by asking again. -/
theorem finish_of_idle (h : m.finish command false cycle false = .ok m') (k : Nat) :
    m'.finish command false k false = .ok m' := by
  unfold PendingMemory.finish
  rw [if_neg Bool.false_ne_true]
  rcases finish_idle_cases h with ⟨rfl, rfl⟩ | ⟨c, hpending, rfl, rfl⟩
  · cases hpending : m'.pending with
    | none => rfl
    | some pair => simp
  · simp

end

/-! ## A cycle that repeats -/

section

variable {σ : Type} {device : Device σ} {cfg : Config}

variable {settled : Settled} {stepped : Stepped σ} {data : List (BitVec 8)}
  {instruction : PendingMemory Nat} {memory : PendingMemory DataCommand} {epoch cycle : Nat}
  {t : Tick σ}

/-- Neither a transfer nor an event. -/
def Quiet (cfg : Config) (settled : Settled) (stepped : Stepped σ) : Prop :=
  instructionFire cfg settled stepped = false ∧ dataFire cfg settled stepped = false ∧
    eventFire cfg stepped = false

/-- A quiet cycle only asks the memories. -/
theorem finishCycle_quiet (h : Quiet cfg settled stepped) :
    finishCycle cfg settled stepped data instruction memory epoch cycle = (do
      let instruction ← instruction.finish settled.icmd false cycle false
      let memory ← memory.finish settled.dcmd false cycle false
      return {
        state := stepped.state
        data
        instruction
        memory
        record :=
          { cycle, epoch, reset := false, outputs := stepped.out, unchanged := stepped.unchanged,
            environmentEvent := false }
        raw := stepped.raw
        packet := stepped.packet
        store := none
        event := false
        terminal := false }) := by
  obtain ⟨hinstruction, hdata, hevent⟩ := h
  have hwrite : writeFire cfg settled stepped = false := by
    rw [writeFire, hdata, Bool.false_and]
  have hterminal : terminalEvent cfg stepped = false := by
    rw [terminalEvent, hevent, Bool.false_and]
  unfold finishCycle storeData
  rw [hwrite, hterminal, hinstruction, hdata, hevent]
  rfl

theorem quiet_of_finishCycle
    (h : finishCycle cfg settled stepped data instruction memory epoch cycle = .ok t)
    (hevent : t.record.environmentEvent = false) : Quiet cfg settled stepped := by
  obtain ⟨data', -, h⟩ := bind_eq_ok.mp h
  obtain ⟨i', -, h⟩ := bind_eq_ok.mp h
  obtain ⟨m', -, h⟩ := bind_eq_ok.mp h
  obtain rfl := Except.ok.inj h
  obtain ⟨hinstruction, hrest⟩ := Bool.or_eq_false_iff.mp hevent
  exact ⟨hinstruction, Bool.or_eq_false_iff.mp hrest⟩

/-- The cycle with another number. -/
def Tick.renumber (t : Tick σ) (k : Nat) : Tick σ :=
  { t with record := { t.record with cycle := k } }

/-- What an unchanged cycle without an event leaves alone, and that it repeats until a deadline. -/
theorem tick_idle {state : σ}
    (h : tick device cfg state data instruction memory epoch cycle = .ok t)
    (hunchanged : t.record.unchanged = true) (hevent : t.record.environmentEvent = false) :
    (t.event = false ∧ t.terminal = false ∧ t.store = none ∧ t.record.cycle = cycle) ∧
    ∀ k, cycle < k → (∀ deadline ∈ deadlineAfter t.instruction cycle, k < deadline) →
      (∀ deadline ∈ deadlineAfter t.memory cycle, k < deadline) →
      tick device cfg t.state t.data t.instruction t.memory epoch k = .ok (t.renumber k) := by
  obtain ⟨settled, hsettle, h⟩ := bind_eq_ok.mp h
  obtain ⟨stepped, hstep, h⟩ := bind_eq_ok.mp h
  have hquiet := quiet_of_finishCycle h hevent
  rw [finishCycle_quiet hquiet] at h
  obtain ⟨i', hi, h⟩ := bind_eq_ok.mp h
  obtain ⟨m', hm, h⟩ := bind_eq_ok.mp h
  obtain rfl := Except.ok.inj h
  refine ⟨⟨rfl, rfl, rfl, rfl⟩, ?_⟩
  intro k hk hideadline hmdeadline
  -- The unchanged flag brings the model back to the state before the cycle.
  have hstate : stepped.state = state := by
    obtain ⟨raw, -, hrest⟩ := bind_eq_ok.mp hstep
    obtain ⟨⟨s', packet, unchanged⟩, hdevice, hrest⟩ := bind_eq_ok.mp hrest
    obtain ⟨out, -, hrest⟩ := bind_eq_ok.mp hrest
    obtain rfl := Except.ok.inj hrest
    obtain rfl : unchanged = true := hunchanged
    exact device.unchanged_sound hdevice
  have hianswers : (fun icmd => i'.response icmd k) = fun icmd => instruction.response icmd cycle :=
    funext fun icmd => response_of_idle hi hk hideadline icmd
  have hmanswers : (fun dcmd => m'.response dcmd k) = fun dcmd => memory.response dcmd cycle :=
    funext fun dcmd => response_of_idle hm hk hmdeadline dcmd
  unfold tick
  rw [hstate, hianswers, hmanswers, hsettle, ok_bind, hstep, ok_bind,
    finishCycle_quiet hquiet, finish_of_idle hi, ok_bind, finish_of_idle hm,
    ok_bind, ← hstate]
  rfl

end

/-! ## Runs that differ in their logs -/

/-- The second list has the records of the first, each followed by copies of it with other cycle
numbers. -/
inductive Expands : List Record → List Record → Prop where
  | nil : Expands [] []
  | retained {short full : List Record} (r : Record) (h : Expands short full) :
      Expands (short ++ [r]) (full ++ [r])
  | omitted {short full : List Record} {r : Record} (cycle : Nat)
      (h : Expands (short ++ [r]) full) : Expands (short ++ [r]) (full ++ [{ r with cycle }])

/-- The retained records are a subsequence. -/
theorem Expands.sublist {short full : List Record} (h : Expands short full) :
    short.Sublist full := by
  induction h with
  | nil => exact List.Sublist.refl []
  | retained r _ ih => exact ih.append (List.Sublist.refl [r])
  | omitted cycle _ ih => exact ih.trans (List.sublist_append_left _ _)

section

variable {σ : Type} {device : Device σ} {cfg : Config}

/-- The runs differ only in the logs with an entry for each executed cycle: the second has a record
for every cycle. -/
def Matches (folded full : Run σ) : Prop :=
  ∃ records vectors outputs skips, full = { folded with records, vectors, outputs, skips } ∧
    Expands folded.records records ∧ records.map Record.cycle = List.range folded.cycle

/-- Both runs fail with one message, or both end and match. -/
def SameOutcome (folded full : Except String (Run σ)) : Prop :=
  (∃ message, folded = .error message ∧ full = .error message) ∨
    ∃ a b, folded = .ok a ∧ full = .ok b ∧ Matches a b

variable {full : Run σ} {cycle epoch : Nat} {t : Tick σ} {data : List (BitVec 8)}
  {memory : PendingMemory DataCommand} {state : σ}

theorem Matches.cycle_eq {folded : Run σ} (h : Matches folded full) :
    folded.cycle = full.cycle := by
  obtain ⟨_, _, _, _, rfl, _⟩ := h
  rfl

variable {functional : Bool} {run : Run σ}

/-- The cycle of a run. -/
abbrev Run.tick (device : Device σ) (cfg : Config) (run : Run σ) : Except String (Tick σ) :=
  MemoryRun.tick device cfg run.state run.data run.instruction run.memory run.epoch run.cycle

theorem Matches.tick_eq (h : Matches run full) : full.tick device cfg = run.tick device cfg := by
  obtain ⟨_, _, _, _, rfl, _⟩ := h
  rfl

theorem loop_done (h : ¬ run.cycle < cfg.maxCycles) : loop device cfg functional run = .ok run := by
  rw [loop, dif_neg h]

theorem loop_reset (h : run.cycle < cfg.maxCycles) (hreset : run.cycle ∈ cfg.resetAt) :
    loop device cfg functional run =
      resetTick device cfg run.state run.data run.instruction run.memory run.epoch run.cycle >>=
        fun t => loop device cfg functional (run.restart t) := by
  rw [loop, dif_pos h, if_pos hreset]
  cases resetTick device cfg run.state run.data run.instruction run.memory run.epoch run.cycle <;>
    rfl

theorem loop_tick (h : run.cycle < cfg.maxCycles) (hreset : run.cycle ∉ cfg.resetAt) :
    loop device cfg functional run =
      run.tick device cfg >>= fun t => if t.terminal then .ok (run.stop t)
        else loop device cfg functional (run.advance cfg functional t) := by
  rw [loop, dif_pos h, if_neg hreset]
  unfold Run.tick
  cases tick device cfg run.state run.data run.instruction run.memory run.epoch run.cycle <;> rfl

/-- A cycle that repeats on the way to another cycle. -/
structure Repeats (device : Device σ) (cfg : Config) (t : Tick σ) (epoch cycle target : Nat) : Prop
    where
  bounded : target ≤ cfg.maxCycles
  event : t.event = false
  terminal : t.terminal = false
  store : t.store = none
  noReset : ∀ k, cycle < k → k < target → k ∉ cfg.resetAt
  tick : ∀ k, cycle < k → k < target →
    tick device cfg t.state t.data t.instruction t.memory epoch k = .ok (t.renumber k)

/-- The run is where the cycle left it. -/
structure StandsAt (run : Run σ) (t : Tick σ) : Prop where
  state : run.state = t.state
  data : run.data = t.data
  instruction : run.instruction = t.instruction
  memory : run.memory = t.memory

/-- Executing a cycle that repeats only extends the logs. -/
theorem advance_repeated {target : Nat}
    (h : Repeats device cfg t epoch cycle target) (hstands : StandsAt run t) (k : Nat) :
    run.advance cfg false (t.renumber k) =
      { run with
        cycle := run.cycle + 1
        records := run.records ++ [{ t.record with cycle := k }]
        vectors := run.vectors ++ [t.raw]
        outputs := run.outputs ++ [t.packet] } := by
  have hevents : (if t.event then run.events ++ [{ t.record with cycle := k }] else run.events) =
      run.events := by
    rw [h.event]
    rfl
  have hstores : run.stores ++ t.store.toList = run.stores := by
    rw [h.store]
    exact List.append_nil _
  obtain ⟨hstate, hdata, hinstruction, hmemory⟩ := hstands
  show Run.mk t.state t.data t.instruction t.memory run.epoch _ _
    (if t.event then run.events ++ [{ t.record with cycle := k }] else run.events) _ _
    (run.stores ++ t.store.toList) _ _ = _
  rw [hevents, hstores, ← hstate, ← hdata, ← hinstruction, ← hmemory]
  rfl

/-- The loop that executes every cycle goes through the repeated cycles to the target. -/
theorem loop_repeated {target : Nat} (n : Nat) (run : Run σ)
    (h : Repeats device cfg t run.epoch cycle target) (hstands : StandsAt run t)
    (hcycle : cycle < run.cycle) (hn : run.cycle + n = target) {short : List Record}
    (hexpands : Expands (short ++ [t.record]) run.records)
    (hcount : run.records.map Record.cycle = List.range run.cycle) :
    ∃ records vectors outputs,
      loop device cfg false run =
        loop device cfg false { run with cycle := target, records, vectors, outputs } ∧
      Expands (short ++ [t.record]) records ∧ records.map Record.cycle = List.range target := by
  induction n generalizing run with
  | zero =>
    obtain rfl : run.cycle = target := hn
    exact ⟨run.records, run.vectors, run.outputs, rfl, hexpands, hcount⟩
  | succ n ih =>
    have hlt : run.cycle < target := by omega
    have hstep : run.tick device cfg = .ok (t.renumber run.cycle) := by
      rw [Run.tick, hstands.state, hstands.data, hstands.instruction, hstands.memory]
      exact h.tick run.cycle hcycle hlt
    have hterminal : ¬ (t.renumber run.cycle).terminal = true := by
      rw [show (t.renumber run.cycle).terminal = t.terminal from rfl, h.terminal]
      exact Bool.false_ne_true
    have hloop : loop device cfg false run = _ :=
      loop_tick (Nat.lt_of_lt_of_le hlt h.bounded) (h.noReset run.cycle hcycle hlt)
    rw [hstep, ok_bind, if_neg hterminal, advance_repeated h hstands] at hloop
    obtain ⟨records, vectors, outputs, hrest, hexpands', hcount'⟩ := ih
      { run with
        cycle := run.cycle + 1
        records := run.records ++ [{ t.record with cycle := run.cycle }]
        vectors := run.vectors ++ [t.raw]
        outputs := run.outputs ++ [t.packet] }
      h ⟨hstands.state, hstands.data, hstands.instruction, hstands.memory⟩
      (Nat.lt_succ_of_lt hcycle) (by dsimp only; omega) (hexpands.omitted run.cycle) (by
        rw [List.map_append, hcount, List.range_succ]
        rfl)
    exact ⟨records, vectors, outputs, hloop.trans hrest, hexpands', hcount'⟩

/-- Up to the cycle that functional mode goes to, an idle cycle repeats. -/
theorem repeats_of_idle {instruction : PendingMemory Nat}
    (h : tick device cfg state data instruction memory epoch cycle = .ok t)
    (hunchanged : t.record.unchanged = true) (hevent : t.record.environmentEvent = false) :
    Repeats device cfg t epoch cycle (skipTarget cfg t cycle) := by
  obtain ⟨⟨hnoEvent, hterminal, hstore, -⟩, hrepeat⟩ := tick_idle h hunchanged hevent
  have hbelow : ∀ {k}, k < skipTarget cfg t cycle → _ := lt_foldr_min.mp
  refine ⟨Nat.le_of_not_lt fun hlt => Nat.lt_irrefl _ (hbelow hlt).1, hnoEvent, hterminal, hstore,
    ?_, ?_⟩
  · intro k hk hlt hreset
    have hmem : k ∈ cfg.resetAt.filter fun n => n > cycle :=
      List.mem_filter.mpr ⟨hreset, decide_eq_true hk⟩
    exact Nat.lt_irrefl k ((hbelow hlt).2 k (List.mem_append_right _ hmem))
  · intro k hk hlt
    refine hrepeat k hk (fun deadline hdue => ?_) fun deadline hdue => ?_
    · exact (hbelow hlt).2 deadline (List.mem_append_left _ (List.mem_append_left _ hdue))
    · exact (hbelow hlt).2 deadline (List.mem_append_left _ (List.mem_append_right _ hdue))

/-- The record of a cycle carries its number. -/
theorem tick_record_cycle {instruction : PendingMemory Nat}
    (h : tick device cfg state data instruction memory epoch cycle = .ok t) :
    t.record.cycle = cycle := by
  obtain ⟨settled, -, h⟩ := bind_eq_ok.mp h
  obtain ⟨stepped, -, h⟩ := bind_eq_ok.mp h
  obtain ⟨data', -, h⟩ := bind_eq_ok.mp h
  obtain ⟨i', -, h⟩ := bind_eq_ok.mp h
  obtain ⟨m', -, h⟩ := bind_eq_ok.mp h
  rw [← Except.ok.inj h]

theorem resetTick_record_cycle {instruction : PendingMemory Nat}
    (h : resetTick device cfg state data instruction memory epoch cycle = .ok t) :
    t.record.cycle = cycle := by
  obtain ⟨raw, -, h⟩ := bind_eq_ok.mp h
  obtain ⟨result, -, h⟩ := bind_eq_ok.mp h
  obtain ⟨i', -, h⟩ := bind_eq_ok.mp h
  obtain ⟨m', -, h⟩ := bind_eq_ok.mp h
  obtain ⟨outputs, -, h⟩ := bind_eq_ok.mp h
  rw [← Except.ok.inj h]

/-- One more record, of the current cycle, on both sides. -/
theorem Matches.record {records : List Record} {r : Record}
    (hexpands : Expands run.records records)
    (hcount : records.map Record.cycle = List.range run.cycle) (hr : r.cycle = run.cycle) :
    Expands (run.records ++ [r]) (records ++ [r]) ∧
    (records ++ [r]).map Record.cycle = List.range (run.cycle + 1) := by
  refine ⟨hexpands.retained r, ?_⟩
  rw [List.map_append, hcount, List.range_succ, List.map_singleton, hr]

/-- The runs match at the cycle that follows. -/
theorem Matches.following {n : Nat} {records : List Record} {vectors : List Nat}
    {outputs : List Word} {skips : List Skip}
    (hfollowing : followingCycle cfg true t run.cycle = n)
    (hexpands : Expands (run.records ++ [t.record]) records)
    (hcount : records.map Record.cycle = List.range n) :
    Matches (run.advance cfg true t)
      { run.advance cfg true t with cycle := n, records, vectors, outputs, skips } := by
  subst hfollowing
  exact ⟨records, vectors, outputs, skips, rfl, hexpands, hcount⟩

/-- After an idle cycle the loop that executes every cycle meets the one that skips. -/
theorem loop_skip (hlt : run.cycle < cfg.maxCycles)
    (hmatches : Matches run full)
    (htick : run.tick device cfg = .ok t)
    (hidle : (t.record.unchanged && !t.record.environmentEvent) = true) :
    ∃ full', Matches (run.advance cfg true t) full' ∧
      loop device cfg false (full.advance cfg false t) = loop device cfg false full' := by
  obtain ⟨records, vectors, outputs, skips, rfl, hexpands, hcount⟩ := hmatches
  obtain ⟨hunchanged, hevent⟩ := Bool.and_eq_true_iff.mp hidle
  obtain ⟨hexpands', hcount'⟩ := Matches.record hexpands hcount (tick_record_cycle htick)
  have hrepeats := repeats_of_idle htick hunchanged ((Bool.not_eq_true' _).mp hevent)
  have hfollowing : followingCycle cfg true t run.cycle = skipTarget cfg t run.cycle := by
    unfold followingCycle
    rw [Bool.true_and, if_pos hidle]
  have hahead : run.cycle < skipTarget cfg t run.cycle :=
    hfollowing ▸ lt_followingCycle cfg true t hlt
  obtain ⟨records', vectors', outputs', hloop, hexpands'', hcount''⟩ :=
    loop_repeated (skipTarget cfg t run.cycle - (run.cycle + 1))
      (Run.advance cfg false { run with records, vectors, outputs, skips } t) hrepeats
      ⟨rfl, rfl, rfl, rfl⟩ (Nat.lt_succ_self run.cycle)
      (Nat.add_sub_of_le (Nat.succ_le_of_lt hahead)) hexpands' hcount'
  exact ⟨_, Matches.following hfollowing hexpands'' hcount'', hloop⟩

/-- Neither run skips after a cycle that is not idle. -/
theorem Matches.advance (hmatches : Matches run full)
    (htick : run.tick device cfg = .ok t)
    (hbusy : ¬ (t.record.unchanged && !t.record.environmentEvent) = true) :
    Matches (run.advance cfg true t) (full.advance cfg false t) := by
  obtain ⟨records, vectors, outputs, skips, rfl, hexpands, hcount⟩ := hmatches
  obtain ⟨hexpands', hcount'⟩ := Matches.record hexpands hcount (tick_record_cycle htick)
  have hfollowing : followingCycle cfg true t run.cycle = run.cycle + 1 := by
    unfold followingCycle
    rw [Bool.true_and, if_neg hbusy]
  exact Matches.following hfollowing hexpands' hcount'

/-- Runs that match have the same outcome. -/
theorem loop_matches (n : Nat) (folded full : Run σ) (hn : cfg.maxCycles - folded.cycle ≤ n)
    (hmatches : Matches folded full) :
    SameOutcome (loop device cfg true folded) (loop device cfg false full) := by
  -- The induction is on the cycles that are left for the run that skips.
  induction n generalizing folded full with
  | zero =>
    have hdone : ¬ folded.cycle < cfg.maxCycles := by omega
    have hdone' : ¬ full.cycle < cfg.maxCycles := hmatches.cycle_eq ▸ hdone
    rw [loop_done hdone, loop_done hdone']
    exact Or.inr ⟨folded, full, rfl, rfl, hmatches⟩
  | succ n ih =>
    by_cases hlt : folded.cycle < cfg.maxCycles
    swap
    · have hdone' : ¬ full.cycle < cfg.maxCycles := hmatches.cycle_eq ▸ hlt
      rw [loop_done hlt, loop_done hdone']
      exact Or.inr ⟨folded, full, rfl, rfl, hmatches⟩
    have hlt' : full.cycle < cfg.maxCycles := hmatches.cycle_eq ▸ hlt
    have hless : ∀ following, folded.cycle < following → cfg.maxCycles - following ≤ n := by
      intro following hfollowing
      omega
    by_cases hreset : folded.cycle ∈ cfg.resetAt
    · have hreset' : full.cycle ∈ cfg.resetAt := hmatches.cycle_eq ▸ hreset
      rw [loop_reset hlt hreset, loop_reset hlt' hreset']
      obtain ⟨records, vectors, outputs, skips, rfl, hexpands, hcount⟩ := hmatches
      cases htick : resetTick device cfg folded.state folded.data folded.instruction
          folded.memory folded.epoch folded.cycle with
      | error message => exact Or.inl ⟨message, rfl, rfl⟩
      | ok t =>
        obtain ⟨hexpands', hcount'⟩ :=
          Matches.record hexpands hcount (resetTick_record_cycle htick)
        exact ih (folded.restart t) _ (hless _ (Nat.lt_succ_self _))
          ⟨_, _, _, skips, rfl, hexpands', hcount'⟩
    have hreset' : full.cycle ∉ cfg.resetAt := hmatches.cycle_eq ▸ hreset
    rw [loop_tick hlt hreset, loop_tick hlt' hreset', hmatches.tick_eq]
    have hsame := hmatches
    obtain ⟨records, vectors, outputs, skips, rfl, hexpands, hcount⟩ := hmatches
    cases htick : folded.tick device cfg with
    | error message => exact Or.inl ⟨message, rfl, rfl⟩
    | ok t =>
      obtain ⟨hexpands', hcount'⟩ := Matches.record hexpands hcount (tick_record_cycle htick)
      rw [ok_bind, ok_bind]
      by_cases hterminal : t.terminal = true
      · rw [if_pos hterminal, if_pos hterminal]
        exact Or.inr ⟨_, _, rfl, rfl, _, _, _, skips, rfl, hexpands', hcount'⟩
      rw [if_neg hterminal, if_neg hterminal]
      have hleft := hless _ (lt_followingCycle cfg true t hlt)
      by_cases hidle : (t.record.unchanged && !t.record.environmentEvent) = true
      · -- The run that skips goes to the target at once, the other cycle by cycle.
        obtain ⟨full', hmatches', hloop⟩ := loop_skip hlt hsame htick hidle
        rw [hloop]
        exact ih _ full' hleft hmatches'
      · exact ih _ _ hleft (hsame.advance htick hidle)

/-- Before the loop there are no records to compare. -/
theorem start_matches (h : start device cfg state = .ok run) : Matches run run := by
  obtain ⟨idleInputs, -, h⟩ := bind_eq_ok.mp h
  obtain ⟨state', -, h⟩ := bind_eq_ok.mp h
  obtain rfl := Except.ok.inj h
  exact ⟨[], [], [], [], rfl, Expands.nil, rfl⟩

theorem runMemory_same (device : Device σ) (cfg : Config) (state : σ) :
    SameOutcome (runMemory device cfg true state) (runMemory device cfg false state) := by
  unfold runMemory
  cases hstart : start device cfg state with
  | error message => exact Or.inl ⟨message, rfl, rfl⟩
  | ok run => exact loop_matches _ run run (Nat.le_refl _) (start_matches hstart)

/-- Skipping idle cycles is not observable: the run that skips and the run that executes every cycle
fail with the same message, or end with the same events, stores, data memory, model state,
transaction counts, status and cycle count. The full log has one record for every cycle; the log of
the run that skips is a subsequence of it, and an omitted record is the last retained one with
another cycle number. -/
theorem folding_unobservable (device : Device σ) (cfg : Config) (state : σ) :
    (∃ message, runMemory device cfg true state = .error message ∧
      runMemory device cfg false state = .error message) ∨
    ∃ folded full, runMemory device cfg true state = .ok folded ∧
      runMemory device cfg false state = .ok full ∧
      folded.events = full.events ∧ folded.stores = full.stores ∧ folded.data = full.data ∧
      folded.state = full.state ∧ folded.instruction.count = full.instruction.count ∧
      folded.memory.count = full.memory.count ∧ folded.status = full.status ∧
      folded.cycle = full.cycle ∧
      full.records.map Record.cycle = List.range full.cycle ∧
      folded.records.Sublist full.records ∧ Expands folded.records full.records := by
  rcases runMemory_same device cfg state with hfailed | ⟨folded, full, hfolded, hfull, hmatches⟩
  · exact Or.inl hfailed
  · obtain ⟨records, vectors, outputs, skips, rfl, hexpands, hcount⟩ := hmatches
    exact Or.inr ⟨folded, _, hfolded, hfull, rfl, rfl, rfl, rfl, rfl, rfl, rfl, rfl, hcount,
      hexpands.sublist, hexpands⟩

end

/-! ## An instance -/

/-- A model that fetches one instruction and then stops; the state tells whether it has fetched. -/
def fetchOnce : Device Bool where
  query fetched _ := .ok (if fetched then [.zero, .one] else [.one, .zero])
  step fetched raw := .ok <|
    if fetched then (true, [.zero, .one], true)
    else if raw = 0 then (false, [.one, .zero], true)
    else (true, [.one, .zero], false)
  reset _ _ := .ok (false, [.one, .zero], true)
  unchanged_sound := by
    intro s raw s' packet h
    cases s with
    | true =>
      cases h
      rfl
    | false =>
      by_cases hraw : raw = 0
      · rw [if_neg Bool.false_ne_true, if_pos hraw] at h
        cases h
        rfl
      · rw [if_neg Bool.false_ne_true, if_neg hraw] at h
        cases h

/-- An answer to a fetch takes five cycles, and the model is reset at cycle 3. -/
def fetchConfig : Config where
  inputs := [⟨"ready", 0, 1⟩]
  pins := [⟨"fetch", 0, 1⟩, ⟨"stop", 1, 1⟩]
  instruction := ⟨"ready", "word", "fault", "fetch", "address"⟩
  data := ⟨⟨"", "", "", "", ""⟩, "", "", ""⟩
  eventValid := "stop"
  eventStop := "stop"
  image := []
  memoryBase := 0
  instructionLatency := [5]
  dataLatency := [1]
  instructionLatency_ne := List.cons_ne_nil _ _
  dataLatency_ne := List.cons_ne_nil _ _
  resetCycles := 1
  resetAt := [3]
  maxCycles := 20

-- Both runs stop at cycle 11; the one that skips has executed five of the cycles.
example : ((runMemory fetchOnce fetchConfig true false).toOption.map fun run =>
    (run.cycle, run.records.length, run.skips, run.status)) =
      some (11, 5, [⟨0, 3, 2, 0⟩, ⟨4, 9, 4, 0⟩], .eventStop) := by decide +kernel

example : ((runMemory fetchOnce fetchConfig false false).toOption.map fun run =>
    (run.cycle, run.records.length, run.skips, run.status)) =
      some (11, 11, [], .eventStop) := by decide +kernel

end PyCircuit.MemoryRun
