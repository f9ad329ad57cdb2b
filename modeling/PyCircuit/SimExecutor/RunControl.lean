import PyCircuit.SimExecutor.Executor
import PyCircuit.Simulation.Atomicity

/-!
# Run control

What holds after any calls of the executor. Most of its functions only change the error text; the
part of the state that controls a run is collected in `Control`, and the invariant is about this
part.
-/

set_option autoImplicit false

namespace PyCircuit.SimExecutor

open PyCircuit.Simulation PyCircuit.ModelInput

variable {W ι : Type} {leaf : ι → Leaf W}

/-- What a host may do: write the pins of the model, or call the executor. -/
inductive Call (W : Type) where
  | drive (f : W → W)
  | configureJson (data : Option Bytes)
  | reset
  | step (result : Option Nat)
  | statisticsJson (result : Bool)
  | lastError (result : Bool)

def Call.isReset : Call W → Bool
  | .reset => true
  | _ => false

/-- The part of the executor that controls a run. -/
structure Control where
  state : State
  maxTicks : Option UInt64
  maxDomainCycles : Option UInt64
  stopReason : StopReason
  stopReasonUpdate : BitVec 64
  committedCycles : BitVec 64
  gauges : List (GaugeSnapshot Spans)
  latched : Bool
  systemState : SimSystemState
  systemCycle : BitVec 64

/-- The limits that are set. -/
def Control.limits (c : Control) : List UInt64 := c.maxTicks.toList ++ c.maxDomainCycles.toList

/-- What no rejected call changes. -/
structure Control.Kept (before after : Control) : Prop where
  committedCycles : after.committedCycles = before.committedCycles
  maxTicks : after.maxTicks = before.maxTicks
  maxDomainCycles : after.maxDomainCycles = before.maxDomainCycles
  gauges : after.gauges = before.gauges
  stopReason : after.stopReason = before.stopReason
  stopReasonUpdate : after.stopReasonUpdate = before.stopReasonUpdate

theorem Control.Kept.refl (c : Control) : c.Kept c := ⟨rfl, rfl, rfl, rfl, rfl, rfl⟩

/-- The invariant after `steps` committed cycles since the last reset. -/
structure Control.Inv (c : Control) (steps : Nat) : Prop where
  cycles : c.committedCycles.toNat = steps
  positive : ∀ limit ∈ c.limits, 0 < limit.toNat
  below : ∀ limit ∈ c.limits, c.committedCycles.toNat ≤ limit.toNat
  completed : c.state = .completed ↔ ∃ limit ∈ c.limits, limit.toNat ≤ c.committedCycles.toNat
  ready : c.state = .ready → c.systemCycle = c.committedCycles
  system : c.state = .ready ∨ c.state = .completed → c.systemState = .ready
  fresh : c.state = .created → c.committedCycles.toNat = 0
  latched : c.latched = true → c.state = .failed

/-- The control part after a step that the system has committed. -/
def Control.commit (c : Control) (gauges : List (GaugeSnapshot Spans)) : Control :=
  let cycles := c.systemCycle + BitVec.ofNat 64 1
  let ticksReached := Executor.reached cycles c.maxTicks
  let domainReached := Executor.reached cycles c.maxDomainCycles
  let stepped := { c with
    committedCycles := cycles
    gauges := gauges
    systemState := .ready
    systemCycle := cycles }
  if ticksReached || domainReached then
    { stepped with
      stopReason := if ticksReached then .maxTicks else .maxDomainCycles
      stopReasonUpdate := cycles
      state := .completed }
  else stepped

/-- What a call can do to the control part, with its status and whether it committed a cycle. -/
inductive Control.Effect (before : Control) (call : Call W) : Control → Status → Bool → Prop
  | same (status : Status) (hreset : call.isReset = true → status ≠ .ok) :
      Effect before call before status false
  | configured (maxTicks maxDomainCycles : Option UInt64) (hstate : before.state = .created)
      (data : Option Bytes) (hcall : call = .configureJson data)
      (hpositive : ∀ limit ∈ maxTicks.toList ++ maxDomainCycles.toList, 0 < limit.toNat) :
      Effect before call
        { before with
          maxTicks := maxTicks
          maxDomainCycles := maxDomainCycles
          state := .configured } .ok false
  | failed (systemState : SimSystemState) (systemCycle : BitVec 64)
      (hstate : before.state = .ready ∨ before.systemState ≠ .ready) :
      Effect before call
        { before with
          state := .failed
          latched := true
          systemState := systemState
          systemCycle := systemCycle } .runtimeFailure false
  | reset (gauges : List (GaugeSnapshot Spans)) (hreset : call.isReset = true) :
      Effect before call
        { before with
          state := .ready
          stopReason := .none
          stopReasonUpdate := BitVec.ofNat 64 0
          committedCycles := BitVec.ofNat 64 0
          gauges := gauges
          latched := false
          systemState := .ready
          systemCycle := BitVec.ofNat 64 0 } .ok false
  | running (gauges : List (GaugeSnapshot Spans)) (hreset : call.isReset = false)
      (hstate : before.state = .ready) (hlast : before.systemCycle ≠ BitVec.allOnes 64) :
      Effect before call (before.commit gauges) .ok true

/-- The committed cycles since the last reset, after one more call. -/
def countStep (steps : Nat) (call : Call W) (status : Status) (committed : Bool) : Nat :=
  if call.isReset && status = .ok then 0 else if committed then steps + 1 else steps

/-! ## The invariant -/

variable {room : Room} {before after c : Control} {steps : Nat} (cycles : BitVec 64) {text : String}

theorem reached_iff (limit : Option UInt64) :
    Executor.reached cycles limit = true ↔ ∃ l ∈ limit.toList, l.toNat ≤ cycles.toNat := by
  cases limit with
  | none => simp [Executor.reached]
  | some l =>
    simp only [Executor.reached, Option.any_some, decide_eq_true_eq, Option.toList_some,
      List.mem_singleton, exists_eq_left]
    exact BitVec.le_def

theorem reached_any_iff (c : Control) :
    (Executor.reached cycles c.maxTicks || Executor.reached cycles c.maxDomainCycles) = true ↔
      ∃ l ∈ c.limits, l.toNat ≤ cycles.toNat := by
  rw [Bool.or_eq_true, reached_iff, reached_iff, Control.limits]
  simp only [List.mem_append, or_and_right, exists_or]

namespace Control

theorem Inv.not_reached {c : Control} {steps : Nat} (h : c.Inv steps)
    (hstate : c.state ≠ .completed) :
    ∀ limit ∈ c.limits, c.committedCycles.toNat < limit.toNat := by
  intro limit hlimit
  by_contra hnot
  exact hstate (h.completed.mpr ⟨limit, hlimit, Nat.not_lt.mp hnot⟩)

theorem Inv.commit (h : c.Inv steps) (hstate : c.state = .ready)
    (hlast : c.systemCycle ≠ BitVec.allOnes 64) (gauges : List (GaugeSnapshot Spans)) :
    (c.commit gauges).Inv (steps + 1) := by
  have hcycle : (c.systemCycle + BitVec.ofNat 64 1).toNat = steps + 1 := by
    rw [System.toNat_succ hlast, h.ready hstate, h.cycles]
  have hbelow : ∀ limit ∈ c.limits, (c.systemCycle + BitVec.ofNat 64 1).toNat ≤ limit.toNat := by
    intro limit hlimit
    rw [hcycle]
    have := h.not_reached (by rw [hstate]; exact nofun) limit hlimit
    rwa [h.cycles] at this
  have hlatched : c.latched ≠ true := by
    intro hlatched
    have := h.latched hlatched
    rw [hstate] at this
    cases this
  have hreached := reached_any_iff (c.systemCycle + BitVec.ofNat 64 1) c
  simp only [Control.commit]
  by_cases hlimit : (Executor.reached (c.systemCycle + BitVec.ofNat 64 1) c.maxTicks ||
      Executor.reached (c.systemCycle + BitVec.ofNat 64 1) c.maxDomainCycles) = true
  · rw [if_pos hlimit]
    exact ⟨hcycle, h.positive, hbelow, ⟨fun _ => hreached.mp hlimit, fun _ => rfl⟩, nofun,
      fun _ => rfl, nofun, fun hl => absurd hl hlatched⟩
  · rw [if_neg hlimit]
    refine ⟨hcycle, h.positive, hbelow, ?_, fun _ => rfl, fun _ => rfl, ?_,
      fun hl => absurd hl hlatched⟩
    · refine ⟨fun hcompleted => ?_, fun hex => absurd (hreached.mpr hex) hlimit⟩
      rw [hstate] at hcompleted
      cases hcompleted
    · intro hcreated
      rw [hstate] at hcreated
      cases hcreated

section

variable {call : Call W} {status : Status} {committed : Bool}

/-- Every call keeps the invariant. -/
theorem Inv.effect (h : before.Inv steps) (heffect : before.Effect call after status committed) :
    after.Inv (countStep steps call status committed) := by
  cases heffect with
  | same _ hreset =>
    have hcount : (call.isReset && decide (status = .ok)) = false := by
      by_contra htrue
      rw [Bool.not_eq_false, Bool.and_eq_true, decide_eq_true_eq] at htrue
      exact hreset htrue.1 htrue.2
    rw [countStep, hcount]
    exact h
  | configured maxTicks maxDomainCycles hstate data hcall hpositive =>
    have hzero : before.committedCycles.toNat = 0 := h.fresh hstate
    subst hcall
    refine ⟨h.cycles, hpositive, ?_, ?_, nofun, ?_, nofun, ?_⟩
    · intro limit _
      rw [hzero]
      exact Nat.zero_le _
    · refine ⟨nofun, ?_⟩
      rintro ⟨limit, hlimit, hle⟩
      have hlt : 0 < limit.toNat := hpositive limit hlimit
      change limit.toNat ≤ before.committedCycles.toNat at hle
      omega
    · rintro (h | h) <;> cases h
    · intro hlatched
      have := h.latched hlatched
      rw [hstate] at this
      cases this
  | failed systemState systemCycle hstate =>
    have hcompleted : before.state ≠ .completed := by
      intro hcompleted
      rcases hstate with hready | hsystem
      · rw [hready] at hcompleted
        cases hcompleted
      · exact hsystem (h.system (Or.inr hcompleted))
    have hcount : (call.isReset && decide (Status.runtimeFailure = .ok)) = false := Bool.and_false _
    rw [countStep, hcount]
    refine ⟨h.cycles, h.positive, h.below, ?_, nofun, ?_, nofun, fun _ => rfl⟩
    · refine ⟨nofun, ?_⟩
      rintro ⟨limit, hlimit, hle⟩
      exact absurd hle (Nat.not_le.mpr (h.not_reached hcompleted limit hlimit))
    · rintro (h | h) <;> cases h
  | reset gauges hreset =>
    rw [countStep, hreset]
    refine ⟨rfl, h.positive, fun _ _ => Nat.zero_le _, ?_, fun _ => rfl, fun _ => rfl, nofun, nofun⟩
    refine ⟨nofun, ?_⟩
    rintro ⟨limit, hlimit, hle⟩
    have hlt : 0 < limit.toNat := h.positive limit hlimit
    exact absurd hle (Nat.not_le.mpr hlt)
  | running gauges hreset hstate hlast =>
    rw [countStep, hreset]
    exact h.commit hstate hlast gauges

/-- A rejected call keeps the cycles, the limits, the gauges and the stop reason. -/
theorem Effect.kept (h : before.Effect call after status committed) (hstatus : status ≠ .ok) :
    before.Kept after := by
  cases h with
  | same => exact Kept.refl before
  | configured => exact absurd rfl hstatus
  | failed => exact ⟨rfl, rfl, rfl, rfl, rfl, rfl⟩
  | reset | running => exact absurd rfl hstatus

/-- Only a configuration changes the limits. -/
theorem Effect.limits (h : before.Effect call after status committed)
    (hother : ∀ data, call ≠ .configureJson data) : after.limits = before.limits := by
  cases h with
  | same | failed | reset => rfl
  | configured _ _ _ data hcall => exact absurd hcall (hother data)
  | running gauges =>
    unfold Control.commit
    dsimp only
    split_ifs <;> rfl

/-- Without a reset a completed run stays as it is. -/
theorem Effect.completed (h : before.Effect call after status committed)
    (hstate : before.state = .completed) (hsystem : before.systemState = .ready)
    (hreset : call.isReset = false) : after = before ∧ committed = false := by
  cases h with
  | same => exact ⟨rfl, rfl⟩
  | configured _ _ hcreated =>
    rw [hstate] at hcreated
    cases hcreated
  | failed _ _ hfailed =>
    rcases hfailed with hready | hnot
    · rw [hstate] at hready
      cases hready
    · exact absurd hsystem hnot
  | reset _ htrue =>
    rw [hreset] at htrue
    cases htrue
  | running _ _ hready =>
    rw [hstate] at hready
    cases hready

end

end Control

section

variable {design : Design leaf}

namespace Executor

/-! ## Calls that leave the system alone -/

/-- The control part of an executor. -/
def control (e : Executor design) : Control where
  state := e.state
  maxTicks := e.maxTicks
  maxDomainCycles := e.maxDomainCycles
  stopReason := e.stopReason
  stopReasonUpdate := e.stopReasonUpdate
  committedCycles := e.committedCycles
  gauges := e.gaugeSnapshots
  latched := e.executionFailureLatched
  systemState := e.system.state
  systemCycle := e.system.cycle

section

variable (e : Executor design)

@[simp] theorem control_replaceError (room : Room) (error : ErrorInfo) :
    (e.replaceError room error).control = e.control := by
  rw [replaceError]
  split_ifs <;> rfl

@[simp] theorem control_setError (room : Room) (error : ErrorInfo) :
    (e.setError room error).control = e.control := by
  rw [setError]
  split_ifs
  · rfl
  · exact control_replaceError e room error

@[simp] theorem control_clearError : e.clearError.control = e.control := rfl

theorem control_latchFailure (room : Room) (error : ErrorInfo) :
    (e.latchFailure room error).control =
      { e.control with state := .failed, latched := true } := by
  rw [latchFailure, replaceError]
  split_ifs <;> rfl

theorem control_commitStep (sys : System design) (hstate : sys.state = .ready)
    (hcycle : sys.cycle = e.system.cycle + BitVec.ofNat 64 1) :
    ({ e with system := sys } : Executor design).commitStep.1.control =
      e.control.commit ({ e with system := sys } : Executor design).copyGauges := by
  simp only [commitStep, Control.commit, control]
  rw [hcycle]
  by_cases hlimit : (reached (e.system.cycle + BitVec.ofNat 64 1) e.maxTicks ||
      reached (e.system.cycle + BitVec.ofNat 64 1) e.maxDomainCycles) = true
  · simp only [hlimit, if_true, clearError, hstate, hcycle]
    rfl
  · simp only [hlimit, Bool.false_eq_true, if_false, clearError, hstate, hcycle]

end

theorem acceptLimits_ok {json : Bytes} {limits : RuntimeLimits}
    (h : acceptLimits json = .ok limits) :
    parseModelConfigJson (withoutNewline json) = .ok limits ∧ limitsSupported limits = true := by
  rw [acceptLimits] at h
  cases hparse : parseModelConfigJson (withoutNewline json) with
  | error error => rw [hparse] at h; cases h
  | ok candidate =>
    simp only [hparse] at h
    split_ifs at h with hwindow hsupported
    cases h
    rw [Bool.not_eq_true, Bool.not_eq_false_eq_eq_true] at hsupported
    exact ⟨rfl, hsupported⟩

theorem limitsSupported_positive {limits : RuntimeLimits} (h : limitsSupported limits = true) :
    ∀ limit ∈ limits.maxTicks.toList ++
      (limits.maxDomainCycles.entries.head?.map Prod.snd).toList, 0 < limit.toNat := by
  have hpositive : ∀ limit : UInt64, limit ≠ 0 → 0 < limit.toNat := by
    intro limit hne
    refine Nat.pos_of_ne_zero fun hzero => hne ?_
    exact UInt64.toNat_inj.mp hzero
  simp only [limitsSupported, Bool.not_eq_true_eq_eq_false, Bool.or_eq_false_iff,
    decide_eq_false_iff_not] at h
  obtain ⟨⟨hticks, _⟩, hdomain⟩ := h
  intro limit hlimit
  rcases List.mem_append.mp hlimit with hlimit | hlimit
  · rw [Option.mem_toList] at hlimit
    exact hpositive limit fun hzero => hticks (hzero ▸ hlimit)
  · cases hentries : limits.maxDomainCycles.entries with
    | nil => simp [hentries] at hlimit
    | cons entry rest =>
      simp only [hentries, List.head?_cons, Option.map_some, Option.toList_some,
        List.mem_singleton] at hlimit
      simp only [hentries, Bool.or_eq_false_iff, decide_eq_false_iff_not] at hdomain
      exact hpositive limit (hlimit ▸ hdomain.2)

/-- A call with the effect of a refusal. -/
theorem effect_setError {e : Executor design} {c : Call W} (room : Room) (error : ErrorInfo)
    {status : Status} (hstatus : status ≠ .ok) :
    e.control.Effect c (e.setError room error).control status false := by
  rw [control_setError]
  exact .same status fun _ => hstatus

theorem configureJson_effect (e : Executor design) (room : Room) (data : Option Bytes) :
    e.control.Effect (Call.configureJson data : Call W) (e.configureJson room data).1.control
      (e.configureJson room data).2 false := by
  rw [configureJson]
  split_ifs with hstate hdata hroom
  · exact effect_setError room _ nofun
  · exact effect_setError room _ nofun
  · exact effect_setError room _ nofun
  · cases haccept : acceptLimits (data.getD []) with
    | error error => exact effect_setError room error nofun
    | ok candidate =>
      exact .configured _ _ (not_not.mp hstate) data rfl
        (limitsSupported_positive (acceptLimits_ok haccept).2)

/-- An accepted configuration sets the limits that its text has. -/
theorem configureJson_limits {e : Executor design} {room : Room} {data : Option Bytes}
    (h : (e.configureJson room data).2 = .ok) :
    ∃ limits, parseModelConfigJson (withoutNewline (data.getD [])) = .ok limits ∧
      (e.configureJson room data).1.maxTicks = limits.maxTicks ∧
      (e.configureJson room data).1.maxDomainCycles =
        limits.maxDomainCycles.entries.head?.map Prod.snd := by
  rw [configureJson] at h ⊢
  split_ifs at h ⊢ with hstate hdata hroom
  cases haccept : acceptLimits (data.getD []) with
  | error error =>
    simp only [haccept] at h
    cases h
  | ok candidate => exact ⟨candidate, (acceptLimits_ok haccept).1, rfl, rfl⟩

theorem statisticsJson_effect (e : Executor design) (room : Room) (result : Bool) :
    e.control.Effect (Call.statisticsJson result : Call W) (e.statisticsJson room result).1.control
      (e.statisticsJson room result).2.1 false := by
  rw [statisticsJson]
  generalize (if room.work then e.buildStatistics else none) = built
  split_ifs with hresult hstate
  · exact effect_setError room _ nofun
  · exact effect_setError room _ nofun
  · cases built with
    | none => exact effect_setError room _ nofun
    | some statistics => exact .same .ok nofun

theorem lastErrorJson_effect (e : Executor design) (room : Room) (result : Bool) :
    e.control.Effect (Call.lastError result : Call W) (e.lastErrorJson room result).1.control
      (e.lastErrorJson room result).2.1 false := by
  rw [lastErrorJson]
  split_ifs with hresult
  · exact effect_setError room _ nofun
  · exact .same .ok nofun

end Executor

end

/-! ## Steps of the system -/

section

variable [DecidableEq ι] {design : Design leaf}

variable {sys : System design}

theorem step_quiescent (h : sys.step.2 = .quiescent) : sys.step.1 = sys := by
  rw [System.step] at h ⊢
  cases hstate : sys.state with
  | failed | preBuild | built => rfl
  | ready =>
    simp only [hstate] at h ⊢
    by_cases hwork : (!sys.roots.any fun i => (design.module i).hasWork sys.memory) = true
    · rw [if_pos hwork]
    · rw [if_neg hwork] at h
      split_ifs at h

theorem worked_cycle (sys : System design) : sys.worked.cycle = sys.cycle := by
  rw [System.worked]
  cases sys.work.2 <;> rfl

theorem worked_state (hready : sys.state = .ready)
    (h : sys.worked.state ≠ .failed) : sys.worked.state = .ready := by
  rw [System.worked] at h ⊢
  cases hwork : sys.work.2 with
  | none => exact hready
  | some error =>
    rw [hwork] at h
    exact absurd rfl h

theorem step_running (hready : sys.state = .ready)
    (h : sys.step.2 = .running) :
    sys.step.1.state = .ready ∧ sys.step.1.cycle = sys.cycle + BitVec.ofNat 64 1 := by
  rw [System.step] at h ⊢
  simp only [hready] at h ⊢
  split_ifs at h ⊢ with hwork hlast hxfer
  rw [System.xfer] at hxfer ⊢
  split_ifs at hxfer ⊢ with hfailed haccepted
  exact ⟨worked_state hready hfailed, by rw [← worked_cycle sys]; rfl⟩

theorem reset_cycle (h : sys.reset.state = .ready) :
    sys.reset.cycle = BitVec.ofNat 64 0 := by
  rw [System.reset] at h ⊢
  by_cases hresettable : (!sys.resettable) = true
  · rw [if_pos hresettable] at h
    simp [System.resettable, h] at hresettable
  · rw [if_neg hresettable]

/-- A system that is ready can be reset. -/
theorem reset_of_ready (h : sys.state = .ready) : sys.reset.state = .ready := by
  have hresettable : ¬ (!sys.resettable) = true := by simp [System.resettable, h]
  rw [System.reset, if_neg hresettable]

/-! ## The calls -/

namespace Executor

/-- One call of the host, with its status. -/
def call (e : Executor design) (room : Room) : Call W → Executor design × Status
  | .drive f =>
    ({ e with system := { e.system with
        memory := { e.system.memory with wires := f e.system.memory.wires } } }, .ok)
  | .configureJson data => e.configureJson room data
  | .reset => e.reset room
  | .step result => ((e.step room result).1, (e.step room result).2.1)
  | .statisticsJson result =>
    ((e.statisticsJson room result).1, (e.statisticsJson room result).2.1)
  | .lastError result => ((e.lastErrorJson room result).1, (e.lastErrorJson room result).2.1)

/-- The call is a `Step` in which the system returns Running. -/
def commits (e : Executor design) : Call W → Bool
  | .step result =>
    result = some stepResultSize && e.state = .ready && e.system.cycle != BitVec.allOnes 64 &&
      e.system.step.2 = .running
  | _ => false

section

variable (e : Executor design) (room : Room)

theorem reset_effect :
    e.control.Effect (Call.reset : Call W) (e.reset room).1.control (e.reset room).2 false := by
  rw [reset]
  split_ifs with hstate hready
  · exact effect_setError room _ nofun
  · have hsystem : e.system.state ≠ .ready := fun h => hready (reset_of_ready h)
    simp only [control_latchFailure]
    exact .failed e.system.reset.state e.system.reset.cycle (Or.inr hsystem)
  · have hcontrol : ({ e with system := e.system.reset } : Executor design).restart.control =
        { e.control with
          state := .ready
          stopReason := .none
          stopReasonUpdate := BitVec.ofNat 64 0
          committedCycles := BitVec.ofNat 64 0
          gauges := ({ e with system := e.system.reset } : Executor design).copyGauges
          latched := false
          systemState := .ready
          systemCycle := BitVec.ofNat 64 0 } := by
      simp only [restart, control, not_not.mp hready, reset_cycle (not_not.mp hready)]
    simp only [control_clearError, hcontrol]
    exact .reset _ rfl

theorem stepReady_effect {c : Call W} (hreset : c.isReset = false) (hstate : e.state = .ready)
    (hsystem : e.system.state = .ready) :
    e.control.Effect c (e.stepReady room).1.control (e.stepReady room).2.1
      (e.system.cycle != BitVec.allOnes 64 && e.system.step.2 = .running) := by
  rw [stepReady]
  by_cases hlast : e.system.cycle = BitVec.allOnes 64
  · rw [if_pos hlast]
    simp only [control_latchFailure, hlast, bne_self_eq_false, Bool.false_and]
    exact .failed e.system.state e.system.cycle (Or.inl hstate)
  · rw [if_neg hlast]
    have hne : (e.system.cycle != BitVec.allOnes 64) = true := bne_iff_ne.mpr hlast
    rw [hne, Bool.true_and]
    cases hstep : e.system.step.2 with
    | quiescent =>
      have hsame : ({ e with system := e.system.step.1 } : Executor design) = e := by
        rw [step_quiescent hstep]
      simp only [hsame, control_clearError]
      refine .same .ok fun htrue => ?_
      rw [hreset] at htrue
      cases htrue
    | running =>
      obtain ⟨hready, hcycle⟩ := step_running hsystem hstep
      simp only [control_commitStep e _ hready hcycle]
      exact .running _ hreset hstate hlast
    | failed | invalidState =>
      simp only [control_latchFailure]
      exact .failed e.system.step.1.state e.system.step.1.cycle (Or.inl hstate)

theorem step_effect (result : Option Nat) (hsystem : e.state = .ready → e.system.state = .ready) :
    e.control.Effect (Call.step result : Call W) (e.step room result).1.control
      (e.step room result).2.1 (e.commits (.step result)) := by
  cases result with
  | none =>
    rw [step]
    exact effect_setError room _ nofun
  | some size =>
    rw [step]
    by_cases hsize : size ≠ stepResultSize
    · have hcommits : e.commits (.step (some size)) = false := by simp [commits, hsize]
      rw [if_pos hsize, hcommits]
      exact effect_setError room _ nofun
    · rw [if_neg hsize]
      by_cases hstate : e.state ≠ .ready
      · have hcommits : e.commits (.step (some size)) = false := by simp [commits, hstate]
        rw [if_pos hstate, hcommits]
        split_ifs
        · exact effect_setError room _ nofun
        · exact .same _ fun _ => nofun
      · have hready : e.state = .ready := not_not.mp hstate
        have hcommits : e.commits (.step (some size)) =
            (e.system.cycle != BitVec.allOnes 64 && e.system.step.2 = .running) := by
          simp [commits, not_not.mp hsize, hready]
        rw [if_neg hstate, hcommits]
        exact stepReady_effect e room rfl hready (hsystem hready)

/-- What a call does to the control part. -/
theorem call_effect (c : Call W) (hsystem : e.state = .ready → e.system.state = .ready) :
    e.control.Effect c (e.call room c).1.control (e.call room c).2 (e.commits c) := by
  cases c with
  | drive f => exact .same .ok nofun
  | configureJson data => exact configureJson_effect e room data
  | reset => exact reset_effect e room
  | step result => exact step_effect e room result hsystem
  | statisticsJson result => exact statisticsJson_effect e room result
  | lastError result => exact lastErrorJson_effect e room result

end

/-! ## Whole runs -/

/-- Calls one after the other. -/
def run (e : Executor design) : List (Room × Call W) → Executor design
  | [] => e
  | (room, c) :: rest => (e.call room c).1.run rest

/-- The number of Running steps since the last successful reset; `steps` were made before. -/
def runningSteps (e : Executor design) (steps : Nat) : List (Room × Call W) → Nat
  | [] => steps
  | (room, c) :: rest =>
    (e.call room c).1.runningSteps (countStep steps c (e.call room c).2 (e.commits c)) rest

theorem construct_inv (system : System design) (reports : List ReportGaugeDescriptor)
    (allocations : Nat) (room : Room) :
    (construct system reports allocations room).control.Inv 0 := by
  have hfailed : ∀ e : Executor design, e.state = .failed → e.maxTicks = none →
      e.maxDomainCycles = none → e.committedCycles = BitVec.ofNat 64 0 →
      e.executionFailureLatched = false → ∀ error, (e.setError room error).control.Inv 0 := by
    intro e hstate hticks hdomain hcycles hlatched error
    have hlimits : e.control.limits = [] := by simp [Control.limits, control, hticks, hdomain]
    have hcontrol : e.control.state = .failed := hstate
    have hunlatched : e.control.latched = false := hlatched
    rw [control_setError]
    refine ⟨by simp [control, hcycles], by simp [hlimits], by simp [hlimits], ?_, ?_, ?_, ?_, ?_⟩
    all_goals simp [hlimits, hcontrol, hunlatched]
  rw [construct]
  simp only []
  split_ifs
  iterate 5 exact hfailed _ rfl rfl rfl rfl rfl _
  · refine ⟨rfl, ?_, ?_, ?_, nofun, ?_, fun _ => rfl, nofun⟩
    · exact List.forall_mem_nil _
    · exact List.forall_mem_nil _
    · exact ⟨nofun, by rintro ⟨_, hmem, _⟩; cases hmem⟩
    · rintro (h | h) <;> cases h

variable {e : Executor design}

theorem run_inv (h : e.control.Inv steps) (calls : List (Room × Call W)) :
    (e.run calls).control.Inv (e.runningSteps steps calls) := by
  induction calls generalizing e steps with
  | nil => exact h
  | cons first rest ih =>
    obtain ⟨room, c⟩ := first
    exact ih (h.effect (call_effect e room c fun hready => h.system (Or.inl hready)))

/-! ## Failures -/

/-- The failure that a call reports when it ends in a runtime failure. -/
def failure (e : Executor design) : Call W → Option ErrorInfo
  | .reset => some (.plain "reset_failed" "model reset failed" "reset")
  | .step _ =>
    some (if e.system.cycle = BitVec.allOnes 64 then
        .plain "counter_overflow" "cycle counter would overflow" "evaluate"
      else stepFailure e.system.step.1.failureInfo)
  | _ => none

/-- The executor has latched a failure, and this is what `LastError` shows. -/
structure Latched (e : Executor design) (text : String) : Prop where
  latched : e.executionFailureLatched = true
  state : e.state = .failed
  text : e.errorText = text

omit [DecidableEq ι] in
theorem latchFailure_latched (e : Executor design) (room : Room) (error : ErrorInfo) :
    (e.latchFailure room error).Latched (if room.text then error.text else fallbackText) := by
  rw [latchFailure, replaceError]
  split_ifs
  · exact ⟨rfl, rfl, rfl⟩
  · exact ⟨rfl, rfl, rfl⟩

theorem stepReady_latched {error : ErrorInfo} {result : Option Nat}
    (herror : e.failure (.step result) = some error)
    (h : (e.stepReady room).2.1 = .runtimeFailure) :
    (e.stepReady room).1.Latched (if room.text then error.text else fallbackText) := by
  rw [stepReady] at h ⊢
  by_cases hlast : e.system.cycle = BitVec.allOnes 64
  · rw [failure, if_pos hlast] at herror
    cases herror
    rw [if_pos hlast]
    exact latchFailure_latched _ room _
  · rw [failure, if_neg hlast] at herror
    cases herror
    rw [if_neg hlast] at h ⊢
    cases hstep : e.system.step.2 with
    | quiescent | running =>
      simp only [hstep] at h
      cases h
    | failed | invalidState => exact latchFailure_latched _ room _

/-- A reported failure of a reset or of a step is latched with its text. -/
theorem call_latched {c : Call W} {error : ErrorInfo} (herror : e.failure c = some error)
    (h : (e.call room c).2 = .runtimeFailure) :
    (e.call room c).1.Latched (if room.text then error.text else fallbackText) := by
  cases c with
  | drive f | configureJson data | statisticsJson result | lastError result => cases herror
  | reset =>
    cases herror
    rw [call, reset] at h ⊢
    split_ifs at h with hstate hready
    rw [if_neg hstate, if_pos hready]
    exact latchFailure_latched _ room _
  | step result =>
    rw [call] at h ⊢
    cases result with
    | none => cases h
    | some size =>
      simp only [step] at h ⊢
      split_ifs at h with hsize hstate
      rw [if_neg hsize, if_neg hstate]
      exact stepReady_latched herror h

omit [DecidableEq ι] in
theorem setError_of_latched (h : e.Latched text) (room : Room) (error : ErrorInfo) :
    e.setError room error = e := by
  rw [setError, if_pos h.latched]

/-- Until a reset no call changes a latched failure. -/
theorem Latched.call (h : e.Latched text) (room : Room) {c : Call W} (hreset : c.isReset = false) :
    (e.call room c).1.Latched text := by
  have herror := setError_of_latched h
  cases c with
  | drive f => exact ⟨h.latched, h.state, h.text⟩
  | configureJson data =>
    have hcreated : e.state ≠ .created := by rw [h.state]; exact nofun
    rw [Executor.call, configureJson, if_pos hcreated, herror]
    exact h
  | reset => cases hreset
  | step result =>
    have hready : e.state ≠ .ready := by rw [h.state]; exact nofun
    rw [Executor.call]
    cases result with
    | none =>
      rw [step, herror]
      exact h
    | some size =>
      rw [step]
      by_cases hsize : size ≠ stepResultSize
      · rw [if_pos hsize, herror]
        exact h
      · rw [if_neg hsize, if_pos hready, if_neg (not_not.mpr h.state)]
        exact h
  | statisticsJson result =>
    rw [Executor.call, statisticsJson]
    by_cases hresult : (!result) = true
    · rw [if_pos hresult, herror]
      exact h
    · have hstarted : ¬ (e.state = .created ∨ e.state = .configured) := by
        rw [h.state]
        rintro (hc | hc) <;> cases hc
      rw [if_neg hresult, if_neg hstarted]
      cases if room.work then e.buildStatistics else none with
      | none =>
        simp only [herror]
        exact h
      | some statistics => exact ⟨h.latched, h.state, h.text⟩
  | lastError result =>
    rw [Executor.call, lastErrorJson]
    by_cases hresult : (!result) = true
    · rw [if_pos hresult, herror]
      exact h
    · rw [if_neg hresult]
      exact h

theorem Latched.run (h : e.Latched text) {calls : List (Room × Call W)}
    (hreset : ∀ entry ∈ calls, entry.2.isReset = false) : (e.run calls).Latched text := by
  induction calls generalizing e with
  | nil => exact h
  | cons first rest ih =>
    obtain ⟨room, c⟩ := first
    have hfirst : c.isReset = false := hreset (room, c) List.mem_cons_self
    exact ih (h.call room hfirst) (List.forall_mem_cons.mp hreset).2

theorem completed_run (h : e.control.Inv steps) (hstate : e.state = .completed)
    {calls : List (Room × Call W)} (hreset : ∀ entry ∈ calls, entry.2.isReset = false) :
    (e.run calls).control = e.control := by
  induction calls generalizing e steps with
  | nil => rfl
  | cons first rest ih =>
    obtain ⟨room, c⟩ := first
    have heffect := call_effect e room c fun hready => h.system (Or.inl hready)
    have hfirst : c.isReset = false := hreset (room, c) List.mem_cons_self
    obtain ⟨hsame, _⟩ := heffect.completed hstate (h.system (Or.inr hstate)) hfirst
    have hcompleted : (e.call room c).1.state = .completed := by
      have := congrArg Control.state hsame
      exact this.trans hstate
    have hrest := ih (h.effect heffect) hcompleted
      (List.forall_mem_cons.mp hreset).2
    exact hrest.trans hsame

/-- The executor as a run-control state machine. After any calls on an executor constructed over any
system: the committed cycle count is the number of Running steps since the last successful reset and
is at most every limit; an accepted configuration sets the limits that are decoded from it, and no
other call changes them; the state is Completed exactly when a limit is reached, and then nothing
that controls the run changes without a reset; a call that is not accepted changes neither the count
nor the limits, the gauges and the stop reason; and a reported failure of a step or a reset is what
`LastError` returns after any further calls without a reset. -/
theorem run_control (system : System design) (reports : List ReportGaugeDescriptor)
    (allocations : Nat) (room : Room) (calls : List (Room × Call W)) :
    let start := construct system reports allocations room
    let e := start.run calls
    e.committedCycles.toNat = start.runningSteps 0 calls ∧
    (∀ limit ∈ e.control.limits, e.committedCycles.toNat ≤ limit.toNat) ∧
    (∀ (room : Room) (data : Option Bytes), (e.configureJson room data).2 = .ok →
      ∃ limits, parseModelConfigJson (withoutNewline (data.getD [])) = .ok limits ∧
        (e.configureJson room data).1.maxTicks = limits.maxTicks ∧
        (e.configureJson room data).1.maxDomainCycles =
          limits.maxDomainCycles.entries.head?.map Prod.snd) ∧
    (∀ (room : Room) (c : Call W), (∀ data, c ≠ .configureJson data) →
      (e.call room c).1.control.limits = e.control.limits) ∧
    (e.state = .completed ↔ ∃ limit ∈ e.control.limits, limit.toNat ≤ e.committedCycles.toNat) ∧
    (e.state = .completed → ∀ later : List (Room × Call W),
      (∀ entry ∈ later, entry.2.isReset = false) → (e.run later).control = e.control) ∧
    (∀ (room : Room) (c : Call W), (e.call room c).2 ≠ .ok →
      e.control.Kept (e.call room c).1.control) ∧
    ∀ (room : Room) (c : Call W) (error : ErrorInfo), e.failure c = some error →
      (e.call room c).2 = .runtimeFailure → ∀ later : List (Room × Call W),
        (∀ entry ∈ later, entry.2.isReset = false) → ∀ room' : Room,
          (((e.call room c).1.run later).lastErrorJson room' true).2 =
            (.ok, some (if room.text then error.text else fallbackText)) := by
  intro start e
  have hinv : e.control.Inv (start.runningSteps 0 calls) :=
    run_inv (construct_inv system reports allocations room) calls
  refine ⟨hinv.cycles, hinv.below, fun _ _ => configureJson_limits, ?_, hinv.completed, ?_, ?_, ?_⟩
  · intro room c hother
    exact (call_effect e room c fun hready => hinv.system (Or.inl hready)).limits hother
  · intro hstate later hreset
    exact completed_run hinv hstate hreset
  · intro room c hstatus
    exact (call_effect e room c fun hready => hinv.system (Or.inl hready)).kept hstatus
  · intro room c error herror hfailed later hreset room'
    have hlatched := (call_latched herror hfailed).run hreset
    rw [lastErrorJson, ← hlatched.text]
    rfl

/-- A limit of two ticks: the third step is refused. -/
example :
    let limits : RuntimeLimits := ⟨none, some 2, .empty⟩
    let room : Room := ⟨true, true⟩
    let sys := (System.initial pairDesign pairMemory).run
      [.configure [] 0, .addModule (0 : Fin 1), .attachObservations]
    let e := (construct sys [] 4 room).run [(room, .configureJson (some (canonicalConfig limits))),
      (room, .reset), (room, .drive fun _ => [edge 3, edge 4]), (room, .step (some stepResultSize))]
    let later := e.run [(room, .step (some stepResultSize)), (room, .step (some stepResultSize))]
    e.state = .ready ∧ later.state = .completed ∧ later.committedCycles = 2#64 ∧
      later.stopReason = .maxTicks ∧ later.system.pair = [3, 4] := by
  decide +kernel

end Executor

end

end PyCircuit.SimExecutor
