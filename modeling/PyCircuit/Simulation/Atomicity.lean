import Mathlib.Data.List.Pairwise
import PyCircuit.Simulation.Kernels
import PyCircuit.Simulation.System

/-!
# A step is atomic

A step of the simulation system commits every leaf of every root once, or it changes nothing that is
committed. The argument is the order of the calls: whatever Work does, and wherever it throws, only
proposals and staged observations differ; then either everything is discarded, or the whole system
has been checked and no later call can fail.
-/

set_option autoImplicit false

namespace PyCircuit.Simulation

open PyCircuit.Lib

variable {W ι : Type} {leaf : ι → Leaf W} {design : Design leaf}

/-! ## Systems before and after a step -/

namespace System

/-- The leaves of the roots. -/
def leaves (sys : System design) : List ι :=
  sys.roots.flatMap fun i => (design.module i).leaves

/-- No root is registered twice, and the observation slots are as their calls leave them. -/
structure Sound (sys : System design) : Prop where
  roots : sys.roots.Nodup
  observations : sys.memory.observations.WellFormed

/-- Distinct roots own distinct leaves. -/
theorem Sound.leaves_nodup {sys : System design} (h : sys.Sound) : sys.leaves.Nodup := by
  have howned := design.owned
  rw [List.nodup_flatMap] at howned
  apply List.nodup_flatMap.mpr
  refine ⟨fun i _ => howned.1 i (List.mem_finRange i), ?_⟩
  have : Std.Symm (Function.onFun List.Disjoint fun i => (design.module i).leaves) :=
    ⟨fun _ _ hdisjoint => hdisjoint.symm⟩
  exact h.roots.imp fun {i j} hne =>
    howned.2.forall (List.mem_finRange i) (List.mem_finRange j) hne

theorem initial_sound (design : Design leaf) (memory : Memory leaf) :
    (initial design memory).Sound := ⟨.nil, ObservationSlots.empty_wellFormed⟩

/-- What a step leaves that does not commit. -/
structure Unchanged (before after : System design) : Prop where
  committed : ∀ l,
    (leaf l).committed (after.memory.heap l) = (leaf l).committed (before.memory.heap l)
  cycle : after.cycle = before.cycle
  events : after.memory.observations.eventsView = before.memory.observations.eventsView
  gauges : after.memory.observations.gaugesView = before.memory.observations.gaugesView
  discarded : before.state = .ready → after.state = .failed →
    ∀ l ∈ before.leaves, (leaf l).Settled (after.memory.heap l)

theorem unchanged_self (sys : System design) : Unchanged sys sys where
  committed := fun _ => rfl
  cycle := rfl
  events := rfl
  gauges := rfl
  discarded := by
    intro hready hfailed
    rw [hready] at hfailed
    cases hfailed

/-- A failed system as it was: nothing committed has changed. -/
structure Frozen (before after : System design) : Prop where
  committed : ∀ l,
    (leaf l).committed (after.memory.heap l) = (leaf l).committed (before.memory.heap l)
  cycle : after.cycle = before.cycle
  state : after.state = .failed

end System

variable [DecidableEq ι]

/-! ## Runs -/

/-- The calls of a host, in the order it likes. -/
inductive Call (design : Design leaf) where
  | configure (descriptors : List ObservationDescriptor) (eventCapacity : Nat)
  | attachObservations
  | addModule (i : Fin design.count)
  | build
  | drive (f : W → W)
  | stage (slot : Nat) (value : SlotValue Planes) (valid path : Bool) (epoch : BitVec 64)
  | step
  | reset

namespace System

def call (sys : System design) : Call design → System design
  | .configure descriptors eventCapacity =>
    { sys with memory := { sys.memory with
        observations := (sys.memory.observations.configure descriptors eventCapacity).1 } }
  | .attachObservations => sys.attachObservations.1
  | .addModule i => (sys.addModule i).1
  | .build => sys.build
  | .drive f => { sys with memory := { sys.memory with wires := f sys.memory.wires } }
  | .stage slot value valid path epoch =>
    { sys with memory := { sys.memory with
        observations := (sys.memory.observations.stage slot value valid path epoch).1 } }
  | .step => sys.step.1
  | .reset => sys.reset

def run (sys : System design) (calls : List (Call design)) : System design := calls.foldl call sys

/-! ## The ways of a step -/

variable {sys before : System design}

theorem work_pendingOnly (h : sys.Sound) :
    sys.memory.PendingOnly sys.work.1 :=
  runEach_harmless (fun i => (design.module i).work_harmless sys.cycle) sys.roots sys.memory
    h.observations

/-- `discardAll` drops the proposals of every root and commits nothing. -/
theorem discardAll_spec (h : sys.Sound) :
    sys.memory.PendingOnly sys.discardAll ∧
      ∀ l ∈ sys.leaves, (leaf l).Settled (sys.discardAll.heap l) := by
  have hheap : sys.discardAll.heap =
      Heap.traverse (fun l => (leaf l).discard) sys.leaves sys.memory.heap := by
    unfold discardAll
    rw [leaves, ← Module.foldl_heap fun i m => (design.module i).discardNext_heap m]
    split_ifs <;> rfl
  have hobservations : ObservationSlots.StagedOnly sys.memory.observations
      sys.discardAll.observations ∧ sys.discardAll.observations.WellFormed := by
    have hroots := Module.foldl_observations
      (fun i m => (design.module i).discardNext_observations m) sys.roots sys.memory
    unfold discardAll
    split_ifs with hattached
    · simp only [hroots]
      exact ObservationSlots.discardNext_spec h.observations
    · rw [hroots]
      exact ⟨.refl _, h.observations⟩
  refine ⟨⟨fun l => ?_, hobservations.1, hobservations.2⟩, fun l hl => ?_⟩
  · rw [hheap]
    exact Heap.traverse_keeps (fun l => (leaf l).committed)
      (fun l store => (leaf l).committed_discard store) sys.leaves sys.memory.heap l
  · rw [hheap]
    exact Heap.traverse_establishes (p := fun l store => (leaf l).Settled store)
      (fun l store => (leaf l).settled_discard store) sys.memory.heap hl

/-- What a step leaves that commits: Work has run to its end and changed no committed state, every
leaf of a root has been transferred once, and the staged observations are published. -/
structure Commits (before : System design) (staged : Memory leaf) (after : System design) :
    Prop where
  worked : before.work = (staged, none)
  proposed : ∀ l, (leaf l).committed (staged.heap l) = (leaf l).committed (before.memory.heap l)
  once : ∀ l ∈ before.leaves, after.memory.heap l = ((leaf l).xfer (staged.heap l)).1
  others : ∀ l, l ∉ before.leaves → after.memory.heap l = staged.heap l
  cycle : after.cycle.toNat = before.cycle.toNat + 1
  published : before.attached = true → ObservationSlots.Published staged.observations
    after.memory.observations after.cycle
  unattached : before.attached = false → after.memory.observations = staged.observations

/-- Every way a step can go. -/
inductive StepCase (sys : System design) : System design × SimStepResult → Prop where
  | idle {result : SimStepResult} (h : result ≠ .running)
      (hfailed : result = .failed → sys.state = .failed) : StepCase sys (sys, result)
  | refused (before : System design) {after : System design}
    (hmemory : sys.memory.PendingOnly before.memory)
      (hroots : before.roots = sys.roots) (hafter : after.memory = before.discardAll)
      (hfixed : after.roots = sys.roots) (hcycle : after.cycle = sys.cycle)
      (hstate : after.state = .failed) : StepCase sys (after, .failed)
  | committed (hwork : sys.work.2 = none) (hcycle : sys.cycle ≠ BitVec.allOnes 64)
      (haccepted : sys.proposed.accepted = true) : StepCase sys (sys.proposed.commit, .running)

section

variable (h : sys.Sound)
include h

/-- An exception in Work. -/
theorem step_thrown {error : String} (hwork : sys.work.2 = some error) :
    StepCase sys (sys.worked.xfer.1, if sys.worked.xfer.2 then .running else .failed) := by
  have hworked : sys.worked.memory = sys.work.1 ∧ sys.worked.roots = sys.roots ∧
      sys.worked.cycle = sys.cycle ∧ sys.worked.state = .failed := by
    rw [worked, hwork]
    exact ⟨rfl, rfl, rfl, rfl⟩
  obtain ⟨hmemory, hroots, hcycle, hfailed⟩ := hworked
  rw [xfer, if_pos hfailed]
  exact .refused sys.worked (hmemory ▸ work_pendingOnly h) hroots rfl hroots hcycle hfailed

/-- The check of the whole system. -/
theorem step_checked (hwork : sys.work.2 = none) (hstate : sys.state = .ready)
    (hcycle : sys.cycle ≠ BitVec.allOnes 64) :
    StepCase sys (sys.worked.xfer.1, if sys.worked.xfer.2 then .running else .failed) := by
  have hworked : sys.worked = sys.proposed := by rw [worked, hwork]
  have hready : sys.proposed.state ≠ .failed := by
    show sys.state ≠ .failed
    rw [hstate]
    exact nofun
  rw [hworked, xfer, if_neg hready]
  cases haccepted : sys.proposed.accepted with
  | true => exact .committed hwork hcycle haccepted
  | false => exact .refused sys.proposed (work_pendingOnly h) rfl rfl rfl rfl rfl

theorem step_cases : StepCase sys sys.step := by
  unfold step
  cases hstate : sys.state with
  | failed => exact .idle nofun fun _ => hstate
  | preBuild | built => exact .idle nofun nofun
  | ready =>
    by_cases hidle : (!sys.roots.any fun i => (design.module i).hasWork sys.memory) = true
    · rw [if_pos hidle]
      exact .idle nofun nofun
    rw [if_neg hidle]
    by_cases hlast : sys.cycle = BitVec.allOnes 64
    · rw [if_pos hlast]
      exact .refused sys (.refl h.observations) rfl rfl rfl rfl rfl
    rw [if_neg hlast]
    cases hwork : sys.work.2 with
    | none => exact step_checked h hwork hstate hlast
    | some error => exact step_thrown h hwork

theorem refused_unchanged {after : System design} (hmemory : sys.memory.PendingOnly before.memory)
    (hroots : before.roots = sys.roots) (hafter : after.memory = before.discardAll)
    (hcycle : after.cycle = sys.cycle) : Unchanged sys after := by
  have hbefore : before.Sound := ⟨hroots ▸ h.roots, hmemory.wellFormed⟩
  obtain ⟨hdiscard, hsettled⟩ := discardAll_spec hbefore
  have hall := hmemory.trans hdiscard
  obtain ⟨hevents, hgauges⟩ := hall.observations.views_eq h.observations
  rw [← hafter] at hevents hgauges
  refine ⟨fun l => ?_, hcycle, hevents, hgauges, fun _ _ l hl => ?_⟩
  · rw [hafter]
    exact hall.committed l
  · rw [hafter]
    apply hsettled l
    rw [leaves, hroots]
    exact hl

omit h in
/-- The cycle does not wrap. -/
theorem toNat_succ {cycle : BitVec 64} (h : cycle ≠ BitVec.allOnes 64) :
    (cycle + 1#64).toNat = cycle.toNat + 1 := by
  have hlast : cycle.toNat ≠ 2 ^ 64 - 1 := fun heq =>
    h (BitVec.eq_of_toNat_eq (by rw [heq, BitVec.toNat_allOnes]))
  have hlt := cycle.isLt
  rw [BitVec.toNat_add, BitVec.toNat_ofNat]
  omega

omit h in
/-- The observations after the transfers of the roots. -/
theorem commit_observations (sys : System design) :
    sys.proposed.commit.memory.observations =
      if sys.attached = true then sys.work.1.observations.xfer (sys.cycle + 1#64)
      else sys.work.1.observations := by
  have hroots := Module.foldl_observations
    (fun i m => (design.module i).xfer_observations m) sys.roots sys.work.1
  rw [← hroots]
  dsimp only [commit, proposed]
  split_ifs <;> rfl

/-- The roots are transferred and the staged observations published. -/
theorem commit_commits (hwork : sys.work.2 = none) (hcycle : sys.cycle ≠ BitVec.allOnes 64)
    (haccepted : sys.proposed.accepted = true) :
    Commits sys sys.work.1 sys.proposed.commit ∧ sys.proposed.commit.Sound := by
  have hpending := work_pendingOnly h
  have hheap : sys.proposed.commit.memory.heap =
      Heap.traverse (fun l store => ((leaf l).xfer store).1) sys.leaves sys.work.1.heap := by
    have hroots := Module.foldl_heap (fun i m => (design.module i).xfer_heap m) sys.roots sys.work.1
    rw [leaves, ← hroots]
    unfold commit
    split_ifs <;> rfl
  obtain ⟨-, hprecommit⟩ := Bool.and_eq_true_iff.mp haccepted
  have hpublished : sys.attached = true →
      ObservationSlots.Published sys.work.1.observations sys.proposed.commit.memory.observations
        (sys.cycle + 1#64) ∧ sys.proposed.commit.memory.observations.WellFormed := by
    intro hattached
    have hcheck : sys.work.1.observations.precommit sys.cycle = true := by
      have hproposed : sys.proposed.attached = true := hattached
      rw [hproposed] at hprecommit
      exact hprecommit
    rw [commit_observations, if_pos hattached]
    exact ObservationSlots.xfer_published hpending.wellFormed hcycle hcheck
  have hkept : sys.attached = false →
      sys.proposed.commit.memory.observations = sys.work.1.observations := by
    intro hattached
    rw [commit_observations, if_neg (by rw [hattached]; exact nofun)]
  refine ⟨⟨Prod.ext rfl hwork, hpending.committed, ?_, ?_, ?_, fun h => (hpublished h).1, hkept⟩,
    h.roots, ?_⟩
  · intro l hl
    rw [hheap, Heap.traverse_of_mem _ h.leaves_nodup _ hl]
  · intro l hl
    rw [hheap, Heap.traverse_of_notMem _ _ hl]
  · exact toNat_succ hcycle
  · cases hattached : sys.attached with
    | true => exact (hpublished hattached).2
    | false =>
      rw [hkept hattached]
      exact hpending.wellFormed

/-! ## Whole runs -/

theorem step_sound : sys.step.1.Sound := by
  have hcases := step_cases h
  generalize sys.step = result at hcases ⊢
  cases hcases with
  | idle => exact h
  | refused before hmemory hroots hafter hfixed =>
    have hbefore : before.Sound := ⟨hroots ▸ h.roots, hmemory.wellFormed⟩
    exact ⟨hfixed ▸ h.roots, hafter ▸ (discardAll_spec hbefore).1.wellFormed⟩
  | committed hwork hcycle haccepted => exact (commit_commits h hwork hcycle haccepted).2

theorem fail_sound (phase : SimFailurePhase) :
    (sys.fail phase).Sound := ⟨h.roots, (discardAll_spec h).1.wellFormed⟩

theorem build_sound : sys.build.Sound := by
  have hbuilt : ∀ wires : W, ({ sys with memory := { sys.memory with wires } } :
      System design).Sound := fun _ => ⟨h.roots, h.observations⟩
  unfold build
  dsimp only
  split_ifs
  · exact h
  · exact fail_sound (hbuilt _) .build
  · exact ⟨h.roots, h.observations⟩

theorem reset_sound : sys.reset.Sound := by
  have hreset := Module.foldl_observations
    (fun i m => (design.module i).reset_observations m) sys.roots sys.discardAll
  have hxfer := fun memory => Module.foldl_observations
    (fun i m => (design.module i).xfer_observations m) sys.roots memory
  have hdiscarded := (discardAll_spec h).1.wellFormed
  unfold reset
  split_ifs with hrefused hattached
  · exact h
  · refine ⟨h.roots, ?_⟩
    dsimp only
    rw [hxfer, hreset]
    exact ObservationSlots.reset_wellFormed hdiscarded
  · refine ⟨h.roots, ?_⟩
    rw [hxfer, hreset]
    exact hdiscarded

theorem call_sound (c : Call design) : (sys.call c).Sound := by
  cases c with
  | configure descriptors eventCapacity =>
    exact ⟨h.roots, ObservationSlots.configure_wellFormed h.observations _ _⟩
  | attachObservations =>
    show sys.attachObservations.1.Sound
    unfold attachObservations
    split_ifs
    · exact h
    · exact ⟨h.roots, h.observations⟩
  | addModule i =>
    show (sys.addModule i).1.Sound
    unfold addModule
    split_ifs with hknown
    · exact h
    · -- A module that is already a root has been refused.
      rw [not_or] at hknown
      refine ⟨?_, h.observations⟩
      exact List.nodup_append.mpr ⟨h.roots, List.nodup_singleton i, by
        intro j hj k hk heq
        rw [List.mem_singleton.mp hk] at heq
        exact hknown.2 (heq ▸ hj)⟩
  | build => exact build_sound h
  | drive f => exact ⟨h.roots, h.observations⟩
  | stage slot value valid path epoch =>
    exact ⟨h.roots, (ObservationSlots.stage_spec h.observations slot value valid path epoch).2⟩
  | step => exact step_sound h
  | reset => exact reset_sound h

theorem run_sound (calls : List (Call design)) : (sys.run calls).Sound := by
  induction calls generalizing sys with
  | nil => exact h
  | cons c rest ih => exact ih (call_sound h c)

end

/-- No call of the run is a reset that makes the system ready. -/
def Unreset (sys : System design) : List (Call design) → Prop
  | [] => True
  | c :: rest => (c = .reset → (sys.call c).state ≠ .ready) ∧ Unreset (sys.call c) rest

/-- A call on a failed system, unless it is a reset that succeeds. -/
theorem call_frozen (h : Frozen before sys) {c : Call design}
    (hreset : c = .reset → (sys.call c).state ≠ .ready) : Frozen before (sys.call c) := by
  cases c with
  | configure descriptors eventCapacity => exact ⟨h.committed, h.cycle, h.state⟩
  | attachObservations =>
    have hsame : sys.call .attachObservations = sys := by
      show sys.attachObservations.1 = sys
      rw [attachObservations, if_pos (.inl (by rw [h.state]; exact nofun))]
    rw [hsame]
    exact h
  | addModule i =>
    have hsame : sys.call (.addModule i) = sys := by
      show (sys.addModule i).1 = sys
      rw [addModule, if_pos (.inl (by rw [h.state]; exact nofun))]
    rw [hsame]
    exact h
  | build =>
    have hsame : sys.call .build = sys := by
      show sys.build = sys
      rw [build, if_pos (by rw [h.state]; exact nofun)]
    rw [hsame]
    exact h
  | drive f | stage slot value valid path epoch => exact ⟨h.committed, h.cycle, h.state⟩
  | step =>
    have hsame : sys.call .step = sys := by
      show sys.step.1 = sys
      rw [step, h.state]
    rw [hsame]
    exact h
  | reset =>
    have hsame : sys.call .reset = sys := by
      have hstate := hreset rfl
      show sys.reset = sys
      change sys.reset.state ≠ .ready at hstate
      unfold reset at hstate ⊢
      by_cases hrefused : (!sys.resettable) = true
      · rw [if_pos hrefused]
      · rw [if_neg hrefused] at hstate
        exact absurd rfl hstate
    rw [hsame]
    exact h

theorem run_frozen (h : Frozen before sys) {calls : List (Call design)}
    (hreset : sys.Unreset calls) : Frozen before (sys.run calls) := by
  induction calls generalizing sys with
  | nil => exact h
  | cons c rest ih => exact ih (call_frozen h hreset.1) hreset.2

/-- A step that fails leaves a failed system. -/
theorem step_failed (h : sys.Sound) (hfailed : sys.step.2 = .failed) :
    Frozen sys sys.step.1 := by
  have hcases := step_cases h
  generalize sys.step = result at hcases hfailed ⊢
  cases hcases with
  | idle hrunning hstate => exact ⟨fun _ => rfl, rfl, hstate hfailed⟩
  | refused before hmemory hroots hafter hfixed hcycle hstate =>
    have hunchanged := refused_unchanged h hmemory hroots hafter hcycle
    exact ⟨hunchanged.committed, hcycle, hstate⟩
  | committed => cases hfailed

/-- A step commits or leaves everything. -/
theorem step_all_or_nothing (h : sys.Sound) :
    (sys.step.2 = .running ∧ sys.Commits sys.work.1 sys.step.1) ∨
      (sys.step.2 ≠ .running ∧ sys.Unchanged sys.step.1) := by
  have hcases := step_cases h
  generalize sys.step = result at hcases ⊢
  cases hcases with
  | idle hrunning => exact .inr ⟨hrunning, unchanged_self sys⟩
  | refused before hmemory hroots hafter hfixed hcycle =>
    exact .inr ⟨nofun, refused_unchanged h hmemory hroots hafter hcycle⟩
  | committed hwork hcycle haccepted =>
    exact .inl ⟨rfl, (commit_commits h hwork hcycle haccepted).1⟩

/-- The lanes of a family move together: what the step leaves is the whole transfer of what Work has
staged, or none of it. -/
theorem step_whole (h : sys.Sound) (l : ι) :
    (leaf l).Whole (sys.work.1.heap l) (sys.step.1.memory.heap l) := by
  rcases step_all_or_nothing h with ⟨-, hcommits⟩ | ⟨-, hunchanged⟩
  · by_cases hl : l ∈ sys.leaves
    · rw [hcommits.once l hl]
      exact (leaf l).whole_xfer (sys.work.1.heap l)
    · rw [hcommits.others l hl]
      exact Leaf.whole_of_committed rfl
  · -- Work changes no committed state, so the step leaves what Work has left of it.
    have hwork := (work_pendingOnly h).committed l
    exact Leaf.whole_of_committed ((hunchanged.committed l).trans hwork.symm)

end System

/-- Two registers in a family, each with pins of its own. -/
def registers : Unit → Leaf (List (DffInputs Nat)) := fun _ =>
  .family (dffKernel Nat) 2 fun lane =>
    ⟨fun pins => pins.getD lane ⟨.zero, .zero, 0, 0⟩, fun _ pins => pins⟩

/-- A module that calls both lanes. -/
def registerPair : Module registers :=
  .definition 1 ⟨[.storage () 0, .storage () 1], true, id, fun _ => id, fun _ _ => true⟩
    fun _ => .storage ()

def pairDesign : Design registers where
  count := 1
  module := fun _ => registerPair
  owned := by decide
  build := fun _ pins => (pins, none)
  finalizeBuild := fun _ => true
  precheck := fun _ => true

def pairMemory : Memory registers where
  heap := fun _ =>
    (⟨fun _ => ⟨7, false⟩, fun _ => ⟨7, false, false⟩, fun _ => false, 0, Family.counted_none⟩ :
      Family (dffKernel Nat) 2)
  wires := []
  observations := .empty

/-- The values of the pair. -/
def System.pair (sys : System pairDesign) : List Nat :=
  (List.finRange 2).map fun lane =>
    ((registers ()).committed (sys.memory.heap ()) lane : Dffe.Current Nat).q

/-- The pins at a clock that is one, without reset. -/
def edge (d : Nat) : DffInputs Nat := ⟨.one, .zero, d, 0⟩

/-- Both lanes are committed; with an unknown clock at the second one neither is. -/
example :
    let sys := (System.initial pairDesign pairMemory).run
      [.addModule (0 : Fin 1), .build, .reset, .drive fun _ => [edge 3, edge 4], .step]
    let later := sys.run [.drive fun _ => [edge 5, ⟨.x, .zero, 6, 0⟩], .step,
      .drive fun _ => [edge 5, edge 6], .step]
    sys.pair = [3, 4] ∧ sys.cycle = 1 ∧ later.pair = [3, 4] ∧ later.cycle = 1 ∧
      later.state = .failed := by
  decide

end PyCircuit.Simulation
