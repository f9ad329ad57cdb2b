import PyCircuit.Fifo.Refinement
import PyCircuit.Fifo.RtlRefinement

/-!
# The Verilog FIFO and the FIFO kernel

Both refine the delayed queue, so after a committed reset they agree, command by command, on the
tokens they hold, on every output and on what they refuse (`rtl_bisimilar_kernel`).
-/

set_option autoImplicit false

namespace PyCircuit.Fifo.Rtl

open PyCircuit.Lib

section

variable {cfg : Config} {α : Type}

/-- The tokens from the front on, as the registers of the module count them. -/
def State.contents (s : State cfg α) : Option (List α) :=
  match s.rd.map BitVec.toNat, s.count.map BitVec.toNat with
  | some rd, some count =>
    if h : rd < cfg.depth then some (Ring.window s.storage ⟨rd, h⟩ count) else none
  | _, _ => none

variable {s : State cfg α} {m : Machine α}

theorem RtlHolds.contents {rd : Fin cfg.depth} {q : Queue α}
    (h : RtlHolds s rd q) : s.contents = some (q.entries.map Prod.fst) := by
  unfold State.contents
  rw [h.front, h.count, Register.toNat_known (Nat.lt_of_lt_of_le rd.isLt (depth_le_ptr cfg)),
    Register.toNat_known h.length_lt]
  dsimp only
  rw [dif_pos rd.isLt, ← h.tokens]

/-- A lane proposes something exactly when its machine does. -/
theorem pending_valid {lane : Lane cfg α} (h : Refines lane m) :
    lane.pending.valid = true ↔ m.proposal ≠ .idle := by
  obtain ⟨q, clock, proposal⟩ := m
  obtain ⟨-, -, hproposed⟩ := h
  cases proposal with
  | idle =>
    have hvalid : lane.pending.valid = false := hproposed
    exact ⟨fun htrue => absurd (hvalid.symm.trans htrue) Bool.false_ne_true,
      fun hne => absurd rfl hne⟩
  | hold clock | reset clock | edge push pop => exact ⟨fun _ => nofun, fun _ => hproposed.1⟩

theorem RtlRefines.pendingValid (h : RtlRefines s m) :
    s.pendingValid = true ↔ m.proposal ≠ .idle := by
  rcases h.proposed with ⟨hidle, hvalid⟩ | hprepared
  · exact ⟨fun htrue => absurd (hvalid.symm.trans htrue) Bool.false_ne_true,
      fun hne => absurd hidle hne⟩
  · exact ⟨fun _ => hprepared.active, fun _ => hprepared.valid⟩

variable [Payload α]

/-- The module and the lane show the same. -/
structure Agree (s : State cfg α) (lane : Lane cfg α) : Prop where
  contents : s.contents =
    some (Ring.window lane.current.storage lane.current.rd lane.current.count)
  occupancy : s.count.map BitVec.toNat = some lane.current.count
  eligible : s.shownCount.map BitVec.toNat = some (eligibleCount lane.current)
  outValid : s.outValid = readValid lane.current
  outData : s.outData = readData lane.current
  inReady : ∀ outReady, s.inReady outReady = readReady lane.current outReady
  localCapacity : s.localCapacity = .ofBool (decide (lane.current.count < cfg.depth))
  clock : s.clockCurrent = .ofBool lane.current.clock
  pending : s.pendingValid = lane.pending.valid

/-- Two refinements of one machine show the same. -/
theorem RtlRefines.agree {lane : Lane cfg α}
    (hs : RtlRefines s m) (hlane : Refines lane m) : Agree s lane := by
  obtain ⟨rd, hrtl⟩ := hs.holds
  have hkernel := hlane.holds
  constructor
  case contents => rw [hrtl.contents, hkernel.count, hkernel.tokens]
  case occupancy => rw [hrtl.count, Register.toNat_known hrtl.length_lt, hkernel.count]
  case eligible =>
    rw [hrtl.shownCount, Register.toNat_known hrtl.ripe_lt, hkernel.eligibleCount]
  case outValid => rw [hrtl.outValid, hkernel.readValid]
  case outData => rw [hrtl.outData, hkernel.readData]
  case inReady =>
    intro outReady
    rw [hrtl.inReady, hkernel.readReady]
  case localCapacity => rw [hrtl.localCapacity, hkernel.count]
  case clock => rw [hs.clock, hlane.clock]
  case pending => exact Bool.eq_iff_iff.mpr (hs.pendingValid.trans (pending_valid hlane).symm)

theorem RtlRefines.raises (h : RtlRefines s m) (c : Command α) :
    s.raises c = (m.thrown cfg c.call).isSome := by
  cases c with
  | prepare pins => exact (h.prepare_errors pins).1
  | commit rootCommitOk =>
    -- A COMMIT keeps the flag of the last preparation.
    have hkept : s.raises (.commit rootCommitOk) = false := by
      show ((s.commit rootCommitOk).preparationError && !s.preparationError) = false
      rw [commit_preparationError, Bool.and_not_self]
    rw [hkept, Command.call]
    split
    · rfl
    · rfl
  | discard | reset => rfl

/-- After a committed reset, and for every sequence of commands, the module and the lane show the
same contents, counts and outputs; a command raises the error flag of the module exactly when the
lane throws, and after a PREPARE the error output says so. -/
theorem rtl_bisimilar_kernel (s : State cfg α) (lane : Lane cfg α) (commands : List (Command α)) :
    let rtl := (s.run [.reset, .commit .one]).run commands
    let kernel := (lane.run [.reset, .xfer]).run (commands.map Command.call)
    Agree rtl kernel ∧
    (∀ c : Command α, rtl.raises c = (kernel.thrown c.call).isSome) ∧
    ∀ pins, (rtl.command (.prepare pins)).localError = (kernel.thrown (.work pins)).isSome := by
  intro rtl kernel
  have hrtl : RtlRefines rtl
      ((Machine.empty false).run cfg (commands.map Command.call)) :=
    (reset_prepared s ⟨0, []⟩ false).commit.run commands
  have hkernel : Refines kernel
      ((Machine.empty false).run cfg (commands.map Command.call)) := by
    have hreset : Refines (lane.run [.reset, .xfer]) (Machine.empty false) :=
      refines_of_reset rfl rfl
    exact hreset.run _
  refine ⟨hrtl.agree hkernel, ?_, ?_⟩
  · intro c
    rw [hrtl.raises, hkernel.thrown]
  · intro pins
    rw [hkernel.thrown]
    exact (hrtl.prepare_errors pins).2

end

end PyCircuit.Fifo.Rtl
