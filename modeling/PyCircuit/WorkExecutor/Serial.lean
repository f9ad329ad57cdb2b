import PyCircuit.Lib.Dispenser
import PyCircuit.WorkExecutor.Pool

/-!
# What the pool computes

Inside a worker a call of `run` is made by `runSerial`, and it does not wait unless a task comes
back to an executor through another one: `perform_active` gives each task its outcome, and
`run_active` gives the outcome of a nested call.

For the outer calls the invariant of the pool says where each index of the batch is. `next` divides
the batch; an index below it is held by exactly one worker or has been reported; `pending` counts
the indices that have not. A worker that wakes late finds either the batch of the current call with
its own `next`, or the empty span that the last call left behind, and never an index of an earlier
call.
-/

set_option autoImplicit false

namespace PyCircuit.WorkExecutor

universe u

variable {ε : Type u} {workers : Nat}

/-! ## Nested calls -/

mutual

theorem perform_total : ∀ {item : WorkItem ε} {entered : List Nat}, item.direct entered = true →
    ∃ outcome, item.perform entered = some outcome
  | .null, _, _ => ⟨⟨[], none⟩, by rw [WorkItem.perform]⟩
  | .work label nested error, _, h => by
      rw [WorkItem.direct] at h
      obtain ⟨inner, hinner⟩ := performNested_total h
      rw [WorkItem.perform, hinner]
      exact ⟨_, rfl⟩

theorem performNested_total : ∀ {nested : List (Nat × List (WorkItem ε))} {entered : List Nat},
    directNested entered nested = true → ∃ outcome, performNested entered nested = some outcome
  | [], _, _ => ⟨⟨[], none⟩, by rw [performNested]⟩
  | (executor, items) :: rest, _, h => by
      rw [directNested, Bool.and_eq_true, Option.any_eq_true] at h
      obtain ⟨⟨inner, henter, hitems⟩, hrest⟩ := h
      obtain ⟨first, hfirst⟩ := runSerial_total hitems
      obtain ⟨later, hlater⟩ := performNested_total hrest
      rw [performNested, henter, Option.bind_some]
      cases hnull : items.any WorkItem.isNull with
      | true => exact ⟨_, rfl⟩
      | false =>
        rw [hfirst, hlater]
        cases herror : first.error with
        | none => exact ⟨⟨first.trace ++ later.trace, later.error⟩, by simp [herror]⟩
        | some error => exact ⟨⟨first.trace, some error⟩, by simp [herror]⟩

theorem runSerial_total : ∀ {items : List (WorkItem ε)} {entered : List Nat},
    directAll entered items = true → ∃ outcome, runSerial entered items = some outcome
  | [], _, _ => ⟨⟨[], none⟩, by rw [runSerial]⟩
  | item :: rest, _, h => by
      rw [directAll, Bool.and_eq_true] at h
      obtain ⟨first, hfirst⟩ := perform_total h.1
      obtain ⟨later, hlater⟩ := runSerial_total h.2
      rw [runSerial, hfirst, hlater]
      exact ⟨_, rfl⟩

end

theorem directAll_iff {items : List (WorkItem ε)} {entered : List Nat} :
    directAll entered items = true ↔ ∀ item ∈ items, item.direct entered = true := by
  induction items with
  | nil => simp [directAll]
  | cons item rest ih => rw [directAll, Bool.and_eq_true, ih, List.forall_mem_cons]

/-- What a task does on a thread of the executor. -/
def WorkItem.outcome (item : WorkItem ε) : Outcome ε := (item.perform inPool).getD ⟨[], none⟩

theorem perform_active {item : WorkItem ε} (h : item.direct inPool = true) :
    item.perform inPool = some item.outcome := by
  obtain ⟨outcome, houtcome⟩ := perform_total h
  rw [WorkItem.outcome, houtcome, Option.getD_some]

variable {item : WorkItem ε} (f : Fin (threads workers) → Worker ε)

theorem outcome_of_perform {outcome : Outcome ε} (h : item.perform inPool = some outcome) :
    item.outcome = outcome := by
  rw [WorkItem.outcome, h, Option.getD_some]

/-- The tasks one after the other, with the error of the first that fails. -/
def serial (items : List (WorkItem ε)) : Outcome ε where
  trace := items.flatMap fun item => item.outcome.trace
  error := items.findSome? fun item => item.outcome.error

theorem runSerial_active {items : List (WorkItem ε)} (h : directAll inPool items = true) :
    runSerial inPool items = some (serial items) := by
  induction items with
  | nil => rw [runSerial]; rfl
  | cons item rest ih =>
    rw [directAll, Bool.and_eq_true] at h
    rw [runSerial, perform_active h.1, ih h.2]
    cases herror : item.outcome.error with
    | none | some error => simp [serial, herror]

theorem run_active {items : List (WorkItem ε)} (hnull : items.any WorkItem.isNull = false)
    (h : directAll inPool items = true) : run inPool 0 items = some (serial items) := by
  rw [run, hnull, ← runSerial_active h]
  rfl

/-! ## The batch of an outer call -/

/-- The index a worker holds. -/
def Worker.index : Worker ε → Option Nat
  | .asleep => none
  | .awake => none
  | .running index _ => some index
  | .reporting index _ => some index

/-- The index whose task a worker has yet to execute. -/
def Worker.executes : Worker ε → Option Nat
  | .asleep => none
  | .awake => none
  | .running index _ => some index
  | .reporting _ _ => none

theorem Worker.index_notify (w : Worker ε) : w.notify.index = w.index := by
  cases w <;> rfl

theorem Worker.executes_of_index {w : Worker ε} (h : w.index = none) : w.executes = none := by
  cases w with
  | asleep | awake => rfl
  | running index item => cases h
  | reporting index error => rfl

/-- What a worker holds is a task of the batch or the error of one. -/
def Worker.Carries (items : List (WorkItem ε)) : Worker ε → Prop
  | .asleep => True
  | .awake => True
  | .running index item => items[index]? = some item
  | .reporting index error => ∃ item, items[index]? = some item ∧ item.outcome.error = error

theorem Worker.Carries.of_index {w : Worker ε} (h : w.index = none) (items : List (WorkItem ε)) :
    w.Carries items := by
  cases w with
  | asleep | awake => trivial
  | running index item | reporting index error => cases h

namespace Pool

/-- The state of a batch of which the tasks `reported` are done. -/
structure Batch (s : Pool ε workers) (reported : List Nat) : Prop where
  next_le : s.next ≤ s.items.length
  pending_eq : s.pending + reported.length = s.items.length
  holding : Dispensed (fun w => (s.worker w).index) s.next reported
  executing : Dispensed (fun w => (s.worker w).executes) s.next s.executed
  carries : ∀ w, (s.worker w).Carries s.items
  errors_length : s.errors.length = s.items.length
  errors_eq : ∀ i item, s.items[i]? = some item →
    s.errors[i]? = some (if i ∈ reported then item.outcome.error else none)
  asleep : ∀ w, s.worker w = .asleep → s.items.length ≤ s.next

/-- No worker holds a task. -/
def Quiet (s : Pool ε workers) : Prop := ∀ w, (s.worker w).index = none

/-- The call that is being made. -/
def current (s : Pool ε workers) : List (List (WorkItem ε)) :=
  match s.caller with
  | .idle => []
  | .serial items _ _ => [items]
  | .asleep => [s.items]
  | .awake => [s.items]

/-- What holds while the caller is where it is. -/
def Phase (s : Pool ε workers) : Caller ε → Prop
  | .idle => s.items = [] ∧ s.Quiet
  | .serial items index first =>
    s.items = [] ∧ s.Quiet ∧ items.any WorkItem.isNull = false ∧ index ≤ items.length ∧
      s.executed = List.range index ∧ first = (serial (items.take index)).error
  | .asleep =>
    workers ≠ 1 ∧ s.items.any WorkItem.isNull = false ∧ s.pending ≠ 0 ∧
      ∃ reported, s.Batch reported
  | .awake => workers ≠ 1 ∧ s.items.any WorkItem.isNull = false ∧ ∃ reported, s.Batch reported

end Pool

/-- A call did what the serial executor does: it was refused for a missing callback, or it executed
every index once and threw the first error. -/
def Call.Serial (call : Call ε) : Prop :=
  if call.items.any WorkItem.isNull then
    call.executed = [] ∧ call.error = some .needsWork
  else
    call.executed.Perm (List.range call.items.length) ∧ call.error = (serial call.items).error

namespace Pool

/-- The invariant of the pool. -/
structure Inv (calls : List (List (WorkItem ε))) (s : Pool ε workers) : Prop where
  phase : s.Phase s.caller
  returned : ∀ call ∈ s.returned, call.Serial
  order : s.returned.map Call.items ++ s.current ++ s.calls = calls

variable {s : Pool ε workers} {w : Fin (threads workers)} {reported : List Nat}

/-! ### The steps of a batch -/

theorem index_update (w : Fin (threads workers)) (x : Worker ε) :
    (fun v => (Function.update f w x v).index) =
      Function.update (fun v => (f v).index) w x.index :=
  funext fun v => Function.apply_update (fun _ => Worker.index) f w x v

theorem executes_update (w : Fin (threads workers)) (x : Worker ε) :
    (fun v => (Function.update f w x v).executes) =
      Function.update (fun v => (f v).executes) w x.executes :=
  funext fun v => Function.apply_update (fun _ => Worker.executes) f w x v

theorem carries_update {f : Fin (threads workers) → Worker ε} {items : List (WorkItem ε)}
    {x : Worker ε} (h : ∀ v, (f v).Carries items) (hx : x.Carries items)
    (v : Fin (threads workers)) :
    (Function.update f w x v).Carries items := by
  by_cases hv : v = w
  · subst hv
    rw [Function.update_self]
    exact hx
  · rw [Function.update_of_ne hv]
    exact h v

theorem asleep_update {f : Fin (threads workers) → Worker ε} {x : Worker ε} {P : Prop}
    (h : ∀ v, f v = .asleep → P) (hx : x = .asleep → P) (v : Fin (threads workers))
    (hv : Function.update f w x v = .asleep) : P := by
  by_cases hvw : v = w
  · subst hvw
    rw [Function.update_self] at hv
    exact hx hv
  · rw [Function.update_of_ne hvw] at hv
    exact h v hv

theorem batch_submit {items : List (WorkItem ε)} {rest : List (List (WorkItem ε))}
    (hquiet : s.Quiet) : (s.submit items rest).Batch [] where
  next_le := Nat.zero_le _
  pending_eq := rfl
  holding := Dispensed.start fun w => (Worker.index_notify _).trans (hquiet w)
  executing := Dispensed.start fun w =>
    Worker.executes_of_index ((Worker.index_notify _).trans (hquiet w))
  carries := fun w => Worker.Carries.of_index ((Worker.index_notify _).trans (hquiet w)) _
  errors_length := List.length_replicate
  errors_eq := by
    intro i item hitem
    have hlt : i < items.length := (List.getElem?_eq_some_iff.mp hitem).1
    simp [submit, hlt]
  asleep := by
    intro w hw
    have hne : (s.worker w).notify ≠ .asleep := by cases s.worker w <;> simp [Worker.notify]
    exact absurd hw hne

theorem Batch.take (h : s.Batch reported) (hworker : s.worker w = .awake)
    (hitem : s.items[s.next]? = some item) : (s.take w item).Batch reported where
  next_le := (List.getElem?_eq_some_iff.mp hitem).1
  pending_eq := h.pending_eq
  holding := by
    have htake := h.holding.take (w := w) (by simp [hworker, Worker.index])
    exact (index_update s.worker w (.running s.next item)).symm ▸ htake
  executing := by
    have htake := h.executing.take (w := w) (by simp [hworker, Worker.executes])
    exact (executes_update s.worker w (.running s.next item)).symm ▸ htake
  carries := carries_update h.carries hitem
  errors_length := h.errors_length
  errors_eq := h.errors_eq
  asleep := asleep_update (fun v hv => (h.asleep v hv).trans (Nat.le_succ _)) nofun

theorem Batch.execute {index : Nat} {item : WorkItem ε} {outcome : Outcome ε}
    (h : s.Batch reported) (hworker : s.worker w = .running index item)
    (hperform : item.perform inPool = some outcome) :
    (s.execute w index outcome.error).Batch reported where
  next_le := h.next_le
  pending_eq := h.pending_eq
  holding := by
    have hsame : (fun v => (Function.update s.worker w (.reporting index outcome.error) v).index) =
        fun v => (s.worker v).index := by
      rw [index_update]
      exact Function.update_eq_self_iff.mpr (by rw [hworker]; rfl)
    exact hsame.symm ▸ h.holding
  executing := by
    have hfinish := h.executing.finish (w := w) (i := index) (by simp [hworker, Worker.executes])
    exact (executes_update s.worker w (.reporting index outcome.error)).symm ▸ hfinish
  carries := by
    have hitem : s.items[index]? = some item := by
      have := h.carries w
      rwa [hworker] at this
    exact carries_update h.carries ⟨item, hitem, by rw [outcome_of_perform hperform]⟩
  errors_length := h.errors_length
  errors_eq := h.errors_eq
  asleep := asleep_update h.asleep nofun

theorem Batch.report {index : Nat} {error : Option (Thrown ε)} (h : s.Batch reported)
    (hworker : s.worker w = .reporting index error) :
    (s.report w index error).Batch (reported ++ [index]) where
  next_le := h.next_le
  pending_eq := by
    have hfinish := h.holding.finish (w := w) (i := index) (by simp [hworker, Worker.index])
    have hlength := hfinish.length_le
    have hnext := h.next_le
    have hpending := h.pending_eq
    simp only [List.length_append, List.length_singleton] at hlength ⊢
    change s.pending - 1 + (reported.length + 1) = s.items.length
    omega
  holding := by
    have hfinish := h.holding.finish (w := w) (i := index) (by simp [hworker, Worker.index])
    exact (index_update s.worker w .awake).symm ▸ hfinish
  executing := by
    have hsame : (fun v => (Function.update s.worker w .awake v).executes) =
        fun v => (s.worker v).executes := by
      rw [executes_update]
      exact Function.update_eq_self_iff.mpr (by rw [hworker]; rfl)
    exact hsame.symm ▸ h.executing
  carries := carries_update h.carries trivial
  errors_length := (List.length_set ..).trans h.errors_length
  errors_eq := by
    intro i item hitem
    obtain ⟨own, hown, herror⟩ : ∃ own, s.items[index]? = some own ∧ own.outcome.error = error := by
      have := h.carries w
      rwa [hworker] at this
    have hlt : index < s.errors.length := by
      rw [h.errors_length]
      exact (List.getElem?_eq_some_iff.mp hown).1
    change (s.errors.set index error)[i]? = _
    by_cases hi : i = index
    · subst hi
      have : own = item := Option.some.inj (hown.symm.trans hitem)
      subst this
      rw [List.getElem?_set_self hlt, herror]
      simp
    · rw [List.getElem?_set_ne (Ne.symm hi), h.errors_eq i item hitem]
      simp [hi]
  asleep := asleep_update h.asleep nofun

/-- A worker that holds no task may wake or sleep, as long as it sleeps only on an empty rest. -/
theorem Batch.rest {x : Worker ε} (h : s.Batch reported) (hworker : (s.worker w).index = none)
    (hx : x.index = none) (hasleep : x = .asleep → s.items.length ≤ s.next) :
    Batch { s with worker := Function.update s.worker w x } reported where
  next_le := h.next_le
  pending_eq := h.pending_eq
  holding := by
    have hsame : (fun v => (Function.update s.worker w x v).index) =
        fun v => (s.worker v).index := by
      rw [index_update]
      exact Function.update_eq_self_iff.mpr (hx.trans hworker.symm)
    exact hsame.symm ▸ h.holding
  executing := by
    have hsame : (fun v => (Function.update s.worker w x v).executes) =
        fun v => (s.worker v).executes := by
      rw [executes_update]
      exact Function.update_eq_self_iff.mpr
        ((Worker.executes_of_index hx).trans (Worker.executes_of_index hworker).symm)
    exact hsame.symm ▸ h.executing
  carries := carries_update h.carries (Worker.Carries.of_index hx _)
  errors_length := h.errors_length
  errors_eq := h.errors_eq
  asleep := asleep_update h.asleep hasleep

theorem Batch.withCaller (h : s.Batch reported) (caller : Caller ε) :
    Batch { s with caller := caller } reported :=
  ⟨h.next_le, h.pending_eq, h.holding, h.executing, h.carries, h.errors_length, h.errors_eq,
    h.asleep⟩

/-! ### The end of a batch -/

section

variable (h : s.Batch reported) (hpending : s.pending = 0)
include h hpending

theorem Batch.quiet : s.Quiet := by
  refine h.holding.quiet ?_
  have := h.pending_eq
  have := h.next_le
  omega

theorem Batch.next_eq : s.next = s.items.length := by
  have := h.pending_eq
  have := h.next_le
  have := h.holding.length_le
  omega

theorem Batch.executed_perm : s.executed.Perm (List.range s.items.length) := by
  rw [← h.next_eq hpending]
  exact h.executing.perm_range fun w => Worker.executes_of_index (h.quiet hpending w)

theorem Batch.errors_done : s.errors = s.items.map fun item => item.outcome.error := by
  apply List.ext_getElem?
  intro i
  rw [List.getElem?_map]
  cases hitem : s.items[i]? with
  | none =>
    rw [List.getElem?_eq_none_iff] at hitem
    rw [Option.map_none, List.getElem?_eq_none_iff, h.errors_length]
    exact hitem
  | some item =>
    have hlt : i < s.items.length := (List.getElem?_eq_some_iff.mp hitem).1
    have hmem : i ∈ reported := by
      have hperm := h.holding.perm_range (h.quiet hpending)
      rw [h.next_eq hpending] at hperm
      exact hperm.mem_iff.mpr (List.mem_range.mpr hlt)
    rw [h.errors_eq i item hitem, if_pos hmem, Option.map_some]

end

theorem Batch.serial (h : s.Batch reported) (hnull : s.items.any WorkItem.isNull = false)
    (hpending : s.pending = 0) :
    Call.Serial ⟨s.items, s.executed, s.errors.findSome? id⟩ := by
  rw [Call.Serial, if_neg (by rw [hnull]; exact Bool.false_ne_true)]
  refine ⟨h.executed_perm hpending, ?_⟩
  rw [h.errors_done hpending, List.findSome?_map]
  rfl

end Pool

end PyCircuit.WorkExecutor
