import Mathlib.Data.List.Basic
import Mathlib.Logic.Function.Basic
import Mathlib.Logic.Relation

/-!
# The Work executor

The class `WorkExecutor` of `WorkExecutor.h`: a fixed pool of threads that runs a span of tasks and
reports the error of the first task that failed.

Every access to the shared members is made under `mutex_`, so a thread moves from one critical
section to the next, and a step of the pool is one critical section of one thread or one execution
of a task outside of it. A condition variable is the set of the threads asleep on it. A thread
asleep wakes when it is notified, and also without a reason; it then tests its predicate under the
mutex and either goes on or sleeps again.

A task can call `run` on this executor and on others. The calling thread then decides by its
thread-local `active_` how the nested call is made; `active_` is the innermost executor that the
thread has entered, and no other one. `runMutex_` is held for all of an outer call, so the outer
calls of a program form one sequence. This executor has the number 0. The others are taken to have
one worker and to be used by one task at a time.
-/

set_option autoImplicit false

namespace PyCircuit.WorkExecutor

universe u

variable {ε : Type u}

/-! ## Tasks and their serial execution -/

/-- A `WorkItem`: without a callback, or with one that makes nested runs, each on an executor, and
then returns or throws. The label says which task it is in a trace. -/
inductive WorkItem (ε : Type u) where
  | null
  | work (label : Nat) (nested : List (Nat × List (WorkItem ε))) (error : Option ε)

/-- What `run` can throw. -/
inductive Thrown (ε : Type u) where
  | needsWork
  | task (error : ε)

/-- The tasks executed, in order, and what was thrown at the end. -/
structure Outcome (ε : Type u) where
  trace : List Nat
  error : Option (Thrown ε)

/-- `!item.work`. -/
def WorkItem.isNull : WorkItem ε → Bool
  | .null => true
  | .work _ _ _ => false

/-- The executors that the thread has entered when `run` executes its tasks, the innermost first, or
`none` when the thread waits. An executor that has been entered but is not `active_` is not
recognized, and its `runMutex_` is held by the call that this one is a part of. -/
def enter (entered : List Nat) (executor : Nat) : Option (List Nat) :=
  if entered.head? = some executor then some entered
  else if entered.contains executor then none
  else some (executor :: entered)

/-- The executors entered by a thread of the pool. -/
abbrev inPool : List Nat := [0]

mutual

/-- `item.work(item.instance)` on a thread that has entered some executors. The value is `none` when
the thread waits for a call that waits for it. -/
def WorkItem.perform (entered : List Nat) : WorkItem ε → Option (Outcome ε)
  | .null => some ⟨[], none⟩
  | .work label nested error =>
    (performNested entered nested).map fun inner =>
      ⟨label :: inner.trace, inner.error.or (error.map .task)⟩

/-- The nested calls of a task; an exception of one of them ends the task. -/
def performNested (entered : List Nat) : List (Nat × List (WorkItem ε)) → Option (Outcome ε)
  | [] => some ⟨[], none⟩
  | (executor, items) :: rest =>
    let called :=
      if items.any WorkItem.isNull then some ⟨[], some .needsWork⟩
      else (enter entered executor).bind fun entered => runSerial entered items
    called.bind fun first =>
      match first.error with
      | some error => some ⟨first.trace, some error⟩
      | none =>
        (performNested entered rest).map fun later =>
          ⟨first.trace ++ later.trace, later.error⟩

/-- `runSerial`: every task is executed, and the first exception is kept. -/
def runSerial (entered : List Nat) : List (WorkItem ε) → Option (Outcome ε)
  | [] => some ⟨[], none⟩
  | item :: rest =>
    (item.perform entered).bind fun first =>
      (runSerial entered rest).map fun later =>
        ⟨first.trace ++ later.trace, first.error.or later.error⟩

end

/-- A call of `run` by a task. -/
def run (entered : List Nat) (executor : Nat) (items : List (WorkItem ε)) : Option (Outcome ε) :=
  if items.any WorkItem.isNull then some ⟨[], some .needsWork⟩
  else (enter entered executor).bind fun entered => runSerial entered items

mutual

/-- No call comes back to an executor through another one. -/
def WorkItem.direct (entered : List Nat) : WorkItem ε → Bool
  | .null => true
  | .work _ nested _ => directNested entered nested

def directNested (entered : List Nat) : List (Nat × List (WorkItem ε)) → Bool
  | [] => true
  | (executor, items) :: rest =>
    (enter entered executor).any (fun entered => directAll entered items) &&
      directNested entered rest

def directAll (entered : List Nat) : List (WorkItem ε) → Bool
  | [] => true
  | item :: rest => item.direct entered && directAll entered rest

end

/-! ## The pool -/

/-- Where a thread of `workerLoop` is. -/
inductive Worker (ε : Type u) where
  /-- In the wait set of `workReady_`. -/
  | asleep
  /-- About to test the predicate of `workReady_`. -/
  | awake
  /-- Outside the mutex, with its copy of the task. -/
  | running (index : Nat) (item : WorkItem ε)
  /-- The task has returned or thrown; the thread is about to take the mutex again. -/
  | reporting (index : Nat) (error : Option (Thrown ε))

/-- Where the thread that calls `run` is. -/
inductive Caller (ε : Type u) where
  | idle
  /-- In the loop of `runSerial`, under an `ActiveScope`. -/
  | serial (items : List (WorkItem ε)) (index : Nat) (first : Option (Thrown ε))
  /-- In the wait set of `complete_`. -/
  | asleep
  /-- About to test the predicate of `complete_`. -/
  | awake

/-- A call that has returned: its tasks, the indices executed for it and what it threw. -/
structure Call (ε : Type u) where
  items : List (WorkItem ε)
  executed : List Nat
  error : Option (Thrown ε)

/-- The number of threads the constructor starts. -/
def threads (workers : Nat) : Nat := if workers = 1 then 0 else workers

/-- The executor with the calls still to come and a record of those made. `executed` lists the tasks
whose execution for the current call has ended. -/
structure Pool (ε : Type u) (workers : Nat) where
  calls : List (List (WorkItem ε))
  caller : Caller ε
  worker : Fin (threads workers) → Worker ε
  items : List (WorkItem ε)
  errors : List (Option (Thrown ε))
  next : Nat
  pending : Nat
  executed : List Nat
  returned : List (Call ε)

variable {workers : Nat}

/-- The pool after its constructor; its threads have yet to test their predicate. -/
def Pool.start (workers : Nat) (calls : List (List (WorkItem ε))) : Pool ε workers where
  calls := calls
  caller := .idle
  worker := fun _ => .awake
  items := []
  errors := []
  next := 0
  pending := 0
  executed := []
  returned := []

/-- A notification of a worker. -/
def Worker.notify : Worker ε → Worker ε
  | .asleep => .awake
  | .awake => .awake
  | .running index item => .running index item
  | .reporting index error => .reporting index error

/-- A notification of the caller. -/
def Caller.notify : Caller ε → Caller ε
  | .asleep => .awake
  | .idle => .idle
  | .serial items index first => .serial items index first
  | .awake => .awake

namespace Pool

/-- The call returns, and the caller goes on to its next one. -/
def finish (s : Pool ε workers) (call : Call ε) : Pool ε workers :=
  { s with caller := .idle, items := [], returned := s.returned ++ [call] }

/-- The caller fills in the batch, notifies all workers and waits. -/
def submit (s : Pool ε workers) (items : List (WorkItem ε)) (rest : List (List (WorkItem ε))) :
    Pool ε workers :=
  { s with
    calls := rest
    caller := .asleep
    worker := fun w => (s.worker w).notify
    errors := List.replicate items.length none
    items := items
    next := 0
    pending := items.length
    executed := [] }

/-- A worker takes the next task of the batch. -/
def take (s : Pool ε workers) (w : Fin (threads workers)) (item : WorkItem ε) : Pool ε workers :=
  { s with
    worker := Function.update s.worker w (.running s.next item)
    next := s.next + 1 }

/-- A worker has executed its task. -/
def execute (s : Pool ε workers) (w : Fin (threads workers)) (index : Nat)
    (error : Option (Thrown ε)) : Pool ε workers :=
  { s with
    worker := Function.update s.worker w (.reporting index error)
    executed := s.executed ++ [index] }

/-- A worker stores the error of its task and counts the task as done. -/
def report (s : Pool ε workers) (w : Fin (threads workers)) (index : Nat)
    (error : Option (Thrown ε)) : Pool ε workers :=
  { s with
    worker := Function.update s.worker w .awake
    errors := s.errors.set index error
    pending := s.pending - 1
    caller := if s.pending - 1 = 0 then s.caller.notify else s.caller }

/-- The steps of the caller and of the workers. -/
inductive Step : Pool ε workers → Pool ε workers → Prop
  | reject {s : Pool ε workers} {items rest} (hcaller : s.caller = .idle)
      (hcalls : s.calls = items :: rest) (hnull : items.any WorkItem.isNull = true) :
      Step s ({ s with calls := rest }.finish ⟨items, [], some .needsWork⟩)
  | serial {s : Pool ε workers} {items rest} (hcaller : s.caller = .idle)
      (hcalls : s.calls = items :: rest) (hnull : items.any WorkItem.isNull = false)
      (hworkers : workers = 1) :
      Step s { s with calls := rest, caller := .serial items 0 none, executed := [] }
  | serialItem {s : Pool ε workers} {items index first item outcome}
      (hcaller : s.caller = .serial items index first) (hitem : items[index]? = some item)
      (hperform : item.perform inPool = some outcome) :
      Step s { s with
        caller := .serial items (index + 1) (first.or outcome.error)
        executed := s.executed ++ [index] }
  | serialReturn {s : Pool ε workers} {items index first}
      (hcaller : s.caller = .serial items index first) (hend : items.length ≤ index) :
      Step s (s.finish ⟨items, s.executed, first⟩)
  | empty {s : Pool ε workers} {rest} (hcaller : s.caller = .idle)
      (hcalls : s.calls = [] :: rest) (hworkers : workers ≠ 1) :
      Step s ({ s with calls := rest }.finish ⟨[], [], none⟩)
  | submit {s : Pool ε workers} {items rest} (hcaller : s.caller = .idle)
      (hcalls : s.calls = items :: rest) (hnull : items.any WorkItem.isNull = false)
      (hworkers : workers ≠ 1) (hitems : items ≠ []) :
      Step s (s.submit items rest)
  | complete {s : Pool ε workers} (hcaller : s.caller = .awake) (hpending : s.pending = 0) :
      Step s (s.finish ⟨s.items, s.executed, s.errors.findSome? id⟩)
  | wait {s : Pool ε workers} (hcaller : s.caller = .awake) (hpending : s.pending ≠ 0) :
      Step s { s with caller := .asleep }
  | take {s : Pool ε workers} {w item} (hworker : s.worker w = .awake)
      (hitem : s.items[s.next]? = some item) : Step s (s.take w item)
  | park {s : Pool ε workers} {w} (hworker : s.worker w = .awake)
      (hnext : s.items.length ≤ s.next) :
      Step s { s with worker := Function.update s.worker w .asleep }
  | execute {s : Pool ε workers} {w index item outcome}
      (hworker : s.worker w = .running index item)
      (hperform : item.perform inPool = some outcome) : Step s (s.execute w index outcome.error)
  | report {s : Pool ε workers} {w index error}
      (hworker : s.worker w = .reporting index error) : Step s (s.report w index error)

/-- A wake-up without a notification. -/
inductive Spurious : Pool ε workers → Pool ε workers → Prop
  | caller {s : Pool ε workers} (hcaller : s.caller = .asleep) :
      Spurious s { s with caller := .awake }
  | worker {s : Pool ε workers} {w} (hworker : s.worker w = .asleep) :
      Spurious s { s with worker := Function.update s.worker w .awake }

/-- The states of a pool that is given these calls. -/
def Reachable (calls : List (List (WorkItem ε))) (s : Pool ε workers) : Prop :=
  Relation.ReflTransGen (fun a b => Step a b ∨ Spurious a b) (start workers calls) s

end Pool

end PyCircuit.WorkExecutor
