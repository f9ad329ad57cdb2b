import PyCircuit.Lib.Word

/-!
# Transaction bodies and their serial execution

A transaction is a guard, a predicate and a body. Bodies are made of pure payload operations, reads
and whole-owner writes of state, branches, calls of guarded methods, checks and observations
(`ac.source_*` operations). A value that a use needs to be available is a `require`.

`serial` executes a body statement by statement, as the source language is defined: a write updates
the candidate of its owner, a read sees the latest candidate, a branch executes one arm, a call
evaluates the guard of the callee before its body. A guard that is known to be false blocks the
transaction. A condition, guard or write path that is not known leaves the execution undetermined.

`Trace` records what was executed, newest first, with `none` for each statement that was passed
over.
-/

set_option autoImplicit false

namespace PyCircuit.Transaction

open PyCircuit.Lib

/-- Values of the payload domain. -/
abbrev Payload : Type := Word

/-- SSA values of one invocation frame. -/
abbrev Var : Type := Nat

/-- State owners. -/
abbrev OwnerId : Type := Nat

/-- What the transaction is evaluated in: captured values, the committed state, the meaning of the
pure operations, and the availability of required values. -/
structure Valuation where
  input : Var → Payload
  oldQ : OwnerId → Payload
  apply : Nat → List Payload → Payload
  available : Nat → Logic

/-- Results of a branch: the value yielded by each arm. -/
structure BranchResult where
  result : Var
  whenTrue : Var
  whenFalse : Var
  deriving DecidableEq, Repr

/-- Results of a call: the value yielded by the callee. -/
structure CallResult where
  result : Var
  yielded : Var
  deriving DecidableEq, Repr

/-- The statements of a region, each followed by the rest of the region. The path of a write is
`none` when it is the constant true. -/
inductive Region where
  | done
  | pure (dst : Var) (op : Nat) (args : List Var) (rest : Region)
  | read (dst : Var) (owner : OwnerId) (rest : Region)
  | write (owner : OwnerId) (path : Option Var) (value : Var) (rest : Region)
  | branch (continuation : Bool) (condition : Var) (whenTrue whenFalse : Region)
      (results : List BranchResult) (rest : Region)
  | call (formals actuals : List Var) (guard : Region) (predicate : Var) (body : Region)
      (results : List CallResult) (rest : Region)
  | check (condition : Var) (rest : Region)
  | observe (values : List Var) (rest : Region)
  | require (site : Nat) (rawPath : Option Var) (rest : Region)

/-- A rule: its guard region yields the predicate, then its body runs. -/
structure Rule where
  guard : Region
  predicate : Var
  body : Region

/-- The walk of `needsSelection`: some operation calls a method, checks or observes. -/
def Region.effectful : Region → Bool
  | .done => false
  | .pure _ _ _ rest => rest.effectful
  | .read _ _ rest => rest.effectful
  | .write _ _ _ rest => rest.effectful
  | .branch continuation _ whenTrue whenFalse _ rest =>
    continuation || whenTrue.effectful || whenFalse.effectful || rest.effectful
  | .call _ _ _ _ _ _ _ => true
  | .check _ _ => true
  | .observe _ _ => true
  | .require _ _ rest => rest.effectful

section Frames

variable {α : Type}

/-- A frame with one more value. -/
def assign (env : Var → α) (v : Var) (a : α) : Var → α := fun w => if w = v then a else env w

def assignAll (env : Var → α) : List (Var × α) → Var → α
  | [] => env
  | (v, a) :: rest => assignAll (assign env v a) rest

theorem assign_rel {β : Type} {R : α → β → Prop} {env : Var → α} {env' : Var → β} {v : Var}
    {a : α} {b : β} (henv : ∀ w, R (env w) (env' w)) (hab : R a b) (w : Var) :
    R (assign env v a w) (assign env' v b w) := by
  unfold assign
  split
  · exact hab
  · exact henv w

theorem assignAll_rel {β ι : Type} {R : α → β → Prop} {env : Var → α} {env' : Var → β}
    (vars : ι → Var) (f : ι → α) (g : ι → β) (l : List ι) (henv : ∀ w, R (env w) (env' w))
    (hfg : ∀ i ∈ l, R (f i) (g i)) (w : Var) :
    R (assignAll env (l.map fun i => (vars i, f i)) w)
      (assignAll env' (l.map fun i => (vars i, g i)) w) := by
  induction l generalizing env env' with
  | nil => exact henv w
  | cons i rest ih =>
    refine ih ?_ (List.forall_mem_cons.mp hfg).2
    intro u
    exact assign_rel henv (hfg i List.mem_cons_self) u

end Frames

/-- Candidates of the owners during a serial execution. -/
structure Store where
  value : OwnerId → Payload
  written : OwnerId → Bool

def Store.write (s : Store) (o : OwnerId) (v : Payload) : Store where
  value := fun p => if p = o then v else s.value p
  written := fun p => if p = o then true else s.written p

/-- What a serial execution did at each read, check and observation, newest first. -/
structure Trace where
  reads : List (Option Payload)
  checks : List (Option Payload)
  observations : List (Option (List Payload))

/-- The statements of a region are passed over. -/
def Region.skip : Region → Trace → Trace
  | .done, t => t
  | .pure _ _ _ rest, t => rest.skip t
  | .read _ _ rest, t => rest.skip { t with reads := none :: t.reads }
  | .write _ _ _ rest, t => rest.skip t
  | .branch _ _ whenTrue whenFalse _ rest, t => rest.skip (whenFalse.skip (whenTrue.skip t))
  | .call _ _ guard _ body _ rest, t => rest.skip (body.skip (guard.skip t))
  | .check _ rest, t => rest.skip { t with checks := none :: t.checks }
  | .observe _ rest, t => rest.skip { t with observations := none :: t.observations }
  | .require _ _ rest, t => rest.skip t

/-- How a serial execution ends. -/
inductive Run where
  | running (env : Var → Payload) (store : Store)
  | blocked
  | undetermined

/-- Execution goes on with `next` after a run that was not stopped; otherwise the trace is completed
by `skip`. -/
def Run.andThen (r : Run × Trace) (skip : Trace → Trace)
    (next : (Var → Payload) → Store → Trace → Run × Trace) : Run × Trace :=
  match r with
  | (.running env store, t) => next env store t
  | (stopped, t) => (stopped, skip t)

/-- A control with the given value: execution goes on, is blocked or is undetermined. -/
def Run.control (value : Logic) (t : Trace) (skip : Trace → Trace)
    (next : Trace → Run × Trace) : Run × Trace :=
  match value with
  | .one => next t
  | .zero => (.blocked, skip t)
  | _ => (.undetermined, skip t)

/-- Serial execution of a region. -/
def serial (ρ : Valuation) : Region → (Var → Payload) → Store → Trace → Run × Trace
  | .done, env, store, t => (.running env store, t)
  | .pure dst op args rest, env, store, t =>
    serial ρ rest (assign env dst (ρ.apply op (args.map env))) store t
  | .read dst owner rest, env, store, t =>
    serial ρ rest (assign env dst (store.value owner)) store
      { t with reads := some (store.value owner) :: t.reads }
  | .write owner path value rest, env, store, t =>
    match (path.map fun p => (env p).bit).getD .one with
    | .one => serial ρ rest env (store.write owner (env value)) t
    | .zero => serial ρ rest env store t
    | _ => (.undetermined, rest.skip t)
  | .branch _ condition whenTrue whenFalse results rest, env, store, t =>
    match (env condition).bit with
    | .one =>
      Run.andThen (serial ρ whenTrue env store t) (fun u => rest.skip (whenFalse.skip u))
        fun arm store u => serial ρ rest
          (assignAll env (results.map fun r => (r.result, arm r.whenTrue))) store
          (whenFalse.skip u)
    | .zero =>
      Run.andThen (serial ρ whenFalse env store (whenTrue.skip t)) rest.skip
        fun arm store u => serial ρ rest
          (assignAll env (results.map fun r => (r.result, arm r.whenFalse))) store u
    | _ => (.undetermined, rest.skip (whenFalse.skip (whenTrue.skip t)))
  | .call formals actuals guard predicate body results rest, env, store, t =>
    let frame := assignAll ρ.input ((formals.zip actuals).map fun a => (a.1, env a.2))
    Run.andThen (serial ρ guard frame store t) (fun u => rest.skip (body.skip u))
      fun frame store u => Run.control (frame predicate).bit u
        (fun u => rest.skip (body.skip u))
        fun u => Run.andThen (serial ρ body frame store u) rest.skip
          fun callee store u => serial ρ rest
            (assignAll env (results.map fun r => (r.result, callee r.yielded))) store u
  | .check condition rest, env, store, t =>
    serial ρ rest env store { t with checks := some (env condition) :: t.checks }
  | .observe values rest, env, store, t =>
    serial ρ rest env store { t with observations := some (values.map env) :: t.observations }
  | .require site rawPath rest, env, store, t =>
    match (rawPath.map fun p => (env p).bit).getD .one with
    | .one => Run.control (ρ.available site) t rest.skip (serial ρ rest env store)
    | .zero => serial ρ rest env store t
    | _ => (.undetermined, rest.skip t)

/-- Serial execution of a rule, from the captured values and the committed state. -/
def serialRule (ρ : Valuation) (t : Rule) : Run × Trace :=
  let store : Store := ⟨ρ.oldQ, fun _ => false⟩
  Run.andThen (serial ρ t.guard ρ.input store ⟨[], [], []⟩) t.body.skip
    fun frame store u => Run.control (frame t.predicate).bit u t.body.skip
      fun u => serial ρ t.body frame store u

end PyCircuit.Transaction
