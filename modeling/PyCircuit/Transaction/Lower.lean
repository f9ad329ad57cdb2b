import PyCircuit.Transaction.Source

/-!
# Lowering of transactions

`lower` follows the state analysis (`SourceTransactionStateAnalysis.cpp`) and the rule materializer
(`LowerTransactions.cpp`) through a region. Every statement is materialized, whether or not it will
be executed: a write makes a new version of its owner, a branch materializes both arms from the same
entry versions and joins the versions that changed, and each guard, selection and required use is a
control that extends the chain of admission prefixes.

The result is hardware: `Term`s for values and `Signal`s for width-one control, evaluated in a
`Valuation`.
-/

set_option autoImplicit false

namespace PyCircuit.Transaction

open PyCircuit.Lib

/-! ## Hardware values -/

mutual

/-- Payload values of the lowered rule. -/
inductive Term where
  | input (v : Var)
  | oldQ (o : OwnerId)
  | apply (op : Nat) (args : List Term)
  | select (condition : Signal) (whenTrue whenFalse : Term)

/-- Width-one values of the lowered rule. `caseEq` compares with a literal. -/
inductive Signal where
  | value (t : Term)
  | literal (b : Bool)
  | available (site : Nat)
  | and (lhs rhs : Signal)
  | or (lhs rhs : Signal)
  | not (operand : Signal)
  | caseEq (operand : Signal) (b : Bool)
  | select (condition whenTrue whenFalse : Signal)

end

mutual

def Term.eval (ρ : Valuation) : Term → Payload
  | .input v => ρ.input v
  | .oldQ o => ρ.oldQ o
  | .apply op args => ρ.apply op (evalArgs ρ args)
  | .select c a b => Word.select (c.eval ρ) (a.eval ρ) (b.eval ρ)

def evalArgs (ρ : Valuation) : List Term → List Payload
  | [] => []
  | t :: rest => t.eval ρ :: evalArgs ρ rest

def Signal.eval (ρ : Valuation) : Signal → Logic
  | .value t => (t.eval ρ).bit
  | .literal b => .ofBool b
  | .available site => ρ.available site
  | .and a b => (a.eval ρ).and (b.eval ρ)
  | .or a b => (a.eval ρ).or (b.eval ρ)
  | .not a => (a.eval ρ).not
  | .caseEq a b => (a.eval ρ).caseEq (.ofBool b)
  | .select c a b => Logic.select (c.eval ρ) (a.eval ρ) (b.eval ρ)

end

theorem evalArgs_eq_map (ρ : Valuation) (args : List Term) :
    evalArgs ρ args = args.map (Term.eval ρ) := by
  induction args with
  | nil => rfl
  | cons t rest ih => rw [evalArgs, ih, List.map_cons]

/-! ## Source paths -/

/-- The materialized paths into the two arms of a branch that is a selection. -/
structure Selection where
  whenTrue : Signal
  whenFalse : Signal

/-- One enclosing branch: its condition, its selection if it has one, and the arm. -/
structure PathStep where
  condition : Signal
  selection : Option Selection
  whenTrue : Bool

/-- The branches around a statement, innermost first. -/
abbrev SourcePath : Type := List PathStep

/-- `selectedPath`: the arm of the nearest branch that is a selection (`sampledPath`). Pure branches
are passed over; `none` stands for a path that is always taken. -/
def selectedPath : SourcePath → Option Signal
  | [] => none
  | step :: outer =>
    match step.selection with
    | some s => some (if step.whenTrue then s.whenTrue else s.whenFalse)
    | none => selectedPath outer

/-- The path of a required use: the conditions of all enclosing branches, pure ones included. -/
def statementPath (path : SourcePath) : Signal :=
  path.foldl (fun acc step =>
    .and acc (if step.whenTrue then step.condition else .not step.condition)) (.literal true)

/-! ## Materialized records -/

inductive ControlKind where
  | guard
  | selection
  | requirement
  deriving DecidableEq, Repr

/-- `MaterializedAdmissionControl`, with the source path of the control. -/
structure Control where
  kind : ControlKind
  source : SourcePath
  raw : Signal
  path : Option Signal
  reached : Signal
  accepted : Signal
  bypass : Signal

/-- A version of an owner: `ordinal` counts the versions of the owner, `rawIntent` tells whether the
path to this version has written the owner. -/
structure Version where
  ordinal : Nat
  data : Term
  rawIntent : Signal

structure SavedCheck where
  condition : Term
  path : Option Signal

structure SavedObservation where
  values : List Term
  path : Option Signal

/-- State of the materializer. Lists are newest first; `admitted` is the current prefix. -/
structure Lowering where
  admitted : Signal
  history : List Signal
  controls : List Control
  candidates : OwnerId → Version
  ordinals : OwnerId → Nat
  reads : List Term
  checks : List SavedCheck
  observations : List SavedObservation

/-- Before the first statement every owner has its old value and nothing is written. -/
def Lowering.start : Lowering where
  admitted := .literal true
  history := [.literal true]
  controls := []
  candidates := fun o => ⟨0, .oldQ o, .literal false⟩
  ordinals := fun _ => 0
  reads := []
  checks := []
  observations := []

namespace Lowering

/-- A guard or required use is accepted when it is known one, a selection when it is known. -/
def accepted (kind : ControlKind) (raw : Signal) : Signal :=
  match kind with
  | .selection => .or (.caseEq raw false) (.caseEq raw true)
  | _ => .caseEq raw true

/-- The record of a control. A control whose path is not taken is not reached and is bypassed. -/
def control (st : Lowering) (kind : ControlKind) (raw : Signal) (source : SourcePath) :
    Control where
  kind := kind
  source := source
  raw := raw
  path := selectedPath source
  reached :=
    match selectedPath source with
    | none => st.admitted
    | some path => .and st.admitted path
  accepted := accepted kind raw
  bypass :=
    match selectedPath source with
    | none => accepted kind raw
    | some path => .select path (accepted kind raw) (.literal true)

/-- `admitControl`. -/
def admitControl (st : Lowering) (kind : ControlKind) (raw : Signal) (source : SourcePath) :
    Lowering :=
  let c := st.control kind raw source
  { st with
    admitted := .and st.admitted c.bypass
    history := .and st.admitted c.bypass :: st.history
    controls := c :: st.controls }

/-- The paths that `admitControl` records for a selection. -/
def selectionPaths (condition : Signal) (source : SourcePath) : Selection :=
  match selectedPath source with
  | none => ⟨.caseEq condition true, .caseEq condition false⟩
  | some path => ⟨.and path (.caseEq condition true), .and path (.caseEq condition false)⟩

/-- A branch that needs a selection admits its condition as a control. -/
def enterBranch (st : Lowering) (effectful : Bool) (condition : Signal) (source : SourcePath) :
    Lowering :=
  if effectful then st.admitControl .selection condition source else st

/-- The step of a source path into one arm of a branch. -/
def armStep (effectful : Bool) (condition : Signal) (source : SourcePath) (whenTrue : Bool) :
    PathStep :=
  ⟨condition, if effectful then some (selectionPaths condition source) else none, whenTrue⟩

/-- The second arm starts from the versions at the entry of the branch. -/
def restore (st : Lowering) (entry : OwnerId → Version) : Lowering :=
  { st with candidates := entry }

/-- `materializeWrite` of a whole owner. -/
def write (st : Lowering) (owner : OwnerId) (path : Option Signal) (value : Term) : Lowering :=
  let old := st.candidates owner
  let version : Version :=
    match path with
    | none => ⟨st.ordinals owner + 1, value, .literal true⟩
    | some p => ⟨st.ordinals owner + 1, .select p value old.data, .or old.rawIntent p⟩
  { st with
    candidates := fun o => if o = owner then version else st.candidates o
    ordinals := fun o => if o = owner then st.ordinals owner + 1 else st.ordinals o }

/-- The state joins after a branch: an owner gets a new version when either arm changed it. -/
def join (st : Lowering) (condition : Signal) (entry whenTrue : OwnerId → Version) : Lowering :=
  let changed := fun o => (whenTrue o).ordinal ≠ (entry o).ordinal ∨
    (st.candidates o).ordinal ≠ (entry o).ordinal
  { st with
    candidates := fun o =>
      if changed o then
        ⟨st.ordinals o + 1, .select condition (whenTrue o).data (st.candidates o).data,
          .select condition (whenTrue o).rawIntent (st.candidates o).rawIntent⟩
      else st.candidates o
    ordinals := fun o => if changed o then st.ordinals o + 1 else st.ordinals o }

end Lowering

/-- The raw value of a required use: `ac.value.require` is one where the use is not reached. -/
def requirement (site : Nat) (rawPath : Option Signal) (path : SourcePath) : Signal :=
  let reached :=
    match rawPath with
    | none => statementPath path
    | some p => .and (statementPath path) p
  .select reached (.available site) (.literal true)

/-- Lowering of a region in a frame, at a source path. -/
def lower : Region → (Var → Term) → SourcePath → Lowering → (Var → Term) × Lowering
  | .done, env, _, st => (env, st)
  | .pure dst op args rest, env, path, st =>
    lower rest (assign env dst (.apply op (args.map env))) path st
  | .read dst owner rest, env, path, st =>
    let data := (st.candidates owner).data
    lower rest (assign env dst data) path { st with reads := data :: st.reads }
  | .write owner writePath value rest, env, path, st =>
    lower rest env path
      (st.write owner (writePath.map fun p => .value (env p)) (env value))
  | .branch continuation condition whenTrue whenFalse results rest, env, path, st =>
    let raw := Signal.value (env condition)
    let effectful := continuation || whenTrue.effectful || whenFalse.effectful
    let armTrue := lower whenTrue env (Lowering.armStep effectful raw path true :: path)
      (st.enterBranch effectful raw path)
    let armFalse := lower whenFalse env (Lowering.armStep effectful raw path false :: path)
      (armTrue.2.restore st.candidates)
    lower rest
      (assignAll env (results.map fun r =>
        (r.result, .select raw (armTrue.1 r.whenTrue) (armFalse.1 r.whenFalse))))
      path (armFalse.2.join raw st.candidates armTrue.2.candidates)
  | .call formals actuals guard predicate body results rest, env, path, st =>
    let frame := assignAll Term.input ((formals.zip actuals).map fun a => (a.1, env a.2))
    let guarded := lower guard frame path st
    let callee := lower body guarded.1 path
      (guarded.2.admitControl .guard (.value (guarded.1 predicate)) path)
    lower rest (assignAll env (results.map fun r => (r.result, callee.1 r.yielded))) path callee.2
  | .check condition rest, env, path, st =>
    lower rest env path
      { st with checks := ⟨env condition, selectedPath path⟩ :: st.checks }
  | .observe values rest, env, path, st =>
    lower rest env path
      { st with observations := ⟨values.map env, selectedPath path⟩ :: st.observations }
  | .require site rawPath rest, env, path, st =>
    lower rest env path (st.admitControl .requirement
      (requirement site (rawPath.map fun p => .value (env p)) path) path)

/-- Lowering of a rule. -/
def lowerRule (t : Rule) : Lowering :=
  let guarded := lower t.guard Term.input [] .start
  (lower t.body guarded.1 []
    (guarded.2.admitControl .guard (.value (guarded.1 t.predicate)) [])).2

namespace Lowering

/-- The rule fires when its last prefix is one. -/
def fire (st : Lowering) : Signal := st.admitted

/-- The write enable of an owner. -/
def enable (st : Lowering) (o : OwnerId) : Signal := .and st.fire (st.candidates o).rawIntent

/-- The write data of an owner. -/
def data (st : Lowering) (o : OwnerId) : Term := (st.candidates o).data

/-- `effectPath`: a check or observation is active when the rule fires and its path is taken. -/
def effectPath (st : Lowering) (path : Option Signal) : Signal :=
  match path with
  | none => st.fire
  | some p => .and st.fire p

end Lowering

end PyCircuit.Transaction
