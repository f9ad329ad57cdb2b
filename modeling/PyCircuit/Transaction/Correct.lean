import PyCircuit.Transaction.PassedOver

/-!
# Lowered rules compute serial execution

The lowering of a region is compared with its serial execution in a valuation where the controls the
execution meets are known. While the execution runs, the lowering is `InStep` with it: the frame,
the candidates and the intents evaluate to the frame, the values and the written owners of the
execution, the materialized reads, checks and observations to what the execution recorded, and all
controls so far pass. Once a guard has blocked the execution, the lowering is `Stopped`.

`lower_simulates` is the induction over regions, `lowerRule_correct` what it says about a rule.
-/

set_option autoImplicit false

namespace PyCircuit.Transaction

open PyCircuit.Lib

section

variable (ρ : Valuation)

/-- All enclosing branches, pure ones included, take the arm of the statement. -/
def Executing (path : SourcePath) : Prop :=
  ∀ step ∈ path, step.condition.eval ρ = .ofBool step.whenTrue

/-- Frame and candidates of the lowering have the values of the serial execution. -/
structure Agrees (env : Var → Term) (st : Lowering) (frame : Var → Payload) (store : Store) :
    Prop where
  values : ∀ v, (env v).eval ρ = frame v
  data : ∀ o, (st.candidates o).data.eval ρ = store.value o
  intent : ∀ o, (st.candidates o).rawIntent.eval ρ = .ofBool (store.written o)

/-- The lowering is where the running execution is. -/
structure InStep (low : (Var → Term) × Lowering) (frame : Var → Payload) (store : Store)
    (t : Trace) : Prop where
  counted : Counted low.2
  agrees : Agrees ρ low.1 low.2 frame store
  traced : Traced ρ False low.2 t
  passing : low.2.passing ρ = true

/-- A control has stopped the execution. -/
structure Stopped (st : Lowering) (t : Trace) : Prop where
  traced : Traced ρ True st t
  passing : st.passing ρ = false

/-- The lowering agrees with how the execution ended, if its controls were known. -/
def Simulates (run : Run × Trace) (low : (Var → Term) × Lowering) : Prop :=
  match run with
  | (.running frame store, t) => InStep ρ low frame store t
  | (.blocked, t) => Stopped ρ low.2 t
  | (.undetermined, _) => True

end

section

variable {ρ : Valuation}

/-! ## Sequencing -/

variable {low : (Var → Term) × Lowering} {t : Trace} {path : SourcePath} {st : Lowering} {b : Bool}
  {raw : Signal} {kind : ControlKind} {frame : Var → Payload} {store : Store} {env : Var → Term}
  {p : Payload} {value : Term}

/-- What follows is executed after a run that goes on, and passed over after one that stopped. -/
theorem Simulates.andThen {run : Run × Trace} {result : (Var → Term) × Lowering}
    {skip : Trace → Trace} {next : (Var → Payload) → Store → Trace → Run × Trace}
    (h : Simulates ρ run low)
    (hnext : ∀ frame store t, InStep ρ low frame store t →
      Simulates ρ (next frame store t) result)
    (hskip : ∀ t, Stopped ρ low.2 t → Stopped ρ result.2 (skip t)) :
    Simulates ρ (Run.andThen run skip next) result := by
  obtain ⟨run, t⟩ := run
  cases run with
  | running frame store => exact hnext frame store t h
  | blocked => exact hskip t h
  | undetermined => trivial

theorem Simulates.control {value : Logic} {result : (Var → Term) × Lowering}
    {skip : Trace → Trace} {next : Trace → Run × Trace}
    (hnext : value = .one → Simulates ρ (next t) result)
    (hskip : value = .zero → Stopped ρ result.2 (skip t)) :
    Simulates ρ (Run.control value t skip next) result := by
  cases value with
  | one => exact hnext rfl
  | zero => exact hskip rfl
  | x | z => trivial

/-- After a control that stopped the execution, a region is passed over. -/
theorem Stopped.lower (h : Stopped ρ st t) (r : Region)
    (env : Var → Term) (hpath : WellPathed ρ path) :
    Stopped ρ (lower r env path st).2 (r.skip t) :=
  ⟨lower_skip_traced r env hpath (Or.inl trivial) h.traced, lower_stopped r h.passing⟩

theorem Stopped.admitControl (h : Stopped ρ st t) (kind : ControlKind)
    (raw : Signal) (path : SourcePath) : Stopped ρ (st.admitControl kind raw path) t :=
  ⟨h.traced.admitControl kind raw path, admitControl_stopped h.passing⟩

/-! ## Executed paths -/

theorem Executing.selected (h : Executing ρ path) :
    SourcePath.selected ρ path = true := by
  refine List.all_eq_true.mpr fun step hstep => ?_
  rw [h step hstep]
  simp

theorem Executing.arm (h : Executing ρ path)
    (hraw : raw.eval ρ = .ofBool b) (effectful : Bool) :
    Executing ρ (Lowering.armStep effectful raw path b :: path) :=
  List.forall_mem_cons.mpr ⟨hraw, h⟩

/-- The arm that the execution does not take is passed over. -/
theorem passedOver_arm (hraw : raw.eval ρ = .ofBool (!b))
    {effectful : Bool} {r : Region} (heffectful : effectful = false → r.effectful = false)
    (path : SourcePath) : PassedOver ρ (Lowering.armStep effectful raw path b :: path) r := by
  cases effectful with
  | false =>
    exact Or.inr ⟨heffectful rfl, ⟨_, List.mem_cons_self, hraw⟩⟩
  | true =>
    left
    have hne : raw.eval ρ ≠ .ofBool b := by
      rw [hraw]
      cases b <;> decide
    rw [selected_cons]
    simp [Lowering.armStep, hne]

/-- The path of a required use that is executed is one. -/
theorem Executing.statementPath (h : Executing ρ path) :
    (statementPath path).eval ρ = .one := by
  refine List.foldlRecOn path _ (motive := fun acc : Signal => acc.eval ρ = .one) rfl ?_
  intro acc hacc step hstep
  show (acc.eval ρ).and _ = .one
  rw [hacc, armSignal_eval (h step hstep)]
  cases step.whenTrue <;> rfl

/-! ## Controls -/

theorem control_accepts (hkind : kind ≠ .selection) (st : Lowering)
    (raw : Signal) (path : SourcePath) :
    (st.control kind raw path).accepts ρ = decide (raw.eval ρ = .one) := by
  cases kind with
  | guard | requirement => rfl
  | selection => exact absurd rfl hkind

/-- A control that is accepted lets the execution go on. -/
theorem InStep.admit (h : InStep ρ low frame store t)
    (haccepts : (low.2.control kind raw path).accepts ρ = true) :
    InStep ρ (low.1, low.2.admitControl kind raw path) frame store t := by
  have hpasses : (low.2.control kind raw path).passes ρ = true := by
    rw [Control.passes, haccepts, Bool.or_true]
  exact ⟨h.counted, ⟨h.agrees.values, h.agrees.data, h.agrees.intent⟩,
    h.traced.admitControl kind raw path, (admitControl_passing hpasses).trans h.passing⟩

/-- A guard or required use that is one lets the execution go on. -/
theorem InStep.admit_one (h : InStep ρ low frame store t) (hkind : kind ≠ .selection)
    (hraw : raw.eval ρ = .one) (path : SourcePath) :
    InStep ρ (low.1, low.2.admitControl kind raw path) frame store t := by
  refine h.admit ?_
  rw [control_accepts hkind]
  exact decide_eq_true hraw

/-- An executed guard or required use that is zero stops the execution. -/
theorem InStep.admit_zero (h : InStep ρ low frame store t) (hkind : kind ≠ .selection)
    (hraw : raw.eval ρ = .zero) (hpath : Executing ρ path) :
    Stopped ρ (low.2.admitControl kind raw path) t := by
  refine ⟨(h.traced.mono fun _ => trivial).admitControl kind raw path, ?_⟩
  have honPath : (low.2.control kind raw path).onPath ρ = true := hpath.selected
  show ((low.2.control kind raw path).passes ρ && low.2.passing ρ) = false
  rw [Control.passes, honPath, control_accepts hkind, hraw]
  rfl

section

variable (h : InStep ρ (env, st) frame store t)
include h

/-- The condition of an executed branch is known. -/
theorem InStep.enterBranch (hraw : raw.eval ρ = .ofBool b) (effectful : Bool) (path : SourcePath) :
    InStep ρ (env, st.enterBranch effectful raw path) frame store t := by
  cases effectful with
  | false => exact h
  | true =>
    refine h.admit (decide_eq_true ?_)
    show (raw.eval ρ).Known
    rw [hraw]
    exact Logic.ofBool_known b

/-! ## Statements -/

/-- Another frame over the same candidates. -/
theorem InStep.reframe {env' : Var → Term} {frame' : Var → Payload}
    (hvalues : ∀ v, (env' v).eval ρ = frame' v) : InStep ρ (env', st) frame' store t :=
  ⟨h.counted, ⟨hvalues, h.agrees.data, h.agrees.intent⟩, h.traced, h.passing⟩

theorem InStep.assign (v : Var) (hvalue : value.eval ρ = p) :
    InStep ρ (assign env v value, st) (assign frame v p) store t :=
  h.reframe (assign_rel (R := fun (a : Term) b => a.eval ρ = b) h.agrees.values hvalue)

/-- The path of a statement, absent when it is unconditional. -/
theorem InStep.pathValue_map (path : Option Var) :
    pathValue ρ (path.map fun p => Signal.value (env p)) =
      (path.map fun p => (frame p).bit).getD .one := by
  cases path with
  | none => rfl
  | some p => exact congrArg Word.bit (h.agrees.values p)

/-- A statement that only adds to the records of reads, checks and observations. -/
theorem InStep.record {st' : Lowering} {t' : Trace} (hcandidates : st'.candidates = st.candidates)
    (hordinals : st'.ordinals = st.ordinals) (hcontrols : st'.controls = st.controls)
    (htraced : Traced ρ False st' t') : InStep ρ (env, st') frame store t' := by
  refine ⟨(Newer.of_eq h.counted hcandidates hordinals).counted, ?_, htraced, ?_⟩
  · refine ⟨h.agrees.values, ?_, ?_⟩
    · intro o
      rw [hcandidates]
      exact h.agrees.data o
    · intro o
      rw [hcandidates]
      exact h.agrees.intent o
  · show st'.passing ρ = true
    rw [Lowering.passing, hcontrols]
    exact h.passing

omit h in
/-- A write whose path is known updates the candidate exactly when the path is taken. -/
theorem write_agrees (h : Agrees ρ env st frame store) (owner : OwnerId) {path : Option Signal}
    (hpath : pathValue ρ path = .ofBool b)
    (hvalue : value.eval ρ = p) :
    Agrees ρ env (st.write owner path value) frame
      (if b then store.write owner p else store) := by
  refine ⟨h.values, ?_, ?_⟩
  · intro o
    by_cases ho : o = owner
    · subst ho
      have hold := h.data o
      cases path with
      | none =>
        have hb : b = true := Logic.ofBool_eq_one.mp hpath.symm
        simp [Lowering.write, Store.write, hb, hvalue]
      | some s =>
        have hs : s.eval ρ = .ofBool b := hpath
        cases b <;> simp [Lowering.write, Store.write, Term.eval, hs, hvalue, hold, Word.select]
    · have hold := h.data o
      cases path <;> cases b <;> simp [Lowering.write, Store.write, ho, hold]
  · intro o
    by_cases ho : o = owner
    · subst ho
      have hold := h.intent o
      cases path with
      | none =>
        have hb : b = true := Logic.ofBool_eq_one.mp hpath.symm
        simp [Lowering.write, Store.write, hb, Signal.eval]
      | some s =>
        have hs : s.eval ρ = .ofBool b := hpath
        cases b <;> simp [Lowering.write, Store.write, Signal.eval, hs, hold, Logic.or_ofBool,
          -Logic.ofBool_true, -Logic.ofBool_false]
    · have hold := h.intent o
      cases path <;> cases b <;> simp [Lowering.write, Store.write, ho, hold]

theorem InStep.write (owner : OwnerId) {path : Option Signal} (hpath : pathValue ρ path = .ofBool b)
    (hvalue : value.eval ρ = p) : InStep ρ (env, st.write owner path value) frame
      (if b then store.write owner p else store) t :=
  ⟨(write_newer h.counted owner path value).counted, write_agrees h.agrees owner hpath hvalue,
    h.traced.of_eq rfl rfl rfl, h.passing⟩

/-! ## Joins -/

omit h in
/-- After a branch whose condition is known, every owner has the version of the arm that was taken;
an owner that neither arm changed has its version from the entry in both. -/
theorem join_candidates {armTrue armFalse : Lowering}
    (hraw : raw.eval ρ = .ofBool b) (hst : Counted st) (htrue : Newer st armTrue)
    (hfalse : Newer (armTrue.restore st.candidates) armFalse) (o : OwnerId) :
    (((armFalse.join raw st.candidates armTrue.candidates).candidates o).data.eval ρ =
        ((if b then armTrue else armFalse).candidates o).data.eval ρ) ∧
      (((armFalse.join raw st.candidates armTrue.candidates).candidates o).rawIntent.eval ρ =
        ((if b then armTrue else armFalse).candidates o).rawIntent.eval ρ) := by
  simp only [Lowering.join]
  split
  · next hchanged =>
    cases b <;> simp [Term.eval, Signal.eval, hraw, Word.select]
  · next hsame =>
    obtain ⟨htrue', hfalse'⟩ := arms_unchanged hst htrue hfalse hsame
    cases b with
    | true => simp [htrue', hfalse']
    | false => simp

omit h in
/-- The frame after a branch whose condition is known. -/
theorem branchResults_values {armTrue armFalse : Var → Term} {arm : Var → Payload}
    (hraw : raw.eval ρ = .ofBool b) (henv : ∀ v, (env v).eval ρ = frame v)
    (harm : ∀ v, ((if b then armTrue else armFalse) v).eval ρ = arm v)
    (results : List BranchResult) (v : Var) :
    (assignAll env (results.map fun r =>
        (r.result, Term.select raw (armTrue r.whenTrue) (armFalse r.whenFalse))) v).eval ρ =
      assignAll frame (results.map fun r =>
        (r.result, arm (if b then r.whenTrue else r.whenFalse))) v := by
  refine assignAll_rel (R := fun (a : Term) p => a.eval ρ = p) BranchResult.result
    (fun r => .select raw (armTrue r.whenTrue) (armFalse r.whenFalse)) _ results henv ?_ v
  intro r _
  cases b with
  | true =>
    have hr := harm r.whenTrue
    simpa [Term.eval, hraw, Word.select] using hr
  | false =>
    have hr := harm r.whenFalse
    simpa [Term.eval, hraw, Word.select] using hr

/-- The lowering after a branch, from what holds of its two arms: the arm that was taken is in step
with the execution, the other one was passed over. -/
theorem InStep.join {arm : Var → Payload} {store' : Store} {u : Trace}
    {armTrue armFalse : (Var → Term) × Lowering} (hraw : raw.eval ρ = .ofBool b)
    (htrue : Newer st armTrue.2) (hfalse : Newer (armTrue.2.restore st.candidates) armFalse.2)
    (harm : Agrees ρ (if b then armTrue else armFalse).1
      (if b then armTrue else armFalse).2 arm store')
    (htraced : Traced ρ False armFalse.2 u) (hpassing : armFalse.2.passing ρ = true)
    (results : List BranchResult) : InStep ρ
      (assignAll env (results.map fun r =>
          (r.result, .select raw (armTrue.1 r.whenTrue) (armFalse.1 r.whenFalse))),
        armFalse.2.join raw st.candidates armTrue.2.candidates)
      (assignAll frame (results.map fun r =>
        (r.result, arm (if b then r.whenTrue else r.whenFalse)))) store' u := by
  have hcandidates := join_candidates hraw h.counted htrue hfalse
  rw [apply_ite Prod.fst, apply_ite Prod.snd] at harm
  refine ⟨(join_newer raw h.counted htrue hfalse).counted, ⟨?_, ?_, ?_⟩,
    htraced.of_eq rfl rfl rfl, hpassing⟩
  · exact branchResults_values hraw h.agrees.values harm.values results
  · exact fun o => (hcandidates o).1.trans (harm.data o)
  · exact fun o => (hcandidates o).2.trans (harm.intent o)

end

/-! ## Simulation -/

variable (ρ) in
/-- Wherever the region is executed, its lowering simulates its execution. -/
def Simulated (r : Region) : Prop :=
  ∀ {env : Var → Term} {path : SourcePath} {st : Lowering} {frame : Var → Payload} {store : Store}
    {t : Trace}, WellPathed ρ path → Executing ρ path → InStep ρ (env, st) frame store t →
      Simulates ρ (serial ρ r frame store t) (lower r env path st)

section

variable {rest : Region} (ih : Simulated ρ rest)
include ih

theorem read_simulated (dst : Var) (owner : OwnerId) : Simulated ρ (.read dst owner rest) := by
  intro env path st frame store t hpath hexec h
  -- the version that is read is the latest candidate
  have hdata := h.agrees.data owner
  have hrecord : InStep ρ
      (env, { st with reads := (st.candidates owner).data :: st.reads }) frame store
      { t with reads := some (store.value owner) :: t.reads } := by
    refine h.record rfl rfl rfl ⟨List.Forall₂.cons ?_ h.traced.reads, h.traced.checks,
      h.traced.observations⟩
    rintro v ⟨⟩
    exact hdata
  exact ih hpath hexec (hrecord.assign dst hdata)

theorem write_simulated (owner : OwnerId) (writePath : Option Var) (value : Var) :
    Simulated ρ (.write owner writePath value rest) := by
  intro env path st frame store t hpath hexec h
  have hvalue := h.agrees.values value
  have hwrite := h.pathValue_map writePath
  rw [serial]
  cases hp : (writePath.map fun p => (frame p).bit).getD .one with
  | one => exact ih hpath hexec (h.write owner (b := true) (hwrite.trans hp) hvalue)
  | zero => exact ih hpath hexec (h.write owner (b := false) (hwrite.trans hp) hvalue)
  | x | z => trivial

omit ih in
/-- An arm that the execution does not take is traced as skipped, and stops nothing. -/
theorem skippedArm {r : Region} {effectful : Bool} (hraw : raw.eval ρ = .ofBool (!b))
    (hpure : effectful = false → r.effectful = false) (hpath : WellPathed ρ path)
    (htraced : Traced ρ False st t) (hpassing : st.passing ρ = true) (env : Var → Term) :
    let arm := lower r env (Lowering.armStep effectful raw path b :: path) st
    Traced ρ False arm.2 (r.skip t) ∧ arm.2.passing ρ = true := by
  have hover : PassedOver ρ (Lowering.armStep effectful raw path b :: path) r :=
    passedOver_arm hraw hpure path
  refine ⟨?_, (lower_passedOver r hover).trans hpassing⟩
  exact lower_skip_traced r env (armStep_wellPathed effectful raw hpath b)
    (Or.inr (hover.imp id And.left)) htraced

/-- A branch executes one arm and passes over the other. -/
theorem branch_simulated {whenTrue whenFalse : Region} (ihTrue : Simulated ρ whenTrue)
    (ihFalse : Simulated ρ whenFalse) (continuation : Bool) (condition : Var)
    (results : List BranchResult) :
    Simulated ρ (.branch continuation condition whenTrue whenFalse results rest) := by
  intro env path st frame store t hpath hexec h
  let raw := Signal.value (env condition)
  let effectful := continuation || whenTrue.effectful || whenFalse.effectful
  have hvalue : raw.eval ρ = (frame condition).bit :=
    congrArg Word.bit (h.agrees.values condition)
  have hwellTrue := armStep_wellPathed effectful raw hpath true
  have hwellFalse := armStep_wellPathed effectful raw hpath false
  let armTrue := lower whenTrue env (Lowering.armStep effectful raw path true :: path)
    (st.enterBranch effectful raw path)
  let armFalse := lower whenFalse env (Lowering.armStep effectful raw path false :: path)
    (armTrue.2.restore st.candidates)
  obtain ⟨hnewerTrue, hnewerFalse⟩ :=
    arms_newer whenTrue whenFalse h.counted env effectful raw path
  have hstopped : ∀ u, Stopped ρ armFalse.2 u → Stopped ρ
      (lower (.branch continuation condition whenTrue whenFalse results rest) env path st).2
      (rest.skip u) := by
    intro u hstop
    have hjoined : Stopped ρ (armFalse.2.join raw st.candidates armTrue.2.candidates) u :=
      ⟨hstop.traced.of_eq rfl rfl rfl, hstop.passing⟩
    exact hjoined.lower rest _ hpath
  rw [serial]
  cases hc : (frame condition).bit with
  | one =>
    have hraw : raw.eval ρ = .ofBool true := hvalue.trans hc
    have hpure : effectful = false → whenFalse.effectful = false :=
      fun hpure => (Bool.or_eq_false_iff.mp hpure).2
    refine (ihTrue hwellTrue (hexec.arm hraw effectful)
      (h.enterBranch hraw effectful path)).andThen ?_ ?_
    · intro arm store' u hin
      obtain ⟨htraced, hpassing⟩ := skippedArm (b := false) hraw hpure hpath
        (hin.traced.restore st.candidates) hin.passing env
      exact ih hpath hexec (h.join (b := true) hraw hnewerTrue hnewerFalse hin.agrees
        htraced hpassing results)
    · intro u hstop
      have hrestored : Stopped ρ (armTrue.2.restore st.candidates) u :=
        ⟨hstop.traced.restore st.candidates, hstop.passing⟩
      exact hstopped _ (hrestored.lower whenFalse env hwellFalse)
  | zero =>
    have hraw : raw.eval ρ = .ofBool false := hvalue.trans hc
    have hpure : effectful = false → whenTrue.effectful = false :=
      fun hpure => (Bool.or_eq_false_iff.mp (Bool.or_eq_false_iff.mp hpure).1).2
    have henter := h.enterBranch hraw effectful path
    obtain ⟨htraced, hpassing⟩ := skippedArm (b := true) hraw hpure hpath henter.traced
      henter.passing env
    -- the second arm starts from the versions of the entry
    have hrestored : InStep ρ (env, armTrue.2.restore st.candidates) frame store
        (whenTrue.skip t) :=
      ⟨restore_counted h.counted hnewerTrue, ⟨h.agrees.values, h.agrees.data, h.agrees.intent⟩,
        htraced.restore st.candidates, hpassing⟩
    refine (ihFalse hwellFalse (hexec.arm hraw effectful) hrestored).andThen ?_ hstopped
    intro arm store' u hin
    exact ih hpath hexec (h.join (b := false) hraw hnewerTrue hnewerFalse hin.agrees
      hin.traced hin.passing results)
  | x | z => trivial

/-- A call executes the guard of the callee, then its body if the guard admits it. -/
theorem call_simulated {guard body : Region} (ihGuard : Simulated ρ guard)
    (ihBody : Simulated ρ body) (formals actuals : List Var) (predicate : Var)
    (results : List CallResult) :
    Simulated ρ (.call formals actuals guard predicate body results rest) := by
  intro env path st frame store t hpath hexec h
  let callee := assignAll Term.input ((formals.zip actuals).map fun a => (a.1, env a.2))
  let guarded := lower guard callee path st
  let raw := Signal.value (guarded.1 predicate)
  have hcallee : InStep ρ (callee, st)
      (assignAll ρ.input ((formals.zip actuals).map fun a => (a.1, frame a.2))) store t :=
    h.reframe <| assignAll_rel (R := fun (a : Term) p => a.eval ρ = p) Prod.fst
      (fun a => env a.2) (fun a => frame a.2) _ (fun _ => rfl) fun a _ => h.agrees.values a.2
  have hguard : Simulates ρ _ guarded := ihGuard hpath hexec hcallee
  rw [serial]
  refine hguard.andThen ?_ ?_
  · intro inner store' u hin
    have hraw : raw.eval ρ = (inner predicate).bit :=
      congrArg Word.bit (hin.agrees.values predicate)
    refine Simulates.control ?_ ?_
    · intro hone
      have hadmit : InStep ρ (guarded.1, guarded.2.admitControl .guard raw path) inner store'
          u := hin.admit_one (by decide) (hraw.trans hone) path
      refine (ihBody hpath hexec hadmit).andThen ?_ ?_
      · intro yielded store'' u' hbody
        refine ih hpath hexec (hbody.reframe ?_)
        exact assignAll_rel (R := fun (a : Term) p => a.eval ρ = p) CallResult.result _ _ results
          h.agrees.values fun r _ => hbody.agrees.values r.yielded
      · intro u' hstop
        exact hstop.lower rest _ hpath
    · intro hzero
      have hstop : Stopped ρ (guarded.2.admitControl .guard raw path) u :=
        hin.admit_zero (by decide) (hraw.trans hzero) hexec
      exact (hstop.lower body _ hpath).lower rest _ hpath
  · intro u hstop
    exact ((hstop.admitControl _ _ path).lower body _ hpath).lower rest _ hpath

/-- A required use stops the execution where it is reached and its value is not available. -/
theorem require_simulated (site : Nat) (rawPath : Option Var) :
    Simulated ρ (.require site rawPath rest) := by
  intro env path st frame store t hpath hexec h
  let used := rawPath.map fun p => Signal.value (env p)
  let raw := requirement site used path
  have hused : pathValue ρ used = _ := h.pathValue_map rawPath
  have hraw : raw.eval ρ =
      Logic.select (Logic.and .one (pathValue ρ used)) (ρ.available site) .one := by
    have hstatement := hexec.statementPath
    cases rawPath with
    | none => simp [raw, used, requirement, Signal.eval, hstatement, pathValue, Logic.and]
    | some p => simp [raw, used, requirement, Signal.eval, hstatement, pathValue]
  rw [serial]
  cases hp : (rawPath.map fun p => (frame p).bit).getD .one with
  | one =>
    rw [hused, hp] at hraw
    refine Simulates.control ?_ ?_
    · intro hone
      exact ih hpath hexec (h.admit_one (by decide) (hraw.trans hone) path)
    · intro hzero
      have hstop : Stopped ρ (st.admitControl .requirement raw path) t :=
        h.admit_zero (by decide) (hraw.trans hzero) hexec
      exact hstop.lower rest _ hpath
  | zero =>
    -- the use is not reached, so the value need not be available
    rw [hused, hp] at hraw
    exact ih hpath hexec (h.admit_one (by decide) hraw path)
  | x | z => trivial

end

/-- Run lemma: lowering a region simulates its serial execution. -/
theorem lower_simulates (r : Region) : Simulated ρ r := by
  induction r with
  | done => exact fun _ _ h => h
  | pure dst op args rest ih =>
    intro env path st frame store t hpath hexec h
    refine ih hpath hexec (h.assign dst ?_)
    have hargs : (args.map env).map (Term.eval ρ) = args.map frame := by
      rw [List.map_map]
      exact List.map_congr_left fun v _ => h.agrees.values v
    rw [Term.eval, evalArgs_eq_map, hargs]
  | read dst owner rest ih => exact read_simulated ih dst owner
  | write owner writePath value rest ih => exact write_simulated ih owner writePath value
  | branch continuation condition whenTrue whenFalse results rest ihTrue ihFalse ih =>
    exact branch_simulated ih ihTrue ihFalse continuation condition results
  | call formals actuals guard predicate body results rest ihGuard ihBody ih =>
    exact call_simulated ih ihGuard ihBody formals actuals predicate results
  | check condition rest ih =>
    intro env path st frame store t hpath hexec h
    refine ih hpath hexec (h.record rfl rfl rfl ?_)
    refine ⟨h.traced.reads, List.Forall₂.cons ⟨?_, h.agrees.values condition⟩ h.traced.checks,
      h.traced.observations⟩
    rw [pathValue_selectedPath hpath, hexec.selected]
    rfl
  | observe values rest ih =>
    intro env path st frame store t hpath hexec h
    refine ih hpath hexec (h.record rfl rfl rfl ?_)
    refine ⟨h.traced.reads, h.traced.checks, List.Forall₂.cons ⟨?_, ?_⟩ h.traced.observations⟩
    · rw [pathValue_selectedPath hpath, hexec.selected]
      rfl
    · rw [List.map_map]
      exact List.map_congr_left fun v _ => h.agrees.values v
  | require site rawPath rest ih => exact require_simulated ih site rawPath

theorem start_inStep : InStep ρ (Term.input, .start) ρ.input ⟨ρ.oldQ, fun _ => false⟩
    ⟨[], [], []⟩ := by
  refine ⟨fun o => Nat.le_refl 0, ⟨fun v => rfl, fun o => rfl, fun o => rfl⟩, ?_, rfl⟩
  exact ⟨List.Forall₂.nil, List.Forall₂.nil, List.Forall₂.nil⟩

theorem lowerRule_simulates (t : Rule) (ρ : Valuation) :
    ∃ env, Simulates ρ (serialRule ρ t) (env, lowerRule t) := by
  let guarded := lower t.guard Term.input [] .start
  let raw := Signal.value (guarded.1 t.predicate)
  let body := lower t.body guarded.1 [] (guarded.2.admitControl .guard raw [])
  have hexec : Executing ρ [] := by
    intro step hstep
    cases hstep
  have hguard : Simulates ρ _ guarded := lower_simulates t.guard trivial hexec start_inStep
  refine ⟨body.1, hguard.andThen ?_ ?_⟩
  · intro frame store u hin
    have hraw : raw.eval ρ = (frame t.predicate).bit :=
      congrArg Word.bit (hin.agrees.values t.predicate)
    refine Simulates.control ?_ ?_
    · intro hone
      exact lower_simulates t.body trivial hexec (hin.admit_one (by decide) (hraw.trans hone) [])
    · intro hzero
      have hstop : Stopped ρ (guarded.2.admitControl .guard raw []) u :=
        hin.admit_zero (by decide) (hraw.trans hzero) hexec
      exact hstop.lower t.body _ trivial
  · intro u hstop
    exact (hstop.admitControl _ _ []).lower t.body _ trivial

/-! ## Rules -/

theorem fire_eval (t : Rule) : (lowerRule t).fire.eval ρ = .ofBool ((lowerRule t).passing ρ) :=
  (lowerRule_admits t).current

theorem effectPath_eval (st : Lowering) (path : Option Signal) :
    (st.effectPath path).eval ρ = .one ↔ st.fire.eval ρ = .one ∧ pathValue ρ path = .one := by
  cases path with
  | none => simp [Lowering.effectPath, pathValue]
  | some p => exact Logic.and_eq_one

/-- The trace of a rule: what was passed over is on a path that is not taken, or the rule does not
fire. -/
theorem lowerRule_traced (t : Rule) (hknown : (serialRule ρ t).1 ≠ .undetermined) :
    Traced ρ ((lowerRule t).fire.eval ρ ≠ .one) (lowerRule t) (serialRule ρ t).2 := by
  obtain ⟨env, hsim⟩ := lowerRule_simulates t ρ
  rcases hrun : serialRule ρ t with ⟨run, trace⟩
  rw [hrun] at hsim hknown
  cases run with
  | running frame store => exact hsim.traced.mono False.elim
  | blocked =>
    refine hsim.traced.mono fun _ => ?_
    rw [fire_eval, hsim.passing]
    decide
  | undetermined => exact absurd rfl hknown

/-- A saved effect is active exactly when the rule fires and its statement was executed. -/
theorem effect_active {α : Type} {path : Option Signal} {value : α} {done : Option α}
    (hdone : ∀ v, done = some v → pathValue ρ path = .one ∧ value = v)
    (hskipped : done = none → pathValue ρ path = .zero ∨ st.fire.eval ρ ≠ .one) :
    ((st.effectPath path).eval ρ = .one ↔ st.fire.eval ρ = .one ∧ done ≠ none) ∧
      ∀ v, done = some v → value = v := by
  rw [effectPath_eval]
  refine ⟨and_congr_right fun hfire => ?_, fun v hv => (hdone v hv).2⟩
  cases done with
  | none =>
    refine ⟨fun hpath => ?_, fun hne => absurd rfl hne⟩
    rcases hskipped rfl with hzero | hstop
    · rw [hzero] at hpath
      cases hpath
    · exact absurd hfire hstop
  | some v => exact ⟨fun _ => nofun, fun _ => (hdone v rfl).1⟩

theorem CheckOk.active {check : SavedCheck} {done : Option Payload}
    (h : CheckOk ρ (st.fire.eval ρ ≠ .one) check done) :
    ((st.effectPath check.path).eval ρ = .one ↔ st.fire.eval ρ = .one ∧ done ≠ none) ∧
      ∀ v, done = some v → check.condition.eval ρ = v :=
  effect_active (by rintro v rfl; exact h) (by rintro rfl; exact h)

theorem ObservationOk.active {o : SavedObservation} {done : Option (List Payload)}
    (h : ObservationOk ρ (st.fire.eval ρ ≠ .one) o done) :
    ((st.effectPath o.path).eval ρ = .one ↔ st.fire.eval ρ = .one ∧ done ≠ none) ∧
      ∀ vs, done = some vs → o.values.map (Term.eval ρ) = vs :=
  effect_active (by rintro vs rfl; exact h) (by rintro rfl; exact h)

/-- The commit of a rule: it fires and writes what the execution left, or it is blocked. -/
theorem lowerRule_commit (t : Rule) (hknown : (serialRule ρ t).1 ≠ .undetermined) :
    (∃ frame store, (serialRule ρ t).1 = .running frame store ∧
      (lowerRule t).fire.eval ρ = .one ∧
      (∀ o, ((lowerRule t).enable o).eval ρ = .ofBool (store.written o)) ∧
      ∀ o, ((lowerRule t).data o).eval ρ = store.value o) ∨
    (serialRule ρ t).1 = .blocked ∧ (lowerRule t).fire.eval ρ = .zero := by
  obtain ⟨env, hsim⟩ := lowerRule_simulates t ρ
  rcases hrun : serialRule ρ t with ⟨run, trace⟩
  rw [hrun] at hsim hknown
  cases run with
  | running frame store =>
    left
    have hfire : (lowerRule t).fire.eval ρ = .ofBool true := by
      rw [fire_eval, hsim.passing]
    refine ⟨frame, store, rfl, hfire, ?_, hsim.agrees.data⟩
    intro o
    show ((lowerRule t).fire.eval ρ).and (((lowerRule t).candidates o).rawIntent.eval ρ) = _
    rw [hfire, hsim.agrees.intent o, Logic.and_ofBool, Bool.true_and]
  | blocked =>
    right
    refine ⟨rfl, ?_⟩
    rw [fire_eval, hsim.passing]
    rfl
  | undetermined => exact absurd rfl hknown

/-- A lowered rule computes the serial execution of the rule in every valuation in which the
conditions and guards that the execution meets are known. It fires exactly when no guard blocks the
execution; it enables an owner exactly when it fires and the execution has written the owner, with
the value last written; its reads have the values that were read; a check or observation is active
exactly when the rule fires and its statement was executed, with the operands of that statement. -/
theorem lowerRule_correct (t : Rule) (ρ : Valuation)
    (hknown : (serialRule ρ t).1 ≠ .undetermined) :
    ((lowerRule t).fire.eval ρ = .one ↔ (serialRule ρ t).1 ≠ .blocked) ∧
    (∀ o, ((lowerRule t).enable o).eval ρ = .one ↔ (lowerRule t).fire.eval ρ = .one ∧
      ∃ frame store, (serialRule ρ t).1 = .running frame store ∧ store.written o = true) ∧
    (∀ o, ((lowerRule t).enable o).eval ρ = .one →
      ∃ frame store, (serialRule ρ t).1 = .running frame store ∧
        ((lowerRule t).data o).eval ρ = store.value o) ∧
    List.Forall₂ (fun read done => ∀ v, done = some v → read.eval ρ = v)
      (lowerRule t).reads (serialRule ρ t).2.reads ∧
    List.Forall₂ (fun (check : SavedCheck) done =>
        (((lowerRule t).effectPath check.path).eval ρ = .one ↔
          (lowerRule t).fire.eval ρ = .one ∧ done ≠ none) ∧
        ∀ v, done = some v → check.condition.eval ρ = v)
      (lowerRule t).checks (serialRule ρ t).2.checks ∧
    List.Forall₂ (fun (observation : SavedObservation) done =>
        (((lowerRule t).effectPath observation.path).eval ρ = .one ↔
          (lowerRule t).fire.eval ρ = .one ∧ done ≠ none) ∧
        ∀ vs, done = some vs → observation.values.map (Term.eval ρ) = vs)
      (lowerRule t).observations (serialRule ρ t).2.observations := by
  have htraced := lowerRule_traced t hknown
  have hchecks := htraced.checks.imp fun _ _ hcheck => hcheck.active
  have hobservations := htraced.observations.imp fun _ _ hobservation => hobservation.active
  rcases lowerRule_commit t hknown with ⟨frame, store, hrun, hfire, henable, hdata⟩ |
    ⟨hrun, hfire⟩
  · refine ⟨?_, ?_, ?_, htraced.reads, hchecks, hobservations⟩
    · rw [hrun, hfire]
      exact ⟨fun _ => nofun, fun _ => rfl⟩
    · intro o
      rw [henable o, Logic.ofBool_eq_one, hrun, hfire]
      refine ⟨fun hwritten => ⟨rfl, frame, store, rfl, hwritten⟩, ?_⟩
      rintro ⟨-, frame', store', ⟨⟩, hwritten⟩
      exact hwritten
    · exact fun o _ => ⟨frame, store, hrun, hdata o⟩
  · have hdisabled : ∀ o, ((lowerRule t).enable o).eval ρ ≠ .one := by
      intro o
      show ((lowerRule t).fire.eval ρ).and _ ≠ .one
      rw [hfire, Logic.zero_and]
      decide
    have hidle : (lowerRule t).fire.eval ρ ≠ .one := by
      rw [hfire]
      decide
    refine ⟨⟨fun hone => absurd hone hidle, fun hne => absurd hrun hne⟩, ?_, ?_, htraced.reads,
      hchecks, hobservations⟩
    · exact fun o => ⟨fun hone => absurd hone (hdisabled o), fun hone => absurd hone.1 hidle⟩
    · exact fun o hone => absurd hone (hdisabled o)

/-! ## An instance -/

/-- A rule that reads owner 0 and increments it in a branch, calls a method with a guard, and checks
the value it has written. -/
def sampleRule : Rule where
  guard := .done
  predicate := 0
  body := .read 1 0 <| .branch true 2
    (.pure 3 0 [1] <| .write 0 none 3 .done) .done [] <|
    .call [4] [1] .done 4 (.write 1 none 4 .done) [] <| .read 5 0 <| .check 5 <|
    .observe [1, 5] .done

/-- Input 0 is the predicate, input 2 the condition of the branch; operation 0 negates a bit. -/
def sampleValuation : Valuation where
  input := fun v => if v = 0 ∨ v = 2 then [.one] else [.zero]
  oldQ := fun _ => [.one]
  apply := fun _ args => args.flatten.map Logic.not
  available := fun _ => .one

theorem sampleRule_known : (serialRule sampleValuation sampleRule).1 ≠ .undetermined := by
  intro h
  cases h

/-- The sample fires, writes owner 0 with the negated value, and its check sees that value. -/
theorem lowerRule_correct_sample :
    (lowerRule sampleRule).fire.eval sampleValuation = .one ∧
      ((lowerRule sampleRule).enable 0).eval sampleValuation = .one ∧
      ∃ frame store, (serialRule sampleValuation sampleRule).1 = .running frame store ∧
        ((lowerRule sampleRule).data 0).eval sampleValuation = store.value 0 := by
  obtain ⟨hfire, henable, hdata, -⟩ :=
    lowerRule_correct sampleRule sampleValuation sampleRule_known
  have hone : (lowerRule sampleRule).fire.eval sampleValuation = .one := hfire.mpr nofun
  have hwrites : ((lowerRule sampleRule).enable 0).eval sampleValuation = .one :=
    (henable 0).mpr ⟨hone, _, _, rfl, rfl⟩
  exact ⟨hone, hwrites, hdata 0 hwrites⟩

end

end PyCircuit.Transaction
