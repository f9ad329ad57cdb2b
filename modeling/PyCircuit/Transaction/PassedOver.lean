import PyCircuit.Transaction.Admission
import Mathlib.Data.List.Forall2

/-!
# Regions that are passed over

The lowering materializes every statement of a region, also in an arm that the execution does not
take and after a control that stopped it. Such a region leaves the admission as it is, because its
controls are bypassed; its checks and observations are on paths that are not taken; and it only
makes newer versions, which the join of the branch drops.

`Traced` relates the materialized reads, checks and observations to a trace of the serial execution.
-/

set_option autoImplicit false

namespace PyCircuit.Transaction

open PyCircuit.Lib

section

variable (ρ : Valuation)

/-- A materialized read of an executed statement has the value that was read. -/
def ReadOk (read : Term) (done : Option Payload) : Prop :=
  ∀ v, done = some v → read.eval ρ = v

/-- An executed check is on a path that is taken and has the operand of its statement; one that was
passed over is on a path that is not taken, unless the execution has stopped. -/
def CheckOk (stopped : Prop) (check : SavedCheck) : Option Payload → Prop
  | some v => pathValue ρ check.path = .one ∧ check.condition.eval ρ = v
  | none => pathValue ρ check.path = .zero ∨ stopped

/-- The same for observations. -/
def ObservationOk (stopped : Prop) (o : SavedObservation) : Option (List Payload) → Prop
  | some vs => pathValue ρ o.path = .one ∧ o.values.map (Term.eval ρ) = vs
  | none => pathValue ρ o.path = .zero ∨ stopped

/-- The materialized reads, checks and observations have the values of the trace. -/
structure Traced (stopped : Prop) (st : Lowering) (t : Trace) : Prop where
  reads : List.Forall₂ (ReadOk ρ) st.reads t.reads
  checks : List.Forall₂ (CheckOk ρ stopped) st.checks t.checks
  observations : List.Forall₂ (ObservationOk ρ stopped) st.observations t.observations

/-- Version ordinals do not exceed the count of their owner. -/
def Counted (st : Lowering) : Prop := ∀ o, (st.candidates o).ordinal ≤ st.ordinals o

/-- The versions of a later state are those of an earlier one, or newer. -/
def Newer (st st' : Lowering) : Prop :=
  ∀ o, st.ordinals o ≤ st'.ordinals o ∧ (st'.candidates o).ordinal ≤ st'.ordinals o ∧
    (st'.candidates o = st.candidates o ∨ st.ordinals o < (st'.candidates o).ordinal)

end

section

variable {ρ : Valuation}

/-! ## Versions -/

variable {st st' : Lowering} {env : Var → Term} {path : SourcePath} {raw : Signal} {stopped : Prop}
  {t : Trace}

theorem Newer.refl (h : Counted st) : Newer st st := by
  intro o
  exact ⟨Nat.le_refl _, h o, Or.inl rfl⟩

theorem Newer.trans {st'' : Lowering} (h : Newer st st') (h' : Newer st' st'') :
    Newer st st'' := by
  intro o
  obtain ⟨hord, -, hcand⟩ := h o
  obtain ⟨hord', hcount', hcand'⟩ := h' o
  refine ⟨Nat.le_trans hord hord', hcount', ?_⟩
  rcases hcand' with heq | hlt
  · rw [heq]
    exact hcand
  · exact Or.inr (Nat.lt_of_le_of_lt hord hlt)

theorem Newer.counted (h : Newer st st') : Counted st' := fun o => (h o).2.1

theorem Newer.next {st'' : Lowering} (h : Newer st st') (hnext : Counted st' → Newer st' st'') :
    Newer st st'' :=
  h.trans (hnext h.counted)

/-- Statements that make no version. -/
theorem Newer.of_eq (h : Counted st) (hc : st'.candidates = st.candidates)
    (ho : st'.ordinals = st.ordinals) : Newer st st' := by
  intro o
  rw [hc, ho]
  exact ⟨Nat.le_refl _, h o, Or.inl rfl⟩

theorem write_newer (h : Counted st) (owner : OwnerId) (path : Option Signal)
    (value : Term) : Newer st (st.write owner path value) := by
  intro o
  by_cases ho : o = owner
  · subst ho
    cases path with
    | none | some p => simp [Lowering.write]
  · cases path with
    | none | some p => simp [Lowering.write, ho, h o]

/-- The join of a branch keeps a version that neither arm changed. -/
theorem join_newer {armTrue armFalse : Lowering} (raw : Signal) (hst : Counted st)
    (htrue : Newer st armTrue) (hfalse : Newer (armTrue.restore st.candidates) armFalse) :
    Newer st (armFalse.join raw st.candidates armTrue.candidates) := by
  intro o
  obtain ⟨hordT, -, -⟩ := htrue o
  obtain ⟨hordF, hcountF, hcandF⟩ := hfalse o
  have hordF' : armTrue.ordinals o ≤ armFalse.ordinals o := hordF
  have hst' := hst o
  simp only [Lowering.join]
  split
  · next hchanged =>
    refine ⟨by omega, Nat.le_refl _, Or.inr ?_⟩
    show st.ordinals o < armFalse.ordinals o + 1
    omega
  · next hsame =>
    refine ⟨by omega, hcountF, ?_⟩
    rcases hcandF with heq | hlt
    · exact Or.inl heq
    · -- a new version of the second arm would have another ordinal
      have hlt' : armTrue.ordinals o < (armFalse.candidates o).ordinal := hlt
      exact absurd (Or.inr (by omega)) hsame

/-- An owner that no arm of a branch gave a new version has its version from the entry in both. -/
theorem arms_unchanged {armTrue armFalse : Lowering} (hst : Counted st) (htrue : Newer st armTrue)
    (hfalse : Newer (armTrue.restore st.candidates) armFalse) {o : OwnerId}
    (hsame : ¬ ((armTrue.candidates o).ordinal ≠ (st.candidates o).ordinal ∨
      (armFalse.candidates o).ordinal ≠ (st.candidates o).ordinal)) :
    armTrue.candidates o = st.candidates o ∧ armFalse.candidates o = st.candidates o := by
  obtain ⟨hsameTrue, hsameFalse⟩ := not_or.mp hsame
  have hcount := hst o
  refine ⟨?_, ?_⟩
  · rcases (htrue o).2.2 with heq | hlt
    · exact heq
    · omega
  · have hle := (htrue o).1
    rcases (hfalse o).2.2 with heq | hlt
    · exact heq
    · change armTrue.ordinals o < _ at hlt
      omega

theorem enterBranch_candidates (st : Lowering) (effectful : Bool) (raw : Signal)
    (path : SourcePath) : (st.enterBranch effectful raw path).candidates = st.candidates := by
  unfold Lowering.enterBranch
  split <;> rfl

theorem enterBranch_ordinals (st : Lowering) (effectful : Bool) (raw : Signal)
    (path : SourcePath) : (st.enterBranch effectful raw path).ordinals = st.ordinals := by
  unfold Lowering.enterBranch
  split <;> rfl

theorem enterBranch_newer (h : Counted st) (effectful : Bool) (raw : Signal)
    (path : SourcePath) : Newer st (st.enterBranch effectful raw path) :=
  Newer.of_eq h (enterBranch_candidates st effectful raw path)
    (enterBranch_ordinals st effectful raw path)

theorem restore_counted {arm : Lowering} (h : Counted st) (harm : Newer st arm) :
    Counted (arm.restore st.candidates) := by
  intro o
  exact Nat.le_trans (h o) (harm o).1

/-- Lowering a region only makes newer versions. -/
theorem lower_newer (r : Region) (h : Counted st) : Newer st (lower r env path st).2 := by
  induction r generalizing env path st with
  | done => exact Newer.refl h
  | pure dst op args rest ih => exact ih h
  | read dst owner rest ih | check condition rest ih | observe values rest ih
  | require site rawPath rest ih =>
    refine Newer.next ?_ ih
    exact Newer.of_eq h rfl rfl
  | write owner writePath value rest ih => exact (write_newer h owner _ _).next ih
  | branch continuation condition whenTrue whenFalse results rest ihTrue ihFalse ih =>
    let raw := Signal.value (env condition)
    let effectful := continuation || whenTrue.effectful || whenFalse.effectful
    let armTrue := lower whenTrue env (Lowering.armStep effectful raw path true :: path)
      (st.enterBranch effectful raw path)
    have htrue : Newer st armTrue.2 := (enterBranch_newer h effectful raw path).next ihTrue
    let armFalse := lower whenFalse env (Lowering.armStep effectful raw path false :: path)
      (armTrue.2.restore st.candidates)
    have hfalse : Newer (armTrue.2.restore st.candidates) armFalse.2 :=
      ihFalse (restore_counted h htrue)
    exact (join_newer raw h htrue hfalse).next ih
  | call formals actuals guard predicate body results rest ihGuard ihBody ih =>
    let frame := assignAll Term.input ((formals.zip actuals).map fun a => (a.1, env a.2))
    let guarded := lower guard frame path st
    have hguard : Newer st guarded.2 := ihGuard h
    have hafter : Newer st
        (guarded.2.admitControl .guard (.value (guarded.1 predicate)) path) :=
      hguard.next fun hcounted => Newer.of_eq hcounted rfl rfl
    exact (hafter.next ihBody).next ih

/-- Each arm of a branch only makes newer versions than it starts from. -/
theorem arms_newer (whenTrue whenFalse : Region) (h : Counted st) (env : Var → Term)
    (effectful : Bool) (raw : Signal) (path : SourcePath) :
    let armTrue := lower whenTrue env (Lowering.armStep effectful raw path true :: path)
      (st.enterBranch effectful raw path)
    Newer st armTrue.2 ∧ Newer (armTrue.2.restore st.candidates)
      (lower whenFalse env (Lowering.armStep effectful raw path false :: path)
        (armTrue.2.restore st.candidates)).2 := by
  intro armTrue
  have htrue : Newer st armTrue.2 :=
    (enterBranch_newer h effectful raw path).next (lower_newer whenTrue)
  exact ⟨htrue, lower_newer whenFalse (restore_counted h htrue)⟩

/-! ## Regions that are passed over -/

/-- Some enclosing branch takes the other arm. -/
def Excluded (ρ : Valuation) (path : SourcePath) : Prop :=
  ∃ step ∈ path, step.condition.eval ρ = .ofBool (!step.whenTrue)

/-- The signal of an arm whose condition is known. -/
theorem armSignal_eval {step : PathStep} {b : Bool} (h : step.condition.eval ρ = .ofBool b) :
    (if step.whenTrue then step.condition else .not step.condition).eval ρ =
      .ofBool (b == step.whenTrue) := by
  cases hw : step.whenTrue with
  | true =>
    rw [if_pos rfl, h]
    cases b <;> rfl
  | false =>
    rw [if_neg Bool.false_ne_true, Signal.eval, h]
    cases b <;> rfl

theorem statementPath_of_zero {acc : Signal} (h : acc.eval ρ = .zero) (path : SourcePath) :
    (path.foldl (fun acc step =>
      Signal.and acc (if step.whenTrue then step.condition else .not step.condition)) acc).eval ρ =
      .zero := by
  induction path generalizing acc with
  | nil => exact h
  | cons step outer ih =>
    refine ih ?_
    simp only [Signal.eval, h, Logic.zero_and]

/-- The path of a required use in an arm that is not taken is zero. -/
theorem statementPath_excluded (h : Excluded ρ path) :
    (statementPath path).eval ρ = .zero := by
  have key : ∀ (path : SourcePath) (acc : Signal), Excluded ρ path →
      (path.foldl (fun acc step =>
        Signal.and acc (if step.whenTrue then step.condition else .not step.condition))
        acc).eval ρ = .zero := by
    intro path
    induction path with
    | nil =>
      rintro acc ⟨step, hmem, -⟩
      cases hmem
    | cons step outer ih =>
      rintro acc ⟨other, hmem, hother⟩
      rcases List.mem_cons.mp hmem with rfl | hmem
      · refine statementPath_of_zero ?_ outer
        show (acc.eval ρ).and _ = .zero
        rw [armSignal_eval hother, Bool.not_beq_self]
        exact Logic.and_zero _
      · exact ih _ ⟨other, hmem, hother⟩
  exact key path _ h

/-- A region is passed over when its path is not selected, or when it has no effects of its own and
an enclosing branch takes the other arm. -/
def PassedOver (ρ : Valuation) (path : SourcePath) (r : Region) : Prop :=
  SourcePath.selected ρ path = false ∨ r.effectful = false ∧ Excluded ρ path

theorem PassedOver.unselected {r : Region} (h : PassedOver ρ path r) (heff : r.effectful = true) :
    SourcePath.selected ρ path = false := by
  rcases h with hsel | ⟨hpure, -⟩
  · exact hsel
  · exact absurd (heff.symm.trans hpure) (by decide)

theorem requirement_passes (site : Nat)
    (rawPath : Option Signal)
    (h : SourcePath.selected ρ path = false ∨ Excluded ρ path) :
    (st.control .requirement (requirement site rawPath path) path).passes ρ = true := by
  rcases h with hsel | hexcluded
  · simp [Control.passes, Control.onPath, Lowering.control, hsel]
  · have hzero := statementPath_excluded hexcluded
    have hraw : (requirement site rawPath path).eval ρ = .one := by
      cases rawPath with
      | none | some p => simp [requirement, Signal.eval, hzero]
    simp [Control.passes, Control.accepts, Lowering.control, hraw]

theorem passes_of_unselected {c : Control} (h : SourcePath.selected ρ c.source = false) :
    c.passes ρ = true := by
  simp [Control.passes, Control.onPath, h]

theorem selected_armStep {effectful b : Bool}
    (h : SourcePath.selected ρ path = false) :
    SourcePath.selected ρ (Lowering.armStep effectful raw path b :: path) = false := by
  rw [selected_cons, h, Bool.and_false]

theorem Excluded.cons (step : PathStep) (h : Excluded ρ path) :
    Excluded ρ (step :: path) := by
  obtain ⟨other, hmem, hother⟩ := h
  exact ⟨other, List.mem_cons_of_mem step hmem, hother⟩

/-- All controls so far pass. -/
def Lowering.passing (ρ : Valuation) (st : Lowering) : Bool := st.controls.all (Control.passes ρ)

theorem admitControl_passing {kind : ControlKind}
    (h : (st.control kind raw path).passes ρ = true) :
    (st.admitControl kind raw path).passing ρ = st.passing ρ := by
  show ((st.control kind raw path).passes ρ && st.passing ρ) = st.passing ρ
  rw [h, Bool.true_and]

theorem enterBranch_passing {effectful : Bool}
    (h : effectful = true → (st.control .selection raw path).passes ρ = true) :
    (st.enterBranch effectful raw path).passing ρ = st.passing ρ := by
  cases effectful with
  | true => exact admitControl_passing (h rfl)
  | false => rfl

/-- The controls of a region that is passed over stop nothing. -/
theorem lower_passedOver (r : Region)
    (h : PassedOver ρ path r) : (lower r env path st).2.passing ρ = st.passing ρ := by
  induction r generalizing env path st with
  | done => rfl
  | pure dst op args rest ih | read dst owner rest ih
  | write owner writePath value rest ih => exact ih h
  | branch continuation condition whenTrue whenFalse results rest ihTrue ihFalse ih =>
    let raw := Signal.value (env condition)
    let effectful := continuation || whenTrue.effectful || whenFalse.effectful
    let armTrue := lower whenTrue env (Lowering.armStep effectful raw path true :: path)
      (st.enterBranch effectful raw path)
    let armFalse := lower whenFalse env (Lowering.armStep effectful raw path false :: path)
      (armTrue.2.restore st.candidates)
    have hparts : PassedOver ρ (Lowering.armStep effectful raw path true :: path) whenTrue ∧
        PassedOver ρ (Lowering.armStep effectful raw path false :: path) whenFalse ∧
        PassedOver ρ path rest := by
      rcases h with hsel | ⟨heff, hexcluded⟩
      · exact ⟨Or.inl (selected_armStep hsel), Or.inl (selected_armStep hsel), Or.inl hsel⟩
      · simp only [Region.effectful, Bool.or_eq_false_iff] at heff
        exact ⟨Or.inr ⟨heff.1.1.2, hexcluded.cons _⟩, Or.inr ⟨heff.1.2, hexcluded.cons _⟩,
          Or.inr ⟨heff.2, hexcluded⟩⟩
    have henter : (st.enterBranch effectful raw path).passing ρ = st.passing ρ := by
      refine enterBranch_passing fun heffectful => ?_
      rcases h with hsel | ⟨heff, -⟩
      · exact passes_of_unselected hsel
      · simp only [Region.effectful, Bool.or_eq_false_iff] at heff
        simp [effectful, heff] at heffectful
    calc (lower (.branch continuation condition whenTrue whenFalse results rest) env path
            st).2.passing ρ
        = (armFalse.2.join raw st.candidates armTrue.2.candidates).passing ρ := ih hparts.2.2
      _ = (armTrue.2.restore st.candidates).passing ρ := ihFalse hparts.2.1
      _ = (st.enterBranch effectful raw path).passing ρ := ihTrue hparts.1
      _ = st.passing ρ := henter
  | call formals actuals guard predicate body results rest ihGuard ihBody ih =>
    -- a call is an effect, so its path is not selected
    have hsel := h.unselected rfl
    let frame := assignAll Term.input ((formals.zip actuals).map fun a => (a.1, env a.2))
    let guarded := lower guard frame path st
    let admitted := guarded.2.admitControl .guard (.value (guarded.1 predicate)) path
    calc (lower (.call formals actuals guard predicate body results rest) env path st).2.passing ρ
        = (lower body guarded.1 path admitted).2.passing ρ := ih (Or.inl hsel)
      _ = admitted.passing ρ := ihBody (Or.inl hsel)
      _ = guarded.2.passing ρ := admitControl_passing (passes_of_unselected hsel)
      _ = st.passing ρ := ihGuard (Or.inl hsel)
  | check condition rest ih | observe values rest ih => exact ih (Or.inl (h.unselected rfl))
  | require site rawPath rest ih =>
    have hpasses : (st.control .requirement
        (requirement site (rawPath.map fun p => .value (env p)) path) path).passes ρ = true := by
      refine requirement_passes site _ ?_
      rcases h with hsel | ⟨-, hexcluded⟩
      · exact Or.inl hsel
      · exact Or.inr hexcluded
    exact (ih h).trans (admitControl_passing hpasses)

theorem admitControl_stopped {kind : ControlKind}
    (h : st.passing ρ = false) :
    (st.admitControl kind raw path).passing ρ = false := by
  show ((st.control kind raw path).passes ρ && st.passing ρ) = false
  rw [h, Bool.and_false]

/-- Once some control has stopped the execution, the rest does not change that. -/
theorem lower_stopped (r : Region)
    (h : st.passing ρ = false) : (lower r env path st).2.passing ρ = false := by
  induction r generalizing env path st with
  | done => exact h
  | pure dst op args rest ih | read dst owner rest ih
  | write owner writePath value rest ih => exact ih h
  | branch continuation condition whenTrue whenFalse results rest ihTrue ihFalse ih =>
    refine ih (ihFalse (ihTrue ?_))
    unfold Lowering.enterBranch
    split
    · exact admitControl_stopped h
    · exact h
  | call formals actuals guard predicate body results rest ihGuard ihBody ih =>
    exact ih (ihBody (admitControl_stopped (ihGuard h)))
  | check condition rest ih | observe values rest ih => exact ih h
  | require site rawPath rest ih => exact ih (admitControl_stopped h)

/-! ## Traces -/

theorem Traced.mono {stopped' : Prop}
    (h : Traced ρ stopped st t) (hstop : stopped → stopped') : Traced ρ stopped' st t := by
  refine ⟨h.reads, ?_, ?_⟩
  · refine List.Forall₂.imp ?_ h.checks
    intro c e hce
    cases e with
    | none => exact hce.imp id hstop
    | some v => exact hce
  · refine List.Forall₂.imp ?_ h.observations
    intro o e hoe
    cases e with
    | none => exact hoe.imp id hstop
    | some vs => exact hoe

theorem Traced.of_eq (h : Traced ρ stopped st t)
    (hreads : st'.reads = st.reads) (hchecks : st'.checks = st.checks)
    (hobservations : st'.observations = st.observations) : Traced ρ stopped st' t := by
  refine ⟨?_, ?_, ?_⟩
  · rw [hreads]
    exact h.reads
  · rw [hchecks]
    exact h.checks
  · rw [hobservations]
    exact h.observations

theorem Traced.admitControl
    (h : Traced ρ stopped st t) (kind : ControlKind) (raw : Signal) (path : SourcePath) :
    Traced ρ stopped (st.admitControl kind raw path) t :=
  h.of_eq rfl rfl rfl

theorem Traced.restore (h : Traced ρ stopped st t)
    (base : OwnerId → Version) : Traced ρ stopped (st.restore base) t :=
  h.of_eq rfl rfl rfl

theorem enterBranch_traced (effectful : Bool)
    (raw : Signal) (path : SourcePath) (h : Traced ρ stopped st t) :
    Traced ρ stopped (st.enterBranch effectful raw path) t := by
  unfold Lowering.enterBranch
  split
  · exact h.admitControl _ _ _
  · exact h

/-- A region that is passed over adds statements that were not executed. -/
theorem lower_skip_traced (r : Region) (env : Var → Term)
    (hpath : WellPathed ρ path)
    (hskip : stopped ∨ SourcePath.selected ρ path = false ∨ r.effectful = false)
    (h : Traced ρ stopped st t) : Traced ρ stopped (lower r env path st).2 (r.skip t) := by
  have heffect : ∀ {r : Region} {path : SourcePath}, WellPathed ρ path →
      (stopped ∨ SourcePath.selected ρ path = false ∨ r.effectful = false) → r.effectful = true →
        pathValue ρ (selectedPath path) = .zero ∨ stopped := by
    intro r path hpath hskip heff
    rcases hskip with hstop | hsel | hpure
    · exact Or.inr hstop
    · left
      rw [pathValue_selectedPath hpath, hsel]
      rfl
    · rw [heff] at hpure
      cases hpure
  -- a statement with an effect of its own is not reached, so nothing after it is
  have hrest : ∀ {r s : Region} {path : SourcePath},
      (stopped ∨ SourcePath.selected ρ path = false ∨ r.effectful = false) → r.effectful = true →
        stopped ∨ SourcePath.selected ρ path = false ∨ s.effectful = false := by
    intro r s path hskip heff
    rcases hskip with hstop | hsel | hpure
    · exact Or.inl hstop
    · exact Or.inr (Or.inl hsel)
    · exact absurd (heff.symm.trans hpure) (by decide)
  induction r generalizing env path st t with
  | done => exact h
  | pure dst op args rest ih => exact ih _ hpath hskip h
  | read dst owner rest ih =>
    refine ih _ hpath hskip ⟨List.Forall₂.cons ?_ h.reads, h.checks, h.observations⟩
    rintro v ⟨⟩
  | write owner writePath value rest ih => exact ih _ hpath hskip (h.of_eq rfl rfl rfl)
  | branch continuation condition whenTrue whenFalse results rest ihTrue ihFalse ih =>
    let raw := Signal.value (env condition)
    let effectful := continuation || whenTrue.effectful || whenFalse.effectful
    have hparts : ∀ b, (stopped ∨
          SourcePath.selected ρ (Lowering.armStep effectful raw path b :: path) = false ∨
            (if b then whenTrue else whenFalse).effectful = false) ∧
        (stopped ∨ SourcePath.selected ρ path = false ∨ rest.effectful = false) := by
      intro b
      rcases hskip with hstop | hsel | hpure
      · exact ⟨Or.inl hstop, Or.inl hstop⟩
      · exact ⟨Or.inr (Or.inl (selected_armStep hsel)), Or.inr (Or.inl hsel)⟩
      · simp only [Region.effectful, Bool.or_eq_false_iff] at hpure
        refine ⟨Or.inr (Or.inr ?_), Or.inr (Or.inr hpure.2)⟩
        cases b with
        | true => exact hpure.1.1.2
        | false => exact hpure.1.2
    have hTrue := ihTrue env (armStep_wellPathed effectful raw hpath true)
      (hparts true).1 (enterBranch_traced effectful raw path h)
    have hFalse := ihFalse env (armStep_wellPathed effectful raw hpath false) (hparts false).1
      (hTrue.restore st.candidates)
    exact ih _ hpath (hparts true).2 (hFalse.of_eq rfl rfl rfl)
  | call formals actuals guard predicate body results rest ihGuard ihBody ih =>
    have hpart (r : Region) := hrest (s := r) hskip rfl
    let frame := assignAll Term.input ((formals.zip actuals).map fun a => (a.1, env a.2))
    let guarded := lower guard frame path st
    have hguard := (ihGuard frame hpath (hpart guard) h).admitControl .guard
      (.value (guarded.1 predicate)) path
    have hbody := ihBody guarded.1 hpath (hpart body) hguard
    exact ih _ hpath (hpart rest) hbody
  | check condition rest ih =>
    have hzero := heffect hpath hskip rfl
    exact ih _ hpath (hrest hskip rfl) ⟨h.reads, .cons hzero h.checks, h.observations⟩
  | observe values rest ih =>
    have hzero := heffect hpath hskip rfl
    exact ih _ hpath (hrest hskip rfl) ⟨h.reads, h.checks, .cons hzero h.observations⟩
  | require site rawPath rest ih => exact ih _ hpath hskip (h.of_eq rfl rfl rfl)

end

end PyCircuit.Transaction
