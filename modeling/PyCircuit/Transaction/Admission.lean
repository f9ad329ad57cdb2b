import PyCircuit.Transaction.Lower

/-!
# Order of the admission controls

The controls of a lowered rule in an arbitrary four-state valuation. A control is on the executed
path when the conditions of the selections around it are known and select its arm; it is accepted
when its own value lets the execution go on. `Ordered` and `Admits` say what `admitControl` keeps
along the lowering: a control is reached exactly when it is on the executed path and every earlier
control on that path was accepted, and the current prefix is one exactly when all of them were.
-/

set_option autoImplicit false

namespace PyCircuit.Transaction

open PyCircuit.Lib

section

variable (ρ : Valuation)

/-- The selections around a statement are known and select its arms. -/
def SourcePath.selected (path : SourcePath) : Bool :=
  path.all fun step =>
    step.selection.isNone || decide (step.condition.eval ρ = .ofBool step.whenTrue)

/-- The control is on the executed path. -/
def Control.onPath (c : Control) : Bool := SourcePath.selected ρ c.source

/-- The value of the control lets the execution go on: a selection has to be known, a guard or a
required use has to be one. -/
def Control.accepts (c : Control) : Bool :=
  match c.kind with
  | .selection => decide (c.raw.eval ρ).Known
  | _ => decide (c.raw.eval ρ = .one)

/-- A control that is not on the executed path stops nothing. -/
def Control.passes (c : Control) : Bool := !c.onPath ρ || c.accepts ρ

/-- The value of a path signal; no signal stands for one. -/
def pathValue (path : Option Signal) : Logic :=
  match path with
  | none => .one
  | some p => p.eval ρ

/-- The signals of the selections of a path are one exactly on the selected arm. -/
def WellPathed : SourcePath → Prop
  | [] => True
  | step :: outer => WellPathed outer ∧ ∀ s, step.selection = some s →
      s.whenTrue.eval ρ =
        .ofBool (SourcePath.selected ρ outer && decide (step.condition.eval ρ = .one)) ∧
      s.whenFalse.eval ρ =
        .ofBool (SourcePath.selected ρ outer && decide (step.condition.eval ρ = .zero))

/-- Newest first, every control is reached exactly when it is on the executed path and all earlier
controls pass. -/
def Ordered : List Control → Prop
  | [] => True
  | c :: earlier => Ordered earlier ∧
      c.reached.eval ρ = .ofBool (c.onPath ρ && earlier.all (Control.passes ρ))

/-- What `admitControl` keeps: the order of the controls, and the value of the prefixes. -/
structure Admits (st : Lowering) : Prop where
  ordered : Ordered ρ st.controls
  current : st.admitted.eval ρ = .ofBool (st.controls.all (Control.passes ρ))
  known : ∀ p ∈ st.history, (p.eval ρ).Known

end

section

variable {ρ : Valuation}

theorem selected_cons (step : PathStep) (outer : SourcePath) :
    SourcePath.selected ρ (step :: outer) =
      ((step.selection.isNone || decide (step.condition.eval ρ = .ofBool step.whenTrue)) &&
        SourcePath.selected ρ outer) := rfl

variable {path : SourcePath} {st : Lowering} {c : Control} {earlier later : List Control}

/-- The materialized path of a statement is known, and one exactly where the statement is on the
executed path. -/
theorem pathValue_selectedPath (h : WellPathed ρ path) :
    pathValue ρ (selectedPath path) = .ofBool (SourcePath.selected ρ path) := by
  induction path with
  | nil => rfl
  | cons step outer ih =>
    obtain ⟨houter, hsel⟩ := h
    rw [selected_cons]
    cases hs : step.selection with
    | none =>
      have hpath : selectedPath (step :: outer) = selectedPath outer := by
        simp only [selectedPath, hs]
      rw [hpath, ih houter]
      simp
    | some s =>
      obtain ⟨htrue, hfalse⟩ := hsel s hs
      have hpath : selectedPath (step :: outer) =
          some (if step.whenTrue then s.whenTrue else s.whenFalse) := by
        simp only [selectedPath, hs]
      rw [hpath]
      cases hw : step.whenTrue with
      | true =>
        simp only [pathValue, if_true, htrue, Option.isNone_some, Bool.false_or,
          Logic.ofBool_true]
        exact congrArg Logic.ofBool (Bool.and_comm _ _)
      | false =>
        simp only [pathValue, Bool.false_eq_true, if_false, hfalse, Option.isNone_some,
          Bool.false_or, Logic.ofBool_false]
        exact congrArg Logic.ofBool (Bool.and_comm _ _)

/-- The accepted signal of a control is its acceptance. -/
theorem accepted_eval (st : Lowering) (kind : ControlKind) (raw : Signal) (path : SourcePath) :
    (Lowering.accepted kind raw).eval ρ = .ofBool ((st.control kind raw path).accepts ρ) := by
  cases kind with
  | guard | requirement => rfl
  | selection =>
    exact Logic.caseEq_or_caseEq (raw.eval ρ)

/-- A control is reached when the current prefix is one and its path is taken. -/
theorem control_reached (st : Lowering) (kind : ControlKind) (raw : Signal)
    (hpath : WellPathed ρ path) (h : Admits ρ st) :
    (st.control kind raw path).reached.eval ρ =
      .ofBool (SourcePath.selected ρ path && st.controls.all (Control.passes ρ)) := by
  have hvalue := pathValue_selectedPath hpath
  simp only [Lowering.control]
  cases hp : selectedPath path with
  | none =>
    rw [hp] at hvalue
    have hsel : SourcePath.selected ρ path = true := Logic.ofBool_eq_one.mp hvalue.symm
    rw [hsel, Bool.true_and]
    exact h.current
  | some p =>
    rw [hp] at hvalue
    have hp' : p.eval ρ = .ofBool (SourcePath.selected ρ path) := hvalue
    simp only [Signal.eval, h.current, hp', Logic.and_ofBool]
    rw [Bool.and_comm]

/-- A control is bypassed when its path is not taken, and then it passes. -/
theorem control_bypass (st : Lowering) (kind : ControlKind) (raw : Signal)
    (hpath : WellPathed ρ path) :
    (st.control kind raw path).bypass.eval ρ =
      .ofBool ((st.control kind raw path).passes ρ) := by
  have hvalue := pathValue_selectedPath hpath
  have haccepted := accepted_eval (ρ := ρ) st kind raw path
  have honPath : (st.control kind raw path).onPath ρ = SourcePath.selected ρ path := rfl
  rw [Control.passes, honPath]
  have hbypass : (st.control kind raw path).bypass =
      match selectedPath path with
      | none => Lowering.accepted kind raw
      | some p => .select p (Lowering.accepted kind raw) (.literal true) := rfl
  rw [hbypass]
  cases hp : selectedPath path with
  | none =>
    rw [hp] at hvalue
    have hsel : SourcePath.selected ρ path = true := Logic.ofBool_eq_one.mp hvalue.symm
    rw [hsel]
    exact haccepted
  | some p =>
    rw [hp] at hvalue
    have hp' : p.eval ρ = .ofBool (SourcePath.selected ρ path) := hvalue
    simp only [Signal.eval, hp', haccepted, Logic.select_ofBool]
    cases SourcePath.selected ρ path <;> rfl

/-- Step lemma: one more control keeps the order. -/
theorem admitControl_admits (kind : ControlKind) (raw : Signal)
    (hpath : WellPathed ρ path) (h : Admits ρ st) :
    Admits ρ (st.admitControl kind raw path) := by
  have hcurrent : (Signal.and st.admitted (st.control kind raw path).bypass).eval ρ =
      .ofBool (((st.control kind raw path) :: st.controls).all (Control.passes ρ)) := by
    simp only [Signal.eval, h.current, control_bypass st kind raw hpath, Logic.and_ofBool,
      List.all_cons]
    rw [Bool.and_comm]
  refine ⟨⟨h.ordered, ?_⟩, hcurrent, List.forall_mem_cons.mpr ⟨?_, h.known⟩⟩
  · exact control_reached st kind raw hpath h
  · rw [hcurrent]
    exact Logic.ofBool_known _

/-- The paths recorded for a selection are one exactly on the selected arm. -/
theorem armStep_wellPathed (effectful : Bool) (raw : Signal)
    (hpath : WellPathed ρ path) (b : Bool) :
    WellPathed ρ (Lowering.armStep effectful raw path b :: path) := by
  have hvalue := pathValue_selectedPath hpath
  refine ⟨hpath, ?_⟩
  intro s hs
  cases effectful with
  | false => cases hs
  | true =>
    cases hs
    unfold Lowering.selectionPaths
    cases hp : selectedPath path with
    | none =>
      rw [hp] at hvalue
      have hsel : SourcePath.selected ρ path = true := Logic.ofBool_eq_one.mp hvalue.symm
      rw [hsel, Bool.true_and, Bool.true_and]
      exact ⟨rfl, rfl⟩
    | some p =>
      rw [hp] at hvalue
      have hp' : p.eval ρ = .ofBool (SourcePath.selected ρ path) := hvalue
      simp only [Signal.eval, hp', Logic.caseEq, Logic.and_ofBool]
      exact ⟨rfl, rfl⟩

/-- Statements that are no controls leave what `Admits` is about. -/
theorem Admits.of_eq {st' : Lowering} (h : Admits ρ st) (hadmitted : st'.admitted = st.admitted)
    (hhistory : st'.history = st.history) (hcontrols : st'.controls = st.controls) :
    Admits ρ st' := by
  refine ⟨?_, ?_, ?_⟩
  · rw [hcontrols]
    exact h.ordered
  · rw [hadmitted, hcontrols]
    exact h.current
  · rw [hhistory]
    exact h.known

/-- Run lemma: lowering a region keeps the order of the controls. -/
theorem lower_admits (r : Region) {env : Var → Term}
    (hpath : WellPathed ρ path) (h : Admits ρ st) : Admits ρ (lower r env path st).2 := by
  induction r generalizing env path st with
  | done => exact h
  | pure dst op args rest ih => exact ih hpath h
  | read dst owner rest ih
  | write owner writePath value rest ih => exact ih hpath (h.of_eq rfl rfl rfl)
  | branch continuation condition whenTrue whenFalse results rest ihTrue ihFalse ih =>
    let raw := Signal.value (env condition)
    let effectful := continuation || whenTrue.effectful || whenFalse.effectful
    have hentered : Admits ρ (st.enterBranch effectful raw path) := by
      unfold Lowering.enterBranch
      split
      · exact admitControl_admits _ _ hpath h
      · exact h
    let armTrue := lower whenTrue env (Lowering.armStep effectful raw path true :: path)
      (st.enterBranch effectful raw path)
    have hTrue : Admits ρ (armTrue.2.restore st.candidates) :=
      (ihTrue (armStep_wellPathed effectful raw hpath true) hentered).of_eq rfl rfl rfl
    let armFalse := lower whenFalse env (Lowering.armStep effectful raw path false :: path)
      (armTrue.2.restore st.candidates)
    have hFalse : Admits ρ (armFalse.2.join raw st.candidates armTrue.2.candidates) :=
      (ihFalse (armStep_wellPathed effectful raw hpath false) hTrue).of_eq rfl rfl rfl
    exact ih hpath hFalse
  | call formals actuals guard predicate body results rest ihGuard ihBody ih =>
    exact ih hpath (ihBody hpath (admitControl_admits _ _ hpath (ihGuard hpath h)))
  | check condition rest ih | observe values rest ih => exact ih hpath (h.of_eq rfl rfl rfl)
  | require site rawPath rest ih => exact ih hpath (admitControl_admits _ _ hpath h)

theorem start_admits : Admits ρ .start := by
  refine ⟨trivial, rfl, ?_⟩
  intro p hp
  have hp' : p = .literal true := List.mem_singleton.mp hp
  rw [hp']
  exact Or.inr rfl

theorem lowerRule_admits (t : Rule) : Admits ρ (lowerRule t) := by
  have hguard : Admits ρ (lower t.guard Term.input [] .start).2 :=
    lower_admits t.guard trivial start_admits
  exact lower_admits t.body trivial (admitControl_admits _ _ trivial hguard)

/-! ## Consequences of the order -/

theorem Ordered.reached (h : Ordered ρ (later ++ c :: earlier)) :
    c.reached.eval ρ = .ofBool (c.onPath ρ && earlier.all (Control.passes ρ)) := by
  induction later with
  | nil => exact h.2
  | cons d later ih => exact ih h.1

/-- A reached control is on the executed path, and no control before it stopped the execution. -/
theorem Ordered.reached_iff (h : Ordered ρ (later ++ c :: earlier)) :
    c.reached.eval ρ = .one ↔
      c.onPath ρ = true ∧ ∀ d ∈ earlier, d.onPath ρ = true → d.accepts ρ = true := by
  rw [h.reached, Logic.ofBool_eq_one, Bool.and_eq_true, List.all_eq_true]
  refine and_congr_right fun _ => forall₂_congr fun d _ => ?_
  rw [Control.passes]
  cases d.onPath ρ <;> simp

/-- After a control on the executed path that is not accepted, nothing is reached. -/
theorem Ordered.stopped {d : Control}
    (h : Ordered ρ (later ++ c :: earlier)) (hc : c.onPath ρ = true) (hstop : c.accepts ρ = false)
    (hd : d ∈ later) : d.reached.eval ρ = .zero := by
  obtain ⟨newer, older, rfl⟩ := List.append_of_mem hd
  rw [List.append_assoc, List.cons_append] at h
  have hfails : (older ++ c :: earlier).all (Control.passes ρ) = false := by
    rw [List.all_eq_false]
    refine ⟨c, List.mem_append_right _ List.mem_cons_self, ?_⟩
    simp [Control.passes, hc, hstop]
  rw [h.reached, hfails, Bool.and_false]
  rfl

theorem accepts_known (h : c.accepts ρ = true) : (c.raw.eval ρ).Known := by
  unfold Control.accepts at h
  split at h
  · exact of_decide_eq_true h
  · exact Or.inr (of_decide_eq_true h)

theorem not_accepts_of_unknown (h : ¬ (c.raw.eval ρ).Known) :
    c.accepts ρ = false := by
  cases hc : c.accepts ρ with
  | false => rfl
  | true => exact absurd (accepts_known hc) h

theorem not_accepts_of_zero (hkind : c.kind ≠ .selection)
    (h : c.raw.eval ρ = .zero) : c.accepts ρ = false := by
  unfold Control.accepts
  split
  · next hselection => exact absurd hselection hkind
  · rw [h]
    rfl

/-- A control on the executed path that is not accepted keeps the rule from firing. -/
theorem Admits.fire_zero (h : Admits ρ st) (hmem : c ∈ st.controls)
    (hc : c.onPath ρ = true) (hstop : c.accepts ρ = false) : st.fire.eval ρ = .zero := by
  have hfails : st.controls.all (Control.passes ρ) = false := by
    rw [List.all_eq_false]
    refine ⟨c, hmem, ?_⟩
    simp [Control.passes, hc, hstop]
  show st.admitted.eval ρ = .zero
  rw [h.current, hfails]
  rfl

end

end PyCircuit.Transaction
