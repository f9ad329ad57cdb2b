import PyCircuit.Transaction.Correct

/-!
# The controls in source order

`Region.walk` goes through the statements of a rule in their order and evaluates them in four
states, both arms of every branch, without reference to the lowering. It lists the controls it
meets: the condition of a branch that needs a selection, the guard of a call, a required use. Each
has the value of its statement, and tells whether the selections around it are known and select its
arm.

`lower_walk` shows that the materialized controls are these, in this order. `lowerRule_admission`
says which of them the lowered rule reaches.
-/

namespace PyCircuit.Transaction

open PyCircuit.Lib

/-- A control of the source in a valuation. -/
structure SourceControl where
  kind : ControlKind
  selected : Bool
  value : Logic

/-- A walk: the frame, the value of each owner, and the controls met so far, newest first. -/
structure Walk where
  frame : Var → Payload
  value : OwnerId → Payload
  controls : List SourceControl

namespace Walk

/-- One more control. -/
def meet (s : Walk) (kind : ControlKind) (selected : Bool) (value : Logic) : Walk :=
  { s with controls := ⟨kind, selected, value⟩ :: s.controls }

/-- A write whose path is not known leaves what the old and the new value agree on. -/
def write (s : Walk) (owner : OwnerId) (path : Option Var) (v : Var) : Walk :=
  { s with
    value := fun o =>
      if o = owner then
        match path with
        | none => s.frame v
        | some p => Word.select (s.frame p).bit (s.frame v) (s.value owner)
      else s.value o }

end Walk

/-- A required use is one unless it is reached. -/
def requiredValue (ρ : Valuation) (site : Nat) (arms : List Logic) (rawPath : Option Logic) :
    Logic :=
  let reached := arms.foldl Logic.and .one
  Logic.select (rawPath.elim reached reached.and) (ρ.available site) .one

/-- The walk through a region. `on` tells whether the selections around it select it, and `arms` has
the conditions of all branches around it, innermost first. -/
def Region.walk (ρ : Valuation) : Region → (on : Bool) → (arms : List Logic) → Walk → Walk
  | .done, _, _, s => s
  | .pure dst op args rest, on, arms, s =>
    rest.walk ρ on arms { s with frame := assign s.frame dst (ρ.apply op (args.map s.frame)) }
  | .read dst owner rest, on, arms, s =>
    rest.walk ρ on arms { s with frame := assign s.frame dst (s.value owner) }
  | .write owner path value rest, on, arms, s => rest.walk ρ on arms (s.write owner path value)
  | .branch continuation condition whenTrue whenFalse results rest, on, arms, s =>
    let c := (s.frame condition).bit
    let effectful := continuation || whenTrue.effectful || whenFalse.effectful
    let armTrue := whenTrue.walk ρ ((!effectful || decide (c = .one)) && on) (c :: arms)
      (if effectful then s.meet .selection on c else s)
    let armFalse := whenFalse.walk ρ ((!effectful || decide (c = .zero)) && on) (c.not :: arms)
      { s with controls := armTrue.controls }
    rest.walk ρ on arms
      { frame := assignAll s.frame (results.map fun r => (r.result,
          Word.select c (armTrue.frame r.whenTrue) (armFalse.frame r.whenFalse)))
        value := fun o => Word.select c (armTrue.value o) (armFalse.value o)
        controls := armFalse.controls }
  | .call formals actuals guard predicate body results rest, on, arms, s =>
    let guarded := guard.walk ρ on arms { s with
      frame := assignAll ρ.input ((formals.zip actuals).map fun a => (a.1, s.frame a.2)) }
    let callee := body.walk ρ on arms
      (guarded.meet .guard on (guarded.frame predicate).bit)
    rest.walk ρ on arms { callee with
      frame := assignAll s.frame (results.map fun r => (r.result, callee.frame r.yielded)) }
  | .check _ rest, on, arms, s => rest.walk ρ on arms s
  | .observe _ rest, on, arms, s => rest.walk ρ on arms s
  | .require site rawPath rest, on, arms, s =>
    rest.walk ρ on arms (s.meet .requirement on
      (requiredValue ρ site arms (rawPath.map fun p => (s.frame p).bit)))

/-- The controls of a rule in the order of the source, newest first. -/
def Rule.controls (ρ : Valuation) (t : Rule) : List SourceControl :=
  let guarded := t.guard.walk ρ true [] ⟨ρ.input, ρ.oldQ, []⟩
  (t.body.walk ρ true [] (guarded.meet .guard true (guarded.frame t.predicate).bit)).controls

/-- A materialized control in a valuation. -/
def Control.met (ρ : Valuation) (c : Control) : SourceControl :=
  ⟨c.kind, c.onPath ρ, c.raw.eval ρ⟩

section

variable {ρ : Valuation} {path : SourcePath} {st : Lowering} {s : Walk} {env : Var → Term}

/-- Frame, candidates and controls of the lowering have the values of the walk. -/
structure Follows (ρ : Valuation) (env : Var → Term) (st : Lowering) (s : Walk) : Prop where
  counted : Counted st
  values : ∀ v, (env v).eval ρ = s.frame v
  data : ∀ o, (st.candidates o).data.eval ρ = s.value o
  controls : st.controls.map (Control.met ρ) = s.controls

theorem word_select_self (c : Logic) (a : Word) : Word.select c a a = a := by
  have hmerge : List.zipWith Logic.merge a a = a := by
    induction a with
    | nil => rfl
    | cons b rest ih => rw [List.zipWith_cons_cons, ih, Logic.merge, if_pos rfl]
  cases c <;> first | rfl | exact hmerge

/-- The conditions of the branches around a statement. -/
def SourcePath.arms (ρ : Valuation) (path : SourcePath) : List Logic :=
  path.map fun step => (if step.whenTrue then step.condition else .not step.condition).eval ρ

theorem statementPath_eval (path : SourcePath) :
    (statementPath path).eval ρ = (path.arms ρ).foldl Logic.and .one := by
  have key : ∀ acc : Signal, (path.foldl (fun acc step =>
      .and acc (if step.whenTrue then step.condition else .not step.condition)) acc).eval ρ =
        (path.arms ρ).foldl Logic.and (acc.eval ρ) := by
    induction path with
    | nil => exact fun _ => rfl
    | cons step outer ih => exact fun acc => ih _
  exact key (.literal true)

theorem requirement_eval (site : Nat) (rawPath : Option Signal) (path : SourcePath) :
    (requirement site rawPath path).eval ρ =
      requiredValue ρ site (path.arms ρ) (rawPath.map (Signal.eval ρ)) := by
  rw [requiredValue, ← statementPath_eval]
  cases rawPath <;> rfl

theorem Follows.bit (h : Follows ρ env st s) (v : Var) :
    (Signal.value (env v)).eval ρ = (s.frame v).bit :=
  congrArg Word.bit (h.values v)

theorem Follows.meet (h : Follows ρ env st s) (kind : ControlKind) (path : SourcePath)
    {raw : Signal} {value : Logic} (hraw : raw.eval ρ = value) :
    Follows ρ env (st.admitControl kind raw path)
      (s.meet kind (SourcePath.selected ρ path) value) where
  counted := h.counted
  values := h.values
  data := h.data
  controls := by
    rw [← hraw]
    exact congrArg (_ :: ·) h.controls

theorem Follows.enterBranch (h : Follows ρ env st s) (effectful : Bool) {raw : Signal} {c : Logic}
    (hraw : raw.eval ρ = c) :
    Follows ρ env (st.enterBranch effectful raw path)
      (if effectful then s.meet .selection (SourcePath.selected ρ path) c else s) := by
  cases effectful with
  | true => exact h.meet .selection path hraw
  | false => exact h

theorem Follows.write (h : Follows ρ env st s) (owner : OwnerId) (writePath : Option Var)
    (value : Var) :
    Follows ρ env (st.write owner (writePath.map fun p => .value (env p)) (env value))
      (s.write owner writePath value) where
  counted := (write_newer h.counted owner _ _).counted
  values := h.values
  data := by
    intro o
    by_cases ho : o = owner
    · subst ho
      cases writePath with
      | none => simp [Lowering.write, Walk.write, h.values]
      | some p => simp [Lowering.write, Walk.write, Term.eval, Signal.eval, h.values, h.data]
    · simp [Lowering.write, Walk.write, ho, h.data]
  controls := h.controls

/-- The join of a branch: an owner that neither arm has changed has its old value in both. -/
theorem join_data {armTrue armFalse : Lowering} {raw : Signal} (hst : Counted st)
    (htrue : Newer st armTrue) (hfalse : Newer (armTrue.restore st.candidates) armFalse)
    (o : OwnerId) :
    ((armFalse.join raw st.candidates armTrue.candidates).candidates o).data.eval ρ =
      Word.select (raw.eval ρ) ((armTrue.candidates o).data.eval ρ)
        ((armFalse.candidates o).data.eval ρ) := by
  simp only [Lowering.join]
  split
  · rfl
  · next hsame =>
    obtain ⟨hT, hF⟩ := arms_unchanged hst htrue hfalse hsame
    rw [hT, hF, word_select_self]

theorem selected_arm {effectful b : Bool} {raw : Signal} {c : Logic} (hraw : raw.eval ρ = c) :
    SourcePath.selected ρ (Lowering.armStep effectful raw path b :: path) =
      ((!effectful || decide (c = .ofBool b)) && SourcePath.selected ρ path) := by
  rw [selected_cons, ← hraw]
  cases effectful <;> rfl

theorem arms_arm {effectful b : Bool} {raw : Signal} :
    SourcePath.arms ρ (Lowering.armStep effectful raw path b :: path) =
      (if b then raw.eval ρ else (raw.eval ρ).not) :: path.arms ρ := by
  cases b <;> rfl

/-- The values of a frame are those of a walk. -/
theorem assignAll_follows {ι : Type} {env : Var → Term} {frame : Var → Payload} (vars : ι → Var)
    (f : ι → Term) (g : ι → Payload) (l : List ι) (henv : ∀ v, (env v).eval ρ = frame v)
    (hfg : ∀ i, (f i).eval ρ = g i) (v : Var) :
    (assignAll env (l.map fun i => (vars i, f i)) v).eval ρ =
      assignAll frame (l.map fun i => (vars i, g i)) v :=
  assignAll_rel (R := fun t p => Term.eval ρ t = p) vars f g l henv (fun i _ => hfg i) v

/-- Run lemma: the lowering of a region follows the walk through it. -/
theorem lower_walk (r : Region) (path : SourcePath) (h : Follows ρ env st s) :
    Follows ρ (lower r env path st).1 (lower r env path st).2
      (r.walk ρ (SourcePath.selected ρ path) (path.arms ρ) s) := by
  induction r generalizing env path st s with
  | done => exact h
  | pure dst op args rest ih =>
    refine ih path ⟨h.counted, fun v => ?_, h.data, h.controls⟩
    refine assign_rel (R := fun t p => Term.eval ρ t = p) h.values ?_ v
    rw [Term.eval, evalArgs_eq_map, List.map_map]
    exact congrArg _ (List.map_congr_left fun a _ => h.values a)
  | read dst owner rest ih =>
    exact ih path ⟨h.counted, assign_rel (R := fun t p => Term.eval ρ t = p) h.values
      (h.data owner),
      h.data, h.controls⟩
  | write owner writePath value rest ih =>
    exact ih path (h.write owner writePath value)
  | branch continuation condition whenTrue whenFalse results rest ihTrue ihFalse ih =>
    let raw := Signal.value (env condition)
    let effectful := continuation || whenTrue.effectful || whenFalse.effectful
    let c := (s.frame condition).bit
    let on := SourcePath.selected ρ path
    have hraw : raw.eval ρ = c := h.bit condition
    let entered := if effectful then s.meet .selection on c else s
    have hentered : Follows ρ env (st.enterBranch effectful raw path) entered :=
      h.enterBranch effectful hraw
    let armTrue := lower whenTrue env (Lowering.armStep effectful raw path true :: path)
      (st.enterBranch effectful raw path)
    let walkTrue := whenTrue.walk ρ ((!effectful || decide (c = .one)) && on) (c :: path.arms ρ)
      entered
    have hTrue : Follows ρ armTrue.1 armTrue.2 walkTrue := by
      have harm := ihTrue (Lowering.armStep effectful raw path true :: path) hentered
      rwa [selected_arm hraw, arms_arm, hraw] at harm
    obtain ⟨hnewTrue, hnewFalse⟩ :=
      arms_newer whenTrue whenFalse h.counted env effectful raw path
    have hcounted := restore_counted h.counted hnewTrue
    have hrestored : Follows ρ env (armTrue.2.restore st.candidates)
        ⟨s.frame, s.value, walkTrue.controls⟩ := ⟨hcounted, h.values, h.data, hTrue.controls⟩
    let armFalse := lower whenFalse env (Lowering.armStep effectful raw path false :: path)
      (armTrue.2.restore st.candidates)
    let walkFalse := whenFalse.walk ρ ((!effectful || decide (c = .zero)) && on)
      (c.not :: path.arms ρ) ⟨s.frame, s.value, walkTrue.controls⟩
    have hFalse : Follows ρ armFalse.1 armFalse.2 walkFalse := by
      have harm := ihFalse (Lowering.armStep effectful raw path false :: path) hrestored
      rwa [selected_arm hraw, arms_arm, hraw] at harm
    have hjoin := join_newer raw h.counted hnewTrue hnewFalse
    refine ih path ⟨hjoin.counted, ?_, fun o => ?_, hFalse.controls⟩
    · refine assignAll_follows BranchResult.result _ _ results h.values fun r => ?_
      rw [Term.eval, hraw, hTrue.values, hFalse.values]
    · rw [join_data h.counted hnewTrue hnewFalse, hraw, hTrue.data, hFalse.data]
  | call formals actuals guard predicate body results rest ihGuard ihBody ih =>
    have hinput : ∀ v, (Term.input v).eval ρ = ρ.input v := fun _ => rfl
    have hentry := assignAll_follows Prod.fst (fun a => env a.2) (fun a => s.frame a.2)
      (formals.zip actuals) hinput (fun a => h.values a.2)
    have hcallee : Follows ρ _ st ⟨_, s.value, s.controls⟩ :=
      ⟨h.counted, hentry, h.data, h.controls⟩
    have hguard := ihGuard path hcallee
    have hbody := ihBody path (hguard.meet .guard path (hguard.bit predicate))
    exact ih path ⟨hbody.counted, assignAll_follows CallResult.result _ _ results h.values
      (fun r => hbody.values r.yielded), hbody.data, hbody.controls⟩
  | check condition rest ih | observe values rest ih =>
    exact ih path ⟨h.counted, h.values, h.data, h.controls⟩
  | require site rawPath rest ih =>
    refine ih path (h.meet .requirement path ?_)
    rw [requirement_eval, Option.map_map]
    refine congrArg _ ?_
    cases rawPath with
    | none => rfl
    | some p => exact congrArg some (h.bit p)

theorem start_follows : Follows ρ Term.input .start ⟨ρ.input, ρ.oldQ, []⟩ :=
  ⟨fun _ => Nat.le_refl _, fun _ => rfl, fun _ => rfl, rfl⟩

theorem lowerRule_controls (t : Rule) :
    (lowerRule t).controls.map (Control.met ρ) = t.controls ρ := by
  have hguard := lower_walk t.guard [] (start_follows (ρ := ρ))
  exact (lower_walk t.body [] (hguard.meet .guard [] (hguard.bit t.predicate))).controls

/-- The admission of a lowered rule in any four-state valuation. The controls are those of the
source in its order, newest first, with the values and paths that the source gives them. Prefixes
and reached signals are known; a control is reached exactly when it is on the executed path and the
earlier controls on it were accepted; the only reached control that is unknown is the first one met;
nothing is reached after a guard known to be false; the rule does not fire when an executed control
is false or unknown, and where the serial execution is determined it fires unless a guard blocks
that. -/
theorem lowerRule_admission (t : Rule) (ρ : Valuation) :
    (lowerRule t).controls.map (Control.met ρ) = t.controls ρ ∧
    (∀ p ∈ (lowerRule t).history, (p.eval ρ).Known) ∧
    (∀ later c earlier, (lowerRule t).controls = later ++ c :: earlier →
      (c.reached.eval ρ).Known ∧
      (c.reached.eval ρ = .one ↔
        c.onPath ρ = true ∧ ∀ d ∈ earlier, d.onPath ρ = true → d.accepts ρ = true) ∧
      (c.reached.eval ρ = .one → ¬ (c.raw.eval ρ).Known →
        (∀ d ∈ earlier, d.onPath ρ = true → (d.raw.eval ρ).Known) ∧
        (∀ d ∈ later ++ earlier, d.reached.eval ρ = .one → (d.raw.eval ρ).Known)) ∧
      (c.kind = .guard → c.onPath ρ = true → c.raw.eval ρ = .zero →
        ∀ d ∈ later, d.reached.eval ρ = .zero)) ∧
    ((lowerRule t).fire.eval ρ).Known ∧
    (∀ c ∈ (lowerRule t).controls, c.onPath ρ = true →
      (¬ (c.raw.eval ρ).Known ∨ c.kind ≠ .selection ∧ c.raw.eval ρ = .zero) →
      (lowerRule t).fire.eval ρ = .zero) ∧
    ((serialRule ρ t).1 ≠ .undetermined →
      ((lowerRule t).fire.eval ρ = .one ↔ (serialRule ρ t).1 ≠ .blocked)) := by
  have hadmits : Admits ρ (lowerRule t) := lowerRule_admits t
  refine ⟨lowerRule_controls t, hadmits.known, ?_, ?_, ?_, fun hknown => ?_⟩
  · intro later c earlier hsplit
    have hordered : Ordered ρ (later ++ c :: earlier) := hsplit ▸ hadmits.ordered
    refine ⟨?_, hordered.reached_iff, ?_, ?_⟩
    · rw [hordered.reached]
      exact Logic.ofBool_known _
    · intro hreached hunknown
      obtain ⟨honPath, haccepted⟩ := hordered.reached_iff.mp hreached
      refine ⟨fun d hd hdPath => accepts_known (haccepted d hd hdPath), ?_⟩
      intro d hd hdReached
      rcases List.mem_append.mp hd with hlater | hearlier
      · -- a later control would not have been reached
        have hzero := hordered.stopped honPath (not_accepts_of_unknown hunknown) hlater
        rw [hzero] at hdReached
        cases hdReached
      · obtain ⟨newer, older, rfl⟩ := List.append_of_mem hearlier
        have hd' : Ordered ρ ((later ++ c :: newer) ++ d :: older) := by
          rw [List.append_assoc, List.cons_append]
          exact hordered
        exact accepts_known (haccepted d (List.mem_append_right _ List.mem_cons_self)
          (hd'.reached_iff.mp hdReached).1)
    · intro hguard honPath hzero d hd
      refine hordered.stopped honPath (not_accepts_of_zero ?_ hzero) hd
      rw [hguard]
      decide
  · show ((lowerRule t).admitted.eval ρ).Known
    rw [hadmits.current]
    exact Logic.ofBool_known _
  · intro c hmem honPath hstop
    rcases hstop with hunknown | ⟨hkind, hzero⟩
    · exact hadmits.fire_zero hmem honPath (not_accepts_of_unknown hunknown)
    · exact hadmits.fire_zero hmem honPath (not_accepts_of_zero hkind hzero)
  · rcases lowerRule_commit t hknown with ⟨frame, store, hrun, hfire, -⟩ | ⟨hrun, hfire⟩
    · rw [hrun, hfire]
      exact ⟨fun _ => nofun, fun _ => rfl⟩
    · rw [hrun, hfire]
      exact ⟨nofun, fun hne => absurd rfl hne⟩

end

end PyCircuit.Transaction
