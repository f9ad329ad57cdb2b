import PyCircuit.HardwareEmit.ObservationPlan
import PyCircuit.Lib.Fallible

/-!
# What `collect` collects

The traversal reaches every definition below the root once. Of a definition that is not in progress
it has recorded all the sites, in an order that agrees with their keys, and all the children with
their shapes.
-/

set_option autoImplicit false

namespace PyCircuit.HardwareEmit

open PyCircuit.Lib

variable {ι α : Type}

/-! ## Sites -/

/-- The number of sites of one lane. -/
def Hierarchy.laneSites (h : Hierarchy ι α) (d : ι) : Nat :=
  ((h.observes d).map fun observe => max 1 observe.values).sum

/-- The keys of the sites do not decrease. -/
def Ascending (sites : List (Site α)) : Prop :=
  sites.Pairwise fun a b => a.registrationKey < b.registrationKey ∨
    a.registrationKey = b.registrationKey ∧ a.siteKey ≤ b.siteKey

theorem rankGroups_counts [DecidableEq α] (observes : List (Observe α)) :
    ∀ registrationKeys identityKeys : List α,
      ((rankGroups observes registrationKeys identityKeys).1.map fun group => group.valueCount) =
        observes.map fun observe => max 1 observe.values := by
  induction observes with
  | nil => exact fun _ _ => rfl
  | cons observe rest ih =>
    intro registrationKeys identityKeys
    simp only [rankGroups, List.map_cons]
    rw [ih]

theorem expandGroups_length (siteKey : Nat) (groups : List (Group α)) :
    (expandGroups siteKey groups).length = (groups.map fun group => group.valueCount).sum := by
  induction groups generalizing siteKey with
  | nil => rfl
  | cons group rest ih => simp [expandGroups, ih]

theorem siteKey_le_of_mem {siteKey : Nat} {groups : List (Group α)} {site : Site α}
    (h : site ∈ expandGroups siteKey groups) :
    siteKey ≤ site.siteKey ∧ ∃ group ∈ groups, site.registrationKey = group.registrationRank := by
  induction groups generalizing siteKey with
  | nil => cases h
  | cons group rest ih =>
    rw [expandGroups, List.mem_append] at h
    rcases h with h | h
    · obtain ⟨index, _, rfl⟩ := List.mem_map.mp h
      exact ⟨Nat.le_refl _, group, List.mem_cons_self, rfl⟩
    · obtain ⟨hle, group', hgroup', hkey⟩ := ih h
      exact ⟨Nat.le_of_succ_le hle, group', List.mem_cons_of_mem group hgroup', hkey⟩

/-- Groups in order give sites in order. -/
theorem expandGroups_ascending {groups : List (Group α)}
    (h : groups.Pairwise fun a b => a.registrationRank ≤ b.registrationRank) (siteKey : Nat) :
    Ascending (expandGroups siteKey groups) := by
  induction groups generalizing siteKey with
  | nil => exact .nil
  | cons group rest ih =>
    obtain ⟨hfirst, hrest⟩ := List.pairwise_cons.mp h
    refine List.pairwise_append.mpr ⟨?_, ih hrest (siteKey + 1), ?_⟩
    · refine List.pairwise_map.mpr (List.pairwise_of_forall fun _ _ => ?_)
      exact .inr ⟨rfl, Nat.le_refl _⟩
    · intro a ha b hb
      obtain ⟨_, _, rfl⟩ := List.mem_map.mp ha
      obtain ⟨hkey, group', hgroup', hrank⟩ := siteKey_le_of_mem hb
      rcases Nat.lt_or_eq_of_le (hfirst group' hgroup') with hlt | heq
      · exact .inl (by rw [hrank]; exact hlt)
      · exact .inr ⟨by rw [hrank]; exact heq, Nat.le_of_succ_le hkey⟩

theorem Group.le_rank {a b : Group α} (h : a.le b) : a.registrationRank ≤ b.registrationRank := by
  rcases h with h | ⟨h, -⟩ <;> omega

/-- The order of the groups is total and transitive. -/
theorem sorted_groups (groups : List (Group α)) :
    (groups.insertionSort Group.le).Pairwise
      fun a b => a.registrationRank ≤ b.registrationRank := by
  have htotal : Std.Total (Group.le (α := α)) := ⟨fun a b => by unfold Group.le; omega⟩
  have htrans : IsTrans (Group α) Group.le := ⟨fun a b c => by unfold Group.le; omega⟩
  exact (List.pairwise_insertionSort Group.le groups).imp Group.le_rank

/-- The sites of a definition. -/
theorem enter_sites [DecidableEq ι] [DecidableEq α] (plan : Collected ι α) (d : ι)
    (observes : List (Observe α)) :
    ∃ sites, (plan.enter d observes).definitions d = some sites ∧
      sites.length = (observes.map fun observe => max 1 observe.values).sum ∧ Ascending sites := by
  refine ⟨_, Function.update_self .., ?_, expandGroups_ascending (sorted_groups _) _⟩
  rw [expandGroups_length,
    ((List.perm_insertionSort Group.le _).map fun group => group.valueCount).sum_eq,
    rankGroups_counts]

/-! ## Shapes -/

theorem foldlM_extend {extents : List Nat} {start shape : Nat}
    (h : extents.foldlM extend start = .ok shape) : shape = start * extents.prod := by
  induction extents generalizing start with
  | nil =>
    rw [List.prod_nil, Nat.mul_one]
    exact (Except.ok.inj h).symm
  | cons extent rest ih =>
    rw [List.foldlM_cons] at h
    obtain ⟨next, hnext, hrest⟩ := Fallible.bind_eq_ok.mp h
    rw [extend] at hnext
    split_ifs at hnext
    obtain rfl := Except.ok.inj hnext
    rw [ih hrest, List.prod_cons, Nat.mul_assoc]

theorem shapeSize_spec {extents : List Nat} {shape : Nat} (h : shapeSize extents = .ok shape) :
    shape = extents.prod := by
  rw [foldlM_extend h, Nat.one_mul]

/-- The children of a definition as they are planned. -/
def Hierarchy.planned (h : Hierarchy ι α) (d : ι) : List (PlannedChild ι) :=
  (h.children d).map fun child => ⟨child.definition, child.extents.prod⟩

/-! ## The traversal -/

/-- A definition that the traversal has left. -/
structure Done (h : Hierarchy ι α) (plan : Collected ι α) (d : ι) : Prop where
  sites : ∃ sites, plan.definitions d = some sites ∧ sites.length = h.laneSites d ∧ Ascending sites
  children : plan.children d = h.planned d
  reached : ∀ child ∈ h.children d, ∀ c, child.definition = some c → c ∈ plan.reached

/-- The state of the traversal while some definitions are in progress. -/
structure Traversed (h : Hierarchy ι α) (active : List ι) (plan : Collected ι α) : Prop where
  done : ∀ d ∈ plan.reached, d ∉ active → Done h plan d
  fresh : ∀ d, d ∉ plan.reached → plan.children d = []

/-- What the traversal keeps of the definitions it had reached. -/
structure Keeps (before after : Collected ι α) (d : ι) : Prop where
  definitions : after.definitions d = before.definitions d
  children : after.children d = before.children d

theorem Done.mono {h : Hierarchy ι α} {before after : Collected ι α} {d : ι}
    (hdone : Done h before d)
    (hkeeps : Keeps before after d) (hreached : before.reached ⊆ after.reached) :
    Done h after d where
  sites := by
    rw [hkeeps.definitions]
    exact hdone.sites
  children := hkeeps.children.trans hdone.children
  reached := fun child hchild c hc => hreached (hdone.reached child hchild c hc)

/-- What a call of `collect` does. -/
structure Visited (h : Hierarchy ι α) (active : List ι) (d : ι) (before after : Collected ι α) :
    Prop where
  traversed : Traversed h active after
  mem : d ∈ after.reached
  subset : before.reached ⊆ after.reached
  keeps : ∀ x ∈ before.reached, Keeps before after x

/-- What the loop over the children of a definition does. -/
structure LoopVisited (h : Hierarchy ι α) (active : List ι) (d : ι) (list : List (Child ι))
    (before after : Collected ι α) : Prop where
  traversed : Traversed h (d :: active) after
  subset : before.reached ⊆ after.reached
  children : after.children d =
    before.children d ++ list.map fun child => ⟨child.definition, child.extents.prod⟩
  definitions : after.definitions d = before.definitions d
  reached : ∀ child ∈ list, ∀ c, child.definition = some c → c ∈ after.reached
  keeps : ∀ x ∈ before.reached, x ≠ d → Keeps before after x

section Traversal

variable [DecidableEq ι] {h : Hierarchy ι α} {active : List ι} {d : ι}

theorem addChild_children (plan : Collected ι α) (d : ι) (child : PlannedChild ι) :
    (plan.addChild d child).children d = plan.children d ++ [child] := Function.update_self ..

theorem addChild_keeps (plan : Collected ι α) {d x : ι} (child : PlannedChild ι) (hne : x ≠ d) :
    Keeps plan (plan.addChild d child) x := ⟨rfl, Function.update_of_ne hne _ _⟩

/-- A definition in progress may get a child. -/
theorem Traversed.addChild {plan : Collected ι α} (htraversed : Traversed h (d :: active) plan)
    (hd : d ∈ plan.reached) (child : PlannedChild ι) :
    Traversed h (d :: active) (plan.addChild d child) where
  done := by
    intro x hx hactive
    have hne : x ≠ d := fun heq => hactive (heq ▸ List.mem_cons_self)
    exact (htraversed.done x hx hactive).mono (addChild_keeps plan child hne) (List.Subset.refl _)
  fresh := by
    intro x hx
    have hne : x ≠ d := fun heq => hx (heq ▸ hd)
    rw [(addChild_keeps plan child hne).children]
    exact htraversed.fresh x hx

/-- The loop over the children, if the recursive call does what it should. -/
theorem collectChildren_visited
    {recurse : ι → Collected ι α → Except Rejection (Collected ι α)} {list : List (Child ι)}
    (hrecurse : ∀ child ∈ list, ∀ c, child.definition = some c → ∀ before after,
      Traversed h (d :: active) before → recurse c before = .ok after →
      Visited h (d :: active) c before after) :
    ∀ {before after : Collected ι α}, Traversed h (d :: active) before → d ∈ before.reached →
      collectChildren recurse d list before = .ok after →
      LoopVisited h active d list before after := by
  induction list with
  | nil =>
    intro before after htraversed hd hloop
    obtain rfl := Except.ok.inj hloop
    exact ⟨htraversed, List.Subset.refl _, (List.append_nil _).symm, rfl, fun _ => nofun,
      fun _ _ _ => ⟨rfl, rfl⟩⟩
  | cons child rest ih =>
    intro before after htraversed hd hloop
    obtain ⟨shape, hshape, hloop⟩ := Fallible.bind_eq_ok.mp hloop
    obtain rfl := shapeSize_spec hshape
    have hadded := htraversed.addChild hd ⟨child.definition, child.extents.prod⟩
    have hrecurseRest := fun child' (hchild' : child' ∈ rest) =>
      hrecurse child' (List.mem_cons_of_mem child hchild')
    cases hdefinition : child.definition with
    | none =>
      rw [hdefinition] at hloop hadded
      have hvisited := ih hrecurseRest hadded hd hloop
      refine ⟨hvisited.traversed, hvisited.subset, ?_, hvisited.definitions, ?_, ?_⟩
      · rw [hvisited.children, addChild_children, List.append_assoc, List.map_cons, hdefinition]
        rfl
      · refine List.forall_mem_cons.mpr ⟨fun c hc => ?_, hvisited.reached⟩
        rw [hdefinition] at hc
        cases hc
      · intro x hx hne
        have hkept := hvisited.keeps x hx hne
        have hfirst := addChild_keeps before ⟨none, child.extents.prod⟩ hne
        exact ⟨hkept.definitions.trans hfirst.definitions, hkept.children.trans hfirst.children⟩
    | some c =>
      rw [hdefinition] at hloop hadded
      obtain ⟨middle, hmiddle, hloop⟩ := Fallible.bind_eq_ok.mp hloop
      have hcall := hrecurse child List.mem_cons_self c hdefinition _ _ hadded hmiddle
      have hdmiddle := hcall.subset hd
      have hvisited := ih hrecurseRest hcall.traversed hdmiddle hloop
      refine ⟨hvisited.traversed, fun x hx => hvisited.subset (hcall.subset hx), ?_, ?_, ?_, ?_⟩
      · rw [hvisited.children, (hcall.keeps d hd).children, addChild_children,
          List.append_assoc, List.map_cons, hdefinition]
        rfl
      · exact hvisited.definitions.trans (hcall.keeps d hd).definitions
      · refine List.forall_mem_cons.mpr ⟨fun c' hc' => ?_, hvisited.reached⟩
        rw [hdefinition] at hc'
        obtain rfl := Option.some.inj hc'
        exact hvisited.subset hcall.mem
      · intro x hx hne
        have hkept := hvisited.keeps x (hcall.subset hx) hne
        have hsecond := hcall.keeps x hx
        have hfirst := addChild_keeps before ⟨some c, child.extents.prod⟩ hne
        exact ⟨hkept.definitions.trans (hsecond.definitions.trans hfirst.definitions),
          hkept.children.trans (hsecond.children.trans hfirst.children)⟩

/-- A definition that is entered. -/
theorem Traversed.enter [DecidableEq α] {plan : Collected ι α}
    (htraversed : Traversed h active plan)
    (hd : d ∉ plan.reached) (observes : List (Observe α)) :
    Traversed h (d :: active) (plan.enter d observes) ∧
      ∀ x ∈ plan.reached, Keeps plan (plan.enter d observes) x := by
  have hkeeps : ∀ x, x ≠ d → Keeps plan (plan.enter d observes) x := fun x hne =>
    ⟨Function.update_of_ne hne _ _, rfl⟩
  refine ⟨⟨?_, ?_⟩, fun x hx => hkeeps x fun heq => hd (heq ▸ hx)⟩
  · intro x hx hactive
    rw [List.mem_cons, not_or] at hactive
    have hold : x ∈ plan.reached := by
      rcases List.mem_append.mp hx with hx | hx
      · exact hx
      · exact absurd (List.mem_singleton.mp hx) hactive.1
    exact (htraversed.done x hold hactive.2).mono (hkeeps x hactive.1)
      (List.subset_append_left ..)
  · intro x hx
    exact htraversed.fresh x fun hmem => hx (List.mem_append_left _ hmem)

/-- The traversal from a definition below all that are in progress. -/
theorem collect_visited [DecidableEq α] (h : Hierarchy ι α) (fuel : Nat) :
    ∀ {active : List ι} {d : ι} {before after : Collected ι α}, h.rank d < fuel →
      (∀ a ∈ active, h.rank d < h.rank a) → Traversed h active before →
      collect h fuel d before = .ok after → Visited h active d before after := by
  induction fuel with
  | zero =>
    intro active d before after hfuel
    cases hfuel
  | succ fuel ih =>
    intro active d before after hfuel hactive htraversed hcollect
    rw [collect] at hcollect
    by_cases hmem : d ∈ before.reached
    · rw [if_pos hmem] at hcollect
      obtain rfl := Except.ok.inj hcollect
      exact ⟨htraversed, hmem, List.Subset.refl _, fun _ _ => ⟨rfl, rfl⟩⟩
    rw [if_neg hmem] at hcollect
    obtain ⟨hentered, hkeeps⟩ := htraversed.enter hmem (h.observes d)
    have hd : d ∈ (before.enter d (h.observes d)).reached :=
      List.mem_append_right _ List.mem_cons_self
    have hvisited := collectChildren_visited (fun child hchild c hc b a hb hcall => by
      have hrank := h.acyclic d child hchild c hc
      refine ih (by omega) ?_ hb hcall
      exact List.forall_mem_cons.mpr
        ⟨hrank, fun x hx => Nat.lt_trans hrank (hactive x hx)⟩) hentered hd hcollect
    have hsubset : before.reached ⊆ after.reached := fun x hx =>
      hvisited.subset (List.mem_append_left _ hx)
    have hdone : Done h after d := by
      refine ⟨?_, ?_, hvisited.reached⟩
      · rw [hvisited.definitions]
        exact enter_sites before d (h.observes d)
      · have hfresh : (before.enter d (h.observes d)).children d = [] :=
          htraversed.fresh d hmem
        rw [hvisited.children, hfresh]
        rfl
    refine ⟨⟨?_, hvisited.traversed.fresh⟩, hvisited.subset hd, hsubset, ?_⟩
    · intro x hx hxactive
      by_cases heq : x = d
      · rw [heq]
        exact hdone
      · exact hvisited.traversed.done x hx (by simp [heq, hxactive])
    · intro x hx
      have hne : x ≠ d := fun heq => hmem (heq ▸ hx)
      have hlater := hvisited.keeps x (List.mem_append_left _ hx) hne
      have hfirst := hkeeps x hx
      exact ⟨hlater.definitions.trans hfirst.definitions,
        hlater.children.trans hfirst.children⟩

end Traversal

/-! ## Definitions below the root -/

/-- The definitions below another one. -/
inductive Below (h : Hierarchy ι α) (d : ι) : ι → Prop
  | refl : Below h d d
  | child {x : ι} (hx : Below h d x) {child : Child ι} (hchild : child ∈ h.children x) {c : ι}
      (hc : child.definition = some c) : Below h d c

/-- What the traversal from the root has recorded. -/
structure Recorded (h : Hierarchy ι α) (plan : Collected ι α) (d : ι) : Prop where
  sites : (plan.sites d).length = h.laneSites d
  ascending : Ascending (plan.sites d)
  children : plan.children d = h.planned d

theorem collect_recorded [DecidableEq ι] [DecidableEq α] {h : Hierarchy ι α}
    {plan : Collected ι α} (hcollect : collect h (h.rank h.root + 1) h.root .empty = .ok plan)
    {d : ι} (hd : Below h h.root d) : Recorded h plan d := by
  have hempty : Traversed h [] (Collected.empty : Collected ι α) :=
    ⟨fun _ hmem => absurd hmem List.not_mem_nil, fun _ _ => rfl⟩
  have hvisited := collect_visited h _ (Nat.lt_succ_self _)
    (fun _ hmem => absurd hmem List.not_mem_nil) hempty hcollect
  have hdone : ∀ x ∈ plan.reached, Done h plan x := fun x hx =>
    hvisited.traversed.done x hx List.not_mem_nil
  have hreached : d ∈ plan.reached := by
    induction hd with
    | refl => exact hvisited.mem
    | child _ hchild hc ih => exact (hdone _ ih).reached _ hchild _ hc
  obtain ⟨⟨sites, hsites, hlength, hascending⟩, hchildren, -⟩ := hdone d hreached
  have heq : plan.sites d = sites := by rw [Collected.sites, hsites, Option.getD_some]
  exact ⟨heq ▸ hlength, heq ▸ hascending, hchildren⟩

end PyCircuit.HardwareEmit
