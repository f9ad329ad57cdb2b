import PyCircuit.HardwareEmit.Slots

/-!
# The slot layout is a bijection

For every acyclic hierarchy the plan either does not fit into the machine numbers, or its table is
strictly ordered. With fewer than forty-eight definitions the slots that the generated code computes
number the rows of the table: each row is the one of exactly one occurrence, lane and site. With
more, the table of the bases grows while references to it are in use, and the emitter may find a
child without a base.
-/

set_option autoImplicit false

namespace PyCircuit.HardwareEmit

open PyCircuit.Lib

variable {ι α : Type}

/-! ## The slots below an occurrence -/

section Occurrences

variable [DecidableEq ι] {h : Hierarchy ι α} {plan : Plan ι α} (hp : Handed h plan)
include hp

/-- No two sites share a slot. -/
theorem Handed.slot_injective {first : List Nat} :
    ∀ {second : List Nat} {d : ι} {lanes base lane lane' index index' : Nat}
      {found found' : Located ι}, Below h h.root d →
      plan.locate h ⟨d, lanes, base⟩ first = some found → lane < found.lanes →
      index < h.laneSites found.definition →
      plan.locate h ⟨d, lanes, base⟩ second = some found' → lane' < found'.lanes →
      index' < h.laneSites found'.definition →
      plan.stageSlot found lane index = plan.stageSlot found' lane' index' →
      first = second ∧ lane = lane' ∧ index = index' := by
  -- the sites of an occurrence come before the blocks of its children
  have hdisjoint : ∀ {d : ι} {lanes base lane lane' index index' position : Nat} {rest : List Nat}
      {found : Located ι}, Below h h.root d → lane < lanes → index < h.laneSites d →
      plan.locate h ⟨d, lanes, base⟩ (position :: rest) = some found → lane' < found.lanes →
      index' < h.laneSites found.definition →
      plan.stageSlot ⟨d, lanes, base⟩ lane index ≠ plan.stageSlot found lane' index' := by
    intro d lanes base lane lane' index index' position rest found hd hlane hindex hlocate hlane'
      hindex' heq
    obtain ⟨c, extents, handed, hchild, hhanded, hlocate⟩ := locate_cons hlocate
    have hrange := (hp.child_range hd hchild hhanded hlocate hlane' hindex').1
    have hown := Blocks.strided_lt hlane hindex
    rw [← heq, Plan.stageSlot, hp.sites d hd] at hrange
    dsimp only at hrange
    omega
  induction first with
  | nil =>
    intro second d lanes base lane lane' index index' found found' hd hfirst hlane hindex hsecond
      hlane' hindex' heq
    obtain rfl := Option.some.inj hfirst
    cases second with
    | nil =>
      obtain rfl := Option.some.inj hsecond
      rw [Plan.stageSlot, Plan.stageSlot, hp.sites d hd, Nat.add_assoc, Nat.add_assoc] at heq
      exact ⟨rfl, Blocks.strided_injective hindex hindex' (Nat.add_left_cancel heq)⟩
    | cons position rest =>
      exact absurd heq (hdisjoint hd hlane hindex hsecond hlane' hindex')
  | cons position rest ih =>
    intro second d lanes base lane lane' index index' found found' hd hfirst hlane hindex hsecond
      hlane' hindex' heq
    cases second with
    | nil =>
      obtain rfl := Option.some.inj hsecond
      exact absurd heq.symm (hdisjoint hd hlane' hindex' hfirst hlane hindex)
    | cons position' rest' =>
      obtain ⟨c, extents, handed, hchild, hhanded, hfirst⟩ := locate_cons hfirst
      obtain ⟨c', extents', handed', hchild', hhanded', hsecond⟩ := locate_cons hsecond
      have hrange := hp.child_range hd hchild hhanded hfirst hlane hindex
      have hrange' := hp.child_range hd hchild' hhanded' hsecond hlane' hindex'
      rw [← heq] at hrange'
      -- a slot is in one block only
      have hsame : position = position' := by
        have hsize : ∀ {position : Nat} {c : ι} {extents : List Nat},
            (h.children d)[position]? = some ⟨some c, extents⟩ →
            ((h.blockSizes plan.subtreeWidth d).map (lanes * ·))[position]? =
              some (lanes * (extents.prod * plan.subtreeWidth (some c))) := by
          intro position c extents hchild
          rw [List.getElem?_map, blockSizes_get _ hchild]
          rfl
        refine Blocks.block_unique (hsize hchild) (hsize hchild')
          (k := plan.stageSlot found lane index - (base + lanes * h.laneSites d)) ?_ ?_ ?_ ?_
        all_goals
          rw [Blocks.offset_map_mul]
          omega
      subst hsame
      rw [hchild] at hchild'
      cases hchild'
      obtain rfl := Except.ok.inj (hhanded.symm.trans hhanded')
      have hmem := List.mem_of_getElem? hchild
      obtain ⟨hrest, hsites⟩ :=
        ih (hd.child hmem rfl) hfirst hlane hindex hsecond hlane' hindex' heq
      exact ⟨by rw [hrest], hsites⟩

/-- Every number of the block is a slot. -/
theorem Handed.slot_surjective (fuel : Nat) :
    ∀ {d : ι} {lanes base offset : Nat}, Below h h.root d → h.rank d < fuel →
      offset < lanes * plan.subtreeWidth (some d) →
      ∃ occurrence found lane index, plan.locate h ⟨d, lanes, base⟩ occurrence = some found ∧
        lane < found.lanes ∧ index < h.laneSites found.definition ∧
        plan.stageSlot found lane index = base + offset := by
  induction fuel with
  | zero =>
    intro d lanes base offset _ hfuel
    cases hfuel
  | succ fuel ih =>
    intro d lanes base offset hd hfuel hoffset
    rw [hp.widths.2 d hd, Nat.mul_add] at hoffset
    by_cases hown : offset < lanes * h.laneSites d
    · have hpos : 0 < h.laneSites d := by
        rcases Nat.eq_zero_or_pos (h.laneSites d) with hzero | hpos
        · rw [hzero, Nat.mul_zero] at hown
          cases hown
        · exact hpos
      refine ⟨[], _, offset / h.laneSites d, offset % h.laneSites d, rfl, ?_,
        Nat.mod_lt _ hpos, ?_⟩
      · exact Nat.div_lt_of_lt_mul (by rwa [Nat.mul_comm])
      · rw [Plan.stageSlot, hp.sites d hd, Nat.add_assoc, Nat.mul_comm, Nat.div_add_mod]
    · have hbelow : offset - lanes * h.laneSites d <
          ((h.blockSizes plan.subtreeWidth d).map (lanes * ·)).sum := by
        rw [List.sum_map_mul_left, List.map_id']
        omega
      obtain ⟨position, size, hsize, hlow, hhigh⟩ := Blocks.exists_block hbelow
      rw [Blocks.offset_map_mul] at hlow hhigh
      have hposition : position < (h.children d).length := by
        have hlt := (List.getElem?_eq_some_iff.mp hsize).1
        rwa [List.length_map, Hierarchy.blockSizes, List.length_map, Hierarchy.planned,
          List.length_map] at hlt
      obtain ⟨child, hchild⟩ : ∃ child, (h.children d)[position]? = some child :=
        ⟨_, List.getElem?_eq_getElem hposition⟩
      rw [List.getElem?_map, blockSizes_get _ hchild] at hsize
      obtain rfl := Option.some.inj hsize
      obtain ⟨definition, extents⟩ := child
      dsimp only at hhigh
      cases definition with
      | none =>
        rw [hp.widths.1, Nat.mul_zero, Nat.mul_zero] at hhigh
        omega
      | some c =>
        have hmem := List.mem_of_getElem? hchild
        have hrank := h.acyclic d _ hmem c rfl
        obtain ⟨handed, hhanded, hcases⟩ := hp.handedBase_cases hd lanes base hchild
        have hbase : handed = base + lanes * (h.laneSites d +
            Blocks.offset (h.blockSizes plan.subtreeWidth d) position) := by
          rcases hcases with hbase | hzero
          · exact hbase
          · rw [hzero] at hhigh
            omega
        rw [← Nat.mul_assoc] at hhigh
        obtain ⟨occurrence, found, lane, index, hlocate, hlane, hindex, hslot⟩ :=
          @ih c (lanes * extents.prod) handed (offset - lanes * h.laneSites d -
            lanes * Blocks.offset (h.blockSizes plan.subtreeWidth d) position) (hd.child hmem rfl)
              (by omega) (by omega)
        refine ⟨position :: occurrence, found, lane, index, ?_, hlane, hindex, ?_⟩
        · rw [locate_of_child hchild hhanded]
          exact hlocate
        · rw [hslot, hbase, Nat.mul_add]
          omega

end Occurrences

/-! ## Rejections -/

open Fallible (FailsWith)

/-- The numbers of the plan exceed the machine numbers. -/
def Rejection.TooLarge (e : Rejection) : Prop :=
  e = .laneCount ∨ e = .descriptorCount ∨ e = .ordinal

theorem shapeSize_fails (extents : List Nat) :
    FailsWith Rejection.TooLarge (shapeSize extents) := by
  suffices hfold : ∀ start, FailsWith Rejection.TooLarge (extents.foldlM extend start) from hfold 1
  induction extents with
  | nil => exact fun start => .ok _ start
  | cons extent rest ih =>
    intro start
    rw [List.foldlM_cons]
    refine .bind ?_ fun next _ => ih next
    rw [extend]
    split_ifs
    · exact .error (.inl rfl)
    · exact .ok _ _

theorem widthChildren_fails {recurse : ι → Except Rejection Nat} {list : List (PlannedChild ι)}
    (hrecurse : ∀ child ∈ list, ∀ c, child.definition = some c →
      FailsWith Rejection.TooLarge (recurse c)) :
    ∀ total, FailsWith Rejection.TooLarge (widthChildren recurse list total) := by
  induction list with
  | nil => exact fun total => .ok _ total
  | cons child rest ih =>
    intro total
    have hrest := ih (List.forall_mem_cons.mp hrecurse).2
    refine .bind ?_ fun nested _ => ?_
    · cases hdefinition : child.definition with
      | none => exact .ok _ 0
      | some c => exact hrecurse child List.mem_cons_self c hdefinition
    · split_ifs
      · exact .error (.inr (.inl rfl))
      · exact .error (.inr (.inl rfl))
      · exact hrest _

theorem layoutLanes_fails {sites : List (Site α)} {paths : List (InstancePath ι)} :
    ∀ state : Layout ι α, FailsWith Rejection.TooLarge (layoutLanes sites paths state) := by
  have hsites : ∀ path (state : Layout ι α),
      FailsWith Rejection.TooLarge (layoutSites path sites state) := by
    intro path
    induction sites with
    | nil => exact fun state => .ok _ state
    | cons site rest ih =>
      intro state
      rw [layoutSites]
      by_cases hfull : max32 ≤ state.table.length
      · rw [if_pos hfull]
        exact .error (.inr (.inr rfl))
      · rw [if_neg hfull]
        exact ih _
  induction paths with
  | nil => exact fun state => .ok _ state
  | cons path rest ih => exact fun state => .bind (hsites path state) fun _ _ => ih _

section Traversals

variable [DecidableEq ι] {h : Hierarchy ι α}

theorem collectChildren_fails {recurse : ι → Collected ι α → Except Rejection (Collected ι α)}
    {d : ι} {list : List (Child ι)}
    (hrecurse : ∀ child ∈ list, ∀ c, child.definition = some c → ∀ plan,
      FailsWith Rejection.TooLarge (recurse c plan)) :
    ∀ plan, FailsWith Rejection.TooLarge (collectChildren recurse d list plan) := by
  induction list with
  | nil => exact fun plan => .ok _ plan
  | cons child rest ih =>
    intro plan
    have hrest := ih (List.forall_mem_cons.mp hrecurse).2
    refine .bind (shapeSize_fails _) fun shape _ => ?_
    cases hdefinition : child.definition with
    | none => exact hrest _
    | some c => exact .bind (hrecurse child List.mem_cons_self c hdefinition _) fun _ _ => hrest _

theorem collect_fails [DecidableEq α] (fuel : Nat) :
    ∀ {d : ι} (plan : Collected ι α), h.rank d < fuel →
      FailsWith Rejection.TooLarge (collect h fuel d plan) := by
  induction fuel with
  | zero =>
    intro d plan hfuel
    cases hfuel
  | succ fuel ih =>
    intro d plan hfuel
    rw [collect]
    split_ifs
    · exact .ok _ plan
    · refine collectChildren_fails (fun child hchild c hc plan => ?_) _
      have hrank := h.acyclic d child hchild c hc
      exact ih plan (by omega)

theorem layoutChildren_fails {subtreeWidth : Option ι → Nat}
    {recurse : ι → List (InstancePath ι) → Layout ι α → Except Rejection (Layout ι α)} {d : ι}
    {paths : List (InstancePath ι)} {bases : Nat} {list : List (PlannedChild ι)}
    (hrecurse : ∀ child ∈ list, ∀ c, child.definition = some c → ∀ paths state,
      FailsWith Rejection.TooLarge (recurse c paths state)) :
    ∀ index units state, FailsWith Rejection.TooLarge
      (layoutChildren subtreeWidth recurse d paths bases index list units state) := by
  induction list with
  | nil => exact fun _ _ state => .ok _ state
  | cons child rest ih =>
    intro index units state
    have hrest := ih (List.forall_mem_cons.mp hrecurse).2
    rw [layoutChildren]
    split_ifs
    · exact .error (.inr (.inl rfl))
    · refine .bind ?_ fun _ _ => hrest _ _ _
      cases hdefinition : child.definition with
      | none => exact .ok _ _
      | some c => exact hrecurse child List.mem_cons_self c hdefinition _ _

/-- The recursions over a recorded hierarchy end. -/
theorem width_layout_fails {plan : Collected ι α} (subtreeWidth : Option ι → Nat)
    (hrecorded : ∀ d, Below h h.root d → Recorded h plan d) (fuel : Nat) :
    ∀ {d : ι}, Below h h.root d → h.rank d < fuel →
      FailsWith Rejection.TooLarge (width plan fuel d) ∧
        ∀ paths state, FailsWith Rejection.TooLarge
          (layout plan subtreeWidth fuel d paths state) := by
  induction fuel with
  | zero =>
    intro d _ hfuel
    cases hfuel
  | succ fuel ih =>
    intro d hd hfuel
    have hchildren : ∀ child ∈ plan.children d, ∀ c, child.definition = some c →
        FailsWith Rejection.TooLarge (width plan fuel c) ∧
          ∀ paths state, FailsWith Rejection.TooLarge
            (layout plan subtreeWidth fuel c paths state) := by
      intro child hchild c hc
      rw [(hrecorded d hd).children] at hchild
      obtain ⟨child', hchild', rfl⟩ := List.mem_map.mp hchild
      have hrank := h.acyclic d child' hchild' c hc
      exact ih (hd.child hchild' hc) (by omega)
    constructor
    · exact widthChildren_fails (fun child hchild c hc => (hchildren child hchild c hc).1) _
    · intro paths state
      exact .bind (layoutLanes_fails state) fun _ _ =>
        layoutChildren_fails (fun child hchild c hc => (hchildren child hchild c hc).2) _ _ _

end Traversals

/-- The last check accepts every table that the layout makes. -/
theorem checkOrder_tidy {state : Layout ι α} (htidy : Tidy state) :
    checkOrder state.table = .ok () := by
  have hdistinct : state.table.Pairwise fun a b => a.ordinal ≠ b.ordinal := by
    have hnodup : (state.table.map fun row => row.ordinal).Nodup := by
      rw [htidy.ordinals]
      exact List.nodup_range
    exact List.pairwise_map.mp hnodup
  have hsorted := htidy.sorted
  generalize state.table = table at hdistinct hsorted
  induction table with
  | nil => rfl
  | cons previous rest ih =>
    obtain ⟨hlt, hsorted⟩ := List.pairwise_cons.mp hsorted
    obtain ⟨hne, hdistinct⟩ := List.pairwise_cons.mp hdistinct
    cases rest with
    | nil => rfl
    | cons current rest =>
      rw [checkOrder, if_neg (not_not_intro (hlt current List.mem_cons_self)),
        if_neg (hne current List.mem_cons_self)]
      exact ih hdistinct hsorted

/-! ## The plan -/

theorem tidy_empty : Tidy (Layout.empty : Layout ι α) :=
  ⟨rfl, rfl, .nil, fun _ hmem => absurd hmem List.not_mem_nil⟩

theorem entries_of_no_sites (h : Hierarchy ι α) (fuel : Nat) :
    ∀ (d : ι) (paths : List (InstancePath ι)), h.entries (fun _ => []) fuel d paths = [] := by
  induction fuel with
  | zero => exact fun _ _ => rfl
  | succ fuel ih =>
    intro d paths
    have hblocks : ∀ (list : List (PlannedChild ι)) (start : Nat),
        (entryChildren (h.entries (fun _ => []) fuel) d paths start list).flatten = [] := by
      intro list
      induction list with
      | nil => exact fun _ => rfl
      | cons child rest ihRest =>
        intro start
        rw [entryChildren, List.flatten_cons, ihRest, List.append_nil]
        cases child.definition with
        | none => rfl
        | some c => exact ih c _
    rw [Hierarchy.entries, hblocks, List.append_nil]
    exact List.flatMap_eq_nil_iff.mpr fun _ _ => rfl

/-- Without observations nothing has a width. -/
theorem planned_of_no_observations {h : Hierarchy ι α} (hnone : h.hasObservations = false) :
    Planned h ⟨.empty, fun _ => 0, .empty⟩ := by
  have hmem : ∀ d, Below h h.root d → d ∈ h.definitions := by
    intro d hd
    induction hd with
    | refl => exact h.root_mem
    | child _ hchild hc ih => exact h.children_mem _ ih _ hchild _ hc
  have hsites : ∀ d, Below h h.root d → h.laneSites d = 0 := by
    intro d hd
    have hempty := List.any_eq_false.mp hnone d (hmem d hd)
    rw [Bool.not_eq_true, Bool.not_eq_false', List.isEmpty_iff] at hempty
    rw [Hierarchy.laneSites, hempty]
    rfl
  have hblocks : ∀ d, h.blockSizes (fun _ => 0) d = List.replicate (h.planned d).length 0 :=
    fun d => List.map_const' ..
  have hwidths : Widths h fun _ => 0 := by
    refine ⟨rfl, fun d hd => ?_⟩
    rw [hsites d hd, hblocks]
    simp
  exact ⟨fun d hd => (hsites d hd).symm, hwidths, (entries_of_no_sites h _ _ _).symm, tidy_empty⟩

section Build

variable [DecidableEq ι]

/-- The bases that the layout of the root has recorded. -/
theorem childBase_of_based {h : Hierarchy ι α} {plan : Plan ι α} {before : DenseMap ι (List Nat)}
    (hempty : ∀ d, before.value d = [])
    (hbased : Based h plan.subtreeWidth h.root before plan.layout.childBaseUnits) {d : ι}
    (hd : Below h h.root d) {index : Nat} (hindex : index < (h.children d).length) :
    plan.childBase d index =
      .ok (h.laneSites d + Blocks.offset (h.blockSizes plan.subtreeWidth d) index) := by
  obtain ⟨n, hrepeats, -, hrecorded⟩ := hbased.repeats d
  obtain ⟨hpositive, hmem⟩ := hrecorded hd
  obtain ⟨m, rfl⟩ := Nat.exists_eq_add_of_le hpositive
  have hget := unitsList_get plan.subtreeWidth hindex
  have hlt := (List.getElem?_eq_some_iff.mp hget).1
  rw [Repeats, hempty, List.nil_append, Nat.add_comm 1 m, List.replicate_succ,
    List.flatten_cons] at hrepeats
  have hfound : (plan.layout.childBaseUnits.find? d).bind (·[index]?) =
      some (h.laneSites d + Blocks.offset (h.blockSizes plan.subtreeWidth d) index) := by
    rw [DenseMap.find?, if_pos hmem, Option.bind_some, hrepeats, List.getElem?_append_left hlt,
      hget]
  rw [Plan.childBase, hfound]

variable [DecidableEq α]

theorem buildObservationPlan_planned {h : Hierarchy ι α} {plan : Plan ι α}
    (hbuild : buildObservationPlan h = .ok plan) :
    Planned h plan ∧ ({d | Below h h.root d}.encard < 48 → Handed h plan) := by
  rw [buildObservationPlan] at hbuild
  cases hobserves : h.hasObservations with
  | false =>
    rw [hobserves] at hbuild
    obtain rfl := Except.ok.inj hbuild
    have hplanned := planned_of_no_observations hobserves
    exact ⟨hplanned, fun _ => ⟨hplanned, fun d _ hwidth => absurd rfl hwidth⟩⟩
  | true =>
    rw [hobserves] at hbuild
    obtain ⟨collected, hcollect, hbuild⟩ := Fallible.bind_eq_ok.mp hbuild
    obtain ⟨total, hwidth, hbuild⟩ := Fallible.bind_eq_ok.mp hbuild
    obtain ⟨state, hlayout, hbuild⟩ := Fallible.bind_eq_ok.mp hbuild
    obtain ⟨_, -, hbuild⟩ := Fallible.bind_eq_ok.mp hbuild
    obtain rfl := Except.ok.inj hbuild
    have hrecorded : ∀ d, Below h h.root d → Recorded h collected d := fun d hd =>
      collect_recorded hcollect hd
    have hlaid := layout_spec hrecorded _ .refl tidy_empty hlayout
    have hplanned : Planned h ⟨collected, subtreeWidths collected (h.rank h.root + 1), state⟩ :=
      ⟨fun d hd => (hrecorded d hd).sites, subtreeWidths_spec hrecorded hwidth, hlaid.entries,
        hlaid.tidy⟩
    refine ⟨hplanned, fun hfew => ⟨hplanned, fun d hd _ index hindex => ?_⟩⟩
    exact childBase_of_based (fun _ => rfl) (hlaid.bases hfew (DenseMap.steady_empty _ _)) hd hindex

/-- A plan is only rejected for its size. -/
theorem buildObservationPlan_fails (h : Hierarchy ι α) :
    FailsWith Rejection.TooLarge (buildObservationPlan h) := by
  rw [buildObservationPlan]
  split_ifs
  · exact .ok _ _
  refine .bind (collect_fails _ _ (Nat.lt_succ_self _)) fun collected hcollect => ?_
  have hrecorded : ∀ d, Below h h.root d → Recorded h collected d := fun d hd =>
    collect_recorded hcollect hd
  have hends := fun subtreeWidth =>
    width_layout_fails subtreeWidth hrecorded _ .refl (Nat.lt_succ_self _)
  refine .bind (hends fun _ => 0).1 fun _ _ => .bind ((hends _).2 _ _) fun state hlayout => ?_
  have hlaid := layout_spec hrecorded _ .refl tidy_empty hlayout
  exact .bind (checkOrder_tidy hlaid.tidy ▸ .ok _ ()) fun _ _ => .ok _ _

end Build

/-! ## Slots of the root -/

section Root

variable [DecidableEq ι]

/-- A site of a lane of an occurrence. -/
structure Triple where
  occurrence : List Nat
  lane : Nat
  site : Nat
  deriving DecidableEq, Repr

/-- The occurrence of a triple, from the root on. -/
def Plan.occurrence (plan : Plan ι α) (h : Hierarchy ι α) (t : Triple) : Option (Located ι) :=
  plan.locate h ⟨h.root, 1, 0⟩ t.occurrence

/-- The triples of a hierarchy. -/
def Plan.triples (plan : Plan ι α) (h : Hierarchy ι α) : Set Triple :=
  {t | ∃ found, plan.occurrence h t = some found ∧ t.lane < found.lanes ∧
    t.site < h.laneSites found.definition}

/-- The slot that the generated code computes for a triple. -/
def Plan.slot (plan : Plan ι α) (h : Hierarchy ι α) (t : Triple) : Nat :=
  match plan.occurrence h t with
  | some found => plan.stageSlot found t.lane t.site
  | none => 0

theorem slot_of_occurrence {plan : Plan ι α} {h : Hierarchy ι α} {t : Triple} {found : Located ι}
    (hfound : plan.occurrence h t = some found) :
    plan.slot h t = plan.stageSlot found t.lane t.site := by
  rw [Plan.slot, hfound]

/-- What is at the slot of a triple: its site, on the path of its lane, with the slot as ordinal. -/
structure RowAt (h : Hierarchy ι α) (plan : Plan ι α) (t : Triple) (slot : Nat) (site : Site α)
    (path : InstancePath ι) (row : Row) : Prop where
  site_eq : ∃ found, plan.occurrence h t = some found ∧
    (plan.collected.sites found.definition)[t.site]? = some site
  path_eq : (h.pathsAt h.root [[]] t.occurrence)[t.lane]? = some path
  occurrence_eq : plan.layout.occurrences[slot]? = some ⟨site, slot, path⟩
  row_eq : plan.layout.table[slot]? = some row
  core_eq : row.core = (slot, site.registrationKey, site.siteKey, site.gauge)

variable {h : Hierarchy ι α} {plan : Plan ι α}

section Table

variable (hp : Planned h plan)
include hp
omit [DecidableEq ι]

theorem Planned.table_length :
    plan.layout.table.length = plan.subtreeWidth (some h.root) := by
  have hrows := congrArg List.length hp.tidy.rows
  have hentries := congrArg List.length hp.entries
  rw [List.length_map, List.length_map] at hrows
  rw [List.length_map, hp.entries_length _ .refl (Nat.lt_succ_self _), List.length_singleton,
    Nat.one_mul] at hentries
  exact hrows.trans hentries

/-- An ordinal is the index of its row. -/
theorem Planned.ordinal_eq {slot : Nat} {row : Row} (hrow : plan.layout.table[slot]? = some row) :
    row.ordinal = slot := by
  have hget := congrArg (·[slot]?) hp.tidy.ordinals
  have hlt := (List.getElem?_eq_some_iff.mp hrow).1
  simpa [List.getElem?_map, hrow, List.getElem?_range hlt] using hget

end Table

variable (hp : Handed h plan)
include hp

theorem Handed.slot_bijOn :
    Set.BijOn (plan.slot h) (plan.triples h) (Set.Iio (plan.subtreeWidth (some h.root))) := by
  refine ⟨?_, ?_, ?_⟩
  · rintro t ⟨found, hfound, hlane, hsite⟩
    rw [slot_of_occurrence hfound]
    have hrange := (hp.slot_range .refl hfound hlane hsite).2
    rwa [Nat.zero_add, Nat.one_mul] at hrange
  · rintro ⟨occurrence, lane, site⟩ ⟨found, hfound, hlane, hsite⟩ ⟨occurrence', lane', site'⟩
      ⟨found', hfound', hlane', hsite'⟩ heq
    rw [slot_of_occurrence hfound, slot_of_occurrence hfound'] at heq
    obtain ⟨rfl, rfl, rfl⟩ :=
      hp.slot_injective .refl hfound hlane hsite hfound' hlane' hsite' heq
    rfl
  · intro slot hslot
    obtain ⟨occurrence, found, lane, site, hfound, hlane, hsite, heq⟩ :
        ∃ occurrence found lane site, plan.locate h ⟨h.root, 1, 0⟩ occurrence = some found ∧
          lane < found.lanes ∧ site < h.laneSites found.definition ∧
          plan.stageSlot found lane site = 0 + slot :=
      hp.slot_surjective _ .refl (Nat.lt_succ_self _) (by rwa [Nat.one_mul])
    refine ⟨⟨occurrence, lane, site⟩, ⟨found, hfound, hlane, hsite⟩, ?_⟩
    rw [slot_of_occurrence (t := ⟨occurrence, lane, site⟩) hfound]
    exact heq.trans (Nat.zero_add slot)

theorem Handed.row_at {t : Triple} (ht : t ∈ plan.triples h) :
    ∃ site path row, RowAt h plan t (plan.slot h t) site path row := by
  obtain ⟨found, hfound, hlane, hsite⟩ := ht
  have hlocate : plan.locate h ⟨h.root, ([[]] : List (InstancePath ι)).length, 0⟩ t.occurrence =
      some found := hfound
  obtain ⟨offset, site, path, hslot, hget, hpath, hentry⟩ :=
    hp.entry_at .refl (Nat.lt_succ_self _) hlocate hlane hsite
  rw [Nat.zero_add, ← slot_of_occurrence hfound] at hslot
  rw [← hp.entries, ← hslot, List.getElem?_map, Option.map_eq_some_iff] at hentry
  obtain ⟨occurrence, hoccurrence, hentry⟩ := hentry
  have hcores := congrArg (·[plan.slot h t]?) hp.tidy.rows
  rw [List.getElem?_map, List.getElem?_map, hoccurrence, Option.map_some,
    Option.map_eq_some_iff] at hcores
  obtain ⟨row, hrow, hcore⟩ := hcores
  have hordinal := hp.ordinal_eq hrow
  obtain ⟨site', ordinal, path'⟩ := occurrence
  obtain ⟨rfl, rfl⟩ := Prod.mk.inj hentry
  obtain ⟨rfl, -⟩ := Prod.mk.inj hcore
  rw [hordinal] at hoccurrence hcore
  exact ⟨site', path', row, ⟨found, hfound, hget⟩, hpath, hoccurrence, hrow, hcore⟩

end Root

/-- A root with one site and two occurrences of a definition, one of them with two lanes. -/
def sharedPair : Hierarchy Bool Nat where
  definitions := [true, false]
  root := true
  observes := fun d => if d then [⟨0, 0, 0, 1, false⟩] else [⟨1, 0, 1, 0, true⟩]
  children := fun d => if d then [⟨some false, [2]⟩, ⟨some false, []⟩] else []
  rank := fun d => if d then 1 else 0
  root_mem := by decide
  children_mem := by decide
  acyclic := by decide

/-- A root with forty-eight children, each of a definition of its own with one site. -/
def wide : Hierarchy Nat Nat where
  definitions := List.range 49
  root := 0
  observes := fun d => if d = 0 then [] else [⟨0, 0, 0, 1, false⟩]
  children := fun d => if d = 0 then (List.range 48).map fun i => ⟨some (i + 1), []⟩ else []
  rank := fun d => if d = 0 then 1 else 0
  root_mem := by decide
  children_mem := by
    intro d _ child hchild c hc
    split_ifs at hchild
    · obtain ⟨i, hi, rfl⟩ := List.mem_map.mp hchild
      obtain rfl := Option.some.inj hc
      exact List.mem_range.mpr (Nat.succ_lt_succ (List.mem_range.mp hi))
    · cases hchild
  acyclic := by
    intro d child hchild c hc
    split_ifs at hchild with hd
    · obtain ⟨i, -, rfl⟩ := List.mem_map.mp hchild
      obtain rfl := Option.some.inj hc
      simp [hd]
    · cases hchild

end PyCircuit.HardwareEmit
