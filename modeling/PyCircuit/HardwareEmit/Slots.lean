import PyCircuit.HardwareEmit.Layout

/-!
# Slots and rows

The generated code computes a slot from the base of an occurrence, a lane and a site. The slots of a
hierarchy are the numbers below the width of the root, each the slot of one occurrence, lane and
site, and the row at a slot is the one of its occurrence, lane and site.
-/

set_option autoImplicit false

namespace PyCircuit.HardwareEmit

open PyCircuit.Lib

variable {ι α : Type}

/-! ## Lists of entries -/

theorem childPaths_length (d : ι) (index shape : Nat) (paths : List (InstancePath ι)) :
    (childPaths d index shape paths).length = paths.length * shape := by
  simp [childPaths, List.length_flatMap]

/-- The entries of the lanes of an occurrence. -/
theorem laneEntries_get {sites : List (Site α)} {paths : List (InstancePath ι)} {lane index : Nat}
    {path : InstancePath ι} {site : Site α} (hpath : paths[lane]? = some path)
    (hsite : sites[index]? = some site) :
    (paths.flatMap fun path => sites.map fun site => (site, path))[lane * sites.length + index]? =
      some (site, path) := by
  have hlane : lane ≤ paths.length := Nat.le_of_lt (List.getElem?_eq_some_iff.mp hpath).1
  have hindex : index < sites.length := (List.getElem?_eq_some_iff.mp hsite).1
  have hlengths : (paths.map fun path => sites.map fun site => (site, path)).map List.length =
      List.replicate paths.length sites.length := by
    simp [List.map_map, Function.comp_def]
  have hblock : (paths.map fun path => sites.map fun site => (site, path))[lane]? =
      some (sites.map fun site => (site, path)) := by
    rw [List.getElem?_map, hpath]
    rfl
  have hget := Blocks.getElem?_flatten hblock (k := index) (by rwa [List.length_map])
  rw [hlengths, Blocks.offset_replicate hlane] at hget
  rw [List.flatMap_def, hget, List.getElem?_map, hsite]
  rfl

theorem laneEntries_length (sites : List (Site α)) (paths : List (InstancePath ι)) :
    (paths.flatMap fun path => sites.map fun site => (site, path)).length =
      paths.length * sites.length := by
  simp [List.length_flatMap]

section Children

variable {recurse : ι → List (InstancePath ι) → List (Site α × InstancePath ι)} {d : ι}
  {paths : List (InstancePath ι)}

theorem entryChildren_get {list : List (PlannedChild ι)} :
    ∀ {start index : Nat} {child : PlannedChild ι}, list[index]? = some child →
      (entryChildren recurse d paths start list)[index]? =
        some (blockEntries recurse (childPaths d (start + index) child.shape paths)
          child.definition) := by
  induction list with
  | nil =>
    intro start index child h
    simp at h
  | cons first rest ih =>
    intro start index child h
    cases index with
    | zero =>
      obtain rfl : first = child := Option.some.inj h
      rfl
    | succ index =>
      rw [entryChildren, List.getElem?_cons_succ, ih (by simpa using h), Nat.add_assoc,
        Nat.add_comm 1 index]

theorem entryChildren_lengths {subtreeWidth : Option ι → Nat} (hnone : subtreeWidth none = 0)
    {list : List (PlannedChild ι)}
    (hrecurse : ∀ child ∈ list, ∀ c, child.definition = some c → ∀ paths : List (InstancePath ι),
      (recurse c paths).length = paths.length * subtreeWidth (some c)) :
    ∀ start : Nat, (entryChildren recurse d paths start list).map List.length =
      (list.map fun child => child.shape * subtreeWidth child.definition).map
        (paths.length * ·) := by
  induction list with
  | nil => exact fun _ => rfl
  | cons child rest ih =>
    intro start
    rw [entryChildren, List.map_cons, List.map_cons, List.map_cons,
      ih fun child' hmem => hrecurse child' (List.mem_cons_of_mem child hmem)]
    congr 1
    cases hdefinition : child.definition with
    | none =>
      rw [hnone]
      rfl
    | some c =>
      rw [blockEntries, hrecurse child List.mem_cons_self c hdefinition, childPaths_length,
        Nat.mul_assoc]

end Children

/-! ## What the plan records -/

/-- What the plan of a hierarchy records of the definitions below the root. -/
structure Planned (h : Hierarchy ι α) (plan : Plan ι α) : Prop where
  sites : ∀ d, Below h h.root d → (plan.collected.sites d).length = h.laneSites d
  widths : Widths h plan.subtreeWidth
  entries : plan.layout.occurrences.map Occurrence.entry =
    h.entries plan.collected.sites (h.rank h.root + 1) h.root [[]]
  tidy : Tidy plan.layout

/-- A plan that has the bases of all children that observe. -/
structure Handed [DecidableEq ι] (h : Hierarchy ι α) (plan : Plan ι α) : Prop
    extends Planned h plan where
  bases : ∀ d, Below h h.root d → plan.subtreeWidth (some d) ≠ 0 →
    ∀ index, index < (h.children d).length → plan.childBase d index =
      .ok (h.laneSites d + Blocks.offset (h.blockSizes plan.subtreeWidth d) index)

/-- The paths of the lanes of an occurrence. -/
def Hierarchy.pathsAt (h : Hierarchy ι α) :
    ι → List (InstancePath ι) → List Nat → List (InstancePath ι)
  | _, paths, [] => paths
  | d, paths, index :: rest =>
    match (h.children d)[index]? with
    | some ⟨some c, extents⟩ => h.pathsAt c (childPaths d index extents.prod paths) rest
    | _ => []

section Occurrences

variable {h : Hierarchy ι α} {plan : Plan ι α}

variable {found : Located ι} {index : Nat} {rest extents : List Nat} {c d : ι}

theorem pathsAt_of_child {paths : List (InstancePath ι)}
    (hchild : (h.children d)[index]? = some ⟨some c, extents⟩) :
    h.pathsAt d paths (index :: rest) =
      h.pathsAt c (childPaths d index extents.prod paths) rest := by
  rw [Hierarchy.pathsAt, hchild]

theorem planned_get {child : Child ι}
    (hchild : (h.children d)[index]? = some child) :
    (h.planned d)[index]? = some ⟨child.definition, child.extents.prod⟩ := by
  rw [Hierarchy.planned, List.getElem?_map, hchild]
  rfl

theorem blockSizes_get (subtreeWidth : Option ι → Nat) {child : Child ι}
    (hchild : (h.children d)[index]? = some child) :
    (h.blockSizes subtreeWidth d)[index]? =
      some (child.extents.prod * subtreeWidth child.definition) := by
  rw [Hierarchy.blockSizes, List.getElem?_map, planned_get hchild]
  rfl

theorem entries_children_lengths {sites : ι → List (Site α)} {subtreeWidth : Option ι → Nat}
    (hnone : subtreeWidth none = 0) {fuel : Nat} {paths : List (InstancePath ι)}
    (hlengths : ∀ child ∈ h.children d, ∀ c, child.definition = some c →
      ∀ {paths : List (InstancePath ι)},
        (h.entries sites fuel c paths).length = paths.length * subtreeWidth (some c)) :
    (entryChildren (h.entries sites fuel) d paths 0 (h.planned d)).map List.length =
      (h.blockSizes subtreeWidth d).map (paths.length * ·) := by
  refine entryChildren_lengths hnone (fun child hchild c hc paths => ?_) 0
  obtain ⟨child', hchild', rfl⟩ := List.mem_map.mp hchild
  exact hlengths child' hchild' c hc

section Entries

variable (hp : Planned h plan)
include hp

/-- The entries of an occurrence and of all below it. -/
theorem Planned.entries_length (fuel : Nat) :
    ∀ {d : ι} {paths : List (InstancePath ι)}, Below h h.root d → h.rank d < fuel →
      (h.entries plan.collected.sites fuel d paths).length =
        paths.length * plan.subtreeWidth (some d) := by
  induction fuel with
  | zero =>
    intro d paths _ hfuel
    cases hfuel
  | succ fuel ih =>
    intro d paths hd hfuel
    have hlengths : ∀ child ∈ h.children d, ∀ c, child.definition = some c →
        ∀ {paths : List (InstancePath ι)},
          (h.entries plan.collected.sites fuel c paths).length =
            paths.length * plan.subtreeWidth (some c) := fun child hchild c hc =>
      ih (hd.child hchild hc) (Nat.lt_of_lt_of_le (h.acyclic d child hchild c hc)
        (Nat.le_of_lt_succ hfuel))
    rw [Hierarchy.entries, List.length_append, laneEntries_length, hp.sites d hd,
      List.length_flatten, entries_children_lengths hp.widths.1 hlengths, hp.widths.2 d hd,
      Nat.mul_add, List.sum_map_mul_left, List.map_id']

theorem Planned.children_lengths {fuel : Nat} (hd : Below h h.root d)
    (hfuel : h.rank d ≤ fuel) (paths : List (InstancePath ι)) :
    (entryChildren (h.entries plan.collected.sites fuel) d paths 0 (h.planned d)).map List.length =
      (h.blockSizes plan.subtreeWidth d).map (paths.length * ·) :=
  entries_children_lengths hp.widths.1 fun child hchild c hc =>
    hp.entries_length fuel (hd.child hchild hc)
      (Nat.lt_of_lt_of_le (h.acyclic d child hchild c hc) hfuel)

end Entries

variable [DecidableEq ι]

/-- One step down to a child. -/
theorem locate_cons {here : Located ι}
    (hlocate : plan.locate h here (index :: rest) = some found) :
    ∃ c extents base, (h.children here.definition)[index]? = some ⟨some c, extents⟩ ∧
      plan.handedBase here index c = .ok base ∧
      plan.locate h ⟨c, here.lanes * extents.prod, base⟩ rest = some found := by
  rw [Plan.locate] at hlocate
  split at hlocate
  · next c extents hchild =>
    split at hlocate
    · next base hbase => exact ⟨c, extents, base, hchild, hbase, hlocate⟩
    · cases hlocate
  · cases hlocate

theorem locate_of_child {here : Located ι} {base : Nat}
    (hchild : (h.children here.definition)[index]? = some ⟨some c, extents⟩)
    (hbase : plan.handedBase here index c = .ok base) :
    plan.locate h here (index :: rest) =
      plan.locate h ⟨c, here.lanes * extents.prod, base⟩ rest := by
  simp only [Plan.locate, hchild, hbase]

variable (hp : Handed h plan)
include hp

/-- A child that no base is handed to has no entries. -/
theorem Handed.handedBase_cases (hd : Below h h.root d) (lanes base : Nat)
    (hchild : (h.children d)[index]? = some ⟨some c, extents⟩) :
    ∃ handed, plan.handedBase ⟨d, lanes, base⟩ index c = .ok handed ∧
      (handed = base + lanes * (h.laneSites d +
          Blocks.offset (h.blockSizes plan.subtreeWidth d) index) ∨
        extents.prod * plan.subtreeWidth (some c) = 0) := by
  obtain ⟨hindex, -⟩ := List.getElem?_eq_some_iff.mp hchild
  rw [Plan.handedBase]
  by_cases hhanded : plan.subtreeWidth (some d) ≠ 0 ∧ plan.subtreeWidth (some c) ≠ 0
  · rw [if_pos hhanded, hp.bases d hd hhanded.1 index hindex]
    exact ⟨_, rfl, .inl rfl⟩
  · refine ⟨0, if_neg hhanded, .inr ?_⟩
    have hblock := Blocks.offset_add_le (blockSizes_get plan.subtreeWidth hchild)
    have hwidth := hp.widths.2 d hd
    rw [not_and_or, not_ne_iff, not_ne_iff] at hhanded
    rcases hhanded with hzero | hzero
    · change _ + extents.prod * plan.subtreeWidth (some c) ≤ _ at hblock
      omega
    · rw [hzero, Nat.mul_zero]

theorem Handed.base_cases (hd : Below h h.root d) {lanes base handed : Nat}
    (hchild : (h.children d)[index]? = some ⟨some c, extents⟩)
    (hhanded : plan.handedBase ⟨d, lanes, base⟩ index c = .ok handed) :
    handed = base + lanes * (h.laneSites d +
        Blocks.offset (h.blockSizes plan.subtreeWidth d) index) ∨
      extents.prod * plan.subtreeWidth (some c) = 0 := by
  obtain ⟨handed', hhanded', hcases⟩ := hp.handedBase_cases hd lanes base hchild
  rw [hhanded] at hhanded'
  obtain rfl := Except.ok.inj hhanded'
  exact hcases

/-- The entry at the slot of a lane and a site. -/
theorem Handed.entry_at {occurrence : List Nat} :
    ∀ {d : ι} {paths : List (InstancePath ι)} {base fuel lane index : Nat} {found : Located ι},
      Below h h.root d → h.rank d < fuel →
      plan.locate h ⟨d, paths.length, base⟩ occurrence = some found → lane < found.lanes →
      index < h.laneSites found.definition →
      ∃ offset site path, plan.stageSlot found lane index = base + offset ∧
        (plan.collected.sites found.definition)[index]? = some site ∧
        (h.pathsAt d paths occurrence)[lane]? = some path ∧
        (h.entries plan.collected.sites fuel d paths)[offset]? = some (site, path) := by
  induction occurrence with
  | nil =>
    intro d paths base fuel lane index found hd hfuel hlocate hlane hindex
    obtain rfl := Option.some.inj hlocate
    cases fuel with
    | zero => cases hfuel
    | succ fuel =>
      have hpath : paths[lane]? = some paths[lane] := List.getElem?_eq_getElem hlane
      have hlength := hp.sites d hd
      have hsites : index < (plan.collected.sites d).length := hlength ▸ hindex
      have hsite : (plan.collected.sites d)[index]? = some (plan.collected.sites d)[index] :=
        List.getElem?_eq_getElem hsites
      have hget := laneEntries_get hpath hsite
      refine ⟨_, _, _, Nat.add_assoc .., hsite, hpath, ?_⟩
      rw [Hierarchy.entries, List.getElem?_append_left (List.getElem?_eq_some_iff.mp hget).1]
      exact hget
  | cons position rest ih =>
    intro d paths base fuel lane index found hd hfuel hlocate hlane hindex
    cases fuel with
    | zero => cases hfuel
    | succ fuel =>
      obtain ⟨c, extents, handed, hchild, hhanded, hlocate⟩ := locate_cons hlocate
      have hmem := List.mem_of_getElem? hchild
      have hrank : h.rank c < fuel :=
        Nat.lt_of_lt_of_le (h.acyclic d _ hmem c rfl) (Nat.le_of_lt_succ hfuel)
      have hc := hd.child hmem rfl
      rw [← childPaths_length d position] at hlocate
      obtain ⟨offset, site, path, hslot, hsite, hpath, hentry⟩ :=
        ih hc hrank hlocate hlane hindex
      have hbound := (List.getElem?_eq_some_iff.mp hentry).1
      rw [hp.entries_length fuel hc hrank, childPaths_length, Nat.mul_assoc] at hbound
      rcases hp.base_cases hd hchild hhanded with hbase | hzero
      · refine ⟨paths.length * (h.laneSites d +
          Blocks.offset (h.blockSizes plan.subtreeWidth d) position) + offset, site, path, ?_,
          hsite, ?_, ?_⟩
        · rw [hslot, hbase, Nat.add_assoc]
        · rw [pathsAt_of_child hchild]
          exact hpath
        · have hlengths := hp.children_lengths hd (Nat.le_of_lt_succ hfuel) paths
          have hblock : (entryChildren (h.entries plan.collected.sites fuel) d paths 0
              (h.planned d))[position]? =
                some (h.entries plan.collected.sites fuel c
                  (childPaths d (0 + position) extents.prod paths)) :=
            entryChildren_get (planned_get hchild)
          rw [Nat.zero_add] at hblock
          have hget := Blocks.getElem?_flatten hblock (List.getElem?_eq_some_iff.mp hentry).1
          have hlane : (paths.flatMap fun path => (plan.collected.sites d).map fun site =>
              (site, path)).length = paths.length * h.laneSites d := by
            rw [laneEntries_length, hp.sites d hd]
          rw [hlengths, Blocks.offset_map_mul] at hget
          rw [Hierarchy.entries, Nat.mul_add, Nat.add_assoc,
            List.getElem?_append_right (by rw [hlane]; exact Nat.le_add_right _ _), hlane,
            Nat.add_sub_cancel_left]
          exact hget.trans hentry
      · rw [hzero, Nat.mul_zero] at hbound
        cases hbound

/-- The slots of an occurrence and of all below it are in one block. -/
theorem Handed.slot_range {occurrence : List Nat} {lanes base lane : Nat}
    (hd : Below h h.root d)
    (hlocate : plan.locate h ⟨d, lanes, base⟩ occurrence = some found) (hlane : lane < found.lanes)
    (hindex : index < h.laneSites found.definition) :
    base ≤ plan.stageSlot found lane index ∧
      plan.stageSlot found lane index < base + lanes * plan.subtreeWidth (some d) := by
  have hlength : (List.replicate lanes ([] : InstancePath ι)).length = lanes :=
    List.length_replicate
  rw [← hlength] at hlocate
  obtain ⟨offset, _, _, hslot, -, -, hentry⟩ :=
    hp.entry_at hd (Nat.lt_succ_self _) hlocate hlane hindex
  have hbound := (List.getElem?_eq_some_iff.mp hentry).1
  rw [hp.entries_length _ hd (Nat.lt_succ_self _), hlength] at hbound
  omega

/-- The slots below a child are in the block of the child. -/
theorem Handed.child_range {lanes base handed position lane : Nat} (hd : Below h h.root d)
    (hchild : (h.children d)[position]? = some ⟨some c, extents⟩)
    (hhanded : plan.handedBase ⟨d, lanes, base⟩ position c = .ok handed)
    (hlocate : plan.locate h ⟨c, lanes * extents.prod, handed⟩ rest = some found)
    (hlane : lane < found.lanes) (hindex : index < h.laneSites found.definition) :
    base + lanes * h.laneSites d +
        lanes * Blocks.offset (h.blockSizes plan.subtreeWidth d) position ≤
      plan.stageSlot found lane index ∧
    plan.stageSlot found lane index < base + lanes * h.laneSites d +
      lanes * Blocks.offset (h.blockSizes plan.subtreeWidth d) position +
        lanes * (extents.prod * plan.subtreeWidth (some c)) := by
  have hmem := List.mem_of_getElem? hchild
  obtain ⟨hlow, hhigh⟩ := hp.slot_range (hd.child hmem rfl) hlocate hlane hindex
  rw [Nat.mul_assoc] at hhigh
  rcases hp.base_cases hd hchild hhanded with hbase | hzero
  · rw [hbase, Nat.mul_add] at hlow hhigh
    omega
  · rw [hzero] at hhigh
    omega

end Occurrences

end PyCircuit.HardwareEmit
