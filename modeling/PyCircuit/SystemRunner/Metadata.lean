import PyCircuit.Simulation.Exactness
import PyCircuit.SystemRunner.Runner

/-!
# What matching metadata say

The ordinals of an inventory are distinct, so the first loop of `metadataMatches` puts at the place
of a descriptor the one entry that a search for its ordinal finds. The second loop then compares
whole groups of these entries.
-/

set_option autoImplicit false

namespace PyCircuit.SystemRunner

open PyCircuit.Simulation PyCircuit.SimExecutor

/-! ## The ordinals of an inventory -/

/-- No ordinal comes twice. -/
def Distinct (descriptors : List ObservationDescriptor) : Prop :=
  descriptors.Pairwise fun a b => a.stableOrdinal ≠ b.stableOrdinal

variable {descriptors : List ObservationDescriptor}

theorem inventoryValid_distinct {previous : List ObservationDescriptor}
    (h : ObservationSlots.inventoryValid previous descriptors = true) :
    Distinct descriptors ∧
      ∀ other ∈ previous, ∀ d ∈ descriptors, other.stableOrdinal ≠ d.stableOrdinal := by
  induction descriptors generalizing previous with
  | nil => exact ⟨.nil, fun _ _ _ => nofun⟩
  | cons d rest ih =>
    simp only [ObservationSlots.inventoryValid, Bool.and_eq_true, List.all_eq_true,
      bne_iff_ne] at h
    obtain ⟨⟨-, hprevious⟩, hrest⟩ := h
    obtain ⟨hdistinct, hothers⟩ := ih hrest
    refine ⟨List.pairwise_cons.mpr ⟨hothers d List.mem_cons_self, hdistinct⟩, ?_⟩
    intro other hother
    exact List.forall_mem_cons.mpr
      ⟨hprevious other hother, hothers other (List.mem_cons_of_mem d hother)⟩

namespace Distinct

variable {descriptors : List ObservationDescriptor}

theorem index_eq (h : Distinct descriptors) {i j : Nat} {a b : ObservationDescriptor}
    (ha : descriptors[i]? = some a) (hb : descriptors[j]? = some b)
    (heq : a.stableOrdinal = b.stableOrdinal) : i = j := by
  obtain ⟨hi, rfl⟩ := List.getElem?_eq_some_iff.mp ha
  obtain ⟨hj, rfl⟩ := List.getElem?_eq_some_iff.mp hb
  have hpairwise := List.pairwise_iff_getElem.mp h
  rcases Nat.lt_trichotomy i j with hlt | heq' | hlt
  · exact absurd heq (hpairwise i j hi hj hlt)
  · exact heq'
  · exact absurd heq.symm (hpairwise j i hj hi hlt)

/-- The search for the ordinal of a descriptor ends at the descriptor. -/
theorem descriptorOrder_eq (h : Distinct descriptors) {i : Nat} {d : ObservationDescriptor}
    (hd : descriptors[i]? = some d) : descriptorOrder descriptors d.stableOrdinal = i := by
  obtain ⟨hlt, hget⟩ := List.getElem?_eq_some_iff.mp hd
  rw [descriptorOrder, List.findIdx_eq hlt]
  refine ⟨by simp [hget], ?_⟩
  intro j hj
  have hjlt : j < descriptors.length := Nat.lt_trans hj hlt
  refine decide_eq_false fun heq => ?_
  have := h.index_eq (List.getElem?_eq_getElem hjlt) hd heq
  omega

end Distinct

/-! ## The first loop -/

/-- The first loop after some of the entries. -/
structure Placed (descriptors : List ObservationDescriptor) (entries : List RunnerObservation)
    (placement : Placement) : Prop where
  ordered : placement.ordered =
    descriptors.map fun d => findMetadata entries d.stableOrdinal
  checked : ∀ entry ∈ entries, ∃ d ∈ descriptors, d.stableOrdinal = entry.stableOrdinal ∧
    entryMatches d entry = true

theorem placed_initial (descriptors : List ObservationDescriptor) :
    Placed descriptors [] ⟨List.replicate descriptors.length none, []⟩ := by
  refine ⟨?_, fun _ => nofun⟩
  rw [show (fun d : ObservationDescriptor => findMetadata [] d.stableOrdinal) =
    fun _ => none from rfl, List.map_const']

/-- What a round that goes on has found. -/
theorem placeEntry_accepted {placement next : Placement}
    {entry : RunnerObservation} (h : placeEntry descriptors placement entry = some next) :
    ∃ d, descriptors[descriptorOrder descriptors entry.stableOrdinal]? = some d ∧
      placement.ordered[descriptorOrder descriptors entry.stableOrdinal]?.join = none ∧
      entryMatches d entry = true ∧
      next.ordered = placement.ordered.set (descriptorOrder descriptors entry.stableOrdinal)
        (some entry) := by
  rw [placeEntry] at h
  by_cases hempty : (entry.instanceName = "" || entry.registration = "" || entry.site = "" ||
      entry.specJson = "") = true
  · rw [if_pos hempty] at h
    cases h
  · rw [if_neg hempty] at h
    dsimp only at h
    cases hd : descriptors[descriptorOrder descriptors entry.stableOrdinal]? with
    | none =>
      rw [hd] at h
      cases h
    | some d =>
      rw [hd] at h
      dsimp only at h
      split_ifs at h with hseen hmatches hreport
      · cases h
        exact ⟨d, rfl, by simpa using hseen, by simpa using hmatches, rfl⟩
      · cases h
        exact ⟨d, rfl, by simpa using hseen, by simpa using hmatches, rfl⟩

theorem Placed.step (hdistinct : Distinct descriptors)
    {entries : List RunnerObservation} {placement next : Placement} {entry : RunnerObservation}
    (hplaced : Placed descriptors entries placement)
    (h : placeEntry descriptors placement entry = some next) :
    Placed descriptors (entries ++ [entry]) next := by
  obtain ⟨d, hd, hfree, hmatches, hnext⟩ := placeEntry_accepted h
  have hfound : d.stableOrdinal = entry.stableOrdinal := by
    obtain ⟨hlt, hget⟩ := List.getElem?_eq_some_iff.mp hd
    have hordinal := of_decide_eq_true (List.findIdx_getElem (w := hlt))
    exact (congrArg ObservationDescriptor.stableOrdinal hget).symm.trans hordinal
  constructor
  · rw [hnext, hplaced.ordered]
    rw [hplaced.ordered, List.getElem?_map, hd, Option.map_some, Option.join_some] at hfree
    apply List.ext_getElem?
    intro i
    rw [List.getElem?_set, List.getElem?_map, List.getElem?_map, List.length_map]
    by_cases hi : descriptorOrder descriptors entry.stableOrdinal = i
    · subst hi
      have hlt := (List.getElem?_eq_some_iff.mp hd).1
      rw [if_pos rfl, if_pos hlt, hd, Option.map_some, findMetadata, List.find?_append]
      rw [findMetadata] at hfree
      rw [hfree, Option.none_or, List.find?_cons_of_pos (by simp [hfound])]
    · rw [if_neg hi]
      cases hother : descriptors[i]? with
      | none => rfl
      | some d' =>
        have hne : entry.stableOrdinal ≠ d'.stableOrdinal := fun heq =>
          hi (hdistinct.index_eq hd hother (hfound.trans heq))
        rw [Option.map_some, Option.map_some, findMetadata, findMetadata, List.find?_append,
          List.find?_cons_of_neg (by simp [hne]), List.find?_nil, Option.or_none]
  · exact List.forall_mem_append.mpr ⟨hplaced.checked,
      List.forall_mem_singleton.mpr ⟨d, List.mem_of_getElem? hd, hfound, hmatches⟩⟩

theorem Placed.run (hdistinct : Distinct descriptors)
    {rest : List RunnerObservation} :
    ∀ {entries : List RunnerObservation} {placement final : Placement},
      Placed descriptors entries placement →
      rest.foldlM (placeEntry descriptors) placement = some final →
      Placed descriptors (entries ++ rest) final := by
  induction rest with
  | nil =>
    intro entries placement final hplaced h
    obtain rfl := Option.some.inj h
    rwa [List.append_nil]
  | cons entry rest ih =>
    intro entries placement final hplaced h
    obtain ⟨next, hnext, hrest⟩ := Option.bind_eq_some_iff.mp h
    have := ih (hplaced.step hdistinct hnext) hrest
    rwa [List.append_assoc] at this

/-! ## Matching metadata -/

/-- The entry and the descriptor of each place. -/
def pairs (metadata : List RunnerObservation) (descriptors : List ObservationDescriptor) :
    List (Option RunnerObservation × ObservationDescriptor) :=
  descriptors.map fun d => (findMetadata metadata d.stableOrdinal, d)

/-- What the two loops of `metadataMatches` establish. -/
structure Matched (metadata : List RunnerObservation) (descriptors : List ObservationDescriptor) :
    Prop where
  found : ∀ d ∈ descriptors, ∃ entry, findMetadata metadata d.stableOrdinal = some entry ∧
    entryMatches d entry = true
  groups : groupsMatch descriptors.length (pairs metadata descriptors) = true

theorem metadataMatches_matched {metadata : List RunnerObservation}
    {reports : List ReportGaugeDescriptor}
    (hdistinct : Distinct descriptors) (h : metadataMatches metadata descriptors = some reports) :
    Matched metadata descriptors := by
  rw [metadataMatches] at h
  by_cases hlength : metadata.length ≠ descriptors.length
  · rw [if_pos hlength] at h
    cases h
  · rw [if_neg hlength] at h
    rw [not_not] at hlength
    cases hfold : metadata.foldlM (placeEntry descriptors)
        ⟨List.replicate metadata.length none, []⟩ with
    | none =>
      rw [hfold] at h
      cases h
    | some placement =>
      rw [hfold] at h
      rw [hlength] at hfold
      have hplaced := (placed_initial descriptors).run hdistinct hfold
      rw [List.nil_append] at hplaced
      dsimp only at h
      split_ifs at h with hchecks
      rw [Bool.and_eq_true, hplaced.ordered, List.length_map] at hchecks
      obtain ⟨hgroups, hall⟩ := hchecks
      constructor
      · intro d hd
        rw [List.all_map, List.all_eq_true] at hall
        obtain ⟨entry, hentry⟩ := Option.isSome_iff_exists.mp (hall d hd)
        refine ⟨entry, hentry, ?_⟩
        obtain ⟨d', hd', hordinal, hmatches⟩ :=
          hplaced.checked entry (List.mem_of_find?_eq_some hentry)
        have hsame : entry.stableOrdinal = d.stableOrdinal := by
          have := List.find?_some hentry
          exact of_decide_eq_true this
        obtain ⟨i, hi⟩ := List.mem_iff_getElem?.mp hd
        obtain ⟨j, hj⟩ := List.mem_iff_getElem?.mp hd'
        have hindex := hdistinct.index_eq hi hj (hsame.symm.trans hordinal.symm)
        rw [hindex, hj] at hi
        rw [← Option.some.inj hi]
        exact hmatches
      · have hzip := List.zip_map' (f := fun d => findMetadata metadata d.stableOrdinal)
          (g := id) (l := descriptors)
        rw [List.map_id] at hzip
        rwa [hzip] at hgroups

end PyCircuit.SystemRunner
