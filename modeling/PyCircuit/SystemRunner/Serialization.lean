import PyCircuit.Lib.Fallible
import PyCircuit.Simulation.Atomicity
import PyCircuit.SystemRunner.Metadata

/-!
# The serialization of a committed step

The items of a committed step, sorted by their descriptors, are the sites whose value is to be seen,
in the order of the inventory. The sites of a group are either all among them or none is, so the
checks of the group loop find every group complete.
-/

set_option autoImplicit false

namespace PyCircuit.SystemRunner

open PyCircuit.Simulation PyCircuit.Simulation.ObservationSlots PyCircuit.Lib Fallible

/-! ## Lists of computations -/

variable {α β : Type} {descriptors : List ObservationDescriptor} {eventCapacity : Nat}
  {o : ObservationSlots} {calls : List Staging} {epoch : BitVec 64}
  {metadata : List RunnerObservation} {d : ObservationDescriptor} {site : Site}

theorem mapM_filterMap_ok {γ ε : Type} {f : α → Option β} {g : β → Except ε γ}
    {h : α → Option γ} {l : List α}
    (hitem : ∀ a ∈ l, (f a = none ∧ h a = none) ∨
      ∃ b c, f a = some b ∧ g b = .ok c ∧ h a = some c) :
    (l.filterMap f).mapM g = .ok (l.filterMap h) := by
  induction l with
  | nil => rfl
  | cons a l ih =>
    have hrest := ih (List.forall_mem_cons.mp hitem).2
    rcases hitem a List.mem_cons_self with ⟨hf, hh⟩ | ⟨b, c, hf, hg, hh⟩
    · rw [List.filterMap_cons_none hf, List.filterMap_cons_none hh]
      exact hrest
    · rw [List.filterMap_cons_some hf, List.filterMap_cons_some hh, List.mapM_cons, hg,
        ok_bind, hrest]
      rfl

theorem mapM_ok {ε : Type} {f : α → Except ε β} {l : List α}
    (h : ∀ a ∈ l, ∃ b, f a = .ok b) : ∃ results, l.mapM f = .ok results := by
  induction l with
  | nil => exact ⟨[], rfl⟩
  | cons a l ih =>
    obtain ⟨b, hb⟩ := h a List.mem_cons_self
    obtain ⟨results, hresults⟩ := ih (List.forall_mem_cons.mp h).2
    refine ⟨b :: results, ?_⟩
    rw [List.mapM_cons, hb, ok_bind, hresults]
    rfl

/-! ## Runs -/

variable {fuel : Nat} {first : RunnerObservation} {cycle : BitVec 64} {after : ObservationSlots}

/-- The inventory of a run was accepted. -/
theorem distinct_of_reached (h : Reached descriptors eventCapacity o cycle) :
    Distinct descriptors := by
  induction h with
  | configured h => exact (inventoryValid_distinct (configure_accepted h).1).1
  | committed _ _ _ _ ih | discarded _ _ ih | reset _ _ ih => exact ih

/-- No gauge is newer than the last commit. -/
theorem lastUpdate_le (h : Reached descriptors eventCapacity o cycle) :
    ∀ gauge ∈ o.gaugesView, gauge.lastUpdate.toNat ≤ cycle.toNat := by
  induction h with
  | configured h =>
    obtain ⟨_, _, rfl⟩ := configure_accepted h
    intro gauge hgauge
    simp only [gaugesView, List.mem_map] at hgauge
    obtain ⟨_, ⟨d, _, rfl⟩, rfl⟩ := hgauge
    exact Nat.le_refl _
  | @committed o cycle calls hreached hcycle hcheck ih =>
    have hexact := hreached.boundary.exact hcycle calls hcheck
    have hnext := System.toNat_succ hcycle
    intro gauge hgauge
    rw [hexact.gauges] at hgauge
    obtain ⟨g, hg⟩ := List.mem_iff_getElem?.mp hgauge
    obtain ⟨site, before, _, hbefore, rfl⟩ := List.getElem?_zipWith_eq_some.mp hg
    have hle := ih before (List.mem_of_getElem? hbefore)
    rw [hnext, gaugeAt]
    cases Staging.seen calls site.2 site.1 with
    | some value => exact hnext.le
    | none => exact Nat.le_succ_of_le hle
  | discarded calls hreached ih =>
    obtain ⟨hstaged, hwf⟩ := stageAll_spec hreached.boundary.wellFormed calls
    have hdiscarded := (discardNext_spec hwf).1
    rw [((hstaged.trans hdiscarded).views_eq hreached.boundary.wellFormed).2]
    exact ih
  | reset calls hreached ih =>
    intro gauge hgauge
    simp only [gaugesView, ObservationSlots.reset, List.map_map, List.mem_map] at hgauge
    obtain ⟨_, _, rfl⟩ := hgauge
    exact Nat.le_refl _

/-! ## Items -/

/-- What is published at a site. -/
def observedAt (calls : List Staging) (epoch : BitVec 64) (site : Site) : Option Observed :=
  (Staging.seen calls site.2 site.1).map fun value =>
    match site.1.kind with
    | .event => .event ⟨epoch, site.1, value⟩
    | .gauge => .gauge ⟨site.1.stableOrdinal, value, epoch⟩

/-- The item of a site. -/
def itemAt (metadata : List RunnerObservation) (calls : List Staging) (epoch : BitVec 64)
    (site : Site) : Option OutputItem :=
  (observedAt calls epoch site).bind fun observed =>
    (findMetadata metadata site.1.stableOrdinal).map fun entry => ⟨site.2, entry, observed⟩

section Items

variable {metadata : List RunnerObservation} {descriptors : List ObservationDescriptor}

variable {site : Site}

theorem order_of_mem (hdistinct : Distinct descriptors)
    (hsite : site ∈ sites descriptors) :
    descriptorOrder descriptors site.1.stableOrdinal = site.2 ∧ site.2 < descriptors.length := by
  have hget : descriptors[site.2]? = some site.1 := List.mem_zipIdx_iff_getElem?.mp hsite
  exact ⟨hdistinct.descriptorOrder_eq hget, (List.getElem?_eq_some_iff.mp hget).1⟩

theorem Matched.entry (hmatched : Matched metadata descriptors)
    (hsite : site ∈ sites descriptors) :
    ∃ entry, findMetadata metadata site.1.stableOrdinal = some entry ∧
      entryMatches site.1 entry = true :=
  hmatched.found site.1 (List.mem_of_getElem? (List.mem_zipIdx_iff_getElem?.mp hsite))

section

variable {d : ObservationDescriptor} {entry : RunnerObservation} (h : entryMatches d entry = true)
include h

/-- The kinds of an entry and of its descriptor. -/
theorem report_iff : entry.kind = "report" ↔ d.kind = .gauge := by
  simp only [entryMatches, Bool.and_eq_true, decide_eq_true_eq, decide_eq_decide] at h
  exact h.1.1.1.1.2

theorem groupSize_eq : entry.groupSize = d.groupSize := by
  simp only [entryMatches, Bool.and_eq_true, decide_eq_true_eq] at h
  exact h.1.1.2.symm

end

/-- The items of the events. -/
theorem eventItems (hdistinct : Distinct descriptors) (hmatched : Matched metadata descriptors)
    (calls : List Staging) (epoch : BitVec 64) :
    ((sites descriptors).filterMap (eventAt calls epoch)).mapM (eventItem metadata descriptors) =
      .ok (((sites descriptors).filter fun site => site.1.kind = .event).filterMap
        (itemAt metadata calls epoch)) := by
  rw [List.filterMap_filter]
  apply mapM_filterMap_ok
  intro site hsite
  obtain ⟨entry, hentry, hmatches⟩ := hmatched.entry hsite
  obtain ⟨horder, hlt⟩ := order_of_mem hdistinct hsite
  by_cases hkind : site.1.kind = .event
  · cases hseen : Staging.seen calls site.2 site.1 with
    | none => exact .inl ⟨by simp [eventAt, hseen], by simp [itemAt, observedAt, hseen]⟩
    | some value =>
      have hevent : entry.kind ≠ "report" := by
        rw [Ne, report_iff hmatches, hkind]
        decide
      refine .inr ⟨⟨epoch, site.1, value⟩, ⟨site.2, entry, .event ⟨epoch, site.1, value⟩⟩, ?_, ?_,
        ?_⟩
      · simp [eventAt, hkind, hseen]
      · simp [eventItem, hentry, hevent, horder, hlt.ne]
      · simp [itemAt, observedAt, hkind, hseen, hentry]
  · exact .inl ⟨by simp [eventAt, hkind], by simp [hkind]⟩

/-- The gauges of the committed epoch are those that were staged. -/
theorem activeGauges {calls : List Staging} {epoch : BitVec 64} {gauges : List Site}
    {before : List (GaugeSnapshot Planes)}
    (h : List.Forall₂ (fun site gauge => gauge.stableOrdinal = site.1.stableOrdinal ∧
      gauge.lastUpdate ≠ epoch) gauges before) :
    ((List.zipWith (gaugeAt calls epoch) gauges before).filter fun gauge =>
      gauge.lastUpdate = epoch) =
      gauges.filterMap fun site => (Staging.seen calls site.2 site.1).map fun value =>
        ⟨site.1.stableOrdinal, value, epoch⟩ := by
  induction h with
  | nil => rfl
  | @cons site gauge _ _ hfirst _ ih =>
    rw [List.zipWith_cons_cons]
    cases hseen : Staging.seen calls site.2 site.1 with
    | none =>
      rw [List.filter_cons_of_neg (by simp [gaugeAt, hseen, hfirst.2]),
        List.filterMap_cons_none (by rw [hseen]; rfl)]
      exact ih
    | some value =>
      rw [List.filter_cons_of_pos (by simp [gaugeAt, hseen]),
        List.filterMap_cons_some (by rw [hseen]; rfl), ih]
      simp [gaugeAt, hseen, hfirst.1]

/-- The items of the gauges. -/
theorem gaugeItems (hdistinct : Distinct descriptors) (hmatched : Matched metadata descriptors)
    (calls : List Staging) (epoch : BitVec 64) :
    ((gaugeSites descriptors).filterMap fun site =>
      (Staging.seen calls site.2 site.1).map fun value =>
        (⟨site.1.stableOrdinal, value, epoch⟩ : GaugeSnapshot Planes)).mapM
          (gaugeItem metadata descriptors) =
      .ok ((gaugeSites descriptors).filterMap (itemAt metadata calls epoch)) := by
  apply mapM_filterMap_ok
  intro site hsite
  obtain ⟨hmem, hgauge⟩ := List.mem_filter.mp hsite
  have hkind : site.1.kind = .gauge := of_decide_eq_true hgauge
  obtain ⟨entry, hentry, hmatches⟩ := hmatched.entry hmem
  obtain ⟨horder, hlt⟩ := order_of_mem hdistinct hmem
  cases hseen : Staging.seen calls site.2 site.1 with
  | none => exact .inl ⟨rfl, by simp [itemAt, observedAt, hseen]⟩
  | some value =>
    have hreport : entry.kind = "report" := (report_iff hmatches).mpr hkind
    refine .inr ⟨⟨site.1.stableOrdinal, value, epoch⟩,
      ⟨site.2, entry, .gauge ⟨site.1.stableOrdinal, value, epoch⟩⟩, rfl, ?_, ?_⟩
    · simp [gaugeItem, hentry, hreport, horder, hlt.ne]
    · simp [itemAt, observedAt, hkind, hseen, hentry]

theorem itemAt_order {calls : List Staging} {epoch : BitVec 64} {item : OutputItem}
    (h : itemAt metadata calls epoch site = some item) : item.descriptorOrder = site.2 := by
  obtain ⟨observed, _, hitem⟩ := Option.bind_eq_some_iff.mp h
  obtain ⟨entry, _, rfl⟩ := Option.map_eq_some_iff.mp hitem
  rfl

section

variable (metadata : List RunnerObservation) (descriptors : List ObservationDescriptor)
  (calls : List Staging) (epoch : BitVec 64)

theorem items_increasing :
    ((sites descriptors).filterMap (itemAt metadata calls epoch)).Pairwise
      fun left right => left.descriptorOrder < right.descriptorOrder := by
  have hsites : (sites descriptors).Pairwise fun a b => a.2 < b.2 := by
    rw [sites, List.pairwise_iff_getElem]
    intro i j hi hj hlt
    simpa using hlt
  refine hsites.filterMap _ ?_
  intro a b hlt left hleft right hright
  rw [itemAt_order hleft, itemAt_order hright]
  exact hlt

/-- Sorting restores the order of the inventory. -/
theorem items_sorted :
    ((((sites descriptors).filter fun site => site.1.kind = .event).filterMap
        (itemAt metadata calls epoch) ++
      (gaugeSites descriptors).filterMap (itemAt metadata calls epoch)).insertionSort
        fun left right => left.descriptorOrder ≤ right.descriptorOrder) =
      (sites descriptors).filterMap (itemAt metadata calls epoch) := by
  have hincreasing := items_increasing metadata descriptors calls epoch
  have hgauge : gaugeSites descriptors =
      (sites descriptors).filter fun site => !decide (site.1.kind = .event) := by
    rw [gaugeSites]
    apply List.filter_congr
    intro site _
    cases site.1.kind <;> rfl
  have hperm : ((((sites descriptors).filter fun site => site.1.kind = .event).filterMap
      (itemAt metadata calls epoch) ++
        (gaugeSites descriptors).filterMap (itemAt metadata calls epoch)).insertionSort
          fun left right => left.descriptorOrder ≤ right.descriptorOrder).Perm
      ((sites descriptors).filterMap (itemAt metadata calls epoch)) := by
    refine (List.perm_insertionSort _ _).trans ?_
    rw [hgauge, ← List.filterMap_append]
    exact (List.filter_append_perm _ _).filterMap _
  have htotal : Std.Total fun left right : OutputItem =>
      left.descriptorOrder ≤ right.descriptorOrder :=
    ⟨fun left right => Nat.le_total left.descriptorOrder right.descriptorOrder⟩
  have htrans : IsTrans OutputItem fun left right =>
      left.descriptorOrder ≤ right.descriptorOrder := ⟨fun _ _ _ => Nat.le_trans⟩
  refine hperm.eq_of_pairwise ?_ (List.pairwise_insertionSort _ _)
    (hincreasing.imp Nat.le_of_lt)
  -- two items of one order are the same item
  intro a b ha hb hab hba
  by_contra hne
  have hsymm : Std.Symm fun left right : OutputItem =>
      left.descriptorOrder ≠ right.descriptorOrder := ⟨fun _ _ => Ne.symm⟩
  exact (hincreasing.imp Nat.ne_of_lt).forall (hperm.mem_iff.mp ha) hb hne (Nat.le_antisymm hab hba)

end

end Items

/-- The items of a committed step. -/
theorem outputItems_eq (hdistinct : Distinct descriptors) (hmatched : Matched metadata descriptors)
    (hboundary : Boundary descriptors eventCapacity o)
    (hold : ∀ gauge ∈ o.gaugesView, gauge.lastUpdate ≠ epoch)
    (hexact : Exact descriptors calls o after epoch) :
    outputItems metadata descriptors after epoch =
      .ok ((sites descriptors).filterMap (itemAt metadata calls epoch)) := by
  have hbefore : List.Forall₂ (fun (site : Site) (gauge : GaugeSnapshot Planes) =>
      gauge.stableOrdinal = site.1.stableOrdinal ∧ gauge.lastUpdate ≠ epoch)
      (gaugeSites descriptors) o.gaugesView := by
    rw [List.forall₂_iff_get]
    refine ⟨by rw [hboundary.gaugeSites_length, gaugesView_length], ?_⟩
    intro g hsite hgauge
    refine ⟨?_, hold _ (List.get_mem _ _)⟩
    have hordinals := congrArg (fun ordinals => ordinals[g]?) hboundary.ordinals
    rw [gaugesView_length] at hgauge
    simpa [gaugesView, List.getElem?_eq_getElem hsite, List.getElem?_eq_getElem hgauge]
      using hordinals
  rw [outputItems, hexact.events, eventItems hdistinct hmatched, ok_bind, hexact.gauges,
    activeGauges hbefore, gaugeItems hdistinct hmatched, ok_bind, items_sorted]
  rfl

/-! ## Groups -/

/-- A value that is to be seen can be written. -/
theorem valueRecord_ok {index : Nat}
    {value : SlotValue Planes} (h : Staging.seen calls index d = some value) :
    ∃ record, valueRecord value = .ok record := by
  obtain ⟨call, htaken, hvalue⟩ := Option.bind_eq_some_iff.mp h
  have hfits := List.find?_some htaken
  simp only [Staging.fitsSlot, Staging.accepts, Staging.fits, Bool.and_eq_true, Bool.or_eq_true,
    bne_iff_ne] at hfits
  split_ifs at hvalue
  obtain rfl := Option.some.inj hvalue
  cases hkind : call.offered.kind with
  | bits4 =>
    have hcanonical : call.offered.isCanonicalBits4 = true := by
      rcases hfits.2.2 with hne | hcanonical
      · exact absurd hkind hne
      · exact hcanonical.1
    simp [valueRecord, hkind, hcanonical]
  | bool | signed | unsigned => simp [valueRecord, hkind]

/-- The item of a site whose value is to be seen. -/
structure ItemOf (metadata : List RunnerObservation) (epoch : BitVec 64) (site : Site)
    (item : OutputItem) : Prop where
  order : item.descriptorOrder = site.2
  entry : findMetadata metadata site.1.stableOrdinal = some item.metadata
  epoch : item.observationEpoch = epoch
  record : ∃ record, valueRecord item.value = .ok record

theorem itemAt_spec {item : OutputItem}
    (h : itemAt metadata calls epoch site = some item) : ItemOf metadata epoch site item := by
  obtain ⟨observed, hobserved, hitem⟩ := Option.bind_eq_some_iff.mp h
  obtain ⟨entry, hentry, rfl⟩ := Option.map_eq_some_iff.mp hitem
  obtain ⟨value, hseen, rfl⟩ := Option.map_eq_some_iff.mp hobserved
  have hrecord := valueRecord_ok hseen
  cases hkind : site.1.kind with
  | event | gauge =>
    exact ⟨rfl, hentry, by simp [OutputItem.observationEpoch], by simpa [OutputItem.value]⟩

theorem itemAt_none (h : Staging.seen calls site.2 site.1 = none) :
    itemAt metadata calls epoch site = none := by
  simp [itemAt, observedAt, h]

theorem itemAt_some {entry : RunnerObservation}
    (h : (Staging.seen calls site.2 site.1).isSome = true)
    (hentry : findMetadata metadata site.1.stableOrdinal = some entry) :
    ∃ item, itemAt metadata calls epoch site = some item := by
  obtain ⟨value, hvalue⟩ := Option.isSome_iff_exists.mp h
  simp [itemAt, observedAt, hvalue, hentry]

/-- The items of sites that all have one. -/
theorem forall₂_items {f : α → Option β} {l : List α}
    (h : ∀ a ∈ l, ∃ b, f a = some b) :
    List.Forall₂ (fun a b => f a = some b) l (l.filterMap f) := by
  induction l with
  | nil => exact .nil
  | cons a l ih =>
    obtain ⟨b, hb⟩ := h a List.mem_cons_self
    rw [List.filterMap_cons_some hb]
    exact .cons hb (ih (List.forall_mem_cons.mp h).2)

theorem eventRecord_ok {first : OutputItem} {group : List OutputItem}
    (h : ∀ item ∈ group, ∃ record, valueRecord item.value = .ok record) :
    ∃ record, eventRecord first group = .ok record := by
  obtain ⟨values, hvalues⟩ := mapM_ok (f := fun lane : OutputItem => valueRecord lane.value)
    (l := group.filter fun lane => lane.metadata.hasValue) fun item hitem =>
      h item (List.mem_of_mem_filter hitem)
  rw [eventRecord, hvalues]
  exact ⟨_, rfl⟩

/-- The sites from a place on. -/
def Consecutive (start : Nat) (l : List Site) : Prop :=
  ∀ k site, l[k]? = some site → site.2 = start + k

/-- What the metadata say about a group. -/
theorem groupsMatch_cons {rest : List (Option RunnerObservation × ObservationDescriptor)}
    (h : groupsMatch (fuel + 1) ((some first, d) :: rest) = true) :
    (first.groupIndex = 0 ∧ first.groupSize ≠ 0 ∧ first.groupSize ≤ rest.length + 1) ∧
      membersMatch first d (((some first, d) :: rest).take first.groupSize) = true ∧
      groupsMatch fuel (((some first, d) :: rest).drop first.groupSize) = true := by
  simp only [groupsMatch, Bool.and_eq_true, decide_eq_true_eq, bne_iff_ne] at h
  obtain ⟨⟨⟨⟨⟨hindex, hsize⟩, hlength⟩, -⟩, hmembers⟩, hrest⟩ := h
  exact ⟨⟨hindex, hsize, hlength⟩, hmembers, hrest⟩

/-- A member of a group of the metadata. -/
theorem membersMatch_get {members : List (Option RunnerObservation × ObservationDescriptor)}
    (h : membersMatch first d members = true) {k : Nat} {entry : RunnerObservation}
    {descriptor : ObservationDescriptor} (hk : members[k]? = some (some entry, descriptor)) :
    sameObservationGroup first entry k = true := by
  rw [membersMatch, List.all_eq_true] at h
  have := h ((some entry, descriptor), k) (List.mem_zipIdx_iff_getElem?.mpr hk)
  simp only [Option.any_some, Bool.and_eq_true] at this
  exact this.1.1.1.1.1

/-- One round over a complete group. -/
theorem groupRecords_group {first : OutputItem} {more tail : List OutputItem} {record : String}
    {records : List String} (hindex : first.metadata.groupIndex = 0)
    (hsize : first.metadata.groupSize = (first :: more).length)
    (hmembers : ∀ k item, (first :: more)[k]? = some item →
      memberConsistent first epoch item k = true)
    (hrecord : eventRecord first (first :: more) = .ok record)
    (htail : groupRecords epoch fuel tail = .ok records) :
    groupRecords epoch (fuel + 1) (first :: more ++ tail) = .ok (record :: records) := by
  have htake : (first :: (more ++ tail)).take first.metadata.groupSize = first :: more := by
    rw [hsize, ← List.cons_append, List.take_left']
    rfl
  have hdrop : (first :: (more ++ tail)).drop first.metadata.groupSize = tail := by
    rw [hsize, ← List.cons_append, List.drop_left']
    rfl
  have hcomplete : ¬(first.metadata.groupIndex ≠ 0 ∨ first.metadata.groupSize = 0 ∨
      (more ++ tail).length + 1 < first.metadata.groupSize) := by
    rw [hsize, List.length_cons, List.length_append]
    omega
  rw [List.cons_append, groupRecords]
  rw [if_neg hcomplete, htake, hdrop, if_neg, hrecord, htail]
  · rfl
  · rw [Bool.not_eq_true, Bool.not_eq_false', List.all_eq_true]
    rintro ⟨entry, index⟩ hentry
    exact hmembers index entry (List.mem_zipIdx_iff_getElem?.mp hentry)

section Groups

variable {metadata : List RunnerObservation} {calls : List Staging} {epoch : BitVec 64}

/-- The items of a group whose values are all to be seen are consistent. -/
theorem members_consistent {start n : Nat} {first : Site} {rest : List Site}
    {firstEntry : RunnerObservation} {firstItem : OutputItem} {items : List OutputItem}
    (hconsecutive : Consecutive start (first :: rest))
    (hmembers : membersMatch firstEntry first.1 (((first :: rest).map fun site =>
      (findMetadata metadata site.1.stableOrdinal, site.1)).take n) = true)
    (hfirst : ItemOf metadata epoch first firstItem) (hentry : firstItem.metadata = firstEntry)
    (hitems : List.Forall₂ (fun site item => itemAt metadata calls epoch site = some item)
      ((first :: rest).take n) items) :
    ∀ k item, items[k]? = some item → memberConsistent firstItem epoch item k = true := by
  intro k item hitem
  obtain ⟨hk, hget⟩ := List.getElem?_eq_some_iff.mp hitem
  have hsiteLt : k < ((first :: rest).take n).length := hitems.length_eq ▸ hk
  have hsite : ((first :: rest).take n)[k]? = some ((first :: rest).take n)[k] :=
    List.getElem?_eq_getElem hsiteLt
  have hat := (List.forall₂_iff_get.mp hitems).2 k hsiteLt hk
  rw [List.get_eq_getElem, List.get_eq_getElem, hget] at hat
  have hspec := itemAt_spec hat
  have hplace : (first :: rest)[k]? = some ((first :: rest).take n)[k] := by
    rw [List.getElem?_take] at hsite
    split_ifs at hsite
    exact hsite
  have hmember : (((first :: rest).map fun site =>
      (findMetadata metadata site.1.stableOrdinal, site.1)).take n)[k]? =
        some (some item.metadata, ((first :: rest).take n)[k].1) := by
    rw [← List.map_take, List.getElem?_map, hsite, Option.map_some, hspec.entry]
  have hgroup := membersMatch_get hmembers hmember
  have horder : item.descriptorOrder = firstItem.descriptorOrder + k := by
    rw [hspec.order, hfirst.order, hconsecutive k _ hplace, hconsecutive 0 first rfl, Nat.add_zero]
  rw [memberConsistent, hentry, hgroup, horder, hspec.epoch]
  simp

/-- The loop over the sites of an inventory whose groups are whole. -/
theorem groupRecords_ok :
    ∀ (fuel : Nat) (l : List Site) (start itemsFuel : Nat), Consecutive start l →
      (∀ site ∈ l, ∃ entry, findMetadata metadata site.1.stableOrdinal = some entry ∧
        entryMatches site.1 entry = true) →
      groupsMatch fuel (l.map fun site =>
        (findMetadata metadata site.1.stableOrdinal, site.1)) = true →
      (∀ group ∈ groups fuel l,
        (∀ site ∈ group, (Staging.seen calls site.2 site.1).isSome = true) ∨
          ∀ site ∈ group, Staging.seen calls site.2 site.1 = none) →
      (l.filterMap (itemAt metadata calls epoch)).length ≤ itemsFuel →
      ∃ records, groupRecords epoch itemsFuel (l.filterMap (itemAt metadata calls epoch)) =
        .ok records := by
  intro fuel
  induction fuel with
  | zero =>
    intro l start itemsFuel _ _ hgroups _ _
    cases l with
    | nil => exact ⟨[], by cases itemsFuel <;> rfl⟩
    | cons first rest => cases hgroups
  | succ fuel ih =>
    intro l start itemsFuel hconsecutive hfound hgroups hwhole hfuel
    cases l with
    | nil => exact ⟨[], by cases itemsFuel <;> rfl⟩
    | cons first rest =>
      obtain ⟨firstEntry, hfirstEntry, hmatches⟩ := hfound first List.mem_cons_self
      have hpairs : ((first :: rest).map fun site =>
          (findMetadata metadata site.1.stableOrdinal, site.1)) =
          (some firstEntry, first.1) :: rest.map fun site =>
            (findMetadata metadata site.1.stableOrdinal, site.1) := by
        rw [List.map_cons, hfirstEntry]
      rw [hpairs] at hgroups
      obtain ⟨⟨hindex, hsize, hlength⟩, hmembers, htail⟩ := groupsMatch_cons hgroups
      rw [← hpairs] at hmembers htail
      have hn := groupSize_eq hmatches
      rw [hn] at hsize hlength hmembers htail
      rw [List.length_map] at hlength
      have hwholeTail := (List.forall_mem_cons.mp hwhole).2
      have hsplit : (first :: rest).filterMap (itemAt metadata calls epoch) =
          ((first :: rest).take first.1.groupSize).filterMap (itemAt metadata calls epoch) ++
            ((first :: rest).drop first.1.groupSize).filterMap
              (itemAt metadata calls epoch) := by
        rw [← List.filterMap_append, List.take_append_drop]
      have hdropConsecutive : Consecutive (start + first.1.groupSize)
          ((first :: rest).drop first.1.groupSize) := by
        intro k site hsite
        rw [List.getElem?_drop] at hsite
        rw [hconsecutive _ site hsite, Nat.add_assoc]
      have hdropFound := fun site hsite =>
        hfound site (List.mem_of_mem_drop (i := first.1.groupSize) hsite)
      have hdropMatch : groupsMatch fuel (((first :: rest).drop first.1.groupSize).map
          fun site => (findMetadata metadata site.1.stableOrdinal, site.1)) = true := by
        rw [List.map_drop]
        exact htail
      rw [hsplit] at hfuel ⊢
      rcases hwhole _ List.mem_cons_self with hall | hnone
      · -- every member of the group is published
        have hitems := forall₂_items (f := itemAt metadata calls epoch) fun site hsite =>
          itemAt_some (hall site hsite) (hfound site (List.mem_of_mem_take hsite)).choose_spec.1
        have hcount : ((first :: rest).take first.1.groupSize).length = first.1.groupSize := by
          rw [List.length_take, List.length_cons]
          omega
        have hmem : first ∈ (first :: rest).take first.1.groupSize :=
          List.mem_take_iff_getElem.mpr ⟨0, by simp; omega, rfl⟩
        obtain ⟨firstItem, hfirstItem⟩ : ∃ item, itemAt metadata calls epoch first = some item :=
          itemAt_some (hall first hmem) hfirstEntry
        have hfirstSpec := itemAt_spec hfirstItem
        have hsame : firstItem.metadata = firstEntry :=
          Option.some.inj (hfirstSpec.entry.symm.trans hfirstEntry)
        have hconsistent := members_consistent hconsecutive hmembers hfirstSpec hsame hitems
        have hrecords : ∀ item ∈ ((first :: rest).take first.1.groupSize).filterMap
            (itemAt metadata calls epoch), ∃ record, valueRecord item.value = .ok record := by
          intro item hitem
          obtain ⟨site, _, hsite⟩ := List.mem_filterMap.mp hitem
          exact (itemAt_spec hsite).record
        have hlengthItems := hitems.length_eq.symm.trans hcount
        obtain ⟨more, hmore⟩ : ∃ more, ((first :: rest).take first.1.groupSize).filterMap
            (itemAt metadata calls epoch) = firstItem :: more := by
          obtain ⟨size, hsizeEq⟩ := Nat.exists_eq_succ_of_ne_zero hsize
          rw [hsizeEq, Nat.succ_eq_add_one, List.take_succ_cons,
            List.filterMap_cons_some hfirstItem]
          exact ⟨_, rfl⟩
        rw [hmore] at hfuel hlengthItems hrecords hconsistent ⊢
        rw [List.cons_append, List.length_cons, List.length_append] at hfuel
        obtain ⟨itemsFuel, rfl⟩ : ∃ k, itemsFuel = k + 1 := ⟨itemsFuel - 1, by omega⟩
        obtain ⟨records, htailRecords⟩ := ih _ _ itemsFuel hdropConsecutive hdropFound
          hdropMatch hwholeTail (by omega)
        obtain ⟨record, hrecord⟩ : ∃ record, eventRecord firstItem (firstItem :: more) =
            .ok record := eventRecord_ok hrecords
        refine ⟨record :: records, groupRecords_group ?_ ?_ hconsistent hrecord htailRecords⟩
        · rw [hsame, hindex]
        · rw [hsame, hn, hlengthItems]
      · -- nothing of the group is published
        have hempty : ((first :: rest).take first.1.groupSize).filterMap
            (itemAt metadata calls epoch) = [] :=
          List.filterMap_eq_nil_iff.mpr fun site hsite => itemAt_none (hnone site hsite)
        rw [hempty, List.nil_append] at hfuel ⊢
        exact ih _ _ itemsFuel hdropConsecutive hdropFound hdropMatch hwholeTail hfuel

end Groups

/-- A committed step is serialized. -/
theorem serialize_ok (hdistinct : Distinct descriptors) (hmatched : Matched metadata descriptors)
    (hboundary : Boundary descriptors eventCapacity o)
    (hafter : (after.entries.map fun e => e.descriptor) = descriptors)
    (hold : ∀ gauge ∈ o.gaugesView, gauge.lastUpdate ≠ epoch)
    (hexact : Exact descriptors calls o after epoch) :
    ∃ records, serialize metadata after epoch = .ok records := by
  have hpairs : pairs metadata descriptors = (sites descriptors).map fun site =>
      (findMetadata metadata site.1.stableOrdinal, site.1) := by
    conv_lhs => rw [pairs, ← List.zipIdx_map_fst 0 descriptors, List.map_map]
    rfl
  have hgroups := hmatched.groups
  rw [hpairs] at hgroups
  have hconsecutive : Consecutive 0 (sites descriptors) := by
    intro k site hsite
    rw [sites, List.getElem?_zipIdx] at hsite
    obtain ⟨d, _, rfl⟩ := Option.map_eq_some_iff.mp hsite
    rfl
  obtain ⟨records, hrecords⟩ : ∃ records, groupRecords epoch _
      ((sites descriptors).filterMap (itemAt metadata calls epoch)) = .ok records :=
    groupRecords_ok descriptors.length (sites descriptors) 0 _ hconsecutive
      (fun site hsite => hmatched.entry hsite) hgroups hexact.whole (Nat.le_refl _)
  refine ⟨records, ?_⟩
  rw [serialize, hafter, outputItems_eq hdistinct hmatched hboundary hold hexact,
    ok_bind]
  exact hrecords

/-- A reader sees the same events and gauges. -/
def Unobserved (before after : ObservationSlots) : Prop :=
  after.eventsView = before.eventsView ∧ after.gaugesView = before.gaugesView

/-- Publication is exact. At every step of a run, with any staging calls: a commit behind an
accepted check publishes exactly what is staged to be seen, whole groups at a time, and the runner
serializes it; a step that is not committed leaves what readers see as it was. The system takes no
step in the last cycle. -/
theorem publication_exact {descriptors : List ObservationDescriptor} {eventCapacity : Nat}
    {o : ObservationSlots} {cycle : BitVec 64} (h : Reached descriptors eventCapacity o cycle)
    (calls : List Staging) :
    (cycle ≠ BitVec.allOnes 64 → (o.stageAll calls).precommit cycle = true →
      Exact descriptors calls o ((o.stageAll calls).xfer (cycle + 1#64)) (cycle + 1#64) ∧
        ∀ metadata, (metadataMatches metadata descriptors).isSome = true →
          ∃ records, serialize metadata ((o.stageAll calls).xfer (cycle + 1#64)) (cycle + 1#64) =
            .ok records) ∧
      Unobserved o (o.stageAll calls) ∧ Unobserved o (o.stageAll calls).discardNext := by
  have hboundary := h.boundary
  obtain ⟨hstaged, hwf⟩ := stageAll_spec hboundary.wellFormed calls
  refine ⟨?_, hstaged.views_eq hboundary.wellFormed,
    (hstaged.trans (discardNext_spec hwf).1).views_eq hboundary.wellFormed⟩
  intro hcycle hcheck
  have hexact := hboundary.exact hcycle calls hcheck
  refine ⟨hexact, ?_⟩
  intro metadata hmetadata
  obtain ⟨reports, hreports⟩ := Option.isSome_iff_exists.mp hmetadata
  have hdistinct := distinct_of_reached h
  have hafter := (Reached.committed calls h hcycle hcheck).boundary.descriptors_eq
  refine serialize_ok hdistinct (metadataMatches_matched hdistinct hreports) hboundary hafter ?_
    hexact
  -- a gauge of an earlier commit has an earlier epoch
  intro gauge hgauge heq
  have hle := lastUpdate_le h gauge hgauge
  rw [heq, System.toNat_succ hcycle] at hle
  omega

/-- A print of two bits, and a gauge of one bit. -/
def pairDescriptors : List ObservationDescriptor :=
  [⟨7, 1, 2, 3, .event, 0, 2, 1⟩, ⟨8, 1, 2, 3, .event, 1, 2, 1⟩, ⟨9, 1, 2, 4, .gauge, 0, 1, 1⟩]

def pairMetadata : List RunnerObservation :=
  [⟨7, "print", "top", "rule", "site", "null", true, "", 0, 2⟩,
    ⟨8, "print", "top", "rule", "site", "null", true, "", 1, 2⟩,
    ⟨9, "report", "top", "rule", "level", "null", true, "level", 0, 1⟩]

def pairSlots : ObservationSlots := (empty.configure pairDescriptors 2).1

def pairCalls : List Staging :=
  [.stage 0 ⟨.bool, 1#64, 0, {}⟩ true true 0#64,
    .stage 2 ⟨.unsigned, 1#64, 0, {}⟩ true true 0#64,
    .stage 1 ⟨.bool, 0#64, 0, {}⟩ true true 0#64]

/-- Both values of the print and the gauge are published and serialized. -/
theorem publication_exact_pair :
    Exact pairDescriptors pairCalls pairSlots ((pairSlots.stageAll pairCalls).xfer 1#64) 1#64 ∧
      ((pairSlots.stageAll pairCalls).xfer 1#64).eventsView.length = 2 ∧
      ∃ records, serialize pairMetadata ((pairSlots.stageAll pairCalls).xfer 1#64) 1#64 =
        .ok records := by
  have hreached : Reached pairDescriptors 2 pairSlots 0#64 := .configured rfl
  obtain ⟨hexact, hserialized⟩ :=
    (publication_exact hreached pairCalls).1 (by decide) (by decide +kernel)
  exact ⟨hexact, by decide +kernel, hserialized pairMetadata (by decide +kernel)⟩

end PyCircuit.SystemRunner
