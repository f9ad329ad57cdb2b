import Mathlib.Data.List.Pairwise
import Mathlib.Data.List.Forall2
import PyCircuit.Simulation.Staging

/-!
# What a step publishes, in terms of its staging calls

At the start of a step every slot is free, and the descriptors and the places of the gauges are
those of the configuration. The calls of the step then determine what its commit publishes: the
events of the slots whose call is valid and on a path that is taken, in the order of the
descriptors, and the values of the gauges staged that way.
-/

set_option autoImplicit false

namespace PyCircuit.Simulation

namespace ObservationSlots

/-- A descriptor with its index. -/
abbrev Site := ObservationDescriptor × Nat

/-- The sites of an inventory. -/
def sites (descriptors : List ObservationDescriptor) : List Site := descriptors.zipIdx

/-- The sites of the gauges, in the order of their places. -/
def gaugeSites (descriptors : List ObservationDescriptor) : List Site :=
  (sites descriptors).filter fun site => site.1.kind = .gauge

/-- The groups of an inventory, each as its sites. -/
def groups : Nat → List Site → List (List Site)
  | _, [] => []
  | 0, _ :: _ => []
  | fuel + 1, first :: rest =>
    (first :: rest).take first.1.groupSize ::
      groups fuel ((first :: rest).drop first.1.groupSize)

/-- The event a site publishes. -/
def eventAt (calls : List Staging) (epoch : BitVec 64) (site : Site) :
    Option (CommittedEventSlot Planes) :=
  if site.1.kind = .event then
    (Staging.seen calls site.2 site.1).map fun value => ⟨epoch, site.1, value⟩
  else none

/-- The gauge of a site after the commit. -/
def gaugeAt (calls : List Staging) (epoch : BitVec 64) (site : Site)
    (gauge : GaugeSnapshot Planes) :
    GaugeSnapshot Planes :=
  match Staging.seen calls site.2 site.1 with
  | some value => { gauge with value := value, lastUpdate := epoch }
  | none => gauge

/-- What a commit publishes of the calls of its step. -/
structure Exact (descriptors : List ObservationDescriptor) (calls : List Staging)
    (before after : ObservationSlots) (epoch : BitVec 64) : Prop where
  events : after.eventsView = (sites descriptors).filterMap (eventAt calls epoch)
  gauges : after.gaugesView =
    List.zipWith (gaugeAt calls epoch) (gaugeSites descriptors) before.gaugesView
  whole : ∀ group ∈ groups descriptors.length (sites descriptors),
    (∀ site ∈ group, (Staging.seen calls site.2 site.1).isSome = true) ∨
      ∀ site ∈ group, Staging.seen calls site.2 site.1 = none

/-! ## The start of a step -/

/-- The slots between two steps. -/
structure Boundary (descriptors : List ObservationDescriptor) (eventCapacity : Nat)
    (o : ObservationSlots) : Prop where
  wellFormed : o.WellFormed
  configured : o.configured = true
  capacity : o.eventCapacity = eventCapacity
  placement : (o.entries.map fun e => (e.descriptor, e.gaugeIndex)) =
    (assignGauges 0 descriptors).map fun e => (e.descriptor, e.gaugeIndex)
  free : ∀ e ∈ o.entries, e.slot.pending = false
  ordinals : (o.gauges.map fun gauge => gauge.stableOrdinal) =
    (gaugeSites descriptors).map fun site => site.1.stableOrdinal

theorem gaugeSites_ordinals (descriptors : List ObservationDescriptor) :
    ((gaugeSites descriptors).map fun site => site.1.stableOrdinal) =
      (descriptors.filter fun d => d.kind = .gauge).map fun d => d.stableOrdinal := by
  have hfst : (gaugeSites descriptors).map Prod.fst =
      descriptors.filter fun d => d.kind = .gauge := by
    have hfilter := List.filter_map (f := Prod.fst) (p := fun d : ObservationDescriptor =>
      decide (d.kind = .gauge)) (l := sites descriptors)
    rw [sites, List.zipIdx_map_fst] at hfilter
    exact hfilter.symm
  rw [← hfst, List.map_map]
  rfl

theorem free_discardNext (o : ObservationSlots) :
    ∀ e ∈ o.discardNext.entries, e.slot.pending = false := by
  intro e he
  obtain ⟨e₀, -, rfl⟩ := List.mem_map.mp he
  rfl

theorem sites_discardNext (o : ObservationSlots) :
    (o.discardNext.entries.map fun e => (e.descriptor, e.gaugeIndex)) =
      o.entries.map fun e => (e.descriptor, e.gaugeIndex) := by
  rw [discardNext, List.map_map]
  rfl

variable {o staged : ObservationSlots} {descriptors : List ObservationDescriptor}
  {eventCapacity : Nat} {site : Site} {calls : List Staging} {epoch : BitVec 64}

theorem publish_ordinals (epoch : BitVec 64) (index : Nat) (e : Entry)
    (board : Board) :
    ((o.publish epoch index e board).gauges.map fun gauge => gauge.stableOrdinal) =
      board.gauges.map fun gauge => gauge.stableOrdinal := by
  rw [publish]
  split_ifs
  · cases e.descriptor.kind with
    | event =>
      rw [publishEvent]
      split_ifs <;> rfl
    | gauge =>
      rw [publishGauge]
      cases e.gaugeIndex with
      | none => rfl
      | some g =>
        apply List.ext_getElem?
        intro k
        by_cases hk : g = k
        · subst hk
          simp only [List.getElem?_map, List.getElem?_modify, if_true]
          cases board.gauges[g]? <;> rfl
        · simp [hk]
  · rfl

theorem publishFrom_ordinals (epoch : BitVec 64) (entries : List Entry)
    (index : Nat) (board : Board) :
    ((o.publishFrom epoch index entries board).gauges.map fun gauge => gauge.stableOrdinal) =
      board.gauges.map fun gauge => gauge.stableOrdinal := by
  induction entries generalizing index board with
  | nil => rfl
  | cons e rest ih => rw [publishFrom, ih, publish_ordinals]

/-- An inventory that is accepted is valid. -/
theorem configure_accepted (h : empty.configure descriptors eventCapacity = (o, true)) :
    inventoryValid [] descriptors = true ∧ groupsValid descriptors.length descriptors = true ∧
      o = { empty with
        configured := true
        eventCapacity := eventCapacity
        entries := assignGauges 0 descriptors
        gauges := (descriptors.filter fun d => d.kind = .gauge).map initialGauge } := by
  rw [configure] at h
  split_ifs at h with hconfigured hinventory hgroups hfits
  · cases h
  · cases h
  · cases h
  · cases h
  · exact ⟨by simpa using hinventory, by simpa using hgroups, (Prod.mk.inj h).1.symm⟩

theorem boundary_configured (h : empty.configure descriptors eventCapacity = (o, true)) :
    Boundary descriptors eventCapacity o := by
  have hwf : o.WellFormed := by
    have := configure_wellFormed empty_wellFormed descriptors eventCapacity
    rwa [h] at this
  obtain ⟨_, _, rfl⟩ := configure_accepted h
  refine ⟨hwf, rfl, rfl, rfl, ?_, ?_⟩
  · intro e he
    rw [(assignGauges_spec 0 descriptors).2.1 e he]
    rfl
  · rw [gaugeSites_ordinals, List.map_map]
    rfl

/-- Slots that are discarded and keep the ordinals of their gauges. -/
theorem Boundary.of_discarded {o' : ObservationSlots} (h : Boundary descriptors eventCapacity o)
    (hstaged : StagedOnly o staged) (hwf : o'.WellFormed)
    (hentries : o'.entries = staged.discardNext.entries)
    (hconfigured : o'.configured = staged.configured)
    (hcapacity : o'.eventCapacity = staged.eventCapacity)
    (hordinals : (o'.gauges.map fun gauge => gauge.stableOrdinal) =
      staged.gauges.map fun gauge => gauge.stableOrdinal) :
    Boundary descriptors eventCapacity o' where
  wellFormed := hwf
  configured := hconfigured.trans (hstaged.configured.trans h.configured)
  capacity := hcapacity.trans (hstaged.eventCapacity.trans h.capacity)
  placement := by
    rw [hentries, sites_discardNext, hstaged.sites]
    exact h.placement
  free := hentries ▸ free_discardNext staged
  ordinals := by
    rw [hordinals, hstaged.gauges]
    exact h.ordinals

/-- Every step begins at a boundary. -/
theorem Reached.boundary {cycle : BitVec 64} (h : Reached descriptors eventCapacity o cycle) :
    Boundary descriptors eventCapacity o := by
  induction h with
  | configured h => exact boundary_configured h
  | @committed o cycle calls _ hcycle hcheck ih =>
    obtain ⟨hstaged, hwf⟩ := stageAll_spec ih.wellFormed calls
    exact ih.of_discarded hstaged (xfer_published hwf hcycle hcheck).2 rfl rfl rfl
      (publishFrom_ordinals _ _ _ _)
  | discarded calls _ ih =>
    obtain ⟨hstaged, hwf⟩ := stageAll_spec ih.wellFormed calls
    exact ih.of_discarded hstaged (discardNext_spec hwf).2 rfl rfl rfl rfl
  | reset calls _ ih =>
    obtain ⟨hstaged, hwf⟩ := stageAll_spec ih.wellFormed calls
    refine ih.of_discarded hstaged (reset_wellFormed hwf) rfl rfl rfl ?_
    rw [ObservationSlots.reset, List.map_map]
    rfl

/-! ## The slots after the calls -/

/-- The entry of a site after the calls of the step. -/
structure SiteEntry (descriptors : List ObservationDescriptor) (calls : List Staging)
    (staged : ObservationSlots) (site : Site) (e : Entry) : Prop where
  descriptor : e.descriptor = site.1
  published : e.published = (Staging.seen calls site.2 site.1).isSome
  value : ∀ value, Staging.seen calls site.2 site.1 = some value → staged.read e.slot.value = value

section

variable (h : Boundary descriptors eventCapacity o)
include h

theorem Boundary.descriptors_eq : (o.entries.map fun e => e.descriptor) = descriptors := by
  have hfst := congrArg (List.map Prod.fst) h.placement
  rw [List.map_map, List.map_map] at hfst
  exact hfst.trans (assignGauges_spec 0 descriptors).1

/-- The entries of the staged slots, site by site. -/
theorem Boundary.siteEntry (calls : List Staging) (hsite : site ∈ sites descriptors) :
    ∃ e, (o.stageAll calls).entries[site.2]? = some e ∧
      SiteEntry descriptors calls (o.stageAll calls) site e := by
  obtain ⟨d, index⟩ := site
  have hdescriptor : descriptors[index]? = some d := List.mem_zipIdx_iff_getElem?.mp hsite
  rw [← h.descriptors_eq, List.getElem?_map] at hdescriptor
  obtain ⟨e₀, he₀, rfl⟩ := Option.map_eq_some_iff.mp hdescriptor
  obtain ⟨e, he, hsame, _, hafter⟩ := stageAll_entries h.wellFormed h.configured h.free calls he₀
  refine ⟨e, he, hsame, ?_, ?_⟩
  · rw [AfterCalls, hsame] at hafter
    rw [Staging.seen]
    cases htaken : Staging.taken calls index e₀.descriptor with
    | none =>
      rw [htaken] at hafter
      simp [Entry.published, hafter]
    | some call =>
      rw [htaken] at hafter
      simp only [Option.bind_some, Entry.published, hafter.pending, hafter.valid, hafter.path,
        Bool.true_and]
      cases call.valid && call.path <;> rfl
  · intro value hvalue
    rw [AfterCalls, hsame] at hafter
    rw [Staging.seen] at hvalue
    cases htaken : Staging.taken calls index e₀.descriptor with
    | none =>
      rw [htaken] at hvalue
      cases hvalue
    | some call =>
      rw [htaken] at hafter hvalue
      simp only [Option.bind_some] at hvalue
      split_ifs at hvalue
      cases hvalue
      exact hafter.value

/-! ## Events -/

omit h in
theorem filterMap_ite {α β : Type} (p : α → Bool) (f : α → β) (l : List α) :
    (l.filterMap fun a => if p a then some (f a) else none) = (l.filter p).map f := by
  induction l with
  | nil => rfl
  | cons a l ih =>
    cases hp : p a with
    | true | false => simp [hp, ih]

theorem Boundary.staged_length (calls : List Staging) :
    (o.stageAll calls).entries.length = descriptors.length := by
  have hstaged := (stageAll_spec h.wellFormed calls).1.descriptors
  rw [h.descriptors_eq] at hstaged
  have := congrArg List.length hstaged
  rwa [List.length_map] at this

/-- Entries and sites go together. -/
theorem Boundary.forall₂ (calls : List Staging) :
    List.Forall₂ (fun e site => SiteEntry descriptors calls (o.stageAll calls) site e)
      (o.stageAll calls).entries (ObservationSlots.sites descriptors) := by
  rw [List.forall₂_iff_get]
  refine ⟨by rw [h.staged_length, ObservationSlots.sites, List.length_zipIdx], ?_⟩
  intro index hentry hsite
  have hmem : (ObservationSlots.sites descriptors).get ⟨index, hsite⟩ ∈
      ObservationSlots.sites descriptors := List.get_mem _ _
  obtain ⟨e, he, hsiteEntry⟩ := h.siteEntry calls hmem
  have hindex : ((ObservationSlots.sites descriptors).get ⟨index, hsite⟩).2 = index := by
    simp [ObservationSlots.sites]
  rw [hindex] at he
  have hsame : (o.stageAll calls).entries.get ⟨index, hentry⟩ = e := by
    rw [List.get_eq_getElem]
    exact (List.getElem?_eq_some_iff.mp he).2
  rw [hsame]
  exact hsiteEntry

omit h in
theorem SiteEntry.event {e : Entry}
    (h : SiteEntry descriptors calls staged site e) (epoch : BitVec 64) :
    (if addsEvent e then some ⟨epoch, e.descriptor, staged.read e.slot.value⟩ else none) =
      eventAt calls epoch site := by
  rw [eventAt, addsEvent, h.published, h.descriptor]
  by_cases hkind : site.1.kind = .event
  · cases hseen : Staging.seen calls site.2 site.1 with
    | none => simp [hkind]
    | some value => simp [hkind, h.value value hseen]
  · simp [hkind]

omit h in
theorem stagedEvents_eq {entries : List Entry} {sites : List Site}
    (h : List.Forall₂ (fun e site => SiteEntry descriptors calls staged site e) entries sites) :
    stagedEvents staged epoch entries = sites.filterMap (eventAt calls epoch) := by
  rw [stagedEvents, ← filterMap_ite]
  induction h with
  | nil => rfl
  | cons hfirst _ ih => simp only [List.filterMap_cons, hfirst.event epoch, ih]

/-! ## Gauges -/

omit h in
/-- No two entries have one place. -/
theorem WellFormed.distinct_of_ne (h : o.WellFormed) {a b : Entry}
    (ha : a ∈ o.entries) (hb : b ∈ o.entries) (hne : a ≠ b) (g : Nat)
    (hplace : a.gaugeIndex = some g) : b.gaugeIndex ≠ some g := by
  have hsymm : Std.Symm fun x y : Entry => ∀ g, x.gaugeIndex = some g → y.gaugeIndex ≠ some g :=
    ⟨fun _ _ hxy g hy hx => hxy g hx hy⟩
  exact h.distinct.forall ha hb hne g hplace

omit h in
/-- The place of a gauge is its rank among the gauges. -/
theorem assignGauges_place (descriptors : List ObservationDescriptor) :
    ∀ (start next g : Nat) (site : Site),
      ((descriptors.zipIdx start).filter fun site => site.1.kind = .gauge)[g]? = some site →
      start ≤ site.2 ∧ ∃ e, (assignGauges next descriptors)[site.2 - start]? = some e ∧
        e.gaugeIndex = some (next + g) := by
  induction descriptors with
  | nil =>
    intro start next g site h
    simp at h
  | cons d rest ih =>
    intro start next g site h
    rw [List.zipIdx_cons] at h
    cases hkind : d.kind with
    | event =>
      rw [List.filter_cons_of_neg (by simp [hkind])] at h
      obtain ⟨hle, e, he, hindex⟩ := ih (start + 1) next g site h
      refine ⟨by omega, e, ?_, hindex⟩
      have hsub : site.2 - start = site.2 - (start + 1) + 1 := by omega
      simp only [assignGauges, hkind]
      rw [hsub, List.getElem?_cons_succ]
      exact he
    | gauge =>
      rw [List.filter_cons_of_pos (by simp [hkind])] at h
      simp only [assignGauges, hkind]
      cases g with
      | zero =>
        obtain rfl := Option.some.inj h
        refine ⟨Nat.le_refl _, ⟨d, some next, ObservationSlot.empty⟩, ?_, rfl⟩
        rw [Nat.sub_self, List.getElem?_cons_zero]
      | succ g =>
        rw [List.getElem?_cons_succ] at h
        obtain ⟨hle, e, he, hindex⟩ := ih (start + 1) (next + 1) g site h
        refine ⟨by omega, e, ?_, by rw [hindex]; congr 1; omega⟩
        have hsub : site.2 - start = site.2 - (start + 1) + 1 := by omega
        rw [hsub, List.getElem?_cons_succ]
        exact he

/-- The entry of a gauge site has the place of the site. -/
theorem Boundary.place (calls : List Staging) {g : Nat}
    (hsite : (gaugeSites descriptors)[g]? = some site) {e : Entry}
    (he : (o.stageAll calls).entries[site.2]? = some e) : e.gaugeIndex = some g := by
  obtain ⟨_, e₀, he₀, hindex⟩ := assignGauges_place descriptors 0 0 g site hsite
  have hplaces := ((stageAll_spec h.wellFormed calls).1.sites).trans h.placement
  have hat := congrArg (fun places => places[site.2]?) hplaces
  rw [Nat.sub_zero] at he₀
  simp only [List.getElem?_map, he, he₀, Option.map_some, Option.some.injEq, Prod.mk.injEq] at hat
  rw [hat.2, hindex, Nat.zero_add]

omit h in
theorem gaugesView_length (o : ObservationSlots) : o.gaugesView.length = o.gauges.length :=
  List.length_map ..

theorem Boundary.gaugeSites_length : (gaugeSites descriptors).length = o.gauges.length := by
  have := congrArg List.length h.ordinals
  rw [List.length_map, List.length_map] at this
  exact this.symm

end

section

variable {after : ObservationSlots} (h : Boundary descriptors eventCapacity o)
  (calls : List Staging) (hpublished : Published (o.stageAll calls) after epoch)
include h hpublished

theorem Boundary.gauge {g : Nat} (hsite : (gaugeSites descriptors)[g]? = some site) :
    after.gaugesView[g]? = (o.gaugesView[g]?).map (gaugeAt calls epoch site) := by
  obtain ⟨hstaged, hwf⟩ := stageAll_spec h.wellFormed calls
  have hviews := (hstaged.views_eq h.wellFormed).2
  have hmem := List.mem_filter.mp (List.mem_of_getElem? hsite)
  have hkind : site.1.kind = .gauge := of_decide_eq_true hmem.2
  obtain ⟨e, he, hentry⟩ := h.siteEntry calls hmem.1
  have hplace := h.place calls hsite he
  have heMem := List.mem_of_getElem? he
  rw [← hviews]
  cases hseen : Staging.seen calls site.2 site.1 with
  | some value =>
    obtain ⟨g', gauge, hg', hbefore, hafter⟩ := hpublished.updated e heMem
      (by rw [hentry.published, hseen]; rfl) (by rw [hentry.descriptor]; exact hkind)
    obtain rfl : g = g' := Option.some.inj (hplace.symm.trans hg')
    rw [hafter, hbefore, Option.map_some, gaugeAt, hseen, hentry.value value hseen]
  | none =>
    have hkept : ∀ e' ∈ (o.stageAll calls).entries, ¬ UpdatesGauge e' g := by
      rintro e' he' ⟨hpublished', _, hplace'⟩
      -- another entry has another place, and the entry of the site is not published
      have hsame : e' = e := by
        by_contra hne
        exact hwf.distinct_of_ne he' heMem hne g hplace' hplace
      rw [hsame, hentry.published, hseen] at hpublished'
      cases hpublished'
    rw [hpublished.kept g hkept]
    cases (o.stageAll calls).gaugesView[g]? with
    | none => rfl
    | some gauge => rw [Option.map_some, gaugeAt, hseen]

theorem Boundary.gauges :
    after.gaugesView =
      List.zipWith (gaugeAt calls epoch) (gaugeSites descriptors) o.gaugesView := by
  apply List.ext_getElem?
  intro g
  rw [List.getElem?_zipWith]
  cases hsite : (gaugeSites descriptors)[g]? with
  | some site =>
    rw [h.gauge calls hpublished hsite]
    cases o.gaugesView[g]? <;> rfl
  | none =>
    -- no entry has a place behind the last gauge
    have hlength := h.gaugeSites_length
    have hstaged := (stageAll_spec h.wellFormed calls).1
    have hviews := (hstaged.views_eq h.wellFormed).2
    have hbound : o.gaugesView.length ≤ g := by
      rw [gaugesView_length, ← hlength]
      exact List.getElem?_eq_none_iff.mp hsite
    have hkept := hpublished.kept g ?_
    · rw [hkept, hviews, List.getElem?_eq_none hbound]
    · rintro e he ⟨_, hkind, hplace⟩
      obtain ⟨g', hg', hlt⟩ := (stageAll_spec h.wellFormed calls).2.placed e he hkind
      rw [hplace, Option.some.injEq] at hg'
      rw [hstaged.gauges, ← gaugesView_length] at hlt
      omega

end

/-! ## Groups -/

theorem exists_of_forall₂ {α β : Type} {R : α → β → Prop} {as : List α} {bs : List β}
    (h : List.Forall₂ R as bs) {b : β} (hb : b ∈ bs) : ∃ a ∈ as, R a b := by
  induction h with
  | nil => cases hb
  | @cons a' b' _ _ hhead _ ih =>
    rcases List.mem_cons.mp hb with rfl | hb
    · exact ⟨a', List.mem_cons_self, hhead⟩
    · obtain ⟨a, ha, hab⟩ := ih hb
      exact ⟨a, List.mem_cons_of_mem a' ha, hab⟩

theorem checkGroup_whole {first : Entry} {entries : List Entry}
    {group : List Site} {additions total : Nat}
    (hsites : List.Forall₂ (fun e site => SiteEntry descriptors calls staged site e) entries group)
    (h : o.checkGroup (some epoch) first entries additions = some total) :
    (∀ site ∈ group, (Staging.seen calls site.2 site.1).isSome = true) ∨
      ∀ site ∈ group, Staging.seen calls site.2 site.1 = none := by
  rcases checkGroup_cases h with ⟨hnone, -⟩ | ⟨hall, -⟩
  · refine .inr fun site hsite => ?_
    obtain ⟨e, he, hentry⟩ := exists_of_forall₂ hsites hsite
    have hseen := hentry.published
    rw [hnone e he] at hseen
    exact Option.isNone_iff_eq_none.mp (by simpa using hseen.symm)
  · refine .inl fun site hsite => ?_
    obtain ⟨e, he, hentry⟩ := exists_of_forall₂ hsites hsite
    rw [← hentry.published, (hall e he).1]

theorem checkFrom_whole :
    ∀ {fuel : Nat} {entries : List Entry} {sites : List Site} {additions : Nat},
      List.Forall₂ (fun e site => SiteEntry descriptors calls staged site e) entries sites →
      o.checkFrom (some epoch) fuel entries additions = true →
      ∀ group ∈ groups fuel sites,
        (∀ site ∈ group, (Staging.seen calls site.2 site.1).isSome = true) ∨
          ∀ site ∈ group, Staging.seen calls site.2 site.1 = none := by
  intro fuel
  induction fuel with
  | zero =>
    intro entries sites additions hsites _ group hgroup
    cases sites <;> simp [groups] at hgroup
  | succ fuel ih =>
    intro entries sites additions hsites h group hgroup
    cases hsites with
    | nil => simp [groups] at hgroup
    | @cons first site entries sites hfirst hrest =>
      rw [checkFrom] at h
      cases hcheck : o.checkGroup (some epoch) first
          ((first :: entries).take first.descriptor.groupSize) additions with
      | none => simp [hcheck] at h
      | some total =>
        rw [hcheck] at h
        rw [groups, List.mem_cons] at hgroup
        rw [hfirst.descriptor] at h hcheck
        have hall : List.Forall₂ (fun e site => SiteEntry descriptors calls staged site e)
            (first :: entries) (site :: sites) := .cons hfirst hrest
        rcases hgroup with rfl | hgroup
        · exact checkGroup_whole (List.forall₂_take site.1.groupSize hall) hcheck
        · exact ih (List.forall₂_drop site.1.groupSize hall) h group hgroup

/-- What a commit behind an accepted check publishes. -/
theorem Boundary.exact {cycle : BitVec 64} (h : Boundary descriptors eventCapacity o)
    (hcycle : cycle ≠ BitVec.allOnes 64) (calls : List Staging)
    (hcheck : (o.stageAll calls).precommit cycle = true) :
    Exact descriptors calls o ((o.stageAll calls).xfer (cycle + 1#64)) (cycle + 1#64) := by
  have hwf := (stageAll_spec h.wellFormed calls).2
  have hpublished := (xfer_published hwf hcycle hcheck).1
  have hsites := h.forall₂ calls
  refine ⟨?_, h.gauges calls hpublished, ?_⟩
  · rw [hpublished.events]
    exact stagedEvents_eq hsites
  · rw [precommit, checkGroups, Bool.and_eq_true, h.staged_length] at hcheck
    exact checkFrom_whole hsites hcheck.2

end ObservationSlots

end PyCircuit.Simulation
