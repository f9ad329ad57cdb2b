import PyCircuit.Simulation.Observation

/-!
# What the observation slots publish

Staging and discarding leave what a reader sees alone. A transfer that the check has admitted
publishes every staged value: the check counts the events of all groups against the capacity and
compares the epoch of every pending slot, so the guards inside the transfer drop nothing.
-/

set_option autoImplicit false

namespace PyCircuit.Simulation

namespace ObservationSlots

/-! ## Ownership of the planes -/

/-- A slot refers to its own region of the pending planes, or to none. -/
def Owned (index : Nat) (v : SlotValue Spans) : Prop :=
  if v.kind = .bits4 then v.spans = .region .pending index else ∃ planes, v.spans = .words planes

/-- What has been published does not refer to the pending planes. -/
def Detached (v : SlotValue Spans) : Prop := ∀ slot, v.spans ≠ .region .pending slot

/-- The slots as `configure` and the other calls leave them. -/
structure WellFormed (o : ObservationSlots) : Prop where
  grouped : groupsValid o.entries.length (o.entries.map fun e => e.descriptor) = true
  placed : ∀ e ∈ o.entries, e.descriptor.kind = .gauge →
    ∃ g, e.gaugeIndex = some g ∧ g < o.gauges.length
  distinct : o.entries.Pairwise fun a b => ∀ g, a.gaugeIndex = some g → b.gaugeIndex ≠ some g
  owned : ∀ index e, o.entries[index]? = some e → Owned index e.slot.value
  events_detached : ∀ event ∈ o.events, Detached event.value
  gauges_detached : ∀ gauge ∈ o.gauges, ∃ planes, gauge.value.spans = .words planes

/-- Nothing changes but the slots and the pending planes. -/
structure StagedOnly (o o' : ObservationSlots) : Prop where
  configured : o'.configured = o.configured
  eventCapacity : o'.eventCapacity = o.eventCapacity
  events : o'.events = o.events
  gauges : o'.gauges = o.gauges
  committedPlanes : o'.committedPlanes = o.committedPlanes
  sites : (o'.entries.map fun e => (e.descriptor, e.gaugeIndex)) =
    o.entries.map fun e => (e.descriptor, e.gaugeIndex)

namespace StagedOnly

theorem refl (o : ObservationSlots) : StagedOnly o o := ⟨rfl, rfl, rfl, rfl, rfl, rfl⟩

theorem trans {o₁ o₂ o₃ : ObservationSlots} (h₁ : StagedOnly o₁ o₂) (h₂ : StagedOnly o₂ o₃) :
    StagedOnly o₁ o₃ where
  configured := h₂.configured.trans h₁.configured
  eventCapacity := h₂.eventCapacity.trans h₁.eventCapacity
  events := h₂.events.trans h₁.events
  gauges := h₂.gauges.trans h₁.gauges
  committedPlanes := h₂.committedPlanes.trans h₁.committedPlanes
  sites := h₂.sites.trans h₁.sites

variable {o o' : ObservationSlots}

theorem descriptors (h : StagedOnly o o') :
    (o'.entries.map fun e => e.descriptor) = o.entries.map fun e => e.descriptor := by
  have hfst := congrArg (List.map Prod.fst) h.sites
  simpa [List.map_map, Function.comp_def] using hfst

/-- A detached value reads the same. -/
theorem read_eq (h : StagedOnly o o') {v : SlotValue Spans}
    (hv : Detached v) : o'.read v = o.read v := by
  unfold read
  cases hspans : v.spans with
  | words planes => rfl
  | region snapshot slot =>
    cases snapshot with
    | pending => exact absurd hspans (hv slot)
    | committed => simp only [h.committedPlanes]

/-- A reader sees no staging. -/
theorem views_eq (h : StagedOnly o o') (hwf : o.WellFormed) :
    o'.eventsView = o.eventsView ∧ o'.gaugesView = o.gaugesView := by
  constructor
  · unfold eventsView
    rw [h.events]
    apply List.map_congr_left
    intro event hevent
    rw [h.read_eq (hwf.events_detached event hevent)]
  · unfold gaugesView
    rw [h.gauges]
    apply List.map_congr_left
    intro gauge hgauge
    obtain ⟨planes, hplanes⟩ := hwf.gauges_detached gauge hgauge
    rw [h.read_eq fun slot => by rw [hplanes]; exact nofun]

/-- The shape of the slots carries over; only the values in the slots are new. -/
theorem wellFormed (h : StagedOnly o o') (hwf : o.WellFormed)
    (howned : ∀ index e, o'.entries[index]? = some e → Owned index e.slot.value) :
    o'.WellFormed where
  grouped := by
    have hlength := congrArg List.length h.descriptors
    rw [List.length_map, List.length_map] at hlength
    rw [h.descriptors, hlength]
    exact hwf.grouped
  placed := by
    intro e he hkind
    have hsite : (e.descriptor, e.gaugeIndex) ∈
        o'.entries.map fun e => (e.descriptor, e.gaugeIndex) :=
      List.mem_map_of_mem he
    rw [h.sites] at hsite
    obtain ⟨e₀, he₀, heq⟩ := List.mem_map.mp hsite
    obtain ⟨hdescriptor, hindex⟩ := Prod.mk.inj heq
    rw [h.gauges, ← hindex]
    exact hwf.placed e₀ he₀ (hdescriptor ▸ hkind)
  distinct := by
    have hpair : (o.entries.map fun e => (e.descriptor, e.gaugeIndex)).Pairwise
        fun a b => ∀ g, a.2 = some g → b.2 ≠ some g := List.pairwise_map.mpr hwf.distinct
    rw [← h.sites] at hpair
    exact List.pairwise_map.mp hpair
  owned := howned
  events_detached := h.events ▸ hwf.events_detached
  gauges_detached := h.gauges ▸ hwf.gauges_detached

end StagedOnly

/-! ## Staging -/

variable {o : ObservationSlots} {e : Entry} {index additions total g : Nat}
  {group entries : List Entry} {epoch cycle : BitVec 64}

/-- A call that only stages. -/
abbrev Stages (o o' : ObservationSlots) : Prop := StagedOnly o o' ∧ o'.WellFormed

/-- A slot gets a new value and nothing else changes. -/
theorem setSlot_spec (hwf : o.WellFormed) {slot : Nat} {entry : Entry}
    (hentry : o.entries[slot]? = some entry) {value : ObservationSlot}
    (hvalue : Owned slot value.value) (planes : Nat → Planes) :
    Stages o ({ o with pendingPlanes := planes }.setSlot slot entry value) := by
  obtain ⟨hlt, rfl⟩ := List.getElem?_eq_some_iff.mp hentry
  have hstaged : StagedOnly o ({ o with pendingPlanes := planes }.setSlot slot o.entries[slot]
      value) := by
    refine ⟨rfl, rfl, rfl, rfl, rfl, ?_⟩
    apply List.ext_getElem?
    intro index
    simp only [setSlot, List.getElem?_map, List.getElem?_set]
    by_cases hindex : slot = index
    · subst hindex
      simp [hlt]
    · simp [hindex]
  refine ⟨hstaged, hstaged.wellFormed hwf ?_⟩
  intro index e he
  simp only [setSlot, List.getElem?_set] at he
  by_cases hindex : slot = index
  · subst hindex
    rw [if_pos rfl, if_pos hlt] at he
    obtain rfl := Option.some.inj he
    exact hvalue
  · rw [if_neg hindex] at he
    exact hwf.owned index e he

theorem stage_spec (hwf : o.WellFormed) (slot : Nat)
    (value : SlotValue Planes) (valid path : Bool) (epoch : BitVec 64) :
    Stages o (o.stage slot value valid path epoch).1 := by
  have hsame : Stages o o := ⟨.refl o, hwf⟩
  unfold stage
  cases hentry : o.entries[slot]? with
  | none => exact hsame
  | some entry =>
    dsimp only
    split_ifs with htaken hkind hcanonical
    · exact hsame
    · exact hsame
    · exact setSlot_spec hwf hentry (by simp [Owned, hkind]) _
    · exact setSlot_spec hwf hentry (by simp [Owned, hkind]) o.pendingPlanes

/-- New pending planes; the slots that are taken keep theirs. -/
theorem pendingPlanes_spec (hwf : o.WellFormed) (planes : Nat → Planes) :
    Stages o { o with pendingPlanes := planes } := by
  have hstaged : StagedOnly o { o with pendingPlanes := planes } := ⟨rfl, rfl, rfl, rfl, rfl, rfl⟩
  exact ⟨hstaged, hstaged.wellFormed hwf hwf.owned⟩

theorem stagePacked_spec {width : Nat} (hwf : o.WellFormed) (slot : Nat)
    (v : Gfsim.FourState width) (eventBool valid path : Bool) (epoch : BitVec 64) :
    Stages o (o.stagePacked slot v eventBool valid path epoch).1 := by
  unfold stagePacked
  cases hentry : o.entries[slot]? with
  | none => exact ⟨.refl o, hwf⟩
  | some entry =>
    dsimp only
    split_ifs with htaken hknown
    · exact ⟨.refl o, hwf⟩
    · exact stage_spec hwf slot _ valid path epoch
    · obtain ⟨hplanes, hplanesWf⟩ :=
        pendingPlanes_spec hwf (Function.update o.pendingPlanes slot (packedPlanes v))
      obtain ⟨hstaged, hstagedWf⟩ := stage_spec hplanesWf slot
        ⟨.bits4, 0#64, width, packedPlanes v⟩ valid path epoch
      exact ⟨hplanes.trans hstaged, hstagedWf⟩

theorem owned_empty (index : Nat) : Owned index ObservationSlot.empty.value := by
  simp [Owned, ObservationSlot.empty]

/-- An entry of the discarded slots. -/
theorem owned_discardNext
    (he : o.discardNext.entries[index]? = some e) : Owned index e.slot.value := by
  rw [discardNext, List.getElem?_map] at he
  obtain ⟨e₀, -, rfl⟩ := Option.map_eq_some_iff.mp he
  exact owned_empty index

theorem discardNext_spec (hwf : o.WellFormed) : Stages o o.discardNext := by
  have hstaged : StagedOnly o o.discardNext := by
    refine ⟨rfl, rfl, rfl, rfl, rfl, ?_⟩
    simp [discardNext]
  exact ⟨hstaged, hstaged.wellFormed hwf fun _ _ => owned_discardNext⟩

/-- Slots that are discarded, with other gauges and events. -/
theorem wellFormed_of_discarded {o' : ObservationSlots} (hwf : o.WellFormed)
    (hentries : o'.entries = o.discardNext.entries) (hlength : o'.gauges.length = o.gauges.length)
    (hevents : ∀ event ∈ o'.events, Detached event.value)
    (hgauges : ∀ gauge ∈ o'.gauges, ∃ planes, gauge.value.spans = .words planes) :
    o'.WellFormed := by
  obtain ⟨hgrouped, hplaced, hdistinct, howned, -, -⟩ := (discardNext_spec hwf).2
  rw [← hentries] at hgrouped hplaced hdistinct howned
  have hgaugesLength : o.discardNext.gauges.length = o'.gauges.length := hlength.symm
  rw [hgaugesLength] at hplaced
  exact ⟨hgrouped, hplaced, hdistinct, howned, hevents, hgauges⟩

/-! ## The check before a commit -/

/-- The members of a group are of one kind. -/
theorem groupValid_kind {first : ObservationDescriptor} {descriptors : List ObservationDescriptor}
    (h : groupValid first descriptors = true) {d : ObservationDescriptor}
    (hd : d ∈ descriptors.take first.groupSize) : d.kind = first.kind := by
  obtain ⟨member, hmember⟩ := List.mem_iff_getElem?.mp hd
  have hpair : (d, member) ∈ (descriptors.take first.groupSize).zipIdx :=
    List.mem_zipIdx_iff_getElem?.mpr hmember
  simp only [groupValid, Bool.and_eq_true, List.all_eq_true] at h
  have hchecked := h.2 (d, member) hpair
  simp only [decide_eq_true_eq] at hchecked
  exact hchecked.2

/-- A value that is to be seen is of this epoch, and fits a gauge where it goes to one. -/
def Admitted (epoch : BitVec 64) (e : Entry) : Prop :=
  e.published = true → e.slot.evaluationEpoch = epoch ∧
    (e.descriptor.kind = .gauge → e.slot.value.kind = .unsigned)

/-- The slot adds an event. -/
def addsEvent (e : Entry) : Bool := e.published && e.descriptor.kind = .event

theorem admitValue_events (hroom : additions ≤ o.eventCapacity)
    (h : group.foldlM (o.admitValue .event) additions = some total) :
    total = additions + group.length ∧ total ≤ o.eventCapacity := by
  induction group generalizing additions with
  | nil =>
    obtain rfl := Option.some.inj h
    exact ⟨rfl, hroom⟩
  | cons e group ih =>
    obtain ⟨next, hnext, hrest⟩ := Option.bind_eq_some_iff.mp h
    simp only [admitValue] at hnext
    split_ifs at hnext with hcanonical hfull
    obtain rfl := Option.some.inj hnext
    obtain ⟨htotal, hle⟩ := ih (by omega) hrest
    exact ⟨by rw [htotal, List.length_cons]; omega, hle⟩

theorem admitValue_gauges (h : group.foldlM (o.admitValue .gauge) additions = some total) :
    total = additions ∧ ∀ e ∈ group, e.slot.value.kind = .unsigned := by
  induction group generalizing additions with
  | nil => exact ⟨(Option.some.inj h).symm, List.forall_mem_nil _⟩
  | cons e group ih =>
    obtain ⟨next, hnext, hrest⟩ := Option.bind_eq_some_iff.mp h
    simp only [admitValue] at hnext
    split_ifs at hnext with hkind
    obtain rfl := Option.some.inj hnext
    simp only [Bool.or_eq_true, not_or, bne_iff_ne, ne_eq, not_not] at hkind
    obtain ⟨htotal, hgroup⟩ := ih hrest
    exact ⟨htotal, List.forall_mem_cons.mpr ⟨hkind.1, hgroup⟩⟩

/-- A group without a value that is to be seen adds nothing. -/
theorem quiet_group (epoch : BitVec 64)
    (h : ∀ e ∈ group, e.published = false) :
    (∀ e ∈ group, Admitted epoch e) ∧ group.countP addsEvent = 0 := by
  constructor
  · intro e he hpublished
    rw [h e he] at hpublished
    cases hpublished
  · apply List.countP_eq_zero.mpr
    intro e he
    simp [addsEvent, h e he]

/-- A group passes with no value to be seen, or with all of them of the epoch. -/
theorem checkGroup_cases {first : Entry}
    (h : o.checkGroup (some epoch) first group additions = some total) :
    ((∀ e ∈ group, e.published = false) ∧ total = additions) ∨
      (∀ e ∈ group, e.published = true ∧ e.slot.evaluationEpoch = epoch) ∧
        group.foldlM (o.admitValue first.descriptor.kind) additions = some total := by
  rw [checkGroup] at h
  split_ifs at h with hany hall hepoch hpath hvalid hfirst
  · -- No slot is pending.
    simp only [Bool.not_eq_true', List.any_eq_false] at hany
    refine .inl ⟨fun e he => ?_, (Option.some.inj h).symm⟩
    simp [Entry.published, hany e he]
  · -- The path is not taken.
    simp only [Bool.not_eq_true, List.any_eq_false, Bool.or_eq_true, not_or, bne_iff_ne, ne_eq,
      not_not] at hepoch
    refine .inl ⟨fun e he => ?_, (Option.some.inj h).symm⟩
    have hslot := (hepoch e he).2
    simp only [Bool.not_eq_true'] at hpath
    simp [Entry.published, hslot, hpath]
  · -- The values are not valid.
    simp only [Bool.not_eq_true, List.any_eq_false, bne_iff_ne, ne_eq, not_not] at hvalid
    refine .inl ⟨fun e he => ?_, (Option.some.inj h).symm⟩
    simp only [Bool.not_eq_true'] at hfirst
    simp [Entry.published, hvalid e he, hfirst]
  · -- Every value of the group is to be seen.
    simp only [Bool.not_eq_true, Bool.not_eq_false', List.all_eq_true] at hall
    simp only [Bool.not_eq_true, List.any_eq_false, Bool.or_eq_true, not_or, bne_iff_ne, ne_eq,
      not_not, Option.any_some] at hepoch
    simp only [Bool.not_eq_true, List.any_eq_false, bne_iff_ne, ne_eq, not_not] at hvalid
    simp only [Bool.not_eq_true, Bool.not_eq_false'] at hpath hfirst
    refine .inr ⟨fun e he => ⟨?_, (hepoch e he).1⟩, h⟩
    simp [Entry.published, hall e he, hvalid e he, (hepoch e he).2, hpath, hfirst]

/-- One round: what the group adds is counted, and its values are of the epoch. -/
theorem checkGroup_sound {first : Entry}
    (hkind : ∀ e ∈ group, e.descriptor.kind = first.descriptor.kind)
    (hroom : additions ≤ o.eventCapacity)
    (h : o.checkGroup (some epoch) first group additions = some total) :
    (∀ e ∈ group, Admitted epoch e) ∧ total = additions + group.countP addsEvent ∧
      total ≤ o.eventCapacity := by
  rcases checkGroup_cases h with ⟨hnone, rfl⟩ | ⟨hall, hfold⟩
  · obtain ⟨hadmitted, hcount⟩ := quiet_group epoch hnone
    exact ⟨hadmitted, by rw [hcount, Nat.add_zero], hroom⟩
  · cases hfirstKind : first.descriptor.kind with
    | event =>
      rw [hfirstKind] at hfold hkind
      obtain ⟨htotal, hle⟩ := admitValue_events hroom hfold
      have hcount : group.countP addsEvent = group.length := by
        apply List.countP_eq_length.mpr
        intro e he
        simp [addsEvent, (hall e he).1, hkind e he]
      refine ⟨fun e he _ => ⟨(hall e he).2, ?_⟩, by rw [htotal, hcount], hle⟩
      rw [hkind e he]
      exact nofun
    | gauge =>
      rw [hfirstKind] at hfold hkind
      obtain ⟨htotal, hunsigned⟩ := admitValue_gauges hfold
      have hcount : group.countP addsEvent = 0 := by
        apply List.countP_eq_zero.mpr
        intro e he
        simp [addsEvent, hkind e he]
      refine ⟨fun e he _ => ⟨(hall e he).2, fun _ => hunsigned e he⟩, ?_, ?_⟩
      · rw [htotal, hcount, Nat.add_zero]
      · rw [htotal]
        exact hroom

/-- The loop: the events of all groups fit, and every value that is to be seen is of the epoch. -/
theorem checkFrom_sound {fuel : Nat}
    (hgroups : groupsValid fuel (entries.map fun e => e.descriptor) = true)
    (hroom : additions ≤ o.eventCapacity)
    (h : o.checkFrom (some epoch) fuel entries additions = true) :
    (∀ e ∈ entries, Admitted epoch e) ∧ additions + entries.countP addsEvent ≤ o.eventCapacity := by
  induction fuel generalizing entries additions with
  | zero =>
    cases entries with
    | nil => exact ⟨List.forall_mem_nil _, hroom⟩
    | cons first rest => cases h
  | succ fuel ih =>
    cases entries with
    | nil => exact ⟨List.forall_mem_nil _, hroom⟩
    | cons first rest =>
      rw [List.map_cons, groupsValid, Bool.and_eq_true, ← List.map_cons, ← List.map_drop] at hgroups
      have hkind : ∀ e ∈ (first :: rest).take first.descriptor.groupSize,
          e.descriptor.kind = first.descriptor.kind := by
        intro e he
        apply groupValid_kind hgroups.1
        rw [← List.map_take]
        exact List.mem_map_of_mem he
      rw [checkFrom] at h
      cases hgroup : o.checkGroup (some epoch) first
          ((first :: rest).take first.descriptor.groupSize) additions with
      | none => simp [hgroup] at h
      | some total =>
        rw [hgroup] at h
        obtain ⟨hadmitted, htotal, hle⟩ := checkGroup_sound hkind hroom hgroup
        obtain ⟨hrest, hcount⟩ := ih hgroups.2 hle h
        -- The group and the rest make up the whole list.
        have hsplit := List.take_append_drop first.descriptor.groupSize (first :: rest)
        constructor
        · rw [← hsplit]
          exact List.forall_mem_append.mpr ⟨hadmitted, hrest⟩
        · rw [← hsplit, List.countP_append]
          omega

/-! ## Publication -/

/-- The events that the staged slots make up, in the order of the slots. -/
def stagedEvents (o : ObservationSlots) (epoch : BitVec 64) (entries : List Entry) :
    List (CommittedEventSlot Planes) :=
  (entries.filter addsEvent).map fun e => ⟨epoch, e.descriptor, o.read e.slot.value⟩

/-- A published value with the words its spans show. -/
def Board.read (board : Board) (v : SlotValue Spans) : SlotValue Planes :=
  { v with spans := match v.spans with
    | .words planes => planes
    | .region _ slot => board.planes slot }

def Board.eventsView (board : Board) : List (CommittedEventSlot Planes) :=
  board.events.map fun event => ⟨event.epoch, event.descriptor, board.read event.value⟩

/-- The published values refer to the committed regions of slots before `index`. -/
def Board.Below (index : Nat) (board : Board) : Prop :=
  ∀ event ∈ board.events, (∃ planes, event.value.spans = .words planes) ∨
    ∃ slot, slot < index ∧ event.value.spans = .region .committed slot

theorem Board.Below.succ {index : Nat} {board : Board} (h : board.Below index) :
    board.Below (index + 1) := by
  intro event hevent
  rcases h event hevent with hwords | ⟨slot, hslot, hregion⟩
  · exact .inl hwords
  · exact .inr ⟨slot, Nat.lt_succ_of_lt hslot, hregion⟩

/-- Behind the check, the epochs in the transfer exclude nothing. -/
theorem publish_of_published
    (hcycle : cycle ≠ BitVec.allOnes 64) (hadmitted : Admitted cycle e) (h : e.published = true)
    (index : Nat) (board : Board) :
    o.publish (cycle + 1#64) index e board =
      if e.descriptor.kind = .event then o.publishEvent (cycle + 1#64) index e board
      else publishGauge (cycle + 1#64) e board := by
  have hepoch := (hadmitted h).1
  have hlast : (cycle != BitVec.allOnes 64) = true := bne_iff_ne.mpr hcycle
  unfold publish
  rw [if_pos (by rw [h, hepoch, hlast, decide_eq_true rfl]; rfl)]
  cases e.descriptor.kind with
  | event | gauge => rfl

theorem publish_of_not_published (h : e.published = false) (index : Nat) (board : Board) :
    o.publish epoch index e board = board := by
  unfold publish
  rw [if_neg (by simp [h])]

/-- An older value reads the same after the region of a later slot was written. -/
theorem Board.eventsView_update {board : Board} (h : board.Below index)
    (planes : Planes) :
    (board.events.map fun event => (⟨event.epoch, event.descriptor,
      { board with planes := Function.update board.planes index planes : Board }.read event.value⟩ :
        CommittedEventSlot Planes)) = board.eventsView := by
  apply List.map_congr_left
  intro event hevent
  congr 1
  unfold Board.read
  rcases h event hevent with ⟨words, hwords⟩ | ⟨slot, hslot, hregion⟩
  · simp only [hwords]
  · simp only [hregion]
    rw [Function.update_of_ne (Nat.ne_of_lt hslot)]

/-- Publishing one event. -/
theorem publishEvent_spec (epoch : BitVec 64)
    {board : Board} (hroom : board.events.length < o.eventCapacity)
    (howned : Owned index e.slot.value) (hbelow : board.Below index) :
    (o.publishEvent epoch index e board).eventsView =
        board.eventsView ++ [⟨epoch, e.descriptor, o.read e.slot.value⟩] ∧
      (o.publishEvent epoch index e board).Below (index + 1) ∧
      (o.publishEvent epoch index e board).events.length = board.events.length + 1 ∧
      (o.publishEvent epoch index e board).gauges = board.gauges := by
  unfold publishEvent
  rw [if_pos hroom]
  unfold Owned at howned
  split_ifs at howned ⊢ with hkind
  · refine ⟨?_, ?_, List.length_append, rfl⟩
    · unfold Board.eventsView
      rw [List.map_append]
      congr 1
      · exact Board.eventsView_update hbelow _
      · simp [Board.read, read]
    · exact List.forall_mem_append.mpr ⟨hbelow.succ,
        List.forall_mem_singleton.mpr (.inr ⟨index, Nat.lt_succ_self index, rfl⟩)⟩
  · obtain ⟨planes, hplanes⟩ := howned
    refine ⟨?_, ?_, List.length_append, rfl⟩
    · unfold Board.eventsView
      rw [List.map_append]
      congr 1
      simp [Board.read, read, hplanes]
    · exact List.forall_mem_append.mpr ⟨hbelow.succ,
        List.forall_mem_singleton.mpr (.inl ⟨planes, hplanes⟩)⟩

theorem publishGauge_events (epoch : BitVec 64) (e : Entry) (board : Board) :
    (publishGauge epoch e board).events = board.events ∧
      (publishGauge epoch e board).planes = board.planes := by
  unfold publishGauge
  cases e.gaugeIndex with
  | none | some g => exact ⟨rfl, rfl⟩

/-- Two boards with the same events in the same planes. -/
theorem Board.eventsView_congr {b b' : Board} (hevents : b'.events = b.events)
    (hplanes : b'.planes = b.planes) : b'.eventsView = b.eventsView := by
  unfold Board.eventsView Board.read
  rw [hevents, hplanes]

/-- The loop publishes the staged events behind those that are there. -/
theorem publishFrom_events (index : Nat) (board : Board) (hcycle : cycle ≠ BitVec.allOnes 64)
    (hadmitted : ∀ e ∈ entries, Admitted cycle e)
    (howned : ∀ k e, entries[k]? = some e → Owned (index + k) e.slot.value)
    (hroom : board.events.length + entries.countP addsEvent ≤ o.eventCapacity)
    (hbelow : board.Below index) :
    (o.publishFrom (cycle + 1#64) index entries board).eventsView =
        board.eventsView ++ stagedEvents o (cycle + 1#64) entries ∧
      (o.publishFrom (cycle + 1#64) index entries board).Below (index + entries.length) := by
  induction entries generalizing index board with
  | nil => exact ⟨(List.append_nil _).symm, hbelow⟩
  | cons e rest ih =>
    have hadmittedRest : ∀ e' ∈ rest, Admitted cycle e' := (List.forall_mem_cons.mp hadmitted).2
    have hownedRest : ∀ k e', rest[k]? = some e' → Owned (index + 1 + k) e'.slot.value := by
      intro k e' he'
      have := howned (k + 1) e' (by rw [List.getElem?_cons_succ]; exact he')
      rwa [Nat.add_assoc, Nat.add_comm 1 k]
    rw [publishFrom, List.length_cons, Nat.add_comm rest.length 1, ← Nat.add_assoc]
    by_cases hadds : addsEvent e = true
    · obtain ⟨hpublished, hkind⟩ := Bool.and_eq_true_iff.mp hadds
      rw [publish_of_published hcycle (hadmitted e List.mem_cons_self) hpublished,
        if_pos (of_decide_eq_true hkind)]
      rw [List.countP_cons_of_pos hadds] at hroom
      have hfree : board.events.length < o.eventCapacity := by omega
      have hown : Owned index e.slot.value := howned 0 e rfl
      obtain ⟨hview, hbelow', hlength, -⟩ :=
        publishEvent_spec (cycle + 1#64) hfree hown hbelow
      obtain ⟨hevents, hall⟩ := ih _ _ hadmittedRest hownedRest (by omega) hbelow'
      refine ⟨?_, hall⟩
      rw [hevents, hview, stagedEvents, stagedEvents, List.filter_cons_of_pos hadds,
        List.map_cons, List.append_assoc]
      rfl
    · -- Nothing is added to the events: the slot is quiet or a gauge.
      have hsame : (o.publish (cycle + 1#64) index e board).events = board.events ∧
          (o.publish (cycle + 1#64) index e board).planes = board.planes := by
        cases hpublished : e.published with
        | false =>
          rw [publish_of_not_published hpublished]
          exact ⟨rfl, rfl⟩
        | true =>
          have hkind : e.descriptor.kind ≠ .event := by
            intro hkind
            exact hadds (by simp [addsEvent, hpublished, hkind])
          rw [publish_of_published hcycle (hadmitted e List.mem_cons_self) hpublished,
            if_neg hkind]
          exact publishGauge_events _ e board
      rw [List.countP_cons_of_neg hadds] at hroom
      obtain ⟨hevents, hall⟩ := ih _ _ hadmittedRest hownedRest (by rw [hsame.1]; exact hroom)
        (by
          intro event hevent
          rw [hsame.1] at hevent
          exact hbelow.succ event hevent)
      refine ⟨?_, hall⟩
      rw [hevents, Board.eventsView_congr hsame.1 hsame.2, stagedEvents, stagedEvents,
        List.filter_cons_of_neg hadds]

/-- The slot updates the gauge with this place. -/
def UpdatesGauge (e : Entry) (g : Nat) : Prop :=
  e.published = true ∧ e.descriptor.kind = .gauge ∧ e.gaugeIndex = some g

/-- One round leaves every gauge but the slot's own. -/
theorem publish_gauge_of_ne (h : ¬ UpdatesGauge e g) (index : Nat) (board : Board) :
    (o.publish epoch index e board).gauges[g]? = board.gauges[g]? := by
  unfold publish
  split_ifs with hguard
  · have hpublished : e.published = true := by
      simp only [Bool.and_eq_true] at hguard
      exact hguard.1.1
    cases hkind : e.descriptor.kind with
    | event =>
      unfold publishEvent
      split_ifs <;> rfl
    | gauge =>
      unfold publishGauge
      cases hindex : e.gaugeIndex with
      | none => rfl
      | some k =>
        have hne : k ≠ g := fun heq => h ⟨hpublished, hkind, heq ▸ hindex⟩
        simp [hne]
  · rfl

/-- The loop leaves a gauge that no slot updates. -/
theorem publishFrom_gauge_of_ne
    (h : ∀ e ∈ entries, ¬ UpdatesGauge e g) (index : Nat) (board : Board) :
    (o.publishFrom epoch index entries board).gauges[g]? = board.gauges[g]? := by
  induction entries generalizing index board with
  | nil => rfl
  | cons e rest ih =>
    rw [publishFrom, ih (List.forall_mem_cons.mp h).2,
      publish_gauge_of_ne (h e List.mem_cons_self)]

/-- The loop keeps the number of gauges. -/
theorem publishFrom_gauges_length (entries : List Entry)
    (index : Nat) (board : Board) :
    (o.publishFrom epoch index entries board).gauges.length = board.gauges.length := by
  induction entries generalizing index board with
  | nil => rfl
  | cons e rest ih =>
    rw [publishFrom, ih]
    unfold publish publishEvent publishGauge
    cases e.descriptor.kind <;> cases e.gaugeIndex <;> dsimp only <;> split_ifs <;> simp

/-- The loop writes the gauge of a slot once. -/
theorem publishFrom_gauge (index : Nat) (board : Board) (hcycle : cycle ≠ BitVec.allOnes 64)
    (hadmitted : ∀ e ∈ entries, Admitted cycle e)
    (hdistinct : entries.Pairwise fun a b => ∀ g, a.gaugeIndex = some g → b.gaugeIndex ≠ some g)
    (he : e ∈ entries) (hupdates : UpdatesGauge e g) :
    (o.publishFrom (cycle + 1#64) index entries board).gauges[g]? =
      (board.gauges[g]?).map fun gauge =>
        { gauge with value := e.slot.value, lastUpdate := cycle + 1#64 } := by
  induction entries generalizing index board with
  | nil => cases he
  | cons first rest ih =>
    obtain ⟨hfirst, hrest⟩ := List.pairwise_cons.mp hdistinct
    rw [publishFrom]
    rcases List.mem_cons.mp he with rfl | hmem
    · -- No later slot has this place.
      rw [publishFrom_gauge_of_ne fun e' he' hother =>
        hfirst e' he' g hupdates.2.2 hother.2.2]
      rw [publish_of_published hcycle (hadmitted e List.mem_cons_self) hupdates.1,
        if_neg (by rw [hupdates.2.1]; exact nofun)]
      simp [publishGauge, hupdates.2.2]
    · have hother : ¬ UpdatesGauge first g := fun hboth =>
        hfirst e hmem g hboth.2.2 hupdates.2.2
      rw [ih _ _ (List.forall_mem_cons.mp hadmitted).2 hrest hmem,
        publish_gauge_of_ne hother]

/-- What a transfer publishes of the staged slots. -/
structure Published (staged after : ObservationSlots) (epoch : BitVec 64) : Prop where
  events : after.eventsView = stagedEvents staged epoch staged.entries
  updated : ∀ e ∈ staged.entries, e.published = true → e.descriptor.kind = .gauge →
    ∃ g gauge, e.gaugeIndex = some g ∧ staged.gaugesView[g]? = some gauge ∧
      after.gaugesView[g]? =
        some { gauge with value := staged.read e.slot.value, lastUpdate := epoch }
  kept : ∀ g, (∀ e ∈ staged.entries, ¬ UpdatesGauge e g) →
    after.gaugesView[g]? = staged.gaugesView[g]?
  cleared : ∀ e ∈ after.entries, e.slot = .empty

/-- The gauge of a place, as a reader sees it. -/
theorem gaugesView_getElem? (o : ObservationSlots) (g : Nat) :
    o.gaugesView[g]? = (o.gauges[g]?).map fun gauge =>
      ⟨gauge.stableOrdinal, o.read gauge.value, gauge.lastUpdate⟩ := List.getElem?_map ..

/-- A value that refers to no region. -/
theorem read_words {v : SlotValue Spans} {planes : Planes}
    (h : v.spans = .words planes) : o.read v = { v with spans := planes } := by
  simp only [read, h]

/-- A value that is staged for a gauge refers to no region. -/
theorem gauge_words (hwf : o.WellFormed)
    (he : e ∈ o.entries) (hadmitted : Admitted cycle e) (hpublished : e.published = true)
    (hkind : e.descriptor.kind = .gauge) : ∃ planes, e.slot.value.spans = .words planes := by
  obtain ⟨index, hindex⟩ := List.mem_iff_getElem?.mp he
  have howned := hwf.owned index e hindex
  have hunsigned := (hadmitted hpublished).2 hkind
  rw [Owned, if_neg (by rw [hunsigned]; exact nofun)] at howned
  exact howned

/-- A transfer that the check has admitted publishes everything that is staged. -/
theorem xfer_published (hwf : o.WellFormed)
    (hcycle : cycle ≠ BitVec.allOnes 64) (hcheck : o.precommit cycle = true) :
    Published o (o.xfer (cycle + 1#64)) (cycle + 1#64) ∧ (o.xfer (cycle + 1#64)).WellFormed := by
  obtain ⟨-, hfrom⟩ := Bool.and_eq_true_iff.mp hcheck
  obtain ⟨hadmitted, hroom⟩ := checkFrom_sound hwf.grouped (Nat.zero_le _) hfrom
  have howned : ∀ k e, o.entries[k]? = some e → Owned (0 + k) e.slot.value := by
    intro k e he
    rw [Nat.zero_add]
    exact hwf.owned k e he
  obtain ⟨hevents, hbelow⟩ := publishFrom_events 0 ⟨[], o.gauges, o.committedPlanes⟩ hcycle
    hadmitted howned (by simpa using hroom) (List.forall_mem_nil _)
  have hevent : ∀ event ∈ (o.xfer (cycle + 1#64)).events, Detached event.value := by
    intro event hevent slot hslot
    rcases hbelow event hevent with ⟨planes, hplanes⟩ | ⟨other, -, hregion⟩
    · rw [hplanes] at hslot
      cases hslot
    · rw [hregion] at hslot
      cases hslot
  have hlength : (o.xfer (cycle + 1#64)).gauges.length = o.gauges.length :=
    publishFrom_gauges_length o.entries 0 ⟨[], o.gauges, o.committedPlanes⟩
  have hkept : ∀ g, (∀ e ∈ o.entries, ¬ UpdatesGauge e g) →
      (o.xfer (cycle + 1#64)).gauges[g]? = o.gauges[g]? := fun g hg =>
    publishFrom_gauge_of_ne hg 0 ⟨[], o.gauges, o.committedPlanes⟩
  have hupdated : ∀ e ∈ o.entries, ∀ g, UpdatesGauge e g →
      (o.xfer (cycle + 1#64)).gauges[g]? = (o.gauges[g]?).map fun gauge =>
        { gauge with value := e.slot.value, lastUpdate := cycle + 1#64 } := fun e he g hg =>
    publishFrom_gauge 0 ⟨[], o.gauges, o.committedPlanes⟩ hcycle hadmitted hwf.distinct he hg
  -- Every gauge is the old one or the value of an admitted slot, and neither refers to a region.
  have hgauge : ∀ gauge ∈ (o.xfer (cycle + 1#64)).gauges,
      ∃ planes, gauge.value.spans = .words planes := by
    intro gauge hgauge
    obtain ⟨g, hg⟩ := List.mem_iff_getElem?.mp hgauge
    by_cases hupdates : ∃ e ∈ o.entries, UpdatesGauge e g
    · obtain ⟨e, he, hboth⟩ := hupdates
      rw [hupdated e he g hboth] at hg
      obtain ⟨old, -, rfl⟩ := Option.map_eq_some_iff.mp hg
      exact gauge_words hwf he (hadmitted e he) hboth.1 hboth.2.1
    · rw [hkept g fun e he hboth => hupdates ⟨e, he, hboth⟩] at hg
      exact hwf.gauges_detached gauge (List.mem_of_getElem? hg)
  refine ⟨⟨?_, ?_, ?_, ?_⟩, wellFormed_of_discarded hwf rfl hlength hevent hgauge⟩
  · rw [← List.nil_append (stagedEvents o _ _)]
    refine Eq.trans ?_ hevents
    apply List.map_congr_left
    intro event hmem
    unfold read Board.read
    rcases hbelow event hmem with ⟨planes, hplanes⟩ | ⟨slot, -, hregion⟩
    · simp only [hplanes]
    · simp only [hregion, xfer]
  · intro e he hpublished hkind
    obtain ⟨g, hg, hlt⟩ := hwf.placed e he hkind
    obtain ⟨planes, hplanes⟩ := gauge_words hwf he (hadmitted e he) hpublished hkind
    have hold : o.gauges[g]? = some o.gauges[g] := List.getElem?_eq_getElem hlt
    refine ⟨g, ⟨o.gauges[g].stableOrdinal, o.read o.gauges[g].value, o.gauges[g].lastUpdate⟩, hg,
      ?_, ?_⟩
    · rw [gaugesView_getElem?, hold]
      rfl
    · rw [gaugesView_getElem?, hupdated e he g ⟨hpublished, hkind, hg⟩, hold]
      simp only [Option.map_some, read_words hplanes]
  · intro g hg
    rw [gaugesView_getElem?, gaugesView_getElem?, hkept g hg]
    cases hold : o.gauges[g]? with
    | none => rfl
    | some gauge =>
      obtain ⟨planes, hplanes⟩ := hwf.gauges_detached gauge (List.mem_of_getElem? hold)
      simp only [Option.map_some, read_words hplanes]
  · intro e he
    obtain ⟨e₀, -, rfl⟩ := List.mem_map.mp he
    rfl

/-! ## The other calls -/

theorem reset_wellFormed (hwf : o.WellFormed) : o.reset.WellFormed := by
  have hlength : o.reset.gauges.length = o.gauges.length := List.length_map ..
  refine wellFormed_of_discarded hwf rfl hlength (List.forall_mem_nil _) ?_
  intro gauge hgauge
  obtain ⟨old, -, rfl⟩ := List.mem_map.mp hgauge
  exact ⟨{}, rfl⟩

/-- The places of the gauges are given out in order. -/
theorem assignGauges_spec (next : Nat) (descriptors : List ObservationDescriptor) :
    ((assignGauges next descriptors).map fun e => e.descriptor) = descriptors ∧
      (∀ e ∈ assignGauges next descriptors, e.slot = .empty) ∧
      (∀ e ∈ assignGauges next descriptors, ∀ g, e.gaugeIndex = some g → next ≤ g) ∧
      (∀ e ∈ assignGauges next descriptors, e.descriptor.kind = .gauge →
        ∃ g, e.gaugeIndex = some g ∧
          g < next + (descriptors.filter fun d => d.kind = .gauge).length) ∧
      (assignGauges next descriptors).Pairwise
        fun a b => ∀ g, a.gaugeIndex = some g → b.gaugeIndex ≠ some g := by
  induction descriptors generalizing next with
  | nil =>
    exact ⟨rfl, List.forall_mem_nil _, List.forall_mem_nil _, List.forall_mem_nil _, .nil⟩
  | cons d rest ih =>
    cases hkind : d.kind with
    | event =>
      obtain ⟨hmap, hslot, hfrom, hplaced, hdistinct⟩ := ih next
      simp only [assignGauges, hkind]
      refine ⟨?_, ?_, ?_, ?_, ?_⟩
      · rw [List.map_cons, hmap]
      · exact List.forall_mem_cons.mpr ⟨rfl, hslot⟩
      · exact List.forall_mem_cons.mpr ⟨nofun, hfrom⟩
      · refine List.forall_mem_cons.mpr ⟨fun hgauge => ?_, ?_⟩
        · rw [hkind] at hgauge
          cases hgauge
        · rw [List.filter_cons_of_neg (by simp [hkind])]
          exact hplaced
      · exact List.pairwise_cons.mpr ⟨fun _ _ _ => nofun, hdistinct⟩
    | gauge =>
      obtain ⟨hmap, hslot, hfrom, hplaced, hdistinct⟩ := ih (next + 1)
      simp only [assignGauges, hkind]
      rw [List.filter_cons_of_pos (by simp [hkind]), List.length_cons]
      refine ⟨?_, ?_, ?_, ?_, ?_⟩
      · rw [List.map_cons, hmap]
      · exact List.forall_mem_cons.mpr ⟨rfl, hslot⟩
      · refine List.forall_mem_cons.mpr ⟨fun g hg => (Option.some.inj hg).le, ?_⟩
        exact fun e he g hg => Nat.le_of_succ_le (hfrom e he g hg)
      · refine List.forall_mem_cons.mpr ⟨fun _ => ⟨next, rfl, by omega⟩, ?_⟩
        intro e he hgauge
        obtain ⟨g, hg, hlt⟩ := hplaced e he hgauge
        exact ⟨g, hg, by omega⟩
      · refine List.pairwise_cons.mpr ⟨?_, hdistinct⟩
        intro e he g hg hother
        have := hfrom e he g hother
        obtain rfl := Option.some.inj hg
        omega

theorem configure_wellFormed (hwf : o.WellFormed)
    (descriptors : List ObservationDescriptor) (eventCapacity : Nat) :
    (o.configure descriptors eventCapacity).1.WellFormed := by
  unfold configure
  split_ifs with hconfigured hinventory hgroups hfits
  · exact hwf
  · exact hwf
  · exact hwf
  · exact hwf
  · obtain ⟨hmap, hslot, -, hplaced, hdistinct⟩ := assignGauges_spec 0 descriptors
    have hlength := congrArg List.length hmap
    rw [List.length_map] at hlength
    refine ⟨?_, ?_, hdistinct, ?_, hwf.events_detached, ?_⟩
    · simp only [hmap, hlength]
      simpa using hgroups
    · intro e he hkind
      obtain ⟨g, hg, hlt⟩ := hplaced e he hkind
      exact ⟨g, hg, by simpa using hlt⟩
    · intro index e he
      rw [hslot e (List.mem_of_getElem? he)]
      exact owned_empty index
    · intro gauge hgauge
      obtain ⟨d, -, rfl⟩ := List.mem_map.mp hgauge
      exact ⟨{}, rfl⟩

theorem empty_wellFormed : empty.WellFormed where
  grouped := rfl
  placed := List.forall_mem_nil _
  distinct := .nil
  owned := fun index _ h => absurd (h.symm.trans (List.getElem?_nil (i := index))) (by simp)
  events_detached := List.forall_mem_nil _
  gauges_detached := List.forall_mem_nil _

end ObservationSlots

end PyCircuit.Simulation
