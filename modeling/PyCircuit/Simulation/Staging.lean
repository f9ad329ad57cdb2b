import PyCircuit.Simulation.Publishing

/-!
# Staging calls and steps of the observation slots

Between two commits a slot takes the first staging call that fits its descriptor and refuses the
others, so the calls themselves say what is staged. A run of the slots is a configuration and then
steps, each of which stages values and is committed, discarded or ended by a reset.
-/

set_option autoImplicit false

namespace PyCircuit.Simulation

open PyCircuit.Gfsim

/-- A call of `Stage` or of `StagePacked`. -/
inductive Staging where
  | stage (slot : Nat) (value : SlotValue Planes) (valid path : Bool) (epoch : BitVec 64)
  | stagePacked {width : Nat} (slot : Nat) (value : FourState width) (eventBool valid path : Bool)
      (epoch : BitVec 64)

namespace Staging

def slot : Staging → Nat
  | .stage slot _ _ _ _ => slot
  | .stagePacked slot _ _ _ _ _ => slot

/-- The value the call offers. -/
def offered : Staging → SlotValue Planes
  | .stage _ value _ _ _ => value
  | @stagePacked w _ v eventBool _ _ _ =>
    if w ≤ 64 ∧ v.isFullyKnown = true then ObservationSlots.scalarValue v eventBool
    else ⟨.bits4, BitVec.ofNat 64 0, w, ObservationSlots.packedPlanes v⟩

def valid : Staging → Bool
  | .stage _ _ valid _ _ => valid
  | .stagePacked _ _ _ valid _ _ => valid

def path : Staging → Bool
  | .stage _ _ _ path _ => path
  | .stagePacked _ _ _ _ path _ => path

def epoch : Staging → BitVec 64
  | .stage _ _ _ _ epoch => epoch
  | .stagePacked _ _ _ _ _ epoch => epoch

/-- The call is addressed to a slot of its own width. -/
def addressed (d : ObservationDescriptor) : Staging → Bool
  | .stage _ _ _ _ _ => true
  | @stagePacked w _ _ _ _ _ _ => d.payloadWidth = w

/-- A value of arbitrary width is well formed and has the width of the slot. -/
def fits (d : ObservationDescriptor) (v : SlotValue Planes) : Bool :=
  v.kind != .bits4 || (v.isCanonicalBits4 && d.payloadWidth = v.width)

/-- The call fits the descriptor of its slot. -/
def accepts (d : ObservationDescriptor) (call : Staging) : Bool :=
  call.addressed d && fits d call.offered

/-- The call is one that the slot at the index would take. -/
def fitsSlot (index : Nat) (d : ObservationDescriptor) (call : Staging) : Bool :=
  call.slot = index && call.accepts d

/-- The call on the slots. -/
def run (o : ObservationSlots) : Staging → ObservationSlots
  | .stage slot value valid path epoch => (o.stage slot value valid path epoch).1
  | .stagePacked slot value eventBool valid path epoch =>
    (o.stagePacked slot value eventBool valid path epoch).1

/-- The call that a slot takes. -/
def taken (calls : List Staging) (index : Nat) (d : ObservationDescriptor) : Option Staging :=
  calls.find? (fitsSlot index d)

/-- The value staged for a slot that is to be seen. -/
def seen (calls : List Staging) (index : Nat) (d : ObservationDescriptor) :
    Option (SlotValue Planes) :=
  (taken calls index d).bind fun call =>
    if call.valid && call.path then some call.offered else none

end Staging

namespace ObservationSlots

/-- The staging calls of a step, in their order. -/
def stageAll (o : ObservationSlots) (calls : List Staging) : ObservationSlots :=
  calls.foldl Staging.run o

/-- The slots at the steps of a run that starts with this inventory, with the cycle. A step that the
check refuses is discarded, and so is one whose evaluation fails. -/
inductive Reached (descriptors : List ObservationDescriptor) (eventCapacity : Nat) :
    ObservationSlots → BitVec 64 → Prop
  | configured {o : ObservationSlots}
      (h : empty.configure descriptors eventCapacity = (o, true)) :
      Reached descriptors eventCapacity o (BitVec.ofNat 64 0)
  | committed {o : ObservationSlots} {cycle : BitVec 64} (calls : List Staging)
      (h : Reached descriptors eventCapacity o cycle) (hcycle : cycle ≠ BitVec.allOnes 64)
      (hcheck : (o.stageAll calls).precommit cycle = true) :
      Reached descriptors eventCapacity ((o.stageAll calls).xfer (cycle + BitVec.ofNat 64 1))
        (cycle + BitVec.ofNat 64 1)
  | discarded {o : ObservationSlots} {cycle : BitVec 64} (calls : List Staging)
      (h : Reached descriptors eventCapacity o cycle) :
      Reached descriptors eventCapacity (o.stageAll calls).discardNext cycle
  | reset {o : ObservationSlots} {cycle : BitVec 64} (calls : List Staging)
      (h : Reached descriptors eventCapacity o cycle) :
      Reached descriptors eventCapacity (o.stageAll calls).reset (BitVec.ofNat 64 0)

/-! ## One call -/

/-- What a slot holds of the call it took. -/
structure Holds (o : ObservationSlots) (slot : ObservationSlot) (call : Staging) : Prop where
  pending : slot.pending = true
  value : o.read slot.value = call.offered
  valid : slot.valid = call.valid
  path : slot.path = call.path
  epoch : slot.evaluationEpoch = call.epoch

/-- What a call leaves of an entry: its place is the same, and the slot either takes the call or is
as it was. -/
structure StageCase (o o' : ObservationSlots) (call : Staging) (index : Nat) (e e' : Entry) :
    Prop where
  descriptor : e'.descriptor = e.descriptor
  gaugeIndex : e'.gaugeIndex = e.gaugeIndex
  kept : call.fitsSlot index e.descriptor = false ∨ e.slot.pending = true →
    e'.slot = e.slot ∧ (e.slot.pending = true → o'.pendingPlanes index = o.pendingPlanes index)
  took : call.fitsSlot index e.descriptor = true → e.slot.pending = false →
    Holds o' e'.slot call

variable {e : Entry} {index slot : Nat} {o o' : ObservationSlots}

/-- A call that changes nothing. -/
theorem StageCase.refused {call : Staging}
    (hplanes : e.slot.pending = true → o'.pendingPlanes index = o.pendingPlanes index)
    (h : call.fitsSlot index e.descriptor = false ∨ e.slot.pending = true) :
    StageCase o o' call index e e where
  descriptor := rfl
  gaugeIndex := rfl
  kept := fun _ => ⟨rfl, hplanes⟩
  took := by
    intro htakes hfree
    rcases h with h | h
    · rw [htakes] at h
      cases h
    · rw [hfree] at h
      cases h

/-- Two calls that offer the same to the slot. -/
theorem StageCase.congr {o₁ : ObservationSlots} {call call' : Staging}
    {e' : Entry} (h : StageCase o₁ o' call index e e')
    (hplanes : e.slot.pending = true → o₁.pendingPlanes index = o.pendingPlanes index)
    (htakes : call'.fitsSlot index e.descriptor =
      call.fitsSlot index e.descriptor)
    (hoffered : call'.offered = call.offered) (hvalid : call'.valid = call.valid)
    (hpath : call'.path = call.path) (hepoch : call'.epoch = call.epoch) :
    StageCase o o' call' index e e' where
  descriptor := h.descriptor
  gaugeIndex := h.gaugeIndex
  kept := by
    rw [htakes]
    intro hkept
    obtain ⟨hslot, hsame⟩ := h.kept hkept
    exact ⟨hslot, fun hpending => (hsame hpending).trans (hplanes hpending)⟩
  took := by
    rw [htakes]
    intro htook hfree
    obtain ⟨hpending, hvalue, hv, hp, he⟩ := h.took htook hfree
    exact ⟨hpending, hvalue.trans hoffered.symm, hv.trans hvalid.symm, hp.trans hpath.symm,
      he.trans hepoch.symm⟩

theorem stage_of_ne (hne : slot ≠ index)
    (value : SlotValue Planes) (valid path : Bool) (epoch : BitVec 64) :
    (o.stage slot value valid path epoch).1.entries[index]? = o.entries[index]? ∧
      (o.stage slot value valid path epoch).1.pendingPlanes index = o.pendingPlanes index := by
  rw [stage]
  cases hentry : o.entries[slot]? with
  | none => exact ⟨rfl, rfl⟩
  | some entry =>
    dsimp only
    split_ifs with htaken hkind hcanonical
    · exact ⟨rfl, rfl⟩
    · exact ⟨rfl, rfl⟩
    · exact ⟨List.getElem?_set_ne hne, Function.update_of_ne (Ne.symm hne) _ _⟩
    · exact ⟨List.getElem?_set_ne hne, rfl⟩

/-- A slot that is taken refuses the value. -/
theorem stage_of_pending
    (he : o.entries[slot]? = some e) (hpending : e.slot.pending = true) (value : SlotValue Planes)
    (valid path : Bool) (epoch : BitVec 64) : (o.stage slot value valid path epoch).1 = o := by
  rw [stage, he]
  simp [hpending]

/-- A slot refuses a value that does not fit. -/
theorem stage_of_not_fits (he : o.entries[slot]? = some e) {value : SlotValue Planes}
    (hfits : Staging.fits e.descriptor value = false) (valid path : Bool) (epoch : BitVec 64) :
    (o.stage slot value valid path epoch).1 = o := by
  simp only [Staging.fits, Bool.or_eq_false_iff, bne_eq_false_iff_eq] at hfits
  rw [stage, he]
  dsimp only
  split_ifs with htaken hkind hcanonical
  · rfl
  · rfl
  · simp only [Bool.or_eq_true, Bool.not_eq_true', bne_iff_ne, ne_eq, not_or, Bool.not_eq_false,
      not_not] at hcanonical
    simp [hcanonical.1, hcanonical.2] at hfits
  · exact absurd hfits.1 hkind

section

variable (hconfigured : o.configured = true)
include hconfigured

/-- A free slot takes a value that fits. -/
theorem stage_of_fits (he : o.entries[slot]? = some e) (hfree : e.slot.pending = false)
    {value : SlotValue Planes} (hfits : Staging.fits e.descriptor value = true) (valid path : Bool)
    (epoch : BitVec 64) : ∃ e', (o.stage slot value valid path epoch).1.entries[slot]? = some e' ∧
      e'.descriptor = e.descriptor ∧ e'.gaugeIndex = e.gaugeIndex ∧
      Holds (o.stage slot value valid path epoch).1 e'.slot
        (.stage slot value valid path epoch) := by
  have hlt : slot < o.entries.length := (List.getElem?_eq_some_iff.mp he).1
  rw [stage, he]
  simp only [hconfigured, hfree, Bool.not_true, Bool.or_false, Bool.false_eq_true, if_false]
  by_cases hkind : value.kind = .bits4
  · have hcanonical : (!value.isCanonicalBits4 || e.descriptor.payloadWidth != value.width) =
        false := by
      simpa [Staging.fits, hkind] using hfits
    simp only [hkind, if_true, hcanonical, Bool.false_eq_true, if_false]
    refine ⟨_, List.getElem?_set_self hlt, rfl, rfl, rfl, ?_, rfl, rfl, rfl⟩
    simp [read, setSlot, Staging.offered, ← hkind]
  · simp only [hkind, if_false]
    exact ⟨_, List.getElem?_set_self hlt, rfl, rfl, rfl, rfl, rfl, rfl, rfl⟩

theorem stage_case (he : o.entries[index]? = some e) (slot : Nat) (value : SlotValue Planes)
    (valid path : Bool) (epoch : BitVec 64) :
    ∃ e', (o.stage slot value valid path epoch).1.entries[index]? = some e' ∧
      StageCase o (o.stage slot value valid path epoch).1 (.stage slot value valid path epoch)
        index e e' := by
  by_cases hslot : slot = index
  · subst hslot
    cases hpending : e.slot.pending with
    | true =>
      have hsame := stage_of_pending he hpending value valid path epoch
      exact ⟨e, by rw [hsame]; exact he, .refused (fun _ => by rw [hsame]) (Or.inr hpending)⟩
    | false =>
      cases hfits : Staging.fits e.descriptor value with
      | false =>
        have hsame := stage_of_not_fits he hfits valid path epoch
        refine ⟨e, by rw [hsame]; exact he, .refused (fun _ => by rw [hsame]) (Or.inl ?_)⟩
        simp [Staging.fitsSlot, Staging.slot, Staging.accepts, Staging.addressed, Staging.offered,
          hfits]
      | true =>
        obtain ⟨e', he', hdescriptor, hgauge, hholds⟩ :=
          stage_of_fits hconfigured he hpending hfits valid path epoch
        refine ⟨e', he', hdescriptor, hgauge, fun hkept => ?_, fun _ _ => hholds⟩
        rcases hkept with hkept | hkept
        · simp [Staging.fitsSlot, Staging.slot, Staging.accepts, Staging.addressed, Staging.offered,
            hfits]
            at hkept
        · rw [hpending] at hkept
          cases hkept
  · obtain ⟨hentry, hplanes⟩ := stage_of_ne (o := o) hslot value valid path epoch
    refine ⟨e, hentry.trans he, .refused (fun _ => hplanes) (Or.inl ?_)⟩
    simp [Staging.fitsSlot, Staging.slot, hslot]

theorem stagePacked_case {width : Nat} (he : o.entries[index]? = some e) (slot : Nat)
    (v : FourState width) (eventBool valid path : Bool) (epoch : BitVec 64) :
    ∃ e', (o.stagePacked slot v eventBool valid path epoch).1.entries[index]? = some e' ∧
      StageCase o (o.stagePacked slot v eventBool valid path epoch).1
        (.stagePacked slot v eventBool valid path epoch) index e e' := by
  rw [stagePacked]
  cases hentry : o.entries[slot]? with
  | none =>
    have hne : slot ≠ index := by
      rintro rfl
      rw [he] at hentry
      cases hentry
    exact ⟨e, he, .refused (fun _ => rfl) (Or.inl (by simp [Staging.fitsSlot, Staging.slot, hne]))⟩
  | some entry =>
    have hentryOf : slot = index → entry = e := by
      rintro rfl
      exact Option.some.inj (hentry.symm.trans he)
    dsimp only
    split_ifs with htaken hknown
    · -- the slot is taken or has another width
      refine ⟨e, he, .refused (fun _ => rfl) ?_⟩
      by_cases hslot : slot = index
      · obtain rfl := hentryOf hslot
        simp only [hconfigured, Bool.not_true, Bool.false_or, Bool.or_eq_true, bne_iff_ne,
          ne_eq] at htaken
        rcases htaken with htaken | htaken
        · exact Or.inr htaken
        · exact Or.inl (by simp [Staging.fitsSlot, Staging.accepts, Staging.addressed, htaken])
      · exact Or.inl (by simp [Staging.fitsSlot, Staging.slot, hslot])
    · -- a known word is staged as a scalar
      obtain ⟨e', he', hcase⟩ := stage_case hconfigured he slot (scalarValue v eventBool) valid
        path epoch
      refine ⟨e', he', hcase.congr (fun _ => rfl) ?_ (if_pos hknown) rfl rfl rfl⟩
      by_cases hslot : slot = index
      · subst hslot
        obtain rfl := hentryOf rfl
        have hwidth : entry.slot.pending = false ∧ entry.descriptor.payloadWidth = width := by
          simpa [hconfigured] using htaken
        simp [Staging.fitsSlot, Staging.slot, Staging.accepts, Staging.addressed, Staging.offered,
          hwidth.2, hknown]
      · simp [Staging.fitsSlot, Staging.slot, hslot]
    · obtain ⟨e', he', hcase⟩ := stage_case (o := { o with
          pendingPlanes := Function.update o.pendingPlanes slot (packedPlanes v) }) hconfigured he
        slot ⟨.bits4, BitVec.ofNat 64 0, width, packedPlanes v⟩ valid path epoch
      refine ⟨e', he', hcase.congr ?_ ?_ (if_neg hknown) rfl rfl rfl⟩
      · intro hpending
        refine Function.update_of_ne ?_ _ _
        rintro rfl
        obtain rfl := hentryOf rfl
        simp [hpending] at htaken
      · by_cases hslot : slot = index
        · subst hslot
          obtain rfl := hentryOf rfl
          have hwidth : entry.slot.pending = false ∧ entry.descriptor.payloadWidth = width := by
            simpa [hconfigured] using htaken
          simp [Staging.fitsSlot, Staging.slot, Staging.accepts, Staging.addressed, Staging.offered,
            hwidth.2,
            hknown]
        · simp [Staging.fitsSlot, Staging.slot, hslot]

theorem run_case (he : o.entries[index]? = some e) (call : Staging) :
    ∃ e', (call.run o).entries[index]? = some e' ∧ StageCase o (call.run o) call index e e' := by
  cases call with
  | stage slot value valid path epoch => exact stage_case hconfigured he slot value valid path epoch
  | stagePacked slot value eventBool valid path epoch =>
    exact stagePacked_case hconfigured he slot value eventBool valid path epoch

end

theorem run_spec (hwf : o.WellFormed) (call : Staging) :
    StagedOnly o (call.run o) ∧ (call.run o).WellFormed := by
  cases call with
  | stage slot value valid path epoch => exact stage_spec hwf slot value valid path epoch
  | stagePacked slot value eventBool valid path epoch =>
    exact stagePacked_spec hwf slot value eventBool valid path epoch

/-! ## The calls of a step -/

theorem stageAll_spec (hwf : o.WellFormed) (calls : List Staging) :
    StagedOnly o (o.stageAll calls) ∧ (o.stageAll calls).WellFormed := by
  induction calls generalizing o with
  | nil => exact ⟨.refl o, hwf⟩
  | cons call rest ih =>
    obtain ⟨hfirst, hwf'⟩ := run_spec hwf call
    obtain ⟨hrest, hall⟩ := ih hwf'
    exact ⟨hfirst.trans hrest, hall⟩

/-- The slot after the calls: free if none fits, or else with the first that does. -/
def AfterCalls (o : ObservationSlots) (calls : List Staging) (index : Nat) (e : Entry) : Prop :=
  match Staging.taken calls index e.descriptor with
  | none => e.slot.pending = false
  | some call => Holds o e.slot call

/-- A value keeps its words as long as the planes of its slot stay. -/
theorem read_of_owned {v : SlotValue Spans}
    (hv : Owned index v) (hplanes : o'.pendingPlanes index = o.pendingPlanes index) :
    o'.read v = o.read v := by
  rw [Owned] at hv
  split_ifs at hv with hkind
  · simp only [read, hv, hplanes]
  · obtain ⟨planes, hv⟩ := hv
    simp only [read, hv]

theorem afterCalls_snoc (hwf : o.WellFormed)
    (hconfigured : o.configured = true) {calls : List Staging}
    (he : o.entries[index]? = some e) (h : AfterCalls o calls index e) (call : Staging) :
    ∃ e', (call.run o).entries[index]? = some e' ∧ e'.descriptor = e.descriptor ∧
      e'.gaugeIndex = e.gaugeIndex ∧ AfterCalls (call.run o) (calls ++ [call]) index e' := by
  obtain ⟨e', he', hcase⟩ := run_case hconfigured he call
  refine ⟨e', he', hcase.descriptor, hcase.gaugeIndex, ?_⟩
  rw [AfterCalls, hcase.descriptor, Staging.taken, List.find?_append]
  rw [AfterCalls, Staging.taken] at h
  cases htaken : calls.find? (Staging.fitsSlot index e.descriptor) with
  | some first =>
    rw [htaken] at h
    obtain ⟨hslot, hplanes⟩ := hcase.kept (Or.inr h.pending)
    rw [hslot]
    refine ⟨h.pending, ?_, h.valid, h.path, h.epoch⟩
    rw [read_of_owned (hwf.owned index e he) (hplanes h.pending)]
    exact h.value
  | none =>
    rw [htaken] at h
    cases htakes : call.fitsSlot index e.descriptor with
    | true =>
      rw [List.find?_cons_of_pos htakes]
      exact hcase.took htakes h
    | false =>
      rw [List.find?_cons_of_neg (by rw [htakes]; exact Bool.false_ne_true), List.find?_nil]
      rw [(hcase.kept (Or.inl htakes)).1]
      exact h

/-- After the calls of a step every slot holds the first call that fits it. -/
theorem stageAll_entries (hwf : o.WellFormed)
    (hconfigured : o.configured = true) (hfree : ∀ e ∈ o.entries, e.slot.pending = false)
    (calls : List Staging) (he : o.entries[index]? = some e) :
    ∃ e', (o.stageAll calls).entries[index]? = some e' ∧ e'.descriptor = e.descriptor ∧
      e'.gaugeIndex = e.gaugeIndex ∧ AfterCalls (o.stageAll calls) calls index e' := by
  -- induction on the calls to come, with those already made in front
  have hmain : ∀ (rest made : List Staging) (o : ObservationSlots), o.WellFormed →
      o.configured = true → ∀ e, o.entries[index]? = some e → AfterCalls o made index e →
      ∃ e', (o.stageAll rest).entries[index]? = some e' ∧ e'.descriptor = e.descriptor ∧
        e'.gaugeIndex = e.gaugeIndex ∧ AfterCalls (o.stageAll rest) (made ++ rest) index e' := by
    intro rest
    induction rest with
    | nil =>
      intro made o _ _ e he h
      exact ⟨e, he, rfl, rfl, by rw [List.append_nil]; exact h⟩
    | cons call rest ih =>
      intro made o hwf hconfigured e he h
      obtain ⟨e₁, he₁, hdescriptor₁, hgauge₁, h₁⟩ := afterCalls_snoc hwf hconfigured he h call
      obtain ⟨hstaged, hwf₁⟩ := run_spec hwf call
      obtain ⟨e₂, he₂, hdescriptor₂, hgauge₂, h₂⟩ := ih (made ++ [call]) (call.run o) hwf₁
        (hstaged.configured.trans hconfigured) e₁ he₁ h₁
      refine ⟨e₂, he₂, hdescriptor₂.trans hdescriptor₁, hgauge₂.trans hgauge₁, ?_⟩
      rw [List.append_assoc] at h₂
      exact h₂
  exact hmain calls [] o hwf hconfigured e he (hfree e (List.mem_of_getElem? he))

end ObservationSlots

end PyCircuit.Simulation
