import Mathlib.Data.List.Basic
import PyCircuit.Gfsim.Operators

/-!
# Observation slots

The class `ObservationSlots` of `ObservationSlot.h`. Work stages one value for each slot; the check
before the commit decides over whole groups of slots; the transfer publishes events and gauges.

A value of arbitrary width is three spans of words. The slots own two copies of this storage, one
region for each slot in each: staging writes the pending one and publishing the committed one, and a
stored value only refers to its region. The model keeps this, because it is why a later stage does
not change what has been published. `SlotValue Planes` is a value with the words that its spans
show; `SlotValue Spans` is a stored one. The vectors `descriptors_`, `gaugeIndexBySlot_` and
`slots_` have one entry for each slot and are one list.
-/

set_option autoImplicit false

namespace PyCircuit.Simulation

open PyCircuit.Gfsim

inductive SlotValueKind where
  | bool
  | signed
  | unsigned
  | bits4
  deriving DecidableEq, Repr

/-- The three planes of a value: `valueWords`, `knownWords` and `zWords`. -/
structure Planes where
  value : List (BitVec 64) := []
  known : List (BitVec 64) := []
  z : List (BitVec 64) := []
  deriving DecidableEq

/-- The two reusable snapshots. -/
inductive Snapshot where
  | pending
  | committed
  deriving DecidableEq, Repr

/-- What the spans of a stored value point to. -/
inductive Spans where
  | words (planes : Planes)
  | region (snapshot : Snapshot) (slot : Nat)
  deriving DecidableEq

structure SlotValue (σ : Type) where
  kind : SlotValueKind
  bits : BitVec 64
  width : Nat
  spans : σ
  deriving DecidableEq

/-- The number of words of a payload. -/
def payloadWords (width : Nat) : Nat := width / 64 + if width % 64 ≠ 0 then 1 else 0

/-- `SlotValue::isCanonicalBits4`. -/
def SlotValue.isCanonicalBits4 (v : SlotValue Planes) : Bool :=
  let words := payloadWords v.width
  v.kind = .bits4 && v.width != 0 && v.spans.value.length = words &&
    v.spans.known.length = words && v.spans.z.length = words &&
    (List.range words).all fun index =>
      let mask := if index + 1 = words ∧ v.width % 64 ≠ 0 then (1#64 <<< (v.width % 64)) - 1#64
        else BitVec.allOnes 64
      let value := v.spans.value.getD index 0#64
      let known := v.spans.known.getD index 0#64
      let z := v.spans.z.getD index 0#64
      known &&& z = 0#64 && value &&& ~~~known = 0#64 && (value ||| known ||| z) &&& ~~~mask = 0#64

inductive ObservationKind where
  | event
  | gauge
  deriving DecidableEq, Repr

structure ObservationDescriptor where
  stableOrdinal : Nat
  ownerKey : Nat
  registrationKey : Nat
  siteKey : Nat
  kind : ObservationKind
  groupIndex : Nat
  groupSize : Nat
  payloadWidth : Nat
  deriving DecidableEq

structure ObservationSlot where
  pending : Bool
  value : SlotValue Spans
  valid : Bool
  path : Bool
  evaluationEpoch : BitVec 64
  deriving DecidableEq

/-- `ObservationSlot{}`. -/
def ObservationSlot.empty : ObservationSlot :=
  ⟨false, ⟨.unsigned, 0#64, 0, .words {}⟩, false, false, 0#64⟩

structure CommittedEventSlot (σ : Type) where
  epoch : BitVec 64
  descriptor : ObservationDescriptor
  value : SlotValue σ
  deriving DecidableEq

structure GaugeSnapshot (σ : Type) where
  stableOrdinal : Nat
  value : SlotValue σ
  lastUpdate : BitVec 64
  deriving DecidableEq

/-- One slot with its descriptor and its place among the gauges; `none` is `kNoGauge`. -/
structure Entry where
  descriptor : ObservationDescriptor
  gaugeIndex : Option Nat
  slot : ObservationSlot
  deriving DecidableEq

/-- The slot holds a value that is to be seen. -/
def Entry.published (e : Entry) : Bool := e.slot.pending && e.slot.valid && e.slot.path

structure ObservationSlots where
  configured : Bool
  eventCapacity : Nat
  entries : List Entry
  pendingPlanes : Nat → Planes
  committedPlanes : Nat → Planes
  events : List (CommittedEventSlot Spans)
  gauges : List (GaugeSnapshot Spans)

namespace ObservationSlots

/-- The default constructor. -/
def empty : ObservationSlots := ⟨false, 0, [], fun _ => {}, fun _ => {}, [], []⟩

/-- A stored value with the words its spans show. -/
def read (o : ObservationSlots) (v : SlotValue Spans) : SlotValue Planes :=
  { v with spans := match v.spans with
    | .words planes => planes
    | .region .pending slot => o.pendingPlanes slot
    | .region .committed slot => o.committedPlanes slot }

/-- `ObservationSlots::Events`, as a reader sees them. -/
def eventsView (o : ObservationSlots) : List (CommittedEventSlot Planes) :=
  o.events.map fun event => ⟨event.epoch, event.descriptor, o.read event.value⟩

/-- `ObservationSlots::Gauges`, as a reader sees them. -/
def gaugesView (o : ObservationSlots) : List (GaugeSnapshot Planes) :=
  o.gauges.map fun gauge => ⟨gauge.stableOrdinal, o.read gauge.value, gauge.lastUpdate⟩

/-! ## Configuration -/

/-- `ObservationSlots::key`. -/
def key (d : ObservationDescriptor) : List Nat :=
  [d.ownerKey, d.registrationKey, d.siteKey, d.stableOrdinal,
    match d.kind with | .event => 0 | .gauge => 1]

/-- The first loop of `Configure`: the keys increase and no ordinal comes twice. -/
def inventoryValid : List ObservationDescriptor → List ObservationDescriptor → Bool
  | _, [] => true
  | previous, current :: rest =>
    previous.head?.all (fun last => decide (key last < key current)) &&
      previous.all (fun other => other.stableOrdinal != current.stableOrdinal) &&
      inventoryValid (current :: previous) rest

/-- One round of the second loop of `Configure`. -/
def groupValid (first : ObservationDescriptor) (descriptors : List ObservationDescriptor) : Bool :=
  first.groupIndex = 0 && first.groupSize != 0 && first.groupSize ≤ descriptors.length &&
    (first.kind != .gauge || first.groupSize = 1) &&
    (descriptors.take first.groupSize).zipIdx.all fun (descriptor, member) =>
      descriptor.groupIndex = member && descriptor.groupSize = first.groupSize &&
        descriptor.ownerKey = first.ownerKey &&
        descriptor.registrationKey = first.registrationKey &&
        descriptor.siteKey = first.siteKey && descriptor.kind = first.kind

/-- The second loop of `Configure`: the descriptors are complete groups. -/
def groupsValid : Nat → List ObservationDescriptor → Bool
  | _, [] => true
  | 0, _ :: _ => false
  | fuel + 1, first :: rest =>
    groupValid first (first :: rest) && groupsValid fuel ((first :: rest).drop first.groupSize)

/-- The bound on the words of one snapshot plane. -/
def planeCapacity : Nat := (2 ^ 63 - 1) / 8

/-- The third loop of `Configure`: the planes of both snapshots can be allocated. -/
def payloadFits : Nat → List ObservationDescriptor → Bool
  | _, [] => true
  | used, descriptor :: rest =>
    decide (payloadWords descriptor.payloadWidth ≤ planeCapacity / 6 - used) &&
      payloadFits (used + payloadWords descriptor.payloadWidth) rest

/-- The last loop of `Configure`: every gauge gets the next place. -/
def assignGauges : Nat → List ObservationDescriptor → List Entry
  | _, [] => []
  | next, descriptor :: rest =>
    match descriptor.kind with
    | .event => ⟨descriptor, none, .empty⟩ :: assignGauges next rest
    | .gauge => ⟨descriptor, some next, .empty⟩ :: assignGauges (next + 1) rest

/-- The gauge of a descriptor before anything is published. -/
def initialGauge (descriptor : ObservationDescriptor) : GaugeSnapshot Spans :=
  ⟨descriptor.stableOrdinal, ⟨.unsigned, 0#64, 0, .words {}⟩, 0#64⟩

/-- `ObservationSlots::Configure`. -/
def configure (o : ObservationSlots) (descriptors : List ObservationDescriptor)
    (eventCapacity : Nat) : ObservationSlots × Bool :=
  if o.configured then (o, false)
  else if !inventoryValid [] descriptors then (o, false)
  else if !groupsValid descriptors.length descriptors then (o, false)
  else if !payloadFits 0 descriptors then (o, false)
  else
    ({ o with
        configured := true
        eventCapacity
        entries := assignGauges 0 descriptors
        gauges := (descriptors.filter fun d => d.kind = .gauge).map initialGauge }, true)

/-! ## Staging -/

/-- Write a slot. -/
def setSlot (o : ObservationSlots) (slot : Nat) (entry : Entry) (value : ObservationSlot) :
    ObservationSlots :=
  { o with entries := o.entries.set slot { entry with slot := value } }

/-- `ObservationSlots::Stage`. -/
def stage (o : ObservationSlots) (slot : Nat) (value : SlotValue Planes) (valid path : Bool)
    (evaluationEpoch : BitVec 64) : ObservationSlots × Bool :=
  match o.entries[slot]? with
  | none => (o, false)
  | some entry =>
    if !o.configured || entry.slot.pending then (o, false)
    else if value.kind = .bits4 then
      if !value.isCanonicalBits4 || entry.descriptor.payloadWidth != value.width then (o, false)
      else
        ({ o with pendingPlanes := Function.update o.pendingPlanes slot value.spans }.setSlot slot
            entry ⟨true, { value with spans := .region .pending slot }, valid, path,
              evaluationEpoch⟩, true)
    else
      (o.setSlot slot entry
        ⟨true, { value with spans := .words value.spans }, valid, path, evaluationEpoch⟩, true)

/-- The planes of a four-state value. -/
def packedPlanes {width : Nat} (v : FourState width) : Planes where
  value := (List.range (payloadWords width)).map fun i => v.value.word i &&& v.knownMask.word i
  known := (List.range (payloadWords width)).map fun i => v.knownMask.word i
  z := (List.range (payloadWords width)).map fun i => v.zMask.word i

/-- A known value of at most one word, as it is staged. -/
def scalarValue {width : Nat} (v : FourState width) (eventBool : Bool) : SlotValue Planes :=
  if eventBool then ⟨.bool, if v.value.toBool then 1#64 else 0#64, 0, {}⟩
  else ⟨.unsigned, v.value.word 0, 0, {}⟩

/-- `ObservationSlots::StagePacked`. -/
def stagePacked {width : Nat} (o : ObservationSlots) (slot : Nat) (v : FourState width)
    (eventBool valid path : Bool) (evaluationEpoch : BitVec 64) : ObservationSlots × Bool :=
  match o.entries[slot]? with
  | none => (o, false)
  | some entry =>
    if !o.configured || entry.slot.pending || entry.descriptor.payloadWidth != width then
      (o, false)
    else if width ≤ 64 ∧ v.isFullyKnown = true then
      o.stage slot (scalarValue v eventBool) valid path evaluationEpoch
    else
      { o with pendingPlanes := Function.update o.pendingPlanes slot (packedPlanes v) }.stage slot
        ⟨.bits4, 0#64, width, packedPlanes v⟩ valid path evaluationEpoch

/-- `ObservationSlots::DiscardNext`. -/
def discardNext (o : ObservationSlots) : ObservationSlots :=
  { o with entries := o.entries.map fun e => { e with slot := .empty } }

/-! ## The check before a commit -/

/-- The check of one value of an active group, with the count of the events so far. -/
def admitValue (o : ObservationSlots) (kind : ObservationKind) (additions : Nat) (e : Entry) :
    Option Nat :=
  match kind with
  | .gauge =>
    if e.slot.value.kind != .unsigned || e.gaugeIndex.isNone then none else some additions
  | .event =>
    if e.slot.value.kind = .bits4 ∧ (o.read e.slot.value).isCanonicalBits4 = false then none
    else if additions = o.eventCapacity then none
    else some (additions + 1)

/-- One round of the loop of `checkGroups`; `first` is the entry at `begin`. -/
def checkGroup (o : ObservationSlots) (evaluationEpoch : Option (BitVec 64)) (first : Entry)
    (group : List Entry) (additions : Nat) : Option Nat :=
  if !group.any (fun e => e.slot.pending) then some additions
  else if !group.all (fun e => e.slot.pending) then none
  else if group.any (fun e => evaluationEpoch.any (fun epoch => e.slot.evaluationEpoch != epoch) ||
      e.slot.path != first.slot.path) then none
  else if !first.slot.path then some additions
  else if group.any (fun e => e.slot.valid != first.slot.valid) then none
  else if !first.slot.valid then some additions
  else group.foldlM (o.admitValue first.descriptor.kind) additions

/-- The loop of `checkGroups` from the entry `begin` on. -/
def checkFrom (o : ObservationSlots) (evaluationEpoch : Option (BitVec 64)) :
    Nat → List Entry → Nat → Bool
  | _, [], _ => true
  | 0, _ :: _, _ => false
  | fuel + 1, first :: rest, additions =>
    match o.checkGroup evaluationEpoch first ((first :: rest).take first.descriptor.groupSize)
        additions with
    | none => false
    | some additions =>
      o.checkFrom evaluationEpoch fuel ((first :: rest).drop first.descriptor.groupSize) additions

/-- `ObservationSlots::checkGroups`. -/
def checkGroups (o : ObservationSlots) (evaluationEpoch : Option (BitVec 64)) : Bool :=
  o.configured && o.checkFrom evaluationEpoch o.entries.length o.entries 0

/-- `ObservationSlots::Check`. -/
def check (o : ObservationSlots) : Bool := o.checkGroups none

/-- `ObservationSlots::Precommit`. -/
def precommit (o : ObservationSlots) (evaluationEpoch : BitVec 64) : Bool :=
  o.checkGroups (some evaluationEpoch)

/-! ## Publication -/

/-- What a reader can see: the part of the slots that the transfer writes. -/
structure Board where
  events : List (CommittedEventSlot Spans)
  gauges : List (GaugeSnapshot Spans)
  planes : Nat → Planes

/-- Publish an event; a value with planes is copied to the committed region of its slot. -/
def publishEvent (o : ObservationSlots) (committedEpoch : BitVec 64) (index : Nat) (e : Entry)
    (board : Board) : Board :=
  if board.events.length < o.eventCapacity then
    if e.slot.value.kind = .bits4 then
      { board with
        planes := Function.update board.planes index (o.read e.slot.value).spans
        events := board.events ++
          [⟨committedEpoch, e.descriptor,
            { e.slot.value with spans := .region .committed index }⟩] }
    else { board with events := board.events ++ [⟨committedEpoch, e.descriptor, e.slot.value⟩] }
  else board

def publishGauge (committedEpoch : BitVec 64) (e : Entry) (board : Board) : Board :=
  match e.gaugeIndex with
  | none => board
  | some g =>
    { board with
      gauges := board.gauges.modify g fun gauge =>
        { gauge with value := e.slot.value, lastUpdate := committedEpoch } }

/-- One round of the loop of `Xfer`. -/
def publish (o : ObservationSlots) (committedEpoch : BitVec 64) (index : Nat) (e : Entry)
    (board : Board) : Board :=
  if e.published && e.slot.evaluationEpoch != BitVec.allOnes 64 &&
      e.slot.evaluationEpoch + 1#64 = committedEpoch then
    match e.descriptor.kind with
    | .event => o.publishEvent committedEpoch index e board
    | .gauge => publishGauge committedEpoch e board
  else board

/-- The loop of `Xfer` from a slot on. -/
def publishFrom (o : ObservationSlots) (committedEpoch : BitVec 64) :
    Nat → List Entry → Board → Board
  | _, [], board => board
  | index, e :: rest, board =>
    o.publishFrom committedEpoch (index + 1) rest (o.publish committedEpoch index e board)

/-- `ObservationSlots::Xfer`. -/
def xfer (o : ObservationSlots) (committedEpoch : BitVec 64) : ObservationSlots :=
  let board := o.publishFrom committedEpoch 0 o.entries ⟨[], o.gauges, o.committedPlanes⟩
  { o.discardNext with
    events := board.events
    gauges := board.gauges
    committedPlanes := board.planes }

/-- `ObservationSlots::Reset`. -/
def reset (o : ObservationSlots) : ObservationSlots :=
  { o.discardNext with
    events := []
    gauges := o.gauges.map fun gauge =>
      { gauge with value := ⟨.unsigned, 0#64, 0, .words {}⟩, lastUpdate := 0#64 } }

end ObservationSlots

end PyCircuit.Simulation
