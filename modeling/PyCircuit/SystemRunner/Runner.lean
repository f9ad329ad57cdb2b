import Mathlib.Data.List.Sort
import PyCircuit.SimExecutor.Executor

/-!
# The records of the system runner

The part of `system_runner.cpp` that turns the published observations of a step into records:
`metadataMatches` compares the metadata of the generated root with the descriptors of the slots, and
the loop of `SystemRunner::Run` collects the events and the active gauges of the committed epoch,
sorts them by their descriptors and writes one record for each group. Before it writes anything it
checks every group again.

A pointer into `ordered` that is null is `none`; `seen[index]` holds exactly where it is not. Texts
are strings of characters where the source has UTF-8.
-/

set_option autoImplicit false

namespace PyCircuit.SystemRunner

open PyCircuit.Simulation PyCircuit.SimExecutor

structure RunnerObservation where
  stableOrdinal : Nat
  kind : String
  instanceName : String
  registration : String
  site : String
  specJson : String
  hasValue : Bool
  reportName : String
  groupIndex : Nat
  groupSize : Nat
  deriving DecidableEq, Repr

/-! ## Metadata -/

def sameObservationGroup (first entry : RunnerObservation) (index : Nat) : Bool :=
  entry.groupIndex = index && entry.groupSize = first.groupSize && entry.kind = first.kind &&
    entry.instanceName = first.instanceName && entry.registration = first.registration &&
    entry.site = first.site && entry.specJson = first.specJson &&
    entry.reportName = first.reportName

/-- `descriptorOrder`: the index of the first descriptor with the ordinal. -/
def descriptorOrder (descriptors : List ObservationDescriptor) (ordinal : Nat) : Nat :=
  descriptors.findIdx fun descriptor => descriptor.stableOrdinal = ordinal

def findMetadata (metadata : List RunnerObservation) (ordinal : Nat) : Option RunnerObservation :=
  metadata.find? fun entry => entry.stableOrdinal = ordinal

/-- The fields of an entry that its descriptor determines. -/
def entryMatches (descriptor : ObservationDescriptor) (entry : RunnerObservation) : Bool :=
  (entry.kind = "report" || entry.kind = "print" || entry.kind = "log") &&
    (decide (entry.kind = "report") = decide (descriptor.kind = .gauge)) &&
    descriptor.groupIndex = entry.groupIndex && descriptor.groupSize = entry.groupSize &&
    (entry.kind != "report" || entry.hasValue) &&
    (if entry.kind = "report" then entry.reportName != "" else entry.reportName = "")

/-- The vectors `ordered` and `reports`. -/
structure Placement where
  ordered : List (Option RunnerObservation)
  reports : List ReportGaugeDescriptor

/-- One round of the first loop of `metadataMatches`. -/
def placeEntry (descriptors : List ObservationDescriptor) (placement : Placement)
    (entry : RunnerObservation) : Option Placement :=
  if entry.instanceName = "" || entry.registration = "" || entry.site = "" ||
      entry.specJson = "" then none
  else
    let index := descriptorOrder descriptors entry.stableOrdinal
    match descriptors[index]? with
    | none => none
    | some descriptor =>
      if placement.ordered[index]?.join.isSome then none
      else if !entryMatches descriptor entry then none
      else
        some
          { ordered := placement.ordered.set index (some entry)
            reports :=
              if entry.kind = "report" then
                placement.reports ++ [⟨entry.stableOrdinal, entry.instanceName, entry.reportName⟩]
              else placement.reports }

/-- The inner loop over the members of a group. -/
def membersMatch (first : RunnerObservation) (firstDescriptor : ObservationDescriptor)
    (members : List (Option RunnerObservation × ObservationDescriptor)) : Bool :=
  members.zipIdx.all fun ((entry, descriptor), index) =>
    entry.any fun entry =>
      sameObservationGroup first entry index && descriptor.ownerKey = firstDescriptor.ownerKey &&
        descriptor.registrationKey = firstDescriptor.registrationKey &&
        descriptor.siteKey = firstDescriptor.siteKey && descriptor.kind = firstDescriptor.kind &&
        (first.groupSize ≤ 1 || entry.hasValue)

/-- The second loop of `metadataMatches`. -/
def groupsMatch : Nat → List (Option RunnerObservation × ObservationDescriptor) → Bool
  | _, [] => true
  | 0, _ :: _ => false
  | _ + 1, (none, _) :: _ => false
  | fuel + 1, (some first, descriptor) :: rest =>
    first.groupIndex = 0 && first.groupSize != 0 && first.groupSize ≤ rest.length + 1 &&
      (first.kind != "report" || first.groupSize = 1) &&
      membersMatch first descriptor
        (((some first, descriptor) :: rest).take first.groupSize) &&
      groupsMatch fuel (((some first, descriptor) :: rest).drop first.groupSize)

/-- `metadataMatches`, with the reports it fills in. -/
def metadataMatches (metadata : List RunnerObservation) (descriptors : List ObservationDescriptor) :
    Option (List ReportGaugeDescriptor) :=
  if metadata.length ≠ descriptors.length then none
  else
    match metadata.foldlM (placeEntry descriptors)
        ⟨List.replicate metadata.length none, []⟩ with
    | none => none
    | some placement =>
      if groupsMatch placement.ordered.length (placement.ordered.zip descriptors) &&
          placement.ordered.all Option.isSome then some placement.reports
      else none

/-! ## Items -/

/-- The pointers `event` and `gauge`, of which one is null. -/
inductive Observed where
  | event (event : CommittedEventSlot Planes)
  | gauge (gauge : GaugeSnapshot Planes)
  deriving DecidableEq

structure OutputItem where
  descriptorOrder : Nat
  metadata : RunnerObservation
  observed : Observed
  deriving DecidableEq

/-- `observationEpoch`. -/
def OutputItem.observationEpoch (item : OutputItem) : BitVec 64 :=
  match item.observed with
  | .event event => event.epoch
  | .gauge gauge => gauge.lastUpdate

def OutputItem.value (item : OutputItem) : SlotValue Planes :=
  match item.observed with
  | .event event => event.value
  | .gauge gauge => gauge.value

/-- The ways in which a step is not serialized. -/
inductive Rejection where
  | eventMetadata
  | eventDescriptor
  | gaugeMetadata
  | gaugeDescriptor
  | groupIncomplete
  | groupInconsistent
  | malformedPlanes
  deriving DecidableEq, Repr

/-- The text the runner prints. -/
def Rejection.message : Rejection → String
  | .eventMetadata => "event slot has no matching event metadata"
  | .eventDescriptor => "event slot has no matching observation descriptor"
  | .gaugeMetadata => "active gauge has no matching report metadata"
  | .gaugeDescriptor => "active gauge has no matching observation descriptor"
  | .groupIncomplete => "observation group is incomplete"
  | .groupInconsistent => "observation group is incomplete or inconsistent"
  | .malformedPlanes => "observation has malformed Bits4 planes"

/-- The item of a published event. -/
def eventItem (metadata : List RunnerObservation) (descriptors : List ObservationDescriptor)
    (event : CommittedEventSlot Planes) : Except Rejection OutputItem :=
  match findMetadata metadata event.descriptor.stableOrdinal with
  | none => .error .eventMetadata
  | some entry =>
    if entry.kind = "report" then .error .eventMetadata
    else
      let order := descriptorOrder descriptors event.descriptor.stableOrdinal
      if order = descriptors.length then .error .eventDescriptor
      else .ok ⟨order, entry, .event event⟩

/-- The item of an active gauge. -/
def gaugeItem (metadata : List RunnerObservation) (descriptors : List ObservationDescriptor)
    (gauge : GaugeSnapshot Planes) : Except Rejection OutputItem :=
  match findMetadata metadata gauge.stableOrdinal with
  | none => .error .gaugeMetadata
  | some entry =>
    if entry.kind ≠ "report" then .error .gaugeMetadata
    else
      let order := descriptorOrder descriptors gauge.stableOrdinal
      if order = descriptors.length then .error .gaugeDescriptor
      else .ok ⟨order, entry, .gauge gauge⟩

/-- The items of a step, sorted by their descriptors. -/
def outputItems (metadata : List RunnerObservation) (descriptors : List ObservationDescriptor)
    (observations : ObservationSlots) (committedEpoch : BitVec 64) :
    Except Rejection (List OutputItem) := do
  let events ← observations.eventsView.mapM (eventItem metadata descriptors)
  let gauges ← (observations.gaugesView.filter fun gauge => gauge.lastUpdate = committedEpoch).mapM
    (gaugeItem metadata descriptors)
  return (events ++ gauges).insertionSort fun left right =>
    left.descriptorOrder ≤ right.descriptorOrder

/-! ## Records -/

def hexDigit (digit : Nat) : Char := "0123456789abcdef".toList.getD digit '0'

def escapeCharacter (c : Char) : List Char :=
  match c with
  | '\\' => ['\\', '\\']
  | '"' => ['\\', '"']
  | '\x08' => ['\\', 'b']
  | '\x0c' => ['\\', 'f']
  | '\n' => ['\\', 'n']
  | '\r' => ['\\', 'r']
  | '\t' => ['\\', 't']
  | c =>
    if c.toNat < 0x20 then ['\\', 'u', '0', '0', hexDigit (c.toNat / 16), hexDigit (c.toNat % 16)]
    else [c]

def escapeJson (value : String) : String := .ofList (value.toList.flatMap escapeCharacter)

/-- `appendString`. -/
def quoted (value : String) : String := "\"" ++ escapeJson value ++ "\""

def signedDecimal (bits : BitVec 64) : String := toString bits.toInt

def planeHex (words : List (BitVec 64)) (width : Nat) : String :=
  let size := width / 4 + if width % 4 ≠ 0 then 1 else 0
  .ofList ((List.range size).reverse.map fun nibble =>
    hexDigit ((words.getD (nibble / 16) 0#64 >>> (4 * (nibble % 16))) &&& 15#64).toNat)

/-- `appendValue`. -/
def valueRecord (value : SlotValue Planes) : Except Rejection String :=
  match value.kind with
  | .bits4 =>
    if !value.isCanonicalBits4 then .error .malformedPlanes
    else
      .ok ("\x7b\"kind\":\"bits4\",\"width\":" ++ toString value.width ++ ",\"value\":" ++
        quoted (planeHex value.spans.value value.width) ++ ",\"known\":" ++
        quoted (planeHex value.spans.known value.width) ++ ",\"z\":" ++
        quoted (planeHex value.spans.z value.width) ++ "\x7d")
  | .bool =>
    .ok ("\x7b\"kind\":\"bool\",\"value\":" ++ (if value.bits ≠ 0#64 then "true" else "false") ++
      "\x7d")
  | .signed =>
    .ok ("\x7b\"kind\":\"integer\",\"value\":" ++ quoted (signedDecimal value.bits) ++ "\x7d")
  | .unsigned =>
    .ok ("\x7b\"kind\":\"integer\",\"value\":" ++ quoted (toString value.bits.toNat) ++ "\x7d")

/-- `eventRecord`, of a group that starts with `item`. -/
def eventRecord (item : OutputItem) (group : List OutputItem) : Except Rejection String := do
  let committedEpoch := item.observationEpoch.toNat
  let evaluationEpoch := if committedEpoch = 0 then 0 else committedEpoch - 1
  let values ← (group.filter fun lane => lane.metadata.hasValue).mapM fun lane =>
    valueRecord lane.value
  return "\x7b\"kind\":" ++ quoted item.metadata.kind ++ ",\"instance\":" ++
    quoted item.metadata.instanceName ++ ",\"registration\":" ++
    quoted item.metadata.registration ++ ",\"site\":" ++ quoted item.metadata.site ++
    ",\"evaluation_epoch\":" ++ quoted (toString evaluationEpoch) ++ ",\"commit_epoch\":" ++
    quoted (toString committedEpoch) ++ ",\"spec\":" ++ item.metadata.specJson ++
    ",\"values\":[" ++ ",".intercalate values ++ "]\x7d\n"

/-- A member of a group where the loop expects it. -/
def memberConsistent (first : OutputItem) (committedEpoch : BitVec 64) (entry : OutputItem)
    (index : Nat) : Bool :=
  sameObservationGroup first.metadata entry.metadata index &&
    entry.descriptorOrder = first.descriptorOrder + index &&
    entry.observationEpoch = committedEpoch

/-- The loop over the groups of the items. -/
def groupRecords (committedEpoch : BitVec 64) : Nat → List OutputItem →
    Except Rejection (List String)
  | _, [] => .ok []
  | 0, _ :: _ => .ok []
  | fuel + 1, first :: rest =>
    let count := first.metadata.groupSize
    if first.metadata.groupIndex ≠ 0 ∨ count = 0 ∨ rest.length + 1 < count then
      .error .groupIncomplete
    else if !((first :: rest).take count).zipIdx.all (fun (entry, index) =>
        memberConsistent first committedEpoch entry index) then .error .groupInconsistent
    else do
      let record ← eventRecord first ((first :: rest).take count)
      let records ← groupRecords committedEpoch fuel ((first :: rest).drop count)
      return record :: records

/-- The records of a committed step. -/
def serialize (metadata : List RunnerObservation) (observations : ObservationSlots)
    (committedEpoch : BitVec 64) : Except Rejection (List String) := do
  let items ← outputItems metadata (observations.entries.map fun e => e.descriptor) observations
    committedEpoch
  groupRecords committedEpoch items.length items

end PyCircuit.SystemRunner
