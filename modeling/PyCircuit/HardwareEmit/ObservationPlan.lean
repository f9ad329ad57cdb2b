import Mathlib.Algebra.BigOperators.Group.List.Defs
import Mathlib.Data.List.Sort
import PyCircuit.Lib.DenseMap

/-!
# The observation plan

The function `buildObservationPlan` of `HardwareEmitCommon.cpp`. It collects the observations of
every module definition below the root, computes how many descriptors an instance subtree has, and
lays out the table of descriptors, one row for each occurrence, lane and site. The generated code
computes a slot from a base that a parent hands to its children.

A hierarchy has a rank that decreases from a module to its children; this is what acyclic means. The
shape of a collection does not depend on the bindings. A child operation is its parent and its
index. The loops over the children of a definition take the recursive call as an argument; the fuel
of the recursions is the rank.

While `layout` visits the children of a definition it keeps a reference to the bases of the
definition, and the recursive calls insert into the same table. A growth of the table leaves the
reference behind, and the bases that are pushed through it are lost.
-/

set_option autoImplicit false

namespace PyCircuit.HardwareEmit

variable {ι α : Type}

/-! ## Hierarchies -/

/-- An operation `ac.observe`, with the attributes of its identity and the number of its values. -/
structure Observe (α : Type) where
  registration : α
  ordinal : Nat
  identity : α
  values : Nat
  report : Bool

/-- An instance, which has no extents, or a collection; the definition is absent where the callee is
no module. -/
structure Child (ι : Type) where
  definition : Option ι
  extents : List Nat

/-- A package of module definitions with its root. -/
structure Hierarchy (ι α : Type) where
  definitions : List ι
  root : ι
  observes : ι → List (Observe α)
  children : ι → List (Child ι)
  rank : ι → Nat
  root_mem : root ∈ definitions
  children_mem : ∀ d ∈ definitions, ∀ child ∈ children d, ∀ c, child.definition = some c →
    c ∈ definitions
  acyclic : ∀ d, ∀ child ∈ children d, ∀ c, child.definition = some c → rank c < rank d

inductive Rejection where
  | laneCount
  | recursive
  | descriptorCount
  | ordinal
  | notOrdered
  | notUnique
  | unplanned
  deriving DecidableEq, Repr

def Rejection.message : Rejection → String
  | .laneCount => "native observation lane count overflows"
  | .recursive => "recursive instantiation is not supported by native observation emission"
  | .descriptorCount => "native observation descriptor count overflows"
  | .ordinal => "native observation ordinal exceeds u32"
  | .notOrdered => "native observation descriptors are not strictly ordered"
  | .notUnique => "native observation stable ordinals are not unique"
  | .unplanned => "native observation child is unplanned"

def max64 : Nat := 2 ^ 64 - 1

def max32 : Nat := 2 ^ 32 - 1

/-! ## Sites -/

structure Site (α : Type) where
  observe : Observe α
  valueIndex : Nat
  carriesValue : Bool
  gauge : Bool
  registrationKey : Nat
  siteKey : Nat

structure Group (α : Type) where
  observe : Observe α
  registrationRank : Nat
  ordinal : Nat
  identityRank : Nat
  valueCount : Nat

/-- The lambda `key`: the number of an attribute, in the order of the first uses. -/
def keyOf [DecidableEq α] (value : α) (table : List α) : Nat × List α :=
  if value ∈ table then (table.idxOf value, table) else (table.length, table ++ [value])

/-- The groups of a definition in the order of its operations, and the tables of keys after them. -/
def rankGroups [DecidableEq α] :
    List (Observe α) → List α → List α → List (Group α) × List α × List α
  | [], registrationKeys, identityKeys => ([], registrationKeys, identityKeys)
  | observe :: rest, registrationKeys, identityKeys =>
    let (registrationKey, registrationKeys) := keyOf observe.registration registrationKeys
    let (identityKey, identityKeys) := keyOf observe.identity identityKeys
    let (groups, registrationKeys, identityKeys) := rankGroups rest registrationKeys identityKeys
    (⟨observe, registrationKey, observe.ordinal, identityKey, max 1 observe.values⟩ :: groups,
      registrationKeys, identityKeys)

/-- The order of the groups. -/
def Group.le (a b : Group α) : Prop :=
  a.registrationRank < b.registrationRank ∨ a.registrationRank = b.registrationRank ∧
    (a.ordinal < b.ordinal ∨ a.ordinal = b.ordinal ∧ a.identityRank ≤ b.identityRank)

instance : DecidableRel (Group.le (α := α)) := fun _ _ => instDecidableOr

/-- The sites of the groups, one for each value. -/
def expandGroups : Nat → List (Group α) → List (Site α)
  | _, [] => []
  | siteKey, group :: rest =>
    (List.range group.valueCount).map (fun index =>
      ⟨group.observe, index, index < group.observe.values, group.observe.report,
        group.registrationRank, siteKey⟩) ++ expandGroups (siteKey + 1) rest

/-! ## Collection -/

structure PlannedChild (ι : Type) where
  definition : Option ι
  shape : Nat

/-- The state of `collect`. -/
structure Collected (ι α : Type) where
  reached : List ι
  registrationKeys : List α
  identityKeys : List α
  nextSiteKey : Nat
  definitions : ι → Option (List (Site α))
  children : ι → List (PlannedChild ι)

def Collected.empty : Collected ι α := ⟨[], [], [], 0, fun _ => none, fun _ => []⟩

/-- The sites of a definition; none where it was not reached. -/
def Collected.sites (plan : Collected ι α) (d : ι) : List (Site α) := (plan.definitions d).getD []

/-- One more extent. -/
def extend (shape extent : Nat) : Except Rejection Nat :=
  if extent ≠ 0 ∧ max64 / extent < shape then .error .laneCount else .ok (shape * extent)

/-- The number of lanes of a collection. -/
def shapeSize (extents : List Nat) : Except Rejection Nat := extents.foldlM extend 1

variable [DecidableEq ι]

/-- Enter a definition: number its observations and record its sites. -/
def Collected.enter [DecidableEq α] (plan : Collected ι α) (d : ι) (observes : List (Observe α)) :
    Collected ι α :=
  let (groups, registrationKeys, identityKeys) :=
    rankGroups observes plan.registrationKeys plan.identityKeys
  let sorted := groups.insertionSort Group.le
  { plan with
    reached := plan.reached ++ [d]
    registrationKeys
    identityKeys
    nextSiteKey := plan.nextSiteKey + sorted.length
    definitions := Function.update plan.definitions d
      (some (expandGroups plan.nextSiteKey sorted)) }

def Collected.addChild (plan : Collected ι α) (d : ι) (child : PlannedChild ι) : Collected ι α :=
  { plan with children := Function.update plan.children d (plan.children d ++ [child]) }

/-- The loop of `collect` over the children of a definition. -/
def collectChildren (recurse : ι → Collected ι α → Except Rejection (Collected ι α)) (d : ι) :
    List (Child ι) → Collected ι α → Except Rejection (Collected ι α)
  | [], plan => .ok plan
  | child :: rest, plan => do
      let shape ← shapeSize child.extents
      let plan := plan.addChild d ⟨child.definition, shape⟩
      let plan ← match child.definition with
        | none => .ok plan
        | some c => recurse c plan
      collectChildren recurse d rest plan

/-- The function `collect`. -/
def collect [DecidableEq α] (h : Hierarchy ι α) :
    Nat → ι → Collected ι α → Except Rejection (Collected ι α)
  | 0, _, _ => .error .recursive
  | fuel + 1, d, plan =>
    if d ∈ plan.reached then .ok plan
    else collectChildren (collect h fuel) d (h.children d) (plan.enter d (h.observes d))

/-! ## Widths -/

/-- The width below a child; a child that is no module has none. -/
def nestedWidth (recurse : ι → Except Rejection Nat) : Option ι → Except Rejection Nat
  | none => .ok 0
  | some c => recurse c

/-- The loop of `width` over the children of a definition. -/
def widthChildren (recurse : ι → Except Rejection Nat) :
    List (PlannedChild ι) → Nat → Except Rejection Nat
  | [], total => .ok total
  | child :: rest, total => do
      let nested ← nestedWidth recurse child.definition
      if child.shape ≠ 0 ∧ max64 / child.shape < nested then .error .descriptorCount
      else if max64 - total < child.shape * nested then .error .descriptorCount
      else widthChildren recurse rest (total + child.shape * nested)

/-- The function `width`. -/
def width (plan : Collected ι α) : Nat → ι → Except Rejection Nat
  | 0, _ => .error .recursive
  | fuel + 1, d => widthChildren (width plan fuel) (plan.children d) (plan.sites d).length

/-! ## Layout -/

/-- A row of the table of descriptors. -/
structure Row where
  ordinal : Nat
  ownerKey : Nat
  registrationKey : Nat
  siteKey : Nat
  gauge : Bool
  deriving DecidableEq, Repr

/-- The child operations from the root on, each with its lane. -/
abbrev InstancePath (ι : Type) := List ((ι × Nat) × Nat)

structure Occurrence (ι α : Type) where
  site : Site α
  ordinal : Nat
  path : InstancePath ι

/-- The state of `layout`. -/
structure Layout (ι α : Type) where
  table : List Row
  occurrences : List (Occurrence ι α)
  ownerKey : Nat
  events : Nat
  childBaseUnits : Lib.DenseMap ι (List Nat)

def Layout.empty : Layout ι α := ⟨[], [], 0, 0, .empty []⟩

/-- The loop over the sites of a lane. -/
def layoutSites (path : InstancePath ι) :
    List (Site α) → Layout ι α → Except Rejection (Layout ι α)
  | [], state => .ok state
  | site :: rest, state =>
    if max32 ≤ state.table.length then .error .ordinal
    else
      layoutSites path rest
        { state with
          occurrences := state.occurrences ++ [⟨site, state.table.length, path⟩]
          table := state.table ++
            [⟨state.table.length, state.ownerKey, site.registrationKey, site.siteKey, site.gauge⟩]
          events := if site.gauge then state.events else state.events + 1 }

/-- The loop over the lanes of an occurrence. -/
def layoutLanes (sites : List (Site α)) :
    List (InstancePath ι) → Layout ι α → Except Rejection (Layout ι α)
  | [], state => .ok state
  | path :: rest, state => do
      let state ← layoutSites path sites state
      layoutLanes sites rest { state with ownerKey := state.ownerKey + 1 }

/-- The paths of the lanes of a child. -/
def childPaths (d : ι) (index shape : Nat) (paths : List (InstancePath ι)) :
    List (InstancePath ι) :=
  paths.flatMap fun path => (List.range shape).map fun lane => path ++ [((d, index), lane)]

/-- The layout of a child; a child that is no module has none. -/
def layoutBlock
    (recurse : ι → List (InstancePath ι) → Layout ι α → Except Rejection (Layout ι α))
    (paths : List (InstancePath ι)) (state : Layout ι α) :
    Option ι → Except Rejection (Layout ι α)
  | none => .ok state
  | some c => recurse c paths state

/-- `plan.childBaseUnits[definition]`. -/
def Layout.openBases (state : Layout ι α) (d : ι) : Layout ι α :=
  { state with childBaseUnits := state.childBaseUnits.insert d }

/-- `bases.push_back(units)`, with the reference that was taken from a table of some size. -/
def Layout.addBase (state : Layout ι α) (d : ι) (bases units : Nat) : Layout ι α :=
  { state with childBaseUnits := state.childBaseUnits.modifyAt bases d (· ++ [units]) }

/-- The loop of `layout` over the children of a definition, from the index on. -/
def layoutChildren (subtreeWidth : Option ι → Nat)
    (recurse : ι → List (InstancePath ι) → Layout ι α → Except Rejection (Layout ι α)) (d : ι)
    (paths : List (InstancePath ι)) (bases : Nat) :
    Nat → List (PlannedChild ι) → Nat → Layout ι α → Except Rejection (Layout ι α)
  | _, [], _, state => .ok state
  | index, child :: rest, units, state =>
    let block := child.shape * subtreeWidth child.definition
    if max64 - units < block then .error .descriptorCount
    else do
      let state ← layoutBlock recurse (childPaths d index child.shape paths)
        (state.addBase d bases units) child.definition
      layoutChildren subtreeWidth recurse d paths bases (index + 1) rest (units + block) state

/-- The function `layout`. -/
def layout (plan : Collected ι α) (subtreeWidth : Option ι → Nat) :
    Nat → ι → List (InstancePath ι) → Layout ι α → Except Rejection (Layout ι α)
  | 0, _, _, _ => .error .recursive
  | fuel + 1, d, paths, state => do
      let state ← layoutLanes (plan.sites d) paths state
      let state := state.openBases d
      layoutChildren subtreeWidth (layout plan subtreeWidth fuel) d paths
        state.childBaseUnits.buckets 0 (plan.children d) (plan.sites d).length state

/-! ## The plan -/

/-- The order of the rows. -/
def Row.lt (a b : Row) : Prop :=
  a.ownerKey < b.ownerKey ∨ a.ownerKey = b.ownerKey ∧
    (a.registrationKey < b.registrationKey ∨ a.registrationKey = b.registrationKey ∧
      (a.siteKey < b.siteKey ∨ a.siteKey = b.siteKey ∧ a.ordinal < b.ordinal))

instance : DecidableRel Row.lt := fun _ _ => instDecidableOr

/-- The last loop: neighbouring rows are in order. -/
def checkOrder : List Row → Except Rejection Unit
  | previous :: current :: rest =>
    if ¬ previous.lt current then .error .notOrdered
    else if previous.ordinal = current.ordinal then .error .notUnique
    else checkOrder (current :: rest)
  | _ => .ok ()

structure Plan (ι α : Type) where
  collected : Collected ι α
  subtreeWidth : Option ι → Nat
  layout : Layout ι α

/-- The entries of `subtreeWidth` after `width` of the root. -/
def subtreeWidths (plan : Collected ι α) (fuel : Nat) : Option ι → Nat
  | none => 0
  | some d =>
    match width plan fuel d with
    | .ok total => total
    | .error _ => 0

def Hierarchy.hasObservations (h : Hierarchy ι α) : Bool :=
  h.definitions.any fun d => !(h.observes d).isEmpty

def buildObservationPlan [DecidableEq α] (h : Hierarchy ι α) : Except Rejection (Plan ι α) :=
  if !h.hasObservations then .ok ⟨.empty, fun _ => 0, .empty⟩
  else do
    let fuel := h.rank h.root + 1
    let collected ← collect h fuel h.root .empty
    let _ ← width collected fuel h.root
    let subtreeWidth := subtreeWidths collected fuel
    let state ← layout collected subtreeWidth fuel h.root [[]] .empty
    let _ ← checkOrder state.table
    return ⟨collected, subtreeWidth, state⟩

/-! ## Slots at run time -/

/-- What the generated code of a definition computes with: the lanes of the occurrence and the base
that its parent handed to it. -/
structure Located (ι : Type) where
  definition : ι
  lanes : Nat
  base : Nat

/-- `cppObservationChildBase`. -/
def Plan.childBase (plan : Plan ι α) (d : ι) (index : Nat) : Except Rejection Nat :=
  match (plan.layout.childBaseUnits.find? d).bind (·[index]?) with
  | some units => .ok units
  | none => .error .unplanned

/-- The base that an occurrence hands to a child; where one of them has no observation below it, the
constructor keeps its default. -/
def Plan.handedBase (plan : Plan ι α) (here : Located ι) (index : Nat) (c : ι) :
    Except Rejection Nat :=
  if plan.subtreeWidth (some here.definition) ≠ 0 ∧ plan.subtreeWidth (some c) ≠ 0 then
    (plan.childBase here.definition index).map fun units => here.base + here.lanes * units
  else .ok 0

/-- The occurrence below another one along the indices of children. Where the emitter rejects a
child there is no code that constructs it. -/
def Plan.locate (plan : Plan ι α) (h : Hierarchy ι α) :
    Located ι → List Nat → Option (Located ι)
  | here, [] => some here
  | here, index :: rest =>
    match (h.children here.definition)[index]? with
    | some ⟨some c, extents⟩ =>
      match plan.handedBase here index c with
      | .ok base => plan.locate h ⟨c, here.lanes * extents.prod, base⟩ rest
      | .error _ => none
    | _ => none

/-- `pyc_stage_observation`: the slot of a lane and a site of an occurrence. -/
def Plan.stageSlot (plan : Plan ι α) (occurrence : Located ι) (lane site : Nat) : Nat :=
  occurrence.base + lane * (plan.collected.sites occurrence.definition).length + site

end PyCircuit.HardwareEmit
