import PyCircuit.HardwareEmit.Collection
import PyCircuit.Lib.Blocks

/-!
# What `width` and `layout` compute

The width of a subtree satisfies the recursion of its definition. The layout appends the rows of an
occurrence behind the table, first its own lanes and then the blocks of its children, in the order
of their keys, and records for every definition where the blocks of its children begin.
-/

set_option autoImplicit false

namespace PyCircuit.HardwareEmit

open PyCircuit.Lib Fallible

variable {ι α : Type}

/-! ## Widths -/

/-- The sizes of the blocks of the children, for one lane. -/
def Hierarchy.blockSizes (h : Hierarchy ι α) (subtreeWidth : Option ι → Nat) (d : ι) : List Nat :=
  (h.planned d).map fun child => child.shape * subtreeWidth child.definition

variable {list : List (PlannedChild ι)} {d : ι} {plan : Collected ι α} {h : Hierarchy ι α}
  {sites : List (Site α)}

theorem widthChildren_spec {recurse : ι → Except Rejection Nat} {subtreeWidth : Option ι → Nat}
    (hnested : ∀ c r, nestedWidth recurse c = .ok r → subtreeWidth c = r) :
    ∀ {total result : Nat}, widthChildren recurse list total = .ok result →
      result = total + (list.map fun child => child.shape * subtreeWidth child.definition).sum ∧
        ∀ child ∈ list, ∃ r, nestedWidth recurse child.definition = .ok r := by
  induction list with
  | nil =>
    intro total result h
    exact ⟨(Except.ok.inj h).symm, fun _ hmem => absurd hmem List.not_mem_nil⟩
  | cons child rest ih =>
    intro total result h
    rw [widthChildren] at h
    obtain ⟨nested, hfirst, h⟩ := bind_eq_ok.mp h
    split_ifs at h
    obtain ⟨hresult, hrest⟩ := ih h
    constructor
    · rw [hresult, List.map_cons, List.sum_cons, hnested _ nested hfirst, Nat.add_assoc]
    · exact List.forall_mem_cons.mpr ⟨⟨nested, hfirst⟩, hrest⟩

theorem widthChildren_mono {recurse recurse' : ι → Except Rejection Nat}
    (hmono : ∀ c r, recurse c = .ok r → recurse' c = .ok r) :
    ∀ {total result : Nat}, widthChildren recurse list total = .ok result →
      widthChildren recurse' list total = .ok result := by
  induction list with
  | nil => exact fun h => h
  | cons child rest ih =>
    intro total result h
    rw [widthChildren] at h ⊢
    obtain ⟨nested, hfirst, h⟩ := bind_eq_ok.mp h
    have hfirst' : nestedWidth recurse' child.definition = .ok nested := by
      cases hdefinition : child.definition with
      | none =>
        rw [hdefinition] at hfirst
        exact hfirst
      | some c =>
        rw [hdefinition] at hfirst
        exact hmono c nested hfirst
    refine bind_eq_ok.mpr ⟨nested, hfirst', ?_⟩
    split_ifs at h ⊢
    exact ih h

theorem width_succ (plan : Collected ι α) (fuel : Nat) :
    ∀ {d : ι} {w : Nat}, width plan fuel d = .ok w → width plan (fuel + 1) d = .ok w := by
  induction fuel with
  | zero =>
    intro d w h
    cases h
  | succ fuel ih =>
    intro d w h
    rw [width] at h ⊢
    exact widthChildren_mono (fun c r => ih) h

theorem width_mono {fuel fuel' : Nat} (hle : fuel ≤ fuel') {w : Nat}
    (h : width plan fuel d = .ok w) : width plan fuel' d = .ok w := by
  induction hle with
  | refl => exact h
  | step _ ih => exact width_succ plan _ ih

/-- The recursion of the widths. -/
def Widths (h : Hierarchy ι α) (subtreeWidth : Option ι → Nat) : Prop :=
  subtreeWidth none = 0 ∧ ∀ d, Below h h.root d →
    subtreeWidth (some d) = h.laneSites d + (h.blockSizes subtreeWidth d).sum

theorem subtreeWidths_spec {fuel w : Nat}
    (hrecorded : ∀ d, Below h h.root d → Recorded h plan d)
    (hroot : width plan fuel h.root = .ok w) : Widths h (subtreeWidths plan fuel) := by
  have hlookup : ∀ {k : Nat}, k ≤ fuel → ∀ c r, nestedWidth (width plan k) c = .ok r →
      subtreeWidths plan fuel c = r := by
    intro k hk c r hc
    cases c with
    | none => exact Except.ok.inj hc
    | some c => rw [subtreeWidths, width_mono hk hc]
  -- every definition below the root has a width, with less fuel the further it is below
  have hknown : ∀ d, Below h h.root d → ∃ k ≤ fuel, ∃ r, width plan k d = .ok r := by
    intro d hd
    induction hd with
    | refl => exact ⟨fuel, Nat.le_refl _, w, hroot⟩
    | @child x hx child hchild c hc ih =>
      obtain ⟨k, hk, r, hr⟩ := ih
      cases k with
      | zero => cases hr
      | succ k =>
        rw [width, (hrecorded x hx).children] at hr
        have hnested := (widthChildren_spec (hlookup (by omega)) hr).2
        have hmem : (⟨child.definition, child.extents.prod⟩ : PlannedChild ι) ∈ h.planned x :=
          List.mem_map_of_mem hchild
        obtain ⟨r', hr'⟩ := hnested _ hmem
        rw [hc] at hr'
        exact ⟨k, by omega, r', hr'⟩
  refine ⟨rfl, fun d hd => ?_⟩
  obtain ⟨k, hk, r, hr⟩ := hknown d hd
  rw [hlookup hk (some d) r hr]
  cases k with
  | zero => cases hr
  | succ k =>
    rw [width, (hrecorded d hd).children] at hr
    rw [(widthChildren_spec (hlookup (by omega)) hr).1, (hrecorded d hd).sites]
    rfl

/-! ## Rows of a lane -/

/-- What the row of an occurrence repeats of it. -/
def Occurrence.core (o : Occurrence ι α) : Nat × Nat × Nat × Bool :=
  (o.ordinal, o.site.registrationKey, o.site.siteKey, o.site.gauge)

def Row.core (row : Row) : Nat × Nat × Nat × Bool :=
  (row.ordinal, row.registrationKey, row.siteKey, row.gauge)

/-- A site of a lane. -/
def Occurrence.entry (o : Occurrence ι α) : Site α × InstancePath ι := (o.site, o.path)

/-- The state between two lanes. -/
structure Tidy (state : Layout ι α) : Prop where
  rows : state.table.map Row.core = state.occurrences.map Occurrence.core
  ordinals : (state.table.map fun row => row.ordinal) = List.range state.table.length
  sorted : state.table.Pairwise Row.lt
  owners : ∀ row ∈ state.table, row.ownerKey < state.ownerKey

/-- The rows of some sites of a lane, from an ordinal on. -/
def laneRows (ownerKey : Nat) (start : Nat) (sites : List (Site α)) : List Row :=
  (sites.zipIdx start).map fun (site, ordinal) =>
    ⟨ordinal, ownerKey, site.registrationKey, site.siteKey, site.gauge⟩

def laneOccurrences (path : InstancePath ι) (start : Nat) (sites : List (Site α)) :
    List (Occurrence ι α) :=
  (sites.zipIdx start).map fun (site, ordinal) => ⟨site, ordinal, path⟩

theorem layoutSites_spec {path : InstancePath ι} :
    ∀ {before after : Layout ι α}, layoutSites path sites before = .ok after →
      after.table = before.table ++ laneRows before.ownerKey before.table.length sites ∧
        after.occurrences =
          before.occurrences ++ laneOccurrences path before.table.length sites ∧
        after.ownerKey = before.ownerKey ∧ after.childBaseUnits = before.childBaseUnits := by
  induction sites with
  | nil =>
    intro before after h
    obtain rfl := Except.ok.inj h
    exact ⟨(List.append_nil _).symm, (List.append_nil _).symm, rfl, rfl⟩
  | cons site rest ih =>
    intro before after h
    rw [layoutSites] at h
    obtain ⟨hfull, h⟩ := guard_eq_ok.mp h
    obtain ⟨htable, hoccurrences, howner, hbases⟩ := ih h
    rw [List.length_append, List.length_singleton] at htable hoccurrences
    refine ⟨?_, ?_, howner, hbases⟩
    · rw [htable, List.append_assoc]
      rfl
    · rw [hoccurrences, List.append_assoc]
      rfl

/-- The rows of a lane are in order. -/
theorem laneRows_sorted (h : Ascending sites) (ownerKey start : Nat) :
    (laneRows ownerKey start sites).Pairwise Row.lt := by
  rw [laneRows, List.pairwise_map, List.pairwise_iff_getElem]
  intro i j hi hj hij
  rw [List.length_zipIdx] at hi hj
  simp only [List.getElem_zipIdx]
  rcases List.pairwise_iff_getElem.mp h i j hi hj hij with hkey | ⟨hkey, hle⟩
  · exact .inr ⟨rfl, .inl hkey⟩
  · rcases Nat.lt_or_eq_of_le hle with hlt | heq
    · exact .inr ⟨rfl, .inr ⟨hkey, .inl hlt⟩⟩
    · exact .inr ⟨rfl, .inr ⟨hkey, .inr ⟨heq, Nat.add_lt_add_left hij start⟩⟩⟩

variable {recurse : ι → List (InstancePath ι) → Layout ι α → Except Rejection (Layout ι α)}
  {entriesOf : ι → List (InstancePath ι) → List (Site α × InstancePath ι)} (ownerKey start : Nat)
  (path : InstancePath ι)

theorem laneRows_core (sites : List (Site α)) :
    (laneRows ownerKey start sites).map Row.core =
      (laneOccurrences path start sites).map Occurrence.core := by
  rw [laneRows, laneOccurrences, List.map_map, List.map_map]
  rfl

theorem laneRows_ordinals (sites : List (Site α)) :
    ((laneRows ownerKey start sites).map fun row => row.ordinal) =
      List.range' start sites.length := by
  rw [laneRows, List.map_map]
  exact List.zipIdx_map_snd start sites

theorem laneOccurrences_entries (start : Nat) (sites : List (Site α)) :
    (laneOccurrences path start sites).map Occurrence.entry =
      sites.map fun site => (site, path) := by
  rw [laneOccurrences, List.map_map]
  conv_rhs => rw [← List.zipIdx_map_fst start sites, List.map_map]
  rfl

/-- One lane. -/
theorem Tidy.lane (hsites : Ascending sites) {path : InstancePath ι}
    {before after : Layout ι α} (htidy : Tidy before)
    (h : layoutSites path sites before = .ok after) :
    Tidy { after with ownerKey := after.ownerKey + 1 } := by
  obtain ⟨htable, hoccurrences, howner, -⟩ := layoutSites_spec h
  have hlength : after.table.length = before.table.length + sites.length := by
    rw [htable, List.length_append, laneRows, List.length_map, List.length_zipIdx]
  constructor
  · change after.table.map Row.core = after.occurrences.map Occurrence.core
    rw [htable, hoccurrences, List.map_append, List.map_append, htidy.rows, laneRows_core]
  · change (after.table.map fun row => row.ordinal) = List.range after.table.length
    have hrange := List.range'_append_1 (s := 0) (m := before.table.length) (n := sites.length)
    rw [Nat.zero_add] at hrange
    rw [hlength, htable, List.map_append, htidy.ordinals, laneRows_ordinals, List.range_eq_range',
      List.range_eq_range', hrange]
  · change after.table.Pairwise Row.lt
    rw [htable]
    refine List.pairwise_append.mpr ⟨htidy.sorted, laneRows_sorted hsites _ _, ?_⟩
    intro a ha b hb
    obtain ⟨_, _, rfl⟩ := List.mem_map.mp hb
    exact .inl (htidy.owners a ha)
  · intro row hrow
    rw [htable, List.mem_append] at hrow
    rw [howner]
    rcases hrow with hrow | hrow
    · exact Nat.lt_succ_of_lt (htidy.owners row hrow)
    · obtain ⟨_, _, rfl⟩ := List.mem_map.mp hrow
      exact Nat.lt_succ_self _

/-- All lanes of an occurrence. -/
theorem layoutLanes_spec (hsites : Ascending sites)
    {paths : List (InstancePath ι)} :
    ∀ {before after : Layout ι α}, Tidy before → layoutLanes sites paths before = .ok after →
      Tidy after ∧ after.occurrences.map Occurrence.entry =
          before.occurrences.map Occurrence.entry ++
            paths.flatMap (fun path => sites.map fun site => (site, path)) ∧
        after.childBaseUnits = before.childBaseUnits := by
  induction paths with
  | nil =>
    intro before after htidy h
    obtain rfl := Except.ok.inj h
    exact ⟨htidy, (List.append_nil _).symm, rfl⟩
  | cons path rest ih =>
    intro before after htidy h
    obtain ⟨middle, hmiddle, h⟩ := bind_eq_ok.mp h
    obtain ⟨-, hoccurrences, -, hbases⟩ := layoutSites_spec hmiddle
    obtain ⟨hafter, hentries, hkept⟩ := ih (htidy.lane hsites hmiddle) h
    refine ⟨hafter, ?_, hkept.trans hbases⟩
    rw [hentries, List.flatMap_cons, ← List.append_assoc]
    congr 1
    rw [hoccurrences, List.map_append, laneOccurrences_entries]

/-! ## The entries of a subtree -/

/-- The entries of a child; a child that is no module has none. -/
def blockEntries (recurse : ι → List (InstancePath ι) → List (Site α × InstancePath ι))
    (paths : List (InstancePath ι)) : Option ι → List (Site α × InstancePath ι)
  | none => []
  | some c => recurse c paths

/-- The entries of the children, from an index on. -/
def entryChildren (recurse : ι → List (InstancePath ι) → List (Site α × InstancePath ι)) (d : ι)
    (paths : List (InstancePath ι)) :
    Nat → List (PlannedChild ι) → List (List (Site α × InstancePath ι))
  | _, [] => []
  | index, child :: rest =>
    blockEntries recurse (childPaths d index child.shape paths) child.definition ::
      entryChildren recurse d paths (index + 1) rest

/-- The sites and paths of an occurrence and of all below it, in the order of the layout. -/
def Hierarchy.entries (h : Hierarchy ι α) (sites : ι → List (Site α)) :
    Nat → ι → List (InstancePath ι) → List (Site α × InstancePath ι)
  | 0, _, _ => []
  | fuel + 1, d, paths =>
    (paths.flatMap fun path => (sites d).map fun site => (site, path)) ++
      (entryChildren (h.entries sites fuel) d paths 0 (h.planned d)).flatten

/-! ## The layout of a subtree -/

/-- Where the blocks of some children begin. -/
def unitsFrom (subtreeWidth : Option ι → Nat) : Nat → List (PlannedChild ι) → List Nat
  | _, [] => []
  | units, child :: rest =>
    units :: unitsFrom subtreeWidth (units + child.shape * subtreeWidth child.definition) rest

/-- Where the blocks of the children begin, for one lane. -/
def Hierarchy.unitsList (h : Hierarchy ι α) (subtreeWidth : Option ι → Nat) (d : ι) : List Nat :=
  unitsFrom subtreeWidth (h.laneSites d) (h.planned d)

theorem unitsFrom_get (subtreeWidth : Option ι → Nat) :
    ∀ {units index : Nat}, index < list.length → (unitsFrom subtreeWidth units list)[index]? =
      some (units + Blocks.offset
        (list.map fun child => child.shape * subtreeWidth child.definition) index) := by
  induction list with
  | nil =>
    intro units index h
    cases h
  | cons child rest ih =>
    intro units index h
    cases index with
    | zero => simp [unitsFrom]
    | succ index =>
      rw [unitsFrom, List.getElem?_cons_succ, ih (Nat.lt_of_succ_lt_succ h), List.map_cons,
        Blocks.offset_cons_succ, Nat.add_assoc]

theorem unitsList_get (subtreeWidth : Option ι → Nat) {index : Nat}
    (hindex : index < (h.children d).length) : (h.unitsList subtreeWidth d)[index]? =
      some (h.laneSites d + Blocks.offset (h.blockSizes subtreeWidth d) index) :=
  unitsFrom_get subtreeWidth (by rwa [Hierarchy.planned, List.length_map])

/-- What a call of `layout` adds to the bases of a definition. -/
def Repeats (before after : List Nat) (units : List Nat) (n : Nat) : Prop :=
  after = before ++ (List.replicate n units).flatten

theorem Repeats.refl (before units : List Nat) : Repeats before before units 0 :=
  (List.append_nil before).symm

theorem Repeats.trans {a b c units : List Nat} {m n : Nat} (hab : Repeats a b units m)
    (hbc : Repeats b c units n) : Repeats a c units (m + n) := by
  rw [Repeats, hbc, hab, List.append_assoc, List.replicate_add, List.flatten_append]

theorem Repeats.once {before units : List Nat} : Repeats before (before ++ units) units 1 := by
  rw [Repeats, List.replicate_one, List.flatten_singleton]

/-- The first step from a definition to one below it. -/
theorem Below.cases_head {x : ι} (hx : Below h d x) :
    x = d ∨ ∃ child ∈ h.children d, ∃ c, child.definition = some c ∧ Below h c x := by
  induction hx with
  | refl => exact .inl rfl
  | @child y _ child hchild c hc ih =>
    rcases ih with rfl | ⟨first, hfirst, c', hc', hbelow⟩
    · exact .inr ⟨child, hchild, c, hc, .refl⟩
    · exact .inr ⟨first, hfirst, c', hc', hbelow.child hchild hc⟩

section Loop

variable [DecidableEq ι] {h : Hierarchy ι α} {subtreeWidth : Option ι → Nat} {d : ι}

/-- What the bases of the definitions become, if the table of the bases does not grow. -/
structure Based (h : Hierarchy ι α) (subtreeWidth : Option ι → Nat) (d : ι)
    (before after : DenseMap ι (List Nat)) : Prop where
  steady : after.Steady {x | Below h h.root x}
  keys : before.keys ⊆ after.keys
  repeats : ∀ x, ∃ n, Repeats (before.value x) (after.value x) (h.unitsList subtreeWidth x) n ∧
    (h.rank d < h.rank x → n = 0) ∧ (Below h d x → 1 ≤ n ∧ x ∈ after.keys)

/-- What a call of `layout` does. -/
structure LaidOut (h : Hierarchy ι α) (subtreeWidth : Option ι → Nat)
    (added : List (Site α × InstancePath ι)) (d : ι) (before after : Layout ι α) : Prop where
  tidy : Tidy after
  entries : after.occurrences.map Occurrence.entry =
    before.occurrences.map Occurrence.entry ++ added
  bases : {x | Below h h.root x}.encard < 48 →
    before.childBaseUnits.Steady {x | Below h h.root x} →
    Based h subtreeWidth d before.childBaseUnits after.childBaseUnits

theorem Tidy.openBases {state : Layout ι α} (htidy : Tidy state) (d : ι) :
    Tidy (state.openBases d) := ⟨htidy.rows, htidy.ordinals, htidy.sorted, htidy.owners⟩

theorem Tidy.addBase {state : Layout ι α} (htidy : Tidy state) (d : ι) (bases units : Nat) :
    Tidy (state.addBase d bases units) := ⟨htidy.rows, htidy.ordinals, htidy.sorted, htidy.owners⟩

/-- A reference to the bases of a definition that reaches the table. -/
structure Referenced (h : Hierarchy ι α) (d : ι) (bases : Nat) (m : DenseMap ι (List Nat)) :
    Prop where
  few : {x | Below h h.root x}.encard < 48
  steady : m.Steady {x | Below h h.root x}
  mem : d ∈ m.keys
  size : bases = 64

/-- What the bases become in the loop over some children of a definition. -/
structure LoopBased (h : Hierarchy ι α) (subtreeWidth : Option ι → Nat) (d : ι) (bases : Nat)
    (units : List Nat) (list : List (PlannedChild ι)) (before after : DenseMap ι (List Nat)) :
    Prop where
  referenced : Referenced h d bases after
  keys : before.keys ⊆ after.keys
  own : after.value d = before.value d ++ units
  others : ∀ x, x ≠ d → ∃ n, Repeats (before.value x) (after.value x)
    (h.unitsList subtreeWidth x) n ∧ (h.rank d < h.rank x → n = 0) ∧
      ∀ child ∈ list, ∀ c, child.definition = some c → Below h c x → 1 ≤ n ∧ x ∈ after.keys

/-- What the loop over some children of a definition does. -/
structure LoopLaidOut (h : Hierarchy ι α) (subtreeWidth : Option ι → Nat) (d : ι) (bases : Nat)
    (added : List (Site α × InstancePath ι)) (units : List Nat) (list : List (PlannedChild ι))
    (before after : Layout ι α) : Prop where
  tidy : Tidy after
  entries : after.occurrences.map Occurrence.entry =
    before.occurrences.map Occurrence.entry ++ added
  bases : Referenced h d bases before.childBaseUnits →
    LoopBased h subtreeWidth d bases units list before.childBaseUnits after.childBaseUnits

variable {bases units : Nat} {before : Layout ι α}

theorem Referenced.push (href : Referenced h d bases before.childBaseUnits) (units : Nat) :
    Referenced h d bases (before.addBase d bases units).childBaseUnits ∧
      before.childBaseUnits.keys ⊆ (before.addBase d bases units).childBaseUnits.keys ∧
      (before.addBase d bases units).childBaseUnits.value =
        Function.update before.childBaseUnits.value d
          (before.childBaseUnits.value d ++ [units]) := by
  have hkeys : (before.addBase d bases units).childBaseUnits.keys = before.childBaseUnits.keys :=
    DenseMap.modifyAt_keys ..
  refine ⟨⟨href.few, href.steady.modifyAt bases d (· ++ [units]), hkeys ▸ href.mem, href.size⟩,
    hkeys.ge, ?_⟩
  exact DenseMap.modifyAt_value ((href.steady.buckets_of_mem href.mem).trans href.size.symm) _ _

/-- The block of one child. -/
theorem layoutBlock_spec {child : PlannedChild ι} {paths : List (InstancePath ι)}
    (hrank : ∀ c, child.definition = some c → h.rank c < h.rank d)
    (hrecurse : ∀ c, child.definition = some c → ∀ before after : Layout ι α, Tidy before →
      recurse c paths before = .ok after →
      LaidOut h subtreeWidth (entriesOf c paths) c before after)
    {after : Layout ι α} (htidy : Tidy before)
    (hblock : layoutBlock recurse paths (before.addBase d bases units) child.definition =
      .ok after) :
    LoopLaidOut h subtreeWidth d bases (blockEntries entriesOf paths child.definition) [units]
      [child] before after := by
  cases hdefinition : child.definition with
  | none =>
    rw [hdefinition] at hblock
    obtain rfl := Except.ok.inj hblock
    refine ⟨htidy.addBase d bases units, (List.append_nil _).symm, fun href => ?_⟩
    obtain ⟨hpushed, hkeys, hvalue⟩ := href.push units
    refine ⟨hpushed, hkeys, ?_, ?_⟩
    · rw [hvalue, Function.update_self]
    · intro x hne
      refine ⟨0, ?_, fun _ => rfl, ?_⟩
      · rw [hvalue, Function.update_of_ne hne]
        exact Repeats.refl _ _
      · intro child' hchild' c hc
        rw [List.mem_singleton.mp hchild', hdefinition] at hc
        cases hc
  | some c =>
    rw [hdefinition] at hblock
    have hcall := hrecurse c hdefinition _ _ (htidy.addBase d bases units) hblock
    have hlower := hrank c hdefinition
    refine ⟨hcall.tidy, hcall.entries, fun href => ?_⟩
    obtain ⟨hpushed, hkeys, hvalue⟩ := href.push units
    have hbased := hcall.bases href.few hpushed.steady
    refine ⟨⟨href.few, hbased.steady, hbased.keys hpushed.mem, href.size⟩,
      hkeys.trans hbased.keys, ?_, ?_⟩
    · obtain ⟨n, hrepeats, hzero, -⟩ := hbased.repeats d
      rw [hzero hlower, Repeats, List.replicate_zero, List.flatten_nil, List.append_nil, hvalue,
        Function.update_self] at hrepeats
      exact hrepeats
    · intro x hne
      obtain ⟨n, hrepeats, hzero, hbelow⟩ := hbased.repeats x
      rw [hvalue, Function.update_of_ne hne] at hrepeats
      refine ⟨n, hrepeats, fun hx => hzero (Nat.lt_trans hlower hx), ?_⟩
      intro child' hchild' c' hc'
      rw [List.mem_singleton.mp hchild', hdefinition] at hc'
      obtain rfl := Option.some.inj hc'
      exact hbelow

/-- The bases of one child and of the rest of the loop. -/
theorem LoopBased.trans {first rest : List Nat} {child : PlannedChild ι}
    {list : List (PlannedChild ι)} {before middle after : DenseMap ι (List Nat)}
    (hfirst : LoopBased h subtreeWidth d bases first [child] before middle)
    (hlater : LoopBased h subtreeWidth d bases rest list middle after) :
    LoopBased h subtreeWidth d bases (first ++ rest) (child :: list) before after := by
  refine ⟨hlater.referenced, hfirst.keys.trans hlater.keys, ?_, ?_⟩
  · rw [hlater.own, hfirst.own, List.append_assoc]
  · intro x hne
    obtain ⟨m, hm, hmzero, hmbelow⟩ := hfirst.others x hne
    obtain ⟨n, hn, hnzero, hnbelow⟩ := hlater.others x hne
    refine ⟨m + n, hm.trans hn, fun hx => by rw [hmzero hx, hnzero hx], ?_⟩
    intro child' hchild' c hc hbelow
    rcases List.mem_cons.mp hchild' with rfl | hmem
    · obtain ⟨hpositive, hkey⟩ := hmbelow child' List.mem_cons_self c hc hbelow
      exact ⟨by omega, hlater.keys hkey⟩
    · obtain ⟨hpositive, hkey⟩ := hnbelow child' hmem c hc hbelow
      exact ⟨by omega, hkey⟩

/-- The loop over the children. -/
theorem layoutChildren_spec {paths : List (InstancePath ι)} {list : List (PlannedChild ι)}
    (hrank : ∀ child ∈ list, ∀ c, child.definition = some c → h.rank c < h.rank d)
    (hrecurse : ∀ child ∈ list, ∀ c, child.definition = some c →
      ∀ (paths : List (InstancePath ι)) (before after : Layout ι α), Tidy before →
      recurse c paths before = .ok after →
      LaidOut h subtreeWidth (entriesOf c paths) c before after) :
    ∀ {index units : Nat} {before after : Layout ι α}, Tidy before →
      layoutChildren subtreeWidth recurse d paths bases index list units before = .ok after →
      LoopLaidOut h subtreeWidth d bases (entryChildren entriesOf d paths index list).flatten
        (unitsFrom subtreeWidth units list) list before after := by
  induction list with
  | nil =>
    intro index units before after htidy hloop
    obtain rfl := Except.ok.inj hloop
    exact ⟨htidy, (List.append_nil _).symm, fun href => ⟨href, subset_rfl,
      (List.append_nil _).symm, fun x _ => ⟨0, Repeats.refl _ _, fun _ => rfl,
        fun _ hmem => absurd hmem List.not_mem_nil⟩⟩⟩
  | cons child rest ih =>
    intro index units before after htidy hloop
    rw [layoutChildren] at hloop
    obtain ⟨hoverflow, hloop⟩ := guard_eq_ok.mp hloop
    obtain ⟨middle, hmiddle, hloop⟩ := bind_eq_ok.mp hloop
    have hfirst := layoutBlock_spec (hrank child List.mem_cons_self)
      (fun c hc => hrecurse child List.mem_cons_self c hc _) htidy hmiddle
    have hlater := ih (List.forall_mem_cons.mp hrank).2
      (List.forall_mem_cons.mp hrecurse).2 hfirst.tidy hloop
    refine ⟨hlater.tidy, ?_, fun href => ?_⟩
    · rw [hlater.entries, hfirst.entries, entryChildren, List.flatten_cons, List.append_assoc]
    · have hbased := hfirst.bases href
      exact hbased.trans (hlater.bases hbased.referenced)

end Loop

/-- The layout from a definition below the root. -/
theorem layout_spec [DecidableEq ι]
    {subtreeWidth : Option ι → Nat} (hrecorded : ∀ d, Below h h.root d → Recorded h plan d)
    (fuel : Nat) :
    ∀ {d : ι} {paths : List (InstancePath ι)} {before after : Layout ι α}, Below h h.root d →
      Tidy before → layout plan subtreeWidth fuel d paths before = .ok after →
      LaidOut h subtreeWidth (h.entries plan.sites fuel d paths) d before after := by
  induction fuel with
  | zero =>
    intro d paths before after _ _ hlayout
    cases hlayout
  | succ fuel ih =>
    intro d paths before after hd htidy hlayout
    rw [layout] at hlayout
    obtain ⟨middle, hmiddle, hlayout⟩ := bind_eq_ok.mp hlayout
    have hrec := hrecorded d hd
    obtain ⟨hmiddleTidy, hentries, hbases⟩ := layoutLanes_spec hrec.ascending htidy hmiddle
    -- a planned child is one of the hierarchy
    have hplanned : ∀ child ∈ plan.children d, ∃ child' ∈ h.children d,
        child'.definition = child.definition := by
      intro child hchild
      rw [hrec.children] at hchild
      obtain ⟨child', hchild', rfl⟩ := List.mem_map.mp hchild
      exact ⟨child', hchild', rfl⟩
    have hloop := layoutChildren_spec (h := h) (d := d)
      (fun child hchild c hc => by
        obtain ⟨child', hchild', heq⟩ := hplanned child hchild
        exact h.acyclic d child' hchild' c (heq.trans hc))
      (fun child hchild c hc paths b a hb hcall => by
        obtain ⟨child', hchild', heq⟩ := hplanned child hchild
        exact ih (hd.child hchild' (heq.trans hc)) hb hcall)
      (hmiddleTidy.openBases d) hlayout
    refine ⟨hloop.tidy, ?_, fun hfew hsteady => ?_⟩
    · rw [hloop.entries, Hierarchy.entries, ← List.append_assoc, ← hentries, hrec.children]
      rfl
    · -- the reference is taken from the table after the insertion of the definition
      have hopened := (hbases ▸ hsteady : middle.childBaseUnits.Steady _).insert hfew hd
      have hmem : d ∈ (middle.childBaseUnits.insert d).keys :=
        DenseMap.mem_insert_keys.mpr (.inl rfl)
      have hbased := hloop.bases ⟨hfew, hopened, hmem, hopened.buckets_of_mem hmem⟩
      have hvalue : (middle.openBases d).childBaseUnits.value = before.childBaseUnits.value := by
        rw [← hbases]
        exact DenseMap.insert_value ..
      refine ⟨hbased.referenced.steady, ?_, ?_⟩
      · intro x hx
        exact hbased.keys (DenseMap.mem_insert_keys.mpr (.inr (hbases ▸ hx)))
      · intro x
        by_cases hx : x = d
        · subst hx
          refine ⟨1, ?_, fun hlt => absurd hlt (Nat.lt_irrefl _),
            fun _ => ⟨Nat.le_refl 1, hbased.referenced.mem⟩⟩
          rw [hbased.own, hvalue, hrec.sites, hrec.children]
          exact Repeats.once
        · obtain ⟨n, hn, hzero, hbelow⟩ := hbased.others x hx
          rw [hvalue] at hn
          refine ⟨n, hn, hzero, fun hbelow' => ?_⟩
          rcases hbelow'.cases_head with heq | ⟨child, hchild, c, hc, hcx⟩
          · exact absurd heq hx
          · have hmem : (⟨child.definition, child.extents.prod⟩ : PlannedChild ι) ∈
                plan.children d := by
              rw [hrec.children]
              exact List.mem_map_of_mem hchild
            exact hbelow _ hmem c hc hcx

end PyCircuit.HardwareEmit
