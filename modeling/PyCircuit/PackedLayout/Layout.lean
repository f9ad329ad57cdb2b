import PyCircuit.Table.Shape

/-!
# The packed layout of a hardware type

`visitPackedLayout` walks over a type and gives every scalar and every table a slice of the packed
value. The fields of a record are walked backward, so that the first declared field is the most
significant one. For a well-formed type whose width fits into 64 bits the walk succeeds, and its
leaves are the ones that the declaration order prescribes.
-/

set_option autoImplicit false

namespace PyCircuit.PackedLayout

open Lib Fallible

mutual

/-- A resolved hardware type. A name has one declaration, so records and enumerations carry it. -/
inductive HwType where
  | bits (width : Nat)
  | enumeration (name : String) (width : Nat)
  | table (extents : List Nat) (element : HwType)
  | record (name : String) (fields : Fields)
  deriving DecidableEq

/-- The fields of a record in the order of their declaration. -/
inductive Fields where
  | nil
  | cons (name : String) (type : HwType) (rest : Fields)
  deriving DecidableEq

end

mutual

def HwType.width : HwType → Nat
  | .bits width => width
  | .enumeration _ width => width
  | .table extents element => RowMajor.size extents * element.width
  | .record _ fields => fields.width

def Fields.width : Fields → Nat
  | .nil => 0
  | .cons _ type rest => type.width + rest.width

end

def Fields.names : Fields → List String
  | .nil => []
  | .cons name _ rest => name :: rest.names

mutual

/-- What the verifiers of the declarations ask for. -/
def HwType.WellFormed : HwType → Prop
  | .bits width => 0 < width
  | .enumeration _ width => 0 < width
  | .table extents element => Table.Valid extents ∧ element.WellFormed
  | .record _ fields => fields ≠ .nil ∧ fields.names.Nodup ∧ fields.AllWellFormed

def Fields.AllWellFormed : Fields → Prop
  | .nil => True
  | .cons _ type rest => type.WellFormed ∧ rest.AllWellFormed

end

/-! ## The walk -/

structure PackedLeaf where
  path : List String
  type : HwType
  low : Nat
  width : Nat
  deriving DecidableEq

/-- The leaves so far, where they are wanted, and the next free bit. -/
structure Walk where
  leaves : Option (List PackedLeaf)
  low : Nat

/-- The largest value of `uint64_t`. -/
def uint64Max : Nat := 2 ^ 64 - 1

/-- The check against the types that are open. -/
def enter (active : List HwType) (type : HwType) (body : Except String Walk) :
    Except String Walk :=
  if type ∈ active then .error "recursive packed struct layout" else body

/-- `natural` for the width of bits. -/
def naturalWidth (width : Nat) : Except String Nat :=
  if width = 0 ∨ uint64Max < width then
    .error "hardware static value must be positive and fit u64"
  else .ok width

/-- The leaf at the next free bit. -/
def pushLeaf (path : List String) (type : HwType) (width : Nat) (walk : Walk) :
    Except String Walk :=
  if walk.low > uint64Max - width then .error "packed width overflow"
  else .ok
    { leaves := walk.leaves.map (· ++ [{ path, type, low := walk.low, width }])
      low := walk.low + width }

def tableWidth (count elementWidth : Nat) : Except String Nat :=
  if elementWidth > uint64Max / count then .error "table packed width overflow"
  else .ok (count * elementWidth)

mutual

def visitPackedLayout (active : List HwType) (path : List String) (walk : Walk) :
    HwType → Except String Walk
  | .bits width => enter active (.bits width) do
      pushLeaf path (.bits width) (← naturalWidth width) walk
  | .enumeration name width => enter active (.enumeration name width)
      (pushLeaf path (.enumeration name width) width walk)
  | .table extents element => enter active (.table extents element) do
      let shape ← Table.resolveShape (extents.map Int.ofNat)
      let inner ← visitPackedLayout (.table extents element :: active) []
        { leaves := none, low := 0 } element
      let width ← tableWidth (RowMajor.size shape) inner.low
      pushLeaf path (.table extents element) width walk
  | .record name fields => enter active (.record name fields)
      (visitFields (.record name fields :: active) path walk fields)

/-- The fields from the last one to the first one. -/
def visitFields (active : List HwType) (path : List String) (walk : Walk) :
    Fields → Except String Walk
  | .nil => .ok walk
  | .cons name type rest => do
      let walk ← visitFields active path walk rest
      visitPackedLayout active (path ++ [name]) walk type

end

/-- `HardwareAnalysis::getLeaves`. -/
def getLeaves (type : HwType) : Except String (List PackedLeaf) := do
  let walk ← visitPackedLayout [] [] { leaves := some [], low := 0 } type
  .ok (walk.leaves.getD []).reverse

/-- The sum of `HardwareAnalysis::getPackedWidth`. -/
def sumWidths : List PackedLeaf → Nat → Except String Nat
  | [], width => .ok width
  | leaf :: rest, width =>
    if width > uint64Max - leaf.width then .error "packed width overflow"
    else sumWidths rest (width + leaf.width)

def getPackedWidth (type : HwType) : Except String Nat := do
  let leaves ← getLeaves type
  sumWidths leaves 0

/-! ## The layout that the declaration prescribes -/

mutual

/-- The leaves of a type from the most significant one on, above the bit `low`. -/
def HwType.leaves (path : List String) (low : Nat) : HwType → List PackedLeaf
  | .record _ fields => fields.leaves path low
  | .bits width => [⟨path, .bits width, low, width⟩]
  | .enumeration name width => [⟨path, .enumeration name width, low, width⟩]
  | .table extents element =>
    [⟨path, .table extents element, low, RowMajor.size extents * element.width⟩]

def Fields.leaves (path : List String) (low : Nat) : Fields → List PackedLeaf
  | .nil => []
  | .cons name type rest =>
    type.leaves (path ++ [name]) (low + rest.width) ++ rest.leaves path low

end

/-! ## The walk succeeds -/

theorem enter_eq {active : List HwType} {type : HwType} {body : Except String Walk}
    (h : ∀ a ∈ active, sizeOf type < sizeOf a) : enter active type body = body := by
  apply if_neg
  intro hmem
  exact Nat.lt_irrefl _ (h type hmem)

theorem naturalWidth_eq {width : Nat} (hpos : 0 < width) (h : width ≤ uint64Max) :
    naturalWidth width = .ok width := if_neg (by omega)

theorem pushLeaf_eq {path : List String} {type : HwType} {width : Nat} {walk : Walk}
    (h : walk.low + width ≤ uint64Max) :
    pushLeaf path type width walk = .ok
      { leaves := walk.leaves.map (· ++ [⟨path, type, walk.low, width⟩])
        low := walk.low + width } := if_neg (by omega)

theorem tableWidth_eq {count elementWidth : Nat} (hpos : 0 < count)
    (h : count * elementWidth ≤ uint64Max) :
    tableWidth count elementWidth = .ok (count * elementWidth) := by
  apply if_neg
  rw [Nat.not_lt, Nat.le_div_iff_mul_le hpos, Nat.mul_comm]
  exact h

/-- The walk after the leaves of a type. -/
def Walk.advance (walk : Walk) (leaves : List PackedLeaf) (width : Nat) : Walk where
  leaves := walk.leaves.map (· ++ leaves.reverse)
  low := walk.low + width

theorem Walk.advance_advance (walk : Walk) (first second : List PackedLeaf) (a b : Nat) :
    (walk.advance first a).advance second b = walk.advance (second ++ first) (b + a) := by
  cases walk with
  | mk leaves low =>
    cases leaves with
    | none | some leaves => simp [advance, Nat.add_assoc, Nat.add_comm a]

theorem Valid.size_pos {extents : List Nat} (h : Table.Valid extents) :
    0 < RowMajor.size extents := RowMajor.size_pos h.positive

mutual

theorem visitPackedLayout_eq (active : List HwType) (path : List String) (walk : Walk) :
    ∀ {type : HwType}, type.WellFormed → walk.low + type.width ≤ uint64Max →
      (∀ a ∈ active, sizeOf type < sizeOf a) →
      visitPackedLayout active path walk type =
        .ok (walk.advance (type.leaves path walk.low) type.width)
  | .bits width, hwf, hfits, hactive => by
      rw [visitPackedLayout, enter_eq hactive]
      rw [HwType.WellFormed] at hwf
      rw [HwType.width] at hfits
      rw [naturalWidth_eq hwf (by omega), ok_bind, pushLeaf_eq hfits]
      rfl
  | .enumeration name width, hwf, hfits, hactive => by
      rw [HwType.width] at hfits
      rw [visitPackedLayout, enter_eq hactive, pushLeaf_eq hfits]
      rfl
  | .table extents element, hwf, hfits, hactive => by
      rw [HwType.WellFormed] at hwf
      rw [HwType.width] at hfits
      obtain ⟨hvalid, helement⟩ := hwf
      have hcount := Valid.size_pos hvalid
      have hle : element.width ≤ RowMajor.size extents * element.width :=
        Nat.le_mul_of_pos_left _ hcount
      have hshape : Table.resolveShape (extents.map Int.ofNat) = .ok extents :=
        Table.resolveShape_eq_ok.mpr ⟨rfl, hvalid⟩
      have hsize : sizeOf element < sizeOf (HwType.table extents element) := by
        rw [HwType.table.sizeOf_spec]
        omega
      have hinner := visitPackedLayout_eq (.table extents element :: active) []
        { leaves := none, low := 0 } helement (show 0 + element.width ≤ uint64Max by omega)
        (List.forall_mem_cons.mpr ⟨hsize, fun a ha => hsize.trans (hactive a ha)⟩)
      rw [visitPackedLayout, enter_eq hactive, hshape, ok_bind, hinner, ok_bind]
      have hwidth : (Walk.advance { leaves := none, low := 0 } (element.leaves [] 0)
          element.width).low = element.width := Nat.zero_add _
      rw [hwidth, tableWidth_eq hcount (by omega), ok_bind, pushLeaf_eq hfits]
      rfl
  | .record name fields, hwf, hfits, hactive => by
      rw [HwType.WellFormed] at hwf
      rw [HwType.width] at hfits
      have hsize : sizeOf fields < sizeOf (HwType.record name fields) := by
        rw [HwType.record.sizeOf_spec]
        omega
      rw [visitPackedLayout, enter_eq hactive]
      exact visitFields_eq _ _ _ hwf.2.2 hfits
        (List.forall_mem_cons.mpr ⟨hsize, fun a ha => hsize.trans (hactive a ha)⟩)

theorem visitFields_eq (active : List HwType) (path : List String) (walk : Walk) :
    ∀ {fields : Fields}, fields.AllWellFormed → walk.low + fields.width ≤ uint64Max →
      (∀ a ∈ active, sizeOf fields < sizeOf a) →
      visitFields active path walk fields =
        .ok (walk.advance (fields.leaves path walk.low) fields.width)
  | .nil, _, _, _ => by
      rw [visitFields]
      cases walk with
      | mk leaves low =>
        cases leaves with
        | none => rfl
        | some leaves => simp [Walk.advance, Fields.leaves, Fields.width]
  | .cons name type rest, hwf, hfits, hactive => by
      rw [Fields.AllWellFormed] at hwf
      rw [Fields.width] at hfits
      have hrest : sizeOf rest < sizeOf (Fields.cons name type rest) := by
        rw [Fields.cons.sizeOf_spec]
        omega
      have htype : sizeOf type < sizeOf (Fields.cons name type rest) := by
        rw [Fields.cons.sizeOf_spec]
        omega
      have hlow : (walk.advance (rest.leaves path walk.low) rest.width).low =
          walk.low + rest.width := rfl
      rw [visitFields, visitFields_eq _ _ _ hwf.2 (by omega) fun a ha => hrest.trans (hactive a ha),
        ok_bind,
        visitPackedLayout_eq _ _ _ hwf.1 (by omega) fun a ha => htype.trans (hactive a ha),
        Walk.advance_advance]
      rfl

end

theorem getLeaves_eq {type : HwType} (hwf : type.WellFormed) (hwidth : type.width < 2 ^ 64) :
    getLeaves type = .ok (type.leaves [] 0) := by
  have hfits : 0 + type.width ≤ uint64Max := by
    rw [uint64Max]
    omega
  have hvisit := visitPackedLayout_eq [] [] { leaves := some [], low := 0 } hwf hfits
    fun a ha => absurd ha List.not_mem_nil
  rw [getLeaves, hvisit, ok_bind]
  simp [Walk.advance]

/-! ## The leaves tile the packed value -/

/-- Each leaf ends where the one before it starts, from `high` down to `low`. -/
def Tiles : List PackedLeaf → Nat → Nat → Prop
  | [], low, high => low = high
  | leaf :: rest, low, high => leaf.low + leaf.width = high ∧ Tiles rest low leaf.low

theorem Tiles.append {first second : List PackedLeaf} {low middle high : Nat}
    (hfirst : Tiles first middle high) (hsecond : Tiles second low middle) :
    Tiles (first ++ second) low high := by
  induction first generalizing high with
  | nil =>
    cases hfirst
    exact hsecond
  | cons leaf rest ih => exact ⟨hfirst.1, ih hfirst.2⟩

mutual

theorem HwType.tiles (path : List String) (low : Nat) :
    ∀ type : HwType, Tiles (type.leaves path low) low (low + type.width)
  | .bits _ => ⟨rfl, rfl⟩
  | .enumeration _ _ => ⟨rfl, rfl⟩
  | .table _ _ => ⟨rfl, rfl⟩
  | .record _ fields => Fields.tiles path low fields

theorem Fields.tiles (path : List String) (low : Nat) :
    ∀ fields : Fields, Tiles (fields.leaves path low) low (low + fields.width)
  | .nil => rfl
  | .cons name type rest => by
      have htype := HwType.tiles (path ++ [name]) (low + rest.width) type
      rw [Nat.add_assoc, Nat.add_comm rest.width] at htype
      exact htype.append (Fields.tiles path low rest)

end

namespace Tiles

variable {leaves : List PackedLeaf} {low high : Nat}

theorem le (h : Tiles leaves low high) : low ≤ high := by
  induction leaves generalizing high with
  | nil => exact Nat.le_of_eq h
  | cons leaf rest ih =>
    obtain ⟨hhigh, hrest⟩ := h
    exact (ih hrest).trans (hhigh ▸ Nat.le_add_right ..)

theorem within (h : Tiles leaves low high) :
    ∀ leaf ∈ leaves, low ≤ leaf.low ∧ leaf.low + leaf.width ≤ high := by
  induction leaves generalizing high with
  | nil => exact fun leaf hleaf => absurd hleaf List.not_mem_nil
  | cons first rest ih =>
    obtain ⟨hhigh, hrest⟩ := h
    refine List.forall_mem_cons.mpr ⟨⟨hrest.le, Nat.le_of_eq hhigh⟩, fun leaf hleaf => ?_⟩
    obtain ⟨hlow, hle⟩ := ih hrest leaf hleaf
    exact ⟨hlow, by omega⟩

/-- The leaves do not overlap: a later leaf lies below an earlier one. -/
theorem descending (h : Tiles leaves low high) :
    leaves.Pairwise fun a b => b.low + b.width ≤ a.low := by
  induction leaves generalizing high with
  | nil => exact .nil
  | cons first rest ih => exact .cons (fun leaf hleaf => (h.2.within leaf hleaf).2) (ih h.2)

/-- Every bit lies in a leaf. -/
theorem covers (h : Tiles leaves low high) {i : Nat} (hlow : low ≤ i) (hhigh : i < high) :
    ∃ leaf ∈ leaves, leaf.low ≤ i ∧ i < leaf.low + leaf.width := by
  induction leaves generalizing high with
  | nil =>
    cases h
    omega
  | cons first rest ih =>
    obtain ⟨heq, hrest⟩ := h
    by_cases hin : first.low ≤ i
    · exact ⟨first, List.mem_cons_self, hin, by omega⟩
    · obtain ⟨leaf, hleaf, hbit⟩ := ih hrest (by omega)
      exact ⟨leaf, List.mem_cons_of_mem _ hleaf, hbit⟩

end Tiles

/-- The packed width is the sum of the leaves. -/
theorem sumWidths_eq {leaves : List PackedLeaf} {low high width : Nat}
    (h : Tiles leaves low high) (hfits : width + (high - low) ≤ uint64Max) :
    sumWidths leaves width = .ok (width + (high - low)) := by
  induction leaves generalizing high width with
  | nil =>
    cases h
    rw [Nat.sub_self]
    rfl
  | cons leaf rest ih =>
    obtain ⟨heq, hrest⟩ := h
    have hle := hrest.le
    rw [sumWidths, if_neg (by omega), ih hrest (by omega)]
    congr 1
    omega

theorem getPackedWidth_eq {type : HwType} (hwf : type.WellFormed)
    (hwidth : type.width < 2 ^ 64) : getPackedWidth type = .ok type.width := by
  have htiles := HwType.tiles [] 0 type
  rw [Nat.zero_add] at htiles
  have hfits : 0 + (type.width - 0) ≤ uint64Max := by
    rw [uint64Max]
    omega
  have hsum := sumWidths_eq htiles hfits
  rw [Nat.zero_add, Nat.sub_zero] at hsum
  rw [getPackedWidth, getLeaves_eq hwf hwidth, ok_bind, hsum]

end PyCircuit.PackedLayout
